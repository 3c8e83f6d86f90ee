import SlpGraphSearch.BlockSync
import SlpGraphSearch.ChainValidity

/-!
# The listener during start-up

After the RPC loop, `main` starts the listener and fetches the mempool while the listener
is running. Until `startup_processing_mempool` is cleared the listener only collects
transactions. It does nothing about a block.

Each thread's steps are atomic here, and a run is any interleaving of them. A step of
`main` that is not due changes nothing.
-/
namespace SlpGraphSearch
open Library Transaction

/-- A message with its decoded contents, if they decode. -/
inductive ZmqMessage
  | rawtx (tx : Option Transaction)
  | rawblock (block : Option (List Transaction))

/-- Where `main` stands after the RPC loop. -/
inductive MainStep
  | fetchMempool
  | pushMempool (rest : List Transaction)
  | processMempool
  | clearFlag
  | done

/-- The shared state of the two threads, and the blocks that the listener received. -/
structure StartUp where
  server : Server
  currentBlockHeight : ℤ
  startupProcessingMempool : Bool
  startupMempoolTransactions : List Transaction
  main : MainStep
  rawblocks : List (List Transaction)

/-- A step of a thread. `listen` handles a message; `mempool` is what the node answers if
a block is processed. `fetch` carries the answer of `get_mempool_transactions`, which may
throw. -/
inductive Action
  | listen (message : ZmqMessage) (order : TokenOrder) (mempool : List Transaction)
  | fetch (answer : Option (List Transaction))
  | push
  | process (order : TokenOrder)
  | clear

/-- The block that the listener receives in a step. -/
def Action.rawblock : Action → Option (List Transaction)
  | .listen (.rawblock block) _ _ => block
  | _ => none

namespace StartUp

/-- The branch of the listener for the start-up phase. -/
def collect (s : StartUp) : ZmqMessage → StartUp
  | .rawtx (some tx) =>
      if tx.slp.type ≠ .invalid then
        { s with startupMempoolTransactions := s.startupMempoolTransactions ++ [tx] }
      else s
  | _ => s

/-- The other branch. -/
def handle (s : StartUp) (order : TokenOrder) (mempool : List Transaction) :
    ZmqMessage → Except Failure StartUp
  | .rawtx (some tx) => do .ok { s with server := (← s.server.slpsyncBitcoindProcessTx tx).2 }
  | .rawblock (some block) => do
      .ok { s with
        currentBlockHeight := s.currentBlockHeight + 1
        server := ← s.server.zmqBlock order block mempool }
  | _ => .ok s

/-- A message arrives at the listener. -/
def listen (s : StartUp) (message : ZmqMessage) (order : TokenOrder)
    (mempool : List Transaction) : Except Failure StartUp :=
  let s := { s with rawblocks := s.rawblocks ++
    (Action.listen message order mempool).rawblock.toList }
  if s.startupProcessingMempool then .ok (s.collect message) else s.handle order mempool message

/-- The mempool block of `main` and its processing. -/
def processMempool (s : StartUp) (order : TokenOrder) : Except Failure StartUp := do
  let txs ← topologicalSort s.startupMempoolTransactions
  .ok { s with server := ← s.server.slpsyncBitcoindProcessMempool order txs, main := .clearFlag }

def step (s : StartUp) : Action → Except Failure StartUp
  | .listen message order mempool => s.listen message order mempool
  | .fetch answer =>
      match s.main, answer with
      | .fetchMempool, some txs => .ok { s with main := .pushMempool txs }
      | _, _ => .ok s
  | .push =>
      match s.main with
      | .pushMempool (tx :: rest) => .ok { s with
          startupMempoolTransactions := s.startupMempoolTransactions ++ [tx]
          main := .pushMempool rest }
      | .pushMempool [] => .ok { s with main := .processMempool }
      | _ => .ok s
  | .process order =>
      match s.main with
      | .processMempool => s.processMempool order
      | _ => .ok s
  | .clear =>
      match s.main with
      | .clearFlag => .ok { s with startupProcessingMempool := false, main := .done }
      | _ => .ok s

/-- The blocks received since a height was synchronized are applied: their valid
transactions are valid for the server, and the counter counts them. -/
def AllApplied (L : Ledger) (start : ℤ) (s : StartUp) : Prop :=
  (∀ block ∈ s.rawblocks, ∀ tx ∈ block, tx.txid ∈ SlpValid L.T →
    tx.txid ∈ s.server.validator.valid) ∧
  s.currentBlockHeight = start + s.rawblocks.length

/-! ## Steps -/

theorem collect_keeps (s : StartUp) (message : ZmqMessage) :
    (s.collect message).startupProcessingMempool = s.startupProcessingMempool ∧
      (s.collect message).currentBlockHeight = s.currentBlockHeight ∧
      (s.collect message).rawblocks = s.rawblocks := by
  unfold collect
  split
  · split_ifs <;> exact ⟨rfl, rfl, rfl⟩
  · exact ⟨rfl, rfl, rfl⟩

theorem handle_flag {s s' : StartUp} {order : TokenOrder} {mempool : List Transaction}
    {message : ZmqMessage} (h : s.handle order mempool message = .ok s') :
    s'.startupProcessingMempool = s.startupProcessingMempool := by
  unfold handle at h
  split at h
  · rw [bind_eq_ok] at h
    obtain ⟨r, -, h⟩ := h
    rw [← Except.ok.inj h]
  · rw [bind_eq_ok] at h
    obtain ⟨r, -, h⟩ := h
    rw [← Except.ok.inj h]
  · rw [← Except.ok.inj h]

theorem processMempool_keeps {s s' : StartUp} {order : TokenOrder}
    (h : s.processMempool order = .ok s') :
    s'.startupProcessingMempool = s.startupProcessingMempool ∧
      s'.currentBlockHeight = s.currentBlockHeight ∧ s'.rawblocks = s.rawblocks := by
  simp only [processMempool, bind_eq_ok] at h
  obtain ⟨txs, -, server, -, h⟩ := h
  rw [← Except.ok.inj h]
  exact ⟨rfl, rfl, rfl⟩

/-- Within the phase blocks are received and nothing counts them. -/
theorem step_phase {s s' : StartUp} {a : Action} (h : s.step a = .ok s')
    (hphase : s'.startupProcessingMempool = true) :
    s.startupProcessingMempool = true ∧ s'.currentBlockHeight = s.currentBlockHeight ∧
      s'.rawblocks = s.rawblocks ++ a.rawblock.toList := by
  cases a with
  | listen message order mempool =>
      simp only [step, listen] at h
      split_ifs at h with hflag
      · obtain ⟨hflag', hheight, hblocks⟩ := collect_keeps { s with
          rawblocks := s.rawblocks ++
            (Action.listen message order mempool).rawblock.toList } message
        rw [← Except.ok.inj h]
        exact ⟨hflag, hheight, hblocks⟩
      · rw [handle_flag h] at hphase
        exact absurd hphase hflag
  | fetch answer =>
      simp only [step] at h
      split at h
      all_goals
        rw [← Except.ok.inj h] at hphase ⊢
        exact ⟨hphase, rfl, by simp [Action.rawblock]⟩
  | push =>
      simp only [step] at h
      split at h
      all_goals
        rw [← Except.ok.inj h] at hphase ⊢
        exact ⟨hphase, rfl, by simp [Action.rawblock]⟩
  | process order =>
      simp only [step] at h
      split at h
      · obtain ⟨hflag, hheight, hblocks⟩ := processMempool_keeps h
        exact ⟨hflag ▸ hphase, hheight, by simp [hblocks, Action.rawblock]⟩
      · rw [← Except.ok.inj h] at hphase ⊢
        exact ⟨hphase, rfl, by simp [Action.rawblock]⟩
  | clear =>
      simp only [step] at h
      split at h
      · rw [← Except.ok.inj h] at hphase
        simp at hphase
      · rw [← Except.ok.inj h] at hphase ⊢
        exact ⟨hphase, rfl, by simp [Action.rawblock]⟩

/-- A run that stays within the phase. -/
theorem run_phase {actions : List Action} {s s' : StartUp}
    (h : actions.foldlM step s = .ok s') (hphase : s'.startupProcessingMempool = true) :
    s'.currentBlockHeight = s.currentBlockHeight ∧
      s'.rawblocks = s.rawblocks ++ actions.filterMap Action.rawblock := by
  induction actions using List.reverseRecOn generalizing s' with
  | nil =>
      rw [List.foldlM_nil] at h
      rw [← Except.ok.inj h]
      exact ⟨rfl, by simp⟩
  | append_singleton actions a ih =>
      obtain ⟨s₁, hrun, hstep⟩ := foldlM_concat.mp h
      obtain ⟨hphase₁, hheight, hblocks⟩ := step_phase hstep hphase
      obtain ⟨hheight₁, hblocks₁⟩ := ih hrun hphase₁
      refine ⟨hheight.trans hheight₁, ?_⟩
      rw [hblocks, hblocks₁, List.filterMap_append, List.append_assoc]
      cases hblock : a.rawblock <;> simp [hblock]

/-- In every interleaving: when `startup_processing_mempool` is cleared, every block that
the listener received since the RPC loop is applied exactly if it received none. -/
theorem run_allApplied_iff (L : Ledger) {s₀ s s' : StartUp} (hnone : s₀.rawblocks = [])
    {actions : List Action} (hrun : actions.foldlM step s₀ = .ok s)
    (hphase : s.startupProcessingMempool = true) (hclear : s.step .clear = .ok s') :
    s'.AllApplied L s₀.currentBlockHeight ↔ ∀ a ∈ actions, a.rawblock = none := by
  obtain ⟨hheight, hblocks⟩ := run_phase hrun hphase
  rw [hnone, List.nil_append] at hblocks
  have hsame : s'.currentBlockHeight = s.currentBlockHeight ∧ s'.rawblocks = s.rawblocks := by
    simp only [step] at hclear
    split at hclear <;> rw [← Except.ok.inj hclear] <;> exact ⟨rfl, rfl⟩
  rw [← List.filterMap_eq_nil_iff, ← hblocks, AllApplied, hsame.1, hsame.2, hheight]
  constructor
  · rintro ⟨-, hcount⟩
    exact List.length_eq_zero_iff.mp (by omega)
  · intro hnil
    rw [hnil]
    exact ⟨by simp, by simp⟩

/-- The state in which the listener starts. -/
def afterRpc (server : Server) (height : ℤ) : StartUp :=
  ⟨server, height, true, [], .fetchMempool, []⟩

/-- A GENESIS is in the mempool, and its SEND arrives meanwhile. -/
def quietPhase : List Action :=
  [.fetch (some [sampleGenesis]), .listen (.rawtx (some sampleSend)) (.insertion _) [], .push,
    .push, .process (.insertion _)]

theorem run_allApplied_iff_sample :
    ∃ s s', quietPhase.foldlM step (afterRpc (.empty false) 0) = .ok s ∧
      s.step .clear = .ok s' ∧ s'.startupProcessingMempool = false ∧
      (s'.AllApplied Validator.sampleLedger 0 ↔ ∀ a ∈ quietPhase, a.rawblock = none) := by
  have hrun : ∃ s, quietPhase.foldlM step (afterRpc (.empty false) 0) = .ok s ∧
      s.startupProcessingMempool = true ∧ ∃ s', s.step .clear = .ok s' ∧
        s'.startupProcessingMempool = false := by decide +kernel
  obtain ⟨s, hs, hphase, s', hs', hcleared⟩ := hrun
  have hnone : (afterRpc (.empty false) 0).rawblocks = [] := rfl
  exact ⟨s, s', hs, hs', hcleared,
    run_allApplied_iff Validator.sampleLedger hnone hs hphase hs'⟩

/-- The block of a GENESIS arrives while `main` fetches the mempool, which is empty. -/
def blockInPhase : List Action :=
  [.fetch (some []), .listen (.rawblock (some [sampleGenesis])) (.insertion _) [], .push,
    .process (.insertion _), .clear]

/-- The GENESIS is unknown afterwards, and the counter stands still. -/
theorem rawblock_dropped :
    ∃ s, blockInPhase.foldlM step (afterRpc (.empty false) 0) = .ok s ∧
      s.startupProcessingMempool = false ∧ s.rawblocks = [[sampleGenesis]] ∧
      sampleGenesis.txid ∉ s.server.validator.valid ∧
      ¬ s.AllApplied Validator.sampleLedger 0 := by
  have hrun : ∃ s, blockInPhase.foldlM step (afterRpc (.empty false) 0) = .ok s ∧
      s.startupProcessingMempool = false ∧ s.rawblocks = [[sampleGenesis]] ∧
      sampleGenesis.txid ∉ s.server.validator.valid ∧ s.currentBlockHeight = 0 := by
    decide +kernel
  obtain ⟨s, hs, hcleared, hblocks, hunknown, hheight⟩ := hrun
  refine ⟨s, hs, hcleared, hblocks, hunknown, fun h => ?_⟩
  have hcount := h.2
  rw [hheight, hblocks] at hcount
  simp at hcount

end StartUp
end SlpGraphSearch
