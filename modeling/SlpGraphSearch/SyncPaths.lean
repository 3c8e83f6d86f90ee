import SlpGraphSearch.BlockSync
import SlpGraphSearch.UtxoIndex

/-!
# The start-up loops against the listener

The listener hands each block to `bch` once. The start-up loops hand it over twice,
which shows in the height of the output store: it counts the calls.
-/
namespace SlpGraphSearch
open Library Transaction

/-- The two loops of `main` that consume blocks before it listens. -/
inductive StartLoop
  | rpc
  | replay

/-- One block in a start-up loop. -/
def StartLoop.block (loop : StartLoop) (s : Server) (order : TokenOrder)
    (block : List Transaction) : Except Failure Server :=
  match loop with
  | .rpc => do .ok (← s.rpcBlock order block).1
  | .replay => s.replayBlock order block

def StartLoop.run (loop : StartLoop) (s : Server) (blocks : List (TokenOrder × List Transaction)) :
    Except Failure Server :=
  blocks.foldlM (fun s block => loop.block s block.1 block.2) s

namespace Server

/-- A message of the listener: an order of iteration, the block, and the mempool behind it. -/
structure RawBlock where
  order : TokenOrder
  txs : List Transaction
  mempool : List Transaction

def zmqRun (s : Server) (blocks : List RawBlock) : Except Failure Server :=
  blocks.foldlM (fun s block => s.zmqBlock block.order block.txs block.mempool) s

/-- `bch` is what one call of `process_block` for each block makes of it; the
transactions of a block may come in another order. -/
def AppliedOnce (s s' : Server) (blocks : List (List Transaction)) : Prop :=
  ∃ applied, List.Forall₂ List.Perm applied blocks ∧
    applied.foldlM (fun b txs => b.processBlock txs true) s.bch = .ok s'.bch

/-! ## The height counts the calls -/

/-- The height that `bch` keeps for itself. -/
abbrev height (s : Server) : UInt32 := s.bch.utxodb.currentBlockHeight

theorem foldl_height {α : Type} {f : Utxodb → α → Utxodb}
    (h : ∀ db a, (f db a).currentBlockHeight = db.currentBlockHeight) (as : List α) (db : Utxodb) :
    (as.foldl f db).currentBlockHeight = db.currentBlockHeight := by
  induction as generalizing db with
  | nil => rfl
  | cons a as ih => rw [List.foldl_cons, ih, h]

theorem spendUtxo_height (db : Utxodb) (m : Outpoint) :
    (spendUtxo db m).currentBlockHeight = db.currentBlockHeight := by
  have hconfirmed : (db.spendConfirmed m).1.currentBlockHeight = db.currentBlockHeight := by
    unfold Utxodb.spendConfirmed
    split <;> rfl
  have hmempool : ∀ db : Utxodb, (db.spendMempool m).1.currentBlockHeight =
      db.currentBlockHeight := fun db => by
    unfold Utxodb.spendMempool
    split <;> rfl
  rw [spendUtxo, hmempool, hconfirmed]

theorem processBlock_height {b b' : Bch} {txs : List Transaction} {saveRollback : Bool}
    (h : b.processBlock txs saveRollback = .ok b') :
    b'.utxodb.currentBlockHeight = b.utxodb.currentBlockHeight + 1 := by
  have hblock : (blockUtxodb b.utxodb txs).currentBlockHeight =
      b.utxodb.currentBlockHeight + 1 := by
    rw [blockUtxodb, foldl_height spendUtxo_height,
      foldl_height (f := Utxodb.addOutput) fun _ _ => rfl]
  obtain ⟨added, removed, hdb⟩ := utxodb_of_processBlock h
  rw [hdb]
  split_ifs
  · exact hblock
  · exact hblock

theorem processMempoolTx_height {b b' : Bch} {tx : Transaction}
    (h : b.processMempoolTx tx = .ok b') :
    b'.utxodb.currentBlockHeight = b.utxodb.currentBlockHeight := by
  have hspend : ∀ (db : Utxodb) (m : Outpoint),
      (db.spendByMempool m).currentBlockHeight = db.currentBlockHeight := fun db m => by
    unfold Utxodb.spendByMempool
    split <;> rfl
  rw [utxodb_of_processMempoolTx h, foldl_height hspend,
    foldl_height (f := Utxodb.addMempoolOutput) fun _ _ => rfl]

theorem foldlM_processMempoolTx_height {txs : List Transaction} {b b' : Bch}
    (h : txs.foldlM Bch.processMempoolTx b = .ok b') :
    b'.utxodb.currentBlockHeight = b.utxodb.currentBlockHeight := by
  induction txs generalizing b with
  | nil => rw [← Except.ok.inj h]
  | cons tx txs ih =>
      rw [List.foldlM_cons, bind_eq_ok] at h
      obtain ⟨b₁, hb₁, h⟩ := h
      rw [ih h, processMempoolTx_height hb₁]

theorem slpsyncBitcoindProcessBlock_height {s s' : Server} {order : TokenOrder}
    {txs validTxs : List Transaction} {trusted : Bool} (hu : s.utxosync = true)
    (h : s.slpsyncBitcoindProcessBlock order txs trusted = .ok (s', validTxs)) :
    s'.utxosync = true ∧ s'.height = s.height + 1 := by
  simp only [slpsyncBitcoindProcessBlock, hu, if_true, bind_eq_ok] at h
  obtain ⟨bch, hbch, ⟨validator, list⟩, -, h⟩ := h
  obtain ⟨rfl, -⟩ := Prod.mk.inj (Except.ok.inj h)
  exact ⟨rfl, processBlock_height hbch⟩

theorem utxosyncBlock_height {s s' : Server} {txs : List Transaction} (hu : s.utxosync = true)
    (h : s.utxosyncBlock txs = .ok s') : s'.utxosync = true ∧ s'.height = s.height + 1 := by
  simp only [utxosyncBlock, hu, if_true, bind_eq_ok] at h
  obtain ⟨bch, hbch, h⟩ := h
  rw [← Except.ok.inj h]
  exact ⟨rfl, processBlock_height hbch⟩

/-- A start-up loop calls `process_block` twice. -/
theorem startLoop_block_height {loop : StartLoop} {s s' : Server} {order : TokenOrder}
    {block : List Transaction} (hu : s.utxosync = true) (h : loop.block s order block = .ok s') :
    s'.utxosync = true ∧ s'.height = s.height + 1 + 1 := by
  have htwice : ∀ {s₁ : Server} {txs validTxs : List Transaction} {trusted : Bool},
      s.slpsyncBitcoindProcessBlock order txs trusted = .ok (s₁, validTxs) →
      s₁.utxosyncBlock txs = .ok s' → s'.utxosync = true ∧ s'.height = s.height + 1 + 1 := by
    intro s₁ txs validTxs trusted hs₁ hs'
    obtain ⟨hu₁, h₁⟩ := slpsyncBitcoindProcessBlock_height hu hs₁
    obtain ⟨hu', h'⟩ := utxosyncBlock_height hu₁ hs'
    exact ⟨hu', by rw [h', h₁]⟩
  cases loop with
  | rpc =>
      simp only [StartLoop.block, rpcBlock, bind_eq_ok] at h
      obtain ⟨r, ⟨txs, -, ⟨s₁, validTxs⟩, hs₁, s₂, hs₂, hr⟩, h⟩ := h
      rw [← Except.ok.inj hr] at h
      exact htwice hs₁ (hs₂.trans h)
  | replay =>
      simp only [StartLoop.block, replayBlock, bind_eq_ok] at h
      obtain ⟨⟨s₁, validTxs⟩, hs₁, h⟩ := h
      exact htwice hs₁ h

theorem zmqBlock_height {s s' : Server} {order : TokenOrder} {block mempool : List Transaction}
    (hu : s.utxosync = true) (h : s.zmqBlock order block mempool = .ok s') :
    s'.utxosync = true ∧ s'.height = s.height + 1 := by
  simp only [zmqBlock, bind_eq_ok] at h
  obtain ⟨txs, -, ⟨s₁, validTxs⟩, hs₁, sorted, -, h⟩ := h
  obtain ⟨hu₁, h₁⟩ := slpsyncBitcoindProcessBlock_height hu hs₁
  simp only [slpsyncBitcoindProcessMempool, hu₁, if_true, bind_eq_ok] at h
  obtain ⟨r, -, bch, hbch, h⟩ := h
  rw [← Except.ok.inj h]
  exact ⟨rfl, (foldlM_processMempoolTx_height hbch).trans h₁⟩

theorem startLoop_run_height {loop : StartLoop} {s s' : Server}
    {blocks : List (TokenOrder × List Transaction)} (hu : s.utxosync = true)
    (h : loop.run s blocks = .ok s') :
    s'.height = s.height + UInt32.ofNat (2 * blocks.length) := by
  induction blocks generalizing s with
  | nil =>
      rw [← Except.ok.inj h]
      simp
  | cons block blocks ih =>
      rw [StartLoop.run, List.foldlM_cons, bind_eq_ok] at h
      obtain ⟨s₁, hs₁, h⟩ := h
      obtain ⟨hu₁, h₁⟩ := startLoop_block_height hu hs₁
      have hlen : 2 * (blocks.length + 1) = 1 + (1 + 2 * blocks.length) := by ring
      rw [ih hu₁ h, h₁, List.length_cons, hlen, UInt32.ofNat_add, UInt32.ofNat_add,
        UInt32.add_assoc, UInt32.add_assoc]
      rfl

theorem zmqRun_height {s s' : Server} {blocks : List RawBlock} (hu : s.utxosync = true)
    (h : s.zmqRun blocks = .ok s') : s'.height = s.height + UInt32.ofNat blocks.length := by
  induction blocks generalizing s with
  | nil =>
      rw [← Except.ok.inj h]
      simp
  | cons block blocks ih =>
      rw [zmqRun, List.foldlM_cons, bind_eq_ok] at h
      obtain ⟨s₁, hs₁, h⟩ := h
      obtain ⟨hu₁, h₁⟩ := zmqBlock_height hu hs₁
      rw [ih hu₁ h, h₁, List.length_cons, Nat.add_comm, UInt32.ofNat_add, UInt32.add_assoc]
      rfl

/-- A start-up loop leaves `bch` as the listener does, each block applied once, exactly
if there is no block at all. Heights have 32 bits, which bounds the blocks of a start. -/
theorem startLoop_agrees_iff (loop : StartLoop) {s s₁ s₂ : Server} (hu : s.utxosync = true)
    {blocks : List (TokenOrder × List Transaction)} {msgs : List RawBlock}
    (hsame : msgs.map RawBlock.txs = blocks.map Prod.snd) (hlen : blocks.length < 2 ^ 32)
    (hstart : loop.run s blocks = .ok s₁) (hzmq : s.zmqRun msgs = .ok s₂) :
    s₁.bch = s₂.bch ∧ s.AppliedOnce s₁ (blocks.map Prod.snd) ↔ blocks = [] := by
  constructor
  · rintro ⟨heq, -⟩
    have hcount : msgs.length = blocks.length := by simpa using congrArg List.length hsame
    have h₁ := startLoop_run_height hu hstart
    have h₂ := zmqRun_height hu hzmq
    have hheight : s₁.height = s₂.height := by rw [height, heq]
    rw [h₁, h₂, hcount] at hheight
    have hnat := congrArg UInt32.toNat (add_left_cancel hheight)
    rw [UInt32.toNat_ofNat', UInt32.toNat_ofNat'] at hnat
    exact List.eq_nil_of_length_eq_zero (by omega)
  · rintro rfl
    obtain rfl : msgs = [] := by simpa using hsame
    obtain rfl := Except.ok.inj hstart
    obtain rfl := Except.ok.inj hzmq
    exact ⟨rfl, [], .nil, rfl⟩

/-- One block with a GENESIS, in any loop. -/
def sampleBlocks : List (TokenOrder × List Transaction) := [(.insertion _, [sampleGenesis])]

def sampleMessages : List RawBlock := [⟨.insertion _, [sampleGenesis], []⟩]

theorem sampleMessages_run : ∃ s, (Server.empty true).zmqRun sampleMessages = .ok s ∧
    s.height = 1 ∧ s.bch.utxodb.lastBlockAdded.length = 1 := by decide +kernel

theorem sampleBlocks_run (loop : StartLoop) :
    ∃ s, loop.run (Server.empty true) sampleBlocks = .ok s ∧
      s.height = 2 ∧ s.bch.utxodb.lastBlockAdded.length = 2 := by
  cases loop <;> decide +kernel

theorem startLoop_agrees_iff_sample :
    ∃ s₁ s₂, StartLoop.rpc.run (.empty true) sampleBlocks = .ok s₁ ∧
      (Server.empty true).zmqRun sampleMessages = .ok s₂ ∧
      (s₁.bch = s₂.bch ∧ (Server.empty true).AppliedOnce s₁ [[sampleGenesis]] ↔
        sampleBlocks = []) := by
  obtain ⟨s₁, hs₁, -⟩ := sampleBlocks_run .rpc
  obtain ⟨s₂, hs₂, -⟩ := sampleMessages_run
  exact ⟨s₁, s₂, hs₁, hs₂, startLoop_agrees_iff .rpc rfl rfl (by decide) hs₁ hs₂⟩

/-- The height is 2 after one block, and the rollback lists have two entries for it. -/
theorem startLoop_disagrees : ∃ s₁ s₂,
    StartLoop.rpc.run (.empty true) sampleBlocks = .ok s₁ ∧
      (Server.empty true).zmqRun sampleMessages = .ok s₂ ∧
      s₁.height = 2 ∧ s₂.height = 1 ∧ s₁.bch.utxodb.lastBlockAdded.length = 2 ∧
      s₂.bch.utxodb.lastBlockAdded.length = 1 ∧ s₁.bch ≠ s₂.bch := by
  obtain ⟨s₁, hs₁, hheight₁, hadded₁⟩ := sampleBlocks_run .rpc
  obtain ⟨s₂, hs₂, hheight₂, hadded₂⟩ := sampleMessages_run
  refine ⟨s₁, s₂, hs₁, hs₂, hheight₁, hheight₂, hadded₁, hadded₂, fun heq => ?_⟩
  rw [height, heq, ← height, hheight₂] at hheight₁
  exact absurd hheight₁ (by decide)

end Server
end SlpGraphSearch
