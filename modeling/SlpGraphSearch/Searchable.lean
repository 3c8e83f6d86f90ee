import SlpGraphSearch.ServerSpec
import SlpGraphSearch.TransactionEncoder

/-!
# Searchable transactions

What it takes for `GraphSearch` to find every valid transaction that was confirmed
or was in the latest mempool snapshot. Both handlers skip transactions that the
validator knows, and a refresh clears `mg` first, so a transaction that was
accepted from the mempool gets lost at the next refresh and stays lost when its
block arrives. Runs in which no skipped transaction depends on `mg` are exactly
those in which nothing is lost.
-/
namespace SlpGraphSearch
open Library Transaction

namespace Server

/-- The transactions of the latest mempool refresh of a run. -/
def snapshot (past : List Event) : List Transaction :=
  past.foldl (fun latest e => match e with
    | .mempool _ txs => txs
    | _ => latest) []

/-- Valid transactions of blocks are in `g`, those of the latest snapshot are in one
of the graphs. -/
structure Searchable (past : List Event) (s : Server) : Prop where
  confirmed : ∀ tx ∈ confirmedTxs past, tx.txid ∈ s.validator.valid →
    tx.txid ∈ s.g.txidToToken
  mempool : ∀ tx ∈ snapshot past, tx.txid ∈ s.validator.valid →
    tx.txid ∈ s.mg.txidToToken ∨ tx.txid ∈ s.g.txidToToken

/-- Blocks and mempool refreshes bring a transaction that is already valid only if
it is in `g`. -/
def SkipsAreConfirmed (s : Server) : Event → Prop
  | .block _ txs _ => ∀ tx ∈ txs, tx.txid ∈ s.validator.valid → tx.txid ∈ s.g.txidToToken
  | .mempool _ txs => ∀ tx ∈ txs, tx.txid ∈ s.validator.valid → tx.txid ∈ s.g.txidToToken
  | .rawtx _ => True

theorem snapshot_concat (past : List Event) (e : Event) :
    snapshot (past ++ [e]) = match e with
      | .mempool _ txs => txs
      | _ => snapshot past := by
  simp [snapshot]

/-! ## Requests -/

theorem exclusionSet_ok {s : Server} (hg : s.g.Wf) (limit : ℕ) (exclude : List Txid) :
    ∃ seen, s.exclusionSet limit exclude = .ok seen := by
  refine foldlM_ok _ _ (fun seen x _ => ?_) _
  obtain ⟨r, hr⟩ := hg.buildExclusionSet_ok x seen
  exact ⟨r.2, by rw [hr]; rfl⟩

/-- A request is answered, with NOT_FOUND only for what is in neither graph. -/
theorem graphSearch_status {s : Server} (hg : s.g.Wf) (hmg : s.mg.Wf) (order : SetOrder NodePtr)
    (limit : ℕ) (exclude : List Txid) (x : Txid) :
    ∃ status data, s.graphSearch order limit exclude x = .ok (status, data) ∧
      (status = .notFound ↔ x ∉ s.mg.txidToToken ∧ x ∉ s.g.txidToToken) := by
  obtain ⟨seen, hseen⟩ := exclusionSet_ok hg limit exclude
  obtain ⟨status, data, seen', hmem, hstatus, hdata⟩ := hmg.graphSearchPtr_status x ∅
  simp only [graphSearch, bind_eq_ok]
  by_cases hx : x ∈ s.mg.txidToToken
  · rw [if_pos hx] at hstatus
    subst hstatus
    obtain ⟨txs, htxs⟩ := decodedAll_ok hdata
    obtain ⟨overlap, hoverlap⟩ := foldlM_ok (fun overlap (o : Outpoint) => do
        .ok (← s.g.buildExclusionSet o.txid overlap).2)
      ((txs.flatMap Transaction.inputs).filter fun o =>
        o.txid ∉ txs.map Transaction.txid) (fun overlap o _ => by
          obtain ⟨r, hr⟩ := hg.buildExclusionSet_ok o.txid overlap
          exact ⟨r.2, by rw [hr]; rfl⟩) ∅
    refine ⟨.ok, (data.flatMap fun _ => data) ++ s.g.txdata (order.list overlap),
      ⟨seen, hseen, _, hmem, ?_⟩, by simp [hx]⟩
    simp only [if_true, bind_eq_ok]
    exact ⟨txs, htxs, overlap, hoverlap, rfl⟩
  · rw [if_neg hx] at hstatus
    subst hstatus
    obtain ⟨status, data', seen'', hresult, hstatus', -⟩ := hg.graphSearchPtr_status x seen
    refine ⟨status, data', ⟨seen, hseen, _, hmem, ?_⟩, ?_⟩
    · simp only [reduceCtorEq, if_false, bind_eq_ok]
      exact ⟨_, hresult, rfl⟩
    · rw [hstatus']
      split_ifs with hxg <;> simp [hx, hxg]

/-! ## The invariant -/

/-- What holds in every state, whatever was lost. -/
structure Sound (past : List Event) (s : Server) : Prop where
  held : s.validator.Held
  g : s.g.Wf
  mg : s.mg.Wf
  judged : ∀ tx ∈ confirmedTxs past, tx.slp.type ≠ .invalid →
    tx.txid ∈ s.validator.transactionMap

theorem Sound.empty (utxosync : Bool) : Sound [] (.empty utxosync) where
  held := Validator.Held.empty
  g := TxGraph.Wf.empty
  mg := TxGraph.Wf.empty
  judged _ h := absurd h List.not_mem_nil

theorem Sound.step {past : List Event} {s s' : Server} {e : Event} (h : Sound past s)
    (hhyd : ∀ tx ∈ e.txs, tx.Hydrated) (hstep : s.step e = .ok s') :
    Sound (past ++ [e]) s' := by
  obtain ⟨v, l, bch, hoffer, -, rfl⟩ := step_eq_ok.mp hstep
  have hj := judged_offerTxs hoffer
  have hl : ∀ tx ∈ l, tx.Hydrated := fun tx htx => hhyd tx (hj.accepted tx htx).1
  have hold : ∀ tx ∈ confirmedTxs past, tx.slp.type ≠ .invalid → tx.txid ∈ v.transactionMap :=
    fun tx htx ht => (hj.known_iff _).mpr (.inl (h.judged tx htx ht))
  cases e with
  | block order txs trusted =>
      refine ⟨hj.held h.held, (filed_validTxs h.g order hl).wf, h.mg, fun tx htx ht => ?_⟩
      rw [confirmedTxs_concat] at htx
      rcases List.mem_append.mp htx with htx | htx
      · exact hold tx htx ht
      · exact (hj.known_iff _).mpr (.inr ⟨tx, htx, rfl, ht⟩)
  | mempool order txs =>
      refine ⟨hj.held h.held, h.g, (filed_validTxs TxGraph.Wf.empty order hl).wf,
        fun tx htx ht => ?_⟩
      rw [confirmedTxs_concat, List.append_nil] at htx
      exact hold tx htx ht
  | rawtx tx =>
      refine ⟨hj.held h.held, h.g, (filed_validTxs h.mg (.insertion _) hl).wf, fun tx htx ht => ?_⟩
      rw [confirmedTxs_concat, List.append_nil] at htx
      exact hold tx htx ht

theorem sound_always {events : List Event} (hhyd : ∀ e ∈ events, ∀ tx ∈ e.txs, tx.Hydrated)
    (utxosync : Bool) : Always Server.step Sound (.empty utxosync) events :=
  Always.of_step (.empty utxosync) fun past e rest s₁ s₂ hev h _ hstep =>
    h.step (hhyd e (by simp [hev])) hstep

/-! ## Steps -/

/-- A transaction of an earlier block is not accepted now. -/
theorem Sound.valid_of_confirmed {past : List Event} {s : Server} {v : Validator}
    {txs l : List Transaction} (h : Sound past s) (hj : Judged s.validator v txs l)
    (hdet : TxidsDetermine (confirmedTxs past ++ txs)) {tx : Transaction}
    (htx : tx ∈ confirmedTxs past) (hx : tx.txid ∈ v.valid) : tx.txid ∈ s.validator.valid := by
  rcases (hj.valid_iff _).mp hx with hx | ⟨u, hu, hux⟩
  · exact hx
  · obtain ⟨humem, hunknown, hu⟩ := hj.accepted u hu
    obtain rfl := hdet u (List.mem_append_right _ humem) tx (List.mem_append_left _ htx) hux
    exact absurd (h.judged u htx hu) hunknown

/-- Transactions that were skipped were valid before the step; the others are valid
only if they were just filed. -/
theorem searchable_step {past : List Event} {s s' : Server} {e : Event} (h : Sound past s)
    (hP : Searchable past s) (hhyd : ∀ tx ∈ e.txs, tx.Hydrated)
    (hdet : TxidsDetermine (confirmedTxs past ++ e.txs)) (hstep : s.step e = .ok s') :
    Searchable (past ++ [e]) s' ↔ s.SkipsAreConfirmed e := by
  obtain ⟨v, l, bch, hoffer, -, rfl⟩ := step_eq_ok.mp hstep
  have hj := judged_offerTxs hoffer
  have hl : ∀ tx ∈ l, tx.Hydrated := fun tx htx => hhyd tx (hj.accepted tx htx).1
  have hskipped : ∀ x, x ∈ s.validator.valid → ¬ ∃ tx ∈ l, tx.txid = x := by
    rintro x hx ⟨tx, htx, rfl⟩
    exact hj.not_mem_valid h.held htx hx
  have hpast : ∀ tx ∈ confirmedTxs past, tx.txid ∈ v.valid → tx.txid ∈ s.validator.valid :=
    fun _ htx hx => h.valid_of_confirmed hj hdet htx hx
  cases e with
  | block order txs trusted =>
      have hg : ∀ x, x ∈ (s.gStep (.block order txs trusted) l).txidToToken ↔
          x ∈ s.g.txidToToken ∨ ∃ tx ∈ l, tx.txid = x := mem_filed_validTxs h.g order hl
      constructor
      · intro hs tx htx hx
        have hmem := hs.confirmed tx (by
          rw [confirmedTxs_concat]
          exact List.mem_append_right _ htx) ((hj.valid_iff _).mpr (.inl hx))
        exact ((hg _).mp hmem).resolve_right (hskipped _ hx)
      · intro hC
        refine ⟨fun tx htx hx => (hg _).mpr ?_, fun tx htx hx => ?_⟩
        · rw [confirmedTxs_concat] at htx
          rcases List.mem_append.mp htx with htx | htx
          · exact .inl (hP.confirmed tx htx (hpast tx htx hx))
          · exact ((hj.valid_iff _).mp hx).imp_left (hC tx htx)
        · rw [snapshot_concat] at htx
          rcases (hj.valid_iff _).mp hx with hx | hx
          · exact (hP.mempool tx htx hx).imp_right fun hx => (hg _).mpr (.inl hx)
          · exact .inr ((hg _).mpr (.inr hx))
  | mempool order txs =>
      have hmg : ∀ x, x ∈ (s.mgStep (.mempool order txs) l).txidToToken ↔
          ∃ tx ∈ l, tx.txid = x := by
        intro x
        refine (mem_filed_validTxs TxGraph.Wf.empty order hl x).trans (or_iff_right ?_)
        exact Finmap.notMem_empty
      constructor
      · intro hs tx htx hx
        have hmem := hs.mempool tx (by
          rw [snapshot_concat]
          exact htx) ((hj.valid_iff _).mpr (.inl hx))
        exact hmem.resolve_left fun hx' => hskipped _ hx ((hmg _).mp hx')
      · intro hC
        refine ⟨fun tx htx hx => ?_, fun tx htx hx => ?_⟩
        · rw [confirmedTxs_concat, List.append_nil] at htx
          exact hP.confirmed tx htx (hpast tx htx hx)
        · rw [snapshot_concat] at htx
          rcases (hj.valid_iff _).mp hx with hx | hx
          · exact .inr (hC tx htx hx)
          · exact .inl ((hmg _).mpr hx)
  | rawtx tx =>
      have hmg : ∀ x, x ∈ (s.mgStep (.rawtx tx) l).txidToToken ↔
          x ∈ s.mg.txidToToken ∨ ∃ tx ∈ l, tx.txid = x :=
        mem_filed_validTxs h.mg (.insertion _) hl
      refine iff_of_true ⟨fun tx htx hx => ?_, fun tx htx hx => ?_⟩ trivial
      · rw [confirmedTxs_concat, List.append_nil] at htx
        exact hP.confirmed tx htx (hpast tx htx hx)
      · rw [snapshot_concat] at htx
        rcases (hj.valid_iff _).mp hx with hx | hx
        · exact (hP.mempool tx htx hx).imp_left fun hx => (hmg _).mpr (.inl hx)
        · exact .inl ((hmg _).mpr (.inr hx))

/-- Valid transactions of blocks and of the latest snapshot stay searchable throughout
a run exactly if blocks and mempool refreshes never bring a transaction that is
valid but not in `g`; and what is in a graph is found. -/
theorem run_searchable_iff (utxosync : Bool) {events : List Event}
    (hhyd : ∀ e ∈ events, ∀ tx ∈ e.txs, tx.Hydrated)
    (hdet : TxidsDetermine (events.flatMap Event.txs)) :
    (Always Server.step Searchable (.empty utxosync) events ↔
      EveryStep Server.step (fun _ => SkipsAreConfirmed) (.empty utxosync) events) ∧
    Always Server.step (fun _ s => ∀ (order : SetOrder NodePtr) limit exclude x,
      x ∈ s.mg.txidToToken ∨ x ∈ s.g.txidToToken →
        ∃ status data, s.graphSearch order limit exclude x = .ok (status, data) ∧
          status ≠ .notFound) (.empty utxosync) events := by
  have hsound := sound_always hhyd utxosync
  have hconf : ∀ past e rest, events = past ++ e :: rest → ∀ tx ∈ confirmedTxs past ++ e.txs,
      tx ∈ events.flatMap Event.txs := by
    rintro past e rest rfl tx htx
    rw [List.flatMap_append, List.flatMap_cons]
    rcases List.mem_append.mp htx with htx | htx
    · exact List.mem_append_left _ (confirmedTxs_subset past htx)
    · exact List.mem_append_right _ (List.mem_append_left _ htx)
  constructor
  · refine always_iff_everyStep ⟨by simp [confirmedTxs], by simp [snapshot]⟩
      fun past e rest s₁ s₂ hev hP hs₁ hstep => ?_
    exact searchable_step (hsound past _ hev s₁ hs₁) hP (hhyd e (by simp [hev]))
      (hdet.mono (hconf past e rest hev)) hstep
  · intro past rest hev s₁ hs₁ order limit exclude x hx
    have h := hsound past rest hev s₁ hs₁
    obtain ⟨status, data, hreply, hstatus⟩ :=
      graphSearch_status h.g h.mg order limit exclude x
    exact ⟨status, data, hreply, fun hnf => hx.elim (hstatus.mp hnf).1 (hstatus.mp hnf).2⟩

/-- A GENESIS in a block, a refresh with its SEND, and the SEND alone once more. -/
def confirmedFirst : List Event :=
  [.block (.insertion _) [sampleGenesis] false, .mempool (.insertion _) [sampleGenesis, sampleSend],
    .rawtx sampleSend]

theorem run_searchable_iff_sample :
    Always Server.step Searchable (.empty false) confirmedFirst ∧
      EveryStep Server.step (fun _ => SkipsAreConfirmed) (.empty false) confirmedFirst := by
  have htxs : ∀ tx ∈ confirmedFirst.flatMap Event.txs, tx ∈ [sampleGenesis, sampleSend] := by
    simp [confirmedFirst, Event.txs]
  have hhyd : ∀ e ∈ confirmedFirst, ∀ tx ∈ e.txs, tx.Hydrated := fun e he tx htx => by
    rcases List.mem_pair.mp (htxs tx (List.mem_flatMap.mpr ⟨e, he, htx⟩)) with rfl | rfl
    · exact sampleGenesis_hydrated
    · exact sampleSend_hydrated
  have hdet : TxidsDetermine [sampleGenesis, sampleSend] := .of_nodup (by decide)
  have hiff := (run_searchable_iff false hhyd (hdet.mono htxs)).1
  have halways : Always Server.step Searchable (.empty false) confirmedFirst := by
    refine .of_inits fun past hpast => ?_
    have hfiled : ∀ past ∈ confirmedFirst.inits, ∃ s₁,
        past.foldlM Server.step (.empty false) = .ok s₁ ∧
          (∀ tx ∈ confirmedTxs past, tx.txid ∈ s₁.g.txidToToken) ∧
          ∀ tx ∈ snapshot past, tx.txid ∈ s₁.mg.txidToToken ∨ tx.txid ∈ s₁.g.txidToToken := by
      decide +kernel
    obtain ⟨s₁, hs₁, hconf, hsnapshot⟩ := hfiled past hpast
    exact ⟨s₁, hs₁, fun tx htx _ => hconf tx htx, fun tx htx _ => hsnapshot tx htx⟩
  exact ⟨halways, hiff.mp halways⟩

/-- A GENESIS that arrives alone, is in the next mempool snapshot and then in a
block. -/
def lostEvents : List Event :=
  [.rawtx sampleGenesis, .mempool (.insertion _) [sampleGenesis],
    .block (.insertion _) [sampleGenesis] false]

/-- The refresh clears `mg`, skips the GENESIS and leaves it in neither graph; the
block skips it too. -/
theorem searchable_fails :
    ¬ Always Server.step Searchable (.empty false) lostEvents := by
  intro h
  have hrun : ∃ s, lostEvents.foldlM Server.step (.empty false) = .ok s ∧
      sampleGenesis.txid ∈ s.validator.valid ∧ sampleGenesis.txid ∉ s.mg.txidToToken ∧
      sampleGenesis.txid ∉ s.g.txidToToken := by decide +kernel
  obtain ⟨s, hs, hvalid, -, hg⟩ := hrun
  exact hg ((h lostEvents [] (by simp) s hs).confirmed sampleGenesis
    (by simp [confirmedTxs, lostEvents]) hvalid)

end Server
end SlpGraphSearch
