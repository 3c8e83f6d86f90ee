import SlpGraphSearch.SpentOutputs

/-!
# Double-spent mempool transactions

A block may spend an input of a mempool transaction with another transaction. The
output store has no step that evicts the loser: a block removes the outputs that it
spends, moves the ones that it creates to the confirmed side, and leaves the rest of
the mempool as it was. So the outputs of the loser and of its mempool descendants
are gone after the block exactly if the block spends them or they were hidden before.
-/
namespace SlpGraphSearch
open Library Transaction

/-- Delivered through the mempool, and a later block has another transaction with an
input of it, or of a mempool transaction that it descends from. -/
inductive DoubleSpent (past : List BchEvent) : Transaction → Prop
  | conflict {before after : List BchEvent} {txs : List Transaction} {saveRollback : Bool}
      {a a' : Transaction} {m : Outpoint}
      (hpast : past = before ++ .block txs saveRollback :: after)
      (ha : .mempoolTx a ∈ before) (ha' : a' ∈ txs) (hne : a' ≠ a) (hm : m ∈ a.inputs)
      (hm' : m ∈ a'.inputs) : DoubleSpent past a
  | descendant {a t : Transaction} {m : Outpoint} (ha : DoubleSpent past a)
      (ht : .mempoolTx t ∈ past) (hm : m ∈ t.inputs) (hma : m.txid = a.txid) : DoubleSpent past t

/-- None of the queries includes an output of a double-spent transaction. -/
structure Evicted (past : List BchEvent) (b : Bch) : Prop where
  byOutpoints : ∀ t, DoubleSpent past t → ∀ ks, ∀ o ∈ b.utxodb.getOutputsByOutpoints ks,
    o.prevTxId ≠ t.txid
  byScriptpubkey : ∀ t, DoubleSpent past t → ∀ order script limit,
    ∀ o ∈ b.utxodb.getOutputsByScriptpubkey order script limit, o.prevTxId ≠ t.txid
  balance : ∀ t, DoubleSpent past t → ∀ order script,
    ∀ o ∈ b.utxodb.countedOutputs order script, o.prevTxId ≠ t.txid

/-- A confirmed output that is noted as spent, or an output that is nowhere. -/
structure Utxodb.Hidden (db : Utxodb) (o : Output) : Prop where
  confirmed : o.outpoint ∈ db.outpointMap → o.outpoint ∈ db.mempoolSpentConfirmedOutpoints
  mempool : o.outpoint ∈ db.mempoolOutpointMap → o.outpoint ∈ db.outpointMap
  listed : bucketLookup db.mempoolScriptpubkeyToOutput o.scriptpubkey o.outpoint = none

/-- After the event, each output of a double-spent transaction was hidden before and is
not created, or the block spends it. -/
def LeavesNothing (past : List BchEvent) (b : Bch) : BchEvent → Prop
  | .block txs saveRollback => ∀ t, DoubleSpent (past ++ [.block txs saveRollback]) t →
      ∀ o ∈ spendable t, o.outpoint ∈ txs.flatMap Transaction.inputs ∨
        t ∉ txs ∧ b.utxodb.Hidden o
  | .mempoolTx tx => ∀ t, DoubleSpent (past ++ [.mempoolTx tx]) t →
      ∀ o ∈ spendable t, t ≠ tx ∧ b.utxodb.Hidden o

/-! ## Acyclic lists -/

section

variable {all : List Transaction} {t u : Transaction}

/-- Without cycles no transaction spends its own outputs. -/
theorem AcyclicList.notMem_own_inputs (hacyc : AcyclicList all) (hdet : TxidsDetermine all)
    (ht : t ∈ all) (hhyd : t.Hydrated) {o : Output} (ho : o ∈ spendable t) :
    o.outpoint ∉ t.inputs := fun hin =>
  hacyc.not_self hdet ht _ hin (outpoint_txid_of_spendable hhyd ho)

end

/-! ## Double-spent transactions -/

namespace DoubleSpent

variable {past : List BchEvent} {t tx : Transaction}

theorem delivered (h : DoubleSpent past t) : .mempoolTx t ∈ past := by
  cases h with
  | conflict hpast ha => exact hpast ▸ List.mem_append_left _ ha
  | descendant _ ht => exact ht

/-- Every double spend goes back to a block that shares an input with the mempool. -/
theorem exists_conflict (h : DoubleSpent past t) : ∃ a txs saveRollback, .mempoolTx a ∈ past ∧
      .block txs saveRollback ∈ past ∧ ∃ a' ∈ txs, a' ≠ a ∧ ∃ m ∈ a.inputs, m ∈ a'.inputs := by
  induction h with
  | conflict hpast ha ha' hne hm hm' =>
      subst hpast
      exact ⟨_, _, _, List.mem_append_left _ ha, List.mem_append_right _ List.mem_cons_self, _,
        ha', hne, _, hm, hm'⟩
  | descendant ha ht hm hma ih => exact ih

/-- A mempool transaction adds nothing but itself and its descendants. -/
theorem of_concat_mempoolTx {all : List Transaction} (hdet : TxidsDetermine all)
    (hall : ∀ e ∈ past ++ [.mempoolTx tx], ∀ u ∈ e.txs, u ∈ all)
    (h : DoubleSpent (past ++ [.mempoolTx tx]) t) :
    DoubleSpent past t ∨
      Relation.ReflTransGen (Parent (KeyedMap.ofList all)) tx.txid t.txid := by
  have hin : ∀ {u}, .mempoolTx u ∈ past ++ [.mempoolTx tx] → u ∈ all := fun hu =>
    hall _ hu _ (List.mem_singleton.mpr rfl)
  induction h with
  | @conflict before after txs saveRollback a a' m hpast ha ha' hne hm hm' =>
      rcases List.eq_nil_or_concat' after with rfl | ⟨after, e, rfl⟩
      · have hlast := congrArg List.getLast? hpast
        simp at hlast
      · have hpast' : past ++ [.mempoolTx tx] =
            (before ++ .block txs saveRollback :: after) ++ [e] := by
          rw [hpast, List.append_assoc]
          rfl
        exact .inl (.conflict (List.append_inj' hpast' rfl).1 ha ha' hne hm hm')
  | @descendant a u m ha hu hm hma ih =>
      have hparent := parent_of_input hdet (hin ha.delivered) (hin hu) hm hma
      rcases ih with hold | hchain
      · rcases List.mem_append.mp hu with hu | hu
        · exact .inl (.descendant hold hu hm hma)
        · rw [List.mem_singleton, BchEvent.mempoolTx.injEq] at hu
          exact .inr (hu ▸ .refl)
      · exact .inr (hchain.tail hparent)

end DoubleSpent

/-! ## What a step does to the reported outputs -/

namespace UtxoView

variable {v : UtxoView} {o : Output}

/-- Some query includes the output. -/
def Reports (v : UtxoView) (o : Output) : Prop :=
  o ∈ v.confirmed ∧ o.outpoint ∉ v.spent ∨
    (o ∈ v.mempool ∧ ∀ p ∈ v.confirmed, p.outpoint ≠ o.outpoint) ∨ o ∈ v.listed

/-- A block reports what it creates and what was reported, except for what it spends. -/
theorem reports_block_iff {txs : List Transaction}
    (hcreated : o.outpoint ∈ (txs.flatMap spendable).map Output.outpoint →
      o ∈ txs.flatMap spendable) :
    (v.block txs).Reports o ↔ o.outpoint ∉ txs.flatMap Transaction.inputs ∧
      (o ∈ txs.flatMap spendable ∨ v.Reports o) := by
  have hconf : ∀ p, p ∈ (v.block txs).confirmed ↔
      (p ∈ v.confirmed ∨ p ∈ txs.flatMap spendable) ∧
        p.outpoint ∉ txs.flatMap Transaction.inputs := fun p => by
    simp only [block, confirmBlock, Finset.mem_filter, Finset.mem_union, List.mem_toFinset]
  by_cases hin : o.outpoint ∈ txs.flatMap Transaction.inputs
  · refine iff_of_false ?_ fun h => h.1 hin
    rintro (⟨hc, -⟩ | ⟨hm, -⟩ | hl)
    · exact ((hconf o).mp hc).2 hin
    · exact (Finset.mem_filter.mp hm).2.2 hin
    · exact (Finset.mem_filter.mp hl).2.2 hin
  by_cases hnew : o ∈ txs.flatMap spendable
  · refine iff_of_true (.inl ⟨(hconf o).mpr ⟨.inr hnew, hin⟩, fun hs => ?_⟩) ⟨hin, .inl hnew⟩
    exact (Finset.mem_filter.mp hs).2.1 (List.mem_map_of_mem hnew)
  -- The block does not touch the output.
  have hout := mt hcreated hnew
  have hsome : (∀ p ∈ (v.block txs).confirmed, p.outpoint ≠ o.outpoint) ↔
      ∀ p ∈ v.confirmed, p.outpoint ≠ o.outpoint := by
    refine ⟨fun h p hp hpo => h p ((hconf p).mpr ⟨.inl hp, hpo ▸ hin⟩) hpo, fun h p hp hpo => ?_⟩
    rcases ((hconf p).mp hp).1 with hp | hp
    · exact h p hp hpo
    · exact hout (hpo ▸ List.mem_map_of_mem hp)
  have hspent : o.outpoint ∈ (v.block txs).spent ↔ o.outpoint ∈ v.spent := by
    simp only [block, Finset.mem_filter]
    exact ⟨fun h => h.1, fun h => ⟨h, hout, fun hc => absurd hc hin⟩⟩
  have hmempool : o ∈ (v.block txs).mempool ↔ o ∈ v.mempool := by
    simp only [block, Finset.mem_filter]
    exact ⟨fun h => h.1, fun h => ⟨h, hout, hin⟩⟩
  have hlisted : o ∈ (v.block txs).listed ↔ o ∈ v.listed := by
    simp only [block, Finset.mem_filter]
    exact ⟨fun h => h.1, fun h => ⟨h, hout, hin⟩⟩
  unfold Reports
  rw [hconf, hsome, hspent, hmempool, hlisted]
  simp only [hnew, hin, or_false, not_false_eq_true, and_true, true_and, false_or]

/-- A mempool transaction hides some outputs and reports only its own in addition. -/
theorem Reports.of_mempoolTx {tx : Transaction} (h : (v.mempoolTx tx).Reports o)
    (hnot : o ∉ spendable tx) : v.Reports o := by
  rcases h with ⟨hc, hs⟩ | ⟨hm, hnone⟩ | hl
  · exact .inl ⟨hc, fun h => hs (Finset.mem_union_left _ h)⟩
  · refine .inr (.inl ⟨(Finset.mem_union.mp hm).resolve_right fun h => ?_, hnone⟩)
    exact hnot (List.mem_toFinset.mp h)
  · refine .inr (.inr ((Finset.mem_union.mp (Finset.mem_filter.mp hl).1).resolve_right fun h => ?_))
    exact hnot (List.mem_toFinset.mp h)

/-- It hides nothing but its inputs. -/
theorem Reports.mempoolTx (h : v.Reports o) {tx : Transaction} (hin : o.outpoint ∉ tx.inputs) :
    (v.mempoolTx tx).Reports o := by
  rcases h with ⟨hc, hs⟩ | ⟨hm, hnone⟩ | hl
  · refine .inl ⟨hc, fun h => (Finset.mem_union.mp h).elim hs fun h => ?_⟩
    exact hin (List.mem_toFinset.mp (Finset.mem_filter.mp h).1)
  · exact .inr (.inl ⟨Finset.mem_union_left _ hm, hnone⟩)
  · exact .inr (.inr (Finset.mem_filter.mpr ⟨Finset.mem_union_left _ hl, hin⟩))

theorem reports_own {tx : Transaction} (ho : o ∈ spendable tx) (hin : o.outpoint ∉ tx.inputs) :
    (v.mempoolTx tx).Reports o :=
  .inr (.inr (Finset.mem_filter.mpr
    ⟨Finset.mem_union_right _ (List.mem_toFinset.mpr ho), hin⟩))

end UtxoView

namespace Utxodb

variable {db : Utxodb} {v : UtxoView} {o : Output}

theorem Shows.reports_of_getOutputsByOutpoints (h : db.Shows v) {ks : List Outpoint}
    (ho : o ∈ db.getOutputsByOutpoints ks) : v.Reports o :=
  (h.mem_getOutputsByOutpoints.mp ho).2.imp_right .inl

theorem Shows.reports_of_countedOutputs (h : db.Shows v) {order : KeyedOrder Output.outpoint}
    {script : Scriptpubkey} (ho : o ∈ db.countedOutputs order script) : v.Reports o :=
  (h.mem_countedOutputs.mp ho).2.imp_right .inr

/-- What the view reports is in the answer of a query. -/
theorem Shows.answered (h : db.Shows v) (ho : v.Reports o) :
    o ∈ db.getOutputsByOutpoints [o.outpoint] ∨
      o ∈ db.countedOutputs (.some _) o.scriptpubkey := by
  rw [h.mem_getOutputsByOutpoints, h.mem_countedOutputs]
  rcases ho with hc | hm | hl
  · exact .inl ⟨List.mem_singleton.mpr rfl, .inl hc⟩
  · exact .inl ⟨List.mem_singleton.mpr rfl, .inr hm⟩
  · exact .inr ⟨rfl, .inr hl⟩

/-- An output is hidden if nothing reports it. -/
theorem Shows.hidden_iff (h : db.Shows v)
    (hself : ∀ p ∈ v.outputs, p.outpoint = o.outpoint → p = o) : db.Hidden o ↔ ¬ v.Reports o := by
  have hconf : o.outpoint ∈ db.outpointMap ↔ o ∈ v.confirmed := by
    simp only [KeyedMap.mem_iff, h.confirmed.lookup_iff]
    exact ⟨fun ⟨p, hp, hpo⟩ => hself p (.inl hp) hpo ▸ hp, fun hc => ⟨o, hc, rfl⟩⟩
  have hmem : o.outpoint ∈ db.mempoolOutpointMap ↔ o ∈ v.mempool := by
    simp only [KeyedMap.mem_iff, h.mempool]
    exact ⟨fun ⟨p, hp, hpo⟩ => hself p (.inr hp) hpo ▸ hp, fun hm => ⟨o, hm, rfl⟩⟩
  have hlisted : bucketLookup db.mempoolScriptpubkeyToOutput o.scriptpubkey o.outpoint = none ↔
      o ∉ v.listed := by
    rw [Option.eq_none_iff_forall_ne_some]
    constructor
    · exact fun hnone hl => hnone o ((h.listed _ _ _).mpr ⟨hl, rfl, rfl⟩)
    · intro hnot p hp
      obtain ⟨hl, hpo, -⟩ := (h.listed _ _ _).mp hp
      exact hnot (hself p (.inr (h.listed_subset hl)) hpo ▸ hl)
  have hnone : (∀ p ∈ v.confirmed, p.outpoint ≠ o.outpoint) ↔ o ∉ v.confirmed :=
    ⟨fun hall hc => hall o hc rfl, fun hnot p hp hpo => hnot (hself p (.inl hp) hpo ▸ hp)⟩
  constructor
  · rintro ⟨hc, hm, hl⟩ (⟨ho, hs⟩ | ⟨ho, hn⟩ | ho)
    · exact hs (h.spent ▸ hc (hconf.mpr ho))
    · exact hnone.mp hn (hconf.mp (hm (hmem.mpr ho)))
    · exact hlisted.mp hl ho
  · intro hnot
    refine ⟨fun hc => ?_, fun hm => ?_, hlisted.mpr fun ho => hnot (.inr (.inr ho))⟩
    · rw [h.spent]
      by_contra hs
      exact hnot (.inl ⟨hconf.mp hc, hs⟩)
    · rw [hconf]
      by_contra hc
      exact hnot (.inr (.inl ⟨hmem.mp hm, hnone.mpr hc⟩))

end Utxodb

/-! ## Runs -/

/-- The store shows a view of the delivered transactions that reports nothing of the
double-spent ones. -/
structure Clears (all : List Transaction) (past : List BchEvent) (b : Bch) (v : UtxoView) :
    Prop where
  shows_view : b.utxodb.Shows v
  outputs : v.outputs ⊆ {o | ∃ tx ∈ all, o ∈ spendable tx}
  cleared : ∀ t, DoubleSpent past t → ∀ o ∈ spendable t, ¬ v.Reports o

theorem Clears.empty (all : List Transaction) : Clears all [] .empty .empty where
  shows_view := .empty
  outputs := by simp [UtxoView.outputs, UtxoView.empty]
  cleared t h := absurd h.delivered List.not_mem_nil

theorem UtxoView.Reports.mem_outputs {v : UtxoView} {o : Output} (h : v.Reports o)
    (hlisted : v.listed ⊆ v.mempool) : o ∈ v.outputs := by
  rcases h with ⟨hc, -⟩ | ⟨hm, -⟩ | hl
  · exact .inl hc
  · exact .inr hm
  · exact .inr (hlisted hl)

section

variable {all : List Transaction} (hhyd : ∀ tx ∈ all, tx.Hydrated) (hdet : TxidsDetermine all)
  {past : List BchEvent} {b b' : Bch} {v : UtxoView}

include hhyd hdet

/-- The transaction of an output is the one that its id names. -/
theorem mem_spendable_of_txid {t u : Transaction} (ht : t ∈ all) (hu : u ∈ all) {o p : Output}
    (ho : o ∈ spendable t) (hp : p ∈ spendable u) (hop : p.outpoint = o.outpoint) : u = t := by
  refine hdet u hu t ht ?_
  rw [← outpoint_txid_of_spendable (hhyd u hu) hp, hop, outpoint_txid_of_spendable (hhyd t ht) ho]

theorem evicted_iff (h : b.utxodb.Shows v)
    (hv : v.outputs ⊆ {o | ∃ tx ∈ all, o ∈ spendable tx})
    (hpast : ∀ e ∈ past, ∀ tx ∈ e.txs, tx ∈ all) :
    Evicted past b ↔ ∀ t, DoubleSpent past t → ∀ o ∈ spendable t, ¬ v.Reports o := by
  have hin : ∀ {t}, DoubleSpent past t → t ∈ all := fun ht =>
    hpast _ ht.delivered _ (List.mem_singleton.mpr rfl)
  constructor
  · intro hq t ht o ho hrep
    have hid := outpoint_txid_of_spendable (hhyd t (hin ht)) ho
    rcases h.answered hrep with hout | hcounted
    · exact hq.byOutpoints t ht _ o hout hid
    · exact hq.balance t ht _ _ o hcounted hid
  · intro hclear
    have hnone : ∀ {o}, v.Reports o → ∀ t, DoubleSpent past t → o.prevTxId ≠ t.txid := by
      intro o hrep t ht hid
      obtain ⟨u, hu, ho⟩ := hv (hrep.mem_outputs h.listed_subset)
      have hut : u = t := hdet u hu t (hin ht)
        ((outpoint_txid_of_spendable (hhyd u hu) ho).symm.trans hid)
      exact hclear t ht o (hut ▸ ho) hrep
    exact ⟨fun t ht ks o ho => hnone (h.reports_of_getOutputsByOutpoints ho) t ht,
      fun t ht order script limit o ho =>
        hnone (h.reports_of_countedOutputs (Utxodb.countedOutputs_of_mem ho)) t ht,
      fun t ht order script o ho => hnone (h.reports_of_countedOutputs ho) t ht⟩

/-- One step: nothing of a double-spent transaction is reported exactly under the
condition. -/
theorem Clears.step_iff (hacyc : AcyclicList all) (h : Clears all past b v) {e : BchEvent}
    (hpast : ∀ e' ∈ past ++ [e], ∀ tx ∈ e'.txs, tx ∈ all) :
    (∀ t, DoubleSpent (past ++ [e]) t → ∀ o ∈ spendable t, ¬ (v.step e).Reports o) ↔
      LeavesNothing past b e := by
  have hin : ∀ {t}, DoubleSpent (past ++ [e]) t → t ∈ all := fun ht =>
    hpast _ ht.delivered _ (List.mem_singleton.mpr rfl)
  have he : ∀ {t}, t ∈ e.txs → t ∈ all := fun ht =>
    hpast e (List.mem_append_right _ (List.mem_singleton.mpr rfl)) _ ht
  have hhidden : ∀ {t}, DoubleSpent (past ++ [e]) t → ∀ {o}, o ∈ spendable t →
      (b.utxodb.Hidden o ↔ ¬ v.Reports o) := by
    intro t ht o ho
    refine h.shows_view.hidden_iff fun p hp hpo => ?_
    obtain ⟨u, hu, hpu⟩ := h.outputs hp
    obtain rfl := mem_spendable_of_txid hhyd hdet (hin ht) hu ho hpu hpo
    exact outpointsDetermine_outputs hhyd hdet p ⟨u, hu, mem_spendable hpu⟩ o
      ⟨u, hu, mem_spendable ho⟩ hpo
  cases e with
  | block txs saveRollback =>
      refine forall_congr' fun t => forall_congr' fun ht => forall_congr' fun o =>
        forall_congr' fun ho => ?_
      have hcreated : o ∈ txs.flatMap spendable ↔ t ∈ txs := by
        constructor
        · intro hmem
          obtain ⟨u, hu, hou⟩ := List.mem_flatMap.mp hmem
          exact mem_spendable_of_txid hhyd hdet (hin ht) (he hu) ho hou rfl ▸ hu
        · exact fun htx => List.mem_flatMap.mpr ⟨t, htx, ho⟩
      have hblock : (v.step (.block txs saveRollback)).Reports o ↔ _ :=
        UtxoView.reports_block_iff fun hmem => by
          obtain ⟨p, hp, hpo⟩ := List.mem_map.mp hmem
          obtain ⟨u, hu, hpu⟩ := List.mem_flatMap.mp hp
          exact hcreated.mpr (mem_spendable_of_txid hhyd hdet (hin ht) (he hu) ho hpu hpo ▸ hu)
      rw [hblock, hcreated, hhidden ht ho, not_and_or, not_not, not_or]
  | mempoolTx tx =>
      have htx : tx ∈ all := he (List.mem_singleton.mpr rfl)
      refine forall_congr' fun t => forall_congr' fun ht => forall_congr' fun o =>
        forall_congr' fun ho => ?_
      rw [hhidden ht ho]
      by_cases hne : t = tx
      · subst hne
        exact iff_of_false (not_not.mpr (UtxoView.reports_own ho
          (hacyc.notMem_own_inputs hdet htx (hhyd t htx) ho)))
          fun hC => hC.1 rfl
      · have hnot : o ∉ spendable tx := fun hmem =>
          hne (mem_spendable_of_txid hhyd hdet htx (hin ht) hmem ho rfl)
        refine ⟨fun hrep => ⟨hne, fun hold => ?_⟩, fun hC hrep => hC.2 (hrep.of_mempoolTx hnot)⟩
        rcases ht.of_concat_mempoolTx hdet hpast with hdouble | hchain
        · exact h.cleared t hdouble o ho hold
        · -- A descendant of the transaction is not spent by it.
          refine hrep (hold.mempoolTx fun hmem => ?_)
          exact hacyc tx.txid (.tail' hchain (parent_of_input hdet (hin ht) htx hmem
            (outpoint_txid_of_spendable (hhyd t (hin ht)) ho)))

end

/-- In a run over transactions that may conflict, no query ever reports an output of a
double-spent mempool transaction or of a descendant exactly if each step leaves nothing
of them. -/
theorem Bch.run_evicted_iff {events : List BchEvent}
    (hhyd : ∀ tx ∈ events.flatMap BchEvent.txs, tx.Hydrated)
    (hdet : TxidsDetermine (events.flatMap BchEvent.txs))
    (hacyc : AcyclicList (events.flatMap BchEvent.txs)) :
    Always Bch.step Evicted .empty events ↔ EveryStep Bch.step LeavesNothing .empty events := by
  have hin : ∀ {past rest}, events = past ++ rest → ∀ e ∈ past, ∀ tx ∈ e.txs,
      tx ∈ events.flatMap BchEvent.txs := fun hev e he tx htx =>
    List.mem_flatMap.mpr ⟨e, hev ▸ List.mem_append_left _ he, htx⟩
  have hspend : ∀ {v : UtxoView},
      v.outputs ⊆ {o | ∃ tx ∈ events.flatMap BchEvent.txs, o ∈ spendable tx} →
      v.outputs ⊆ {o | ∃ tx ∈ events.flatMap BchEvent.txs, o ∈ tx.outputs} := fun hv o ho => by
    obtain ⟨tx, htx, ho⟩ := hv ho
    exact ⟨tx, htx, mem_spendable ho⟩
  refine always_iff_everyStep_of_inv (I := fun past b =>
    (∃ rest, events = past ++ rest) ∧ ∃ v, Clears (events.flatMap BchEvent.txs) past b v)
    ⟨⟨events, rfl⟩, _, .empty _⟩ ?_ ?_
  · rintro past b ⟨⟨rest, hev⟩, v, hv⟩
    exact (evicted_iff hhyd hdet hv.shows_view hv.outputs (hin hev)).mpr hv.cleared
  · rintro past e rest b b' hev ⟨-, v, hv⟩ - hstep
    have hev' : events = (past ++ [e]) ++ rest := by rw [hev, List.append_assoc]; rfl
    have he : ∀ tx ∈ e.txs, tx ∈ events.flatMap BchEvent.txs :=
      hin hev' e (List.mem_append_right _ (List.mem_singleton.mpr rfl))
    obtain ⟨-, hshows, -⟩ := hv.shows_view.step_within hhyd hdet (hspend hv.outputs) he hstep
    have houtputs : (v.step e).outputs ⊆
        {o | ∃ tx ∈ events.flatMap BchEvent.txs, o ∈ spendable tx} := fun o ho => by
      rcases Utxodb.step_spendable ho with ho | ⟨tx, htx, ho⟩
      · exact hv.outputs ho
      · exact ⟨tx, he tx htx, ho⟩
    have hiff := hv.step_iff hhyd hdet hacyc (hin hev')
    exact ⟨fun hq => hiff.mp ((evicted_iff hhyd hdet hshows houtputs (hin hev')).mp hq),
      fun hC => ⟨⟨rest, hev'⟩, _, hshows, houtputs, hiff.mpr hC⟩⟩

/-- A transaction without SLP data that spends both outputs of `sampleSend`. -/
def sampleSweep : Transaction :=
  let txid : Txid := ⟨
    [0xE1, 0x79, 0xE9, 0xC6, 0xD0, 0xD1, 0x70, 0xBF, 0x35, 0xE9, 0x3B, 0xBF, 0xA1, 0xBB, 0xE9,
     0x4A, 0x4D, 0x04, 0x7A, 0x88, 0x3F, 0x9E, 0xF9, 0x80, 0xE0, 0x99, 0x34, 0x70, 0x2A, 0xD4,
     0x92, 0xAC], rfl⟩
  encoded txid [⟨sampleSend.txid, 1⟩, ⟨sampleSend.txid, 2⟩] [[0x55]] .empty

theorem sampleSweep_hydrated : sampleSweep.Hydrated :=
  hydrated_encoded (by decide) (by decide) (by decide) (by decide +kernel) (by decide +kernel)

/-- A SEND comes through the mempool, is confirmed and has its outputs spent. -/
def sweptEvents : List BchEvent :=
  [.block [sampleGenesis] true, .mempoolTx sampleSend, .block [sampleSend] true,
    .block [sampleSweep] true]

/-- A block of another branch spends what the SEND spent. -/
def branchEvents : List BchEvent := sweptEvents ++ [.block [sampleBurn] true]

/-- The SEND is double-spent when its outputs are gone. -/
theorem Bch.run_evicted_sample :
    DoubleSpent branchEvents sampleSend ∧
    (spendable sampleSend).length = 2 ∧
    Always Bch.step Evicted .empty branchEvents := by
  have hhyd : ∀ tx ∈ branchEvents.flatMap BchEvent.txs, tx.Hydrated := by
    simp [branchEvents, sweptEvents, BchEvent.txs, sampleGenesis_hydrated, sampleBurn_hydrated,
      sampleSend_hydrated, sampleSweep_hydrated]
  have hmem : ∀ t, t ∈ branchEvents.flatMap BchEvent.txs ↔
      t ∈ [sampleGenesis, sampleSend, sampleSweep, sampleBurn] := by
    simp [branchEvents, sweptEvents, BchEvent.txs]
  have hall : TxidsDetermine [sampleGenesis, sampleSend, sampleSweep, sampleBurn] :=
    .of_nodup (by decide)
  have hdet : TxidsDetermine (branchEvents.flatMap BchEvent.txs) :=
    hall.mono fun t ht => (hmem t).mp ht
  have hacyc : AcyclicList [sampleGenesis, sampleSend, sampleSweep, sampleBurn] :=
    Ledger.acyclic_of_parentsFirst (by decide) (by decide) (by decide)
  have hconflict : DoubleSpent branchEvents sampleSend :=
    .conflict rfl (by simp [sweptEvents]) (List.mem_singleton.mpr rfl) (by decide)
      (List.mem_singleton.mpr rfl) (List.mem_singleton.mpr rfl)
  refine ⟨hconflict, by decide, ?_⟩
  refine (Bch.run_evicted_iff hhyd hdet (hacyc.of_mem_iff hdet hmem)).mpr ?_
  intro past e rest hev b b' hb _
  induction rest using List.reverseRecOn with
  | nil =>
      -- the burn arrives, and the outputs of the SEND are in no map
      obtain ⟨rfl, he⟩ := List.append_inj' hev rfl
      obtain rfl := (List.cons.inj he).1
      have hgone : ∃ b, sweptEvents.foldlM Bch.step .empty = .ok b ∧
          ∀ o ∈ spendable sampleSend, o.outpoint ∉ b.utxodb.outpointMap ∧
            o.outpoint ∉ b.utxodb.mempoolOutpointMap ∧
            bucketLookup b.utxodb.mempoolScriptpubkeyToOutput o.scriptpubkey o.outpoint = none := by
        decide +kernel
      obtain ⟨b₁, hb₁, hgone⟩ := hgone
      rw [hb, Except.ok.injEq] at hb₁
      subst hb₁
      intro t ht o ho
      obtain rfl : t = sampleSend := by simpa [sweptEvents] using ht.delivered
      obtain ⟨hconf, hmempool, hlisted⟩ := hgone o ho
      exact .inr ⟨by decide, fun h => absurd h hconf, fun h => absurd h hmempool, hlisted⟩
  | append_singleton rest e' _ =>
      rw [← List.cons_append, ← List.append_assoc] at hev
      obtain ⟨hev, -⟩ := List.append_inj' hev rfl
      have hquiet : ∀ t, ¬ DoubleSpent (past ++ [e]) t := by
        intro t ht
        obtain ⟨a, txs, saveRollback, ha, hblock, a', ha', hne, m, hm, hm'⟩ := ht.exists_conflict
        have hsub : past ++ [e] ⊆ sweptEvents := by simp [hev]
        obtain rfl : a = sampleSend := by simpa [sweptEvents] using hsub ha
        have hshared : ∀ e ∈ sweptEvents, ∀ a' ∈ e.txs, a' ≠ sampleSend →
            ∀ m ∈ sampleSend.inputs, m ∉ a'.inputs := by decide +kernel
        exact hshared _ (hsub hblock) a' ha' hne m hm hm'
      cases e with
      | block txs saveRollback => exact fun t ht => absurd ht (hquiet t)
      | mempoolTx tx => exact fun t ht => absurd ht (hquiet t)

/-- The SEND in the mempool, and a block with the burn. -/
def doubleSpendEvents : List BchEvent :=
  [.block [sampleGenesis] true, .mempoolTx sampleSend, .block [sampleBurn] true]

/-- The burn is confirmed, and the outputs of the SEND are still reported. -/
theorem Bch.evicted_fails :
    (∀ tx ∈ doubleSpendEvents.flatMap BchEvent.txs, tx.Hydrated) ∧
      TxidsDetermine (doubleSpendEvents.flatMap BchEvent.txs) ∧
      AcyclicList (doubleSpendEvents.flatMap BchEvent.txs) ∧
      ¬ Always Bch.step Evicted .empty doubleSpendEvents := by
  refine ⟨?_, .of_nodup (by decide),
    Ledger.acyclic_of_parentsFirst (by decide) (by decide) (by decide), fun h => ?_⟩
  · simp [doubleSpendEvents, BchEvent.txs, sampleGenesis_hydrated, sampleBurn_hydrated,
      sampleSend_hydrated]
  · have hpast : doubleSpendEvents =
        [.block [sampleGenesis] true, .mempoolTx sampleSend] ++ .block [sampleBurn] true :: [] :=
      rfl
    have hdouble : DoubleSpent doubleSpendEvents sampleSend :=
      .conflict hpast (by simp) (List.mem_singleton.mpr rfl) (by decide)
        (List.mem_singleton.mpr rfl) (List.mem_singleton.mpr rfl)
    have hrun : ∃ b, doubleSpendEvents.foldlM Bch.step .empty = .ok b ∧
        ∃ o ∈ b.utxodb.getOutputsByOutpoints [⟨sampleSend.txid, 1⟩],
          o.prevTxId = sampleSend.txid := by decide +kernel
    obtain ⟨b, hb, o, ho, hid⟩ := hrun
    have hevicted := h doubleSpendEvents [] (List.append_nil _).symm b hb
    exact hevicted.byOutpoints sampleSend hdouble _ o ho hid

end SlpGraphSearch
