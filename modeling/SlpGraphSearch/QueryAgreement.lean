import SlpGraphSearch.SpentOutputs

/-!
# Agreement of the queries

The query by outpoint reads the outpoint maps, the two queries by script read the
address buckets. They describe one set of outputs exactly if the mempool buckets
list the mempool outputs that are not confirmed. Blocks restore this. A mempool
transaction breaks it if one of its outputs is confirmed already, or if it spends an
output of the mempool, which leaves its bucket but not the outpoint map.
-/
namespace SlpGraphSearch
open Library Transaction

/-- The three queries describe one set of outputs, as long as no limit cuts the list. -/
structure QueriesAgree (db : Utxodb) : Prop where
  same : ∀ (order : KeyedOrder Output.outpoint) (o : Output) (limit : ℕ),
    (db.countedOutputs order o.scriptpubkey).length ≤ limit →
    (o ∈ db.getOutputsByOutpoints [o.outpoint] ↔
      o ∈ db.getOutputsByScriptpubkey order o.scriptpubkey limit)
  once : ∀ (order : KeyedOrder Output.outpoint) (script : Scriptpubkey) (limit : ℕ),
    (db.countedOutputs order script).length ≤ limit →
    ((db.getOutputsByScriptpubkey order script limit).map Output.outpoint).Nodup
  balance : ∀ (order : KeyedOrder Output.outpoint) (script : Scriptpubkey) (limit : ℕ),
    (db.countedOutputs order script).length ≤ limit →
    db.getBalanceByScriptpubkey order script =
      ((db.getOutputsByScriptpubkey order script limit).map Output.value).sum

/-- A mempool transaction creates no confirmed output and spends no mempool output. -/
def DeliversFresh (b : Bch) : BchEvent → Prop
  | .block _ _ => True
  | .mempoolTx tx => (∀ o ∈ spendable tx, o.outpoint ∉ b.utxodb.outpointMap) ∧
      ∀ m ∈ tx.inputs, m ∉ b.utxodb.mempoolOutpointMap

namespace Utxodb

variable {db : Utxodb} {v : UtxoView}

/-- What the queries by script include belongs to the view. -/
theorem Shows.countedOutputs_subset (h : db.Shows v) {order : KeyedOrder Output.outpoint}
    {script : Scriptpubkey} {o : Output} (ho : o ∈ db.countedOutputs order script) :
    o ∈ v.outputs := by
  rcases (h.mem_countedOutputs.mp ho).2 with ⟨hconf, -⟩ | hlisted
  · exact .inl hconf
  · exact .inr (h.listed_subset hlisted)

/-- An output is listed twice if it is in both buckets of its script. -/
theorem Shows.nodup_countedOutputs_iff (h : db.Shows v) (order : KeyedOrder Output.outpoint)
    (script : Scriptpubkey) : (db.countedOutputs order script).Nodup ↔
      ∀ o ∈ v.listed, o.scriptpubkey = script → o ∈ v.confirmed → o.outpoint ∈ v.spent := by
  have hmem : ∀ o, o ∈ bucketOutputs db.mempoolScriptpubkeyToOutput order script ↔
      o ∈ v.listed ∧ o.scriptpubkey = script := by
    intro o
    rw [mem_bucketOutputs, h.listed]
    simp
  have hconf : ∀ o, o ∈ (bucketOutputs db.scriptpubkeyToOutput order script).filter
      (fun u => u.outpoint ∉ db.mempoolSpentConfirmedOutpoints) ↔
        (o ∈ v.confirmed ∧ o.scriptpubkey = script) ∧ o.outpoint ∉ v.spent := by
    intro o
    rw [List.mem_filter, mem_bucketOutputs, h.confirmed.inverse.entry, h.confirmed.lookup_iff,
      h.spent]
    simp
  rw [countedOutputs, List.nodup_append]
  constructor
  · rintro ⟨-, -, hne⟩ o ho hs ho'
    by_contra hspent
    exact hne o ((hconf o).mpr ⟨⟨ho', hs⟩, hspent⟩) o ((hmem o).mpr ⟨ho, hs⟩) rfl
  · intro hnone
    refine ⟨(nodup_bucketOutputs _ _ _).filter _, nodup_bucketOutputs _ _ _, ?_⟩
    rintro o ho p hp rfl
    obtain ⟨⟨ho, hs⟩, hspent⟩ := (hconf o).mp ho
    exact hspent (hnone o ((hmem o).mp hp).1 hs ho)

/-- The queries agree exactly if the buckets list what is in the mempool only. -/
theorem Shows.queriesAgree_iff (h : db.Shows v) (hdet : OutpointsDetermine v.outputs) :
    QueriesAgree db ↔ v.listed = v.mempool \ v.confirmed := by
  constructor
  · intro hq
    have hsame : ∀ o, o ∈ db.getOutputsByOutpoints [o.outpoint] ↔
        o ∈ db.countedOutputs (.some _) o.scriptpubkey := fun o => by
      rw [← getOutputsByScriptpubkey_eq le_rfl]
      exact hq.same _ o _ le_rfl
    have honce : ∀ o ∈ v.listed, o ∈ v.confirmed → o.outpoint ∈ v.spent := fun o ho hc => by
      have hnodup := hq.once (.some _) o.scriptpubkey _ le_rfl
      rw [getOutputsByScriptpubkey_eq le_rfl] at hnodup
      exact (h.nodup_countedOutputs_iff _ _).mp hnodup.of_map o ho rfl hc
    ext o
    rw [Finset.mem_sdiff]
    constructor
    · intro ho
      refine ⟨h.listed_subset ho, fun hc => ?_⟩
      have hout := (hsame o).mpr (h.mem_countedOutputs.mpr ⟨rfl, .inr ho⟩)
      rcases (h.mem_getOutputsByOutpoints.mp hout).2 with ⟨-, hnot⟩ | ⟨-, hnone⟩
      · exact hnot (honce o ho hc)
      · exact hnone o hc rfl
    · rintro ⟨ho, hnot⟩
      have hout : o ∈ db.getOutputsByOutpoints [o.outpoint] := by
        refine h.mem_getOutputsByOutpoints.mpr ⟨List.mem_singleton.mpr rfl, .inr ⟨ho, ?_⟩⟩
        intro p hp hpo
        obtain rfl := hdet p (.inl hp) o (.inr ho) hpo
        exact hnot hp
      rcases (h.mem_countedOutputs.mp ((hsame o).mp hout)).2 with ⟨hc, -⟩ | hl
      · exact absurd hc hnot
      · exact hl
  · intro hv
    have hlisted : ∀ o, o ∈ v.listed ↔
        o ∈ v.mempool ∧ ∀ p ∈ v.confirmed, p.outpoint ≠ o.outpoint := by
      intro o
      rw [hv, Finset.mem_sdiff]
      refine and_congr_right fun ho => ⟨fun hnot p hp hpo => ?_, fun hnone hc => hnone o hc rfl⟩
      obtain rfl := hdet p (.inl hp) o (.inr ho) hpo
      exact hnot hp
    refine ⟨fun order o limit hlimit => ?_, fun order script limit hlimit => ?_,
      fun order script limit hlimit => ?_⟩
    · rw [getOutputsByScriptpubkey_eq hlimit, h.mem_getOutputsByOutpoints, h.mem_countedOutputs,
        hlisted, List.mem_singleton, eq_self, eq_self]
    · rw [getOutputsByScriptpubkey_eq hlimit]
      refine ((h.nodup_countedOutputs_iff order script).mpr fun o ho _ hc => ?_).map_on ?_
      · exact absurd rfl (((hlisted o).mp ho).2 o hc)
      · exact fun o ho p hp => hdet o (h.countedOutputs_subset ho) p (h.countedOutputs_subset hp)
    · rw [getOutputsByScriptpubkey_eq hlimit, balance_eq_sum]

end Utxodb

/-! ## Runs -/

/-- The store shows a view whose mempool outputs are unconfirmed and in their buckets. -/
structure Bch.Agreeing (all : List Transaction) (b : Bch) (v : UtxoView) : Prop where
  shows_view : b.utxodb.Shows v
  outputs : v.outputs ⊆ {o | ∃ tx ∈ all, o ∈ tx.outputs}
  listed : v.listed = v.mempool
  disjoint : Disjoint v.mempool v.confirmed

namespace Bch

theorem Agreeing.empty (all : List Transaction) : Bch.Agreeing all .empty .empty where
  shows_view := .empty
  outputs := by simp [UtxoView.outputs, UtxoView.empty]
  listed := rfl
  disjoint := Finset.disjoint_empty_left _

variable {L : Ledger} {all : List Transaction} {b b' : Bch} {v : UtxoView}

/-- Confirmed outputs leave the mempool with their block. -/
theorem Agreeing.block (h : b.Agreeing all v) (txs : List Transaction) :
    (v.block txs).listed = (v.block txs).mempool ∧
      Disjoint (v.block txs).mempool (v.block txs).confirmed := by
  refine ⟨by simp only [UtxoView.block, h.listed], Finset.disjoint_left.mpr fun o ho hc => ?_⟩
  obtain ⟨hm, hcreated, -⟩ := Finset.mem_filter.mp ho
  rcases Finset.mem_union.mp (Finset.mem_filter.mp hc).1 with hold | hnew
  · exact Finset.disjoint_left.mp h.disjoint hm hold
  · exact hcreated (List.mem_map_of_mem (List.mem_toFinset.mp hnew))

/-- What it means for a mempool transaction to be fresh, in the view. -/
theorem Agreeing.deliversFresh_iff (h : b.Agreeing all v) {tx : Transaction}
    (hdet : OutpointsDetermine (v.outputs ∪ {o | ∃ t ∈ [tx], o ∈ t.outputs})) :
    DeliversFresh b (.mempoolTx tx) ↔
      (∀ o ∈ spendable tx, o ∉ v.confirmed) ∧ ∀ o ∈ v.mempool, o.outpoint ∉ tx.inputs := by
  simp only [DeliversFresh, KeyedMap.mem_iff, h.shows_view.mempool,
    h.shows_view.confirmed.lookup_iff]
  constructor
  · rintro ⟨hout, hspend⟩
    exact ⟨fun o ho hc => hout o ho ⟨o, hc, rfl⟩, fun o ho hm => hspend _ hm ⟨o, ho, rfl⟩⟩
  · rintro ⟨hout, hspend⟩
    refine ⟨fun o ho ⟨p, hp, hpo⟩ => ?_, fun m hm ⟨o, ho, hom⟩ => hspend o ho (hom ▸ hm)⟩
    obtain rfl := hdet p (.inl (.inl hp)) o
      (.inr ⟨tx, List.mem_singleton.mpr rfl, mem_spendable ho⟩) hpo
    exact hout p ho hp

/-- A fresh mempool transaction adds unconfirmed outputs and removes none. -/
theorem Agreeing.mempoolTx (h : b.Agreeing all v) {tx : Transaction}
    (hself : ∀ o ∈ spendable tx, o.outpoint ∉ tx.inputs)
    (hnew : ∀ o ∈ spendable tx, o ∉ v.confirmed)
    (hspend : ∀ o ∈ v.mempool, o.outpoint ∉ tx.inputs) :
    (v.mempoolTx tx).listed = (v.mempoolTx tx).mempool ∧
      Disjoint (v.mempoolTx tx).mempool (v.mempoolTx tx).confirmed := by
  constructor
  · simp only [UtxoView.mempoolTx, h.listed]
    refine Finset.filter_true_of_mem fun o ho hm => ?_
    rcases Finset.mem_union.mp ho with ho | ho
    · exact hspend o ho hm
    · exact hself o (List.mem_toFinset.mp ho) hm
  · refine Finset.disjoint_left.mpr fun o ho hc => ?_
    rcases Finset.mem_union.mp ho with ho | ho
    · exact Finset.disjoint_left.mp h.disjoint ho hc
    · exact hnew o (List.mem_toFinset.mp ho) hc

/-- A mempool transaction after which the queries agree was fresh. -/
theorem Agreeing.fresh_of_mempoolTx (h : b.Agreeing all v) {tx : Transaction}
    (hself : ∀ o ∈ spendable tx, o.outpoint ∉ tx.inputs)
    (heq : (v.mempoolTx tx).listed = (v.mempoolTx tx).mempool \ v.confirmed) :
    (∀ o ∈ spendable tx, o ∉ v.confirmed) ∧ ∀ o ∈ v.mempool, o.outpoint ∉ tx.inputs := by
  have hiff : ∀ o, o ∈ (v.mempoolTx tx).listed ↔ o ∈ (v.mempoolTx tx).mempool \ v.confirmed :=
    fun o => by rw [heq]
  refine ⟨fun o ho hc => ?_, fun o ho hm => ?_⟩
  · have hlisted : o ∈ (v.mempoolTx tx).listed :=
      Finset.mem_filter.mpr ⟨Finset.mem_union_right _ (List.mem_toFinset.mpr ho), hself o ho⟩
    exact (Finset.mem_sdiff.mp ((hiff o).mp hlisted)).2 hc
  · have hlisted := (hiff o).mpr (Finset.mem_sdiff.mpr ⟨Finset.mem_union_left _ ho,
      Finset.disjoint_left.mp h.disjoint ho⟩)
    exact (Finset.mem_filter.mp hlisted).2 hm

/-- One step: the queries go on agreeing exactly under the condition, which keeps the
invariant. -/
theorem Agreeing.step (h : b.Agreeing all v) (hall : ∀ tx ∈ all, L.T.lookup tx.txid = some tx)
    {e : BchEvent} (he : ∀ tx ∈ e.txs, tx ∈ all) (hstep : b.step e = .ok b') :
    (QueriesAgree b'.utxodb → DeliversFresh b e) ∧
      (DeliversFresh b e → b'.Agreeing all (v.step e)) := by
  have hhyd : ∀ tx ∈ all, tx.Hydrated := fun tx htx => L.hydrated (hall tx htx)
  have hout := outpointsDetermine_outputs hhyd (L.txidsDetermine hall)
  obtain ⟨hdet, hshows, houtputs⟩ :=
    h.shows_view.step_within hhyd (L.txidsDetermine hall) h.outputs he hstep
  have hagree := hshows.queriesAgree_iff fun o ho p hp => hout o (houtputs ho) p (houtputs hp)
  cases e with
  | block txs saveRollback =>
      obtain ⟨hlisted, hdisj⟩ := h.block txs
      exact ⟨fun _ => trivial, fun _ => ⟨hshows, houtputs, hlisted, hdisj⟩⟩
  | mempoolTx tx =>
      have hself : ∀ o ∈ spendable tx, o.outpoint ∉ tx.inputs := fun o ho =>
        L.notMem_own_inputs (hall tx (he tx (List.mem_singleton.mpr rfl))) (mem_spendable ho)
      rw [h.deliversFresh_iff hdet]
      refine ⟨fun hq => h.fresh_of_mempoolTx hself (hagree.mp hq), fun hfresh => ?_⟩
      obtain ⟨hlisted, hdisj⟩ := h.mempoolTx hself hfresh.1 hfresh.2
      exact ⟨hshows, houtputs, hlisted, hdisj⟩

end Bch
end SlpGraphSearch
