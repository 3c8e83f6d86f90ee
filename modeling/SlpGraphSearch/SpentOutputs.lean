import SlpGraphSearch.ValidatorRun
import SlpGraphSearch.UtxoView

/-!
# Spent outputs in the queries

When `utxodb` never reports an output that a delivered transaction spends. The store
forgets a spend in two ways: an output may be delivered after its spender, and a
mempool transaction that spends a mempool output leaves it in the mempool map. The
queries are right in every state of a run exactly if neither happens in it.
-/
namespace SlpGraphSearch
open Library Transaction

/-- The outpoints that delivered transactions spend. -/
def spentOutpoints (past : List BchEvent) : List Outpoint :=
  (past.flatMap BchEvent.txs).flatMap Transaction.inputs

theorem spentOutpoints_concat (past : List BchEvent) (e : BchEvent) :
    spentOutpoints (past ++ [e]) = spentOutpoints past ++ e.txs.flatMap Transaction.inputs := by
  simp [spentOutpoints]

/-- None of the queries includes an output that a delivered transaction spends. -/
structure SpentUnreported (past : List BchEvent) (b : Bch) : Prop where
  byOutpoints : ∀ ks, ∀ o ∈ b.utxodb.getOutputsByOutpoints ks, o.outpoint ∉ spentOutpoints past
  byScriptpubkey : ∀ order script limit,
    ∀ o ∈ b.utxodb.getOutputsByScriptpubkey order script limit, o.outpoint ∉ spentOutpoints past
  balance : ∀ order script, b.utxodb.getBalanceByScriptpubkey order script =
    (((b.utxodb.countedOutputs order script).filter fun o =>
      o.outpoint ∉ spentOutpoints past).map Output.value).sum

/-- No output is delivered after its spender, unless its block spends it again, and no
mempool transaction spends an output of the mempool map. -/
def SpendsInOrder (past : List BchEvent) (b : Bch) : BchEvent → Prop
  | .block txs _ => ∀ o ∈ txs.flatMap spendable, o.outpoint ∈ spentOutpoints past →
      o.outpoint ∈ txs.flatMap Transaction.inputs
  | .mempoolTx tx => (∀ o ∈ spendable tx, o.outpoint ∉ spentOutpoints past) ∧
      ∀ m ∈ tx.inputs, m ∉ b.utxodb.mempoolOutpointMap

namespace UtxoView

/-- What is spent is noted as spent if it is confirmed, and is hidden otherwise. -/
def Hides (v : UtxoView) (ks : List Outpoint) : Prop :=
  ∀ o : Output, o.outpoint ∈ ks → (o ∈ v.confirmed → o.outpoint ∈ v.spent) ∧
    (o ∈ v.mempool → ∃ p ∈ v.confirmed, p.outpoint = o.outpoint) ∧ o ∉ v.listed

end UtxoView

/-- The queries are right exactly if the view hides what is spent. -/
theorem Utxodb.Shows.spentUnreported_iff {b : Bch} {v : UtxoView} (h : b.utxodb.Shows v)
    (past : List BchEvent) : SpentUnreported past b ↔ v.Hides (spentOutpoints past) := by
  constructor
  · intro hq o ho
    have hout : o ∉ b.utxodb.getOutputsByOutpoints [o.outpoint] := fun hmem =>
      hq.byOutpoints _ o hmem ho
    have hscript : o ∉ b.utxodb.countedOutputs (.some _) o.scriptpubkey := by
      rw [← getOutputsByScriptpubkey_eq le_rfl]
      exact fun hmem => hq.byScriptpubkey _ _ _ o hmem ho
    rw [h.mem_getOutputsByOutpoints] at hout
    rw [h.mem_countedOutputs] at hscript
    refine ⟨fun hconf => ?_, fun hmem => ?_, fun hlisted => hscript ⟨rfl, .inr hlisted⟩⟩
    · by_contra hspent
      exact hout ⟨List.mem_singleton.mpr rfl, .inl ⟨hconf, hspent⟩⟩
    · by_contra hnone
      exact hout ⟨List.mem_singleton.mpr rfl, .inr ⟨hmem, fun p hp hpo => hnone ⟨p, hp, hpo⟩⟩⟩
  · intro hv
    have hcounted : ∀ {order script o}, o ∈ b.utxodb.countedOutputs order script →
        o.outpoint ∉ spentOutpoints past := by
      intro order script o ho hspent
      rcases (h.mem_countedOutputs.mp ho).2 with ⟨hconf, hnot⟩ | hlisted
      · exact hnot ((hv o hspent).1 hconf)
      · exact (hv o hspent).2.2 hlisted
    refine ⟨fun ks o ho hspent => ?_, fun order script limit o ho =>
      hcounted (countedOutputs_of_mem ho), fun order script => ?_⟩
    · rcases (h.mem_getOutputsByOutpoints.mp ho).2 with ⟨hconf, hnot⟩ | ⟨hmem, hnone⟩
      · exact hnot ((hv o hspent).1 hconf)
      · obtain ⟨p, hp, hpo⟩ := (hv o hspent).2.1 hmem
        exact hnone p hp hpo
    · rw [balance_eq_sum, List.filter_eq_self.mpr]
      exact fun o ho => by simpa using hcounted ho

namespace UtxoView

variable {v : UtxoView} {ks : List Outpoint}

/-- A block keeps spent outputs hidden exactly if it creates none of them. -/
theorem hides_block_iff (h : v.Hides ks) {txs : List Transaction}
    (hdet : OutpointsDetermine (v.outputs ∪ {o | ∃ tx ∈ txs, o ∈ tx.outputs})) :
    (v.block txs).Hides (ks ++ txs.flatMap Transaction.inputs) ↔
      ∀ o ∈ txs.flatMap spendable, o.outpoint ∈ ks →
        o.outpoint ∈ txs.flatMap Transaction.inputs := by
  have hcreated : ∀ {o}, o ∈ txs.flatMap spendable → ∃ tx ∈ txs, o ∈ tx.outputs := fun ho => by
    obtain ⟨tx, htx, ho⟩ := List.mem_flatMap.mp ho
    exact ⟨tx, htx, mem_spendable ho⟩
  constructor
  · intro hv o ho hk
    by_contra hnot
    have hconf : o ∈ (v.block txs).confirmed :=
      Finset.mem_filter.mpr ⟨Finset.mem_union_right _ (List.mem_toFinset.mpr ho), hnot⟩
    have hspent := (hv o (List.mem_append_left _ hk)).1 hconf
    exact (Finset.mem_filter.mp hspent).2.1 (List.mem_map_of_mem ho)
  · intro hC o hk
    refine ⟨fun hconf => ?_, fun hmem => ?_, fun hlisted => ?_⟩
    · obtain ⟨hor, hnot⟩ := Finset.mem_filter.mp hconf
      have hks := (List.mem_append.mp hk).resolve_right hnot
      rcases Finset.mem_union.mp hor with hold | hnew
      · refine Finset.mem_filter.mpr ⟨(h o hks).1 hold, fun hc => ?_, fun hc => absurd hc hnot⟩
        obtain ⟨p, hp, hpo⟩ := List.mem_map.mp hc
        obtain rfl := hdet p (.inr (hcreated hp)) o (.inl (.inl hold)) hpo
        exact hnot (hC p hp hks)
      · exact absurd (hC o (List.mem_toFinset.mp hnew) hks) hnot
    · obtain ⟨hold, hnotCreated, hnot⟩ := Finset.mem_filter.mp hmem
      have hks := (List.mem_append.mp hk).resolve_right hnot
      obtain ⟨p, hp, hpo⟩ := (h o hks).2.1 hold
      exact ⟨p, Finset.mem_filter.mpr ⟨Finset.mem_union_left _ hp, hpo ▸ hnot⟩, hpo⟩
    · obtain ⟨hold, hnotCreated, hnot⟩ := Finset.mem_filter.mp hlisted
      exact (h o ((List.mem_append.mp hk).resolve_right hnot)).2.2 hold

/-- A mempool transaction keeps spent outputs hidden exactly if it creates none of them
and finds no input in the mempool, when all mempool outputs are still listed. -/
theorem hides_mempoolTx_iff (h : v.Hides ks) (hlisted : v.listed = v.mempool)
    (hspent : ∀ k ∈ v.spent, k ∈ ks) {tx : Transaction}
    (hself : ∀ o ∈ spendable tx, o.outpoint ∉ tx.inputs) :
    (v.mempoolTx tx).Hides (ks ++ tx.inputs) ↔
      (∀ o ∈ spendable tx, o.outpoint ∉ ks) ∧ ∀ o ∈ v.mempool, o.outpoint ∉ tx.inputs := by
  constructor
  · intro hv
    have hnew : ∀ o ∈ spendable tx, o ∈ (v.mempoolTx tx).listed := fun o ho =>
      Finset.mem_filter.mpr ⟨Finset.mem_union_right _ (List.mem_toFinset.mpr ho), hself o ho⟩
    refine ⟨fun o ho hk => (hv o (List.mem_append_left _ hk)).2.2 (hnew o ho), fun o ho hin => ?_⟩
    obtain ⟨-, hconf, -⟩ := hv o (List.mem_append_right _ hin)
    obtain ⟨p, hp, hpo⟩ := hconf (Finset.mem_union_left _ ho)
    -- The output is noted as spent only by an earlier transaction.
    have hnoted := (hv p (List.mem_append_right _ (hpo ▸ hin))).1 hp
    rcases Finset.mem_union.mp hnoted with hold | hfresh
    · exact (h o (hpo ▸ hspent _ hold)).2.2 (hlisted ▸ ho)
    · exact (Finset.mem_filter.mp hfresh).2 o (Finset.mem_union_left _ ho) hpo.symm
  · rintro ⟨hnew, hin⟩ o hk
    have hmem : ∀ {p}, p ∈ v.mempool ∪ (spendable tx).toFinset → p.outpoint ∈ ks ++ tx.inputs →
        p ∈ v.mempool ∧ p.outpoint ∈ ks := by
      intro p hp hk
      rcases Finset.mem_union.mp hp with hp | hp
      · exact ⟨hp, (List.mem_append.mp hk).resolve_right (hin p hp)⟩
      · rw [List.mem_toFinset] at hp
        rcases List.mem_append.mp hk with hk | hk
        · exact absurd hk (hnew p hp)
        · exact absurd hk (hself p hp)
    refine ⟨fun hconf => ?_, fun ho => ?_, fun ho => ?_⟩
    · rcases List.mem_append.mp hk with hks | hinput
      · exact Finset.mem_union_left _ ((h o hks).1 hconf)
      · refine Finset.mem_union_right _ (Finset.mem_filter.mpr ⟨List.mem_toFinset.mpr hinput,
          fun p hp hpo => ?_⟩)
        rcases Finset.mem_union.mp hp with hp | hp
        · exact hin p hp (hpo ▸ hinput)
        · exact hself p (List.mem_toFinset.mp hp) (hpo ▸ hinput)
    · obtain ⟨ho, hks⟩ := hmem ho hk
      exact (h o hks).2.1 ho
    · obtain ⟨ho, hnot⟩ := Finset.mem_filter.mp ho
      rw [hlisted] at ho
      obtain ⟨ho, hks⟩ := hmem ho hk
      exact (h o hks).2.2 (hlisted ▸ ho)

end UtxoView

/-! ## Runs -/

/-- No member of a ledger spends its own outputs. -/
theorem Ledger.notMem_own_inputs (L : Ledger) {tx : Transaction}
    (htx : L.T.lookup tx.txid = some tx) {o : Output} (ho : o ∈ tx.outputs) :
    o.outpoint ∉ tx.inputs := by
  intro hin
  have hid := (L.hydrated htx).outpoint_txid ho
  exact L.acyclic tx.txid
    (.single ⟨tx, htx, KeyedMap.mem_iff.mpr ⟨tx, htx⟩, o.outpoint, hin, hid⟩)

/-- The store shows a view that hides what is spent, and every mempool output is still
in its bucket. -/
structure HidesSpent (all : List Transaction) (past : List BchEvent) (b : Bch)
    (v : UtxoView) : Prop where
  shows_view : b.utxodb.Shows v
  outputs : v.outputs ⊆ {o | ∃ tx ∈ all, o ∈ tx.outputs}
  listed : v.listed = v.mempool
  spent : ∀ k ∈ v.spent, k ∈ spentOutpoints past
  hides : v.Hides (spentOutpoints past)

theorem HidesSpent.empty (all : List Transaction) : HidesSpent all [] .empty .empty where
  shows_view := .empty
  outputs := by simp [UtxoView.outputs, UtxoView.empty]
  listed := rfl
  spent k hk := absurd hk (Finset.notMem_empty k)
  hides o ho := absurd ho List.not_mem_nil

/-- One step: the queries stay right exactly under the condition, which keeps the
invariant. -/
theorem HidesSpent.step {L : Ledger} {all : List Transaction} {past : List BchEvent} {b b' : Bch}
    {v : UtxoView} {e : BchEvent} (h : HidesSpent all past b v)
    (hall : ∀ tx ∈ all, L.T.lookup tx.txid = some tx) (he : ∀ tx ∈ e.txs, tx ∈ all)
    (hstep : b.step e = .ok b') :
    (SpentUnreported (past ++ [e]) b' ↔ SpendsInOrder past b e) ∧
      (SpendsInOrder past b e → HidesSpent all (past ++ [e]) b' (v.step e)) := by
  obtain ⟨hdet, hshows, houtputs⟩ := h.shows_view.step_within
    (fun tx htx => L.hydrated (hall tx htx)) (L.txidsDetermine hall) h.outputs he hstep
  have hiff : (v.step e).Hides (spentOutpoints (past ++ [e])) ↔ SpendsInOrder past b e := by
    rw [spentOutpoints_concat]
    cases e with
    | block txs saveRollback => exact UtxoView.hides_block_iff h.hides hdet
    | mempoolTx tx =>
        have htx := hall tx (he tx (List.mem_singleton.mpr rfl))
        rw [BchEvent.txs, List.flatMap_singleton]
        refine (UtxoView.hides_mempoolTx_iff h.hides h.listed h.spent fun o ho =>
          L.notMem_own_inputs htx (mem_spendable ho)).trans (and_congr_right fun _ => ?_)
        constructor
        · intro hin m hm hmem
          obtain ⟨o, ho⟩ := KeyedMap.mem_iff.mp hmem
          obtain ⟨hov, hom⟩ := (h.shows_view.mempool m o).mp ho
          exact hin o hov (hom ▸ hm)
        · intro hin o ho hmem
          exact hin _ hmem (KeyedMap.mem_iff.mpr ⟨o, (h.shows_view.mempool _ o).mpr ⟨ho, rfl⟩⟩)
  refine ⟨(hshows.spentUnreported_iff _).trans hiff, fun hC => ⟨hshows, houtputs, ?_, ?_,
    hiff.mpr hC⟩⟩
  · cases e with
    | block txs saveRollback => simp only [UtxoView.step, UtxoView.block, h.listed]
    | mempoolTx tx =>
        simp only [UtxoView.step, UtxoView.mempoolTx, h.listed]
        refine Finset.filter_true_of_mem fun o ho hin => ?_
        rcases Finset.mem_union.mp ho with ho | ho
        · exact hC.2 _ hin (KeyedMap.mem_iff.mpr ⟨o, (h.shows_view.mempool _ o).mpr ⟨ho, rfl⟩⟩)
        · exact L.notMem_own_inputs (hall tx (he tx (List.mem_singleton.mpr rfl)))
            (mem_spendable (List.mem_toFinset.mp ho)) hin
  · intro k hk
    rw [spentOutpoints_concat, List.mem_append]
    cases e with
    | block txs saveRollback => exact .inl (h.spent k (Finset.mem_filter.mp hk).1)
    | mempoolTx tx =>
        rcases Finset.mem_union.mp hk with hk | hk
        · exact .inl (h.spent k hk)
        · rw [BchEvent.txs, List.flatMap_singleton]
          exact .inr (List.mem_toFinset.mp (Finset.mem_filter.mp hk).1)

/-- In a run over one ledger no query ever reports a spent output exactly if every
step delivers spends in order. -/
theorem Bch.run_spentUnreported_iff (L : Ledger) {events : List BchEvent}
    (h : ∀ e ∈ events, ∀ tx ∈ e.txs, L.T.lookup tx.txid = some tx) :
    Always Bch.step SpentUnreported .empty events ↔
      EveryStep Bch.step SpendsInOrder .empty events := by
  have hall : ∀ tx ∈ events.flatMap BchEvent.txs, L.T.lookup tx.txid = some tx := fun tx htx => by
    obtain ⟨e, he, htx⟩ := List.mem_flatMap.mp htx
    exact h e he tx htx
  refine always_iff_everyStep_of_inv (I := fun past b =>
    ∃ v, HidesSpent (events.flatMap BchEvent.txs) past b v) ⟨_, .empty _⟩ ?_ ?_
  · rintro past b ⟨v, hv⟩
    exact (hv.shows_view.spentUnreported_iff past).mpr hv.hides
  · rintro past e rest b b' hev ⟨v, hv⟩ - hstep
    have he : ∀ tx ∈ e.txs, tx ∈ events.flatMap BchEvent.txs := fun tx htx =>
      List.mem_flatMap.mpr ⟨e, by simp [hev], htx⟩
    obtain ⟨hiff, hnext⟩ := hv.step hall he hstep
    exact ⟨hiff.mp, fun hC => ⟨_, hnext hC⟩⟩

theorem sampleEvents_fromLedger {e : BchEvent} (he : e ∈ sampleEvents) {tx : Transaction}
    (htx : tx ∈ e.txs) : Validator.sampleLedger.T.lookup tx.txid = some tx := by
  refine (Validator.mem_sampleLedger tx).mp ?_
  rcases sampleEvents_txs he htx with rfl | rfl <;> simp

/-- The SEND spends a confirmed output in the mempool and is confirmed afterwards. -/
theorem Bch.run_spentUnreported_sample :
    Always Bch.step SpentUnreported .empty sampleEvents := by
  refine (Bch.run_spentUnreported_iff Validator.sampleLedger fun e he tx htx =>
    sampleEvents_fromLedger he htx).mpr fun past e rest hev b b' hb _ => ?_
  rcases past with _ | ⟨e₁, _ | ⟨e₂, _ | ⟨e₃, past⟩⟩⟩ <;>
    simp only [sampleEvents, List.nil_append, List.cons_append, List.cons.injEq] at hev
  · obtain ⟨rfl, -⟩ := hev
    exact fun o _ hin => absurd hin List.not_mem_nil
  · obtain ⟨rfl, rfl, -⟩ := hev
    have hrun : ∃ b, [BchEvent.block [sampleGenesis] true].foldlM Bch.step .empty = .ok b ∧
        ∀ m ∈ sampleSend.inputs, m ∉ b.utxodb.mempoolOutpointMap := by decide +kernel
    obtain ⟨b₁, hb₁, hnotMem⟩ := hrun
    rw [hb, Except.ok.injEq] at hb₁
    exact ⟨by decide +kernel, hb₁ ▸ hnotMem⟩
  · obtain ⟨rfl, rfl, rfl, -⟩ := hev
    have hblock : ∀ o ∈ [sampleSend].flatMap spendable,
        o.outpoint ∉ spentOutpoints [.block [sampleGenesis] true, .mempoolTx sampleSend] := by
      decide +kernel
    exact fun o ho hin => absurd hin (hblock o ho)
  · simp at hev

/-- A GENESIS and then its SEND, both through the mempool. -/
def mempoolEvents : List BchEvent := [.mempoolTx sampleGenesis, .mempoolTx sampleSend]

theorem mempoolEvents_fromLedger {e : BchEvent} (he : e ∈ mempoolEvents) {tx : Transaction}
    (htx : tx ∈ e.txs) : Validator.sampleLedger.T.lookup tx.txid = some tx := by
  refine (Validator.mem_sampleLedger tx).mp ?_
  simp only [mempoolEvents, List.mem_cons, List.not_mem_nil, or_false] at he
  rcases he with rfl | rfl <;> rw [BchEvent.txs, List.mem_singleton] at htx <;> simp [htx]

/-- The output that the SEND spends stays in the mempool map and is reported. -/
theorem Bch.spentUnreported_fails :
    (∀ e ∈ mempoolEvents, ∀ tx ∈ e.txs, Validator.sampleLedger.T.lookup tx.txid = some tx) ∧
      ¬ Always Bch.step SpentUnreported .empty mempoolEvents := by
  constructor
  · exact fun e he tx htx => mempoolEvents_fromLedger he htx
  · intro h
    have hrun : ∃ b, mempoolEvents.foldlM Bch.step .empty = .ok b ∧
        ∃ o ∈ b.utxodb.getOutputsByOutpoints [⟨sampleGenesis.txid, 1⟩],
          o.outpoint ∈ spentOutpoints mempoolEvents := by decide +kernel
    obtain ⟨b, hb, o, ho, hspent⟩ := hrun
    exact (h mempoolEvents [] (List.append_nil _).symm b hb).byOutpoints _ o ho hspent

end SlpGraphSearch
