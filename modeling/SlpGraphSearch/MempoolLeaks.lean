import SlpGraphSearch.UtxoView

/-!
# What is left of the mempool

The mempool side of the output store once every delivered transaction is confirmed. A
note that an outpoint is spent is only erased together with an entry of the confirmed
maps. The outputs of a block leave their mempool buckets without a look at whether these
are empty, so the bucket stays until an input empties it.
-/
namespace SlpGraphSearch
open Library Transaction

/-! ## Keys of the buckets -/

theorem mem_eraseInBucket {idx : HashMap Scriptpubkey OutpointMap} {s script : Scriptpubkey}
    {m : Outpoint} : script ∈ eraseInBucket idx s m ↔ script ∈ idx := by
  unfold eraseInBucket
  cases hl : idx.lookup s with
  | none => rfl
  | some bucket =>
    rw [Finmap.mem_insert]
    apply or_iff_right_of_imp
    intro hs
    exact Finmap.mem_iff.mpr ⟨bucket, hs ▸ hl⟩

/-- A bucket is dropped exactly when the erasure leaves nothing in it. -/
theorem mem_eraseBucket {idx : HashMap Scriptpubkey OutpointMap} {s script : Scriptpubkey}
    {m : Outpoint} : script ∈ eraseBucket idx s m ↔
      script ∈ idx ∧ (script = s → ∃ k o, bucketLookup (eraseBucket idx s m) s k = some o) := by
  unfold eraseBucket
  cases hl : idx.lookup s with
  | none =>
    simp only [iff_self_and]
    intro hin hs
    rw [hs, Finmap.mem_iff, hl] at hin
    simp at hin
  | some bucket =>
    have hs : s ∈ idx := Finmap.mem_iff.mpr ⟨bucket, hl⟩
    simp only
    split_ifs with hempty
    · rw [Finmap.mem_erase, and_comm]
      apply and_congr_right
      intro hin
      simp [bucketLookup]
    · rw [KeyedMap.isEmpty_iff, not_forall] at hempty
      obtain ⟨k, hk⟩ := hempty
      obtain ⟨o, ho⟩ := Option.ne_none_iff_exists'.mp hk
      rw [Finmap.mem_insert]
      constructor
      · intro hin
        refine ⟨hin.elim (fun heq => heq ▸ hs) id, fun _ => ⟨k, o, ?_⟩⟩
        simp [bucketLookup, ho]
      · exact fun hin => .inr hin.1

namespace Utxodb

variable {db : Utxodb} {v : UtxoView} {script : Scriptpubkey}

theorem foldl_addOutput_buckets (created : List Output) :
    script ∈ (created.foldl addOutput db).mempoolScriptpubkeyToOutput ↔
      script ∈ db.mempoolScriptpubkeyToOutput := by
  induction created generalizing db with
  | nil => rfl
  | cons m created ih =>
    rw [List.foldl_cons, ih]
    exact mem_eraseInBucket

theorem spendConfirmed_buckets (m : Outpoint) :
    (db.spendConfirmed m).1.mempoolScriptpubkeyToOutput = db.mempoolScriptpubkeyToOutput := by
  unfold spendConfirmed
  cases db.outpointMap.lookup m with
  | none => rfl
  | some o => rfl

/-- An input drops the bucket of the mempool output that it spends if nothing else is listed
there. -/
theorem Shows.spendMempool_buckets (h : db.Shows v) (m : Outpoint) (script : Scriptpubkey) :
    script ∈ (db.spendMempool m).1.mempoolScriptpubkeyToOutput ↔
      script ∈ db.mempoolScriptpubkeyToOutput ∧
        ((∃ o ∈ v.mempool, o.outpoint = m ∧ o.scriptpubkey = script) →
          ∃ o ∈ v.listed, o.outpoint ≠ m ∧ o.scriptpubkey = script) := by
  unfold Utxodb.spendMempool
  cases hl : db.mempoolOutpointMap.lookup m with
  | none =>
    have hnone := h.lookup_mempool_none hl
    simp only [iff_self_and]
    intro _ hex
    obtain ⟨o, ho, hom, -⟩ := hex
    exact absurd hom (hnone o ho)
  | some p =>
    simp only [mem_eraseBucket]
    apply and_congr_right
    intro _
    have hp := (h.mempool m p).mp hl
    have hlisted := h.listed_eraseBucket hl
    constructor
    · intro hkept hex
      obtain ⟨o, ho, hom, hscript⟩ := hex
      have hop : o = p := Option.some.inj (((h.mempool m o).mpr ⟨ho, hom⟩).symm.trans hl)
      subst hop
      obtain ⟨k, q, hq⟩ := hkept hscript.symm
      obtain ⟨hin, -, hqs⟩ := (hlisted _ _ _).mp hq
      obtain ⟨hin, hne⟩ := Finset.mem_filter.mp hin
      exact ⟨q, hin, hne, hqs.trans hscript⟩
    · intro hkept hscript
      obtain ⟨q, hin, hne, hqs⟩ := hkept ⟨p, hp.1, hp.2, hscript.symm⟩
      refine ⟨q.outpoint, q, (hlisted _ _ _).mpr ⟨Finset.mem_filter.mpr ⟨hin, hne⟩, rfl, ?_⟩⟩
      exact hqs.trans hscript

/-- When the inputs of a block take all that is listed under a script, they drop the bucket if
and only if one of them spends a mempool output of that script. -/
theorem Shows.spendUtxos_buckets (h : db.Shows v) {inputs : List Outpoint}
    (hall : ∀ o ∈ v.listed, o.scriptpubkey = script → o.outpoint ∈ inputs) :
    script ∈ (inputs.foldl spendUtxo db).mempoolScriptpubkeyToOutput ↔
      script ∈ db.mempoolScriptpubkeyToOutput ∧
        ∀ o ∈ v.mempool, o.scriptpubkey = script → o.outpoint ∉ inputs := by
  induction inputs generalizing db v with
  | nil => simp
  | cons m inputs ih =>
    have hconf := h.spendConfirmed m
    have hnext : (spendUtxo db m).Shows _ := hconf.spendMempool m
    have hbuckets := hconf.spendMempool_buckets m script
    rw [spendConfirmed_buckets] at hbuckets
    rw [List.foldl_cons, ih hnext ?_]
    swap
    · intro o ho hscript
      obtain ⟨ho, hne⟩ := Finset.mem_filter.mp ho
      exact (List.mem_cons.mp (hall o ho hscript)).resolve_left hne
    rw [spendUtxo, hbuckets, and_assoc]
    apply and_congr_right
    intro _
    simp only [Finset.mem_filter, List.mem_cons, not_or]
    constructor
    · intro hkept o ho hscript
      have hne : o.outpoint ≠ m := by
        intro hom
        -- what is still listed would have to be spent later
        obtain ⟨q, hq, hqm, hqs⟩ := hkept.1 ⟨o, ho, hom, hscript⟩
        have hlater := (List.mem_cons.mp (hall q hq hqs)).resolve_left hqm
        exact hkept.2 q ⟨h.listed_subset hq, hqm⟩ hqs hlater
      exact ⟨hne, hkept.2 o ⟨ho, hne⟩ hscript⟩
    · intro hnone
      constructor
      · intro hex
        obtain ⟨o, ho, hom, hscript⟩ := hex
        exact absurd hom (hnone o ho hscript).1
      · exact fun o ho hscript => (hnone o ho.1 hscript).2

/-! ## One step -/

/-- Nothing is left on the mempool side. -/
structure MempoolEmpty (db : Utxodb) : Prop where
  spent : db.mempoolSpentConfirmedOutpoints = ∅
  outputs : db.mempoolOutpointMap.isEmpty = true
  buckets : db.mempoolScriptpubkeyToOutput = ∅

/-- The block takes all that is on the mempool side: it creates or spends every mempool
output; it creates every outpoint noted as spent, or spends it from the confirmed maps; and
into every bucket it spends a mempool output that it does not create. -/
structure ClearedBy (db : Utxodb) (txs : List Transaction) : Prop where
  outputs : ∀ k ∈ db.mempoolOutpointMap, k ∈ (txs.flatMap spendable).map Output.outpoint ∨
    k ∈ txs.flatMap Transaction.inputs
  spent : ∀ k ∈ db.mempoolSpentConfirmedOutpoints,
    k ∈ (txs.flatMap spendable).map Output.outpoint ∨
      k ∈ txs.flatMap Transaction.inputs ∧ k ∈ db.outpointMap
  buckets : ∀ script ∈ db.mempoolScriptpubkeyToOutput, ∃ k ∈ txs.flatMap Transaction.inputs,
    k ∉ (txs.flatMap spendable).map Output.outpoint ∧
      ∃ o, db.mempoolOutpointMap.lookup k = some o ∧ o.scriptpubkey = script

theorem MempoolEmpty.empty : Utxodb.empty.MempoolEmpty where
  spent := rfl
  outputs := KeyedMap.isEmpty_iff.mpr fun k => KeyedMap.lookup_empty k
  buckets := rfl

theorem Shows.mem_outpointMap (h : db.Shows v) {k : Outpoint} :
    k ∈ db.outpointMap ↔ ∃ o ∈ v.confirmed, o.outpoint = k := by
  rw [KeyedMap.mem_iff]
  exact exists_congr fun o => h.confirmed.lookup_iff k o

theorem Shows.mem_mempoolOutpointMap (h : db.Shows v) {k : Outpoint} :
    k ∈ db.mempoolOutpointMap ↔ ∃ o ∈ v.mempool, o.outpoint = k := by
  rw [KeyedMap.mem_iff]
  exact exists_congr fun o => h.mempool k o

theorem Shows.mempoolOutpointMap_isEmpty (h : db.Shows v) :
    db.mempoolOutpointMap.isEmpty = true ↔ v.mempool = ∅ := by
  rw [KeyedMap.isEmpty_iff, Finset.eq_empty_iff_forall_notMem]
  constructor
  · intro hnone o ho
    exact h.lookup_mempool_none (hnone o.outpoint) o ho rfl
  · intro hnone k
    apply Option.eq_none_iff_forall_ne_some.mpr
    intro o ho
    exact hnone o ((h.mempool k o).mp ho).1

theorem buckets_eq_empty_iff {idx : HashMap Scriptpubkey OutpointMap} :
    idx = ∅ ↔ ∀ script, script ∉ idx := by
  constructor
  · intro h script
    rw [h]
    exact Finmap.notMem_empty
  · intro h
    apply Finmap.ext_lookup
    intro script
    rw [Finmap.lookup_eq_none.mpr (h script), Finmap.lookup_empty]

theorem Shows.processBlock_buckets (h : db.Shows v) (txs : List Transaction)
    (hdet : OutpointsDetermine (v.outputs ∪ {o | ∃ tx ∈ txs, o ∈ tx.outputs}))
    (hall : (v.block txs).mempool = ∅) :
    script ∈ (SlpGraphSearch.blockUtxodb db txs).mempoolScriptpubkeyToOutput ↔
      script ∈ db.mempoolScriptpubkeyToOutput ∧ ∀ o ∈ v.mempool, o.scriptpubkey = script →
        o.outpoint ∉ (txs.flatMap spendable).map Output.outpoint →
        o.outpoint ∉ txs.flatMap Transaction.inputs := by
  have hcreated := h.blockOutputs txs hdet
  have htaken : ∀ o ∈ v.mempool, o.outpoint ∉ (txs.flatMap spendable).map Output.outpoint →
      o.outpoint ∈ txs.flatMap Transaction.inputs := by
    intro o ho hnot
    by_contra hunspent
    have hleft : o ∈ (v.block txs).mempool := Finset.mem_filter.mpr ⟨ho, hnot, hunspent⟩
    simp [hall] at hleft
  rw [SlpGraphSearch.blockUtxodb, hcreated.spendUtxos_buckets ?_, foldl_addOutput_buckets]
  · simp only [Finset.mem_filter, and_imp]
    apply and_congr_right
    intro _
    exact forall₂_congr fun o ho => ⟨fun hk hs hc => hk hc hs, fun hk hc hs => hk hs hc⟩
  · intro o ho _
    obtain ⟨ho, hnot⟩ := Finset.mem_filter.mp ho
    exact htaken o (h.listed_subset ho) hnot

/-- A block empties the mempool side exactly if it takes all of it. -/
theorem Shows.mempoolEmpty_block_iff {b b' : Bch} {txs : List Transaction} {saveRollback : Bool}
    (h : b.utxodb.Shows v)
    (hdet : OutpointsDetermine (v.outputs ∪ {o | ∃ tx ∈ txs, o ∈ tx.outputs}))
    (hstep : b.step (.block txs saveRollback) = .ok b') :
    b'.utxodb.MempoolEmpty ↔ b.utxodb.ClearedBy txs := by
  have h' : b'.utxodb.Shows (v.block txs) := h.step (e := .block txs saveRollback) hdet hstep
  have hbuckets : b'.utxodb.mempoolScriptpubkeyToOutput =
      (SlpGraphSearch.blockUtxodb b.utxodb txs).mempoolScriptpubkeyToOutput := by
    obtain ⟨added, removed, hdb⟩ := utxodb_of_processBlock hstep
    rw [hdb]
    split_ifs
    · rfl
    · rfl
  have houtputs : (v.block txs).mempool = ∅ ↔ ∀ k ∈ b.utxodb.mempoolOutpointMap,
      k ∈ (txs.flatMap spendable).map Output.outpoint ∨ k ∈ txs.flatMap Transaction.inputs := by
    rw [UtxoView.block, Finset.filter_eq_empty_iff]
    constructor
    · intro hnone k hk
      obtain ⟨o, ho, hok⟩ := h.mem_mempoolOutpointMap.mp hk
      rw [← hok]
      by_contra hneither
      exact hnone ho (not_or.mp hneither)
    · intro htaken o ho hneither
      have hk := h.mem_mempoolOutpointMap.mpr ⟨o, ho, rfl⟩
      exact (not_or.mpr hneither) (htaken o.outpoint hk)
  have hspent : (v.block txs).spent = ∅ ↔ ∀ k ∈ b.utxodb.mempoolSpentConfirmedOutpoints,
      k ∈ (txs.flatMap spendable).map Output.outpoint ∨
        k ∈ txs.flatMap Transaction.inputs ∧ k ∈ b.utxodb.outpointMap := by
    rw [h.spent, UtxoView.block, Finset.filter_eq_empty_iff]
    apply forall₂_congr
    intro k hk
    rw [not_and_or, not_not, Classical.not_imp, h.mem_outpointMap]
    simp only [not_forall, not_not, exists_prop]
  have hkeys : (v.block txs).mempool = ∅ → (b'.utxodb.mempoolScriptpubkeyToOutput = ∅ ↔
      ∀ script ∈ b.utxodb.mempoolScriptpubkeyToOutput, ∃ k ∈ txs.flatMap Transaction.inputs,
        k ∉ (txs.flatMap spendable).map Output.outpoint ∧
          ∃ o, b.utxodb.mempoolOutpointMap.lookup k = some o ∧ o.scriptpubkey = script) := by
    intro hmempool
    rw [hbuckets, buckets_eq_empty_iff]
    simp only [h.processBlock_buckets txs hdet hmempool, not_and]
    apply forall₂_congr
    intro script hscript
    constructor
    · intro hnot
      simp only [not_forall, not_not, exists_prop] at hnot
      obtain ⟨o, ho, hs, hcreated, hin⟩ := hnot
      exact ⟨o.outpoint, hin, hcreated, o, (h.mempool _ o).mpr ⟨ho, rfl⟩, hs⟩
    · intro hex hnone
      obtain ⟨k, hin, hcreated, o, hlookup, hs⟩ := hex
      obtain ⟨ho, hok⟩ := (h.mempool k o).mp hlookup
      exact hnone o ho hs (hok ▸ hcreated) (hok ▸ hin)
  constructor
  · intro hempty
    have hmempool := h'.mempoolOutpointMap_isEmpty.mp hempty.outputs
    exact ⟨houtputs.mp hmempool, hspent.mp (h'.spent ▸ hempty.spent),
      (hkeys hmempool).mp hempty.buckets⟩
  · intro hcleared
    have hmempool := houtputs.mpr hcleared.outputs
    exact ⟨h'.spent.trans (hspent.mpr hcleared.spent), h'.mempoolOutpointMap_isEmpty.mpr hmempool,
      (hkeys hmempool).mpr hcleared.buckets⟩

/-- A mempool transaction that leaves an empty mempool side empty does nothing. -/
theorem Shows.mempoolEmpty_mempoolTx_iff {b b' : Bch} {tx : Transaction}
    (h : b.utxodb.Shows v)
    (hdet : OutpointsDetermine (v.outputs ∪ {o | ∃ t ∈ [tx], o ∈ t.outputs}))
    (hstep : b.step (.mempoolTx tx) = .ok b') (hempty : b.utxodb.MempoolEmpty) :
    b'.utxodb.MempoolEmpty ↔ spendable tx = [] ∧ tx.inputs = [] := by
  have h' : b'.utxodb.Shows (v.mempoolTx tx) := h.step (e := .mempoolTx tx) hdet hstep
  have hmempool := h.mempoolOutpointMap_isEmpty.mp hempty.outputs
  constructor
  · intro hempty'
    have hnew := h'.mempoolOutpointMap_isEmpty.mp hempty'.outputs
    have hspent := h'.spent.symm.trans hempty'.spent
    have hspendable : spendable tx = [] := by
      rw [UtxoView.mempoolTx, hmempool, Finset.empty_union, List.toFinset_eq_empty_iff] at hnew
      exact hnew
    refine ⟨hspendable, ?_⟩
    rw [List.eq_nil_iff_forall_not_mem]
    intro m hm
    have hin : m ∈ (v.mempoolTx tx).spent := by
      simp [UtxoView.mempoolTx, hmempool, hspendable, hm]
    rw [hspent] at hin
    simp at hin
  · intro hnothing
    have hsame : b'.utxodb = b.utxodb := by
      rw [utxodb_of_processMempoolTx hstep, hnothing.1, hnothing.2]
      rfl
    rw [hsame]
    exact hempty

end Utxodb

/-! ## Runs -/

/-- Every transaction delivered through the mempool stands in a processed block. -/
def Quiet (past : List BchEvent) : Prop :=
  ∀ tx, .mempoolTx tx ∈ past → ∃ txs saveRollback, .block txs saveRollback ∈ past ∧ tx ∈ txs

/-- A block after which no delivered transaction is unconfirmed takes all that is on the
mempool side, and no transaction is delivered when that is so already, unless it has neither
inputs nor token outputs. -/
def BchEvent.LeaksNothing (past : List BchEvent) (s : Bch) : BchEvent → Prop
  | .block txs saveRollback =>
      Quiet (past ++ [.block txs saveRollback]) → s.utxodb.ClearedBy txs
  | .mempoolTx tx =>
      Quiet (past ++ [.mempoolTx tx]) → spendable tx = [] ∧ tx.inputs = []

theorem Quiet.of_concat_mempoolTx {past : List BchEvent} {tx : Transaction}
    (h : Quiet (past ++ [.mempoolTx tx])) : Quiet past := by
  intro t ht
  obtain ⟨txs, saveRollback, hblock, hin⟩ := h t (List.mem_append_left _ ht)
  refine ⟨txs, saveRollback, ?_, hin⟩
  simpa using hblock

/-- An outpoint that no transaction of the run creates as a token output stays noted. -/
theorem UtxoView.spent_of_foreign {past : List BchEvent} {m : Outpoint}
    (hforeign : ∀ e ∈ past, ∀ t ∈ e.txs, ∀ o ∈ spendable t, o.outpoint ≠ m) {tx : Transaction}
    (htx : .mempoolTx tx ∈ past) (hm : m ∈ tx.inputs) : m ∈ (past.foldl step .empty).spent := by
  induction past using List.reverseRecOn with
  | nil => simp at htx
  | append_singleton past e ih =>
    have hpast : ∀ e' ∈ past, ∀ t ∈ e'.txs, ∀ o ∈ spendable t, o.outpoint ≠ m :=
      fun e' he' => hforeign e' (List.mem_append_left _ he')
    have hthis := hforeign e (List.mem_append_right _ List.mem_cons_self)
    have hnone : ∀ o ∈ (past.foldl step .empty).outputs, o.outpoint ≠ m := by
      intro o ho
      cases Utxodb.run_spendable ho with
      | inl hold => simp [UtxoView.outputs, UtxoView.empty] at hold
      | inr hnew =>
        obtain ⟨e', he', t, ht, hot⟩ := hnew
        exact hpast e' he' t ht o hot
    have hkeep : m ∈ (past.foldl step .empty).spent →
        m ∈ ((past ++ [e]).foldl step .empty).spent := by
      intro hin
      rw [List.foldl_concat]
      cases e with
      | mempoolTx t => exact Finset.mem_union_left _ hin
      | block txs saveRollback =>
        refine Finset.mem_filter.mpr ⟨hin, ?_, fun _ o ho => hnone o (.inl ho)⟩
        intro hcreated
        obtain ⟨o, ho, hom⟩ := List.mem_map.mp hcreated
        obtain ⟨t, ht, hot⟩ := List.mem_flatMap.mp ho
        exact hthis t ht o hot hom
    cases List.mem_append.mp htx with
    | inl hold => exact hkeep (ih hpast hold)
    | inr hlast =>
      have he : e = .mempoolTx tx := (List.mem_singleton.mp hlast).symm
      subst he
      rw [List.foldl_concat]
      apply Finset.mem_union_right
      refine Finset.mem_filter.mpr ⟨List.mem_toFinset.mpr hm, ?_⟩
      intro o ho
      cases Finset.mem_union.mp ho with
      | inl hold => exact hnone o (.inr hold)
      | inr hnew => exact hthis tx List.mem_cons_self o (List.mem_toFinset.mp hnew)

/-- The mempool side of the store is empty whenever every delivered transaction is confirmed,
exactly if every step leaks nothing. An input that no transaction of the run creates as a
token output is never forgotten. -/
theorem Bch.run_mempoolEmpty_iff {events : List BchEvent}
    (hhyd : ∀ tx ∈ events.flatMap BchEvent.txs, tx.Hydrated)
    (hdet : TxidsDetermine (events.flatMap BchEvent.txs)) :
    (Always Bch.step (fun past s => Quiet past → s.utxodb.MempoolEmpty) .empty events ↔
      EveryStep Bch.step (fun past s e => e.LeaksNothing past s) .empty events) ∧
    Always Bch.step (fun past s => ∀ tx, .mempoolTx tx ∈ past → ∀ m ∈ tx.inputs,
      (∀ t ∈ past.flatMap BchEvent.txs, ∀ o ∈ spendable t, o.outpoint ≠ m) →
        ¬ s.utxodb.MempoolEmpty) .empty events := by
  have hall : ∀ e ∈ events, ∀ tx ∈ e.txs, tx ∈ events.flatMap BchEvent.txs :=
    fun e he tx htx => List.mem_flatMap.mpr ⟨e, he, htx⟩
  have hstart : UtxoView.empty.outputs ⊆
      {o | ∃ tx ∈ events.flatMap BchEvent.txs, o ∈ tx.outputs} := by
    simp [UtxoView.outputs, UtxoView.empty]
  constructor
  · refine always_iff_everyStep_of_inv
      (I := fun past (s : Bch) => (∃ v, s.utxodb.Shows v ∧
        v.outputs ⊆ {o | ∃ tx ∈ events.flatMap BchEvent.txs, o ∈ tx.outputs}) ∧
        (Quiet past → s.utxodb.MempoolEmpty))
      ⟨⟨.empty, .empty, hstart⟩, fun _ => Utxodb.MempoolEmpty.empty⟩ (fun past s h => h.2) ?_
    intro past e rest s₁ s₂ hev h hs₁ hs₂
    obtain ⟨⟨v, hshows, hv⟩, hquiet⟩ := h
    have he : e ∈ events := by simp [hev]
    obtain ⟨hout, hshows', hv'⟩ := hshows.step_within hhyd hdet hv (hall e he) hs₂
    have hiff : (Quiet (past ++ [e]) → s₂.utxodb.MempoolEmpty) ↔ e.LeaksNothing past s₁ := by
      cases e with
      | block txs saveRollback =>
        exact imp_congr_right fun _ => hshows.mempoolEmpty_block_iff hout hs₂
      | mempoolTx tx =>
        apply imp_congr_right
        intro hq
        exact hshows.mempoolEmpty_mempoolTx_iff hout hs₂ (hquiet hq.of_concat_mempoolTx)
    exact ⟨hiff.mp, fun hC => ⟨⟨v.step e, hshows', hv'⟩, hiff.mpr hC⟩⟩
  · intro past rest hev s hs tx htx m hm hforeign hempty
    have hsub : ∀ e ∈ past, ∀ t ∈ e.txs, t ∈ events.flatMap BchEvent.txs :=
      fun e he => hall e (by simp [hev, he])
    obtain ⟨hshows, -⟩ := Utxodb.Shows.of_run hhyd hdet hsub .empty hstart hs
    have hspent := UtxoView.spent_of_foreign
      (fun e he t ht => hforeign t (List.mem_flatMap.mpr ⟨e, he, ht⟩)) htx hm
    rw [← hshows.spent, hempty.spent] at hspent
    simp at hspent

/-- A GENESIS, then a burn of its quantity through the mempool and in a block. -/
def confirmedBurnEvents : List BchEvent :=
  [.block [sampleGenesis] true, .mempoolTx sampleBurn, .block [sampleBurn] true]

theorem confirmedBurnEvents_txs {tx : Transaction}
    (htx : tx ∈ confirmedBurnEvents.flatMap BchEvent.txs) :
    tx = sampleGenesis ∨ tx = sampleBurn := by
  simp only [confirmedBurnEvents, List.flatMap_cons, List.flatMap_nil, BchEvent.txs,
    List.cons_append, List.nil_append, List.mem_cons, List.not_mem_nil, or_false] at htx
  exact htx.imp_right or_self_iff.mp

theorem confirmedBurnEvents_hydrated :
    ∀ tx ∈ confirmedBurnEvents.flatMap BchEvent.txs, tx.Hydrated := by
  intro tx htx
  cases confirmedBurnEvents_txs htx with
  | inl hgenesis => exact hgenesis ▸ sampleGenesis_hydrated
  | inr hburn => exact hburn ▸ sampleBurn_hydrated

theorem confirmedBurnEvents_txidsDetermine :
    TxidsDetermine (confirmedBurnEvents.flatMap BchEvent.txs) := by
  have hboth : TxidsDetermine [sampleGenesis, sampleBurn] := .of_nodup (by decide)
  exact hboth.mono fun t ht => List.mem_pair.mpr (confirmedBurnEvents_txs ht)

theorem Bch.run_mempoolEmpty_iff_sample :
    Always Bch.step (fun past s => Quiet past → s.utxodb.MempoolEmpty) .empty
      confirmedBurnEvents := by
  apply (Bch.run_mempoolEmpty_iff confirmedBurnEvents_hydrated
    confirmedBurnEvents_txidsDetermine).1.mpr
  intro past e rest hev s₁ s₂ hs₁ hs₂
  match past with
  | [] =>
    have he : .block [sampleGenesis] true = e := (List.cons.inj hev).1
    have hs : Bch.empty = s₁ := Except.ok.inj hs₁
    subst he hs
    intro _
    constructor
    · intro k hk
      exact absurd hk (KeyedMap.notMem_empty k)
    · intro k hk
      simp [Bch.empty, Utxodb.empty] at hk
    · intro script hscript
      exact absurd hscript Finmap.notMem_empty
  | [e₀] =>
    have hev' := (List.cons.inj (List.cons.inj hev).2).1
    have hfirst := (List.cons.inj hev).1
    subst hev' hfirst
    intro hquiet
    obtain ⟨txs, saveRollback, hblock, hin⟩ := hquiet sampleBurn (by simp)
    have hblock' : txs = [sampleGenesis] ∧ saveRollback = true := by simpa using hblock
    rw [hblock'.1] at hin
    exact absurd hin (by decide)
  | [e₀, e₁] =>
    have hfirst := (List.cons.inj hev).1
    have hsecond := (List.cons.inj (List.cons.inj hev).2).1
    have hlast := (List.cons.inj (List.cons.inj (List.cons.inj hev).2).2).1
    subst hfirst hsecond hlast
    have hrun : ∃ s, [BchEvent.block [sampleGenesis] true, .mempoolTx sampleBurn].foldlM
        Bch.step .empty = .ok s ∧ s.utxodb.mempoolOutpointMap.isEmpty = true ∧
        s.utxodb.mempoolSpentConfirmedOutpoints = {⟨sampleGenesis.txid, 1⟩} ∧
        ⟨sampleGenesis.txid, 1⟩ ∈ s.utxodb.outpointMap ∧
        s.utxodb.mempoolScriptpubkeyToOutput.keys = ∅ := by decide +kernel
    obtain ⟨s, hs, hout, hspent, hconf, hbuckets⟩ := hrun
    have hss : s₁ = s := Except.ok.inj (hs₁.symm.trans hs)
    subst hss
    intro _
    constructor
    · intro k hk
      obtain ⟨o, ho⟩ := KeyedMap.mem_iff.mp hk
      simp [KeyedMap.isEmpty_iff.mp hout k] at ho
    · intro k hk
      rw [hspent, Finset.mem_singleton] at hk
      rw [hk]
      exact .inr ⟨by decide, hconf⟩
    · intro script hscript
      rw [← Finmap.mem_keys, hbuckets] at hscript
      simp at hscript
  | e₀ :: e₁ :: e₂ :: past =>
    have hnil := (List.cons.inj (List.cons.inj (List.cons.inj hev).2).2).2
    simp at hnil

/-- The input of a GENESIS stays noted as spent. Where nothing else is left, the bucket of a
confirmed output is. -/
theorem Bch.mempoolEmpty_fails :
    ¬ Always Bch.step (fun past s => Quiet past → s.utxodb.MempoolEmpty) .empty
      [.mempoolTx sampleGenesis, .block [sampleGenesis] false] ∧
    ¬ Always Bch.step (fun past s => Quiet past → s.utxodb.MempoolEmpty) .empty sampleEvents := by
  constructor
  · intro h
    have hrun : ∃ s, [BchEvent.mempoolTx sampleGenesis, .block [sampleGenesis] false].foldlM
        Bch.step .empty = .ok s ∧
        ⟨.zero, 0⟩ ∈ s.utxodb.mempoolSpentConfirmedOutpoints := by decide +kernel
    obtain ⟨s, hs, hspent⟩ := hrun
    have hquiet : Quiet [.mempoolTx sampleGenesis, .block [sampleGenesis] false] := by
      intro tx htx
      have htx' : tx = sampleGenesis := by simpa using htx
      exact ⟨[sampleGenesis], false, by simp, by simp [htx']⟩
    have hempty := h _ [] (List.append_nil _).symm s hs hquiet
    rw [hempty.spent] at hspent
    simp at hspent
  · intro h
    have hrun : ∃ s, sampleEvents.foldlM Bch.step .empty = .ok s ∧
        s.utxodb.mempoolSpentConfirmedOutpoints = ∅ ∧
        [0x53] ∈ s.utxodb.mempoolScriptpubkeyToOutput := by decide +kernel
    obtain ⟨s, hs, -, hbucket⟩ := hrun
    have hquiet : Quiet sampleEvents := by
      intro tx htx
      have htx' : tx = sampleSend := by simpa [sampleEvents] using htx
      exact ⟨[sampleSend], true, by simp [sampleEvents], by simp [htx']⟩
    have hempty := h _ [] (List.append_nil _).symm s hs hquiet
    rw [hempty.buckets] at hbucket
    exact Finmap.notMem_empty hbucket

end SlpGraphSearch
