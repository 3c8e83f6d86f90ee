import SlpGraphSearch.UtxoIndex

/-!
# The output store as sets

What `utxodb` holds, with the containers left out: the confirmed outputs, the
outputs of mempool transactions, those of them that are still in their address
bucket, and the outpoints that mempool transactions spent. Blocks and mempool
transactions act on these four sets, and the queries depend on nothing else.
-/
namespace SlpGraphSearch
open Library Transaction

/-- The contents of an output store. -/
@[ext] structure UtxoView where
  confirmed : Finset Output
  mempool : Finset Output
  listed : Finset Output
  spent : Finset Outpoint

namespace UtxoView

def empty : UtxoView := ⟨∅, ∅, ∅, ∅⟩

/-- A block confirms its outputs and removes what it spends. What it creates leaves
the mempool side, spent or not. -/
def block (v : UtxoView) (txs : List Transaction) : UtxoView :=
  let created := (txs.flatMap spendable).map Output.outpoint
  let inputs := txs.flatMap Transaction.inputs
  { confirmed := confirmBlock v.confirmed txs
    mempool := {o ∈ v.mempool | o.outpoint ∉ created ∧ o.outpoint ∉ inputs}
    listed := {o ∈ v.listed | o.outpoint ∉ created ∧ o.outpoint ∉ inputs}
    spent := {k ∈ v.spent | k ∉ created ∧ (k ∈ inputs → ∀ o ∈ v.confirmed, o.outpoint ≠ k)} }

/-- A mempool transaction notes an input as spent unless it finds it in the mempool,
where the output only leaves its bucket. -/
def mempoolTx (v : UtxoView) (tx : Transaction) : UtxoView :=
  let mempool := v.mempool ∪ (spendable tx).toFinset
  { confirmed := v.confirmed
    mempool := mempool
    listed := {o ∈ v.listed ∪ (spendable tx).toFinset | o.outpoint ∉ tx.inputs}
    spent := v.spent ∪ {m ∈ tx.inputs.toFinset | ∀ o ∈ mempool, o.outpoint ≠ m} }

def step (v : UtxoView) : BchEvent → UtxoView
  | .block txs _ => v.block txs
  | .mempoolTx tx => v.mempoolTx tx

/-- All outputs in the view. -/
def outputs (v : UtxoView) : Set Output := ↑v.confirmed ∪ ↑v.mempool

end UtxoView

/-- The store holds what the view says. -/
structure Utxodb.Shows (db : Utxodb) (v : UtxoView) : Prop where
  confirmed : ConfirmedAt db v.confirmed
  mempool : ∀ k o, db.mempoolOutpointMap.lookup k = some o ↔ o ∈ v.mempool ∧ o.outpoint = k
  listed : ∀ script k o, bucketLookup db.mempoolScriptpubkeyToOutput script k = some o ↔
    o ∈ v.listed ∧ o.outpoint = k ∧ o.scriptpubkey = script
  listed_subset : v.listed ⊆ v.mempool
  spent : db.mempoolSpentConfirmedOutpoints = v.spent

namespace Utxodb

variable {db : Utxodb} {v : UtxoView}

theorem Shows.empty : Utxodb.empty.Shows .empty where
  confirmed := .empty
  mempool k o := by simp [Utxodb.empty, UtxoView.empty]
  listed script k o := by
    simp [Utxodb.empty, UtxoView.empty, bucketLookup, Finmap.lookup_empty]
  listed_subset := Finset.Subset.refl _
  spent := rfl

theorem Shows.of_eq {w : UtxoView} (h : db.Shows v) (hvw : v = w) : db.Shows w := hvw ▸ h

/-- The height and the rollback lists are not part of the view. -/
theorem Shows.congr {db' : Utxodb} (h : db.Shows v) (hsame : SameConfirmed db db')
    (hm : db'.mempoolOutpointMap = db.mempoolOutpointMap)
    (hl : db'.mempoolScriptpubkeyToOutput = db.mempoolScriptpubkeyToOutput)
    (hs : db'.mempoolSpentConfirmedOutpoints = db.mempoolSpentConfirmedOutpoints) :
    db'.Shows v where
  confirmed := h.confirmed.congr hsame
  mempool := hm ▸ h.mempool
  listed := hl ▸ h.listed
  listed_subset := h.listed_subset
  spent := hs ▸ h.spent

/-- Looking up an outpoint of the mempool side. -/
theorem Shows.lookup_mempool_none (h : db.Shows v) {m : Outpoint}
    (hm : db.mempoolOutpointMap.lookup m = none) : ∀ o ∈ v.mempool, o.outpoint ≠ m := by
  intro o ho hom
  rw [(h.mempool m o).mpr ⟨ho, hom⟩] at hm
  simp at hm

theorem Shows.lookup_confirmed_none (h : db.Shows v) {m : Outpoint}
    (hm : db.outpointMap.lookup m = none) : ∀ o ∈ v.confirmed, o.outpoint ≠ m := by
  intro o ho hom
  rw [(h.confirmed.lookup_iff m o).mpr ⟨ho, hom⟩] at hm
  simp at hm

/-! ## Blocks -/

theorem bucketLookup_eraseInBucket (idx : HashMap Scriptpubkey OutpointMap)
    (script : Scriptpubkey) (m : Outpoint) (s : Scriptpubkey) (k : Outpoint) :
    bucketLookup (eraseInBucket idx script m) s k =
      if s = script ∧ k = m then none else bucketLookup idx s k := by
  unfold bucketLookup eraseInBucket
  cases hl : idx.lookup script with
  | none =>
      by_cases hs : s = script
      · subst hs
        simp [hl]
      · simp [hs]
  | some bucket =>
      simp only [HashMap.lookup_insert]
      by_cases hs : s = script
      · subst hs
        simp [hl, KeyedMap.lookup_erase]
      · simp [hs]

theorem Shows.addOutput (h : db.Shows v) {m : Output}
    (hconf : ∀ o ∈ v.confirmed, o.outpoint = m.outpoint → o = m)
    (hmem : ∀ o ∈ v.mempool, o.outpoint = m.outpoint → o = m) :
    (db.addOutput m).Shows
      { confirmed := insert m v.confirmed
        mempool := {o ∈ v.mempool | o.outpoint ≠ m.outpoint}
        listed := {o ∈ v.listed | o.outpoint ≠ m.outpoint}
        spent := v.spent.erase m.outpoint } := by
  have hoid := db.outpointMap.key_getD_lookup m
  refine ⟨h.confirmed.addOutput hconf, fun k o => ?_, fun script k o => ?_, ?_, ?_⟩
  · simp only [Utxodb.addOutput, KeyedMap.lookup_erase, Finset.mem_filter]
    split_ifs with hk
    · subst hk
      simp
    · rw [h.mempool]
      constructor
      · rintro ⟨ho, rfl⟩
        exact ⟨⟨ho, hk⟩, rfl⟩
      · rintro ⟨⟨ho, -⟩, hok⟩
        exact ⟨ho, hok⟩
  · simp only [Utxodb.addOutput, hoid, bucketLookup_eraseInBucket, Finset.mem_filter]
    split_ifs with hk
    · obtain ⟨-, rfl⟩ := hk
      constructor
      · simp
      · rintro ⟨⟨-, hne⟩, hok, -⟩
        exact absurd hok hne
    · rw [h.listed]
      constructor
      · rintro ⟨ho, rfl, rfl⟩
        refine ⟨⟨ho, fun hom => hk ⟨?_, hom⟩⟩, rfl, rfl⟩
        rw [hmem o (h.listed_subset ho) hom]
      · rintro ⟨⟨ho, -⟩, hok⟩
        exact ⟨ho, hok⟩
  · exact Finset.filter_subset_filter _ h.listed_subset
  · simp only [Utxodb.addOutput, hoid, h.spent]

theorem Shows.addOutputs (h : db.Shows v) (created : List Output)
    (hdet : OutpointsDetermine (v.outputs ∪ {o | o ∈ created})) :
    (created.foldl Utxodb.addOutput db).Shows
      { confirmed := v.confirmed ∪ created.toFinset
        mempool := {o ∈ v.mempool | o.outpoint ∉ created.map Output.outpoint}
        listed := {o ∈ v.listed | o.outpoint ∉ created.map Output.outpoint}
        spent := {k ∈ v.spent | k ∉ created.map Output.outpoint} } := by
  induction created generalizing db v with
  | nil => simpa using h
  | cons m created ih =>
      have hm : ∀ o ∈ v.outputs, o.outpoint = m.outpoint → o = m := fun o ho =>
        hdet o (.inl ho) m (.inr List.mem_cons_self)
      have hrec := ih (h.addOutput (fun o ho => hm o (.inl ho)) fun o ho => hm o (.inr ho))
        fun o ho p hp => hdet o ?_ p ?_
      · refine hrec.of_eq (UtxoView.ext ?_ ?_ ?_ ?_)
        · simp
        · simp [Finset.filter_filter]
        · simp [Finset.filter_filter]
        · ext k
          simp [and_assoc, and_left_comm]
      all_goals
        simp only [UtxoView.outputs, Finset.coe_insert, Finset.coe_filter, Set.mem_union,
          Set.mem_insert_iff, Finset.mem_coe, Set.mem_ofPred_eq, List.mem_cons] at *
        tauto

theorem Shows.spendConfirmed (h : db.Shows v) (m : Outpoint) :
    (db.spendConfirmed m).1.Shows
      { v with
        confirmed := {o ∈ v.confirmed | o.outpoint ≠ m}
        spent := {k ∈ v.spent | k = m → ∀ o ∈ v.confirmed, o.outpoint ≠ k} } := by
  have hconf := h.confirmed.spendConfirmed m
  unfold Utxodb.spendConfirmed at hconf ⊢
  cases hl : db.outpointMap.lookup m with
  | none =>
      have hnone := h.lookup_confirmed_none hl
      refine h.of_eq (UtxoView.ext ?_ rfl rfl ?_)
      · exact (Finset.filter_true_of_mem hnone).symm
      · exact (Finset.filter_true_of_mem fun k _ hk => hk ▸ hnone).symm
  | some o =>
      rw [hl] at hconf
      refine ⟨hconf, h.mempool, h.listed, h.listed_subset, ?_⟩
      have hk := KeyedMap.key_lookup hl
      have hbucket : o.scriptpubkey ∈ db.scriptpubkeyToOutput := by
        have hentry := (h.confirmed.inverse.entry o.scriptpubkey m o).mpr ⟨hl, rfl⟩
        obtain ⟨bucket, hb, -⟩ := Option.bind_eq_some_iff.mp hentry
        exact Finmap.mem_iff.mpr ⟨bucket, hb⟩
      have ho := ((h.confirmed.lookup_iff m o).mp hl).1
      simp only [if_pos hbucket, hk, h.spent]
      ext k
      rw [Finset.mem_erase, Finset.mem_filter]
      constructor
      · exact fun ⟨hkm, hks⟩ => ⟨hks, fun hc => absurd hc hkm⟩
      · rintro ⟨hks, hkm⟩
        refine ⟨?_, hks⟩
        rintro rfl
        exact hkm rfl o ho hk

/-- Erasing a mempool entry from its bucket. -/
theorem Shows.listed_eraseBucket (h : db.Shows v) {m : Outpoint} {p : Output}
    (hl : db.mempoolOutpointMap.lookup m = some p) (script : Scriptpubkey) (k : Outpoint)
    (o : Output) :
    bucketLookup (eraseBucket db.mempoolScriptpubkeyToOutput p.scriptpubkey p.outpoint) script k =
      some o ↔ o ∈ ({o ∈ v.listed | o.outpoint ≠ m} : Finset Output) ∧
        o.outpoint = k ∧ o.scriptpubkey = script := by
  rw [bucketLookup_eraseBucket, KeyedMap.key_lookup hl, Finset.mem_filter]
  split_ifs with hk
  · obtain ⟨-, rfl⟩ := hk
    constructor
    · simp
    · rintro ⟨⟨-, hne⟩, hok, -⟩
      exact absurd hok hne
  · rw [h.listed]
    constructor
    · rintro ⟨ho, rfl, rfl⟩
      refine ⟨⟨ho, fun hom => hk ⟨?_, hom⟩⟩, rfl, rfl⟩
      have hlookup := (h.mempool m o).mpr ⟨h.listed_subset ho, hom⟩
      rw [hl, Option.some.injEq] at hlookup
      rw [hlookup]
    · rintro ⟨⟨ho, -⟩, hok⟩
      exact ⟨ho, hok⟩

theorem Shows.spendMempool (h : db.Shows v) (m : Outpoint) :
    (db.spendMempool m).1.Shows
      { v with
        mempool := {o ∈ v.mempool | o.outpoint ≠ m}
        listed := {o ∈ v.listed | o.outpoint ≠ m} } := by
  unfold Utxodb.spendMempool
  cases hl : db.mempoolOutpointMap.lookup m with
  | none =>
      have hnone := h.lookup_mempool_none hl
      refine h.of_eq (UtxoView.ext rfl ?_ ?_ rfl)
      · exact (Finset.filter_true_of_mem hnone).symm
      · exact (Finset.filter_true_of_mem fun o ho => hnone o (h.listed_subset ho)).symm
  | some p =>
      refine ⟨h.confirmed.congr ⟨rfl, rfl⟩, fun k o => ?_, h.listed_eraseBucket hl, ?_, h.spent⟩
      · simp only [KeyedMap.lookup_erase, Finset.mem_filter]
        split_ifs with hk
        · subst hk
          simp
        · rw [h.mempool]
          constructor
          · rintro ⟨ho, rfl⟩
            exact ⟨⟨ho, hk⟩, rfl⟩
          · rintro ⟨⟨ho, -⟩, hok⟩
            exact ⟨ho, hok⟩
      · exact Finset.filter_subset_filter _ h.listed_subset

/-- The inputs of a block, one after the other. -/
theorem Shows.spendUtxos (h : db.Shows v) (inputs : List Outpoint) :
    (inputs.foldl spendUtxo db).Shows
      { confirmed := {o ∈ v.confirmed | o.outpoint ∉ inputs}
        mempool := {o ∈ v.mempool | o.outpoint ∉ inputs}
        listed := {o ∈ v.listed | o.outpoint ∉ inputs}
        spent := {k ∈ v.spent | k ∈ inputs → ∀ o ∈ v.confirmed, o.outpoint ≠ k} } := by
  induction inputs generalizing db v with
  | nil => simpa using h
  | cons m inputs ih =>
      refine (ih ((h.spendConfirmed m).spendMempool m)).of_eq (UtxoView.ext ?_ ?_ ?_ ?_)
      · simp [Finset.filter_filter]
      · simp [Finset.filter_filter]
      · simp [Finset.filter_filter]
      · ext k
        simp only [Finset.mem_filter, List.mem_cons, and_assoc]
        refine and_congr_right fun _ => ⟨fun ⟨hm, hk⟩ hor o ho hok => ?_, fun hk => ⟨fun hkm => ?_,
          fun hmem o ho => hk (.inr hmem) o ho.1⟩⟩
        · by_cases hkm : k = m
          · exact hm hkm o ho hok
          · exact hk (hor.resolve_left hkm) o ⟨ho, fun hom => hkm (hok.symm.trans hom)⟩ hok
        · exact hk (.inl hkm)

/-- The outputs of a block. -/
theorem Shows.blockOutputs (h : db.Shows v) (txs : List Transaction)
    (hdet : OutpointsDetermine (v.outputs ∪ {o | ∃ tx ∈ txs, o ∈ tx.outputs})) :
    ((txs.flatMap spendable).foldl Utxodb.addOutput
      { db with currentBlockHeight := db.currentBlockHeight + 1 }).Shows
      { confirmed := v.confirmed ∪ (txs.flatMap spendable).toFinset
        mempool := {o ∈ v.mempool | o.outpoint ∉ (txs.flatMap spendable).map Output.outpoint}
        listed := {o ∈ v.listed | o.outpoint ∉ (txs.flatMap spendable).map Output.outpoint}
        spent := {k ∈ v.spent | k ∉ (txs.flatMap spendable).map Output.outpoint} } := by
  have hheight : Shows { db with currentBlockHeight := db.currentBlockHeight + 1 } v :=
    h.congr ⟨rfl, rfl⟩ rfl rfl rfl
  refine hheight.addOutputs (txs.flatMap spendable) fun o ho p hp =>
    hdet o (ho.imp_right ?_) p (hp.imp_right ?_)
  all_goals
    intro hmem
    obtain ⟨tx, htx, hmem⟩ := List.mem_flatMap.mp hmem
    exact ⟨tx, htx, mem_spendable hmem⟩

theorem Shows.blockUtxodb (h : db.Shows v) (txs : List Transaction)
    (hdet : OutpointsDetermine (v.outputs ∪ {o | ∃ tx ∈ txs, o ∈ tx.outputs})) :
    (blockUtxodb db txs).Shows (v.block txs) := by
  have hadd := h.blockOutputs txs hdet
  refine (hadd.spendUtxos (txs.flatMap Transaction.inputs)).of_eq (UtxoView.ext rfl ?_ ?_ ?_)
  · exact Finset.filter_filter _ _ _
  · exact Finset.filter_filter _ _ _
  · ext k
    simp only [UtxoView.block, Finset.mem_filter, and_assoc]
    refine and_congr_right fun _ => and_congr_right fun hk => imp_congr_right fun _ => ?_
    constructor
    · exact fun hall o ho => hall o (Finset.mem_union_left _ ho)
    · intro hall o ho hok
      rcases Finset.mem_union.mp ho with ho | ho
      · exact hall o ho hok
      · exact hk (hok ▸ List.mem_map_of_mem (List.mem_toFinset.mp ho))

/-! ## Mempool transactions -/

theorem Shows.addMempoolOutput (h : db.Shows v) {m : Output}
    (hmem : ∀ o ∈ v.mempool, o.outpoint = m.outpoint → o = m) :
    (db.addMempoolOutput m).Shows
      { v with
        mempool := insert m v.mempool
        listed := insert m v.listed } := by
  have hoid : (db.mempoolOutpointMap.lookup m.outpoint).getD m = m := by
    cases hl : db.mempoolOutpointMap.lookup m.outpoint with
    | none => rfl
    | some p => exact hmem p ((h.mempool _ _).mp hl).1 ((h.mempool _ _).mp hl).2
  refine ⟨h.confirmed.congr ⟨rfl, rfl⟩, fun k o => ?_, fun script k o => ?_, ?_, h.spent⟩
  · simp only [Utxodb.addMempoolOutput, KeyedMap.lookup_emplace, Finset.mem_insert]
    split_ifs with hk
    · subst hk
      rw [hoid, Option.some.injEq]
      constructor
      · rintro rfl
        exact ⟨.inl rfl, rfl⟩
      · rintro ⟨rfl | ho, hom⟩
        · rfl
        · exact (hmem o ho hom).symm
    · rw [h.mempool]
      constructor
      · exact fun ho => ⟨.inr ho.1, ho.2⟩
      · rintro ⟨rfl | ho, hom⟩
        · exact absurd hom.symm hk
        · exact ⟨ho, hom⟩
  · simp only [Utxodb.addMempoolOutput, hoid, bucketLookup_insertBucket, Finset.mem_insert]
    split_ifs with hk
    · obtain ⟨rfl, rfl⟩ := hk
      have hbucket : (bucketLookup db.mempoolScriptpubkeyToOutput m.scriptpubkey
          m.outpoint).getD m = m := by
        cases hb : bucketLookup db.mempoolScriptpubkeyToOutput m.scriptpubkey m.outpoint with
        | none => rfl
        | some p =>
            obtain ⟨hp, hpm, -⟩ := (h.listed _ _ _).mp hb
            exact hmem p (h.listed_subset hp) hpm
      rw [hbucket, Option.some.injEq]
      constructor
      · rintro rfl
        exact ⟨.inl rfl, rfl, rfl⟩
      · rintro ⟨rfl | ho, hom, -⟩
        · rfl
        · exact (hmem o (h.listed_subset ho) hom).symm
    · rw [h.listed]
      constructor
      · exact fun ho => ⟨.inr ho.1, ho.2⟩
      · rintro ⟨rfl | ho, rfl, rfl⟩
        · exact absurd ⟨rfl, rfl⟩ hk
        · exact ⟨ho, rfl, rfl⟩
  · exact Finset.insert_subset_insert m h.listed_subset

theorem Shows.addMempoolOutputs (h : db.Shows v) (created : List Output)
    (hdet : OutpointsDetermine (↑v.mempool ∪ {o | o ∈ created})) :
    (created.foldl Utxodb.addMempoolOutput db).Shows
      { v with
        mempool := v.mempool ∪ created.toFinset
        listed := v.listed ∪ created.toFinset } := by
  induction created generalizing db v with
  | nil => simpa using h
  | cons m created ih =>
      have hrec := ih (h.addMempoolOutput fun o ho =>
        hdet o (.inl ho) m (.inr List.mem_cons_self)) fun o ho p hp => hdet o ?_ p ?_
      · exact hrec.of_eq (UtxoView.ext rfl (by simp) (by simp) rfl)
      all_goals
        simp only [Finset.coe_insert, Set.mem_union, Set.mem_insert_iff, Finset.mem_coe,
          Set.mem_ofPred_eq, List.mem_cons] at *
        tauto

theorem Shows.spendByMempool (h : db.Shows v) (m : Outpoint) :
    (db.spendByMempool m).Shows
      { v with
        listed := {o ∈ v.listed | o.outpoint ≠ m}
        spent := v.spent ∪ {k ∈ ({m} : Finset Outpoint) | ∀ o ∈ v.mempool, o.outpoint ≠ k} } := by
  unfold Utxodb.spendByMempool
  cases hl : db.mempoolOutpointMap.lookup m with
  | none =>
      have hnone := h.lookup_mempool_none hl
      have hlisted : {o ∈ v.listed | o.outpoint ≠ m} = v.listed :=
        Finset.filter_true_of_mem fun o ho => hnone o (h.listed_subset ho)
      have hspent : ({k ∈ {m} | ∀ o ∈ v.mempool, o.outpoint ≠ k} : Finset Outpoint) = {m} :=
        Finset.filter_true_of_mem fun k hk => Finset.mem_singleton.mp hk ▸ hnone
      rw [hlisted, hspent]
      refine ⟨h.confirmed.congr ⟨rfl, rfl⟩, h.mempool, h.listed, h.listed_subset, ?_⟩
      rw [h.spent, Finset.union_comm, Finset.insert_eq]
  | some p =>
      have hp := KeyedMap.key_lookup hl
      have hspent : ({k ∈ {m} | ∀ o ∈ v.mempool, o.outpoint ≠ k} : Finset Outpoint) = ∅ := by
        refine Finset.filter_false_of_mem fun k hk hall => ?_
        exact hall p ((h.mempool m p).mp hl).1 (hp.trans (Finset.mem_singleton.mp hk).symm)
      rw [hspent, Finset.union_empty]
      exact ⟨h.confirmed.congr ⟨rfl, rfl⟩, h.mempool, h.listed_eraseBucket hl,
        (Finset.filter_subset _ _).trans h.listed_subset, h.spent⟩

theorem Shows.spendsByMempool (h : db.Shows v) (inputs : List Outpoint) :
    (inputs.foldl Utxodb.spendByMempool db).Shows
      { v with
        listed := {o ∈ v.listed | o.outpoint ∉ inputs}
        spent := v.spent ∪ {k ∈ inputs.toFinset | ∀ o ∈ v.mempool, o.outpoint ≠ k} } := by
  induction inputs generalizing db v with
  | nil => simpa using h
  | cons m inputs ih =>
      refine (ih (h.spendByMempool m)).of_eq (UtxoView.ext rfl rfl ?_ ?_)
      · simp [Finset.filter_filter]
      · ext k
        simp only [Finset.mem_union, Finset.mem_filter, Finset.mem_singleton, List.mem_toFinset,
          List.mem_cons]
        tauto

/-! ## Runs -/

/-- A step of the store is a step of the view. -/
theorem Shows.step {b b' : Bch} (h : b.utxodb.Shows v) {e : BchEvent}
    (hdet : OutpointsDetermine (v.outputs ∪ {o | ∃ tx ∈ e.txs, o ∈ tx.outputs}))
    (hstep : b.step e = .ok b') : b'.utxodb.Shows (v.step e) := by
  cases e with
  | block txs saveRollback =>
      obtain ⟨added, removed, hdb⟩ := utxodb_of_processBlock hstep
      have hblock := h.blockUtxodb txs hdet
      rw [hdb]
      split_ifs
      · exact hblock.congr ⟨rfl, rfl⟩ rfl rfl rfl
      · exact hblock
  | mempoolTx tx =>
      rw [utxodb_of_processMempoolTx hstep]
      refine ((h.addMempoolOutputs (spendable tx) fun o ho p hp => hdet o ?_ p ?_).spendsByMempool
        tx.inputs).of_eq rfl
      · exact ho.imp .inr fun ho => ⟨tx, List.mem_singleton.mpr rfl, mem_spendable ho⟩
      · exact hp.imp .inr fun hp => ⟨tx, List.mem_singleton.mpr rfl, mem_spendable hp⟩

/-- A step adds nothing to the view but spendable token outputs. -/
theorem step_spendable {e : BchEvent} {o : Output} (ho : o ∈ (v.step e).outputs) :
    o ∈ v.outputs ∨ ∃ tx ∈ e.txs, o ∈ spendable tx := by
  cases e with
  | block txs saveRollback =>
      rcases ho with ho | ho
      · rcases confirmBlock_cases ho with hold | ⟨tx, htx, hnew, -⟩
        · exact .inl (.inl hold)
        · exact .inr ⟨tx, htx, hnew⟩
      · exact .inl (.inr (Finset.mem_filter.mp ho).1)
  | mempoolTx tx =>
      rcases ho with ho | ho
      · exact .inl (.inl ho)
      · rcases Finset.mem_union.mp ho with ho | ho
        · exact .inl (.inr ho)
        · exact .inr ⟨tx, List.mem_singleton.mpr rfl, List.mem_toFinset.mp ho⟩

theorem step_outputs {e : BchEvent} {o : Output} (ho : o ∈ (v.step e).outputs) :
    o ∈ v.outputs ∨ ∃ tx ∈ e.txs, o ∈ tx.outputs :=
  (step_spendable ho).imp_right fun ⟨tx, htx, ho⟩ => ⟨tx, htx, mem_spendable ho⟩

theorem run_spendable {events : List BchEvent} {o : Output}
    (ho : o ∈ (events.foldl UtxoView.step v).outputs) :
    o ∈ v.outputs ∨ ∃ e ∈ events, ∃ tx ∈ e.txs, o ∈ spendable tx := by
  induction events generalizing v with
  | nil => exact .inl ho
  | cons e events ih =>
      rcases ih ho with ho | ⟨e', he', h⟩
      · exact (step_spendable ho).imp_right fun h => ⟨e, List.mem_cons_self, h⟩
      · exact .inr ⟨e', List.mem_cons_of_mem _ he', h⟩

/-- A step within transactions `all` that tell their outputs apart. -/
theorem Shows.step_within {all : List Transaction} (hhyd : ∀ tx ∈ all, tx.Hydrated)
    (hdet : TxidsDetermine all) {b b' : Bch} (h : b.utxodb.Shows v)
    (hv : v.outputs ⊆ {o | ∃ tx ∈ all, o ∈ tx.outputs}) {e : BchEvent}
    (he : ∀ tx ∈ e.txs, tx ∈ all) (hstep : b.step e = .ok b') :
    OutpointsDetermine (v.outputs ∪ {o | ∃ tx ∈ e.txs, o ∈ tx.outputs}) ∧
      b'.utxodb.Shows (v.step e) ∧ (v.step e).outputs ⊆ {o | ∃ tx ∈ all, o ∈ tx.outputs} := by
  have hnew : {o | ∃ tx ∈ e.txs, o ∈ tx.outputs} ⊆ {o | ∃ tx ∈ all, o ∈ tx.outputs} :=
    fun o ⟨tx, htx, ho⟩ => ⟨tx, he tx htx, ho⟩
  have hout := outpointsDetermine_within hhyd hdet hv he
  exact ⟨hout, h.step hout hstep, fun o ho => (step_outputs ho).elim (hv ·) (hnew ·)⟩

/-- A run that gets through is a run of the view. -/
theorem Shows.of_run {all : List Transaction} (hhyd : ∀ tx ∈ all, tx.Hydrated)
    (hdet : TxidsDetermine all) {events : List BchEvent}
    (hall : ∀ e ∈ events, ∀ tx ∈ e.txs, tx ∈ all) {b b' : Bch} (h : b.utxodb.Shows v)
    (hv : v.outputs ⊆ {o | ∃ tx ∈ all, o ∈ tx.outputs}) (hrun : events.foldlM Bch.step b = .ok b') :
    b'.utxodb.Shows (events.foldl UtxoView.step v) ∧
      (events.foldl UtxoView.step v).outputs ⊆ {o | ∃ tx ∈ all, o ∈ tx.outputs} := by
  induction events generalizing b v with
  | nil => exact Except.ok.inj hrun ▸ ⟨h, hv⟩
  | cons e events ih =>
      rw [List.foldlM_cons, bind_eq_ok] at hrun
      obtain ⟨b₁, hstep, hrun⟩ := hrun
      obtain ⟨-, h₁, hv₁⟩ := h.step_within hhyd hdet hv (hall e List.mem_cons_self) hstep
      exact ih (fun e' he' => hall e' (List.mem_cons_of_mem _ he')) h₁ hv₁ hrun

/-- A run of the store is a run of the view, within transactions `all` that tell their
outputs apart. -/
theorem Shows.run {all : List Transaction} (hing : ∀ tx ∈ all, Ingestible tx)
    (hdet : TxidsDetermine all) {events : List BchEvent}
    (hall : ∀ e ∈ events, ∀ tx ∈ e.txs, tx ∈ all) {b : Bch} (h : b.utxodb.Shows v)
    (hi : b.slpdb.Indexed) (hv : v.outputs ⊆ {o | ∃ tx ∈ all, o ∈ tx.outputs}) :
    ∃ b', events.foldlM Bch.step b = .ok b' ∧ b'.utxodb.Shows (events.foldl UtxoView.step v) ∧
      b'.slpdb.Indexed ∧
      (events.foldl UtxoView.step v).outputs ⊆ {o | ∃ tx ∈ all, o ∈ tx.outputs} := by
  induction events generalizing b v with
  | nil => exact ⟨b, rfl, h, hi, hv⟩
  | cons e events ih =>
      have he : ∀ tx ∈ e.txs, tx ∈ all := hall e List.mem_cons_self
      have hhyd : ∀ tx ∈ all, tx.Hydrated := fun tx htx => (hing tx htx).hydrated
      obtain ⟨b₁, hstep, -, hi₁⟩ := h.confirmed.step hi (fun tx htx => hing tx (he tx htx))
        (hdet.mono he)
        (outpointsDetermine_within hhyd hdet (fun o ho => hv (.inl ho)) he)
      obtain ⟨-, h₁, hv₁⟩ := h.step_within hhyd hdet hv he hstep
      obtain ⟨b', hrun, h'⟩ := ih (fun e' he' => hall e' (List.mem_cons_of_mem _ he')) h₁ hi₁ hv₁
      refine ⟨b', ?_, h'⟩
      rw [List.foldlM_cons, hstep]
      exact hrun

/-- Every run from an empty store is a run of the empty view. -/
theorem Shows.run_empty {events : List BchEvent} (hing : ∀ e ∈ events, ∀ tx ∈ e.txs, Ingestible tx)
    (hdet : TxidsDetermine (events.flatMap BchEvent.txs)) :
    ∃ b, events.foldlM Bch.step .empty = .ok b ∧
      b.utxodb.Shows (events.foldl UtxoView.step .empty) := by
  have hing' : ∀ tx ∈ events.flatMap BchEvent.txs, Ingestible tx := fun tx htx => by
    obtain ⟨e, he, htx⟩ := List.mem_flatMap.mp htx
    exact hing e he tx htx
  obtain ⟨b, hrun, hb, -⟩ := Shows.run (b := .empty) (v := .empty) hing' hdet
    (fun e he tx htx => List.mem_flatMap.mpr ⟨e, he, htx⟩) .empty Slpdb.Indexed.empty
    (by simp [UtxoView.outputs, UtxoView.empty])
  exact ⟨b, hrun, hb⟩

/-! ## Queries -/

/-- The limit is not met yet, so it stops the loop. -/
theorem pushUpTo_take {limit : ℕ} {ret us : List Output} (h : ret.length < limit) :
    pushUpTo limit ret us = ret ++ us.take (limit - ret.length) := by
  induction us generalizing ret with
  | nil => simp [pushUpTo]
  | cons u us ih =>
    rw [pushUpTo, List.length_append, List.length_singleton]
    obtain ⟨room, hroom⟩ := Nat.exists_eq_add_of_lt h
    by_cases hlimit : ret.length + 1 = limit
    · have hone : limit - ret.length = 1 := by omega
      rw [if_pos hlimit, hone]
      rfl
    · have hmore : limit - ret.length = limit - (ret ++ [u]).length + 1 := by
        rw [List.length_append, List.length_singleton]
        omega
      rw [if_neg hlimit, ih (by rw [List.length_append, List.length_singleton]; omega), hmore,
        List.take_succ_cons, List.append_assoc]
      rfl

/-- The limit is behind, so nothing stops the loop. -/
theorem pushUpTo_past {limit : ℕ} {ret us : List Output} (h : limit ≤ ret.length) :
    pushUpTo limit ret us = ret ++ us := by
  induction us generalizing ret with
  | nil => simp [pushUpTo]
  | cons u us ih =>
    rw [pushUpTo, List.length_append, List.length_singleton, if_neg (by omega),
      ih (by rw [List.length_append]; omega), List.append_assoc]
    rfl

theorem mem_pushUpTo {limit : ℕ} {ret us : List Output} {o : Output}
    (h : o ∈ pushUpTo limit ret us) : o ∈ ret ∨ o ∈ us := by
  cases Nat.lt_or_ge ret.length limit with
  | inl hroom =>
      rw [pushUpTo_take hroom, List.mem_append] at h
      exact h.imp_right List.mem_of_mem_take
  | inr hpast =>
      rw [pushUpTo_past hpast, List.mem_append] at h
      exact h

theorem mem_pushUpTo_of_ret {limit : ℕ} {ret us : List Output} {o : Output} (h : o ∈ ret) :
    o ∈ pushUpTo limit ret us := by
  cases Nat.lt_or_ge ret.length limit with
  | inl hroom =>
      rw [pushUpTo_take hroom]
      exact List.mem_append_left _ h
  | inr hpast =>
      rw [pushUpTo_past hpast]
      exact List.mem_append_left _ h

/-- A list that fits is pushed whole. -/
theorem pushUpTo_eq {limit : ℕ} {ret us : List Output} (h : ret.length + us.length ≤ limit) :
    pushUpTo limit ret us = ret ++ us := by
  cases Nat.lt_or_ge ret.length limit with
  | inl hroom => rw [pushUpTo_take hroom, List.take_of_length_le (by omega)]
  | inr hpast => exact pushUpTo_past hpast

theorem Shows.outputByOutpoint (h : db.Shows v) {k : Outpoint} {o : Output} :
    db.outputByOutpoint k = some o ↔ o.outpoint = k ∧
      (o ∈ v.confirmed ∧ o.outpoint ∉ v.spent ∨
        o ∈ v.mempool ∧ ∀ p ∈ v.confirmed, p.outpoint ≠ o.outpoint) := by
  unfold Utxodb.outputByOutpoint
  rw [h.spent]
  cases hl : db.outpointMap.lookup k with
  | none =>
      have hnone := h.lookup_confirmed_none hl
      simp only [h.mempool]
      constructor
      · rintro ⟨ho, rfl⟩
        exact ⟨rfl, .inr ⟨ho, hnone⟩⟩
      · rintro ⟨rfl, ⟨ho, -⟩ | ⟨ho, -⟩⟩
        · exact absurd rfl (hnone o ho)
        · exact ⟨ho, rfl⟩
  | some p =>
      obtain ⟨hp, rfl⟩ := (h.confirmed.lookup_iff k p).mp hl
      simp only [Option.ite_none_right_eq_some, Option.some.injEq]
      constructor
      · rintro ⟨hspent, rfl⟩
        exact ⟨rfl, .inl ⟨hp, hspent⟩⟩
      · rintro ⟨hop, ⟨ho, hspent⟩ | ⟨-, hnone⟩⟩
        · have hlo := (h.confirmed.lookup_iff p.outpoint o).mpr ⟨ho, hop⟩
          rw [hl, Option.some.injEq] at hlo
          exact ⟨hop ▸ hspent, hlo⟩
        · exact absurd hop.symm (hnone p hp)

/-- By outpoint, the store reports confirmed outputs that are not noted as spent, and
mempool outputs that are not confirmed. -/
theorem Shows.mem_getOutputsByOutpoints (h : db.Shows v) {ks : List Outpoint} {o : Output} :
    o ∈ db.getOutputsByOutpoints ks ↔ o.outpoint ∈ ks ∧
      (o ∈ v.confirmed ∧ o.outpoint ∉ v.spent ∨
        o ∈ v.mempool ∧ ∀ p ∈ v.confirmed, p.outpoint ≠ o.outpoint) := by
  simp only [getOutputsByOutpoints, List.mem_filterMap, h.outputByOutpoint]
  constructor
  · rintro ⟨k, hk, rfl, ho⟩
    exact ⟨hk, ho⟩
  · rintro ⟨hk, ho⟩
    exact ⟨_, hk, rfl, ho⟩

theorem mem_bucketOutputs {idx : HashMap Scriptpubkey OutpointMap}
    {order : KeyedOrder Output.outpoint} {script : Scriptpubkey} {o : Output} :
    o ∈ bucketOutputs idx order script ↔ bucketLookup idx script o.outpoint = some o := by
  unfold bucketOutputs bucketLookup
  cases idx.lookup script with
  | none => simp
  | some bucket => exact order.mem_list

theorem nodup_bucketOutputs (idx : HashMap Scriptpubkey OutpointMap)
    (order : KeyedOrder Output.outpoint) (script : Scriptpubkey) :
    (bucketOutputs idx order script).Nodup := by
  unfold bucketOutputs
  cases idx.lookup script with
  | none => exact List.nodup_nil
  | some bucket => exact order.nodup bucket

/-- The balance of a script counts its confirmed outputs that are not noted as spent,
and its mempool outputs that are still listed. -/
theorem Shows.mem_countedOutputs (h : db.Shows v) {order : KeyedOrder Output.outpoint}
    {script : Scriptpubkey} {o : Output} :
    o ∈ db.countedOutputs order script ↔ o.scriptpubkey = script ∧
      (o ∈ v.confirmed ∧ o.outpoint ∉ v.spent ∨ o ∈ v.listed) := by
  simp only [countedOutputs, List.mem_append, List.mem_filter, mem_bucketOutputs, h.spent,
    h.confirmed.inverse.entry, h.confirmed.lookup_iff, h.listed, decide_eq_true_eq, and_true,
    true_and]
  constructor
  · rintro (⟨⟨ho, hs⟩, hspent⟩ | ⟨ho, hs⟩)
    · exact ⟨hs, .inl ⟨ho, hspent⟩⟩
    · exact ⟨hs, .inr ho⟩
  · rintro ⟨hs, ⟨ho, hspent⟩ | ho⟩
    · exact .inl ⟨⟨ho, hs⟩, hspent⟩
    · exact .inr ⟨ho, hs⟩

/-- The outputs of the two buckets of a script, as far as the limit lets them through. -/
theorem getOutputsByScriptpubkey_cases (db : Utxodb) (order : KeyedOrder Output.outpoint)
    (script : Scriptpubkey) (limit : ℕ) :
    db.getOutputsByScriptpubkey order script limit =
      let ret := pushUpTo limit [] ((bucketOutputs db.scriptpubkeyToOutput order script).filter
        fun u => u.outpoint ∉ db.mempoolSpentConfirmedOutpoints)
      if ret.length < limit then
        pushUpTo limit ret (bucketOutputs db.mempoolScriptpubkeyToOutput order script)
      else ret := by
  unfold getOutputsByScriptpubkey bucketOutputs
  cases db.scriptpubkeyToOutput.lookup script <;>
    cases db.mempoolScriptpubkeyToOutput.lookup script <;> rfl

/-- Without a limit in the way, a script lists what its balance counts. -/
theorem getOutputsByScriptpubkey_eq {db : Utxodb} {order : KeyedOrder Output.outpoint}
    {script : Scriptpubkey} {limit : ℕ} (h : (db.countedOutputs order script).length ≤ limit) :
    db.getOutputsByScriptpubkey order script limit = db.countedOutputs order script := by
  rw [countedOutputs, List.length_append] at h
  rw [getOutputsByScriptpubkey_cases, countedOutputs]
  simp only
  rw [pushUpTo_eq (by simp only [List.length_nil]; omega), List.nil_append]
  split_ifs with hlt
  · exact pushUpTo_eq h
  · have hnil : bucketOutputs db.mempoolScriptpubkeyToOutput order script = [] :=
      List.length_eq_zero_iff.mp (by omega)
    rw [hnil, List.append_nil]

/-- Whatever a script lists, its balance counts. -/
theorem countedOutputs_of_mem {db : Utxodb} {order : KeyedOrder Output.outpoint}
    {script : Scriptpubkey} {limit : ℕ} {o : Output}
    (h : o ∈ db.getOutputsByScriptpubkey order script limit) :
    o ∈ db.countedOutputs order script := by
  rw [getOutputsByScriptpubkey_cases] at h
  rw [countedOutputs, List.mem_append]
  simp only at h
  have hret : ∀ {us : List Output}, o ∈ pushUpTo limit [] us → o ∈ us := fun ho =>
    (mem_pushUpTo ho).resolve_left List.not_mem_nil
  split_ifs at h
  · exact (mem_pushUpTo h).imp_left hret
  · exact .inl (hret h)

theorem balance_eq_sum (db : Utxodb) (order : KeyedOrder Output.outpoint)
    (script : Scriptpubkey) : db.getBalanceByScriptpubkey order script =
      ((db.countedOutputs order script).map Output.value).sum := by
  have hfold : ∀ (us : List Output) (ret : UInt64),
      us.foldl (fun ret u => ret + u.value) ret = ret + (us.map Output.value).sum := by
    intro us
    induction us with
    | nil => simp
    | cons u us ih =>
        intro ret
        rw [List.foldl_cons, ih, List.map_cons, List.sum_cons, add_assoc]
  rw [getBalanceByScriptpubkey, hfold, zero_add]

end Utxodb
end SlpGraphSearch
