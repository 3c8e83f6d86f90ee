import SlpGraphSearch.Bch
import SlpGraphSearch.Library.Run
import SlpGraphSearch.TokenOutputs

/-!
# The confirmed output index

The two confirmed maps of `utxodb` against a fold over blocks: a block adds the
spendable token outputs of its transactions and then removes whatever its inputs
spend. The address index is the inverse of the outpoint map throughout, and
mempool transactions touch neither.
-/
namespace SlpGraphSearch
open Library Transaction

/-! ## Buckets -/

/-- The entry of an outpoint in the bucket of a script. -/
def bucketLookup (idx : HashMap Scriptpubkey OutpointMap) (script : Scriptpubkey) (k : Outpoint) :
    Option Output :=
  (idx.lookup script).bind fun bucket => bucket.lookup k

theorem bucketLookup_insertBucket (idx : HashMap Scriptpubkey OutpointMap)
    (script : Scriptpubkey) (o : Output) (s : Scriptpubkey) (k : Outpoint) :
    bucketLookup (insertBucket idx script o) s k =
      if s = script ∧ k = o.outpoint then some ((bucketLookup idx script k).getD o)
      else bucketLookup idx s k := by
  unfold bucketLookup insertBucket
  cases hl : idx.lookup script with
  | none =>
      simp only [HashMap.lookup_insert]
      by_cases hs : s = script
      · subst hs
        simp [hl, KeyedMap.lookup_emplace]
      · simp [hs]
  | some bucket =>
      simp only [HashMap.lookup_insert]
      by_cases hs : s = script
      · subst hs
        simp [hl, KeyedMap.lookup_emplace]
      · simp [hs]

theorem bucketLookup_eraseBucket (idx : HashMap Scriptpubkey OutpointMap)
    (script : Scriptpubkey) (o : Outpoint) (s : Scriptpubkey) (k : Outpoint) :
    bucketLookup (eraseBucket idx script o) s k =
      if s = script ∧ k = o then none else bucketLookup idx s k := by
  unfold bucketLookup eraseBucket
  cases hl : idx.lookup script with
  | none =>
      by_cases hs : s = script
      · subst hs
        simp [hl]
      · simp [hs]
  | some bucket =>
      by_cases hs : s = script
      · subst hs
        simp only
        split_ifs with hempty hk hk
        · rw [HashMap.lookup_erase, if_pos rfl]
          rfl
        · have hnone := KeyedMap.isEmpty_iff.mp hempty k
          rw [KeyedMap.lookup_erase, if_neg fun h => hk ⟨trivial, h⟩] at hnone
          rw [HashMap.lookup_erase, if_pos rfl, hl, Option.bind_some, hnone]
          rfl
        · rw [HashMap.lookup_insert, if_pos rfl, Option.bind_some, KeyedMap.lookup_erase,
            if_pos hk.2]
        · rw [HashMap.lookup_insert, if_pos rfl, hl, Option.bind_some, Option.bind_some,
            KeyedMap.lookup_erase, if_neg fun h => hk ⟨trivial, h⟩]
      · rw [if_neg fun h => hs h.1]
        simp only
        split_ifs with hempty
        · rw [HashMap.lookup_erase, if_neg hs]
        · rw [HashMap.lookup_insert, if_neg hs]

/-- Every bucket holds something. -/
def NoEmptyBucket (idx : HashMap Scriptpubkey OutpointMap) : Prop :=
  ∀ script bucket, idx.lookup script = some bucket → bucket.isEmpty = false

theorem NoEmptyBucket.insertBucket {idx : HashMap Scriptpubkey OutpointMap}
    (h : NoEmptyBucket idx) (script : Scriptpubkey) (o : Output) :
    NoEmptyBucket (insertBucket idx script o) := by
  have hmem : ∀ bucket : OutpointMap, (bucket.emplace o).isEmpty = false := by
    intro bucket
    rw [← Bool.not_eq_true, KeyedMap.isEmpty_iff]
    intro hall
    exact KeyedMap.lookup_eq_none.mp (hall o.outpoint) (KeyedMap.mem_emplace.mpr (.inl rfl))
  intro s bucket hs
  unfold SlpGraphSearch.insertBucket at hs
  split at hs
  all_goals
    rw [HashMap.lookup_insert] at hs
    split_ifs at hs
    · exact Option.some.inj hs ▸ hmem _
    · exact h s bucket hs

theorem NoEmptyBucket.eraseBucket {idx : HashMap Scriptpubkey OutpointMap}
    (h : NoEmptyBucket idx) (script : Scriptpubkey) (o : Outpoint) :
    NoEmptyBucket (eraseBucket idx script o) := by
  intro s bucket hs
  unfold SlpGraphSearch.eraseBucket at hs
  split at hs
  · exact h s bucket hs
  · split_ifs at hs with hempty
    · rw [HashMap.lookup_erase] at hs
      split_ifs at hs
      exact h s bucket hs
    · rw [HashMap.lookup_insert] at hs
      split_ifs at hs
      · exact Option.some.inj hs ▸ Bool.eq_false_iff.mpr hempty
      · exact h s bucket hs

/-- The buckets are the inverse index of the map by script. -/
structure InverseIndex (m : OutpointMap) (idx : HashMap Scriptpubkey OutpointMap) : Prop where
  entry : ∀ script k o, bucketLookup idx script k = some o ↔
    m.lookup k = some o ∧ o.scriptpubkey = script
  noEmpty : NoEmptyBucket idx

theorem InverseIndex.emplace {m : OutpointMap} {idx : HashMap Scriptpubkey OutpointMap}
    (h : InverseIndex m idx) {o : Output}
    (ho : ∀ p, m.lookup o.outpoint = some p → p = o) :
    InverseIndex (m.emplace o)
      (insertBucket idx o.scriptpubkey ((m.lookup o.outpoint).getD o)) where
  entry := by
    have hget : (m.lookup o.outpoint).getD o = o := by
      cases hl : m.lookup o.outpoint with
      | none => rfl
      | some p => rw [Option.getD_some, ho p hl]
    intro script k p
    rw [hget, bucketLookup_insertBucket, KeyedMap.lookup_emplace]
    by_cases hk : k = o.outpoint
    · subst hk
      rw [if_pos rfl, hget]
      by_cases hs : script = o.scriptpubkey
      · subst hs
        have hbucket : (bucketLookup idx o.scriptpubkey o.outpoint).getD o = o := by
          cases hb : bucketLookup idx o.scriptpubkey o.outpoint with
          | none => rfl
          | some q => rw [Option.getD_some, ho q ((h.entry _ _ _).mp hb).1]
        rw [if_pos ⟨rfl, rfl⟩, hbucket]
        simp only [Option.some.injEq]
        constructor
        · rintro rfl
          exact ⟨rfl, rfl⟩
        · exact And.left
      · rw [if_neg fun hc => hs hc.1, h.entry]
        constructor
        · rintro ⟨hl, rfl⟩
          exact absurd (congrArg Output.scriptpubkey (ho p hl)) hs
        · rintro ⟨hp, rfl⟩
          exact absurd (congrArg Output.scriptpubkey (Option.some.inj hp)).symm hs
    · rw [if_neg hk, if_neg fun hc => hk hc.2, h.entry]
  noEmpty := h.noEmpty.insertBucket _ _

theorem InverseIndex.erase {m : OutpointMap} {idx : HashMap Scriptpubkey OutpointMap}
    (h : InverseIndex m idx) {k : Outpoint} {o : Output} (ho : m.lookup k = some o) :
    InverseIndex (m.erase k) (eraseBucket idx o.scriptpubkey o.outpoint) where
  entry := by
    have hk := KeyedMap.key_lookup ho
    intro script k' p
    rw [bucketLookup_eraseBucket, KeyedMap.lookup_erase, hk]
    by_cases hk' : k' = k
    · subst hk'
      rw [if_pos rfl]
      split_ifs with hs
      · simp
      · rw [h.entry, ho]
        constructor
        · rintro ⟨hp, rfl⟩
          exact absurd ⟨congrArg Output.scriptpubkey (Option.some.inj hp).symm, rfl⟩ hs
        · simp
    · rw [if_neg hk', if_neg fun hc => hk' hc.2, h.entry]
  noEmpty := h.noEmpty.eraseBucket _ _

/-! ## One block -/

/-- The confirmed maps hold exactly the outputs `S`. -/
structure ConfirmedAt (db : Utxodb) (S : Finset Output) : Prop where
  lookup_iff : ∀ k o, db.outpointMap.lookup k = some o ↔ o ∈ S ∧ o.outpoint = k
  inverse : InverseIndex db.outpointMap db.scriptpubkeyToOutput

/-- An outpoint determines its output. -/
def OutpointsDetermine (S : Set Output) : Prop :=
  ∀ o ∈ S, ∀ p ∈ S, o.outpoint = p.outpoint → o = p

theorem ConfirmedAt.empty : ConfirmedAt .empty ∅ where
  lookup_iff k o := by simp [Utxodb.empty]
  inverse :=
    { entry := fun script k o => by simp [Utxodb.empty, bucketLookup, Finmap.lookup_empty]
      noEmpty := fun script bucket h => by simp [Utxodb.empty, Finmap.lookup_empty] at h }

/-- The confirmed maps of two stores agree. -/
structure SameConfirmed (db db' : Utxodb) : Prop where
  outpointMap : db'.outpointMap = db.outpointMap
  scriptpubkeyToOutput : db'.scriptpubkeyToOutput = db.scriptpubkeyToOutput

theorem SameConfirmed.refl (db : Utxodb) : SameConfirmed db db := ⟨rfl, rfl⟩

theorem SameConfirmed.trans {db₁ db₂ db₃ : Utxodb} (h : SameConfirmed db₁ db₂)
    (h' : SameConfirmed db₂ db₃) : SameConfirmed db₁ db₃ :=
  ⟨h'.1.trans h.1, h'.2.trans h.2⟩

theorem SameConfirmed.foldl {α : Type} {f : Utxodb → α → Utxodb}
    (h : ∀ db a, SameConfirmed db (f db a)) (as : List α) (db : Utxodb) :
    SameConfirmed db (as.foldl f db) := by
  induction as generalizing db with
  | nil => exact .refl db
  | cons a as ih => exact (h db a).trans (ih (f db a))

theorem spendMempool_sameConfirmed (db : Utxodb) (m : Outpoint) :
    SameConfirmed db (db.spendMempool m).1 := by
  unfold Utxodb.spendMempool
  split <;> exact ⟨rfl, rfl⟩

theorem addMempoolOutput_sameConfirmed (db : Utxodb) (m : Output) :
    SameConfirmed db (db.addMempoolOutput m) := ⟨rfl, rfl⟩

theorem spendByMempool_sameConfirmed (db : Utxodb) (m : Outpoint) :
    SameConfirmed db (db.spendByMempool m) := by
  unfold Utxodb.spendByMempool
  split <;> exact ⟨rfl, rfl⟩

theorem ConfirmedAt.congr {db db' : Utxodb} {S : Finset Output} (h : ConfirmedAt db S)
    (hsame : SameConfirmed db db') : ConfirmedAt db' S where
  lookup_iff := hsame.outpointMap ▸ h.lookup_iff
  inverse := by
    rw [hsame.outpointMap, hsame.scriptpubkeyToOutput]
    exact h.inverse

theorem ConfirmedAt.addOutput {db : Utxodb} {S : Finset Output} (h : ConfirmedAt db S) {m : Output}
    (hm : ∀ o ∈ S, o.outpoint = m.outpoint → o = m) :
    ConfirmedAt (db.addOutput m) (insert m S) := by
  have hsame : ∀ p, db.outpointMap.lookup m.outpoint = some p → p = m := fun p hp =>
    hm p ((h.lookup_iff _ _).mp hp).1 ((h.lookup_iff _ _).mp hp).2
  refine ⟨fun k o => ?_, h.inverse.emplace hsame⟩
  simp only [Utxodb.addOutput, KeyedMap.lookup_emplace, Finset.mem_insert]
  split_ifs with hk
  · subst hk
    cases hl : db.outpointMap.lookup m.outpoint with
    | none =>
        have hnone : ∀ o ∈ S, o.outpoint ≠ m.outpoint := fun o ho hom => by
          rw [(h.lookup_iff _ _).mpr ⟨ho, hom⟩] at hl
          simp at hl
        simp only [Option.getD_none, Option.some.injEq]
        constructor
        · rintro rfl
          exact ⟨.inl rfl, rfl⟩
        · rintro ⟨rfl | ho, hom⟩
          · rfl
          · exact absurd hom (hnone o ho)
    | some p =>
        obtain rfl := hsame p hl
        simp only [Option.getD_some, Option.some.injEq]
        constructor
        · rintro rfl
          exact ⟨.inl rfl, rfl⟩
        · rintro ⟨rfl | ho, hom⟩
          · rfl
          · exact (hm o ho hom).symm
  · rw [h.lookup_iff]
    constructor
    · exact fun ho => ⟨.inr ho.1, ho.2⟩
    · rintro ⟨rfl | ho, hom⟩
      · exact absurd hom.symm hk
      · exact ⟨ho, hom⟩

theorem ConfirmedAt.addOutputs {db : Utxodb} {S : Finset Output} (h : ConfirmedAt db S)
    (created : List Output) (hdet : OutpointsDetermine (↑S ∪ {o | o ∈ created})) :
    ConfirmedAt (created.foldl Utxodb.addOutput db) (S ∪ created.toFinset) := by
  induction created generalizing db S with
  | nil => simpa using h
  | cons m created ih =>
      have hm : ∀ o ∈ S, o.outpoint = m.outpoint → o = m := fun o ho =>
        hdet o (.inl ho) m (.inr List.mem_cons_self)
      have hrec := ih (h.addOutput hm) fun o ho p hp => hdet o ?_ p ?_
      · rw [List.foldl_cons, List.toFinset_cons, Finset.union_insert, ← Finset.insert_union]
        exact hrec
      · simpa [or_assoc, or_left_comm] using ho
      · simpa [or_assoc, or_left_comm] using hp

theorem ConfirmedAt.spendConfirmed {db : Utxodb} {S : Finset Output} (h : ConfirmedAt db S)
    (m : Outpoint) : ConfirmedAt (db.spendConfirmed m).1 {o ∈ S | o.outpoint ≠ m} := by
  unfold Utxodb.spendConfirmed
  cases hl : db.outpointMap.lookup m with
  | none =>
      have hfilter : {o ∈ S | o.outpoint ≠ m} = S := by
        refine Finset.filter_true_of_mem fun o ho hom => ?_
        rw [(h.lookup_iff _ _).mpr ⟨ho, hom⟩] at hl
        simp at hl
      rw [hfilter]
      exact h
  | some o =>
      refine ⟨fun k p => ?_, h.inverse.erase hl⟩
      simp only [KeyedMap.lookup_erase, Finset.mem_filter]
      split_ifs with hk
      · subst hk
        simp
      · rw [h.lookup_iff]
        constructor
        · rintro ⟨hp, rfl⟩
          exact ⟨⟨hp, hk⟩, rfl⟩
        · rintro ⟨⟨hp, -⟩, hpk⟩
          exact ⟨hp, hpk⟩

/-- The output store's part of an input of a block. -/
def spendUtxo (db : Utxodb) (m : Outpoint) : Utxodb := ((db.spendConfirmed m).1.spendMempool m).1

/-- The inputs of a block never fail over a sound token index. -/
theorem spendInputs_ok {b : Bch} (hi : b.slpdb.Indexed) (inputs : List Outpoint)
    (removed : List Output) :
    ∃ b' removed', inputs.foldlM Bch.spendInput (b, removed) = .ok (b', removed') ∧
      b'.slpdb.Indexed := by
  induction inputs generalizing b removed with
  | nil => exact ⟨b, removed, rfl, hi⟩
  | cons m inputs ih =>
      obtain ⟨slpdb, hspend, hi₁⟩ := hi.spend m
      have hstep : Bch.spendInput (b, removed) m = .ok (⟨spendUtxo b.utxodb m, slpdb⟩,
          removed ++ (b.utxodb.spendConfirmed m).2 ++
            ((b.utxodb.spendConfirmed m).1.spendMempool m).2) := by
        simp only [Bch.spendInput, hspend, bind, Except.bind]
        rfl
      obtain ⟨b', removed', hrun, hi'⟩ := ih (b := ⟨spendUtxo b.utxodb m, slpdb⟩) hi₁ _
      refine ⟨b', removed', ?_, hi'⟩
      rw [List.foldlM_cons, hstep]
      exact hrun

/-- What an input of a block does, if it does not fail. -/
theorem spendInput_cases {b : Bch} {removed : List Output} {m : Outpoint} {acc : Bch × List Output}
    (h : Bch.spendInput (b, removed) m = .ok acc) :
    ∃ slpdb, b.slpdb.spend m = .ok slpdb ∧ acc = (⟨spendUtxo b.utxodb m, slpdb⟩,
      removed ++ (b.utxodb.spendConfirmed m).2 ++
        ((b.utxodb.spendConfirmed m).1.spendMempool m).2) := by
  simp only [Bch.spendInput, bind_eq_ok] at h
  obtain ⟨slpdb, hspend, h⟩ := h
  exact ⟨slpdb, hspend, (Except.ok.inj h).symm⟩

theorem utxodb_of_spendInputs {inputs : List Outpoint} {b b' : Bch} {removed removed' : List Output}
    (h : inputs.foldlM Bch.spendInput (b, removed) = .ok (b', removed')) :
    b'.utxodb = inputs.foldl spendUtxo b.utxodb := by
  induction inputs generalizing b removed with
  | nil =>
      rw [List.foldlM_nil] at h
      rw [(Prod.mk.inj (Except.ok.inj h)).1]
      rfl
  | cons m inputs ih =>
      rw [List.foldlM_cons, bind_eq_ok] at h
      obtain ⟨acc, hstep, h⟩ := h
      obtain ⟨slpdb, -, rfl⟩ := spendInput_cases hstep
      exact ih h

theorem ConfirmedAt.spendUtxos {db : Utxodb} {S : Finset Output} (h : ConfirmedAt db S)
    (inputs : List Outpoint) :
    ConfirmedAt (inputs.foldl spendUtxo db) {o ∈ S | o.outpoint ∉ inputs} := by
  induction inputs generalizing db S with
  | nil => simpa using h
  | cons m inputs ih =>
      have hsplit : {o ∈ S | o.outpoint ∉ m :: inputs} =
          {o ∈ {o ∈ S | o.outpoint ≠ m} | o.outpoint ∉ inputs} := by
        ext o
        simp [and_assoc]
      rw [List.foldl_cons, hsplit]
      exact ih ((h.spendConfirmed m).congr (spendMempool_sameConfirmed _ m))

/-! ## The fold over blocks -/

/-- The token outputs of a transaction that are not OP_RETURN outputs. -/
def spendable (tx : Transaction) : List Output :=
  match Bch.spendableOutputs tx with
  | .ok outputs => outputs
  | .error _ => []

/-- `S := (S + spendable outputs of the block) - inputs of the block`. -/
def confirmBlock (S : Finset Output) (txs : List Transaction) : Finset Output :=
  {o ∈ S ∪ (txs.flatMap spendable).toFinset | o.outpoint ∉ txs.flatMap Transaction.inputs}

theorem confirmBlock_cases {S : Finset Output} {txs : List Transaction} {o : Output}
    (ho : o ∈ confirmBlock S txs) :
    o ∈ S ∨ ∃ tx ∈ txs, o ∈ spendable tx ∧ o.outpoint ∉ txs.flatMap Transaction.inputs := by
  obtain ⟨ho, hspent⟩ := Finset.mem_filter.mp ho
  refine (Finset.mem_union.mp ho).imp_right fun ho => ?_
  obtain ⟨tx, htx, ho⟩ := List.mem_flatMap.mp (List.mem_toFinset.mp ho)
  exact ⟨tx, htx, ho, hspent⟩

/-- A decoded transaction in which `slp_outputs` stays inside the outputs. -/
structure Ingestible (tx : Transaction) : Prop where
  hydrated : tx.Hydrated
  outputs : tx.slp.type = .genesis ∨ tx.slp.type = .mint → 2 ≤ tx.outputs.length

theorem mem_spendable {tx : Transaction} {o : Output} (ho : o ∈ spendable tx) :
    o ∈ tx.outputs := by
  unfold spendable Bch.spendableOutputs at ho
  cases hos : tx.slpOutputs with
  | error e => simp [hos, bind, Except.bind] at ho
  | ok os =>
      simp only [hos, bind, Except.bind] at ho
      exact mem_slpOutputs hos (List.mem_filter.mp ho).1

theorem type_ne_invalid_of_spendable {tx : Transaction} {o : Output} (ho : o ∈ spendable tx) :
    tx.slp.type ≠ .invalid := by
  intro ht
  rw [SlpTransaction.type_eq_invalid] at ht
  simp [spendable, Bch.spendableOutputs, slpOutputs, ht, bind, Except.bind] at ho

theorem outpoint_txid_of_spendable {tx : Transaction} (h : tx.Hydrated) {o : Output}
    (ho : o ∈ spendable tx) : o.outpoint.txid = tx.txid := h.outpoint_txid (mem_spendable ho)

theorem spendable_eq {tx : Transaction} {os : List Output} (h : Bch.spendableOutputs tx = .ok os) :
    spendable tx = os := by rw [spendable, h]

theorem Ingestible.spendableOutputs_ok {tx : Transaction} (h : Ingestible tx) :
    Bch.spendableOutputs tx = .ok (spendable tx) := by
  obtain ⟨os, hos⟩ := (slpOutputs_ok_iff h.hydrated).mpr h.outputs
  have hspend : Bch.spendableOutputs tx = .ok (os.filter fun m => ¬ m.isOpReturn) := by
    simp only [Bch.spendableOutputs, hos, bind, Except.bind]
  rw [hspend, spendable_eq hspend]

/-- Decoded outputs are told apart by their outpoints. -/
theorem outpointsDetermine_outputs {txs : List Transaction} (hhyd : ∀ tx ∈ txs, tx.Hydrated)
    (hdet : TxidsDetermine txs) : OutpointsDetermine {o | ∃ tx ∈ txs, o ∈ tx.outputs} := by
  rintro o ⟨t, ht, ho⟩ p ⟨u, hu, hp⟩ hop
  obtain ⟨i, hi⟩ := List.mem_iff_getElem?.mp ho
  obtain ⟨j, hj⟩ := List.mem_iff_getElem?.mp hp
  have htxid : t.txid = u.txid := by
    rw [← (hhyd t ht).outpoint_txid ho, hop, (hhyd u hu).outpoint_txid hp]
  have htu : t = u := hdet t ht u hu htxid
  subst htu
  have hij : i = j := by
    rw [← (hhyd t ht).prevOutIdx_toNat hi, ← (hhyd t ht).prevOutIdx_toNat hj]
    exact congrArg (UInt32.toNat ∘ Outpoint.vout) hop
  subst hij
  exact Option.some.inj (hi.symm.trans hj)

/-- Outputs of `all` stay apart when those of some of its transactions are added. -/
theorem outpointsDetermine_within {all : List Transaction} (hhyd : ∀ tx ∈ all, tx.Hydrated)
    (hdet : TxidsDetermine all) {S : Set Output} (hS : S ⊆ {o | ∃ tx ∈ all, o ∈ tx.outputs})
    {txs : List Transaction} (htxs : ∀ tx ∈ txs, tx ∈ all) :
    OutpointsDetermine (S ∪ {o | ∃ tx ∈ txs, o ∈ tx.outputs}) := by
  have hsub : S ∪ {o | ∃ tx ∈ txs, o ∈ tx.outputs} ⊆ {o | ∃ tx ∈ all, o ∈ tx.outputs} :=
    Set.union_subset hS fun o ⟨tx, htx, ho⟩ => ⟨tx, htxs tx htx, ho⟩
  have hall := outpointsDetermine_outputs hhyd hdet
  exact fun o ho p hp => hall o (hsub ho) p (hsub hp)

theorem mapM_spendableOutputs {txs : List Transaction} (h : ∀ tx ∈ txs, Ingestible tx) :
    txs.mapM Bch.spendableOutputs = .ok (txs.map spendable) := by
  induction txs with
  | nil => rfl
  | cons tx txs ih =>
      rw [List.mapM_cons, (h tx List.mem_cons_self).spendableOutputs_ok,
        ih fun t ht => h t (List.mem_cons_of_mem _ ht)]
      rfl

theorem foldl_addTransaction_indexed {db : Slpdb} (h : db.Indexed) (txs : List Transaction) :
    (txs.foldl Slpdb.addTransaction db).Indexed := by
  induction txs generalizing db with
  | nil => exact h
  | cons tx txs ih => exact ih (h.addTransaction tx)

/-- The output store after a block, up to the height and the rollback lists. -/
def blockUtxodb (db : Utxodb) (txs : List Transaction) : Utxodb :=
  (txs.flatMap Transaction.inputs).foldl spendUtxo
    ((txs.flatMap spendable).foldl Utxodb.addOutput
      { db with currentBlockHeight := db.currentBlockHeight + 1 })

/-- A block succeeds over a sound token index. -/
theorem processBlock_ok {b : Bch} (hi : b.slpdb.Indexed) {txs : List Transaction}
    (hing : ∀ tx ∈ txs, Ingestible tx) (hdet : TxidsDetermine txs) (saveRollback : Bool) :
    ∃ b', b.processBlock txs saveRollback = .ok b' ∧ b'.slpdb.Indexed := by
  obtain ⟨sorted, hsorted, -⟩ := topologicalSort_spec
    (txs.filter fun tx => tx.slp.type ≠ .invalid) (hdet.mono fun t ht => (List.mem_filter.mp ht).1)
  obtain ⟨b₁, removed, hspend, hi₁⟩ := spendInputs_ok
    (b := ⟨(txs.flatMap spendable).foldl Utxodb.addOutput
      { b.utxodb with currentBlockHeight := b.utxodb.currentBlockHeight + 1 },
      sorted.foldl Slpdb.addTransaction b.slpdb⟩) (foldl_addTransaction_indexed hi sorted)
    (txs.flatMap Transaction.inputs) []
  rw [List.flatMap_def (f := spendable)] at hspend
  simp only [Bch.processBlock, mapM_spendableOutputs hing, hsorted, bind, Except.bind, hspend]
  cases saveRollback with
  | true => exact ⟨_, rfl, hi₁⟩
  | false => exact ⟨_, rfl, hi₁⟩

theorem flatten_of_mapM_spendableOutputs {txs : List Transaction} {oss : List (List Output)}
    (h : txs.mapM Bch.spendableOutputs = .ok oss) : oss.flatten = txs.flatMap spendable := by
  induction txs generalizing oss with
  | nil =>
      rw [List.mapM_nil] at h
      rw [← Except.ok.inj h]
      rfl
  | cons tx txs ih =>
      simp only [List.mapM_cons, bind_eq_ok] at h
      obtain ⟨os, hos, oss', hoss', h⟩ := h
      rw [← Except.ok.inj h, List.flatten_cons, ih hoss', List.flatMap_cons, spendable_eq hos]

/-- The phases of a block that succeeds: outputs and token records, then inputs, then the
rollback lists. -/
theorem processBlock_cases {b b' : Bch} {txs : List Transaction} {saveRollback : Bool}
    (h : b.processBlock txs saveRollback = .ok b') :
    ∃ sorted b₁ removed,
      topologicalSort (txs.filter fun tx => tx.slp.type ≠ .invalid) = .ok sorted ∧
      (txs.flatMap Transaction.inputs).foldlM Bch.spendInput
        (⟨(txs.flatMap spendable).foldl Utxodb.addOutput
            { b.utxodb with currentBlockHeight := b.utxodb.currentBlockHeight + 1 },
          sorted.foldl Slpdb.addTransaction b.slpdb⟩, []) = .ok (b₁, removed) ∧
      b' = if saveRollback then
          { b₁ with
            utxodb := b₁.utxodb.pushRollback ((txs.flatMap spendable).map Output.outpoint) removed }
        else b₁ := by
  simp only [Bch.processBlock, bind_eq_ok] at h
  obtain ⟨oss, hoss, sorted, hsorted, ⟨b₁, removed⟩, hspend, h⟩ := h
  rw [flatten_of_mapM_spendableOutputs hoss] at hspend
  refine ⟨sorted, b₁, removed, hsorted, hspend, ?_⟩
  simp only [flatten_of_mapM_spendableOutputs hoss] at h
  split_ifs at h ⊢
  · exact (Except.ok.inj h).symm
  · exact (Except.ok.inj h).symm

/-- A block that succeeds leaves the output store `blockUtxodb`. -/
theorem utxodb_of_processBlock {b b' : Bch} {txs : List Transaction} {saveRollback : Bool}
    (h : b.processBlock txs saveRollback = .ok b') :
    ∃ added removed, b'.utxodb =
      if saveRollback then (blockUtxodb b.utxodb txs).pushRollback added removed
      else blockUtxodb b.utxodb txs := by
  obtain ⟨sorted, b₁, removed, -, hspend, rfl⟩ := processBlock_cases h
  have hb₁ := utxodb_of_spendInputs hspend
  refine ⟨(txs.flatMap spendable).map Output.outpoint, removed, ?_⟩
  split_ifs
  · exact congrArg (Utxodb.pushRollback · _ _) hb₁
  · exact hb₁

/-- One block moves the confirmed maps by `confirmBlock`. -/
theorem ConfirmedAt.blockUtxodb {db : Utxodb} {S : Finset Output} (h : ConfirmedAt db S)
    (txs : List Transaction)
    (hout : OutpointsDetermine (↑S ∪ {o | ∃ tx ∈ txs, o ∈ tx.outputs})) :
    ConfirmedAt (blockUtxodb db txs) (confirmBlock S txs) := by
  have hcreated : ∀ o ∈ txs.flatMap spendable, ∃ tx ∈ txs, o ∈ tx.outputs := by
    intro o ho
    obtain ⟨tx, htx, ho⟩ := List.mem_flatMap.mp ho
    exact ⟨tx, htx, mem_spendable ho⟩
  have hadd : ConfirmedAt _ (S ∪ (txs.flatMap spendable).toFinset) :=
    (show ConfirmedAt { db with currentBlockHeight := db.currentBlockHeight + 1 } S from
      h.congr ⟨rfl, rfl⟩).addOutputs (txs.flatMap spendable) fun o ho p hp =>
        hout o (ho.imp_right (hcreated o)) p (hp.imp_right (hcreated p))
  exact hadd.spendUtxos (txs.flatMap Transaction.inputs)

theorem ConfirmedAt.processBlock {b : Bch} {S : Finset Output} (h : ConfirmedAt b.utxodb S)
    (hi : b.slpdb.Indexed) {txs : List Transaction} (hing : ∀ tx ∈ txs, Ingestible tx)
    (hdet : TxidsDetermine txs)
    (hout : OutpointsDetermine (↑S ∪ {o | ∃ tx ∈ txs, o ∈ tx.outputs})) (saveRollback : Bool) :
    ∃ b', b.processBlock txs saveRollback = .ok b' ∧ ConfirmedAt b'.utxodb (confirmBlock S txs) ∧
      b'.slpdb.Indexed := by
  obtain ⟨b', hb', hi'⟩ := processBlock_ok hi hing hdet saveRollback
  obtain ⟨added, removed, hdb⟩ := utxodb_of_processBlock hb'
  refine ⟨b', hb', ?_, hi'⟩
  rw [hdb]
  split_ifs
  · exact (h.blockUtxodb txs hout).congr ⟨rfl, rfl⟩
  · exact h.blockUtxodb txs hout

theorem utxodb_of_processMempoolTx {b b' : Bch} {tx : Transaction}
    (h : b.processMempoolTx tx = .ok b') : b'.utxodb =
      tx.inputs.foldl Utxodb.spendByMempool
        ((spendable tx).foldl Utxodb.addMempoolOutput b.utxodb) := by
  simp only [Bch.processMempoolTx, bind_eq_ok] at h
  obtain ⟨outputs, houtputs, h⟩ := h
  rw [spendable_eq houtputs, ← Except.ok.inj h]

theorem slpdb_of_processMempoolTx {b b' : Bch} {tx : Transaction}
    (h : b.processMempoolTx tx = .ok b') :
    b'.slpdb = b.slpdb.addTransaction tx := by
  simp only [Bch.processMempoolTx, bind_eq_ok] at h
  obtain ⟨_, -, h⟩ := h
  rw [← Except.ok.inj h]
  simp only
  split_ifs with htype
  · rfl
  · rw [Slpdb.addTransaction, SlpTransaction.type_eq_invalid.mp (not_not.mp htype)]

/-- A mempool transaction leaves the confirmed maps alone. -/
theorem processMempoolTx_sameConfirmed {b b' : Bch} {tx : Transaction}
    (h : b.processMempoolTx tx = .ok b') : SameConfirmed b.utxodb b'.utxodb := by
  rw [utxodb_of_processMempoolTx h]
  exact (SameConfirmed.foldl addMempoolOutput_sameConfirmed (spendable tx) _).trans
    (SameConfirmed.foldl spendByMempool_sameConfirmed tx.inputs _)

theorem Ingestible.processMempoolTx {tx : Transaction} (htx : Ingestible tx) {b : Bch}
    (hi : b.slpdb.Indexed) : ∃ b', b.processMempoolTx tx = .ok b' ∧ b'.slpdb.Indexed := by
  simp only [Bch.processMempoolTx, htx.spendableOutputs_ok, bind, Except.bind]
  refine ⟨_, rfl, ?_⟩
  simp only
  split_ifs
  · exact hi.addTransaction tx
  · exact hi

/-! ## Runs -/

/-- A call of `process_block` or of `process_mempool_tx`. -/
inductive BchEvent
  | block (txs : List Transaction) (saveRollback : Bool)
  | mempoolTx (tx : Transaction)

def BchEvent.txs : BchEvent → List Transaction
  | .block txs _ => txs
  | .mempoolTx tx => [tx]

def Bch.step (b : Bch) : BchEvent → Except Failure Bch
  | .block txs saveRollback => b.processBlock txs saveRollback
  | .mempoolTx tx => b.processMempoolTx tx

/-- A call that returns has read the outputs of its transactions. -/
theorem Bch.ingestible_of_step {b b' : Bch} {e : BchEvent} (h : b.step e = .ok b')
    {tx : Transaction} (htx : tx ∈ e.txs) (hhyd : tx.Hydrated) : Ingestible tx := by
  obtain ⟨outputs, houtputs⟩ : ∃ outputs, Bch.spendableOutputs tx = .ok outputs := by
    cases e with
    | block txs saveRollback =>
        obtain ⟨blkOutputs, hblk, -⟩ := bind_eq_ok.mp h
        exact exists_ok_of_mapM_ok hblk htx
    | mempoolTx t =>
        obtain ⟨outputs, houtputs, -⟩ := bind_eq_ok.mp h
        exact ⟨outputs, List.mem_singleton.mp htx ▸ houtputs⟩
  obtain ⟨os, hos, -⟩ := bind_eq_ok.mp houtputs
  exact ⟨hhyd, (slpOutputs_ok_iff hhyd).mp ⟨os, hos⟩⟩

theorem Bch.ingestible_of_run {events : List BchEvent} {b b' : Bch}
    (h : events.foldlM Bch.step b = .ok b') {tx : Transaction}
    (htx : tx ∈ events.flatMap BchEvent.txs) (hhyd : tx.Hydrated) : Ingestible tx := by
  obtain ⟨e, he, htx⟩ := List.mem_flatMap.mp htx
  obtain ⟨b₁, b₂, hstep⟩ := exists_step_ok h he
  exact Bch.ingestible_of_step hstep htx hhyd

/-- The fold over the blocks of a run; mempool events are skipped. -/
def confirmEvent (S : Finset Output) : BchEvent → Finset Output
  | .block txs _ => confirmBlock S txs
  | .mempoolTx _ => S

theorem ConfirmedAt.step {b : Bch} {S : Finset Output} (h : ConfirmedAt b.utxodb S)
    (hi : b.slpdb.Indexed) {e : BchEvent} (hing : ∀ tx ∈ e.txs, Ingestible tx)
    (hdet : TxidsDetermine e.txs)
    (hout : OutpointsDetermine (↑S ∪ {o | ∃ tx ∈ e.txs, o ∈ tx.outputs})) :
    ∃ b', b.step e = .ok b' ∧ ConfirmedAt b'.utxodb (confirmEvent S e) ∧ b'.slpdb.Indexed := by
  cases e with
  | block txs saveRollback => exact h.processBlock hi hing hdet hout saveRollback
  | mempoolTx tx =>
      obtain ⟨b', hb', hi'⟩ := (hing tx (List.mem_singleton.mpr rfl)).processMempoolTx hi
      exact ⟨b', hb', h.congr (processMempoolTx_sameConfirmed hb'), hi'⟩

theorem confirmEvent_subset {S : Finset Output} {e : BchEvent} {o : Output}
    (ho : o ∈ confirmEvent S e) :
    o ∈ S ∨ ∃ tx ∈ e.txs, o ∈ tx.outputs := by
  cases e with
  | mempoolTx tx => exact .inl ho
  | block txs saveRollback =>
      rcases confirmBlock_cases ho with hS | ⟨tx, htx, hnew, -⟩
      · exact .inl hS
      · exact .inr ⟨tx, htx, mem_spendable hnew⟩

/-- A run from a state that holds `S`, within transactions `all` that tell their
outputs apart. -/
theorem ConfirmedAt.run {all : List Transaction} (hing : ∀ tx ∈ all, Ingestible tx)
    (hdet : TxidsDetermine all) {events : List BchEvent}
    (hall : ∀ e ∈ events, ∀ tx ∈ e.txs, tx ∈ all) {b : Bch} {S : Finset Output}
    (h : ConfirmedAt b.utxodb S) (hi : b.slpdb.Indexed)
    (hS : ∀ o ∈ S, ∃ tx ∈ all, o ∈ tx.outputs) :
    ∃ b', events.foldlM Bch.step b = .ok b' ∧
      ConfirmedAt b'.utxodb (events.foldl confirmEvent S) := by
  induction events generalizing b S with
  | nil => exact ⟨b, rfl, h⟩
  | cons e events ih =>
      have he : ∀ tx ∈ e.txs, tx ∈ all := hall e List.mem_cons_self
      have hing' : ∀ tx ∈ e.txs, Ingestible tx := fun tx htx => hing tx (he tx htx)
      obtain ⟨b₁, hstep, h₁, hi₁⟩ := h.step hi hing'
        (hdet.mono he)
        (outpointsDetermine_within (fun tx htx => (hing tx htx).hydrated) hdet hS he)
      have hS₁ : ∀ o ∈ confirmEvent S e, ∃ tx ∈ all, o ∈ tx.outputs := fun o ho =>
        (confirmEvent_subset ho).elim (hS o) fun ⟨tx, htx, ho⟩ => ⟨tx, he tx htx, ho⟩
      obtain ⟨b', hrun, h'⟩ := ih (fun e' he' => hall e' (List.mem_cons_of_mem _ he')) h₁ hi₁ hS₁
      refine ⟨b', ?_, h'⟩
      rw [List.foldlM_cons, hstep]
      exact hrun

/-- Every run succeeds, its confirmed maps are the fold over its blocks and inverse
to each other, and mempool transactions change neither. -/
theorem Bch.run_confirmed {events : List BchEvent}
    (hing : ∀ e ∈ events, ∀ tx ∈ e.txs, Ingestible tx)
    (hdet : TxidsDetermine (events.flatMap BchEvent.txs)) :
    (∃ b, events.foldlM Bch.step Bch.empty = .ok b ∧
      (∀ k o, b.utxodb.outpointMap.lookup k = some o ↔
        o ∈ events.foldl confirmEvent ∅ ∧ o.outpoint = k) ∧
      InverseIndex b.utxodb.outpointMap b.utxodb.scriptpubkeyToOutput) ∧
    ∀ (b b' : Bch) (tx : Transaction), b.processMempoolTx tx = .ok b' →
      b'.utxodb.outpointMap = b.utxodb.outpointMap ∧
        b'.utxodb.scriptpubkeyToOutput = b.utxodb.scriptpubkeyToOutput := by
  refine ⟨?_, fun b b' tx h => ?_⟩
  · obtain ⟨b, hrun, hb⟩ := ConfirmedAt.run
      (fun tx htx => by
        obtain ⟨e, he, htx⟩ := List.mem_flatMap.mp htx
        exact hing e he tx htx)
      hdet (fun e he tx htx => List.mem_flatMap.mpr ⟨e, he, htx⟩)
      (b := .empty) ConfirmedAt.empty Slpdb.Indexed.empty (by simp)
    exact ⟨b, hrun, hb.lookup_iff, hb.inverse⟩
  · obtain ⟨h₁, h₂⟩ := processMempoolTx_sameConfirmed h
    exact ⟨h₁, h₂⟩

/-- A GENESIS in a block, its SEND in the mempool and then in a block. -/
def sampleEvents : List BchEvent :=
  [.block [sampleGenesis] true, .mempoolTx sampleSend, .block [sampleSend] true]

theorem sampleEvents_txs {e : BchEvent} (he : e ∈ sampleEvents) {tx : Transaction}
    (htx : tx ∈ e.txs) : tx = sampleGenesis ∨ tx = sampleSend := by
  simp only [sampleEvents, List.mem_cons, List.not_mem_nil, or_false] at he
  rcases he with rfl | rfl | rfl <;> simp_all [BchEvent.txs]

theorem sampleEvents_ingestible {e : BchEvent} (he : e ∈ sampleEvents) {tx : Transaction}
    (htx : tx ∈ e.txs) : Ingestible tx := by
  rcases sampleEvents_txs he htx with rfl | rfl
  · exact ⟨sampleGenesis_hydrated, by decide⟩
  · exact ⟨sampleSend_hydrated, by decide⟩

theorem sampleEvents_txidsDetermine : TxidsDetermine (sampleEvents.flatMap BchEvent.txs) := by
  have hboth : TxidsDetermine [sampleGenesis, sampleSend] := .of_nodup (by decide)
  refine hboth.mono fun t ht => ?_
  obtain ⟨e, he, ht⟩ := List.mem_flatMap.mp ht
  exact List.mem_pair.mpr (sampleEvents_txs he ht)

theorem Bch.run_confirmed_sample :
    ∃ b, sampleEvents.foldlM Bch.step Bch.empty = .ok b ∧
      b.utxodb.outpointMap.lookup ⟨sampleGenesis.txid, 1⟩ = none ∧
      b.utxodb.outpointMap.lookup ⟨sampleSend.txid, 1⟩ = sampleSend.outputs[1]? := by
  obtain ⟨⟨b, hrun, hb, -⟩, -⟩ := @Bch.run_confirmed sampleEvents
    (fun e he tx htx => sampleEvents_ingestible he htx) sampleEvents_txidsDetermine
  refine ⟨b, hrun, Option.eq_none_iff_forall_ne_some.mpr fun o ho => ?_, ?_⟩
  · obtain ⟨ho, hk⟩ := (hb _ _).mp ho
    have hspent : ∀ o ∈ sampleEvents.foldl confirmEvent ∅,
        o.outpoint ≠ ⟨sampleGenesis.txid, 1⟩ := by decide +kernel
    exact hspent o ho hk
  · exact (hb _ _).mpr (by decide +kernel)

end SlpGraphSearch
