import SlpGraphSearch.UtxoView

/-!
# Rollback

What `rollback` restores. It puts the removed outputs back and takes the added ones out
of their address buckets, but it leaves them in the outpoint map, and it puts removed
mempool outputs on the confirmed side. So `k` blocks are undone by `k` rollbacks
exactly if they create no token output and spend no unconfirmed mempool output.
-/
namespace SlpGraphSearch
open Library Transaction

/-- Two indexes of one map agree. -/
theorem InverseIndex.unique {m : OutpointMap} {idx idx' : HashMap Scriptpubkey OutpointMap}
    (h : InverseIndex m idx) (h' : InverseIndex m idx') : idx = idx' := by
  have hlookup : ∀ {idx idx' : HashMap Scriptpubkey OutpointMap}, InverseIndex m idx →
      InverseIndex m idx' → ∀ script bucket, idx.lookup script = some bucket →
      idx'.lookup script = some bucket := by
    intro idx idx' h h' script bucket hbucket
    have hentry : ∀ k o, bucket.lookup k = some o ↔ bucketLookup idx' script k = some o := by
      intro k o
      rw [h'.entry, ← h.entry, bucketLookup, hbucket, Option.bind_some]
    have hne := h.noEmpty script bucket hbucket
    rw [← Bool.not_eq_true, KeyedMap.isEmpty_iff, not_forall] at hne
    obtain ⟨k, hk⟩ := hne
    obtain ⟨o, ho⟩ := Option.ne_none_iff_exists'.mp hk
    obtain ⟨bucket', hbucket', -⟩ := Option.bind_eq_some_iff.mp ((hentry k o).mp ho)
    rw [hbucket', Option.some.injEq]
    refine KeyedMap.ext_lookup fun k => Option.ext fun o => ?_
    rw [hentry, bucketLookup, hbucket', Option.bind_some]
  refine Finmap.ext_lookup fun script => Option.ext fun bucket => ?_
  exact ⟨hlookup h h' script bucket, hlookup h' h script bucket⟩

/-- The confirmed maps of two stores that hold the same outputs agree. -/
theorem ConfirmedAt.sameConfirmed {db db' : Utxodb} {S : Finset Output} (h : ConfirmedAt db S)
    (h' : ConfirmedAt db' S) : SameConfirmed db db' := by
  have hmap : db'.outpointMap = db.outpointMap := by
    refine KeyedMap.ext_lookup fun k => Option.ext fun o => ?_
    rw [h.lookup_iff, h'.lookup_iff]
  exact ⟨hmap, (hmap ▸ h'.inverse).unique h.inverse⟩

/-! ## What a block records -/

/-- The outputs that a block spends, whether they were confirmed, created by the block or
only in the mempool. -/
def UtxoView.Removed (v : UtxoView) (txs : List Transaction) (o : Output) : Prop :=
  o.outpoint ∈ txs.flatMap Transaction.inputs ∧ (o ∈ v.confirmed ∨ o ∈ txs.flatMap spendable ∨
    o ∈ v.mempool ∧ o.outpoint ∉ (txs.flatMap spendable).map Output.outpoint)

theorem mem_removed_of_spendInputs {inputs : List Outpoint} {b b' : Bch} {v : UtxoView}
    (h : b.utxodb.Shows v) {removed removed' : List Output}
    (hrun : inputs.foldlM Bch.spendInput (b, removed) = .ok (b', removed')) (o : Output) :
    o ∈ removed' ↔ o ∈ removed ∨ o.outpoint ∈ inputs ∧ (o ∈ v.confirmed ∨ o ∈ v.mempool) := by
  induction inputs generalizing b v removed with
  | nil =>
      rw [List.foldlM_nil] at hrun
      rw [← (Prod.mk.inj (Except.ok.inj hrun)).2]
      simp
  | cons m inputs ih =>
      rw [List.foldlM_cons, bind_eq_ok] at hrun
      obtain ⟨acc, hstep, hrun⟩ := hrun
      obtain ⟨slpdb, -, rfl⟩ := spendInput_cases hstep
      have hconf : o ∈ (b.utxodb.spendConfirmed m).2 ↔ o ∈ v.confirmed ∧ o.outpoint = m := by
        rw [← h.confirmed.lookup_iff]
        unfold Utxodb.spendConfirmed
        cases b.utxodb.outpointMap.lookup m <;> simp [eq_comm]
      have hmem : o ∈ ((b.utxodb.spendConfirmed m).1.spendMempool m).2 ↔
          o ∈ v.mempool ∧ o.outpoint = m := by
        rw [← (h.spendConfirmed m).mempool]
        unfold Utxodb.spendMempool
        cases (b.utxodb.spendConfirmed m).1.mempoolOutpointMap.lookup m <;> simp [eq_comm]
      rw [ih ((h.spendConfirmed m).spendMempool m) hrun]
      simp only [List.mem_append, hconf, hmem, Finset.mem_filter, List.mem_cons]
      by_cases hom : o.outpoint = m
      · simp [hom, or_assoc]
      · simp [hom]

/-- A block with `save_rollback` records what it created and what it removed. -/
theorem processBlock_record {b b' : Bch} {v : UtxoView} (h : b.utxodb.Shows v)
    {txs : List Transaction}
    (hdet : OutpointsDetermine (v.outputs ∪ {o | ∃ tx ∈ txs, o ∈ tx.outputs}))
    (hrun : b.processBlock txs true = .ok b') :
    ∃ removed, b'.utxodb = (blockUtxodb b.utxodb txs).pushRollback
        ((txs.flatMap spendable).map Output.outpoint) removed ∧
      ∀ o, o ∈ removed ↔ v.Removed txs o := by
  obtain ⟨sorted, b₁, removed, -, hspend, rfl⟩ := processBlock_cases hrun
  refine ⟨removed, ?_, fun o => ?_⟩
  · exact congrArg (Utxodb.pushRollback · _ _) (utxodb_of_spendInputs hspend)
  · have hadd := h.blockOutputs txs hdet
    rw [mem_removed_of_spendInputs hadd hspend o, UtxoView.Removed]
    simp [or_assoc]

/-! ## The rollback lists -/

abbrev BlockRecord := List Output × List Outpoint

/-- The rollback lists end with these records and respect the depth. -/
structure Utxodb.Recorded (db : Utxodb) (record : List BlockRecord) : Prop where
  removed : record.map Prod.fst <:+ db.lastBlockRemoved
  added : record.map Prod.snd <:+ db.lastBlockAdded
  removed_le : db.lastBlockRemoved.length ≤ rollbackDepth
  added_le : db.lastBlockAdded.length ≤ rollbackDepth

/-- A full list drops its oldest entry, which is not among the last ones. -/
theorem suffix_push {α : Type} {xs l : List α} {depth : ℕ} (x : α) (h : xs <:+ l)
    (hl : l.length ≤ depth) (hxs : xs.length < depth) :
    xs ++ [x] <:+ (if depth < (l ++ [x]).length then (l ++ [x]).drop 1 else l ++ [x]) ∧
      (if depth < (l ++ [x]).length then (l ++ [x]).drop 1 else l ++ [x]).length ≤ depth := by
  obtain ⟨pre, rfl⟩ := h
  simp only [List.length_append, List.length_singleton] at hl ⊢
  split_ifs with hfull
  · cases pre with
    | nil => simp at hl hfull; omega
    | cons y pre =>
        refine ⟨⟨pre, by simp⟩, ?_⟩
        simp at hl ⊢
        omega
  · exact ⟨⟨pre, by simp⟩, by simp at hfull ⊢; omega⟩

namespace Utxodb

theorem Recorded.pushRollback {db : Utxodb} {record : List BlockRecord} (h : db.Recorded record)
    (hlen : record.length < rollbackDepth) (added : List Outpoint) (removed : List Output) :
    (db.pushRollback added removed).Recorded (record ++ [(removed, added)]) := by
  obtain ⟨hr, hr_le⟩ := suffix_push removed h.removed h.removed_le (by simpa using hlen)
  obtain ⟨ha, ha_le⟩ := suffix_push added h.added h.added_le (by simpa using hlen)
  refine ⟨?_, ?_, hr_le, ha_le⟩
  · rw [List.map_append]
    exact hr
  · rw [List.map_append]
    exact ha

/-- The rollback lists of two stores agree. -/
structure SameRecords (db db' : Utxodb) : Prop where
  lastBlockRemoved : db'.lastBlockRemoved = db.lastBlockRemoved
  lastBlockAdded : db'.lastBlockAdded = db.lastBlockAdded

theorem SameRecords.foldl {α : Type} {f : Utxodb → α → Utxodb}
    (h : ∀ db a, SameRecords db (f db a)) (as : List α) (db : Utxodb) :
    SameRecords db (as.foldl f db) := by
  induction as generalizing db with
  | nil => exact ⟨rfl, rfl⟩
  | cons a as ih =>
      have hrest := ih (f db a)
      exact ⟨hrest.1.trans (h db a).1, hrest.2.trans (h db a).2⟩

theorem Recorded.congr {db db' : Utxodb} {record : List BlockRecord} (h : db.Recorded record)
    (hsame : SameRecords db db') : db'.Recorded record :=
  ⟨hsame.1 ▸ h.removed, hsame.2 ▸ h.added, hsame.1 ▸ h.removed_le, hsame.2 ▸ h.added_le⟩

theorem spendUtxo_sameRecords (db : Utxodb) (m : Outpoint) : SameRecords db (spendUtxo db m) := by
  unfold spendUtxo spendMempool spendConfirmed
  cases db.outpointMap.lookup m <;> split <;> exact ⟨rfl, rfl⟩

theorem addMempoolOutput_sameRecords (db : Utxodb) (m : Output) :
    SameRecords db (db.addMempoolOutput m) := ⟨rfl, rfl⟩

theorem spendByMempool_sameRecords (db : Utxodb) (m : Outpoint) :
    SameRecords db (db.spendByMempool m) := by
  unfold Utxodb.spendByMempool
  split <;> exact ⟨rfl, rfl⟩

theorem addOutput_sameRecords (db : Utxodb) (m : Output) : SameRecords db (db.addOutput m) :=
  ⟨rfl, rfl⟩

theorem blockUtxodb_sameRecords (db : Utxodb) (txs : List Transaction) :
    SameRecords db (blockUtxodb db txs) := by
  have hout := SameRecords.foldl addOutput_sameRecords (txs.flatMap spendable)
    { db with currentBlockHeight := db.currentBlockHeight + 1 }
  have hin := SameRecords.foldl spendUtxo_sameRecords (txs.flatMap Transaction.inputs)
    ((txs.flatMap spendable).foldl addOutput
      { db with currentBlockHeight := db.currentBlockHeight + 1 })
  exact ⟨hin.1.trans hout.1, hin.2.trans hout.2⟩

/-- The rollback lists never exceed the depth. -/
theorem Recorded.step {b b' : Bch} (h : b.utxodb.Recorded []) {e : BchEvent}
    (hstep : b.step e = .ok b') : b'.utxodb.Recorded [] := by
  cases e with
  | block txs saveRollback =>
      obtain ⟨added, removed, hdb⟩ := utxodb_of_processBlock hstep
      have hblock := h.congr (blockUtxodb_sameRecords b.utxodb txs)
      rw [hdb]
      split_ifs
      · have hpush := hblock.pushRollback (by decide) added removed
        exact ⟨List.nil_suffix, List.nil_suffix, hpush.removed_le, hpush.added_le⟩
      · exact hblock
  | mempoolTx tx =>
      rw [utxodb_of_processMempoolTx hstep]
      exact (h.congr (SameRecords.foldl addMempoolOutput_sameRecords (spendable tx) _)).congr
        (SameRecords.foldl spendByMempool_sameRecords tx.inputs _)

theorem Recorded.run {events : List BchEvent} {b : Bch}
    (h : events.foldlM Bch.step .empty = .ok b) : b.utxodb.Recorded [] := by
  have hstart : Bch.empty.utxodb.Recorded [] :=
    ⟨List.nil_suffix, List.nil_suffix, Nat.zero_le _, Nat.zero_le _⟩
  exact Always.of_step (P := fun _ b => b.utxodb.Recorded []) hstart
    (fun _ _ _ _ _ _ hrec _ hstep => hrec.step hstep) events [] (List.append_nil _).symm b h

/-! ## One rollback -/

theorem restoreOutput_sameConfirmed (db : Utxodb) (m : Output) :
    SameConfirmed (db.addOutput m) (db.restoreOutput m) := ⟨rfl, rfl⟩

theorem withdrawOutput_outpointMap (db : Utxodb) (m : Outpoint) :
    (db.withdrawOutput m).outpointMap = db.outpointMap := by
  unfold withdrawOutput
  split
  · rfl
  · split
    · rfl
    · split_ifs <;> rfl

theorem foldl_withdrawOutput_outpointMap (added : List Outpoint) (db : Utxodb) :
    (added.foldl withdrawOutput db).outpointMap = db.outpointMap := by
  induction added generalizing db with
  | nil => rfl
  | cons m added ih => rw [List.foldl_cons, ih, withdrawOutput_outpointMap]

theorem mem_foldl_restoreOutput (removed : List Output) (db : Utxodb) (k : Outpoint) :
    k ∈ (removed.foldl restoreOutput db).outpointMap ↔
      k ∈ db.outpointMap ∨ ∃ o ∈ removed, o.outpoint = k := by
  induction removed generalizing db with
  | nil => simp
  | cons m removed ih =>
      rw [List.foldl_cons, ih]
      simp only [restoreOutput, KeyedMap.mem_emplace, List.exists_mem_cons_iff]
      rw [eq_comm, or_comm (a := m.outpoint = k), or_assoc]

theorem restoreOutputs_confirmedAt {db : Utxodb} {S : Finset Output} (h : ConfirmedAt db S)
    (removed : List Output) (hdet : OutpointsDetermine (↑S ∪ {o | o ∈ removed})) :
    ConfirmedAt (removed.foldl restoreOutput db) (S ∪ removed.toFinset) := by
  induction removed generalizing db S with
  | nil => simpa using h
  | cons m removed ih =>
      have hm : ∀ o ∈ S, o.outpoint = m.outpoint → o = m := fun o ho =>
        hdet o (.inl ho) m (.inr List.mem_cons_self)
      have hrec := ih ((h.addOutput hm).congr (restoreOutput_sameConfirmed db m))
        fun o ho p hp => hdet o ?_ p ?_
      · rw [List.foldl_cons, List.toFinset_cons, Finset.union_insert, ← Finset.insert_union]
        exact hrec
      · simpa [or_assoc, or_left_comm] using ho
      · simpa [or_assoc, or_left_comm] using hp

/-- A rollback consumes the last record. -/
theorem Recorded.rollback {db : Utxodb} {record : List BlockRecord} {p : BlockRecord}
    (h : db.Recorded (record ++ [p])) :
    ∃ db₀, SameConfirmed db db₀ ∧ db₀.Recorded record ∧
      db.rollback = p.2.foldl withdrawOutput (p.1.foldl restoreOutput db₀) := by
  obtain ⟨R, hR⟩ := h.removed
  obtain ⟨A, hA⟩ := h.added
  simp only [List.map_append, List.map_singleton, ← List.append_assoc] at hR hA
  have hr_le := h.removed_le
  have ha_le := h.added_le
  rw [← hR, List.length_append, List.length_singleton] at hr_le
  rw [← hA, List.length_append, List.length_singleton] at ha_le
  refine ⟨{ db with
    lastBlockRemoved := db.lastBlockRemoved.dropLast
    lastBlockAdded := db.lastBlockAdded.dropLast }, ⟨rfl, rfl⟩, ⟨?_, ?_, ?_, ?_⟩, ?_⟩
  · simp only [← hR, List.dropLast_concat]
    exact ⟨R, rfl⟩
  · simp only [← hA, List.dropLast_concat]
    exact ⟨A, rfl⟩
  · simp only [← hR, List.dropLast_concat]
    omega
  · simp only [← hA, List.dropLast_concat]
    omega
  · simp only [Utxodb.rollback, ← hR, ← hA, List.getLast?_append, List.getLast?_singleton,
      Option.some_or]

theorem restoreOutput_sameRecords (db : Utxodb) (m : Output) :
    SameRecords db (db.restoreOutput m) := ⟨rfl, rfl⟩

theorem withdrawOutput_sameRecords (db : Utxodb) (m : Outpoint) :
    SameRecords db (db.withdrawOutput m) := by
  unfold withdrawOutput
  split
  · exact ⟨rfl, rfl⟩
  · split
    · exact ⟨rfl, rfl⟩
    · split_ifs <;> exact ⟨rfl, rfl⟩

theorem Recorded.undone {db : Utxodb} {record : List BlockRecord} (h : db.Recorded record)
    (p : BlockRecord) :
    (p.2.foldl withdrawOutput (p.1.foldl restoreOutput db)).Recorded record :=
  (h.congr (SameRecords.foldl restoreOutput_sameRecords p.1 db)).congr
    (SameRecords.foldl withdrawOutput_sameRecords p.2 _)

/-! ## As many rollbacks as records -/

/-- Rollbacks only add to the outpoint map. -/
theorem mem_iterate_rollback {db : Utxodb} {record : List BlockRecord} (h : db.Recorded record)
    (k : Outpoint) : k ∈ (rollback^[record.length] db).outpointMap ↔
      k ∈ db.outpointMap ∨ ∃ o ∈ record.flatMap Prod.fst, o.outpoint = k := by
  induction record using List.reverseRecOn generalizing db with
  | nil => simp
  | append_singleton record p ih =>
      obtain ⟨db₀, hsame, hrec, hroll⟩ := h.rollback
      rw [List.length_append, List.length_singleton, Function.iterate_succ_apply, hroll,
        ih (hrec.undone p), foldl_withdrawOutput_outpointMap, mem_foldl_restoreOutput,
        hsame.outpointMap, List.flatMap_append, List.flatMap_singleton]
      simp only [List.mem_append, or_and_right, exists_or]
      rw [or_assoc, or_comm (a := ∃ o ∈ p.1, o.outpoint = k)]

/-- Without added outputs, rollbacks put back what was removed. -/
theorem iterate_rollback_confirmedAt {db : Utxodb} {record : List BlockRecord}
    (h : db.Recorded record) (hadded : ∀ p ∈ record, p.2 = []) {S : Finset Output}
    (hS : ConfirmedAt db S)
    (hdet : OutpointsDetermine (↑S ∪ {o | o ∈ record.flatMap Prod.fst})) :
    ConfirmedAt (rollback^[record.length] db) (S ∪ (record.flatMap Prod.fst).toFinset) := by
  induction record using List.reverseRecOn generalizing db S with
  | nil => simpa using hS
  | append_singleton record p ih =>
      obtain ⟨db₀, hsame, hrec, hroll⟩ := h.rollback
      rw [hadded p (by simp), List.foldl_nil] at hroll
      simp only [List.flatMap_append, List.flatMap_singleton, List.mem_append] at hdet
      have hp : ConfirmedAt (p.1.foldl restoreOutput db₀) (S ∪ p.1.toFinset) :=
        restoreOutputs_confirmedAt (hS.congr hsame) p.1 fun o ho q hq =>
          hdet o (ho.imp_right .inr) q (hq.imp_right .inr)
      have hrest := ih (hrec.congr (SameRecords.foldl restoreOutput_sameRecords p.1 db₀))
        (fun q hq => hadded q (List.mem_append_left _ hq)) hp fun o ho q hq => hdet o ?_ q ?_
      · rw [List.length_append, List.length_singleton, Function.iterate_succ_apply, hroll,
          List.flatMap_append, List.flatMap_singleton, List.toFinset_append,
          Finset.union_comm _ p.1.toFinset, ← Finset.union_assoc]
        exact hrest
      all_goals
        simp only [Finset.coe_union, List.coe_toFinset, Set.mem_union, Finset.mem_coe,
          Set.mem_ofPred_eq] at ho hq ⊢
        tauto

end Utxodb

/-! ## Records of a run -/

/-- What the blocks of a run record, one entry for each. -/
inductive Records : UtxoView → List (List Transaction) → List BlockRecord → Prop
  | nil (v : UtxoView) : Records v [] []
  | cons {v : UtxoView} {txs : List Transaction} {blocks : List (List Transaction)}
      {removed : List Output} {record : List BlockRecord}
      (hremoved : ∀ o, o ∈ removed ↔ v.Removed txs o)
      (hrest : Records (v.block txs) blocks record) :
      Records v (txs :: blocks) ((removed, (txs.flatMap spendable).map Output.outpoint) :: record)

namespace Records

variable {v : UtxoView} {blocks : List (List Transaction)} {record : List BlockRecord}

/-- What was confirmed or created is still confirmed after the blocks, or recorded. -/
theorem kept (h : Records v blocks record) {o : Output}
    (ho : o ∈ v.confirmed ∨ ∃ txs ∈ blocks, o ∈ txs.flatMap spendable) :
    o ∈ (blocks.foldl UtxoView.block v).confirmed ∨ o ∈ record.flatMap Prod.fst := by
  induction h with
  | nil v => simpa using ho
  | @cons v txs blocks removed record hremoved hrest ih =>
      rw [List.flatMap_cons, List.mem_append]
      have hblock : o ∈ v.confirmed ∨ o ∈ txs.flatMap spendable →
          o ∈ (v.block txs).confirmed ∨ o ∈ removed := by
        intro ho
        by_cases hin : o.outpoint ∈ txs.flatMap Transaction.inputs
        · exact .inr ((hremoved o).mpr ⟨hin, ho.imp_right .inl⟩)
        · exact .inl (Finset.mem_filter.mpr ⟨Finset.mem_union.mpr
            (ho.imp_right List.mem_toFinset.mpr), hin⟩)
      have hcases : (o ∈ v.confirmed ∨ o ∈ txs.flatMap spendable) ∨
          ∃ txs ∈ blocks, o ∈ txs.flatMap spendable := by
        rcases ho with ho | ⟨txs', htxs', ho⟩
        · exact .inl (.inl ho)
        · rcases List.mem_cons.mp htxs' with rfl | hmem
          · exact .inl (.inr ho)
          · exact .inr ⟨txs', hmem, ho⟩
      rcases hcases with ho | ho
      · rcases hblock ho with ho | ho
        · exact (ih (.inl ho)).imp_right .inr
        · exact .inr (.inl ho)
      · exact (ih (.inr ho)).imp_right .inr

/-- Blocks without token outputs record every mempool output that they spend. -/
theorem mempool_recorded (h : Records v blocks record)
    (hnone : ∀ txs ∈ blocks, txs.flatMap spendable = []) {o : Output} (ho : o ∈ v.mempool)
    (hin : ∃ txs ∈ blocks, o.outpoint ∈ txs.flatMap Transaction.inputs) :
    o ∈ record.flatMap Prod.fst := by
  induction h with
  | nil v => simp at hin
  | @cons v txs blocks removed record hremoved hrest ih =>
      rw [List.flatMap_cons, List.mem_append]
      have htxs := hnone txs List.mem_cons_self
      by_cases hspent : o.outpoint ∈ txs.flatMap Transaction.inputs
      · exact .inl ((hremoved o).mpr ⟨hspent, .inr (.inr ⟨ho, by simp [htxs]⟩)⟩)
      · refine .inr (ih (fun t ht => hnone t (List.mem_cons_of_mem _ ht))
          (Finset.mem_filter.mpr ⟨ho, by simp [htxs], hspent⟩) ?_)
        obtain ⟨txs', htxs', hin⟩ := hin
        rcases List.mem_cons.mp htxs' with rfl | hmem
        · exact absurd hin hspent
        · exact ⟨txs', hmem, hin⟩

/-- If the blocks create nothing and spend only what is confirmed, what they record and
what they leave make up what was confirmed. -/
theorem union_removed (h : Records v blocks record) (hdet : OutpointsDetermine v.outputs)
    (hnone : ∀ txs ∈ blocks, txs.flatMap spendable = [])
    (hmem : ∀ txs ∈ blocks, ∀ o ∈ v.mempool, o.outpoint ∈ txs.flatMap Transaction.inputs →
      o ∈ v.confirmed) :
    (blocks.foldl UtxoView.block v).confirmed ∪ (record.flatMap Prod.fst).toFinset =
      v.confirmed := by
  induction h with
  | nil v => simp
  | @cons v txs blocks removed record hremoved hrest ih =>
      have htxs := hnone txs List.mem_cons_self
      have hconf : (v.block txs).confirmed =
          {o ∈ v.confirmed | o.outpoint ∉ txs.flatMap Transaction.inputs} := by
        simp [UtxoView.block, confirmBlock, htxs]
      have hremoved' : ∀ o, o ∈ removed ↔
          o ∈ v.confirmed ∧ o.outpoint ∈ txs.flatMap Transaction.inputs := by
        intro o
        rw [hremoved, UtxoView.Removed, htxs]
        constructor
        · rintro ⟨hin, ho | ho | ⟨ho, -⟩⟩
          · exact ⟨ho, hin⟩
          · exact absurd ho List.not_mem_nil
          · exact ⟨hmem txs List.mem_cons_self o ho hin, hin⟩
        · rintro ⟨ho, hin⟩
          exact ⟨hin, .inl ho⟩
      have hrec := ih (fun o ho p hp => hdet o ?_ p ?_)
        (fun t ht => hnone t (List.mem_cons_of_mem _ ht)) fun t ht o ho hin => ?_
      · rw [List.foldl_cons, List.flatMap_cons, List.toFinset_append, Finset.union_left_comm, hrec,
          hconf]
        ext o
        simp only [Finset.mem_union, List.mem_toFinset, hremoved', Finset.mem_filter]
        by_cases hin : o.outpoint ∈ txs.flatMap Transaction.inputs <;> simp [hin]
      · exact ho.imp (fun ho => (Finset.mem_filter.mp (hconf ▸ ho)).1)
          fun ho => (Finset.mem_filter.mp ho).1
      · exact hp.imp (fun hp => (Finset.mem_filter.mp (hconf ▸ hp)).1)
          fun hp => (Finset.mem_filter.mp hp).1
      · obtain ⟨ho, -, hnot⟩ := Finset.mem_filter.mp ho
        rw [hconf]
        exact Finset.mem_filter.mpr ⟨hmem t (List.mem_cons_of_mem _ ht) o ho hin, hnot⟩

/-- Processing blocks leaves their records at the end of the rollback lists. -/
theorem run {all : List Transaction} (hing : ∀ tx ∈ all, Ingestible tx)
    (hdet : TxidsDetermine all) {blocks : List (List Transaction)}
    (hall : ∀ txs ∈ blocks, ∀ tx ∈ txs, tx ∈ all) {b : Bch} {v : UtxoView}
    (h : b.utxodb.Shows v) (hi : b.slpdb.Indexed)
    (hv : v.outputs ⊆ {o | ∃ tx ∈ all, o ∈ tx.outputs}) {before : List BlockRecord}
    (hrec : b.utxodb.Recorded before)
    (hlen : before.length + blocks.length ≤ Utxodb.rollbackDepth) :
    ∃ b' record, blocks.foldlM (fun b txs => b.processBlock txs true) b = .ok b' ∧
      b'.utxodb.Shows (blocks.foldl UtxoView.block v) ∧ Records v blocks record ∧
      b'.utxodb.Recorded (before ++ record) := by
  induction blocks generalizing b v before with
  | nil => exact ⟨b, [], rfl, h, .nil v, by simpa using hrec⟩
  | cons txs blocks ih =>
      have htxs : ∀ tx ∈ txs, tx ∈ all := hall txs List.mem_cons_self
      rw [List.length_cons] at hlen
      obtain ⟨b₁, hstep, hi₁⟩ := processBlock_ok hi (fun tx htx => hing tx (htxs tx htx))
        (hdet.mono htxs) true
      obtain ⟨hout, h₁, hv₁⟩ := h.step_within (e := .block txs true)
        (fun tx htx => (hing tx htx).hydrated) hdet hv htxs hstep
      obtain ⟨removed, hdb, hremoved⟩ := processBlock_record h hout hstep
      obtain ⟨b', record, hrun, h', hrecords, hrec'⟩ := ih
        (fun t ht => hall t (List.mem_cons_of_mem _ ht)) h₁ hi₁ hv₁
        (hdb ▸ (hrec.congr (Utxodb.blockUtxodb_sameRecords b.utxodb txs)).pushRollback
          (by omega) _ removed) (by simp only [List.length_append, List.length_singleton]; omega)
      refine ⟨b', _, ?_, h', .cons hremoved hrecords, ?_⟩
      · rw [List.foldlM_cons, hstep]
        exact hrun
      · rwa [List.append_assoc] at hrec'

theorem length_eq (h : Records v blocks record) : record.length = blocks.length := by
  induction h with
  | nil v => rfl
  | cons hremoved hrest ih => rw [List.length_cons, List.length_cons, ih]

theorem added_nil (h : Records v blocks record)
    (hnone : ∀ txs ∈ blocks, txs.flatMap spendable = []) : ∀ p ∈ record, p.2 = [] := by
  induction h with
  | nil v => simp
  | cons hremoved hrest ih =>
      intro p hp
      rcases List.mem_cons.mp hp with rfl | hp
      · simp [hnone _ List.mem_cons_self]
      · exact ih (fun t ht => hnone t (List.mem_cons_of_mem _ ht)) p hp

end Records

/-- Blocks that succeed are undone on the confirmed maps exactly if they create no token
output and spend no mempool output that is not confirmed as well. -/
theorem Bch.sameConfirmed_rollback_iff {events : List BchEvent} {blocks : List (List Transaction)}
    (hing : ∀ tx ∈ events.flatMap BchEvent.txs ++ blocks.flatten, Ingestible tx)
    (hdet : TxidsDetermine (events.flatMap BchEvent.txs ++ blocks.flatten))
    {s : Bch} (hs : events.foldlM Bch.step .empty = .ok s)
    (hk : blocks.length ≤ Utxodb.rollbackDepth)
    (hfresh : ∀ txs ∈ blocks, ∀ o ∈ txs.flatMap spendable, o.outpoint ∉ s.utxodb.outpointMap) :
    ∃ s', blocks.foldlM (fun b txs => b.processBlock txs true) s = .ok s' ∧
      (SameConfirmed s.utxodb (Utxodb.rollback^[blocks.length] s'.utxodb) ↔
        (∀ txs ∈ blocks, txs.flatMap spendable = []) ∧
          ∀ txs ∈ blocks, ∀ m ∈ txs.flatMap Transaction.inputs,
            m ∈ s.utxodb.mempoolOutpointMap → m ∈ s.utxodb.outpointMap) := by
  have hpast : ∀ e ∈ events, ∀ tx ∈ e.txs, tx ∈ events.flatMap BchEvent.txs ++ blocks.flatten :=
    fun e he tx htx => List.mem_append_left _ (List.mem_flatMap.mpr ⟨e, he, htx⟩)
  obtain ⟨b, hrun, hb, hi, hv⟩ := Utxodb.Shows.run (b := .empty) (v := .empty) hing hdet hpast
    .empty Slpdb.Indexed.empty (by simp [UtxoView.outputs, UtxoView.empty])
  obtain rfl := Except.ok.inj (hrun.symm.trans hs)
  set v := events.foldl UtxoView.step .empty
  have hrec := Utxodb.Recorded.run hs
  obtain ⟨b', record, hrun', hb', hrecords, hrec'⟩ := Records.run hing hdet
    (fun txs htxs tx htx => List.mem_append_right _ (List.mem_flatten.mpr ⟨txs, htxs, htx⟩))
    hb hi hv hrec (by simpa using hk)
  rw [List.nil_append] at hrec'
  refine ⟨b', hrun', ?_⟩
  have hdetAll := outpointsDetermine_outputs (fun tx htx => (hing tx htx).hydrated) hdet
  have hdetv : OutpointsDetermine v.outputs := fun o ho p hp => hdetAll o (hv ho) p (hv hp)
  have hmem := Utxodb.mem_iterate_rollback hrec'
  rw [← hrecords.length_eq]
  constructor
  · intro hsame
    rw [hsame.outpointMap] at hmem
    have hnone : ∀ txs ∈ blocks, txs.flatMap spendable = [] := by
      refine fun txs htxs => List.eq_nil_iff_forall_not_mem.mpr fun o ho => hfresh txs htxs o ho ?_
      rw [hmem]
      refine (hrecords.kept (.inr ⟨txs, htxs, ho⟩)).imp (fun ho => ?_) fun ho => ⟨o, ho, rfl⟩
      exact KeyedMap.mem_iff.mpr ⟨o, (hb'.confirmed.lookup_iff _ _).mpr ⟨ho, rfl⟩⟩
    refine ⟨hnone, fun txs htxs m hm hmempool => ?_⟩
    obtain ⟨o, ho⟩ := KeyedMap.mem_iff.mp hmempool
    obtain ⟨hov, rfl⟩ := (hb.mempool m o).mp ho
    exact (hmem _).mpr (.inr ⟨o, hrecords.mempool_recorded hnone hov ⟨txs, htxs, hm⟩, rfl⟩)
  · rintro ⟨hnone, hconf⟩
    have hunion := hrecords.union_removed hdetv hnone fun txs htxs o ho hin => by
      have hin' := hconf txs htxs _ hin
        (KeyedMap.mem_iff.mpr ⟨o, (hb.mempool _ o).mpr ⟨ho, rfl⟩⟩)
      obtain ⟨p, hp⟩ := KeyedMap.mem_iff.mp hin'
      obtain ⟨hpv, hpo⟩ := (hb.confirmed.lookup_iff _ _).mp hp
      exact hdetv p (.inl hpv) o (.inr ho) hpo ▸ hpv
    refine hb.confirmed.sameConfirmed ?_
    rw [← hunion]
    refine Utxodb.iterate_rollback_confirmedAt hrec' (hrecords.added_nil hnone) hb'.confirmed ?_
    have hsub : ∀ o ∈ (↑(blocks.foldl UtxoView.block v).confirmed ∪
        {o | o ∈ record.flatMap Prod.fst} : Set Output), o ∈ v.confirmed := by
      intro o ho
      rw [← hunion, Finset.mem_union, List.mem_toFinset]
      exact ho
    exact fun o ho p hp => hdetv o (.inl (hsub o ho)) p (.inl (hsub p hp))

/-- `k` blocks succeed and `k` rollbacks undo them on the confirmed maps exactly if every
GENESIS and MINT among their transactions has two outputs, they create no token output and
they spend no mempool output that is not confirmed as well. -/
theorem Bch.rollback_iff {events : List BchEvent} {blocks : List (List Transaction)}
    (hhyd : ∀ tx ∈ events.flatMap BchEvent.txs ++ blocks.flatten, tx.Hydrated)
    (hdet : TxidsDetermine (events.flatMap BchEvent.txs ++ blocks.flatten))
    {s : Bch} (hs : events.foldlM Bch.step .empty = .ok s)
    (hk : blocks.length ≤ Utxodb.rollbackDepth)
    (hfresh : ∀ txs ∈ blocks, ∀ o ∈ txs.flatMap spendable, o.outpoint ∉ s.utxodb.outpointMap) :
    (∃ s', blocks.foldlM (fun b txs => b.processBlock txs true) s = .ok s' ∧
      SameConfirmed s.utxodb (Utxodb.rollback^[blocks.length] s'.utxodb)) ↔
    (∀ tx ∈ blocks.flatten, tx.slp.type = .genesis ∨ tx.slp.type = .mint →
        2 ≤ tx.outputs.length) ∧
      (∀ txs ∈ blocks, txs.flatMap spendable = []) ∧
        ∀ txs ∈ blocks, ∀ m ∈ txs.flatMap Transaction.inputs,
          m ∈ s.utxodb.mempoolOutpointMap → m ∈ s.utxodb.outpointMap := by
  have hcore : (∀ tx ∈ blocks.flatten, Ingestible tx) → _ := fun hblocks =>
    Bch.sameConfirmed_rollback_iff (fun tx htx => (List.mem_append.mp htx).elim
      (fun hpast => Bch.ingestible_of_run hs hpast (hhyd tx htx)) (hblocks tx)) hdet hs hk hfresh
  constructor
  · intro h
    obtain ⟨s', hs', hsame⟩ := h
    have hblocks : ∀ tx ∈ blocks.flatten, Ingestible tx := by
      intro tx htx
      obtain ⟨txs, htxs, hin⟩ := List.mem_flatten.mp htx
      obtain ⟨b₁, b₂, hstep⟩ := exists_step_ok hs' htxs
      exact Bch.ingestible_of_step (e := .block txs true) hstep hin
        (hhyd tx (List.mem_append_right _ htx))
    obtain ⟨s₁, hs₁, hiff⟩ := hcore hblocks
    obtain rfl := Except.ok.inj (hs₁.symm.trans hs')
    exact ⟨fun tx htx => (hblocks tx htx).outputs, hiff.mp hsame⟩
  · intro h
    obtain ⟨s', hs', hiff⟩ := hcore fun tx htx =>
      ⟨hhyd tx (List.mem_append_right _ htx), h.1 tx htx⟩
    exact ⟨s', hs', hiff.mpr h.2⟩

/-- A block that only burns the tokens of an earlier GENESIS. -/
theorem Bch.rollback_iff_sample :
    ∃ s s', [BchEvent.block [sampleGenesis] true].foldlM Bch.step .empty = .ok s ∧
      [[sampleBurn]].foldlM (fun b txs => b.processBlock txs true) s = .ok s' ∧
      SameConfirmed s.utxodb s'.utxodb.rollback := by
  have hmem : ∀ {tx}, tx ∈ [BchEvent.block [sampleGenesis] true].flatMap BchEvent.txs ++
      [[sampleBurn]].flatten → tx ∈ [sampleGenesis, sampleBurn] := by
    simp [BchEvent.txs]
  have hrun : ∃ s, [BchEvent.block [sampleGenesis] true].foldlM Bch.step .empty = .ok s ∧
      ⟨sampleGenesis.txid, 1⟩ ∉ s.utxodb.mempoolOutpointMap := by decide +kernel
  obtain ⟨s, hs, hnotMem⟩ := hrun
  have hhyd : ∀ tx ∈ [BchEvent.block [sampleGenesis] true].flatMap BchEvent.txs ++
      [[sampleBurn]].flatten, tx.Hydrated := fun tx htx => by
    rcases List.mem_pair.mp (hmem htx) with rfl | rfl
    · exact sampleGenesis_hydrated
    · exact sampleBurn_hydrated
  have hdet : TxidsDetermine ([BchEvent.block [sampleGenesis] true].flatMap BchEvent.txs ++
      [[sampleBurn]].flatten) := .of_nodup (by decide)
  have hnone : ∀ txs ∈ [[sampleBurn]], txs.flatMap spendable = [] := by decide +kernel
  obtain ⟨s', hs', hsame⟩ := (Bch.rollback_iff hhyd hdet hs (by decide)
    fun txs htxs o ho => by simp [hnone txs htxs] at ho).mpr
    ⟨by decide, hnone, fun txs htxs m hm hmempool => by
      rw [List.mem_singleton.mp htxs] at hm
      have hm : m = ⟨sampleGenesis.txid, 1⟩ := by simpa [sampleBurn, encoded] using hm
      exact absurd (hm ▸ hmempool) hnotMem⟩
  exact ⟨s, s', hs, hs', hsame⟩

/-- One block with a GENESIS, rolled back to the empty store: its output stays in the
outpoint map. -/
theorem Bch.rollback_fails :
    (∀ o ∈ spendable sampleGenesis, o.outpoint ∉ Bch.empty.utxodb.outpointMap) ∧
      ∃ s', Bch.empty.processBlock [sampleGenesis] true = .ok s' ∧
        ¬ SameConfirmed Bch.empty.utxodb s'.utxodb.rollback := by
  refine ⟨by decide +kernel, ?_⟩
  have hrun : ∃ s', Bch.empty.processBlock [sampleGenesis] true = .ok s' ∧
      ⟨sampleGenesis.txid, 1⟩ ∈ s'.utxodb.rollback.outpointMap := by decide +kernel
  obtain ⟨s', hs', hmem⟩ := hrun
  refine ⟨s', hs', fun hsame => ?_⟩
  rw [hsame.outpointMap] at hmem
  exact KeyedMap.notMem_empty _ hmem

end SlpGraphSearch
