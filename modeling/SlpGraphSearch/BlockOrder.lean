import SlpGraphSearch.BlockListings
import SlpGraphSearch.Rollback
import SlpGraphSearch.SyncPaths

/-!
# The order of the transactions of a block

`process_block` inserts all outputs of a block before it looks at an input, and it sorts
the SLP transactions. So a block may list its transactions in any order: the output store
is the same afterwards, up to the order inside the rollback records, and the token store
is the same in an order-free block. In another block some order leaves another store.
-/
namespace SlpGraphSearch
open Library Transaction

/-! ## Erasing from buckets -/

theorem lookup_eraseInBucket (idx : HashMap Scriptpubkey OutpointMap) (script : Scriptpubkey)
    (m : Outpoint) (s : Scriptpubkey) : (eraseInBucket idx script m).lookup s =
      if s = script then (idx.lookup script).map (KeyedMap.erase · m) else idx.lookup s := by
  unfold eraseInBucket
  cases hl : idx.lookup script with
  | none =>
      split_ifs with hs
      · rw [hs, hl, Option.map_none]
      · rfl
  | some bucket => rw [HashMap.lookup_insert, Option.map_some]

theorem lookup_eraseBucket (idx : HashMap Scriptpubkey OutpointMap) (script : Scriptpubkey)
    (m : Outpoint) (s : Scriptpubkey) : (eraseBucket idx script m).lookup s =
      if s = script then
        ((idx.lookup script).map (KeyedMap.erase · m)).filter fun bucket => !bucket.isEmpty
      else idx.lookup s := by
  unfold eraseBucket
  cases hl : idx.lookup script with
  | none =>
      split_ifs with hs
      · rw [hs, hl, Option.map_none, Option.filter_none]
      · rfl
  | some bucket =>
      rw [Option.map_some, Option.filter_some]
      by_cases hempty : (bucket.erase m).isEmpty <;>
        simp [hempty, HashMap.lookup_erase, HashMap.lookup_insert]

theorem eraseInBucket_comm (idx : HashMap Scriptpubkey OutpointMap) (s s' : Scriptpubkey)
    (m m' : Outpoint) : eraseInBucket (eraseInBucket idx s m) s' m' =
      eraseInBucket (eraseInBucket idx s' m') s m := by
  refine Finmap.ext_lookup fun script => ?_
  simp only [lookup_eraseInBucket]
  by_cases hs : s = s'
  · subst hs
    simp only [if_true, Option.map_map]
    split_ifs
    · congr 1
      funext bucket
      exact bucket.erase_comm m m'
    · rfl
  · rw [if_neg hs, if_neg (Ne.symm hs)]
    split_ifs with h h'
    · exact absurd (h'.symm.trans h) hs
    · rfl
    · rfl
    · rfl

/-- Dropping an empty bucket in between makes no difference. -/
theorem filter_erase (bucket : OutpointMap) (m m' : Outpoint) :
    (((some (bucket.erase m)).filter fun bucket => !bucket.isEmpty).map
        (KeyedMap.erase · m')).filter (fun bucket => !bucket.isEmpty) =
      (some ((bucket.erase m).erase m')).filter fun bucket => !bucket.isEmpty := by
  by_cases hempty : (bucket.erase m).isEmpty
  · simp [Option.filter_some, hempty, KeyedMap.isEmpty_erase hempty]
  · simp [Option.filter_some, hempty]

theorem eraseBucket_comm (idx : HashMap Scriptpubkey OutpointMap) (s s' : Scriptpubkey)
    (m m' : Outpoint) : eraseBucket (eraseBucket idx s m) s' m' =
      eraseBucket (eraseBucket idx s' m') s m := by
  refine Finmap.ext_lookup fun script => ?_
  simp only [lookup_eraseBucket]
  by_cases hs : s = s'
  · subst hs
    simp only [if_true]
    split_ifs
    · cases idx.lookup s with
      | none => rfl
      | some bucket => simp only [Option.map_some, filter_erase, bucket.erase_comm m m']
    · rfl
  · rw [if_neg hs, if_neg (Ne.symm hs)]
    split_ifs with h h'
    · exact absurd (h'.symm.trans h) hs
    · rfl
    · rfl
    · rfl

/-! ## What the inputs take out -/

/-- The part of the output store that the inputs of a block read, with what they removed. -/
structure TakenOut where
  outpointMap : OutpointMap
  mempoolOutpointMap : OutpointMap
  mempoolScriptpubkeyToOutput : HashMap Scriptpubkey OutpointMap
  removed : Multiset Output

namespace TakenOut

def of (db : Utxodb) (removed : List Output) : TakenOut :=
  ⟨db.outpointMap, db.mempoolOutpointMap, db.mempoolScriptpubkeyToOutput, removed⟩

/-- One input. -/
def take (s : TakenOut) (m : Outpoint) : TakenOut where
  outpointMap := s.outpointMap.erase m
  mempoolOutpointMap := s.mempoolOutpointMap.erase m
  mempoolScriptpubkeyToOutput := (s.mempoolOutpointMap.lookup m).elim
    s.mempoolScriptpubkeyToOutput fun o =>
      eraseBucket s.mempoolScriptpubkeyToOutput o.scriptpubkey o.outpoint
  removed := s.removed + (s.outpointMap.lookup m).toList + (s.mempoolOutpointMap.lookup m).toList

theorem of_spend (db : Utxodb) (removed : List Output) (m : Outpoint) :
    of (spendUtxo db m) (removed ++ (db.spendConfirmed m).2 ++
      ((db.spendConfirmed m).1.spendMempool m).2) = (of db removed).take m := by
  unfold spendUtxo Utxodb.spendMempool Utxodb.spendConfirmed
  cases hl : db.outpointMap.lookup m <;> cases hm : db.mempoolOutpointMap.lookup m
  all_goals
    simp only [of, take, hl, hm, Option.elim_none, Option.elim_some, Option.toList_none,
      Option.toList_some, KeyedMap.erase_of_lookup_none, ← Multiset.coe_add]

theorem of_spendInputs {inputs : List Outpoint} {b b' : Bch} {removed removed' : List Output}
    (h : inputs.foldlM Bch.spendInput (b, removed) = .ok (b', removed')) :
    of b'.utxodb removed' = inputs.foldl take (of b.utxodb removed) := by
  induction inputs generalizing b removed with
  | nil =>
      rw [List.foldlM_nil] at h
      obtain ⟨rfl, rfl⟩ := Prod.mk.inj (Except.ok.inj h)
      rfl
  | cons m inputs ih =>
      rw [List.foldlM_cons, bind_eq_ok] at h
      obtain ⟨acc, hstep, h⟩ := h
      obtain ⟨slpdb, -, rfl⟩ := spendInput_cases hstep
      rw [ih h, of_spend, List.foldl_cons]

theorem take_comm (s : TakenOut) (m m' : Outpoint) : (s.take m).take m' = (s.take m').take m := by
  by_cases hm : m = m'
  · rw [hm]
  have hlookup : ∀ (map : OutpointMap) (k k' : Outpoint), k ≠ k' →
      (map.erase k).lookup k' = map.lookup k' := fun map k k' hk => by
    rw [KeyedMap.lookup_erase, if_neg (Ne.symm hk)]
  simp only [take, hlookup _ m m' hm, hlookup _ m' m (Ne.symm hm), mk.injEq]
  refine ⟨s.outpointMap.erase_comm m m', s.mempoolOutpointMap.erase_comm m m', ?_, ?_⟩
  · cases s.mempoolOutpointMap.lookup m with
    | none => rfl
    | some o =>
        cases s.mempoolOutpointMap.lookup m' with
        | none => rfl
        | some o' => exact eraseBucket_comm _ _ _ _ _
  · simp only [add_assoc, add_left_comm, add_comm]

/-- The inputs of a block may come in any order. -/
theorem of_spendInputs_perm {inputs inputs' : List Outpoint} (hp : inputs.Perm inputs')
    {b c b' c' : Bch} {removed removed' removed₁ removed₁' : List Output}
    (hb : inputs.foldlM Bch.spendInput (b, removed) = .ok (b', removed'))
    (hc : inputs'.foldlM Bch.spendInput (c, removed₁) = .ok (c', removed₁'))
    (h : of b.utxodb removed = of c.utxodb removed₁) :
    of b'.utxodb removed' = of c'.utxodb removed₁' := by
  rw [of_spendInputs hb, of_spendInputs hc, h]
  exact hp.foldl_eq' (fun m _ m' _ s => take_comm s m m') _

end TakenOut

/-! ## The output store -/

/-- The same output store, up to the order inside the rollback records. -/
structure Utxodb.SameUpToOrder (db db' : Utxodb) : Prop where
  currentBlockHeight : db'.currentBlockHeight = db.currentBlockHeight
  outpointMap : db'.outpointMap = db.outpointMap
  scriptpubkeyToOutput : db'.scriptpubkeyToOutput = db.scriptpubkeyToOutput
  mempoolOutpointMap : db'.mempoolOutpointMap = db.mempoolOutpointMap
  mempoolScriptpubkeyToOutput : db'.mempoolScriptpubkeyToOutput = db.mempoolScriptpubkeyToOutput
  mempoolSpentConfirmedOutpoints :
    db'.mempoolSpentConfirmedOutpoints = db.mempoolSpentConfirmedOutpoints
  lastBlockRemoved : List.Forall₂ List.Perm db.lastBlockRemoved db'.lastBlockRemoved
  lastBlockAdded : List.Forall₂ List.Perm db.lastBlockAdded db'.lastBlockAdded

/-- A new last entry pushes out the first one of a full list. -/
theorem forall₂_push {α : Type} {R : α → α → Prop} {l l' : List α} (h : List.Forall₂ R l l')
    {a a' : α} (ha : R a a') (depth : ℕ) :
    List.Forall₂ R (if depth < (l ++ [a]).length then (l ++ [a]).drop 1 else l ++ [a])
      (if depth < (l' ++ [a']).length then (l' ++ [a']).drop 1 else l' ++ [a']) := by
  have happend : List.Forall₂ R (l ++ [a]) (l' ++ [a']) := List.rel_append h (.cons ha .nil)
  rw [happend.length_eq]
  split_ifs
  · exact List.forall₂_drop 1 happend
  · exact happend

namespace Utxodb

variable {db db' : Utxodb} {v : UtxoView} {txs txs' : List Transaction}

theorem SameUpToOrder.pushRollback (h : db.SameUpToOrder db') {added added' : List Outpoint}
    {removed removed' : List Output} (ha : added.Perm added') (hr : removed.Perm removed') :
    (db.pushRollback added removed).SameUpToOrder (db'.pushRollback added' removed') :=
  { h with
    lastBlockRemoved := forall₂_push h.lastBlockRemoved hr rollbackDepth
    lastBlockAdded := forall₂_push h.lastBlockAdded ha rollbackDepth }

theorem Shows.mempoolOutpointMap_unique (h : db.Shows v) (h' : db'.Shows v) :
    db'.mempoolOutpointMap = db.mempoolOutpointMap :=
  KeyedMap.ext_lookup fun k => Option.ext fun o => by rw [h.mempool, h'.mempool]

theorem foldl_addOutput_listed (created : List Output) (db : Utxodb) :
    (created.foldl addOutput db).mempoolScriptpubkeyToOutput =
      created.foldl (fun idx m => eraseInBucket idx m.scriptpubkey m.outpoint)
        db.mempoolScriptpubkeyToOutput := by
  induction created generalizing db with
  | nil => rfl
  | cons m created ih =>
      rw [List.foldl_cons, List.foldl_cons, ih]
      congr 1
      exact congrArg (eraseInBucket db.mempoolScriptpubkeyToOutput m.scriptpubkey)
        (db.outpointMap.key_getD_lookup m)

/-- The outputs of a block may come in any order. -/
theorem Shows.takenOut_perm (h : db.Shows v) (hp : txs.Perm txs')
    (hdet : OutpointsDetermine (v.outputs ∪ {o | ∃ tx ∈ txs, o ∈ tx.outputs})) :
    TakenOut.of ((txs.flatMap spendable).foldl Utxodb.addOutput
        { db with currentBlockHeight := db.currentBlockHeight + 1 }) [] =
      TakenOut.of ((txs'.flatMap spendable).foldl Utxodb.addOutput
        { db with currentBlockHeight := db.currentBlockHeight + 1 }) [] := by
  have hspend : (txs.flatMap spendable).Perm (txs'.flatMap spendable) := hp.flatMap_right _
  have hadd := h.blockOutputs txs hdet
  have hadd' := h.blockOutputs txs' (by simpa only [hp.mem_iff] using hdet)
  simp only [← List.toFinset_eq_of_perm _ _ hspend, ← (hspend.map Output.outpoint).mem_iff]
    at hadd'
  simp only [TakenOut.of, TakenOut.mk.injEq]
  refine ⟨(hadd'.confirmed.sameConfirmed hadd.confirmed).outpointMap,
    hadd'.mempoolOutpointMap_unique hadd, ?_, trivial⟩
  rw [foldl_addOutput_listed, foldl_addOutput_listed]
  exact hspend.foldl_eq' (fun m _ m' _ idx => eraseInBucket_comm idx _ _ _ _) _

end Utxodb

theorem UtxoView.block_perm (v : UtxoView) {txs txs' : List Transaction} (hp : txs.Perm txs') :
    v.block txs' = v.block txs := by
  have hspend : (txs.flatMap spendable).Perm (txs'.flatMap spendable) := hp.flatMap_right _
  have hin : (txs.flatMap Transaction.inputs).Perm (txs'.flatMap Transaction.inputs) :=
    hp.flatMap_right _
  simp only [UtxoView.block, confirmBlock, List.toFinset_eq_of_perm _ _ hspend,
    (hspend.map Output.outpoint).mem_iff, hin.mem_iff]

/-- A block leaves the same output store in any order of its transactions. -/
theorem utxodb_of_processBlock_perm {b c c' : Bch} {v : UtxoView} (h : b.utxodb.Shows v)
    {txs txs' : List Transaction} (hp : txs.Perm txs')
    (hdet : OutpointsDetermine (v.outputs ∪ {o | ∃ tx ∈ txs, o ∈ tx.outputs}))
    {saveRollback : Bool} (hc : b.processBlock txs saveRollback = .ok c)
    (hc' : b.processBlock txs' saveRollback = .ok c') : c.utxodb.SameUpToOrder c'.utxodb := by
  have hheight := (Server.processBlock_height hc').trans (Server.processBlock_height hc).symm
  obtain ⟨sorted, b₁, removed, -, hspend, rfl⟩ := processBlock_cases hc
  obtain ⟨sorted', b₁', removed', -, hspend', rfl⟩ := processBlock_cases hc'
  have hb₁ : b₁.utxodb = blockUtxodb b.utxodb txs := utxodb_of_spendInputs hspend
  have hb₁' : b₁'.utxodb = blockUtxodb b.utxodb txs' := utxodb_of_spendInputs hspend'
  have hshow := hb₁ ▸ h.blockUtxodb txs hdet
  have hshow' := hb₁' ▸ h.blockUtxodb txs' (by simpa only [hp.mem_iff] using hdet)
  rw [v.block_perm hp] at hshow'
  have hconf := hshow.confirmed.sameConfirmed hshow'.confirmed
  have htaken := TakenOut.of_spendInputs_perm (hp.flatMap_right _) hspend hspend'
    (h.takenOut_perm hp hdet)
  simp only [TakenOut.of, TakenOut.mk.injEq, Multiset.coe_eq_coe] at htaken
  obtain ⟨-, -, hlisted, hremoved⟩ := htaken
  have hrec := hb₁ ▸ Utxodb.blockUtxodb_sameRecords b.utxodb txs
  have hrec' := hb₁' ▸ Utxodb.blockUtxodb_sameRecords b.utxodb txs'
  have hsame : b₁'.utxodb.currentBlockHeight = b₁.utxodb.currentBlockHeight →
      b₁.utxodb.SameUpToOrder b₁'.utxodb := fun hheight =>
    { currentBlockHeight := hheight
      outpointMap := hconf.outpointMap
      scriptpubkeyToOutput := hconf.scriptpubkeyToOutput
      mempoolOutpointMap := hshow.mempoolOutpointMap_unique hshow'
      mempoolScriptpubkeyToOutput := hlisted.symm
      mempoolSpentConfirmedOutpoints := hshow'.spent.trans hshow.spent.symm
      lastBlockRemoved := by
        rw [hrec.lastBlockRemoved, hrec'.lastBlockRemoved]
        exact List.forall₂_same.mpr fun _ _ => .rfl
      lastBlockAdded := by
        rw [hrec.lastBlockAdded, hrec'.lastBlockAdded]
        exact List.forall₂_same.mpr fun _ _ => .rfl }
  split_ifs at hheight ⊢
  · exact (hsame hheight).pushRollback ((hp.flatMap_right _).map _) hremoved
  · exact hsame hheight

/-! ## The token store -/

namespace Slpdb

variable {L : Ledger} {b b' c c' : Bch} {txs txs' : List Transaction} {saveRollback : Bool}

/-- A block adds its SLP transactions in their order, and its inputs spend from that. -/
theorem processBlock_slpOrder (hmember : ∀ tx ∈ txs, L.T.lookup tx.txid = some tx)
    (hc : b.processBlock txs saveRollback = .ok c) : ∃ utxodb b₁ removed,
      (txs.flatMap Transaction.inputs).foldlM Bch.spendInput
        (⟨utxodb, (slpOrder txs).foldl Slpdb.addTransaction b.slpdb⟩, []) = .ok (b₁, removed) ∧
      c.slpdb = b₁.slpdb := by
  obtain ⟨sorted, b₁, removed, hsorted, hspend, rfl⟩ := processBlock_cases hc
  obtain rfl := Except.ok.inj (hsorted.symm.trans (Ledger.slpOrder_spec hmember).1)
  refine ⟨_, b₁, removed, hspend, ?_⟩
  split_ifs <;> rfl

theorem Keeps.step (h : b.slpdb.Keeps L) {e : BchEvent}
    (hmember : ∀ tx ∈ e.txs, L.T.lookup tx.txid = some tx) (hstep : b.step e = .ok b') :
    b'.slpdb.Keeps L := by
  cases e with
  | block txs saveRollback =>
      obtain ⟨utxodb, b₁, removed, hspend, hslpdb⟩ := processBlock_slpOrder hmember hstep
      obtain ⟨-, -, hmem, -⟩ := Ledger.slpOrder_spec hmember
      rw [hslpdb]
      exact (h.addTransactions fun tx htx => hmember tx ((hmem tx).mp htx).1).spendInputs hspend
  | mempoolTx tx =>
      rw [slpdb_of_processMempoolTx hstep]
      exact h.addTransaction (hmember tx (List.mem_singleton.mpr rfl))

theorem Keeps.run {events : List BchEvent} (h : b.slpdb.Keeps L)
    (hmember : ∀ tx ∈ events.flatMap BchEvent.txs, L.T.lookup tx.txid = some tx)
    (hrun : events.foldlM Bch.step b = .ok b') : b'.slpdb.Keeps L := by
  induction events generalizing b with
  | nil => exact Except.ok.inj hrun ▸ h
  | cons e events ih =>
      rw [List.foldlM_cons, bind_eq_ok] at hrun
      obtain ⟨b₁, hstep, hrun⟩ := hrun
      rw [List.flatMap_cons, List.forall_mem_append] at hmember
      exact ih (h.step hmember.1 hstep) hmember.2 hrun

/-- An order-free block leaves the same token store in any order of its transactions. -/
theorem Keeps.processBlock_perm (h : b.slpdb.Keeps L)
    (hmember : ∀ tx ∈ txs, L.T.lookup tx.txid = some tx)
    (hfree : b.slpdb.OrderFree (txs.filter fun tx => tx.slp.type ≠ .invalid))
    (hp : txs.Perm txs') (hc : b.processBlock txs saveRollback = .ok c)
    (hc' : b.processBlock txs' saveRollback = .ok c') : c'.slpdb = c.slpdb := by
  have hmember' : ∀ tx ∈ txs', L.T.lookup tx.txid = some tx := fun tx htx =>
    hmember tx (hp.mem_iff.mpr htx)
  obtain ⟨utxodb, b₁, removed, hspend, hslpdb⟩ := processBlock_slpOrder hmember hc
  obtain ⟨utxodb', b₁', removed', hspend', hslpdb'⟩ := processBlock_slpOrder hmember' hc'
  obtain ⟨-, hnodup, hmem, hord⟩ := Ledger.slpOrder_spec hmember
  obtain ⟨-, hnodup', hmem', hord'⟩ := Ledger.slpOrder_spec hmember'
  have horder : (slpOrder txs).foldl Slpdb.addTransaction b.slpdb =
      (slpOrder txs').foldl Slpdb.addTransaction b.slpdb :=
    h.foldl_addTransaction_eq hfree (fun t ht => hmember t (List.mem_filter.mp ht).1)
      (fun t => by simp [hmem]) (fun t => by simp [hmem', hp.mem_iff]) hnodup hnodup' hord hord'
  rw [hslpdb, hslpdb']
  exact (slpdb_of_spendInputs_perm (hp.flatMap_right _) hspend hspend' horder).symm

theorem transactions_of_spendInputs {inputs : List Outpoint} {removed removed' : List Output}
    (h : inputs.foldlM Bch.spendInput (b, removed) = .ok (b', removed')) (u : Tokenid) :
    (b'.slpdb.token u).transactions = (b.slpdb.token u).transactions ∧
      ∀ o ∉ inputs, (b'.slpdb.token u).utxos.lookup o = (b.slpdb.token u).utxos.lookup o := by
  induction inputs generalizing b removed with
  | nil =>
      rw [List.foldlM_nil] at h
      rw [← (Prod.mk.inj (Except.ok.inj h)).1]
      exact ⟨rfl, fun _ _ => rfl⟩
  | cons m inputs ih =>
      rw [List.foldlM_cons, bind_eq_ok] at h
      obtain ⟨acc, hstep, h⟩ := h
      obtain ⟨slpdb, hspend, rfl⟩ := spendInput_cases hstep
      have hs := spend_spends hspend
      obtain ⟨htransactions, hutxos⟩ := ih h
      refine ⟨htransactions.trans (hs.transactions u), fun o ho => ?_⟩
      obtain ⟨hom, ho⟩ := not_or.mp (mt List.mem_cons.mpr ho)
      rw [hutxos o ho, hs.utxos, if_neg fun hand => hom hand.1]

/-- If the order of a block does not matter, any listing of its SLP transactions leaves the
tokens as they are in the end, except for what the inputs spend. -/
theorem transactions_of_anyOrder (hmember : ∀ tx ∈ txs, L.T.lookup tx.txid = some tx)
    {db : Slpdb}
    (hany : ∀ txs', txs.Perm txs' → ∃ c, b.processBlock txs' saveRollback = .ok c ∧ c.slpdb = db)
    {l : List Transaction} (hl : Whole (txs.filter fun tx => tx.slp.type ≠ .invalid) l)
    (u : Tokenid) :
    (db.token u).transactions =
      ((l.foldl Slpdb.addTransaction b.slpdb).token u).transactions ∧
    ∀ o ∉ txs.flatMap Transaction.inputs, (db.token u).utxos.lookup o =
      ((l.foldl Slpdb.addTransaction b.slpdb).token u).utxos.lookup o := by
  obtain ⟨txs', hp, horder⟩ := hl.exists_slpOrder hmember
  obtain ⟨c, hc, rfl⟩ := hany txs' hp
  obtain ⟨utxodb, b₁, removed, hspend, hslpdb⟩ :=
    processBlock_slpOrder (fun tx htx => hmember tx (hp.mem_iff.mpr htx)) hc
  obtain ⟨htransactions, hutxos⟩ := transactions_of_spendInputs hspend u
  rw [horder] at htransactions hutxos
  rw [hslpdb]
  exact ⟨htransactions, fun o ho => hutxos o (mt (hp.flatMap_right _).mem_iff.mpr ho)⟩

/-- If the order of a block does not matter, a disputed transaction was recorded before, and
what its token lacks of the outputs is spent in the block. -/
theorem Keeps.recorded_of_disputed (h : b.slpdb.Keeps L)
    (hmember : ∀ tx ∈ txs, L.T.lookup tx.txid = some tx) {db : Slpdb}
    (hany : ∀ txs', txs.Perm txs' → ∃ c, b.processBlock txs' saveRollback = .ok c ∧ c.slpdb = db)
    {t : Transaction}
    (hd : b.slpdb.Disputed (txs.filter fun tx => tx.slp.type ≠ .invalid) t) :
    t.txid ∈ (b.slpdb.token t.slp.tokenid).transactions ∧ ∀ o, t.tokenOutput o ≠ none →
      o ∉ txs.flatMap Transaction.inputs → o ∈ (b.slpdb.token t.slp.tokenid).utxos := by
  obtain ⟨⟨l, m, hl, hacc⟩, l', m', hl', hdrop⟩ := hd
  have hin : ∀ k, Whole (txs.filter fun tx => tx.slp.type ≠ .invalid) k →
      ∀ u ∈ k, L.T.lookup u.txid = some u := fun k hk u hu =>
    hmember u (List.mem_filter.mp (hk.member u hu)).1
  have hhold := h.foldl_accepted (hin _ hl) hacc
  obtain ⟨hsame, hsame_utxos⟩ := h.foldl_dropped (hin _ hl') hl'.nodup hdrop t.slp.tokenid
  obtain ⟨htransactions, hutxos⟩ := transactions_of_anyOrder hmember hany hl t.slp.tokenid
  obtain ⟨htransactions', hutxos'⟩ := transactions_of_anyOrder hmember hany hl' t.slp.tokenid
  refine ⟨?_, fun o ho hspent => ?_⟩
  · rw [← hsame, ← htransactions', htransactions]
    exact hhold.transactions
  · have hout : o.txid = t.txid := by
      by_contra hne
      exact ho (tokenOutput_of_ne hne)
    rw [Finmap.mem_iff, ← hsame_utxos o hout, ← hutxos' o hspent, hutxos o hspent]
    exact Finmap.mem_iff.mp (hhold.utxos o ho)

/-- A MINT in line that its token has recorded, with an output that the token lacks and
that the block spends once more. -/
def Respends (db : Slpdb) (txs : List Transaction) (inputs : List Outpoint) : Prop :=
  ∃ t, db.InLine txs t ∧ t.txid ∈ (db.token t.slp.tokenid).transactions ∧
    ∃ o ∈ inputs, t.tokenOutput o ≠ none ∧ o ∉ (db.token t.slp.tokenid).utxos

/-- If the order of a block does not matter, the block is order-free or respends. -/
theorem Keeps.orderFree_or_respends (h : b.slpdb.Keeps L)
    (hmember : ∀ tx ∈ txs, L.T.lookup tx.txid = some tx) (hing : ∀ tx ∈ txs, Ingestible tx)
    {db : Slpdb}
    (hany : ∀ txs', txs.Perm txs' → ∃ c, b.processBlock txs' saveRollback = .ok c ∧ c.slpdb = db) :
    b.slpdb.OrderFree (txs.filter fun tx => tx.slp.type ≠ .invalid) ∨
      b.slpdb.Respends (txs.filter fun tx => tx.slp.type ≠ .invalid)
        (txs.flatMap Transaction.inputs) := by
  have hmember' : ∀ tx ∈ txs.filter fun tx => tx.slp.type ≠ .invalid,
      L.T.lookup tx.txid = some tx := fun tx htx => hmember tx (List.mem_filter.mp htx).1
  have houtputs : ∀ g ∈ txs.filter fun tx => tx.slp.type ≠ .invalid, g.slp.type = .genesis →
      2 ≤ g.outputs.length := fun g hg hgenesis =>
    (hing g (List.mem_filter.mp hg).1).outputs (.inl hgenesis)
  refine or_iff_not_imp_right.mpr fun hnot =>
    { opened := fun g hg t ht hgenesis htoken hun hnew hnothing => ?_
      repeated := fun g hg t ht hgenesis htoken hun _ hbaton hline => ?_ }
  · obtain ⟨hrec, -⟩ := h.recorded_of_disputed hmember hany
      (h.disputed_of_opened hmember' hg ht hgenesis (houtputs g hg hgenesis) htoken hun hnew
        hnothing)
    rw [← htoken] at hnew
    simp [Slpdb.token, Finmap.lookup_eq_none.mpr hnew] at hrec
  · obtain ⟨hrec, hutxos⟩ := h.recorded_of_disputed hmember hany
      (h.disputed_of_repeated hmember' hg hgenesis (houtputs g hg hgenesis) htoken hun hbaton hline)
    refine ⟨hrec, fun o ho => by_contra fun hlacks => ?_⟩
    by_cases hspent : o ∈ txs.flatMap Transaction.inputs
    · exact hnot ⟨t, hline, hrec, o, hspent, ho, hlacks⟩
    · exact hlacks (hutxos o ho hspent)

end Slpdb

/-! ## Any order of a block -/

/-- The same state, up to the order inside the rollback records. -/
structure Bch.SameUpToOrder (b b' : Bch) : Prop where
  utxodb : b.utxodb.SameUpToOrder b'.utxodb
  slpdb : b'.slpdb = b.slpdb

/-- A block goes through in any order of its transactions and leaves the same state. -/
def Bch.AnyOrder (b : Bch) (txs : List Transaction) (saveRollback : Bool) : Prop :=
  ∀ txs', txs.Perm txs' → ∃ c c', b.processBlock txs saveRollback = .ok c ∧
    b.processBlock txs' saveRollback = .ok c' ∧ c.SameUpToOrder c'

theorem Bch.anyOrder_of_orderFree {L : Ledger} {events : List BchEvent} {txs : List Transaction}
    (hmember : ∀ tx ∈ events.flatMap BchEvent.txs ++ txs, L.T.lookup tx.txid = some tx)
    (hing : ∀ tx ∈ events.flatMap BchEvent.txs ++ txs, Ingestible tx) {b : Bch}
    (hrun : events.foldlM Bch.step .empty = .ok b)
    (hfree : b.slpdb.OrderFree (txs.filter fun tx => tx.slp.type ≠ .invalid))
    (saveRollback : Bool) : b.AnyOrder txs saveRollback := by
  intro txs' hp
  have hdet := L.txidsDetermine hmember
  have hpast : ∀ e ∈ events, ∀ tx ∈ e.txs, tx ∈ events.flatMap BchEvent.txs ++ txs :=
    fun e he tx htx => List.mem_append_left _ (List.mem_flatMap.mpr ⟨e, he, htx⟩)
  obtain ⟨b', hrun', hb, hi, hv⟩ := Utxodb.Shows.run (b := .empty) (v := .empty) hing hdet hpast
    .empty Slpdb.Indexed.empty (by simp [UtxoView.outputs, UtxoView.empty])
  obtain rfl := Except.ok.inj (hrun'.symm.trans hrun)
  have hblock : ∀ tx ∈ txs, tx ∈ events.flatMap BchEvent.txs ++ txs := fun tx htx =>
    List.mem_append_right _ htx
  have hblock' : ∀ tx ∈ txs', tx ∈ events.flatMap BchEvent.txs ++ txs := fun tx htx =>
    hblock tx (hp.mem_iff.mpr htx)
  obtain ⟨c, hc, -⟩ := processBlock_ok hi (fun tx htx => hing tx (hblock tx htx))
    (hdet.mono hblock) saveRollback
  obtain ⟨c', hc', -⟩ := processBlock_ok hi (fun tx htx => hing tx (hblock' tx htx))
    (hdet.mono hblock') saveRollback
  obtain ⟨hout, -, -⟩ := hb.step_within (fun tx htx => (hing tx htx).hydrated) hdet hv
    (e := .block txs saveRollback) hblock hc
  have hkeeps : b'.slpdb.Keeps L := (Slpdb.Keeps.empty L).run (b := .empty)
    (fun tx htx => hmember tx (List.mem_append_left _ htx)) hrun
  exact ⟨c, c', hc, hc', utxodb_of_processBlock_perm hb hp hout hc hc',
    hkeeps.processBlock_perm (fun tx htx => hmember tx (hblock tx htx)) hfree hp hc hc'⟩

/-- From any reachable state, an order-free block leaves the same state in any order of
its transactions, and of the other blocks only one that respends may do so. -/
theorem Bch.run_anyOrder {L : Ledger} {events : List BchEvent} {txs : List Transaction}
    (hmember : ∀ tx ∈ events.flatMap BchEvent.txs ++ txs, L.T.lookup tx.txid = some tx)
    (hing : ∀ tx ∈ events.flatMap BchEvent.txs ++ txs, Ingestible tx) {b : Bch}
    (hrun : events.foldlM Bch.step .empty = .ok b) (saveRollback : Bool) :
    (b.slpdb.OrderFree (txs.filter fun tx => tx.slp.type ≠ .invalid) →
      b.AnyOrder txs saveRollback) ∧
    (b.AnyOrder txs saveRollback →
      b.slpdb.OrderFree (txs.filter fun tx => tx.slp.type ≠ .invalid) ∨
      b.slpdb.Respends (txs.filter fun tx => tx.slp.type ≠ .invalid)
        (txs.flatMap Transaction.inputs)) := by
  refine ⟨fun hfree => anyOrder_of_orderFree hmember hing hrun hfree saveRollback, fun hany => ?_⟩
  have hblock : ∀ tx ∈ txs, tx ∈ events.flatMap BchEvent.txs ++ txs := fun tx htx =>
    List.mem_append_right _ htx
  have hkeeps : b.slpdb.Keeps L := (Slpdb.Keeps.empty L).run (b := .empty)
    (fun tx htx => hmember tx (List.mem_append_left _ htx)) hrun
  obtain ⟨c, -, hc, -⟩ := hany txs .rfl
  have hsame : ∀ txs', txs.Perm txs' →
      ∃ c', b.processBlock txs' saveRollback = .ok c' ∧ c'.slpdb = c.slpdb := by
    intro txs' hp
    obtain ⟨c₁, c', hc₁, hc', hsame⟩ := hany txs' hp
    obtain rfl := Except.ok.inj (hc.symm.trans hc₁)
    exact ⟨c', hc', hsame.slpdb⟩
  exact hkeeps.orderFree_or_respends (fun tx htx => hmember tx (hblock tx htx))
    (fun tx htx => hing tx (hblock tx htx)) hsame

/-- A SEND of nothing under the token id of `sampleGenesis`, which it does not spend from. -/
def idleSend : Transaction :=
  let txid : Txid := ⟨
    [0x19, 0x62, 0x18, 0xFF, 0xCA, 0x5D, 0xF5, 0xA3, 0xEE, 0x3F, 0x32, 0xC0, 0x64, 0x1B, 0x1F,
     0xA4, 0xB4, 0xA0, 0x08, 0xF7, 0xF1, 0xA2, 0x6C, 0x36, 0x58, 0x75, 0x6B, 0x34, 0xC9, 0x60,
     0xB3, 0x72], rfl⟩
  encoded txid [⟨.zero, 7⟩] [opReturn (sendPayloads 1 sampleGenesis.txid [0]), [0x53]]
    ⟨sampleGenesis.txid, 1, .send ⟨[0]⟩⟩

theorem idleSend_hydrated : idleSend.Hydrated :=
  hydrated_encoded (by decide) (by decide) (by decide) (by decide +kernel) (by decide +kernel)

/-- A GENESIS, its MINT and the idle SEND. -/
def idleLedger : Ledger :=
  .ofList [sampleGenesis, sampleMint, idleSend]
    (by simp [sampleGenesis_hydrated, sampleMint_hydrated, idleSend_hydrated]) (by decide)
    (by decide) (by decide) (by decide)

theorem mem_idleLedger {tx : Transaction} (htx : tx ∈ [sampleGenesis, sampleMint, idleSend]) :
    idleLedger.T.lookup tx.txid = some tx ∧ Ingestible tx := by
  have hmember : idleLedger.T.lookup tx.txid = some tx := Ledger.mem_ofList.mp htx
  have hlen : ∀ tx ∈ [sampleGenesis, sampleMint, idleSend], 2 ≤ tx.outputs.length := by decide
  exact ⟨hmember, idleLedger.hydrated hmember, fun _ => hlen tx htx⟩

/-- The GENESIS is known from the mempool and comes again in a block, after its MINT. -/
theorem Bch.run_anyOrder_sample :
    ∃ b c c', [BchEvent.mempoolTx sampleGenesis].foldlM Bch.step .empty = .ok b ∧
      b.processBlock [sampleMint, sampleGenesis] true = .ok c ∧
      b.processBlock [sampleGenesis, sampleMint] true = .ok c' ∧ c.SameUpToOrder c' := by
  have hrun : ∃ b, [BchEvent.mempoolTx sampleGenesis].foldlM Bch.step .empty = .ok b ∧
      sampleGenesis.txid ∈ b.slpdb.tokens := by decide +kernel
  obtain ⟨b, hb, hknown⟩ := hrun
  have hmem : ∀ tx ∈ [BchEvent.mempoolTx sampleGenesis].flatMap BchEvent.txs ++
      [sampleMint, sampleGenesis], tx ∈ [sampleGenesis, sampleMint, idleSend] := by decide
  have hslp : [sampleMint, sampleGenesis].filter (fun tx => tx.slp.type ≠ .invalid) =
      [sampleMint, sampleGenesis] := by decide
  have hgenesis : ∀ g ∈ [sampleMint, sampleGenesis], g.slp.type = .genesis → g = sampleGenesis := by
    decide
  have hfree : b.slpdb.OrderFree [sampleMint, sampleGenesis] := by
    constructor
    · intro g hg t _ htype _ _ hnew
      exact absurd (hgenesis g hg htype ▸ hknown) hnew
    · intro g hg t ht htype _ hun _ _ hline
      obtain rfl := hgenesis g hg htype
      have hmint : t = sampleMint := by
        have hall : ∀ t ∈ [sampleMint, sampleGenesis], t.slp.type = .mint → t = sampleMint := by
          decide
        exact hall t ht hline.mint
      subst hmint
      have hnot := hun.not_spends (L := idleLedger)
        (fun tx htx => (mem_idleLedger (hmem tx (List.mem_append_right _ htx))).1)
        (by decide) (by decide)
      exact absurd rfl (hnot ⟨sampleGenesis.txid, 2⟩ (by decide))
  obtain ⟨hany, -⟩ := Bch.run_anyOrder (L := idleLedger)
    (fun tx htx => (mem_idleLedger (hmem tx htx)).1)
    (fun tx htx => (mem_idleLedger (hmem tx htx)).2) hb true
  obtain ⟨c, c', hc, hc', hsame⟩ := hany (hslp ▸ hfree) _ (.swap sampleGenesis sampleMint [])
  exact ⟨b, c, c', hb, hc, hc', hsame⟩

/-- The token records the idle SEND only if the block lists its GENESIS first. -/
theorem Bch.run_anyOrder_fails :
    (∀ tx ∈ [sampleGenesis, idleSend], idleLedger.T.lookup tx.txid = some tx ∧ Ingestible tx) ∧
      [sampleGenesis, idleSend].Perm [idleSend, sampleGenesis] ∧
      ∃ c c', Bch.empty.processBlock [sampleGenesis, idleSend] true = .ok c ∧
        Bch.empty.processBlock [idleSend, sampleGenesis] true = .ok c' ∧
        c'.slpdb.tokens ≠ c.slpdb.tokens := by
  have hmem : ∀ tx ∈ [sampleGenesis, idleSend], tx ∈ [sampleGenesis, sampleMint, idleSend] := by
    decide
  refine ⟨fun tx htx => mem_idleLedger (hmem tx htx), .swap _ _ [], ?_⟩
  have hfirst : ∃ c, Bch.empty.processBlock [sampleGenesis, idleSend] true = .ok c ∧
      idleSend.txid ∈ (c.slpdb.token sampleGenesis.txid).transactions := by decide +kernel
  have hlast : ∃ c, Bch.empty.processBlock [idleSend, sampleGenesis] true = .ok c ∧
      idleSend.txid ∉ (c.slpdb.token sampleGenesis.txid).transactions := by decide +kernel
  obtain ⟨c, hc, hin⟩ := hfirst
  obtain ⟨c', hc', hout⟩ := hlast
  refine ⟨c, c', hc, hc', fun htokens => hout ?_⟩
  rw [Slpdb.token, htokens]
  exact hin

end SlpGraphSearch
