import SlpGraphSearch.DoubleSpends
import SlpGraphSearch.SlpdbSpec

/-!
# Redelivered transactions

A transaction of a processed block may reach `process_mempool_tx` again. The mempool
path does not look at the confirmed maps: it lists the outputs of the transaction
once more, takes its inputs out of the mempool buckets or notes them as spent, and
hands it to the token store a second time. The queries and the tokens stay as they
were exactly if all of this is there already.
-/
namespace SlpGraphSearch
open Library Transaction

/-- The three queries answer alike, for all arguments and every order of iteration. -/
structure SameReplies (db db' : Utxodb) : Prop where
  byOutpoints : ∀ ks, db'.getOutputsByOutpoints ks = db.getOutputsByOutpoints ks
  byScriptpubkey : ∀ order script limit,
    db'.getOutputsByScriptpubkey order script limit = db.getOutputsByScriptpubkey order script limit
  balance : ∀ order script,
    db'.getBalanceByScriptpubkey order script = db.getBalanceByScriptpubkey order script

/-- No token has other outputs or another baton. -/
structure SameTokens (db db' : Slpdb) : Prop where
  utxos : ∀ tokenid, (db'.token tokenid).utxos = (db.token tokenid).utxos
  baton : ∀ tokenid, (db'.token tokenid).mintBatonOutpoint = (db.token tokenid).mintBatonOutpoint

/-- What `process_mempool_tx` does for a transaction is there already. -/
structure Bch.Absorbs (b : Bch) (tx : Transaction) : Prop where
  outputs : ∀ o ∈ spendable tx,
    bucketLookup b.utxodb.mempoolScriptpubkeyToOutput o.scriptpubkey o.outpoint = some o
  inputs : ∀ m ∈ tx.inputs, ∀ script,
    bucketLookup b.utxodb.mempoolScriptpubkeyToOutput script m = none
  confirmed : ∀ m ∈ tx.inputs, m ∈ b.utxodb.outpointMap →
    m ∈ b.utxodb.mempoolSpentConfirmedOutpoints ∨ m ∈ b.utxodb.mempoolOutpointMap
  utxos : b.slpdb.Accepts tx → ∀ o, tx.tokenOutput o ≠ none →
    o ∈ (b.slpdb.token tx.slp.tokenid).utxos
  baton : b.slpdb.Accepts tx → ∀ o, tx.batonOutput = some o →
    (b.slpdb.token tx.slp.tokenid).mintBatonOutpoint = some o

/-! ## Queries -/

namespace Utxodb

variable {db db' : Utxodb} {v w : UtxoView}

/-- Buckets with the same entries are iterated alike. -/
theorem bucketOutputs_congr {idx idx' : HashMap Scriptpubkey OutpointMap}
    {script : Scriptpubkey} (h : ∀ k, bucketLookup idx script k = bucketLookup idx' script k)
    (order : KeyedOrder Output.outpoint) :
    bucketOutputs idx order script = bucketOutputs idx' order script := by
  have hempty : ∀ bucket : OutpointMap, (∀ k, bucket.lookup k = none) → order.list bucket = [] :=
    fun bucket hnone => List.eq_nil_iff_forall_not_mem.mpr fun o ho => by
      have hlookup := order.mem_list.mp ho
      rw [hnone] at hlookup
      simp at hlookup
  unfold bucketLookup at h
  unfold bucketOutputs
  cases hl : idx.lookup script with
  | none =>
      cases hl' : idx'.lookup script with
      | none => rfl
      | some bucket' => exact (hempty bucket' fun k => by simpa [hl, hl'] using (h k).symm).symm
  | some bucket =>
      cases hl' : idx'.lookup script with
      | none => exact hempty bucket fun k => by simpa [hl, hl'] using h k
      | some bucket' =>
          have heq : bucket = bucket' := KeyedMap.ext_lookup fun k => by
            simpa [hl, hl'] using h k
          rw [heq]

/-- The queries depend on the mempool outputs, on the listed ones, and on which
confirmed outputs are noted as spent. -/
theorem Shows.sameReplies (h : db.Shows v) (h' : db'.Shows w) (hsame : SameConfirmed db db')
    (hc : w.confirmed = v.confirmed) (hm : w.mempool = v.mempool) (hl : w.listed = v.listed)
    (hs : ∀ o ∈ v.confirmed, o.outpoint ∈ w.spent ↔ o.outpoint ∈ v.spent) :
    SameReplies db db' := by
  have hmempool : ∀ order script, bucketOutputs db'.mempoolScriptpubkeyToOutput order script =
      bucketOutputs db.mempoolScriptpubkeyToOutput order script := fun order script =>
    bucketOutputs_congr (fun k => Option.ext fun o => by rw [h.listed, h'.listed, hl]) order
  have hconf : ∀ order script,
      (bucketOutputs db'.scriptpubkeyToOutput order script).filter
        (fun u => u.outpoint ∉ db'.mempoolSpentConfirmedOutpoints) =
      (bucketOutputs db.scriptpubkeyToOutput order script).filter
        (fun u => u.outpoint ∉ db.mempoolSpentConfirmedOutpoints) := by
    intro order script
    rw [hsame.2]
    refine List.filter_congr fun o ho => ?_
    rw [mem_bucketOutputs, h.confirmed.inverse.entry, h.confirmed.lookup_iff] at ho
    rw [h.spent, h'.spent, decide_eq_decide, not_iff_not, hs o ho.1.1]
  refine ⟨fun ks => List.filterMap_congr fun k _ => Option.ext fun o => ?_,
    fun order script limit => ?_, fun order script => ?_⟩
  · rw [h.outputByOutpoint, h'.outputByOutpoint, hc, hm]
    refine and_congr_right fun _ => or_congr_left (and_congr_right fun ho => ?_)
    rw [hs o ho]
  · rw [getOutputsByScriptpubkey_cases, getOutputsByScriptpubkey_cases, hconf, hmempool]
  · rw [getBalanceByScriptpubkey, getBalanceByScriptpubkey, countedOutputs, countedOutputs, hconf,
      hmempool]

/-- How often a script lists an output. -/
theorem Shows.count_countedOutputs (h : db.Shows v) (order : KeyedOrder Output.outpoint)
    (o : Output) : (db.countedOutputs order o.scriptpubkey).count o =
      (if o ∈ v.confirmed ∧ o.outpoint ∉ v.spent then 1 else 0) +
        if o ∈ v.listed then 1 else 0 := by
  rw [countedOutputs, List.count_append,
    ((nodup_bucketOutputs _ _ _).filter _).count, (nodup_bucketOutputs _ _ _).count]
  simp only [List.mem_filter, mem_bucketOutputs, h.confirmed.inverse.entry, h.confirmed.lookup_iff,
    h.listed, h.spent, and_true, decide_eq_true_eq]

end Utxodb

/-- Equal answers are equal lists of counted outputs. -/
theorem SameReplies.countedOutputs {db db' : Utxodb} (h : SameReplies db db')
    (order : KeyedOrder Output.outpoint) (script : Scriptpubkey) :
    db'.countedOutputs order script = db.countedOutputs order script := by
  have heq := h.byScriptpubkey order script
    (max (db.countedOutputs order script).length (db'.countedOutputs order script).length)
  rwa [Utxodb.getOutputsByScriptpubkey_eq (le_max_right _ _),
    Utxodb.getOutputsByScriptpubkey_eq (le_max_left _ _)] at heq

namespace Utxodb

variable {db db' : Utxodb} {v : UtxoView} {tx : Transaction}

/-- Equal answers count every output equally often. -/
theorem Shows.count_of_sameReplies (h : db.Shows v) (h' : db'.Shows (v.mempoolTx tx))
    (hq : SameReplies db db') (o : Output) :
    ((if o ∈ v.confirmed ∧ o.outpoint ∉ (v.mempoolTx tx).spent then 1 else 0) +
        if o ∈ (v.mempoolTx tx).listed then 1 else 0) =
      (if o ∈ v.confirmed ∧ o.outpoint ∉ v.spent then 1 else 0) +
        if o ∈ v.listed then 1 else 0 := by
  rw [← h.count_countedOutputs (.some _) o, ← hq.countedOutputs]
  exact (h'.count_countedOutputs (.some _) o).symm

/-- An output that is listed in addition is counted once more. -/
theorem Shows.listed_of_sameReplies (h : db.Shows v) (h' : db'.Shows (v.mempoolTx tx))
    (hself : ∀ o ∈ spendable tx, o.outpoint ∉ tx.inputs) (hq : SameReplies db db') {o : Output}
    (ho : o ∈ spendable tx) : o ∈ v.listed := by
  have hs : o.outpoint ∈ (v.mempoolTx tx).spent ↔ o.outpoint ∈ v.spent := by
    refine ⟨fun hs => (Finset.mem_union.mp hs).resolve_right fun hs => ?_, Finset.mem_union_left _⟩
    exact hself o ho (List.mem_toFinset.mp (Finset.mem_filter.mp hs).1)
  have hl : o ∈ (v.mempoolTx tx).listed :=
    Finset.mem_filter.mpr ⟨Finset.mem_union_right _ (List.mem_toFinset.mpr ho), hself o ho⟩
  by_contra hnot
  have hne := h.count_of_sameReplies h' hq o
  simp only [hs, if_pos hl, if_neg hnot] at hne
  omega

/-- An input that leaves its bucket is counted less often. -/
theorem Shows.notMem_inputs_of_sameReplies (h : db.Shows v) (h' : db'.Shows (v.mempoolTx tx))
    (hq : SameReplies db db') {o : Output} (ho : o ∈ v.listed) : o.outpoint ∉ tx.inputs := by
  intro hin
  have hspent : o.outpoint ∈ v.spent → o.outpoint ∈ (v.mempoolTx tx).spent :=
    Finset.mem_union_left _
  have hl : o ∉ (v.mempoolTx tx).listed := fun hl => (Finset.mem_filter.mp hl).2 hin
  have hne := h.count_of_sameReplies h' hq o
  rw [if_neg hl, if_pos ho] at hne
  by_cases hvisible : o ∈ v.confirmed ∧ o.outpoint ∉ (v.mempoolTx tx).spent
  · rw [if_pos hvisible, if_pos ⟨hvisible.1, fun hs => hvisible.2 (hspent hs)⟩] at hne
    omega
  · rw [if_neg hvisible] at hne
    omega

/-- A confirmed output that the transaction spends was not reported before. -/
theorem Shows.spent_of_sameReplies (h : db.Shows v) (h' : db'.Shows (v.mempoolTx tx))
    (hself : ∀ o ∈ spendable tx, o.outpoint ∉ tx.inputs) (hq : SameReplies db db') {o : Output}
    (ho : o ∈ v.confirmed) (hin : o.outpoint ∈ tx.inputs) :
    o.outpoint ∈ v.spent ∨ ∃ p ∈ v.mempool, p.outpoint = o.outpoint := by
  by_contra hnot
  obtain ⟨hs, hnone⟩ := not_or.mp hnot
  have hout : o ∈ db.getOutputsByOutpoints [o.outpoint] :=
    h.mem_getOutputsByOutpoints.mpr ⟨List.mem_singleton.mpr rfl, .inl ⟨ho, hs⟩⟩
  rw [← hq.byOutpoints, h'.mem_getOutputsByOutpoints] at hout
  rcases hout.2 with ⟨-, hs'⟩ | ⟨-, hnone'⟩
  · refine hs' (Finset.mem_union_right _ (Finset.mem_filter.mpr
      ⟨List.mem_toFinset.mpr hin, fun p hp hpo => ?_⟩))
    rcases Finset.mem_union.mp hp with hp | hp
    · exact hnone ⟨p, hp, hpo⟩
    · exact hself p (List.mem_toFinset.mp hp) (hpo ▸ hin)
  · exact hnone' o ho rfl

/-- Delivering a transaction leaves the answers as they were exactly if its outputs are
listed, and its inputs are neither listed nor confirmed and reported. -/
theorem Shows.sameReplies_iff (h : db.Shows v) (h' : db'.Shows (v.mempoolTx tx))
    (hsame : SameConfirmed db db') (hself : ∀ o ∈ spendable tx, o.outpoint ∉ tx.inputs) :
    SameReplies db db' ↔ (∀ o ∈ spendable tx, o ∈ v.listed) ∧
      (∀ o ∈ v.listed, o.outpoint ∉ tx.inputs) ∧
      ∀ o ∈ v.confirmed, o.outpoint ∈ tx.inputs →
        o.outpoint ∈ v.spent ∨ ∃ p ∈ v.mempool, p.outpoint = o.outpoint := by
  constructor
  · exact fun hq => ⟨fun _ ho => h.listed_of_sameReplies h' hself hq ho,
      fun _ ho => h.notMem_inputs_of_sameReplies h' hq ho,
      fun _ ho hin => h.spent_of_sameReplies h' hself hq ho hin⟩
  · rintro ⟨houts, hlisted, hconf⟩
    have hmempool : v.mempool ∪ (spendable tx).toFinset = v.mempool :=
      Finset.union_eq_left.mpr fun o ho => h.listed_subset (houts o (List.mem_toFinset.mp ho))
    have hunion : v.listed ∪ (spendable tx).toFinset = v.listed :=
      Finset.union_eq_left.mpr fun o ho => houts o (List.mem_toFinset.mp ho)
    refine h.sameReplies h' hsame rfl hmempool ?_ fun o ho => ?_
    · simp only [UtxoView.mempoolTx, hunion]
      exact Finset.filter_true_of_mem hlisted
    · simp only [UtxoView.mempoolTx, hmempool, Finset.mem_union, Finset.mem_filter,
        List.mem_toFinset]
      refine ⟨fun hor => ?_, .inl⟩
      rcases hor with hs | ⟨hin, hnone⟩
      · exact hs
      · rcases hconf o ho hin with hs | ⟨p, hp, hpo⟩
        · exact hs
        · exact absurd hpo (hnone p hp)

end Utxodb

/-! ## Tokens -/

namespace Slpdb

variable {db : Slpdb} {tx : Transaction}

/-- What adding an accepted transaction does to the outputs and the batons, also if its
token has it already. -/
theorem addTransaction_token (htx : tx.Hydrated) (h : db.Accepts tx) (t : Tokenid) :
    (∀ o, ((db.addTransaction tx).token t).utxos.lookup o =
      ((db.token t).utxos.lookup o).or (if t = tx.slp.tokenid then tx.tokenOutput o else none)) ∧
    ((db.addTransaction tx).token t).mintBatonOutpoint =
      if t = tx.slp.tokenid then tx.batonOutput.or (db.token t).mintBatonOutpoint
      else (db.token t).mintBatonOutpoint := by
  by_cases hnew : tx.slp.type = .genesis → tx.txid ∉ db.tokens
  · have hrec := addTransaction_records htx (fun hg hmem => absurd hmem (hnew hg)) h
    exact ⟨fun o => hrec.utxos t o, hrec.baton t⟩
  -- A known GENESIS keeps its token.
  obtain ⟨htype, hmem⟩ := Classical.not_imp.mp hnew
  obtain ⟨s, hs⟩ := SlpTransaction.type_eq_genesis.mp htype
  obtain ⟨token, htoken⟩ := Finmap.mem_iff.mp (not_not.mp hmem)
  have hold := token_of_lookup htoken
  simp only [Accepts, hs] at h
  simp only [addTransaction, hs, addGenesis, if_neg (not_lt.mpr h), htoken, Option.getD_some,
    (htx.genesis hs).1, tokenOutput_genesis hs, batonOutput_genesis hs]
  by_cases ht : t = tx.txid
  · subst ht
    simp only [if_true]
    split_ifs with hbaton
    · rw [token_insert, if_pos rfl, hold]
      exact ⟨fun o => HashMap.lookup_emplace_or _ _ _ _, rfl⟩
    · rw [token_insert, if_pos rfl, hold]
      exact ⟨fun o => HashMap.lookup_emplace_or _ _ _ _, rfl⟩
  · simp only [if_neg ht]
    split_ifs with hbaton
    · rw [token_insert, if_neg ht]
      exact ⟨fun o => (Option.or_none).symm, rfl⟩
    · rw [token_insert, if_neg ht]
      exact ⟨fun o => (Option.or_none).symm, rfl⟩

/-- Adding a transaction leaves the tokens as they were exactly if it is dropped or its
outputs and its baton are there already. -/
theorem sameTokens_iff (htx : tx.Hydrated) : SameTokens db (db.addTransaction tx) ↔
    (db.Accepts tx → ∀ o, tx.tokenOutput o ≠ none → o ∈ (db.token tx.slp.tokenid).utxos) ∧
      (db.Accepts tx → ∀ o, tx.batonOutput = some o →
        (db.token tx.slp.tokenid).mintBatonOutpoint = some o) := by
  by_cases h : db.Accepts tx
  swap
  · rw [addTransaction_dropped h]
    exact iff_of_true ⟨fun _ => rfl, fun _ => rfl⟩
      ⟨fun hacc => absurd hacc h, fun hacc => absurd hacc h⟩
  constructor
  · intro hsame
    obtain ⟨hutxos, hbaton⟩ := addTransaction_token htx h tx.slp.tokenid
    refine ⟨fun _ o ho => ?_, fun _ o ho => ?_⟩
    · have hlookup := hutxos o
      rw [hsame.utxos, if_pos rfl] at hlookup
      by_contra hnot
      rw [Finmap.lookup_eq_none.mpr hnot, Option.none_or] at hlookup
      exact ho hlookup.symm
    · rw [← hsame.baton, hbaton, if_pos rfl, ho, Option.some_or]
  · rintro ⟨houts, hbatons⟩
    refine ⟨fun t => Finmap.ext_lookup fun o => ?_, fun t => ?_⟩
    · rw [(addTransaction_token htx h t).1]
      split_ifs with ht
      · subst ht
        cases hl : (db.token tx.slp.tokenid).utxos.lookup o with
        | some u => rfl
        | none =>
            rw [Option.none_or]
            by_contra hne
            exact Finmap.lookup_eq_none.mp hl (houts h o hne)
      · exact Option.or_none
    · rw [(addTransaction_token htx h t).2]
      split_ifs with ht
      · subst ht
        cases hb : tx.batonOutput with
        | none => rfl
        | some o => exact (hbatons h o hb).symm
      · rfl

end Slpdb

/-! ## Runs -/

namespace Bch

variable {b b' : Bch} {tx : Transaction}

/-- `Absorbs` in the view. -/
theorem absorbs_iff {v : UtxoView} (h : b.utxodb.Shows v) : b.Absorbs tx ↔
    ((∀ o ∈ spendable tx, o ∈ v.listed) ∧ (∀ o ∈ v.listed, o.outpoint ∉ tx.inputs) ∧
      ∀ o ∈ v.confirmed, o.outpoint ∈ tx.inputs →
        o.outpoint ∈ v.spent ∨ ∃ p ∈ v.mempool, p.outpoint = o.outpoint) ∧
    (b.slpdb.Accepts tx → ∀ o, tx.tokenOutput o ≠ none →
      o ∈ (b.slpdb.token tx.slp.tokenid).utxos) ∧
    (b.slpdb.Accepts tx → ∀ o, tx.batonOutput = some o →
      (b.slpdb.token tx.slp.tokenid).mintBatonOutpoint = some o) := by
  have hmem : ∀ m, m ∈ b.utxodb.mempoolOutpointMap ↔ ∃ p ∈ v.mempool, p.outpoint = m := fun m => by
    simp only [KeyedMap.mem_iff, h.mempool]
  constructor
  · intro hb
    refine ⟨⟨fun o ho => ((h.listed _ _ _).mp (hb.outputs o ho)).1, fun o ho hin => ?_,
      fun o ho hin => ?_⟩, hb.utxos, hb.baton⟩
    · have hl := (h.listed _ _ _).mpr ⟨ho, rfl, rfl⟩
      rw [hb.inputs _ hin] at hl
      simp at hl
    · have hc : o.outpoint ∈ b.utxodb.outpointMap :=
        KeyedMap.mem_iff.mpr ⟨o, (h.confirmed.lookup_iff _ o).mpr ⟨ho, rfl⟩⟩
      rw [← h.spent, ← hmem]
      exact hb.confirmed _ hin hc
  · rintro ⟨⟨houts, hlisted, hconf⟩, hutxos, hbaton⟩
    refine ⟨fun o ho => (h.listed _ _ _).mpr ⟨houts o ho, rfl, rfl⟩, fun m hm script => ?_,
      fun m hm hc => ?_, hutxos, hbaton⟩
    · refine Option.eq_none_iff_forall_ne_some.mpr fun o ho => ?_
      obtain ⟨hl, rfl, -⟩ := (h.listed _ _ _).mp ho
      exact hlisted o hl hm
    · obtain ⟨o, ho⟩ := KeyedMap.mem_iff.mp hc
      obtain ⟨hconfirmed, rfl⟩ := (h.confirmed.lookup_iff _ o).mp ho
      rw [h.spent, hmem]
      exact hconf o hconfirmed hm

/-- In every state that a run reaches, delivering a transaction of a processed block again
succeeds, and it changes no answer and no token exactly if all that it does is there
already. -/
theorem redelivery_iff {events : List BchEvent}
    (hhyd : ∀ tx ∈ events.flatMap BchEvent.txs, tx.Hydrated)
    (hdet : TxidsDetermine (events.flatMap BchEvent.txs))
    (hacyc : AcyclicList (events.flatMap BchEvent.txs))
    (hrun : events.foldlM Bch.step .empty = .ok b) {txs : List Transaction} {saveRollback : Bool}
    (hblock : .block txs saveRollback ∈ events) (htx : tx ∈ txs) :
    ∃ b', b.processMempoolTx tx = .ok b' ∧
      (SameReplies b.utxodb b'.utxodb ∧ SameTokens b.slpdb b'.slpdb ↔ b.Absorbs tx) := by
  have hall : ∀ e ∈ events, ∀ t ∈ e.txs, t ∈ events.flatMap BchEvent.txs := fun e he t ht =>
    List.mem_flatMap.mpr ⟨e, he, ht⟩
  have hmem : tx ∈ events.flatMap BchEvent.txs := hall _ hblock tx htx
  obtain ⟨b₁, b₂, hstep⟩ := exists_step_ok hrun hblock
  obtain ⟨oss, hoss, -⟩ := bind_eq_ok.mp (show b₁.processBlock txs saveRollback = .ok b₂ from hstep)
  obtain ⟨outputs, houtputs⟩ := exists_ok_of_mapM_ok hoss htx
  have hb' : ∃ b', b.processMempoolTx tx = .ok b' := by
    simp only [Bch.processMempoolTx, houtputs, bind, Except.bind]
    exact ⟨_, rfl⟩
  obtain ⟨b', hb'⟩ := hb'
  obtain ⟨hshows, hv⟩ := Utxodb.Shows.of_run hhyd hdet hall .empty
    (by simp [UtxoView.outputs, UtxoView.empty]) hrun
  obtain ⟨-, hshows', -⟩ := hshows.step_within (e := .mempoolTx tx) hhyd hdet hv
    (fun t ht => List.mem_singleton.mp ht ▸ hmem) hb'
  have hself : ∀ o ∈ spendable tx, o.outpoint ∉ tx.inputs := fun o ho =>
    hacyc.notMem_own_inputs hdet hmem (hhyd tx hmem) ho
  refine ⟨b', hb', ?_⟩
  rw [absorbs_iff hshows, slpdb_of_processMempoolTx hb', Slpdb.sameTokens_iff (hhyd tx hmem),
    hshows.sameReplies_iff hshows' (processMempoolTx_sameConfirmed hb') hself]

/-- A SEND that comes through the mempool after its block. -/
def redeliveredEvents : List BchEvent :=
  [.block [sampleGenesis] true, .block [sampleSend] true, .mempoolTx sampleSend]

/-- Arriving once more, the SEND leaves no trace. -/
theorem redelivery_iff_sample :
    ∃ b b', redeliveredEvents.foldlM Bch.step .empty = .ok b ∧
      b.processMempoolTx sampleSend = .ok b' ∧ (spendable sampleSend).length = 2 ∧
      SameReplies b.utxodb b'.utxodb ∧ SameTokens b.slpdb b'.slpdb := by
  have hrun : ∃ b, redeliveredEvents.foldlM Bch.step .empty = .ok b ∧
      (∀ o ∈ spendable sampleSend,
        bucketLookup b.utxodb.mempoolScriptpubkeyToOutput o.scriptpubkey o.outpoint = some o) ∧
      (∀ m ∈ sampleSend.inputs, ∀ script ∈ b.utxodb.mempoolScriptpubkeyToOutput.keys,
        bucketLookup b.utxodb.mempoolScriptpubkeyToOutput script m = none) ∧
      (∀ m ∈ sampleSend.inputs, m ∉ b.utxodb.outpointMap) ∧
      ∀ i < 2, ⟨sampleSend.txid, UInt32.ofNat (i + 1)⟩ ∈
        (b.slpdb.token sampleSend.slp.tokenid).utxos := by
    decide +kernel
  obtain ⟨b, hb, houtputs, hbuckets, hspent, hutxos⟩ := hrun
  have hmem : ∀ t, t ∈ redeliveredEvents.flatMap BchEvent.txs ↔
      t ∈ [sampleGenesis, sampleSend] := by
    simp [redeliveredEvents, BchEvent.txs]
  have hboth : TxidsDetermine [sampleGenesis, sampleSend] := .of_nodup (by decide)
  have hdet : TxidsDetermine (redeliveredEvents.flatMap BchEvent.txs) :=
    hboth.mono fun t ht => (hmem t).mp ht
  have hacyc : AcyclicList [sampleGenesis, sampleSend] :=
    Ledger.acyclic_of_parentsFirst (by decide) (by decide) (by decide)
  obtain ⟨b', hb', hiff⟩ := Bch.redelivery_iff
    (by simp [redeliveredEvents, BchEvent.txs, sampleGenesis_hydrated, sampleSend_hydrated])
    hdet (hacyc.of_mem_iff hdet hmem) hb (List.mem_cons_of_mem _ List.mem_cons_self)
    (show sampleSend ∈ [sampleSend] by simp)
  have hnobaton : sampleSend.batonOutput = none := rfl
  refine ⟨b, b', hb, hb', by decide, hiff.mpr ⟨houtputs, fun m hm script => ?_,
    fun m hm hc => absurd hc (hspent m hm), fun _ o ho => ?_,
    fun _ o ho => absurd (hnobaton.symm.trans ho) (by simp)⟩⟩
  · by_cases hbucket : script ∈ b.utxodb.mempoolScriptpubkeyToOutput
    · exact hbuckets m hm script (Finmap.mem_keys.mpr hbucket)
    · rw [bucketLookup, Finmap.lookup_eq_none.mpr hbucket, Option.bind_none]
  · obtain ⟨u, hu⟩ := Option.ne_none_iff_exists'.mp ho
    obtain ⟨i, amount, hi, rfl, -⟩ := (tokenOutput_send sampleSend_hydrated rfl).mp hu
    exact hutxos i (List.getElem?_eq_some_iff.mp hi).1

/-- A GENESIS that arrives again after its quantity was spent: the spent output is
reported again, and it is back among the outputs of the token. -/
theorem redelivery_fails :
    (∀ tx ∈ [sampleGenesis, sampleSend], tx.Hydrated) ∧
      TxidsDetermine [sampleGenesis, sampleSend] ∧ AcyclicList [sampleGenesis, sampleSend] ∧
      ∃ b, [BchEvent.block [sampleGenesis] true, .block [sampleSend] true].foldlM Bch.step .empty =
          .ok b ∧
        ∃ b', b.processMempoolTx sampleGenesis = .ok b' ∧
          ¬ SameReplies b.utxodb b'.utxodb ∧ ¬ SameTokens b.slpdb b'.slpdb := by
  refine ⟨by simp [sampleGenesis_hydrated, sampleSend_hydrated],
    .of_nodup (by decide),
    Ledger.acyclic_of_parentsFirst (by decide) (by decide) (by decide), ?_⟩
  have hrun : ∃ b, [BchEvent.block [sampleGenesis] true, .block [sampleSend] true].foldlM
      Bch.step .empty = .ok b ∧ ∃ b', b.processMempoolTx sampleGenesis = .ok b' ∧
        b'.utxodb.getOutputsByOutpoints [⟨sampleGenesis.txid, 1⟩] ≠
          b.utxodb.getOutputsByOutpoints [⟨sampleGenesis.txid, 1⟩] ∧
        (b'.slpdb.token sampleGenesis.txid).utxos.lookup ⟨sampleGenesis.txid, 1⟩ ≠
          (b.slpdb.token sampleGenesis.txid).utxos.lookup ⟨sampleGenesis.txid, 1⟩ := by
    decide +kernel
  obtain ⟨b, hb, b', hb', hout, hutxo⟩ := hrun
  refine ⟨b, hb, b', hb', fun hq => hout (hq.byOutpoints _), fun ht => hutxo ?_⟩
  rw [ht.utxos]

end Bch
end SlpGraphSearch
