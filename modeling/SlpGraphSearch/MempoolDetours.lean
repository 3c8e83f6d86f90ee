import SlpGraphSearch.UtxoView

/-!
# Detours through the mempool

Transactions that reach `bch` through the mempool first and are confirmed later
leave no trace in the answers of the queries: once every delivered mempool
transaction is confirmed, the answers are those of a store that only saw the blocks.
-/
namespace SlpGraphSearch
open Library Transaction

def BchEvent.isBlock : BchEvent → Bool
  | .block _ _ => true
  | .mempoolTx _ => false

/-- Delivered through the mempool, and no block has contained it since. -/
def Pending (past : List BchEvent) (tx : Transaction) : Prop :=
  ∃ before after, past = before ++ .mempoolTx tx :: after ∧
    ∀ txs saveRollback, .block txs saveRollback ∈ after → tx ∉ txs

theorem Pending.mempoolTx (past : List BchEvent) (tx : Transaction) :
    Pending (past ++ [.mempoolTx tx]) tx :=
  ⟨past, [], rfl, fun _ _ h => absurd h List.not_mem_nil⟩

/-- Only a block that contains the transaction ends the wait. -/
theorem Pending.concat {past : List BchEvent} {tx : Transaction} (h : Pending past tx)
    {e : BchEvent} (he : ∀ txs saveRollback, e = .block txs saveRollback → tx ∉ txs) :
    Pending (past ++ [e]) tx := by
  obtain ⟨before, after, rfl, hafter⟩ := h
  refine ⟨before, after ++ [e], by simp, fun txs saveRollback hmem => ?_⟩
  rcases List.mem_append.mp hmem with hmem | hmem
  · exact hafter txs saveRollback hmem
  · exact he txs saveRollback (List.mem_singleton.mp hmem).symm

/-- The mempool side only speaks of pending transactions. -/
structure Detour (past : List BchEvent) (v : UtxoView) : Prop where
  mempool : ∀ o ∈ v.mempool, ∃ tx, Pending past tx ∧ o ∈ spendable tx
  spent : ∀ o ∈ v.confirmed, o.outpoint ∈ v.spent → ∃ tx, Pending past tx ∧ o.outpoint ∈ tx.inputs

theorem Detour.step {past : List BchEvent} {v : UtxoView} (h : Detour past v) (e : BchEvent) :
    Detour (past ++ [e]) (v.step e) := by
  cases e with
  | block txs saveRollback =>
      have hkeep : ∀ {tx}, Pending past tx → tx ∉ txs →
          Pending (past ++ [.block txs saveRollback]) tx := fun hp hnot =>
        hp.concat fun txs' saveRollback' heq => by
          obtain ⟨rfl, -⟩ := BchEvent.block.inj heq
          exact hnot
      refine ⟨fun o ho => ?_, fun o ho hspent => ?_⟩
      · obtain ⟨ho, hcreated, -⟩ := Finset.mem_filter.mp ho
        obtain ⟨tx, hp, hos⟩ := h.mempool o ho
        refine ⟨tx, hkeep hp fun htx => hcreated ?_, hos⟩
        exact List.mem_map_of_mem (List.mem_flatMap.mpr ⟨tx, htx, hos⟩)
      · obtain ⟨hor, hinputs⟩ := Finset.mem_filter.mp ho
        obtain ⟨hspent, hcreated, -⟩ := Finset.mem_filter.mp hspent
        have hold : o ∈ v.confirmed := (Finset.mem_union.mp hor).resolve_right fun hnew =>
          hcreated (List.mem_map_of_mem (List.mem_toFinset.mp hnew))
        obtain ⟨tx, hp, hin⟩ := h.spent o hold hspent
        exact ⟨tx, hkeep hp fun htx => hinputs (List.mem_flatMap.mpr ⟨tx, htx, hin⟩), hin⟩
  | mempoolTx tx =>
      have hkeep : ∀ {t}, Pending past t → Pending (past ++ [.mempoolTx tx]) t := fun hp =>
        hp.concat fun txs saveRollback heq => by simp at heq
      refine ⟨fun o ho => ?_, fun o ho hspent => ?_⟩
      · rcases Finset.mem_union.mp ho with ho | ho
        · obtain ⟨t, hp, hos⟩ := h.mempool o ho
          exact ⟨t, hkeep hp, hos⟩
        · exact ⟨tx, .mempoolTx past tx, List.mem_toFinset.mp ho⟩
      · rcases Finset.mem_union.mp hspent with hspent | hspent
        · obtain ⟨t, hp, hin⟩ := h.spent o ho hspent
          exact ⟨t, hkeep hp, hin⟩
        · exact ⟨tx, .mempoolTx past tx, List.mem_toFinset.mp (Finset.mem_filter.mp hspent).1⟩

theorem Detour.run (events : List BchEvent) :
    Detour events (events.foldl UtxoView.step .empty) := by
  induction events using List.reverseRecOn with
  | nil => exact ⟨by simp [UtxoView.empty], by simp [UtxoView.empty]⟩
  | append_singleton events e ih =>
      rw [List.foldl_append]
      exact ih.step e

/-- Only blocks move the confirmed side. -/
theorem confirmed_foldl_filter (events : List BchEvent) (v w : UtxoView)
    (h : v.confirmed = w.confirmed) :
    (events.foldl UtxoView.step v).confirmed =
      ((events.filter BchEvent.isBlock).foldl UtxoView.step w).confirmed := by
  induction events generalizing v w with
  | nil => exact h
  | cons e events ih =>
      cases e with
      | block txs saveRollback =>
          refine ih _ _ ?_
          simp only [UtxoView.step, UtxoView.block, h]
      | mempoolTx tx => exact ih _ _ h

/-! ## Answers -/

/-- The answers of the three queries agree, up to the order of iteration. -/
structure SameAnswers (db db' : Utxodb) : Prop where
  byOutpoints : ∀ ks, db.getOutputsByOutpoints ks = db'.getOutputsByOutpoints ks
  byScriptpubkey : ∀ order order' script limit,
    (db.countedOutputs order script).length ≤ limit →
    (db'.countedOutputs order' script).length ≤ limit →
    (db.getOutputsByScriptpubkey order script limit).Nodup ∧
      (db'.getOutputsByScriptpubkey order' script limit).Nodup ∧
      ∀ o, o ∈ db.getOutputsByScriptpubkey order script limit ↔
        o ∈ db'.getOutputsByScriptpubkey order' script limit
  balance : ∀ order order' script,
    db.getBalanceByScriptpubkey order script = db'.getBalanceByScriptpubkey order' script

/-- Nothing of the mempool side shows. -/
structure UtxoView.Settled (v : UtxoView) : Prop where
  mempool : v.mempool = ∅
  spent : ∀ o ∈ v.confirmed, o.outpoint ∉ v.spent

namespace Utxodb

variable {db db' : Utxodb} {v w : UtxoView}

theorem Shows.outputByOutpoint_settled (h : db.Shows v) (hv : v.Settled) {k : Outpoint}
    {o : Output} : db.outputByOutpoint k = some o ↔ o.outpoint = k ∧ o ∈ v.confirmed := by
  rw [h.outputByOutpoint, hv.mempool]
  refine and_congr_right fun _ => ⟨?_, fun ho => .inl ⟨ho, hv.spent o ho⟩⟩
  rintro (⟨ho, -⟩ | ⟨ho, -⟩)
  · exact ho
  · exact absurd ho (Finset.notMem_empty o)

theorem Shows.mem_countedOutputs_settled (h : db.Shows v) (hv : v.Settled)
    {order : KeyedOrder Output.outpoint} {script : Scriptpubkey} {o : Output} :
    o ∈ db.countedOutputs order script ↔ o.scriptpubkey = script ∧ o ∈ v.confirmed := by
  rw [h.mem_countedOutputs]
  refine and_congr_right fun _ => ⟨?_, fun ho => .inl ⟨ho, hv.spent o ho⟩⟩
  rintro (⟨ho, -⟩ | ho)
  · exact ho
  · exact absurd (hv.mempool ▸ h.listed_subset ho) (Finset.notMem_empty o)

theorem Shows.nodup_countedOutputs (h : db.Shows v) (hv : v.Settled)
    (order : KeyedOrder Output.outpoint) (script : Scriptpubkey) :
    (db.countedOutputs order script).Nodup := by
  have hnil : bucketOutputs db.mempoolScriptpubkeyToOutput order script = [] := by
    refine List.eq_nil_iff_forall_not_mem.mpr fun o ho => ?_
    have hlisted := ((h.listed _ _ _).mp (mem_bucketOutputs.mp ho)).1
    exact absurd (hv.mempool ▸ h.listed_subset hlisted) (Finset.notMem_empty o)
  rw [countedOutputs, hnil, List.append_nil]
  exact (nodup_bucketOutputs _ _ _).filter _

/-- Two settled stores with the same confirmed outputs answer alike. -/
theorem Shows.sameAnswers (h : db.Shows v) (hv : v.Settled) (h' : db'.Shows w) (hw : w.Settled)
    (hvw : v.confirmed = w.confirmed) : SameAnswers db db' := by
  have hperm : ∀ order order' script,
      (db.countedOutputs order script).Perm (db'.countedOutputs order' script) := by
    intro order order' script
    refine (List.perm_ext_iff_of_nodup (h.nodup_countedOutputs hv order script)
      (h'.nodup_countedOutputs hw order' script)).mpr fun o => ?_
    rw [h.mem_countedOutputs_settled hv, h'.mem_countedOutputs_settled hw, hvw]
  refine ⟨fun ks => ?_, fun order order' script limit hl hl' => ?_, fun order order' script => ?_⟩
  · refine List.filterMap_congr fun k _ => Option.ext fun o => ?_
    rw [h.outputByOutpoint_settled hv, h'.outputByOutpoint_settled hw, hvw]
  · rw [getOutputsByScriptpubkey_eq hl, getOutputsByScriptpubkey_eq hl']
    exact ⟨h.nodup_countedOutputs hv order script, h'.nodup_countedOutputs hw order' script,
      fun o => (hperm order order' script).mem_iff⟩
  · rw [balance_eq_sum, balance_eq_sum]
    exact ((hperm order order' script).map Output.value).sum_eq

end Utxodb

/-- If a later block confirms each delivered mempool transaction, the run and the run
of its blocks alone both succeed and answer every query alike. -/
theorem Bch.run_sameAnswers {events : List BchEvent}
    (hing : ∀ e ∈ events, ∀ tx ∈ e.txs, Ingestible tx)
    (hdet : TxidsDetermine (events.flatMap BchEvent.txs))
    (hconf : ∀ past tx rest, events = past ++ .mempoolTx tx :: rest →
      ∃ txs saveRollback, .block txs saveRollback ∈ rest ∧ tx ∈ txs) :
    ∃ b b', events.foldlM Bch.step .empty = .ok b ∧
      (events.filter BchEvent.isBlock).foldlM Bch.step .empty = .ok b' ∧
      SameAnswers b.utxodb b'.utxodb := by
  have hsub : ∀ e ∈ events.filter BchEvent.isBlock, e ∈ events := fun e he =>
    List.mem_of_mem_filter he
  obtain ⟨b, hrun, hb⟩ := Utxodb.Shows.run_empty hing hdet
  obtain ⟨b', hrun', hb'⟩ := Utxodb.Shows.run_empty (fun e he => hing e (hsub e he))
    (hdet.mono fun t ht => by
      obtain ⟨e, he, ht⟩ := List.mem_flatMap.mp ht
      exact List.mem_flatMap.mpr ⟨e, hsub e he, ht⟩)
  -- Without mempool events, or once all of them are confirmed, nothing is pending.
  have hsettled : ∀ es : List BchEvent, (∀ tx, ¬ Pending es tx) →
      (es.foldl UtxoView.step .empty).Settled := by
    intro es hnone
    refine ⟨Finset.eq_empty_iff_forall_notMem.mpr fun o ho => ?_, fun o ho hspent => ?_⟩
    · obtain ⟨tx, hp, -⟩ := (Detour.run es).mempool o ho
      exact hnone tx hp
    · obtain ⟨tx, hp, -⟩ := (Detour.run es).spent o ho hspent
      exact hnone tx hp
  refine ⟨b, b', hrun, hrun', hb.sameAnswers (hsettled _ ?_) hb' (hsettled _ ?_)
    (confirmed_foldl_filter events _ _ rfl)⟩
  · rintro tx ⟨before, after, rfl, hafter⟩
    obtain ⟨txs, saveRollback, hmem, htx⟩ := hconf before tx after rfl
    exact hafter txs saveRollback hmem htx
  · rintro tx ⟨before, after, heq, -⟩
    have hmem : .mempoolTx tx ∈ events.filter BchEvent.isBlock := by simp [heq]
    simpa [BchEvent.isBlock] using List.of_mem_filter hmem

theorem Bch.run_sameAnswers_sample :
    ∃ b b', sampleEvents.foldlM Bch.step .empty = .ok b ∧
      [BchEvent.block [sampleGenesis] true, .block [sampleSend] true].foldlM Bch.step .empty =
        .ok b' ∧ SameAnswers b.utxodb b'.utxodb := by
  refine Bch.run_sameAnswers (fun e he tx htx => sampleEvents_ingestible he htx)
    sampleEvents_txidsDetermine fun past tx rest hev => ?_
  rcases past with _ | ⟨e₁, _ | ⟨e₂, _ | ⟨e₃, past⟩⟩⟩ <;>
    simp [sampleEvents] at hev
  obtain ⟨rfl, rfl, rfl⟩ := hev
  exact ⟨[sampleSend], true, by simp, by simp⟩

end SlpGraphSearch
