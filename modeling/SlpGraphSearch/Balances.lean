import SlpGraphSearch.AddressQueries
import SlpGraphSearch.ServerSpec
import SlpGraphSearch.UtxoView

/-!
# Genuine balances

When the address queries count the outputs of valid transactions only. Blocks and
single transactions reach `bch` before the validator judged them, and `bch` keeps
the outputs of every transaction that parses as SLP; only mempool refreshes hand
over accepted transactions alone. So the queries are right in every run in which
each transaction whose token outputs stay on an address is accepted by the
validator when its turn comes, or was accepted before.
-/
namespace SlpGraphSearch
open Library Transaction

namespace Utxodb

/-! ## What a query lists -/

/-- What is listed for a script is in one of its buckets. -/
theorem mem_getOutputsByScriptpubkey {db : Utxodb} {order : KeyedOrder Output.outpoint}
    {script : Scriptpubkey} {limit : ℕ} {o : Output}
    (h : o ∈ db.getOutputsByScriptpubkey order script limit) :
    bucketLookup db.scriptpubkeyToOutput script o.outpoint = some o ∨
      bucketLookup db.mempoolScriptpubkeyToOutput script o.outpoint = some o := by
  have hcounted := countedOutputs_of_mem h
  rw [countedOutputs, List.mem_append, List.mem_filter, mem_bucketOutputs, mem_bucketOutputs]
    at hcounted
  exact hcounted.imp_left And.left

/-- A confirmed output is listed for its script, unless the mempool spent it or the
bucket exceeds the limit. -/
theorem mem_getOutputsByScriptpubkey_of_confirmed {db : Utxodb}
    {order : KeyedOrder Output.outpoint} {script : Scriptpubkey} {limit : ℕ} {o : Output}
    {bucket : OutpointMap} (hbucket : db.scriptpubkeyToOutput.lookup script = some bucket)
    (ho : bucket.lookup o.outpoint = some o)
    (hspent : o.outpoint ∉ db.mempoolSpentConfirmedOutpoints)
    (hlimit : bucket.toMap.keys.card ≤ limit) :
    o ∈ db.getOutputsByScriptpubkey order script limit := by
  have hlist : bucketOutputs db.scriptpubkeyToOutput order script = order.list bucket := by
    rw [bucketOutputs, hbucket]
  have hlen : ((order.list bucket).filter fun u =>
      u.outpoint ∉ db.mempoolSpentConfirmedOutpoints).length ≤ limit :=
    (List.length_filter_le _ _).trans ((order.length_list_le bucket).trans hlimit)
  have hmem : o ∈ pushUpTo limit [] ((order.list bucket).filter fun u =>
      u.outpoint ∉ db.mempoolSpentConfirmedOutpoints) := by
    rw [pushUpTo_eq (by simpa using hlen), List.nil_append]
    exact List.mem_filter.mpr ⟨order.mem_list.mpr ho, by simpa using hspent⟩
  rw [getOutputsByScriptpubkey_cases, hlist]
  simp only
  split_ifs
  · exact mem_pushUpTo_of_ret hmem
  · exact hmem

/-! ## The mempool buckets -/

/-- The mempool buckets only lost entries. -/
def MempoolShrinks (db db' : Utxodb) : Prop :=
  ∀ script k o, bucketLookup db'.mempoolScriptpubkeyToOutput script k = some o →
    bucketLookup db.mempoolScriptpubkeyToOutput script k = some o

theorem MempoolShrinks.foldl {α : Type} {f : Utxodb → α → Utxodb}
    (h : ∀ db a, MempoolShrinks db (f db a)) (as : List α) (db : Utxodb) :
    MempoolShrinks db (as.foldl f db) := by
  induction as generalizing db with
  | nil => exact fun _ _ _ => id
  | cons a as ih => exact fun script k o ho => h db a script k o (ih (f db a) script k o ho)

theorem bucketLookup_of_eraseBucket {idx : HashMap Scriptpubkey OutpointMap}
    {script s : Scriptpubkey} {m k : Outpoint} {o : Output}
    (h : bucketLookup (eraseBucket idx script m) s k = some o) :
    bucketLookup idx s k = some o := by
  rw [bucketLookup_eraseBucket] at h
  split_ifs at h
  exact h

theorem bucketLookup_of_eraseInBucket {idx : HashMap Scriptpubkey OutpointMap}
    {script s : Scriptpubkey} {m k : Outpoint} {o : Output}
    (h : bucketLookup (eraseInBucket idx script m) s k = some o) :
    bucketLookup idx s k = some o := by
  unfold eraseInBucket at h
  split at h
  · exact h
  · rename_i bucket hbucket
    rw [bucketLookup, HashMap.lookup_insert] at h
    split_ifs at h with hs
    · rw [Option.bind_some, KeyedMap.lookup_erase] at h
      split_ifs at h
      rw [bucketLookup, hs, hbucket, Option.bind_some, h]
    · exact h

theorem addOutput_mempoolShrinks (db : Utxodb) (m : Output) :
    MempoolShrinks db (db.addOutput m) := fun _ _ _ => bucketLookup_of_eraseInBucket

theorem spendUtxo_mempoolShrinks (db : Utxodb) (m : Outpoint) :
    MempoolShrinks db (spendUtxo db m) := by
  have hconfirmed : (db.spendConfirmed m).1.mempoolScriptpubkeyToOutput =
      db.mempoolScriptpubkeyToOutput := by
    unfold spendConfirmed
    split <;> rfl
  intro script k o h
  unfold spendUtxo spendMempool at h
  split at h
  · exact hconfirmed ▸ h
  · exact hconfirmed ▸ bucketLookup_of_eraseBucket h

theorem blockUtxodb_mempoolShrinks (db : Utxodb) (txs : List Transaction) :
    MempoolShrinks db (blockUtxodb db txs) := fun script k o h =>
  MempoolShrinks.foldl addOutput_mempoolShrinks (txs.flatMap spendable)
    { db with currentBlockHeight := db.currentBlockHeight + 1 } script k o
    (MempoolShrinks.foldl spendUtxo_mempoolShrinks (txs.flatMap inputs) _ script k o h)

theorem spendByMempool_mempoolShrinks (db : Utxodb) (m : Outpoint) :
    MempoolShrinks db (db.spendByMempool m) := by
  intro script k o h
  unfold spendByMempool at h
  split at h
  · exact h
  · exact bucketLookup_of_eraseBucket h

/-- A new entry of a mempool bucket comes from the transaction of the new output. -/
theorem bucketLookup_addMempoolOutput {db : Utxodb} {m o : Output} {script : Scriptpubkey}
    {k : Outpoint}
    (h : bucketLookup (db.addMempoolOutput m).mempoolScriptpubkeyToOutput script k = some o) :
    bucketLookup db.mempoolScriptpubkeyToOutput script k = some o ∨
      script = m.scriptpubkey ∧ o.prevTxId = m.prevTxId := by
  simp only [addMempoolOutput, bucketLookup_insertBucket] at h
  split_ifs at h with hk
  · obtain ⟨rfl, rfl⟩ := hk
    cases hl : bucketLookup db.mempoolScriptpubkeyToOutput m.scriptpubkey
        ((db.mempoolOutpointMap.lookup m.outpoint).getD m).outpoint with
    | some p =>
        rw [hl, Option.getD_some] at h
        exact .inl h
    | none =>
        rw [hl, Option.getD_none, Option.some.injEq] at h
        refine .inr ⟨rfl, ?_⟩
        rw [← h]
        cases hm : db.mempoolOutpointMap.lookup m.outpoint with
        | none => rfl
        | some q => exact congrArg Outpoint.txid (KeyedMap.key_lookup hm)
  · exact .inl h

theorem bucketLookup_foldl_addMempoolOutput {ms : List Output} {db : Utxodb} {o : Output}
    {script : Scriptpubkey} {k : Outpoint}
    (h : bucketLookup (ms.foldl addMempoolOutput db).mempoolScriptpubkeyToOutput script k =
      some o) :
    bucketLookup db.mempoolScriptpubkeyToOutput script k = some o ∨
      ∃ m ∈ ms, script = m.scriptpubkey ∧ o.prevTxId = m.prevTxId := by
  induction ms generalizing db with
  | nil => exact .inl h
  | cons m ms ih =>
      rcases ih h with h | ⟨p, hp, hnew⟩
      · exact (bucketLookup_addMempoolOutput h).imp_right fun h => ⟨m, List.mem_cons_self, h⟩
      · exact .inr ⟨p, List.mem_cons_of_mem _ hp, hnew⟩

end Utxodb

/-- The mempool buckets after a mempool transaction. -/
theorem bucketLookup_processMempoolTx {b b' : Bch} {tx : Transaction} (htx : tx.Hydrated)
    (h : b.processMempoolTx tx = .ok b') {script : Scriptpubkey} {k : Outpoint} {o : Output}
    (ho : bucketLookup b'.utxodb.mempoolScriptpubkeyToOutput script k = some o) :
    bucketLookup b.utxodb.mempoolScriptpubkeyToOutput script k = some o ∨
      (∃ m ∈ spendable tx, m.scriptpubkey = script) ∧ o.prevTxId = tx.txid := by
  rw [utxodb_of_processMempoolTx h] at ho
  have hadd := Utxodb.MempoolShrinks.foldl Utxodb.spendByMempool_mempoolShrinks _ _ _ _ _ ho
  refine (Utxodb.bucketLookup_foldl_addMempoolOutput hadd).imp_right ?_
  rintro ⟨m, hm, rfl, hid⟩
  exact ⟨⟨m, hm, rfl⟩, hid.trans (outpoint_txid_of_spendable htx hm)⟩

namespace Server

/-! ## The property and the condition -/

/-- Whatever the queries count or list for the scripts `A` of addresses belongs to a
valid transaction. -/
structure CountsGenuine (A : Set Scriptpubkey) (s : Server) : Prop where
  outputs : ∀ order, ∀ script ∈ A, ∀ o ∈ s.addressOutputs order script,
    o.prevTxId ∈ s.validator.valid
  utxos : ∀ order, ∀ script ∈ A, ∀ us, s.slpUtxos order script = .ok us →
    ∀ u ∈ us, u.txid ∈ s.validator.valid
  balance : ∀ order, ∀ script ∈ A, ∀ tokenid r, s.slpTokenBalance order script tokenid = .ok r →
    r.value = (((s.addressOutputs order script).filter fun o =>
      o.prevTxId ∈ s.validator.valid).map (s.tokenAmount tokenid)).sum
  allBalances : ∀ order balanceOrder, ∀ script ∈ A, ∀ rs,
    s.slpAllTokenBalances order balanceOrder script = .ok rs → ∀ r ∈ rs,
    r.value = (((s.addressOutputs order script).filter fun o =>
      o.prevTxId ∈ s.validator.valid).map (s.tokenAmount r.tokenid)).sum

theorem countsGenuine_of_outputs {A : Set Scriptpubkey} {s : Server}
    (h : ∀ order, ∀ script ∈ A, ∀ o ∈ s.addressOutputs order script,
      o.prevTxId ∈ s.validator.valid) : CountsGenuine A s := by
  have hfilter : ∀ order, ∀ script ∈ A, ((s.addressOutputs order script).filter fun o =>
      o.prevTxId ∈ s.validator.valid) = s.addressOutputs order script := by
    intro order script hscript
    exact List.filter_eq_self.mpr fun o ho => by simpa using h order script hscript o ho
  refine ⟨h, fun order script hscript us hus u hu => ?_,
    fun order script hscript tokenid r hr => ?_,
    fun order balanceOrder script hscript rs hrs r hr => ?_⟩
  · obtain ⟨o, ho, hou⟩ := slpUtxos_outpoints hus hu
    have hid : o.prevTxId = u.txid := congrArg Outpoint.txid hou
    exact hid ▸ h order script hscript o ho
  · rw [hfilter order script hscript, slpTokenBalance_value hr]
  · rw [hfilter order script hscript, slpAllTokenBalances_value hrs hr]

/-- In its turn the transaction is already valid, or new and accepted. -/
def AcceptedInTurn (v : Validator) (trusted : Bool) (tx : Transaction) : Prop :=
  tx.txid ∈ v.valid ∨ tx.txid ∉ v.transactionMap ∧ ∃ v', v.addTx tx trusted = .ok (true, v')

/-- Every transaction that puts a token output on an address is accepted in its
turn, unless the block spends the output itself. Mempool refreshes need nothing. -/
def HandsGenuine (A : Set Scriptpubkey) (s : Server) : Event → Prop
  | .block _ txs trusted => ∀ before tx after, txs = before ++ tx :: after →
      (∃ o ∈ spendable tx, o.scriptpubkey ∈ A ∧ o.outpoint ∉ txs.flatMap Transaction.inputs) →
      ∀ v l, s.offerTxs before trusted = .ok (v, l) → AcceptedInTurn v trusted tx
  | .mempool _ _ => True
  | .rawtx tx => (∃ o ∈ spendable tx, o.scriptpubkey ∈ A) → AcceptedInTurn s.validator false tx

/-! ## Steps -/

theorem AcceptedInTurn.mem_valid {v v' : Validator} {acc acc' : List Transaction}
    {tx : Transaction} {trusted : Bool} (h : AcceptedInTurn v trusted tx)
    (hoffer : offerTx trusted (v, acc) tx = .ok (v', acc')) : tx.txid ∈ v'.valid := by
  rcases h with h | ⟨hnew, v₁, hadd⟩
  · obtain ⟨l, -, hj⟩ := judged_offerTx hoffer
    exact (hj.valid_iff _).mpr (.inl h)
  · have hj := judged_addTx hnew hadd
    rw [offerTx, if_neg (by simpa [Validator.has] using hnew)] at hoffer
    simp only [hadd, bind, Except.bind, Except.ok.injEq, Prod.mk.injEq] at hoffer
    rw [← hoffer.1]
    exact (hj.valid_iff _).mpr (.inr ⟨tx, by simp, rfl⟩)

/-- What is accepted in its turn is valid after the loop. -/
theorem AcceptedInTurn.mem_valid_of_offerTxs {s : Server} {v' : Validator}
    (before after : List Transaction) {l : List Transaction} {tx : Transaction} {trusted : Bool}
    (h : ∀ v l, s.offerTxs before trusted = .ok (v, l) → AcceptedInTurn v trusted tx)
    (hoffer : s.offerTxs (before ++ tx :: after) trusted = .ok (v', l)) :
    tx.txid ∈ v'.valid := by
  rw [offerTxs, List.foldlM_append, bind_eq_ok] at hoffer
  obtain ⟨⟨v, acc⟩, hbefore, hoffer⟩ := hoffer
  rw [List.foldlM_cons, bind_eq_ok] at hoffer
  obtain ⟨⟨v₁, acc₁⟩, hstep, hrest⟩ := hoffer
  obtain ⟨l', -, hj⟩ := judged_foldlM_offerTx hrest
  exact (hj.valid_iff _).mpr (.inl ((h v acc hbefore).mem_valid hstep))

/-- The outputs of the store that lie on addresses come from valid transactions. -/
structure Backed (A : Set Scriptpubkey) (all : List Transaction) (s : Server) : Prop where
  utxosync : s.utxosync = true
  confirmed : ∃ S, ConfirmedAt s.bch.utxodb S ∧ (∀ o ∈ S, ∃ tx ∈ all, o ∈ tx.outputs) ∧
    ∀ o ∈ S, o.scriptpubkey ∈ A → o.prevTxId ∈ s.validator.valid
  mempool : ∀ script ∈ A, ∀ k o,
    bucketLookup s.bch.utxodb.mempoolScriptpubkeyToOutput script k = some o →
      o.prevTxId ∈ s.validator.valid

variable {A : Set Scriptpubkey} {all : List Transaction}

theorem Backed.empty : Backed A all (.empty true) where
  utxosync := rfl
  confirmed := ⟨∅, ConfirmedAt.empty, by simp, by simp⟩
  mempool script _ k o h := by
    simp [Server.empty, Bch.empty, Utxodb.empty, bucketLookup, Finmap.lookup_empty] at h

theorem Backed.countsGenuine {s : Server} (h : Backed A all s) : CountsGenuine A s := by
  refine countsGenuine_of_outputs fun order script hscript o ho => ?_
  obtain ⟨S, hS, -, hvalid⟩ := h.confirmed
  rcases Utxodb.mem_getOutputsByScriptpubkey ho with ho | ho
  · obtain ⟨hl, rfl⟩ := (hS.inverse.entry script o.outpoint o).mp ho
    exact hvalid o ((hS.lookup_iff _ _).mp hl).1 hscript
  · exact h.mempool script hscript _ o ho

theorem foldlM_processMempoolTx_backed {V : Finset Txid} {txs : List Transaction} {b b' : Bch}
    (hhyd : ∀ tx ∈ txs, tx.Hydrated)
    (hV : ∀ tx ∈ txs, (∃ m ∈ spendable tx, m.scriptpubkey ∈ A) → tx.txid ∈ V)
    (hb : ∀ script ∈ A, ∀ k o,
      bucketLookup b.utxodb.mempoolScriptpubkeyToOutput script k = some o → o.prevTxId ∈ V)
    (h : txs.foldlM Bch.processMempoolTx b = .ok b') :
    SameConfirmed b.utxodb b'.utxodb ∧ ∀ script ∈ A, ∀ k o,
      bucketLookup b'.utxodb.mempoolScriptpubkeyToOutput script k = some o → o.prevTxId ∈ V := by
  induction txs generalizing b with
  | nil =>
      rw [List.foldlM_nil] at h
      rw [← Except.ok.inj h]
      exact ⟨.refl _, hb⟩
  | cons tx txs ih =>
      rw [List.foldlM_cons, bind_eq_ok] at h
      obtain ⟨b₁, hstep, h⟩ := h
      have htx := hhyd tx List.mem_cons_self
      obtain ⟨hsame, hrest⟩ := ih (fun t ht => hhyd t (List.mem_cons_of_mem _ ht))
        (fun t ht => hV t (List.mem_cons_of_mem _ ht)) (fun script hscript k o ho => by
          rcases bucketLookup_processMempoolTx htx hstep ho with ho | ⟨⟨m, hm, rfl⟩, hid⟩
          · exact hb script hscript k o ho
          · exact hid ▸ hV tx List.mem_cons_self ⟨m, hm, hscript⟩) h
      exact ⟨(processMempoolTx_sameConfirmed hstep).trans hsame, hrest⟩

theorem Backed.step {s s' : Server} {e : Event} (h : Backed A all s)
    (hhyd : ∀ tx ∈ all, tx.Hydrated) (hdet : TxidsDetermine all) (he : ∀ tx ∈ e.txs, tx ∈ all)
    (hC : s.HandsGenuine A e) (hstep : s.step e = .ok s') : Backed A all s' := by
  obtain ⟨v, l, bch, hoffer, hbch, rfl⟩ := step_eq_ok.mp hstep
  have hj := judged_offerTxs hoffer
  have hmono : ∀ x ∈ s.validator.valid, x ∈ v.valid := fun x hx => (hj.valid_iff x).mpr (.inl hx)
  obtain ⟨S, hS, hSall, hSvalid⟩ := h.confirmed
  have hmempool : ∀ script ∈ A, ∀ k o,
      bucketLookup s.bch.utxodb.mempoolScriptpubkeyToOutput script k = some o →
        o.prevTxId ∈ v.valid := fun script hscript k o ho =>
    hmono _ (h.mempool script hscript k o ho)
  -- Mempool transactions leave the confirmed side alone.
  have hkeep : SameConfirmed s.bch.utxodb bch.utxodb → ∃ S, ConfirmedAt bch.utxodb S ∧
      (∀ o ∈ S, ∃ tx ∈ all, o ∈ tx.outputs) ∧ ∀ o ∈ S, o.scriptpubkey ∈ A → o.prevTxId ∈ v.valid :=
    fun hsame => ⟨S, hS.congr hsame, hSall, fun o ho hA => hmono _ (hSvalid o ho hA)⟩
  simp only [bchStep, h.utxosync, if_true] at hbch
  cases e with
  | block order txs trusted =>
      have hblock := hS.blockUtxodb txs (outpointsDetermine_within hhyd hdet hSall he)
      obtain ⟨added, removed, hdb⟩ := utxodb_of_processBlock hbch
      rw [if_pos rfl] at hdb
      refine ⟨h.utxosync, ⟨confirmBlock S txs, ?_, fun o ho => ?_, fun o ho hA => ?_⟩,
        fun script hscript k o ho => ?_⟩
      · rw [hdb]
        exact hblock.congr ⟨rfl, rfl⟩
      · rcases confirmBlock_cases ho with ho | ⟨tx, htx, ho, -⟩
        · exact hSall o ho
        · exact ⟨tx, he tx htx, mem_spendable ho⟩
      · rcases confirmBlock_cases ho with hoS | ⟨tx, htx, hos, hspent⟩
        · exact hmono _ (hSvalid o hoS hA)
        · obtain ⟨before, after, rfl⟩ := List.append_of_mem htx
          have hid : o.prevTxId = tx.txid :=
            outpoint_txid_of_spendable (hhyd tx (he tx htx)) hos
          rw [hid]
          exact AcceptedInTurn.mem_valid_of_offerTxs _ _
            (hC before tx after rfl ⟨o, hos, hA, hspent⟩) hoffer
      · rw [hdb] at ho
        exact hmempool script hscript k o
          (Utxodb.blockUtxodb_mempoolShrinks s.bch.utxodb txs script k o ho)
  | mempool order txs =>
      have hl : ∀ tx ∈ (order.permute (groupByToken l)).flatMap Prod.snd, tx ∈ l := by
        intro tx htx
        obtain ⟨e, he, htx⟩ := List.mem_flatMap.mp htx
        exact ((mem_validTxs order l e.1 tx).mp ⟨e, he, rfl, htx⟩).1
      obtain ⟨hsame, hmem⟩ := foldlM_processMempoolTx_backed (V := v.valid)
        (fun tx htx => hhyd tx (he tx (hj.accepted tx (hl tx htx)).1))
        (fun tx htx _ => (hj.valid_iff _).mpr (.inr ⟨tx, hl tx htx, rfl⟩)) hmempool hbch
      exact ⟨h.utxosync, hkeep hsame, hmem⟩
  | rawtx tx =>
      have htx := hhyd tx (he tx (List.mem_singleton.mpr rfl))
      refine ⟨h.utxosync, hkeep (processMempoolTx_sameConfirmed hbch),
        fun script hscript k o ho => ?_⟩
      rcases bucketLookup_processMempoolTx htx hbch ho with ho | ⟨⟨m, hm, rfl⟩, hid⟩
      · exact hmempool _ hscript k o ho
      · rw [hid]
        refine AcceptedInTurn.mem_valid_of_offerTxs [] []
          (fun v₀ l₀ h₀ => ?_) hoffer
        obtain ⟨rfl, -⟩ := Prod.mk.inj (Except.ok.inj h₀)
        exact hC ⟨m, hm, hscript⟩

/-- With `utxosync`, in every run whose steps hand `bch` only accepted transactions,
as far as their token outputs stay on addresses, the queries count and list outputs
of valid transactions only, in every state. -/
theorem run_countsGenuine (A : Set Scriptpubkey) {events : List Event}
    (hhyd : ∀ e ∈ events, ∀ tx ∈ e.txs, tx.Hydrated)
    (hdet : TxidsDetermine (events.flatMap Event.txs))
    (hC : EveryStep Server.step (fun _ => HandsGenuine A) (.empty true) events) :
    Always Server.step (fun _ => CountsGenuine A) (.empty true) events := by
  have hbacked : Always Server.step (fun _ => Backed A (events.flatMap Event.txs))
      (.empty true) events := by
    refine Always.of_step Backed.empty fun past e rest s₁ s₂ hev h hs₁ hstep => ?_
    refine h.step (fun tx htx => ?_) hdet (fun tx htx => ?_)
      (hC past e rest hev s₁ s₂ hs₁ hstep) hstep
    · obtain ⟨e', he', htx⟩ := List.mem_flatMap.mp htx
      exact hhyd e' he' tx htx
    · exact List.mem_flatMap.mpr ⟨e, by simp [hev], htx⟩
  exact fun past rest hev s hs => (hbacked past rest hev s hs).countsGenuine

/-- A block with a GENESIS and a refresh with a SEND of its tokens. -/
def genuineEvents : List Event :=
  [.block (.insertion _) [sampleGenesis] false, .mempool (.insertion _) [sampleSend]]

theorem sampleGenesis_acceptedInTurn : AcceptedInTurn .empty false sampleGenesis := by
  have hrun : ∃ r, Validator.empty.addTx sampleGenesis false = .ok r ∧ r.1 = true := by
    decide +kernel
  obtain ⟨⟨added, v⟩, hadd, rfl⟩ := hrun
  exact .inr ⟨by simp [Validator.empty], v, hadd⟩

theorem run_countsGenuine_sample :
    Always Server.step (fun _ => CountsGenuine Set.univ) (.empty true) genuineEvents := by
  refine run_countsGenuine Set.univ (fun e he tx htx => ?_) (.of_nodup (by decide)) ?_
  · simp only [genuineEvents, List.mem_cons, List.not_mem_nil, or_false] at he
    rcases he with rfl | rfl
    · exact List.mem_singleton.mp htx ▸ sampleGenesis_hydrated
    · exact List.mem_singleton.mp htx ▸ sampleSend_hydrated
  · refine EveryStep.cons fun s₁ _ => ⟨?_, EveryStep.cons fun s₂ _ => ⟨trivial, EveryStep.nil⟩⟩
    intro before tx after htxs _ v l hv
    obtain ⟨rfl, rfl, rfl⟩ : before = [] ∧ tx = sampleGenesis ∧ after = [] := by
      rcases before with _ | ⟨b, before⟩ <;> simp_all
    obtain ⟨rfl, -⟩ := Prod.mk.inj (Except.ok.inj hv)
    exact sampleGenesis_acceptedInTurn

/-- The output script that pays to a hash of a public key. -/
def fakeScript : Scriptpubkey :=
  [0x76, 0xA9, 0x14] ++ List.replicate 20 0x11 ++ [0x88, 0xAC]

/-- A SEND of tokens of `sampleGenesis` that spends none of them. It pays four to
`fakeScript`. -/
def fakeSend : Transaction :=
  let txid : Txid := ⟨
    [0xF0, 0xE8, 0x85, 0xC2, 0x87, 0x8C, 0x9F, 0x14, 0x3D, 0x44, 0x9B, 0x12, 0x9C, 0x34, 0xD9,
     0xA4, 0x23, 0x5A, 0x4C, 0x55, 0x07, 0xB6, 0x9C, 0x35, 0xC8, 0xE9, 0xE4, 0xA3, 0x9A, 0x59,
     0x5C, 0xB0], rfl⟩
  encoded txid [⟨.zero, 7⟩]
    [opReturn (sendPayloads 1 sampleGenesis.txid [4]), fakeScript]
    ⟨sampleGenesis.txid, 1, .send ⟨[4]⟩⟩

theorem fakeSend_hydrated : fakeSend.Hydrated :=
  hydrated_encoded (by decide) (by decide) (by decide) (by decide +kernel) (by decide +kernel)

def fakeEvents : List Event :=
  [.block (.insertion _) [sampleGenesis] false, .block (.insertion _) [fakeSend] false]

/-- The validator rejects the SEND, and the queries count its output. -/
theorem countsGenuine_fails :
    ¬ Always Server.step (fun _ => CountsGenuine {fakeScript}) (.empty true) fakeEvents := by
  intro h
  have hrun : ∃ s, fakeEvents.foldlM Server.step (.empty true) = .ok s ∧
      fakeSend.txid ∉ s.validator.valid ∧
      ∃ bucket ∈ s.bch.utxodb.scriptpubkeyToOutput.lookup fakeScript, ∃ o ∈ fakeSend.outputs,
        bucket.lookup o.outpoint = some o ∧ o.prevTxId = fakeSend.txid ∧
        o.outpoint ∉ s.bch.utxodb.mempoolSpentConfirmedOutpoints ∧
        bucket.toMap.keys.card ≤ 1 := by decide +kernel
  obtain ⟨s, hs, hinvalid, bucket, hbucket, o, -, ho, hid, hspent, hcard⟩ := hrun
  have hmem : o ∈ s.addressOutputs (.some _) fakeScript :=
    Utxodb.mem_getOutputsByScriptpubkey_of_confirmed hbucket ho hspent (by omega)
  exact hinvalid (hid ▸ (h fakeEvents [] (by simp) s hs).outputs _ _ rfl o hmem)

end Server
end SlpGraphSearch
