import SlpGraphSearch.LedgerChain
import SlpGraphSearch.SlpdbSpec
import SlpGraphSearch.UtxoIndex
import SlpGraphSearch.ValidatorSpec

/-!
# The rule of the token store

`slpdb` decides from its live state: the outputs that are not spent yet and one
current baton for each token. Over the blocks of a ledger this amounts to a rule on
the transactions recorded before. Nobody else spends an output between its creation
and its use, and the current baton is the one that is not used up.
-/
namespace SlpGraphSearch
open Library Transaction

/-- The GENESIS of the transaction's token is among `prev`. -/
def KnownToken (prev : ValidView) (t : Transaction) : Prop :=
  ∃ g, prev t.slp.tokenid = some g ∧ g.slp.type = .genesis

/-- What the token store credits an input with: the amount it recorded for the
output, if that belongs to the token id. It does not look at token types. -/
def storedCredit (prev : ValidView) (t : Transaction) (o : Outpoint) : ℕ :=
  match prev o.txid with
  | none => 0
  | some p =>
      if p.slp.tokenid = t.slp.tokenid then
        ((p.tokenOutput o).map fun u => u.amount.toNat).getD 0
      else 0

/-- The input spends the baton output of a recorded transaction of the token id. -/
def SpendsStoredBaton (prev : ValidView) (t : Transaction) (o : Outpoint) (p : Transaction) :
    Prop :=
  prev o.txid = some p ∧ p.slp.tokenid = t.slp.tokenid ∧ p.batonOutput = some o

/-- The rule of the token store over the transactions it recorded. -/
def SlpdbRule (prev : ValidView) (t : Transaction) : Prop :=
  match t.slp.slpTx with
  | .genesis _ => True
  | .mint _ => ∃ o ∈ t.inputs, ∃ p, SpendsStoredBaton prev t o p
  | .send s => KnownToken prev t ∧
      (s.amounts.map UInt64.toNat).sum ≤ (t.inputs.map (storedCredit prev t)).sum
  | .invalid => False

/-- The ids recorded after the transaction. -/
def recordStep (T : TransactionMap) (R : Set Txid) (t : Transaction) : Set Txid :=
  {x | x ∈ R ∨ x = t.txid ∧ SlpdbRule (restrict T R) t}

/-- The ids that the rule accepts, one transaction after another. -/
def slpdbRecorded (T : TransactionMap) (order : List Transaction) : Set Txid :=
  order.foldl (recordStep T) ∅

namespace Slpdb

/-- The store holds the transactions `R` of the ledger. The outpoints `spent` were
taken out, and `used` are the inputs seen so far. -/
structure Holds (L : Ledger) (R : Set Txid) (spent used : Set Outpoint) (db : Slpdb) : Prop where
  tokens : ∀ t, t ∈ db.tokens ↔ ∃ g, restrict L.T R t = some g ∧ g.slp.type = .genesis
  grounded : ∀ {x p}, restrict L.T R x = some p → p.slp.tokenid ∈ db.tokens
  transactions : ∀ t x, x ∈ (db.token t).transactions ↔
    ∃ p, restrict L.T R x = some p ∧ p.slp.tokenid = t
  utxos : ∀ t o u, (db.token t).utxos.lookup o = some u ↔
    o ∉ spent ∧ ∃ p, restrict L.T R o.txid = some p ∧ p.slp.tokenid = t ∧ p.tokenOutput o = some u
  index : ∀ o t, db.utxoToTokenid.lookup o = some t ↔
    ∃ p, restrict L.T R o.txid = some p ∧ p.slp.tokenid = t ∧
      (p.tokenOutput o ≠ none ∨ p.batonOutput = some o)
  baton_of : ∀ {t o}, (db.token t).mintBatonOutpoint = some o →
    ∃ p, restrict L.T R o.txid = some p ∧ p.slp.tokenid = t ∧ p.batonOutput = some o
  baton : ∀ {p o}, restrict L.T R o.txid = some p → p.batonOutput = some o → o ∉ used →
    (db.token p.slp.tokenid).mintBatonOutpoint = some o
  spent_used : spent ⊆ used

variable {L : Ledger} {R : Set Txid} {spent used : Set Outpoint} {db db' : Slpdb}
  {t : Transaction}

theorem Holds.empty (L : Ledger) : Holds L ∅ ∅ ∅ .empty := by
  have hnone : ∀ x, restrict L.T ∅ x = none := fun x => by simp [restrict]
  constructor
  all_goals simp [hnone, Slpdb.empty, Slpdb.token, Finmap.lookup_empty, Finmap.notMem_empty]

theorem Holds.mono_used (h : Holds L R spent used db) {used' : Set Outpoint}
    (hsub : used ⊆ used') : Holds L R spent used' db :=
  { h with
    baton := fun hp ho hu => h.baton hp ho fun hmem => hu (hsub hmem)
    spent_used := h.spent_used.trans hsub }

/-! ## Acceptance -/

/-- The recorded amount of an outpoint. -/
def amountAt (token : SlpToken) (o : Outpoint) : ℕ :=
  ((token.utxos.lookup o).map fun u => u.amount.toNat).getD 0

theorem amountAt_lt (token : SlpToken) (o : Outpoint) : amountAt token o < 2 ^ 64 := by
  unfold amountAt
  cases token.utxos.lookup o with
  | none => simp
  | some u => simpa using u.amount.toNat_lt

theorem totalTokenInputs_eq (token : SlpToken) (inputs : List Outpoint) :
    totalTokenInputs token inputs = BitVec.ofNat 128 (inputs.map (amountAt token)).sum := by
  induction inputs using List.reverseRecOn with
  | nil => rfl
  | append_singleton inputs o ih =>
      unfold totalTokenInputs at ih ⊢
      rw [List.foldl_concat, ih, List.map_append, List.sum_append, BitVec.ofNat_add,
        List.map_singleton, List.sum_singleton]
      unfold amountAt
      cases token.utxos.lookup o with
      | none => simp
      | some u => simp [Validator.setWidth_toBitVec]

theorem totalTokenOutputs_eq (amounts : List UInt64) :
    totalTokenOutputs amounts = BitVec.ofNat 128 (amounts.map UInt64.toNat).sum :=
  Validator.sumAmounts_eq amounts

/-- The store's sums are exact for decoded transactions. -/
theorem totalTokenOutputs_le_iff (ht : t.Hydrated) {s : SlpTransactionSend}
    (hs : t.slp.slpTx = .send s) (token : SlpToken) :
    totalTokenOutputs s.amounts ≤ totalTokenInputs token t.inputs ↔
      (s.amounts.map UInt64.toNat).sum ≤ (t.inputs.map (amountAt token)).sum := by
  have hin : (t.inputs.map (amountAt token)).sum < 2 ^ 128 :=
    Validator.sum_lt_of_length (List.forall_mem_map.mpr fun o _ => amountAt_lt token o)
      (by rw [List.length_map]; exact ht.inputs_length)
  have hout := Validator.sum_amounts_lt ht hs le_rfl
  rw [totalTokenOutputs_eq, totalTokenInputs_eq, BitVec.le_def, BitVec.toNat_ofNat,
    BitVec.toNat_ofNat, Nat.mod_eq_of_lt hin, Nat.mod_eq_of_lt hout]

/-- No member of the ledger spent the inputs of `t` before. -/
def Unused (L : Ledger) (used : Set Outpoint) (t : Transaction) : Prop :=
  ∀ o ∈ t.inputs, o.txid ∈ L.T → o ∉ used

theorem mem_of_restrict {x : Txid} {p : Transaction} (h : restrict L.T R x = some p) : x ∈ L.T :=
  KeyedMap.mem_iff.mpr ⟨p, (restrict_eq_some.mp h).2⟩

theorem Holds.amountAt_eq (h : Holds L R spent used db) (hun : Unused L used t) {o : Outpoint}
    (ho : o ∈ t.inputs) :
    amountAt (db.token t.slp.tokenid) o = storedCredit (restrict L.T R) t o := by
  unfold amountAt storedCredit
  cases hp : restrict L.T R o.txid with
  | none =>
      have hnone : (db.token t.slp.tokenid).utxos.lookup o = none := by
        rw [Option.eq_none_iff_forall_ne_some]
        intro u hu
        obtain ⟨-, p, hp', -⟩ := (h.utxos _ _ _).mp hu
        simp [hp] at hp'
      simp [hnone]
  | some p =>
      have hspent : o ∉ spent := fun hmem => hun o ho (mem_of_restrict hp) (h.spent_used hmem)
      have hlook : (db.token t.slp.tokenid).utxos.lookup o =
          if p.slp.tokenid = t.slp.tokenid then p.tokenOutput o else none := by
        ext u
        rw [h.utxos]
        simp only [hspent, not_false_eq_true, true_and, hp, Option.some.injEq, exists_eq_left']
        split_ifs with hid <;> simp [hid]
      simp only [hlook]
      split_ifs <;> rfl

/-- `add_transaction` accepts by the rule. -/
theorem Holds.accepts_iff (h : Holds L R spent used db) (ht : Ingestible t)
    (hun : Unused L used t) : db.Accepts t ↔ SlpdbRule (restrict L.T R) t := by
  unfold Accepts SlpdbRule
  cases hs : t.slp.slpTx with
  | invalid => simp
  | genesis s =>
      simp [ht.outputs (.inl (SlpTransaction.type_eq_genesis.mpr ⟨s, hs⟩))]
  | mint s =>
      simp only
      constructor
      · rintro ⟨-, o, ho, hb⟩
        exact ⟨o, ho, h.baton_of hb⟩
      · rintro ⟨o, ho, p, hp, hid, hb⟩
        refine ⟨hid ▸ h.grounded hp, o, ho, ?_⟩
        rw [← hid]
        exact h.baton hp hb (hun o ho (mem_of_restrict hp))
  | send s =>
      simp only
      rw [h.tokens, totalTokenOutputs_le_iff ht.hydrated hs]
      have hsum : t.inputs.map (amountAt (db.token t.slp.tokenid)) =
          t.inputs.map (storedCredit (restrict L.T R) t) :=
        List.map_congr_left fun o ho => h.amountAt_eq hun ho
      rw [hsum]
      rfl

/-! ## Steps -/

theorem restrict_insert_ne {T : TransactionMap} {x : Txid} (hx : x ≠ t.txid) :
    restrict T (insert t.txid R) x = restrict T R x := by
  ext p
  simp [restrict_eq_some, hx]

/-- The outpoints of a new transaction were never seen. -/
structure Fresh (L : Ledger) (R : Set Txid) (spent used : Set Outpoint) (t : Transaction) :
    Prop where
  member : L.T.lookup t.txid = some t
  new : t.txid ∉ R
  unspent : ∀ o ∈ spent, o.txid ≠ t.txid
  unused : Unused L used t

theorem Fresh.restrict_old (hf : Fresh L R spent used t) : restrict L.T R t.txid = none := by
  rw [Option.eq_none_iff_forall_ne_some]
  exact fun p hp => hf.new (restrict_eq_some.mp hp).1

theorem Fresh.restrict_self (hf : Fresh L R spent used t) :
    restrict L.T (insert t.txid R) t.txid = some t :=
  restrict_eq_some.mpr ⟨Set.mem_insert _ _, hf.member⟩

theorem Holds.record_tokens (h : Holds L R spent used db) (hf : Fresh L R spent used t)
    (hknown : t.slp.type = .genesis ∨ t.slp.tokenid ∈ db.tokens) (hrec : Records db db' t)
    (x : Tokenid) : x ∈ db'.tokens ↔
      ∃ g, restrict L.T (insert t.txid R) x = some g ∧ g.slp.type = .genesis := by
  have hgen : t.slp.type = .genesis → t.slp.tokenid = t.txid :=
    (L.hydrated hf.member).genesis_tokenid
  have hmono : ∀ {g}, restrict L.T R x = some g → restrict L.T (insert t.txid R) x = some g :=
    fun hg => restrict_mono (Set.subset_insert _ _) hg
  rw [hrec.tokens, h.tokens]
  constructor
  · rintro (rfl | ⟨g, hg, hgg⟩)
    · rcases hknown with htg | hmem
      · exact ⟨t, by rw [hgen htg, hf.restrict_self], htg⟩
      · obtain ⟨g, hg, hgg⟩ := (h.tokens _).mp hmem
        exact ⟨g, hmono hg, hgg⟩
    · exact ⟨g, hmono hg, hgg⟩
  · rintro ⟨g, hg, hgg⟩
    by_cases hx : x = t.txid
    · rw [hx, hf.restrict_self, Option.some.injEq] at hg
      subst hg
      exact .inl (hx.trans (hgen hgg).symm)
    · exact .inr ⟨g, restrict_insert_ne hx ▸ hg, hgg⟩

theorem Holds.record_utxos (h : Holds L R spent used db) (hf : Fresh L R spent used t)
    (hrec : Records db db' t) (x : Tokenid) (o : Outpoint) (u : SlpOutput) :
    (db'.token x).utxos.lookup o = some u ↔ o ∉ spent ∧
      ∃ p, restrict L.T (insert t.txid R) o.txid = some p ∧ p.slp.tokenid = x ∧
        p.tokenOutput o = some u := by
  rw [hrec.utxos]
  by_cases ho : o.txid = t.txid
  · have hspent : o ∉ spent := fun hmem => hf.unspent o hmem ho
    have hnone : (db.token x).utxos.lookup o = none := by
      rw [Option.eq_none_iff_forall_ne_some]
      intro v hv
      obtain ⟨-, p, hp, -⟩ := (h.utxos _ _ _).mp hv
      simp [ho, hf.restrict_old] at hp
    rw [hnone, Option.none_or, ho, hf.restrict_self]
    by_cases hx : x = t.slp.tokenid
    · simp [hx, hspent]
    · simp [hx, Ne.symm hx]
  · rw [tokenOutput_of_ne ho, ite_self, Option.or_none, h.utxos, restrict_insert_ne ho]

theorem Holds.record_index (h : Holds L R spent used db) (hf : Fresh L R spent used t)
    (hrec : Records db db' t) (o : Outpoint) (x : Tokenid) :
    db'.utxoToTokenid.lookup o = some x ↔
      ∃ p, restrict L.T (insert t.txid R) o.txid = some p ∧ p.slp.tokenid = x ∧
        (p.tokenOutput o ≠ none ∨ p.batonOutput = some o) := by
  rw [hrec.index]
  by_cases ho : o.txid = t.txid
  · have hnone : db.utxoToTokenid.lookup o = none := by
      rw [Option.eq_none_iff_forall_ne_some]
      intro v hv
      obtain ⟨p, hp, -⟩ := (h.index _ _).mp hv
      simp [ho, hf.restrict_old] at hp
    rw [hnone, Option.none_or, ho, hf.restrict_self]
    simp [and_comm]
  · have hb : t.batonOutput ≠ some o := fun hb => ho (batonOutput_txid hb)
    rw [if_neg (by simp [tokenOutput_of_ne ho, hb]), Option.or_none, h.index, restrict_insert_ne ho]

theorem Holds.record_baton_of (h : Holds L R spent used db) (hf : Fresh L R spent used t)
    (hrec : Records db db' t) {x : Tokenid} {o : Outpoint}
    (ho : (db'.token x).mintBatonOutpoint = some o) :
    ∃ p, restrict L.T (insert t.txid R) o.txid = some p ∧ p.slp.tokenid = x ∧
      p.batonOutput = some o := by
  have hkept : (db.token x).mintBatonOutpoint = some o →
      ∃ p, restrict L.T (insert t.txid R) o.txid = some p ∧ p.slp.tokenid = x ∧
        p.batonOutput = some o := fun ho => by
    obtain ⟨p, hp, hrest⟩ := h.baton_of ho
    exact ⟨p, restrict_mono (Set.subset_insert _ _) hp, hrest⟩
  rw [hrec.baton] at ho
  split_ifs at ho with hx
  · rcases Option.or_eq_some_iff.mp ho with hb | ⟨-, ho⟩
    · exact ⟨t, by rw [batonOutput_txid hb, hf.restrict_self], hx.symm, hb⟩
    · exact hkept ho
  · exact hkept ho

/-- The baton that the new transaction may create replaces a used one. -/
theorem Holds.record_baton (h : Holds L R spent used db) (hf : Fresh L R spent used t)
    (hbaton : t.batonOutput ≠ none → ∀ o, (db.token t.slp.tokenid).mintBatonOutpoint = some o →
      o ∈ t.inputs)
    (hrec : Records db db' t) {p : Transaction} {o : Outpoint}
    (hp : restrict L.T (insert t.txid R) o.txid = some p) (ho : p.batonOutput = some o)
    (hu : o ∉ used ∪ {o | o ∈ t.inputs}) :
    (db'.token p.slp.tokenid).mintBatonOutpoint = some o := by
  rw [hrec.baton]
  by_cases hx : o.txid = t.txid
  · rw [hx, hf.restrict_self, Option.some.injEq] at hp
    subst hp
    rw [if_pos rfl, ho, Option.some_or]
  · have hcur := h.baton (restrict_insert_ne hx ▸ hp) ho fun hmem => hu (.inl hmem)
    split_ifs with hid
    · cases hb : t.batonOutput with
      | none => rw [Option.none_or, hcur]
      | some b => exact absurd (.inr (hbaton (by simp [hb]) o (hid ▸ hcur))) hu
    · exact hcur

/-- Recording a new transaction. -/
theorem Holds.record (h : Holds L R spent used db) (hf : Fresh L R spent used t)
    (hknown : t.slp.type = .genesis ∨ t.slp.tokenid ∈ db.tokens)
    (hbaton : t.batonOutput ≠ none → ∀ o, (db.token t.slp.tokenid).mintBatonOutpoint = some o →
      o ∈ t.inputs)
    (hrec : Records db db' t) :
    Holds L (insert t.txid R) spent (used ∪ {o | o ∈ t.inputs}) db' where
  tokens := h.record_tokens hf hknown hrec
  grounded {x p} hp := by
    rw [hrec.tokens]
    by_cases hx : x = t.txid
    · rw [hx, hf.restrict_self, Option.some.injEq] at hp
      exact .inl (hp ▸ rfl)
    · exact .inr (h.grounded (restrict_insert_ne hx ▸ hp))
  transactions x y := by
    rw [hrec.transactions, h.transactions]
    by_cases hy : y = t.txid
    · simp [hy, hf.restrict_self, hf.restrict_old, eq_comm]
    · simp [hy, restrict_insert_ne hy]
  utxos := h.record_utxos hf hrec
  index := h.record_index hf hrec
  baton_of := h.record_baton_of hf hrec
  baton := h.record_baton hf hbaton hrec
  spent_used := fun _ ho => .inl (h.spent_used ho)

/-- One `add_transaction`: the rule decides. -/
theorem Holds.addTransaction (h : Holds L R spent used db) (hf : Fresh L R spent used t)
    (ht : Ingestible t) :
    Holds L (recordStep L.T R t) spent (used ∪ {o | o ∈ t.inputs}) (db.addTransaction t) := by
  by_cases hr : SlpdbRule (restrict L.T R) t
  · have hacc := (h.accepts_iff ht hf.unused).mpr hr
    have hset : recordStep L.T R t = insert t.txid R := by
      ext x
      simp [recordStep, hr, or_comm]
    have hnew : t.slp.type = .genesis → t.txid ∉ db.tokens := by
      intro _ hmem
      obtain ⟨g, hg, -⟩ := (h.tokens _).mp hmem
      exact hf.new (restrict_eq_some.mp hg).1
    have hunknown : t.slp.type = .genesis → t.slp.tokenid ∉ db.tokens := fun hg => by
      rw [ht.hydrated.genesis_tokenid hg]
      exact hnew hg
    rw [hset]
    exact h.record hf hacc.known (fun hb o => hacc.baton hunknown hb)
      (addTransaction_records ht.hydrated (fun hg hmem => absurd hmem (hnew hg)) hacc)
  · have hset : recordStep L.T R t = R := by
      ext x
      simp [recordStep, hr]
    rw [hset, addTransaction_dropped (mt (h.accepts_iff ht hf.unused).mp hr)]
    exact h.mono_used Set.subset_union_left

theorem mem_recordStep {T : TransactionMap} {x : Txid} :
    x ∈ recordStep T R t ↔ x ∈ R ∨ x = t.txid ∧ SlpdbRule (restrict T R) t := Iff.rfl

/-- The transactions of a list, one after the other. -/
theorem Holds.addTransactions {txs : List Transaction} (h : Holds L R spent used db)
    (hf : ∀ t ∈ txs, Fresh L R spent used t) (hing : ∀ t ∈ txs, Ingestible t)
    (hnodup : (txs.map Transaction.txid).Nodup) :
    Holds L (txs.foldl (recordStep L.T) R) spent
      (used ∪ {o | o ∈ txs.flatMap Transaction.inputs}) (txs.foldl Slpdb.addTransaction db) := by
  induction txs generalizing R used db with
  | nil => simpa using h
  | cons t txs ih =>
      have ht := hf t List.mem_cons_self
      rw [List.map_cons, List.nodup_cons] at hnodup
      have hne : ∀ u ∈ txs, u.txid ≠ t.txid := fun u hu heq =>
        hnodup.1 (heq ▸ List.mem_map_of_mem hu)
      have hrest := ih (h.addTransaction ht (hing t List.mem_cons_self)) (fun u hu => ?_)
        (fun u hu => hing u (List.mem_cons_of_mem _ hu)) hnodup.2
      · refine (List.flatMap_cons (f := Transaction.inputs)).symm ▸ ?_
        simp only [List.mem_append]
        rw [Set.union_assoc] at hrest
        exact hrest
      · have hu' := hf u (List.mem_cons_of_mem _ hu)
        refine ⟨hu'.member, ?_, hu'.unspent, fun o ho hT => ?_⟩
        · rw [mem_recordStep]
          rintro (hx | ⟨hx, -⟩)
          · exact hu'.new hx
          · exact hne u hu hx
        · rintro (hx | hx)
          · exact hu'.unused o ho hT hx
          · exact hne u hu (L.spender_unique hu'.member ht.member hT ho hx)

/-- Taking out an outpoint that was used. -/
theorem Holds.spend (h : Holds L R spent used db) {m : Outpoint} (hm : m ∈ used)
    (hs : Spends db db' m) : Holds L R (insert m spent) used db' where
  tokens t := (hs.tokens t).trans (h.tokens t)
  grounded hp := (hs.tokens _).mpr (h.grounded hp)
  transactions t x := by rw [hs.transactions, h.transactions]
  utxos t o u := by
    rw [hs.utxos, Set.mem_insert_iff, not_or]
    by_cases ho : o = m
    · subst ho
      simp only [true_and, not_true, false_and, iff_false]
      split_ifs with hidx
      · simp
      · rw [h.utxos]
        rintro ⟨-, p, hp, ht, hu⟩
        exact hidx ((h.index _ _).mpr ⟨p, hp, ht, .inl (by simp [hu])⟩)
    · rw [if_neg fun hc => ho hc.1, h.utxos]
      simp [ho]
  index o t := by rw [hs.index, h.index]
  baton_of := by
    intro t o ho
    rcases hs.baton t with hb | ⟨-, hb⟩
    · exact h.baton_of (hb ▸ ho)
    · simp [hb] at ho
  baton := by
    intro p o hp ho hu
    have hcur := h.baton hp ho hu
    rcases hs.baton p.slp.tokenid with hb | ⟨hb, -⟩
    · rw [hb, hcur]
    · rw [hcur, Option.some.injEq] at hb
      exact absurd (hb ▸ hm) hu
  spent_used := Set.insert_subset hm h.spent_used

theorem Holds.spendInputs {inputs : List Outpoint} {b b' : Bch} {removed removed' : List Output}
    (h : Holds L R spent used b.slpdb) (hu : ∀ m ∈ inputs, m ∈ used)
    (hrun : inputs.foldlM Bch.spendInput (b, removed) = .ok (b', removed')) :
    Holds L R (spent ∪ {o | o ∈ inputs}) used b'.slpdb := by
  induction inputs generalizing b removed spent with
  | nil =>
      rw [List.foldlM_nil] at hrun
      rw [← (Prod.mk.inj (Except.ok.inj hrun)).1]
      simpa using h
  | cons m inputs ih =>
      rw [List.foldlM_cons, bind_eq_ok] at hrun
      obtain ⟨acc, hstep, hrun⟩ := hrun
      obtain ⟨slpdb, hspend, rfl⟩ := spendInput_cases hstep
      have hrest := ih (h.spend (hu m List.mem_cons_self) (spend_spends hspend))
        (fun o ho => hu o (List.mem_cons_of_mem _ ho)) hrun
      convert hrest using 1
      ext o
      simp [or_left_comm, or_assoc]

/-- One block: its SLP transactions are added in order, then all its inputs are
taken out. -/
theorem Holds.processBlock {b b' : Bch} {txs : List Transaction} {saveRollback : Bool}
    (h : Holds L R spent used b.slpdb) (hf : ∀ t ∈ txs, Fresh L R spent used t)
    (hing : ∀ t ∈ txs, Ingestible t) (hb : b.processBlock txs saveRollback = .ok b') :
    Holds L ((slpOrder txs).foldl (recordStep L.T) R)
      (spent ∪ {o | o ∈ txs.flatMap Transaction.inputs})
      (used ∪ {o | o ∈ txs.flatMap Transaction.inputs}) b'.slpdb := by
  obtain ⟨hsort, hnodup, hmem, -⟩ := Ledger.slpOrder_spec fun t ht => (hf t ht).member
  obtain ⟨sorted, b₁, removed, hsorted, hspend, hb⟩ := processBlock_cases hb
  obtain rfl := Except.ok.inj (hsorted.symm.trans hsort)
  have hslpdb : b'.slpdb = b₁.slpdb := by
    rw [hb]
    split_ifs <;> rfl
  have hadded := h.addTransactions (fun t ht => hf t ((hmem t).mp ht).1)
    (fun t ht => hing t ((hmem t).mp ht).1) hnodup
  have hsub : used ∪ {o | o ∈ (slpOrder txs).flatMap Transaction.inputs} ⊆
      used ∪ {o | o ∈ txs.flatMap Transaction.inputs} := by
    refine Set.union_subset_union_right _ fun o ho => ?_
    obtain ⟨t, ht, ho⟩ := List.mem_flatMap.mp ho
    exact List.mem_flatMap.mpr ⟨t, ((hmem t).mp ht).1, ho⟩
  rw [hslpdb]
  exact (hadded.mono_used hsub).spendInputs (fun m hm => .inr hm) hspend

end Slpdb

/-! ## Runs over a chain -/

/-- Calls of `process_block`. -/
def Bch.processBlocks (b : Bch) (calls : List (List Transaction × Bool)) : Except Failure Bch :=
  calls.foldlM (fun b call => b.processBlock call.1 call.2) b

namespace Slpdb

variable {L : Ledger} {calls : List (List Transaction × Bool)}

theorem foldl_recordStep_subset {T : TransactionMap} {R : Set Txid} {txs : List Transaction}
    {x : Txid} (hx : x ∈ txs.foldl (recordStep T) R) : x ∈ R ∨ ∃ t ∈ txs, t.txid = x := by
  induction txs generalizing R with
  | nil => exact .inl hx
  | cons t txs ih =>
      rcases ih hx with (hx | ⟨rfl, -⟩) | ⟨u, hu, rfl⟩
      · exact .inl hx
      · exact .inr ⟨t, List.mem_cons_self, rfl⟩
      · exact .inr ⟨u, List.mem_cons_of_mem _ hu, rfl⟩

theorem slpdbRecorded_concat (T : TransactionMap) (before : List Transaction) (t : Transaction) :
    slpdbRecorded T (before ++ [t]) = recordStep T (slpdbRecorded T before) t := by
  rw [slpdbRecorded, List.foldl_append]
  rfl

theorem slpdbRecorded_subset {T : TransactionMap} {order : List Transaction} {x : Txid}
    (hx : x ∈ slpdbRecorded T order) : ∃ t ∈ order, t.txid = x :=
  (foldl_recordStep_subset hx).resolve_left fun h => h

/-- What comes later does not change what was recorded. -/
theorem mem_slpdbRecorded_append {T : TransactionMap} {before rest : List Transaction} {x : Txid}
    (hx : ∀ u ∈ rest, u.txid ≠ x) :
    x ∈ slpdbRecorded T (before ++ rest) ↔ x ∈ slpdbRecorded T before := by
  induction rest generalizing before with
  | nil => rw [List.append_nil]
  | cons u rest ih =>
      have hcons : before ++ u :: rest = before ++ [u] ++ rest := by simp
      rw [hcons, ih fun v hv => hx v (List.mem_cons_of_mem _ hv), slpdbRecorded_concat,
        mem_recordStep]
      exact or_iff_left fun h => hx u List.mem_cons_self h.1.symm

/-- The recorded ones are those of `V` exactly if each step decides so over those of
`V` that came before. -/
theorem slpdbRecorded_iff {T : TransactionMap} {V : Set Txid} {order : List Transaction}
    (hnodup : (order.map Transaction.txid).Nodup) :
    (∀ t ∈ order, t.txid ∈ slpdbRecorded T order ↔ t.txid ∈ V) ↔
      ∀ before t after, order = before ++ t :: after →
        (SlpdbRule (restrict T {x | x ∈ V ∧ ∃ u ∈ before, u.txid = x}) t ↔ t.txid ∈ V) := by
  have hsplit : ∀ {before t after}, order = before ++ t :: after →
      (∀ u ∈ before, u.txid ≠ t.txid) ∧ ∀ u ∈ before, ∀ v ∈ t :: after, v.txid ≠ u.txid := by
    rintro before t after rfl
    rw [List.map_append, List.nodup_append] at hnodup
    have hne := hnodup.2.2
    exact ⟨fun u hu => hne _ (List.mem_map_of_mem hu) _ (List.mem_map_of_mem List.mem_cons_self),
      fun u hu v hv => (hne _ (List.mem_map_of_mem hu) _ (List.mem_map_of_mem hv)).symm⟩
  -- With the recorded set known, one step decides membership by the rule.
  have hstep : ∀ {before t after}, order = before ++ t :: after →
      slpdbRecorded T before = {x | x ∈ V ∧ ∃ u ∈ before, u.txid = x} →
      (t.txid ∈ slpdbRecorded T (before ++ [t]) ↔
        SlpdbRule (restrict T {x | x ∈ V ∧ ∃ u ∈ before, u.txid = x}) t) := by
    intro before t after hord hR
    rw [slpdbRecorded_concat, mem_recordStep, hR]
    refine (or_iff_right ?_).trans (and_iff_right rfl)
    rintro ⟨-, u, hu, hut⟩
    exact (hsplit hord).1 u hu hut
  constructor
  · intro h before t after hord
    have hR : slpdbRecorded T before = {x | x ∈ V ∧ ∃ u ∈ before, u.txid = x} := by
      ext x
      constructor
      · intro hx
        obtain ⟨u, hu, rfl⟩ := slpdbRecorded_subset hx
        refine ⟨(h u (hord ▸ List.mem_append_left _ hu)).mp ?_, u, hu, rfl⟩
        rw [hord, mem_slpdbRecorded_append ((hsplit hord).2 u hu)]
        exact hx
      · rintro ⟨hx, u, hu, rfl⟩
        have hrec := (h u (hord ▸ List.mem_append_left _ hu)).mpr hx
        rwa [hord, mem_slpdbRecorded_append ((hsplit hord).2 u hu)] at hrec
    have hcons : order = before ++ [t] ++ after := by simp [hord]
    rw [← hstep hord hR, ← h t (hord ▸ by simp), hcons]
    refine (mem_slpdbRecorded_append fun v hv hvt => ?_).symm
    rw [hord, List.map_append, List.map_cons] at hnodup
    exact (List.nodup_cons.mp hnodup.of_append_right).1 (hvt ▸ List.mem_map_of_mem hv)
  · intro h
    have hall : ∀ before after, order = before ++ after →
        slpdbRecorded T before = {x | x ∈ V ∧ ∃ u ∈ before, u.txid = x} := by
      intro before
      induction before using List.reverseRecOn with
      | nil =>
          intro after _
          ext x
          simp [slpdbRecorded]
      | append_singleton before t ih =>
          intro after hord
          have hord' : order = before ++ t :: after := by simp [hord]
          have hR := ih _ hord'
          ext x
          by_cases hx : x = t.txid
          · subst hx
            rw [hstep hord' hR, h before t after hord']
            exact ⟨fun hv => ⟨hv, t, by simp, rfl⟩, And.left⟩
          · rw [mem_slpdbRecorded_append (by simpa using Ne.symm hx), hR]
            simp [Ne.symm hx]
    intro t ht
    rw [hall order [] (by simp)]
    exact and_iff_left ⟨t, ht, rfl⟩

/-- Every chain of decoded blocks is processed, and the store ends with the
transactions that the rule accepts and without the outputs that the chain spends. -/
theorem Holds.processBlocks {b : Bch} {R : Set Txid} {spent : Set Outpoint}
    (h : Holds L R spent spent b.slpdb) (hi : b.slpdb.Indexed)
    (hchain : L.Chain (calls.map Prod.fst))
    (hf : ∀ t ∈ (calls.map Prod.fst).flatten, Fresh L R spent spent t)
    (hing : ∀ t ∈ (calls.map Prod.fst).flatten, Ingestible t) :
    ∃ b' spent', b.processBlocks calls = .ok b' ∧
      (∀ o, o ∈ spent' ↔ o ∈ spent ∨ o ∈ (calls.map Prod.fst).flatten.flatMap Transaction.inputs) ∧
      Holds L ((chainOrder (calls.map Prod.fst)).foldl (recordStep L.T) R) spent' spent'
        b'.slpdb := by
  induction calls generalizing b R spent with
  | nil => exact ⟨b, spent, rfl, by simp, h⟩
  | cons call calls ih =>
      obtain ⟨txs, saveRollback⟩ := call
      have hblock : ∀ t ∈ txs, t ∈ (((txs, saveRollback) :: calls).map Prod.fst).flatten :=
        fun t ht => List.mem_append_left _ ht
      obtain ⟨b₁, hb₁, hi₁⟩ := processBlock_ok hi (fun t ht => hing t (hblock t ht))
        (L.txidsDetermine fun t ht => hchain.head t ht) saveRollback
      have h₁ := h.processBlock (fun t ht => hf t (hblock t ht))
        (fun t ht => hing t (hblock t ht)) hb₁
      obtain ⟨-, -, hmem, -⟩ := Ledger.slpOrder_spec hchain.head
      have hf₁ : ∀ u ∈ (calls.map Prod.fst).flatten,
          Fresh L ((slpOrder txs).foldl (recordStep L.T) R)
            (spent ∪ {o | o ∈ txs.flatMap Transaction.inputs})
            (spent ∪ {o | o ∈ txs.flatMap Transaction.inputs}) u := by
        intro u hu
        have hu' := hf u (List.mem_append_right _ hu)
        refine ⟨hu'.member, fun hx => ?_, fun o ho => ?_, fun o ho hT => ?_⟩
        · rcases foldl_recordStep_subset hx with hx | ⟨t, ht, hx⟩
          · exact hu'.new hx
          · exact hchain.head_ne ((hmem t).mp ht).1 hu hx
        · rcases ho with ho | ho
          · exact hu'.unspent o ho
          · obtain ⟨t, ht, ho⟩ := List.mem_flatMap.mp ho
            exact hchain.head_parents ht hu o ho
        · rintro (hx | hx)
          · exact hu'.unused o ho hT hx
          · obtain ⟨t, ht, hx⟩ := List.mem_flatMap.mp hx
            exact hchain.head_ne ht hu
              (L.spender_unique (hchain.head t ht) hu'.member hT hx ho)
      obtain ⟨b', spent', hb', hspent', h'⟩ := ih h₁ hi₁ hchain.tail hf₁
        fun u hu => hing u (List.mem_append_right _ hu)
      refine ⟨b', spent', ?_, fun o => ?_, ?_⟩
      · rw [Bch.processBlocks, List.foldlM_cons, hb₁]
        exact hb'
      · rw [hspent']
        simp [or_assoc]
      · rw [List.map_cons, chainOrder, List.flatMap_cons, List.foldl_append]
        exact h'

theorem processBlocks_holds (hchain : L.Chain (calls.map Prod.fst))
    (hing : ∀ t ∈ (calls.map Prod.fst).flatten, Ingestible t) :
    ∃ b spent, Bch.empty.processBlocks calls = .ok b ∧
      (∀ o, o ∈ spent ↔ o ∈ (calls.map Prod.fst).flatten.flatMap Transaction.inputs) ∧
      Holds L (slpdbRecorded L.T (chainOrder (calls.map Prod.fst))) spent spent b.slpdb := by
  obtain ⟨b, spent, hb, hspent, h⟩ := (Holds.empty L).processBlocks (b := .empty) Indexed.empty
    hchain (fun t ht => ⟨hchain.member t ht, by simp, by simp, by simp [Unused]⟩) hing
  exact ⟨b, spent, hb, fun o => by simp [hspent], h⟩

end Slpdb
end SlpGraphSearch
