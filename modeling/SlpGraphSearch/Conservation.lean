import SlpGraphSearch.Library.Flow
import SlpGraphSearch.ValidatorRun

/-!
# No inflation

The valid transactions of one token form a balanced flow: a SEND declares at most
what its inputs bring, and GENESIS and MINT issue what they declare. Summed over
the token, the unspent amounts never exceed the issued quantities.
-/
namespace SlpGraphSearch
open Library Transaction Finset

namespace Transaction

/-- The quantity a GENESIS or a MINT creates. -/
def genesisQuantity (p : Transaction) : ℕ :=
  match p.slp.slpTx with
  | .genesis g => g.qty.toNat
  | _ => 0

def mintQuantity (p : Transaction) : ℕ :=
  match p.slp.slpTx with
  | .mint m => m.qty.toNat
  | _ => 0

/-- The exact sum of the declared amounts. -/
def declaredTotal (p : Transaction) : ℕ :=
  match p.slp.slpTx with
  | .genesis g => g.qty.toNat
  | .mint m => m.qty.toNat
  | .send s => (s.amounts.map UInt64.toNat).sum
  | .invalid => 0

theorem sum_outputSlpAmount_le (p : Transaction) (V : Finset ℕ) :
    ∑ v ∈ V, (p.outputSlpAmount v).toNat ≤ p.declaredTotal := by
  have hone : ∀ q : UInt64, ∑ v ∈ V, (if v = 1 then q else 0).toNat ≤ q.toNat := by
    intro q
    have hif : ∀ v, (if v = 1 then q else 0).toNat = if v = 1 then q.toNat else 0 := by
      intro v
      split_ifs <;> rfl
    simp only [hif, sum_ite_eq']
    split_ifs <;> simp
  unfold outputSlpAmount declaredTotal
  cases p.slp.slpTx with
  | genesis g => exact hone g.qty
  | mint m => exact hone m.qty
  | invalid => simp
  | send s =>
      -- Output `v` declares amount `v - 1`.
      have hget : ∀ n, (s.amounts.getD n 0).toNat = (s.amounts.map UInt64.toNat).getD n 0 := by
        intro n
        simp only [List.getD_eq_getElem?_getD, List.getElem?_map]
        cases s.amounts[n]? <;> rfl
      have hinj : Set.InjOn (fun v => v - 1) ↑({v ∈ V | 0 < v} : Finset ℕ) := by
        intro v hv w hw hvw
        have hv' := (mem_filter.mp hv).2
        have hw' := (mem_filter.mp hw).2
        simp only at hvw
        omega
      calc ∑ v ∈ V, (if 0 < v then s.amounts.getD (v - 1) 0 else 0).toNat
          = ∑ v ∈ V with 0 < v, (s.amounts.map UInt64.toNat).getD (v - 1) 0 := by
            rw [sum_filter]
            refine sum_congr rfl fun v _ => ?_
            split_ifs
            · exact hget _
            · rfl
        _ = ∑ n ∈ {v ∈ V | 0 < v}.image fun v => v - 1, (s.amounts.map UInt64.toNat).getD n 0 :=
            (sum_image (f := fun n => (s.amounts.map UInt64.toNat).getD n 0) hinj).symm
        _ ≤ (s.amounts.map UInt64.toNat).sum := sum_getD_le _ _

end Transaction

namespace Validator

/-- The valid transactions of a pair of token id and token type. -/
def tokenMembers (s : Validator) (tokenid : Tokenid) (tokenType : UInt16) : Finset Txid :=
  {x ∈ s.valid | (s.transactionMap.lookup x).any fun p =>
    p.slp.tokenid = tokenid ∧ p.slp.tokenType = tokenType}

/-- The declared amount of an output. -/
def amountAt (s : Validator) (o : Outpoint) : ℕ :=
  (s.transactionMap.lookup o.txid).elim 0 fun p => (p.outputSlpAmount o.vout.toNat).toNat

/-- An output of the pair that no valid transaction of the pair spends. -/
def Unspent (s : Validator) (tokenid : Tokenid) (tokenType : UInt16) (o : Outpoint) : Prop :=
  o.txid ∈ s.tokenMembers tokenid tokenType ∧
    ∀ y ∈ s.tokenMembers tokenid tokenType, ∀ t, s.transactionMap.lookup y = some t → o ∉ t.inputs

/-- The GENESIS quantity of the pair, if its GENESIS is valid. -/
def genesisQuantity (s : Validator) (tokenid : Tokenid) (tokenType : UInt16) : ℕ :=
  if tokenid ∈ s.tokenMembers tokenid tokenType then
    (s.transactionMap.lookup tokenid).elim 0 Transaction.genesisQuantity
  else 0

/-- The quantities of the valid MINTs of the pair. -/
def mintedQuantity (s : Validator) (tokenid : Tokenid) (tokenType : UInt16) : ℕ :=
  ∑ x ∈ s.tokenMembers tokenid tokenType,
    (s.transactionMap.lookup x).elim 0 Transaction.mintQuantity

theorem mem_tokenMembers {s : Validator} {tokenid : Tokenid} {tokenType : UInt16} {x : Txid} :
    x ∈ s.tokenMembers tokenid tokenType ↔
      ∃ p, s.view x = some p ∧ p.slp.tokenid = tokenid ∧ p.slp.tokenType = tokenType := by
  simp only [tokenMembers, mem_filter, view_eq_some]
  cases s.transactionMap.lookup x with
  | none => simp
  | some p => simp

/-- The flow of one token in a validator. -/
def tokenFlow (s : Validator) (tokenid : Tokenid) (tokenType : UInt16) : Flow Txid Outpoint where
  nodes := s.tokenMembers tokenid tokenType
  source := Outpoint.txid
  amount := s.amountAt
  spends x := (s.transactionMap.lookup x).elim ∅ fun t =>
    {o ∈ t.inputs.toFinset | t.slp.type = .send ∧ o.txid ∈ s.tokenMembers tokenid tokenType}
  total x := (s.transactionMap.lookup x).elim 0 declaredTotal
  issued x := (s.transactionMap.lookup x).elim 0 fun p =>
    p.genesisQuantity + p.mintQuantity

variable {L : Ledger} {s : Validator}

/-- Inside a token the credit of an input is the amount it spends. -/
theorem credit_eq {tokenid : Tokenid} {tokenType : UInt16} {t : Transaction}
    (hid : t.slp.tokenid = tokenid) (hty : t.slp.tokenType = tokenType) (o : Outpoint) :
    credit s.view t o = if o.txid ∈ s.tokenMembers tokenid tokenType then s.amountAt o else 0 := by
  subst hid hty
  unfold credit amountAt
  cases hv : s.view o.txid with
  | none => simp [mem_tokenMembers, hv]
  | some p =>
      obtain ⟨-, hl⟩ := view_eq_some.mp hv
      simp [mem_tokenMembers, hv, hl, SameToken]

/-- Distinct outputs of one transaction carry no more than it declares. -/
theorem sum_amountAt_le {p : Transaction} {x : Txid} (hp : s.transactionMap.lookup x = some p)
    {O : Finset Outpoint} (hO : ∀ o ∈ O, o.txid = x) :
    ∑ o ∈ O, s.amountAt o ≤ p.declaredTotal := by
  have hinj : Set.InjOn (fun o : Outpoint => o.vout.toNat) O := by
    intro o ho r hr hor
    have hor' : o.vout = r.vout := UInt32.toNat_inj.mp hor
    have hid : o.txid = r.txid := (hO o ho).trans (hO r hr).symm
    cases o
    cases r
    simp_all
  calc ∑ o ∈ O, s.amountAt o
      = ∑ o ∈ O, (p.outputSlpAmount o.vout.toNat).toNat := by
        refine sum_congr rfl fun o ho => ?_
        have hox : o.txid = x := hO o ho
        rw [amountAt, hox, hp, Option.elim_some]
    _ = ∑ v ∈ O.image fun o => o.vout.toNat, (p.outputSlpAmount v).toNat :=
        (sum_image (f := fun v => (p.outputSlpAmount v).toNat) hinj).symm
    _ ≤ p.declaredTotal := sum_outputSlpAmount_le p _

/-- No transaction spends an outpoint of its token twice. -/
theorem Consistent.nodup_tokenInputs (h : Consistent L s) (tokenid : Tokenid) (tokenType : UInt16)
    {p : Transaction} {x : Txid} (hp : s.transactionMap.lookup x = some p) :
    (p.inputs.filter fun o => o.txid ∈ s.tokenMembers tokenid tokenType).Nodup := by
  refine List.nodup_iff_count_le_one.mpr fun o => ?_
  by_cases ho : o.txid ∈ s.tokenMembers tokenid tokenType
  · obtain ⟨q, hq, -⟩ := mem_tokenMembers.mp ho
    rw [List.count_filter (by simpa using ho)]
    exact L.spent_once (h.known hp) (KeyedMap.mem_iff.mpr ⟨q, h.known (view_eq_some.mp hq).2⟩)
  · rw [List.count_eq_zero_of_not_mem (by simp [ho])]
    exact zero_le_one

/-- The credits of a member are the amounts of the outpoints that it spends of its token. -/
theorem Consistent.sum_credit_eq (h : Consistent L s) {tokenid : Tokenid} {tokenType : UInt16}
    {p : Transaction} {x : Txid} (hp : s.view x = some p) (hid : p.slp.tokenid = tokenid)
    (hty : p.slp.tokenType = tokenType) : (p.inputs.map (credit s.view p)).sum =
      ∑ o ∈ p.inputs.toFinset with o.txid ∈ s.tokenMembers tokenid tokenType, s.amountAt o := by
  have hnodup := h.nodup_tokenInputs tokenid tokenType (view_eq_some.mp hp).2
  calc (p.inputs.map (credit s.view p)).sum
      = (p.inputs.map fun o =>
          if o.txid ∈ s.tokenMembers tokenid tokenType then s.amountAt o else 0).sum := by
        rw [List.map_congr_left fun o _ => credit_eq hid hty o]
    _ = ((p.inputs.filter fun o => o.txid ∈ s.tokenMembers tokenid tokenType).map
          s.amountAt).sum := by
        rw [List.sum_map_ite]
        simp
    _ = ∑ o ∈ (p.inputs.filter fun o => o.txid ∈ s.tokenMembers tokenid tokenType).toFinset,
          s.amountAt o := (List.sum_toFinset _ hnodup).symm
    _ = ∑ o ∈ p.inputs.toFinset with o.txid ∈ s.tokenMembers tokenid tokenType, s.amountAt o := by
        rw [List.toFinset_filter]
        simp

theorem Consistent.tokenFlow_balanced (h : Consistent L s) (tokenid : Tokenid)
    (tokenType : UInt16) : (s.tokenFlow tokenid tokenType).Balanced where
  declared := by
    intro x hx O hO
    obtain ⟨p, hp, -⟩ := mem_tokenMembers.mp hx
    obtain ⟨-, hl⟩ := view_eq_some.mp hp
    simp only [tokenFlow, hl, Option.elim_some]
    exact sum_amountAt_le hl hO
  covered := by
    intro x hx
    obtain ⟨p, hp, hid, hty⟩ := mem_tokenMembers.mp hx
    have hrule := h.rule_of_view hp
    simp only [tokenFlow, (view_eq_some.mp hp).2, Option.elim_some]
    unfold declaredTotal Transaction.genesisQuantity Transaction.mintQuantity
    unfold SlpRule at hrule
    cases hs : p.slp.slpTx with
    | genesis g => simp
    | mint m => simp
    | invalid => simp
    | send send =>
        simp only [hs] at hrule
        have hsend : p.slp.type = .send := SlpTransaction.type_eq_send.mpr ⟨send, hs⟩
        rw [h.sum_credit_eq hp hid hty] at hrule
        simpa [hsend] using hrule
  inside := by
    intro x hx o ho
    obtain ⟨p, hp, -⟩ := mem_tokenMembers.mp hx
    simp only [tokenFlow, (view_eq_some.mp hp).2, Option.elim_some, mem_filter] at ho
    exact ho.2.2
  once := by
    intro x hx y hy hxy
    obtain ⟨p, hp, -⟩ := mem_tokenMembers.mp hx
    obtain ⟨q, hq, -⟩ := mem_tokenMembers.mp hy
    refine Finset.disjoint_left.mpr fun o ho hr => hxy ?_
    simp only [tokenFlow, (view_eq_some.mp hp).2, (view_eq_some.mp hq).2, Option.elim_some,
      mem_filter, List.mem_toFinset] at ho hr
    obtain ⟨u, hu, -⟩ := mem_tokenMembers.mp ho.2.2
    exact L.spender_unique (h.known (view_eq_some.mp hp).2) (h.known (view_eq_some.mp hq).2)
      (KeyedMap.mem_iff.mpr ⟨u, h.known (view_eq_some.mp hu).2⟩) ho.1 hr.1

/-- The issued quantities of a token: one GENESIS and its MINTs. -/
theorem Consistent.sum_issued_le (h : Consistent L s) (tokenid : Tokenid) (tokenType : UInt16) :
    ∑ x ∈ s.tokenMembers tokenid tokenType, (s.tokenFlow tokenid tokenType).issued x ≤
      s.genesisQuantity tokenid tokenType + s.mintedQuantity tokenid tokenType := by
  -- A GENESIS of the token has the token id as its own id.
  have hother : ∀ x ∈ s.tokenMembers tokenid tokenType, x ≠ tokenid →
      (s.transactionMap.lookup x).elim 0 Transaction.genesisQuantity = 0 := by
    intro x hx hne
    obtain ⟨p, hp, hid, -⟩ := mem_tokenMembers.mp hx
    obtain ⟨-, hl⟩ := view_eq_some.mp hp
    rw [hl, Option.elim_some, Transaction.genesisQuantity]
    split
    · rename_i g hg
      rw [((L.hydrated (h.known hl)).genesis hg).1, KeyedMap.key_lookup hl] at hid
      exact absurd hid hne
    · rfl
  have hsplit : ∀ x, (s.tokenFlow tokenid tokenType).issued x =
      (s.transactionMap.lookup x).elim 0 Transaction.genesisQuantity +
        (s.transactionMap.lookup x).elim 0 Transaction.mintQuantity := by
    intro x
    simp only [tokenFlow]
    cases s.transactionMap.lookup x <;> rfl
  simp only [hsplit, sum_add_distrib]
  refine Nat.add_le_add_right ?_ _
  unfold genesisQuantity
  split_ifs with hmem
  · exact (sum_eq_single_of_mem tokenid hmem hother).le
  · exact (sum_eq_zero fun x hx => hother x hx fun hxt => hmem (hxt ▸ hx)).le

/-- No MINT carries the child type, and a child GENESIS issues one unit. -/
theorem Consistent.child_issued_le (h : Consistent L s) (tokenid : Tokenid) :
    s.genesisQuantity tokenid 0x41 + s.mintedQuantity tokenid 0x41 ≤ 1 := by
  have hmint : s.mintedQuantity tokenid 0x41 = 0 := by
    refine sum_eq_zero fun x hx => ?_
    obtain ⟨p, hp, -, hty⟩ := mem_tokenMembers.mp hx
    obtain ⟨-, hl⟩ := view_eq_some.mp hp
    rw [hl, Option.elim_some, Transaction.mintQuantity]
    split
    · rename_i m hm
      exact absurd hty ((L.hydrated (h.known hl)).mint hm)
    · rfl
  have hgen : s.genesisQuantity tokenid 0x41 ≤ 1 := by
    unfold genesisQuantity
    split_ifs with hmem
    · obtain ⟨p, hp, -, hty⟩ := mem_tokenMembers.mp hmem
      obtain ⟨-, hl⟩ := view_eq_some.mp hp
      rw [hl, Option.elim_some, Transaction.genesisQuantity]
      split
      · rename_i g hg
        rw [(((L.hydrated (h.known hl)).genesis hg).2 hty).1]
        rfl
      · exact zero_le_one
    · exact zero_le_one
  omega

theorem Consistent.unspent_le (h : Consistent L s) {tokenid : Tokenid} {tokenType : UInt16}
    {U : Finset Outpoint} (hU : ∀ o ∈ U, s.Unspent tokenid tokenType o) :
    ∑ o ∈ U, s.amountAt o ≤
      s.genesisQuantity tokenid tokenType + s.mintedQuantity tokenid tokenType := by
  refine ((h.tokenFlow_balanced tokenid tokenType).unspent_le (U := U)
    (fun o ho => (hU o ho).1) fun x hx => ?_).trans (h.sum_issued_le tokenid tokenType)
  obtain ⟨p, hp, -⟩ := mem_tokenMembers.mp hx
  obtain ⟨-, hl⟩ := view_eq_some.mp hp
  refine Finset.disjoint_left.mpr fun o ho hspent => ?_
  simp only [tokenFlow, hl, Option.elim_some, mem_filter, List.mem_toFinset] at hspent
  exact (hU o ho).2 x hx p hl hspent.1

/-- The accumulators of `check_send` on `tx` hold the exact sums after every
prefix of the amounts and of the inputs. -/
def ExactSums (s : Validator) (tx : Transaction) : Prop :=
  ∀ send, tx.slp.slpTx = .send send →
    (∀ amounts, amounts <+: send.amounts →
      (sumAmounts amounts).toNat = (amounts.map UInt64.toNat).sum) ∧
    ∀ inputs, inputs <+: tx.inputs → ∃ seen a,
      inputs.foldlM (s.addInputAmount (s.checkOutputsValid (s.valid.card + 1)) tx) (∅, 0) =
        .ok (seen, a) ∧ a.toNat = (inputs.map (credit s.view tx)).sum

theorem exactSums (s : Validator) {tx : Transaction} (h : tx.Hydrated) : s.ExactSums tx := by
  intro send hs
  constructor
  · intro amounts ha
    rw [sumAmounts_eq, BitVec.toNat_ofNat,
      Nat.mod_eq_of_lt (sum_amounts_lt h hs ha.length_le)]
  · intro inputs hin
    obtain ⟨seen, hfold⟩ := foldlM_addInputAmount s s.valid.card tx inputs (∅, 0)
    refine ⟨seen, _, hfold, ?_⟩
    have hzero : (0 : BitVec 128) + BitVec.ofNat 128 (inputs.map (credit s.view tx)).sum =
        BitVec.ofNat 128 (inputs.map (credit s.view tx)).sum := BitVec.zero_add _
    rw [hzero, BitVec.toNat_ofNat, Nat.mod_eq_of_lt (sum_credit_lt _ h hin.length_le)]

/-- After a run over a ledger, in whatever order, the unspent amounts of every
token are covered by its GENESIS and its MINTs, a child token has at most one
unit, and on the way no accumulator of `check_send` wrapped. -/
theorem addTxs_no_inflation (L : Ledger) (txs : List Transaction)
    (hmem : ∀ tx ∈ txs, L.T.lookup tx.txid = some tx) :
    (∃ s, Validator.empty.addTxs txs = .ok s ∧
      ∀ tokenid tokenType, ∀ U : Finset Outpoint, (∀ o ∈ U, s.Unspent tokenid tokenType o) →
        ∑ o ∈ U, s.amountAt o ≤
            s.genesisQuantity tokenid tokenType + s.mintedQuantity tokenid tokenType ∧
          (tokenType = 0x41 → ∑ o ∈ U, s.amountAt o ≤ 1)) ∧
    ∀ before tx after, txs = before ++ tx :: after →
      ∃ s, Validator.empty.addTxs before = .ok s ∧ (s.offered tx).ExactSums tx := by
  have hrun : ∀ before after, txs = before ++ after →
      ∃ s, Validator.empty.addTxs before = .ok s ∧ Consistent L s := by
    rintro before after rfl
    exact (Consistent.empty L).addTxs_consistent fun tx htx =>
      hmem tx (List.mem_append_left _ htx)
  constructor
  · obtain ⟨s, hs, h⟩ := hrun txs [] (List.append_nil _).symm
    refine ⟨s, hs, fun tokenid tokenType U hU => ?_⟩
    have hle := h.unspent_le hU
    refine ⟨hle, ?_⟩
    rintro rfl
    exact hle.trans (h.child_issued_le tokenid)
  · rintro before tx after rfl
    obtain ⟨s, hs, -⟩ := hrun before (tx :: after) rfl
    exact ⟨s, hs, exactSums _ (L.hydrated (hmem tx (by simp)))⟩

theorem addTxs_no_inflation_sample :
    (∃ s, Validator.empty.addTxs [sampleGenesis, sampleSend] = .ok s ∧
      ∀ tokenid tokenType, ∀ U : Finset Outpoint, (∀ o ∈ U, s.Unspent tokenid tokenType o) →
        ∑ o ∈ U, s.amountAt o ≤
            s.genesisQuantity tokenid tokenType + s.mintedQuantity tokenid tokenType ∧
          (tokenType = 0x41 → ∑ o ∈ U, s.amountAt o ≤ 1)) ∧
    ∀ before tx after, [sampleGenesis, sampleSend] = before ++ tx :: after →
      ∃ s, Validator.empty.addTxs before = .ok s ∧ (s.offered tx).ExactSums tx :=
  addTxs_no_inflation sampleLedger _ fun tx htx => (mem_sampleLedger tx).mp htx

end Validator
end SlpGraphSearch
