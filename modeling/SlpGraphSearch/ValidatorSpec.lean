import SlpGraphSearch.SlpRules
import SlpGraphSearch.Validator

/-!
# What the validator decides

Each check of the validator against the rule of its transaction kind. The
recursion never goes deep: it only enters transactions that were accepted before,
so its bounds are never reached, and `check_mint` leaves its loop in the first
round.

`check_mint` does not quite decide its rule. Besides a valid parent it asks for a
valid grandparent, and it throws on grandparents that differ. Over a ledger both
are vacuous, since a valid MINT has a parent and baton holders form a line.
-/
namespace SlpGraphSearch
open Library Transaction

namespace Validator

/-- The transactions the validator holds as valid. -/
noncomputable def view (s : Validator) : ValidView := restrict s.transactionMap s.valid

theorem view_eq_some {s : Validator} {x : Txid} {p : Transaction} :
    s.view x = some p ↔ x ∈ s.valid ∧ s.transactionMap.lookup x = some p := by
  rw [view, restrict_eq_some, Finset.mem_coe]

theorem view_eq_none {s : Validator} {x : Txid} :
    s.view x = none ↔ x ∈ s.valid → s.transactionMap.lookup x = none := by
  rw [Option.eq_none_iff_forall_ne_some]
  constructor
  · intro h hx
    cases hl : s.transactionMap.lookup x with
    | none => rfl
    | some p => exact absurd (view_eq_some.mpr ⟨hx, hl⟩) (h p)
  · intro h p hp
    obtain ⟨hx, hl⟩ := view_eq_some.mp hp
    simp [h hx] at hl

theorem has_of_lookup {s : Validator} {x : Txid} {p : Transaction}
    (h : s.transactionMap.lookup x = some p) : s.has x = true := by
  rw [has, decide_eq_true_eq]
  exact KeyedMap.mem_iff.mpr ⟨p, h⟩

theorem has_of_lookup_none {s : Validator} {x : Txid} (h : s.transactionMap.lookup x = none) :
    s.has x = false := by
  rw [has, decide_eq_false_iff_not]
  exact KeyedMap.lookup_eq_none.mp h

/-! ## SEND -/

/-- A transaction in the view passes without recursion. -/
theorem checkOutputsValid_view {s : Validator} {x : Txid} {p : Transaction}
    (h : s.view x = some p) (fuel : ℕ) (seen : Finset Txid) :
    ∃ seen', s.checkOutputsValid (fuel + 1) seen p = .ok (true, seen') := by
  obtain ⟨hx, hl⟩ := view_eq_some.mp h
  have hid := KeyedMap.key_lookup hl
  have hhas : s.has p.txid = true := by rw [hid, has_of_lookup hl]
  have hvalid : s.hasValid p.txid = true := by
    rw [hid, hasValid, decide_eq_true_eq]
    exact hx
  unfold checkOutputsValid
  simp only [hhas, hvalid, not_true, if_true, if_false]
  split_ifs
  · exact ⟨_, rfl⟩
  · exact ⟨_, rfl⟩

theorem setWidth_toBitVec (n : UInt64) : n.toBitVec.setWidth 128 = BitVec.ofNat 128 n.toNat := by
  apply BitVec.eq_of_toNat_eq
  simp

/-- An input adds its credit. -/
theorem addInputAmount_eq (s : Validator) (fuel : ℕ) (tx : Transaction)
    (acc : Finset Txid × BitVec 128) (o : Outpoint) :
    ∃ seen, s.addInputAmount (s.checkOutputsValid (fuel + 1)) tx acc o =
      .ok (seen, acc.2 + BitVec.ofNat 128 (credit s.view tx o)) := by
  unfold addInputAmount credit
  cases hv : s.view o.txid with
  | none =>
      refine ⟨acc.1, ?_⟩
      by_cases hx : o.txid ∈ s.valid
      · simp [hasValid, hx, view_eq_none.mp hv hx]
      · simp [hasValid, hx]
  | some p =>
      obtain ⟨hx, hl⟩ := view_eq_some.mp hv
      obtain ⟨seen', hseen⟩ := checkOutputsValid_view hv fuel acc.1
      simp only [hasValid, hx, decide_true, not_true, if_false, hl, ne_eq]
      by_cases hsame : p.SameToken tx
      · rw [if_neg (not_not.mpr hsame.2.symm), if_neg (not_not.mpr hsame.1.symm), hseen]
        refine ⟨seen', ?_⟩
        simp only [bind, Except.bind, not_true, if_false, if_pos hsame, setWidth_toBitVec]
      · refine ⟨acc.1, ?_⟩
        rw [if_neg hsame, BitVec.add_zero]
        by_cases ht : tx.slp.tokenType = p.slp.tokenType
        · have hid : tx.slp.tokenid ≠ p.slp.tokenid := fun hid => hsame ⟨hid.symm, ht.symm⟩
          rw [if_neg (not_not.mpr ht), if_pos hid]
        · rw [if_pos ht]

theorem foldlM_addInputAmount (s : Validator) (fuel : ℕ) (tx : Transaction)
    (inputs : List Outpoint) (acc : Finset Txid × BitVec 128) :
    ∃ seen, inputs.foldlM (s.addInputAmount (s.checkOutputsValid (fuel + 1)) tx) acc =
      .ok (seen, acc.2 + BitVec.ofNat 128 (inputs.map (credit s.view tx)).sum) := by
  induction inputs generalizing acc with
  | nil => exact ⟨acc.1, by simp [pure, Except.pure]⟩
  | cons o inputs ih =>
      obtain ⟨seen, hseen⟩ := addInputAmount_eq s fuel tx acc o
      obtain ⟨seen', hseen'⟩ := ih (seen, acc.2 + BitVec.ofNat 128 (credit s.view tx o))
      refine ⟨seen', ?_⟩
      rw [List.foldlM_cons, hseen]
      simp only [bind, Except.bind, hseen', List.map_cons, List.sum_cons, BitVec.ofNat_add,
        BitVec.add_assoc]

theorem sumAmounts_eq (amounts : List UInt64) :
    sumAmounts amounts = BitVec.ofNat 128 (amounts.map UInt64.toNat).sum := by
  have h : ∀ acc : BitVec 128,
      amounts.foldl (fun acc n => acc + n.toBitVec.setWidth 128) acc =
        acc + BitVec.ofNat 128 (amounts.map UInt64.toNat).sum := by
    induction amounts with
    | nil => simp
    | cons n amounts ih =>
        intro acc
        rw [List.foldl_cons, ih, setWidth_toBitVec, List.map_cons, List.sum_cons,
          BitVec.ofNat_add, BitVec.add_assoc]
  rw [sumAmounts, h]
  exact BitVec.zero_add _

theorem credit_lt (prev : ValidView) (t : Transaction) (o : Outpoint) :
    credit prev t o < 2 ^ 64 := by
  unfold credit
  split
  · simp
  · split_ifs
    · exact UInt64.toNat_lt _
    · simp

/-- Numbers below `2 ^ 64`, fewer than a million of them, sum below `2 ^ 128`. -/
theorem sum_lt_of_length {l : List ℕ} (h : ∀ n ∈ l, n < 2 ^ 64) (hlen : l.length < maxTxSize) :
    l.sum < 2 ^ 128 := by
  have hle : l.sum ≤ l.length * 2 ^ 64 := List.sum_le_card_nsmul l _ fun n hn => (h n hn).le
  simp only [maxTxSize] at hlen
  omega

theorem sum_credit_lt (prev : ValidView) {tx : Transaction} (h : tx.Hydrated)
    {inputs : List Outpoint} (hin : inputs.length ≤ tx.inputs.length) :
    (inputs.map (credit prev tx)).sum < 2 ^ 128 := by
  have hlen := h.inputs_length
  refine sum_lt_of_length (List.forall_mem_map.mpr fun o _ => credit_lt prev tx o) ?_
  rw [List.length_map]
  omega

theorem sum_amounts_lt {tx : Transaction} (h : tx.Hydrated) {send : SlpTransactionSend}
    (hs : tx.slp.slpTx = .send send) {amounts : List UInt64}
    (ha : amounts.length ≤ send.amounts.length) :
    (amounts.map UInt64.toNat).sum < 2 ^ 128 := by
  have hlen := (h.send hs).2
  refine sum_lt_of_length (List.forall_mem_map.mpr fun n _ => n.toNat_lt) ?_
  rw [List.length_map, maxTxSize]
  omega

/-- `check_send` decides the rule. The bounds of a decoded transaction keep both
sums inside 128 bits. -/
theorem checkSend_eq (s : Validator) (fuel : ℕ) (seen : Finset Txid) {tx : Transaction}
    (h : tx.Hydrated) {send : SlpTransactionSend} (hs : tx.slp.slpTx = .send send) :
    ∃ b seen', s.checkSend (s.checkOutputsValid (fuel + 1)) seen tx = .ok (b, seen') ∧
      (b = true ↔ SlpRule s.view tx) := by
  obtain ⟨seen', hfold⟩ := foldlM_addInputAmount s fuel tx tx.inputs (seen, 0)
  have hin := sum_credit_lt s.view h le_rfl
  have hout := sum_amounts_lt h hs le_rfl
  have hzero : (0 : BitVec 128) + BitVec.ofNat 128 (tx.inputs.map (credit s.view tx)).sum =
      BitVec.ofNat 128 (tx.inputs.map (credit s.view tx)).sum := BitVec.zero_add _
  simp only [checkSend, hs, hfold, bind, Except.bind, hzero, sumAmounts_eq, BitVec.lt_def,
    BitVec.toNat_ofNat, Nat.mod_eq_of_lt hin, Nat.mod_eq_of_lt hout]
  have hrule : SlpRule s.view tx ↔
      (send.amounts.map UInt64.toNat).sum ≤ (tx.inputs.map (credit s.view tx)).sum := by
    rw [SlpRule, hs]
  rw [hrule]
  split_ifs with hlt
  · exact ⟨false, seen', rfl, by simpa using hlt⟩
  · exact ⟨true, seen', rfl, by simpa using hlt⟩

/-! ## MINT -/

theorem mintParent_eq_some {s : Validator} {front p : Transaction} {o : Outpoint} :
    s.mintParent front o = some p ↔ SpendsBaton s.view front o p := by
  unfold mintParent SpendsBaton
  cases hv : s.view o.txid with
  | none =>
      by_cases hx : o.txid ∈ s.valid
      · simp [hasValid, hx, view_eq_none.mp hv hx]
      · simp [hasValid, hx]
  | some q =>
      obtain ⟨hx, hl⟩ := view_eq_some.mp hv
      simp only [hasValid, hx, decide_true, not_true, if_false, hl, ne_eq, SameToken,
        IsAuthority, Option.some.injEq]
      constructor
      · intro h
        split_ifs at h with h₁ h₂ h₃ h₄ h₅
        all_goals
          obtain rfl : q = p := by simpa using h
        · exact ⟨rfl, ⟨h₁.symm, h₂.symm⟩, .inr h₄, h₃⟩
        · exact ⟨rfl, ⟨h₁.symm, h₂.symm⟩, .inl h₅, h₃⟩
      · rintro ⟨rfl, ⟨h₁, h₂⟩, ha, h₃⟩
        rw [if_neg (not_not.mpr h₁.symm), if_neg (not_not.mpr h₂.symm), if_neg (not_not.mpr h₃)]
        rcases ha with ha | ha
        · simp [ha]
        · simp [ha]

/-- The valid transactions whose batons the inputs spend. -/
theorem mem_walkMintsHome {s : Validator} {front back p : Transaction} :
    p ∈ s.walkMintsHome front back ↔
      front.SameToken back ∧ ∃ o ∈ back.inputs, SpendsBaton s.view front o p := by
  unfold walkMintsHome SameToken
  split_ifs with h₁ h₂
  · simp [h₁]
  · simp [h₂]
  · rw [not_not] at h₁ h₂
    simp [h₁, h₂, mintParent_eq_some]

theorem walkMintsHome_self {s : Validator} {tx p : Transaction} :
    p ∈ s.walkMintsHome tx tx ↔ ∃ o ∈ tx.inputs, SpendsBaton s.view tx o p := by
  rw [mem_walkMintsHome]
  exact and_iff_right ⟨rfl, rfl⟩

/-- The loop of `check_mint` ends in its first round. -/
theorem checkMint_eq (s : Validator) (tx : Transaction) :
    s.checkMint tx =
      if (s.walkMintsHome tx tx).any fun front => front.slp.type = .genesis then .ok true
      else match (s.walkMintsHome tx tx).flatMap fun front => s.walkMintsHome tx front with
        | [] => .ok false
        | i :: rest => if rest.any fun txi => i.txid ≠ txi.txid then .error .runtimeError
            else .ok true := by
  unfold checkMint checkMintLoop
  split_ifs with hg
  · rfl
  · cases hgrand : (s.walkMintsHome tx tx).flatMap fun front => s.walkMintsHome tx front with
    | nil => rfl
    | cons i rest =>
        have hi : i ∈ (s.walkMintsHome tx tx).flatMap fun front => s.walkMintsHome tx front := by
          rw [hgrand]
          exact List.mem_cons_self
        obtain ⟨front, -, hi⟩ := List.mem_flatMap.mp hi
        obtain ⟨-, o, -, hview, -⟩ := mem_walkMintsHome.mp hi
        obtain ⟨hx, hl⟩ := view_eq_some.mp hview
        rw [← KeyedMap.key_lookup hl] at hx
        simp [hasValid, hx]

theorem checkMint_ne_exhausted (s : Validator) (tx : Transaction) :
    s.checkMint tx ≠ .error .exhausted := by
  rw [checkMint_eq]
  split_ifs
  · simp
  · split
    · simp
    · split_ifs <;> simp

theorem slpRule_mint {prev : ValidView} {tx : Transaction} (hs : tx.slp.type = .mint) :
    SlpRule prev tx ↔ ∃ o ∈ tx.inputs, ∃ p, SpendsBaton prev tx o p := by
  obtain ⟨m, hm⟩ := SlpTransaction.type_eq_mint.mp hs
  simp only [SlpRule, hm]

/-- An accepted MINT spends the baton of a valid holder. -/
theorem checkMint_sound {s : Validator} {tx : Transaction} (hs : tx.slp.type = .mint)
    (h : s.checkMint tx = .ok true) : SlpRule s.view tx := by
  have hne : s.walkMintsHome tx tx ≠ [] := by
    intro hnil
    rw [checkMint_eq, hnil] at h
    simp at h
  obtain ⟨p, hp⟩ := List.exists_mem_of_ne_nil _ hne
  obtain ⟨o, ho, hbaton⟩ := walkMintsHome_self.mp hp
  exact (slpRule_mint hs).mpr ⟨o, ho, p, hbaton⟩

/-! ### Direct parents

`check_mint` against the parents alone. -/

/-- Some input spends a baton in the view, and all that do belong to one transaction. -/
def HasOneHolder (prev : ValidView) (p : Transaction) : Prop :=
  ∃ x, (∃ r ∈ p.inputs, ∃ g, SpendsBaton prev p r g) ∧
    ∀ r ∈ p.inputs, ∀ g, SpendsBaton prev p r g → g.txid = x

/-- A parent that is a MINT has a holder of its own behind it. -/
def ParentsStand (s : Validator) (tx : Transaction) : Prop :=
  ∀ o ∈ tx.inputs, ∀ p, SpendsBaton s.view tx o p →
    p.slp.type = .genesis ∨ HasOneHolder s.view p

/-- The batons that the inputs spend have one holder. -/
def OneParent (s : Validator) (tx : Transaction) : Prop :=
  ∀ o ∈ tx.inputs, ∀ r ∈ tx.inputs, ∀ p q, SpendsBaton s.view tx o p →
    SpendsBaton s.view tx r q → p = q

section

variable {s : Validator} {tx p : Transaction} {o : Outpoint}

/-- All of the walk over the inputs is the one parent. -/
theorem OneParent.eq_of_mem_walk (h : s.OneParent tx) (ho : o ∈ tx.inputs)
    (hp : SpendsBaton s.view tx o p) {q : Transaction} (hq : q ∈ s.walkMintsHome tx tx) :
    q = p := by
  obtain ⟨r, hr, hqr⟩ := walkMintsHome_self.mp hq
  exact h r hr o ho q p hqr hp

/-- The second walk finds the holders whose batons the parent spends. -/
theorem OneParent.mem_grandparents (h : s.OneParent tx) (ho : o ∈ tx.inputs)
    (hp : SpendsBaton s.view tx o p) {g : Transaction} :
    (g ∈ (s.walkMintsHome tx tx).flatMap fun front => s.walkMintsHome tx front) ↔
      ∃ r ∈ p.inputs, SpendsBaton s.view p r g := by
  have hsame : tx.SameToken p := ⟨hp.2.1.1.symm, hp.2.1.2.symm⟩
  rw [List.mem_flatMap]
  constructor
  · intro hg
    obtain ⟨q, hq, hgq⟩ := hg
    have hqp := h.eq_of_mem_walk ho hp hq
    subst hqp
    obtain ⟨-, r, hr, hbaton⟩ := mem_walkMintsHome.mp hgq
    exact ⟨r, hr, hbaton.of_sameToken hsame⟩
  · intro hg
    obtain ⟨r, hr, hbaton⟩ := hg
    refine ⟨p, walkMintsHome_self.mpr ⟨o, ho, hp⟩, mem_walkMintsHome.mpr ⟨hsame, r, hr, ?_⟩⟩
    exact hbaton.of_sameToken hp.2.1

theorem OneParent.any_genesis (h : s.OneParent tx) (ho : o ∈ tx.inputs)
    (hp : SpendsBaton s.view tx o p) :
    ((s.walkMintsHome tx tx).any fun front => front.slp.type = .genesis) = true ↔
      p.slp.type = .genesis := by
  rw [List.any_eq_true]
  constructor
  · intro hex
    obtain ⟨q, hq, hgen⟩ := hex
    exact h.eq_of_mem_walk ho hp hq ▸ of_decide_eq_true hgen
  · intro hgen
    exact ⟨p, walkMintsHome_self.mpr ⟨o, ho, hp⟩, decide_eq_true hgen⟩

theorem OneParent.parentsStand_iff (h : s.OneParent tx) (ho : o ∈ tx.inputs)
    (hp : SpendsBaton s.view tx o p) :
    s.ParentsStand tx ↔ p.slp.type = .genesis ∨ HasOneHolder s.view p := by
  constructor
  · exact fun hall => hall o ho p hp
  · intro hone r hr q hq
    exact h r hr o ho q p hq hp ▸ hone

/-- The test for the "mint rare condition" on the second walk. -/
theorem OneParent.hasOneHolder_iff (h : s.OneParent tx) (ho : o ∈ tx.inputs)
    (hp : SpendsBaton s.view tx o p) {i : Transaction} {rest : List Transaction}
    (hgrand : ((s.walkMintsHome tx tx).flatMap fun front => s.walkMintsHome tx front) = i :: rest) :
    HasOneHolder s.view p ↔ ∀ g ∈ rest, i.txid = g.txid := by
  have hmem : ∀ g, g ∈ i :: rest ↔ ∃ r ∈ p.inputs, SpendsBaton s.view p r g := by
    intro g
    rw [← hgrand]
    exact h.mem_grandparents ho hp
  constructor
  · intro hone g hg
    obtain ⟨x, -, hall⟩ := hone
    have htxid : ∀ g ∈ i :: rest, g.txid = x := by
      intro g hg
      obtain ⟨r, hr, hbaton⟩ := (hmem g).mp hg
      exact hall r hr g hbaton
    rw [htxid i List.mem_cons_self, htxid g (List.mem_cons_of_mem i hg)]
  · intro hrest
    obtain ⟨r, hr, hbaton⟩ := (hmem i).mp List.mem_cons_self
    refine ⟨i.txid, ⟨r, hr, i, hbaton⟩, ?_⟩
    intro r' hr' g hg
    cases List.mem_cons.mp ((hmem g).mpr ⟨r', hr', hg⟩) with
    | inl heq => rw [heq]
    | inr hin => exact (hrest g hin).symm

/-- With one parent, the answer is whether there is one, unless that parent is a MINT
without a holder behind it. -/
theorem OneParent.checkMint_iff (h : s.OneParent tx) :
    (∃ b, s.checkMint tx = .ok b ∧
      (b = true ↔ ∃ o ∈ tx.inputs, ∃ p, SpendsBaton s.view tx o p)) ↔ s.ParentsStand tx := by
  rw [checkMint_eq]
  by_cases hpar : ∃ o ∈ tx.inputs, ∃ p, SpendsBaton s.view tx o p
  · simp only [hpar, iff_true]
    obtain ⟨o, ho, p, hp⟩ := hpar
    rw [h.parentsStand_iff ho hp]
    split_ifs with hgen
    · simp [(h.any_genesis ho hp).mp hgen]
    · have hmint : p.slp.type ≠ .genesis := fun hg => hgen ((h.any_genesis ho hp).mpr hg)
      cases hgrand : (s.walkMintsHome tx tx).flatMap fun front => s.walkMintsHome tx front with
      | nil =>
        have hnone : ¬ HasOneHolder s.view p := by
          intro hone
          obtain ⟨x, ⟨r, hr, g, hbaton⟩, -⟩ := hone
          have hg := (h.mem_grandparents ho hp).mpr ⟨r, hr, hbaton⟩
          rw [hgrand] at hg
          exact absurd hg List.not_mem_nil
        simp [hmint, hnone]
      | cons i rest =>
        rw [h.hasOneHolder_iff ho hp hgrand]
        simp only [hmint, false_or]
        split_ifs with hdiff
        · obtain ⟨g, hg, hne⟩ := List.any_eq_true.mp hdiff
          simp only [false_and, exists_false, false_iff]
          intro hall
          exact of_decide_eq_true hne (hall g hg)
        · simp only [Except.ok.injEq, exists_eq_left', true_iff]
          intro g hg
          by_contra hne
          exact hdiff (List.any_eq_true.mpr ⟨g, hg, decide_eq_true hne⟩)
  · have hnil : s.walkMintsHome tx tx = [] := by
      apply List.eq_nil_iff_forall_not_mem.mpr
      intro q hq
      obtain ⟨r, hr, hbaton⟩ := walkMintsHome_self.mp hq
      exact hpar ⟨r, hr, q, hbaton⟩
    have hstand : s.ParentsStand tx := fun r hr q hq => absurd ⟨r, hr, q, hq⟩ hpar
    simp [hnil, hpar, hstand]

end

/-! ## GENESIS -/

theorem validateTx_view {s : Validator} {x : Txid} {p : Transaction} (h : s.view x = some p)
    (ht : p.slp.type ≠ .invalid) (fuel : ℕ) : s.validateTx (fuel + 1) p = .ok true := by
  obtain ⟨hx, hl⟩ := view_eq_some.mp h
  rw [← KeyedMap.key_lookup hl] at hx
  unfold validateTx
  rw [if_neg ht, if_pos (by simpa [hasValid] using hx)]

theorem outputSlpAmount_invalid {p : Transaction} (h : p.slp.type = .invalid) (vout : ℕ) :
    p.outputSlpAmount vout = 0 := by
  simp only [outputSlpAmount, SlpTransaction.type_eq_invalid.mp h]

/-- `check_genesis` decides the rule. -/
theorem checkGenesis_eq (s : Validator) (fuel : ℕ) {tx : Transaction}
    (hs : tx.slp.type = .genesis) :
    ∃ b, s.checkGenesis (s.validateTx (fuel + 1)) tx = .ok b ∧
      (b = true ↔ SlpRule s.view tx) := by
  obtain ⟨g, hg⟩ := SlpTransaction.type_eq_genesis.mp hs
  simp only [SlpRule, hg, checkGenesis]
  by_cases h41 : tx.slp.tokenType = 0x41
  · rw [if_pos h41]
    cases hin : tx.inputs with
    | nil => exact ⟨false, rfl, by simp [h41]⟩
    | cons o rest =>
        simp only [h41, forall_const, List.head?_cons, Option.some.injEq]
        cases hv : s.view o.txid with
        | none =>
            refine ⟨false, ?_, by simp [hv]⟩
            by_cases hx : o.txid ∈ s.valid
            · simp [hasValid, hx, view_eq_none.mp hv hx]
            · simp [hasValid, hx]
        | some p =>
            obtain ⟨hx, hl⟩ := view_eq_some.mp hv
            simp only [hasValid, hx, decide_true, not_true, if_false, hl, ne_eq]
            by_cases h81 : p.slp.tokenType = 0x81
            · by_cases hamount : p.outputSlpAmount o.vout.toNat < 1
              · refine ⟨false, by simp [h81, hamount], ?_⟩
                rw [UInt64.lt_iff_toNat_lt] at hamount
                simpa [hv, h81] using hamount
              · refine ⟨true, ?_, ?_⟩
                · rw [if_neg (not_not.mpr h81), if_neg hamount]
                  exact validateTx_view hv
                    (fun hinv => hamount (by rw [outputSlpAmount_invalid hinv]; decide)) fuel
                · rw [UInt64.lt_iff_toNat_lt, not_lt] at hamount
                  simpa [hv, h81] using hamount
            · refine ⟨false, by simp [h81], ?_⟩
              simp [hv, h81]
  · exact ⟨true, by rw [if_neg h41], by simp [h41]⟩

/-! ## Verdicts -/

/-- Outside MINT a fresh verdict is the rule. -/
theorem validateTx_eq (s : Validator) (fuel : ℕ) {tx : Transaction} (h : tx.Hydrated)
    (ht : tx.slp.type ≠ .invalid) (hx : tx.txid ∉ s.valid) (hm : tx.slp.type ≠ .mint) :
    ∃ b, s.validateTx (fuel + 2) tx = .ok b ∧ (b = true ↔ SlpRule s.view tx) := by
  unfold validateTx
  rw [if_neg ht, if_neg (by simpa [hasValid] using hx)]
  cases hty : tx.slp.type with
  | invalid => exact absurd hty ht
  | mint => exact absurd hty hm
  | genesis => exact checkGenesis_eq s fuel hty
  | send =>
      obtain ⟨send, hsend⟩ := SlpTransaction.type_eq_send.mp hty
      obtain ⟨b, seen', hb, hiff⟩ := checkSend_eq s fuel ∅ h hsend
      exact ⟨b, by simp [hb, bind, Except.bind], hiff⟩

theorem validateTx_mint (s : Validator) (fuel : ℕ) {tx : Transaction}
    (ht : tx.slp.type = .mint) (hx : tx.txid ∉ s.valid) :
    s.validateTx (fuel + 1) tx = s.checkMint tx := by
  unfold validateTx
  simp [ht, hasValid, hx]

/-- A fresh acceptance always follows the rule. -/
theorem validateTx_sound {s : Validator} {fuel : ℕ} {tx : Transaction} (h : tx.Hydrated)
    (ht : tx.slp.type ≠ .invalid) (hx : tx.txid ∉ s.valid)
    (hb : s.validateTx (fuel + 2) tx = .ok true) : SlpRule s.view tx := by
  by_cases hm : tx.slp.type = .mint
  · rw [validateTx_mint s (fuel + 1) hm hx] at hb
    exact checkMint_sound hm hb
  · obtain ⟨b, hb', hiff⟩ := validateTx_eq s fuel h ht hx hm
    rw [hb, Except.ok.injEq] at hb'
    exact hiff.mp hb'.symm

/-- The transaction under the id of `tx` once `tx` was offered. -/
def stored (s : Validator) (tx : Transaction) : Transaction :=
  (s.transactionMap.lookup tx.txid).getD tx

/-- The validator with `tx` stored and not yet judged. -/
def offered (s : Validator) (tx : Transaction) : Validator :=
  { s with transactionMap := s.transactionMap.emplace tx }

/-- Everything `add_tx` does with an SLP transaction it does not trust. -/
theorem addTx_eq (s : Validator) {tx : Transaction} (ht : tx.slp.type ≠ .invalid) :
    s.addTx tx false = ((s.offered tx).validateTx (s.valid.card + 2) (s.stored tx)).map
      fun verdict => (verdict && !s.has tx.txid,
        if verdict then { s.offered tx with valid := insert tx.txid s.valid }
        else s.offered tx) := by
  have hmem : (s.offered tx).has tx.txid = true := by simp [has, offered]
  have hget : (s.offered tx).get tx.txid = .ok (s.stored tx) := by
    simp [get, offered, KeyedMap.lookup_emplace, stored]
  have hcard : (s.offered tx).valid = s.valid := rfl
  simp only [addTx, ne_eq, ht, not_false_eq_true, if_true, Bool.false_eq_true, if_false]
  rw [← offered, validate, hmem, hget, hcard]
  simp only [not_true, if_false, bind, Except.bind]
  cases (s.offered tx).validateTx (s.valid.card + 2) (s.stored tx) with
  | error e => rfl
  | ok verdict => cases verdict <;> simp [addValidTxid, hcard, Except.map]

/-- Its verdict decides what becomes of the transaction. -/
theorem addTx_verdict {s s' : Validator} {tx : Transaction} {b : Bool}
    (ht : tx.slp.type ≠ .invalid) (h : s.addTx tx false = .ok (b, s')) :
    ∃ verdict,
      (s.offered tx).validateTx (s.valid.card + 2) (s.stored tx) = .ok verdict ∧
      b = (verdict && !s.has tx.txid) ∧
      s' = if verdict then { s.offered tx with valid := insert tx.txid s.valid }
        else s.offered tx := by
  rw [addTx_eq s ht] at h
  cases hv : (s.offered tx).validateTx (s.valid.card + 2) (s.stored tx) with
  | error e => simp [hv, Except.map] at h
  | ok verdict =>
      rw [hv, Except.map, Except.ok.injEq, Prod.mk.injEq] at h
      exact ⟨verdict, rfl, h.1.symm, h.2.symm⟩

theorem addTx_trusted (s : Validator) {tx : Transaction} (ht : tx.slp.type ≠ .invalid) :
    s.addTx tx true =
      .ok (!s.has tx.txid, { s.offered tx with valid := insert tx.txid s.valid }) := by
  simp [addTx, ht, addValidTxid, offered]

theorem addTx_invalid (s : Validator) {tx : Transaction} (ht : tx.slp.type = .invalid)
    (trusted : Bool) : s.addTx tx trusted = .ok (false, s) := by
  simp [addTx, ht]

/-- What `add_tx` can do with an unknown transaction: ignore what is no SLP
transaction, store and reject, or store and accept. -/
theorem addTx_unknown {s s' : Validator} {tx : Transaction} {trusted b : Bool}
    (hx : tx.txid ∉ s.transactionMap) (h : s.addTx tx trusted = .ok (b, s')) :
    tx.slp.type = .invalid ∧ b = false ∧ s' = s ∨
    tx.slp.type ≠ .invalid ∧ b = false ∧ s' = s.offered tx ∨
    tx.slp.type ≠ .invalid ∧ b = true ∧
      s' = { s.offered tx with valid := insert tx.txid s.valid } := by
  have hhas : s.has tx.txid = false := by simp [has, hx]
  by_cases ht : tx.slp.type = .invalid
  · rw [addTx_invalid s ht, Except.ok.injEq, Prod.mk.injEq] at h
    exact .inl ⟨ht, h.1.symm, h.2.symm⟩
  · cases trusted with
    | true =>
        rw [addTx_trusted s ht, Except.ok.injEq, Prod.mk.injEq, hhas] at h
        exact .inr (.inr ⟨ht, h.1.symm, h.2.symm⟩)
    | false =>
        obtain ⟨verdict, -, hb, hs'⟩ := addTx_verdict ht h
        rw [hhas] at hb
        cases verdict with
        | false => exact .inr (.inl ⟨ht, hb, hs'⟩)
        | true => exact .inr (.inr ⟨ht, hb, hs'⟩)

end Validator
end SlpGraphSearch
