import SlpGraphSearch.TransactionEncoder

/-!
# Token outputs

`slp_outputs` by positions. The SLP message names outputs by number and is never
compared with the number of outputs; the SEND branch and the baton branch cut off what
does not exist, and the first token output of a GENESIS or MINT is indexed as it is.
-/
namespace SlpGraphSearch
open Library Transaction

namespace Transaction

/-- The SLP message names output `v`: by an amount of a SEND, as the first token output of
a GENESIS or MINT, or as its `mint_baton_vout`. -/
def NamesOutput (tx : Transaction) (v : ℕ) : Prop :=
  1 ≤ v ∧ match tx.slp.slpTx with
    | .send s => v ≤ s.amounts.length
    | .mint s => v = 1 ∨ v = s.mintBatonVout.toNat
    | .genesis s => v = 1 ∨ v = s.mintBatonVout.toNat
    | .invalid => False

/-- The list is made of the existing outputs that the message names. Every output with an
amount and an existing baton are among them. -/
structure ExactOutputs (tx : Transaction) (os : List Output) : Prop where
  existing : ∀ o ∈ os, o ∈ tx.outputs
  named : ∀ (v : ℕ) (o : Output), tx.outputs[v]? = some o → (o ∈ os ↔ tx.NamesOutput v)
  amount : ∀ (v : ℕ) (o : Output), tx.outputs[v]? = some o → 0 < tx.outputSlpAmount v → o ∈ os
  baton : ∀ o ∈ tx.outputs, o.outpoint = tx.mintBatonOutpoint → o.prevOutIdx ≠ 0 → o ∈ os

end Transaction

/-! ## The branches -/

theorem mem_batonOutputs_iff {outputs os : List Output} {vout : UInt32}
    (h : batonOutputs outputs vout = .ok os) {o : Output} :
    o ∈ os ↔ ∃ v, 1 ≤ v ∧ (v = 1 ∨ v = vout.toNat) ∧ outputs[v]? = some o := by
  have hzero : vout = 0 ↔ vout.toNat = 0 := UInt32.toNat_inj.symm
  unfold batonOutputs at h
  cases h₁ : outputs[1]? with
  | none => simp [h₁] at h
  | some o₁ =>
    cases hb : outputs[vout.toNat]? with
    | none =>
      have hos : [o₁] = os := by simpa [h₁, hb] using h
      subst hos
      grind
    | some b =>
      simp only [h₁, hb] at h
      split_ifs at h
      · have hos := Except.ok.inj h
        subst hos
        grind
      · have hos := Except.ok.inj h
        subst hos
        grind

theorem mem_drop_one_iff {l : List Output} {o : Output} :
    o ∈ l.drop 1 ↔ ∃ v, 1 ≤ v ∧ l[v]? = some o := by
  constructor
  · intro h
    obtain ⟨i, hi⟩ := List.mem_iff_getElem?.mp h
    rw [List.getElem?_drop] at hi
    exact ⟨1 + i, Nat.le_add_right 1 i, hi⟩
  · intro h
    obtain ⟨v, hv, ho⟩ := h
    apply List.mem_iff_getElem?.mpr
    refine ⟨v - 1, ?_⟩
    rw [List.getElem?_drop, Nat.add_sub_cancel' hv, ho]

theorem mem_take_drop_one_iff {l : List Output} {n : ℕ} {o : Output} :
    o ∈ (l.drop 1).take n ↔ ∃ v, 1 ≤ v ∧ v ≤ n ∧ l[v]? = some o := by
  constructor
  · intro h
    obtain ⟨i, hi⟩ := List.mem_iff_getElem?.mp h
    rw [List.getElem?_take] at hi
    split_ifs at hi with hlt
    · rw [List.getElem?_drop] at hi
      exact ⟨1 + i, by omega, by omega, hi⟩
  · intro h
    obtain ⟨v, hv, hle, ho⟩ := h
    apply List.mem_iff_getElem?.mpr
    refine ⟨v - 1, ?_⟩
    rw [List.getElem?_take, if_pos (by omega), List.getElem?_drop, Nat.add_sub_cancel' hv, ho]

/-- What `slp_outputs` returns is named by the message and exists. -/
theorem mem_slpOutputs_iff {tx : Transaction} {os : List Output} (h : tx.slpOutputs = .ok os)
    {o : Output} : o ∈ os ↔ ∃ v, tx.NamesOutput v ∧ tx.outputs[v]? = some o := by
  unfold Transaction.slpOutputs at h
  unfold Transaction.NamesOutput
  cases hs : tx.slp.slpTx with
  | invalid =>
    simp only [hs] at h
    have hos := Except.ok.inj h
    simp [← hos]
  | genesis s =>
    simp only [hs] at h
    simp only [mem_batonOutputs_iff h, and_assoc]
  | mint s =>
    simp only [hs] at h
    simp only [mem_batonOutputs_iff h, and_assoc]
  | send s =>
    simp only [hs] at h
    split_ifs at h with hnil hlen
    · -- every output but the first has an amount
      have hos := Except.ok.inj h
      rw [← hos, mem_drop_one_iff]
      apply exists_congr
      intro v
      have hlt : tx.outputs[v]? = some o → v < tx.outputs.length := fun ho =>
        (List.getElem?_eq_some_iff.mp ho).1
      grind
    · have hos := Except.ok.inj h
      rw [← hos, mem_take_drop_one_iff]
      simp only [and_assoc]

theorem mem_slpOutputs {tx : Transaction} {os : List Output} (h : tx.slpOutputs = .ok os)
    {o : Output} (ho : o ∈ os) : o ∈ tx.outputs := by
  obtain ⟨v, -, hv⟩ := (mem_slpOutputs_iff h).mp ho
  exact List.mem_of_getElem? hv

theorem batonOutputs_ok_iff {outputs : List Output} {vout : UInt32} :
    (∃ os, batonOutputs outputs vout = .ok os) ↔ 2 ≤ outputs.length := by
  unfold batonOutputs
  cases h₁ : outputs[1]? with
  | none =>
    have hlen := List.getElem?_eq_none_iff.mp h₁
    simp only [reduceCtorEq, exists_false, false_iff]
    omega
  | some o =>
    have hlen := (List.getElem?_eq_some_iff.mp h₁).1
    apply iff_of_true _ hlen
    simp only
    split_ifs
    · exact ⟨_, rfl⟩
    · cases outputs[vout.toNat]? <;> exact ⟨_, rfl⟩

/-- Two outputs where the message is a GENESIS or MINT are all that `slp_outputs` needs. -/
theorem slpOutputs_ok_iff {tx : Transaction} (h : tx.Hydrated) :
    (∃ os, tx.slpOutputs = .ok os) ↔
      (tx.slp.type = .genesis ∨ tx.slp.type = .mint → 2 ≤ tx.outputs.length) := by
  unfold Transaction.slpOutputs SlpTransaction.type
  cases hs : tx.slp.slpTx with
  | invalid => simp [SlpTx.type]
  | genesis s => simp [batonOutputs_ok_iff, SlpTx.type]
  | mint s => simp [batonOutputs_ok_iff, SlpTx.type]
  | send s =>
    have hne := h.outputs_ne_nil (by simp [SlpTransaction.type_eq_send.mpr ⟨s, hs⟩])
    simp only [if_neg hne, SlpTx.type, reduceCtorEq, or_self, false_implies, iff_true]
    split_ifs <;> exact ⟨_, rfl⟩

/-! ## Amounts and batons -/

theorem namesOutput_of_amount {tx : Transaction} {v : ℕ} (h : 0 < tx.outputSlpAmount v) :
    tx.NamesOutput v := by
  unfold Transaction.outputSlpAmount at h
  unfold Transaction.NamesOutput
  cases hs : tx.slp.slpTx with
  | invalid => simp [hs] at h
  | genesis s =>
    simp only [hs] at h
    split_ifs at h with hv
    · exact ⟨hv.ge, .inl hv⟩
    · simp at h
  | mint s =>
    simp only [hs] at h
    split_ifs at h with hv
    · exact ⟨hv.ge, .inl hv⟩
    · simp at h
  | send s =>
    simp only [hs] at h
    split_ifs at h with hv
    · refine ⟨hv, ?_⟩
      by_contra hgt
      rw [List.getD_eq_getElem?_getD, List.getElem?_eq_none (by omega)] at h
      simp at h
    · simp at h

theorem namesOutput_mintBatonOutpoint {tx : Transaction} (h : tx.mintBatonOutpoint.vout ≠ 0) :
    tx.NamesOutput tx.mintBatonOutpoint.vout.toNat := by
  have hpos : 1 ≤ tx.mintBatonOutpoint.vout.toNat := by
    apply Nat.one_le_iff_ne_zero.mpr
    exact fun hzero => h (UInt32.toNat_inj.mp hzero)
  refine ⟨hpos, ?_⟩
  unfold Transaction.mintBatonOutpoint at h ⊢
  cases hs : tx.slp.slpTx with
  | invalid => simp [hs] at h
  | send s => simp [hs] at h
  | genesis s =>
    simp only [hs] at h ⊢
    split_ifs at h ⊢
    · exact .inr rfl
    · exact absurd rfl h
  | mint s =>
    simp only [hs] at h ⊢
    split_ifs at h ⊢
    · exact .inr rfl
    · exact absurd rfl h

theorem exactOutputs_of_slpOutputs {tx : Transaction} (h : tx.Hydrated) {os : List Output}
    (hos : tx.slpOutputs = .ok os) : tx.ExactOutputs os where
  existing o ho := mem_slpOutputs hos ho
  named v o hv := by
    rw [mem_slpOutputs_iff hos]
    constructor
    · intro hex
      obtain ⟨w, hnames, hw⟩ := hex
      have hwv : w = v := (h.prevOutIdx_toNat hw).symm.trans (h.prevOutIdx_toNat hv)
      exact hwv ▸ hnames
    · exact fun hnames => ⟨v, hnames, hv⟩
  amount v o hv hpos := (mem_slpOutputs_iff hos).mpr ⟨v, namesOutput_of_amount hpos, hv⟩
  baton o ho hout hne := by
    have hvout : o.prevOutIdx = tx.mintBatonOutpoint.vout := congrArg Outpoint.vout hout
    apply (mem_slpOutputs_iff hos).mpr
    refine ⟨o.prevOutIdx.toNat, ?_, h.getElem?_prevOutIdx ho⟩
    rw [hvout]
    exact namesOutput_mintBatonOutpoint (hvout ▸ hne)

/-- `slp_outputs` gets through with exactly the outputs that the message names, unless the
transaction is a GENESIS or MINT whose OP_RETURN is its only output. -/
theorem slpOutputs_exact_iff (tx : Transaction) (h : tx.Hydrated) :
    (∃ os, tx.slpOutputs = .ok os ∧ tx.ExactOutputs os) ↔
      ¬ ((tx.slp.type = .genesis ∨ tx.slp.type = .mint) ∧ tx.outputs.length = 1) := by
  have hlen : tx.slp.type = .genesis ∨ tx.slp.type = .mint → 0 < tx.outputs.length := by
    intro hty
    apply List.length_pos_of_ne_nil
    apply h.outputs_ne_nil
    cases hty with
    | inl hg => simp [hg]
    | inr hm => simp [hm]
  constructor
  · intro hex hone
    obtain ⟨os, hos, -⟩ := hex
    have htwo := (slpOutputs_ok_iff h).mp ⟨os, hos⟩ hone.1
    omega
  · intro hnot
    have htwo : tx.slp.type = .genesis ∨ tx.slp.type = .mint → 2 ≤ tx.outputs.length := by
      intro hty
      have hpos := hlen hty
      have hne : tx.outputs.length ≠ 1 := fun hone => hnot ⟨hty, hone⟩
      omega
    obtain ⟨os, hos⟩ := (slpOutputs_ok_iff h).mpr htwo
    exact ⟨os, hos, exactOutputs_of_slpOutputs h hos⟩

theorem slpOutputs_exact_sample :
    ∃ os, sampleMint.slpOutputs = .ok os ∧ sampleMint.ExactOutputs os :=
  (slpOutputs_exact_iff sampleMint sampleMint_hydrated).mpr (by decide)

/-- A GENESIS without a token output. -/
def loneGenesis : Transaction :=
  let txid : Txid := ⟨
    [0x94, 0xAA, 0x2E, 0xB6, 0x18, 0x60, 0xA8, 0x41, 0xC4, 0x30, 0xEC, 0xD0, 0xFB, 0xDA, 0xFE,
     0x8F, 0x9F, 0xDC, 0xF2, 0xAB, 0xD5, 0x5D, 0x96, 0x6F, 0xE3, 0x1D, 0x4D, 0x3C, 0xBF, 0x68,
     0xF2, 0x42], rfl⟩
  encoded txid [⟨.zero, 1⟩] [opReturn (genesisPayloads 1 [2] 10)]
    ⟨txid, 1, .genesis ⟨[], [], [], [], 0, true, 2, 10⟩⟩

/-- Of a decoded GENESIS with one output `slp_outputs` reads the second. -/
theorem slpOutputs_outOfBounds :
    loneGenesis.Hydrated ∧ loneGenesis.slpOutputs = .error .outOfBounds :=
  ⟨hydrated_encoded (by decide) (by decide) (by decide) (by decide +kernel) (by decide +kernel),
    by decide⟩

end SlpGraphSearch
