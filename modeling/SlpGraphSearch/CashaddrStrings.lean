import SlpGraphSearch.Cashaddr
import SlpGraphSearch.Library.Run

/-!
# Strings that decode

The decoder accepts a string only as the encoder would write it, up to the case of its
letters. Each step of the checksum can be undone, and eight digits reach every remainder in
one way; so digits that change within eight places are noticed.
-/
namespace SlpGraphSearch
open Library

namespace Cashaddr

/-! ## Steps are injective -/

/-- The bits that leave the remainder show in its last digit. -/
theorem eq_zero_of_polyModStep {c : BitVec 64} (hc : c.toNat < 2 ^ 40)
    (h : polyModStep c 0 = 0) : c = 0 := by
  obtain ⟨high, hhigh⟩ : ∃ high, high = BitVec.ofNat 64 (c.toNat / 2 ^ 35 * 2 ^ 35) := ⟨_, rfl⟩
  obtain ⟨low, hlow⟩ : ∃ low, low = BitVec.ofNat 64 (c.toNat % 2 ^ 35) := ⟨_, rfl⟩
  have hlowNat : low.toNat = c.toNat % 2 ^ 35 := by
    rw [hlow, BitVec.toNat_ofNat]
    omega
  have hhighNat : high.toNat = c.toNat / 2 ^ 35 * 2 ^ 35 := by
    rw [hhigh, BitVec.toNat_ofNat]
    omega
  have hsplit : c = high ^^^ low := by
    apply BitVec.eq_of_toNat_eq
    rw [BitVec.toNat_xor, hhighNat, hlowNat]
    have hdiv := Nat.xor_div_two_pow (a := c.toNat / 2 ^ 35 * 2 ^ 35) (b := c.toNat % 2 ^ 35)
      (n := 35)
    have hmod := Nat.xor_mod_two_pow (a := c.toNat / 2 ^ 35 * 2 ^ 35) (b := c.toNat % 2 ^ 35)
      (n := 35)
    rw [Nat.mul_div_cancel _ (by decide), Nat.div_eq_of_lt (Nat.mod_lt _ (by decide)),
      Nat.xor_zero] at hdiv
    rw [Nat.mul_mod_left, Nat.mod_mod, Nat.zero_xor] at hmod
    omega
  have hsteps := polyModStep_xor high low 0 0
  rw [UInt8.zero_xor, ← hsplit, h] at hsteps
  have hlast : (polyModStep high 0).toNat % 2 ^ 5 = 0 := by
    have hlowStep : (polyModStep low 0).toNat = low.toNat * 2 ^ 5 + 0 :=
      toNat_polyModStep (by omega) (by decide)
    have hxor := congrArg (fun x : BitVec 64 => x.toNat % 2 ^ 5) hsteps
    simp only [BitVec.toNat_xor, Nat.xor_mod_two_pow, hlowStep, Nat.add_zero, Nat.mul_mod_left,
      Nat.xor_zero] at hxor
    exact hxor.symm
  have hall : ∀ n < 32, (polyModStep (BitVec.ofNat 64 (n * 2 ^ 35)) 0).toNat % 2 ^ 5 = 0 →
      n = 0 := by decide +kernel
  have hzero := hall (c.toNat / 2 ^ 35) (by omega) (hhigh ▸ hlast)
  have hstep := toNat_polyModStep (c := c) (d := 0) (by omega) (by decide)
  rw [h] at hstep
  apply BitVec.eq_of_toNat_eq
  change 0 = c.toNat * 2 ^ 5 + 0 at hstep
  change c.toNat = 0
  omega

theorem polyModStep_injective {c e : BitVec 64} {d : UInt8} (hc : c.toNat < 2 ^ 40)
    (he : e.toNat < 2 ^ 40) (h : polyModStep c d = polyModStep e d) : c = e := by
  have hxor := polyModStep_xor c e d d
  rw [h, BitVec.xor_self, UInt8.xor_self] at hxor
  have hlt : (c ^^^ e).toNat < 2 ^ 40 := by
    rw [BitVec.toNat_xor]
    exact Nat.xor_lt_two_pow hc he
  exact BitVec.xor_eq_zero_iff.mp (eq_zero_of_polyModStep hlt hxor)

theorem toNat_foldl_polyModStep_lt {c : BitVec 64} (hc : c.toNat < 2 ^ 40) (v : Bytes) :
    (v.foldl polyModStep c).toNat < 2 ^ 40 := by
  induction v generalizing c with
  | nil => exact hc
  | cons d v ih => exact ih (toNat_polyModStep_lt d)

theorem foldl_polyModStep_injective {v : Bytes} {c e : BitVec 64} (hc : c.toNat < 2 ^ 40)
    (he : e.toNat < 2 ^ 40) (h : v.foldl polyModStep c = v.foldl polyModStep e) : c = e := by
  induction v generalizing c e with
  | nil => exact h
  | cons d v ih =>
      exact polyModStep_injective hc he (ih (toNat_polyModStep_lt d) (toNat_polyModStep_lt d) h)

/-- Up to eight digits are determined by what they do to a remainder. -/
theorem eq_of_foldl_polyModStep {c : BitVec 64} {w w' : Bytes} (hlen : w.length = w'.length)
    (hshort : w.length ≤ 8) (hw : ∀ d ∈ w, d.toNat < 2 ^ 5) (hw' : ∀ d ∈ w', d.toNat < 2 ^ 5)
    (h : w.foldl polyModStep c = w'.foldl polyModStep c) : w = w' := by
  rw [foldl_polyModStep_eq_xor c w, foldl_polyModStep_eq_xor c w', hlen] at h
  have hzero : w.foldl polyModStep 0 = w'.foldl polyModStep 0 := by
    have hcancel := congrArg
      ((List.replicate w'.length 0).foldl polyModStep c ^^^ ·) h
    simpa [← BitVec.xor_assoc] using hcancel
  have hdigits : ofDigits 5 (w.map UInt8.toNat) = ofDigits 5 (w'.map UInt8.toNat) := by
    rw [← toNat_foldl_polyModStep hshort hw, ← toNat_foldl_polyModStep (hlen ▸ hshort) hw', hzero]
  have hback : ∀ {u : Bytes}, (∀ d ∈ u, d.toNat < 2 ^ 5) →
      toDigits 5 u.length (ofDigits 5 (u.map UInt8.toNat)) = u.map UInt8.toNat := by
    intro u hu
    have hround : toDigits 5 (u.map UInt8.toNat).length (ofDigits 5 (u.map UInt8.toNat)) =
        u.map UInt8.toNat := by
      refine toDigits_ofDigits fun n hn => ?_
      obtain ⟨d, hd, rfl⟩ := List.mem_map.mp hn
      exact hu d hd
    rwa [List.length_map] at hround
  have hmaps : w.map UInt8.toNat = w'.map UInt8.toNat := by
    rw [← hback hw, ← hback hw', hdigits, hlen]
  exact List.map_injective_iff.mpr (fun _ _ => UInt8.toNat_inj.mp) hmaps

/-- A checksum admits one choice of up to eight digits in a row. -/
theorem eq_of_verifyChecksum {addrPrefix front w w' back : Bytes} (hlen : w.length = w'.length)
    (hshort : w.length ≤ 8) (hw : ∀ d ∈ w, d.toNat < 2 ^ 5) (hw' : ∀ d ∈ w', d.toNat < 2 ^ 5)
    (h : verifyChecksum addrPrefix (front ++ w ++ back) = true)
    (h' : verifyChecksum addrPrefix (front ++ w' ++ back) = true) : w = w' := by
  have hzero : ∀ v : Bytes, verifyChecksum addrPrefix v = true →
      (expandPrefix addrPrefix ++ v).foldl polyModStep 1 = 1 := by
    intro v hv
    exact BitVec.xor_eq_zero_iff.mp (decide_eq_true_iff.mp hv)
  have hboth := (hzero _ h).trans (hzero _ h').symm
  simp only [List.foldl_append] at hboth
  have hone : (1 : BitVec 64).toNat < 2 ^ 40 := by decide
  have hfront := toNat_foldl_polyModStep_lt (toNat_foldl_polyModStep_lt hone
    (expandPrefix addrPrefix)) front
  exact eq_of_foldl_polyModStep hlen hshort hw hw' (foldl_polyModStep_injective
    (toNat_foldl_polyModStep_lt hfront w) (toNat_foldl_polyModStep_lt hfront w') hboth)

/-! ## Characters and prefixes -/

def IsLetter (c : UInt8) : Prop := IsLower c ∨ 65 ≤ c ∧ c ≤ 90

/-- A value belongs to one character, in either case. -/
theorem charAt_of_charValue {c v : UInt8} (h : charValue c = some v) :
    charAt v = .ok (lowerCase c) := by
  have hall : ∀ n < 256, ∀ v ∈ charValue (UInt8.ofNat n),
      charset[v.toNat]? = some (lowerCase (UInt8.ofNat n)) := by decide +kernel
  have hone := hall c.toNat c.toNat_lt v
  rw [UInt8.ofNat_toNat] at hone
  rw [charAt, hone h]

theorem mapM_charAt_of_charValue {str values : Bytes} (h : str.mapM charValue = some values) :
    values.mapM charAt = .ok (str.map lowerCase) := by
  induction str generalizing values with
  | nil =>
    cases h
    rfl
  | cons c str ih =>
    rw [List.mapM_cons] at h
    obtain ⟨v, hv, h⟩ := Option.bind_eq_some_iff.mp h
    obtain ⟨rest, hrest, h⟩ := Option.bind_eq_some_iff.mp h
    cases h
    rw [List.mapM_cons, charAt_of_charValue hv, ih hrest]
    rfl

/-- `LowerCase` maps control characters onto digits too. This one changes letters only. -/
def foldCase (c : UInt8) : UInt8 := if 65 ≤ c ∧ c ≤ 90 then lowerCase c else c

/-- What has a value is a letter or a digit, so the two agree. -/
theorem kind_of_charValue {c v : UInt8} (h : charValue c = some v) :
    (IsLetter c ∨ IsDigit c) ∧ lowerCase c = foldCase c := by
  have hall : ∀ n < 256, (charValue (UInt8.ofNat n)).isSome →
      ((IsLower (UInt8.ofNat n) ∨ 65 ≤ UInt8.ofNat n ∧ UInt8.ofNat n ≤ 90) ∨
        IsDigit (UInt8.ofNat n)) ∧ lowerCase (UInt8.ofNat n) = foldCase (UInt8.ofNat n) := by
    decide +kernel
  have hone := hall c.toNat c.toNat_lt
  rw [UInt8.ofNat_toNat] at hone
  exact hone (Option.isSome_of_mem h)

theorem kind_of_mapM_charValue {str values : Bytes} (h : str.mapM charValue = some values) :
    (∀ c ∈ str, IsLetter c ∨ IsDigit c) ∧ str.map lowerCase = str.map foldCase := by
  have hall : ∀ c ∈ str, (IsLetter c ∨ IsDigit c) ∧ lowerCase c = foldCase c := by
    induction str generalizing values with
    | nil => exact fun c hc => absurd hc List.not_mem_nil
    | cons c str ih =>
      rw [List.mapM_cons] at h
      obtain ⟨v, hv, h⟩ := Option.bind_eq_some_iff.mp h
      obtain ⟨rest, hrest, -⟩ := Option.bind_eq_some_iff.mp h
      exact List.forall_mem_cons.mpr ⟨kind_of_charValue hv, ih hrest⟩
  exact ⟨fun c hc => (hall c hc).1, List.map_congr_left fun c hc => (hall c hc).2⟩

/-- Behind a prefix there is no other. -/
theorem prefixSize_of_scan {str : Bytes} {lower upper lower' upper' : Bool} {n i m : ℕ}
    (hn : n ≠ 0) (h : scan lower upper n i str = some (lower', upper', m)) : m = n := by
  induction str generalizing lower upper i with
  | nil =>
    cases h
    rfl
  | cons c str ih =>
    rw [scan] at h
    split_ifs at h with h₁ h₂ h₃ h₄ h₅
    · exact ih h
    · exact ih h
    · exact ih h
    · exact absurd (.inr hn) h₅

/-- What passes has letters up to a colon. -/
theorem exists_prefix_of_scan {str : Bytes} {lower upper lower' upper' : Bool} {i m : ℕ}
    (hm : m ≠ 0) (h : scan lower upper 0 i str = some (lower', upper', m)) :
    ∃ q data, str = q ++ 58 :: data ∧ (∀ c ∈ q, IsLetter c) ∧ m = i + q.length := by
  induction str generalizing lower upper i with
  | nil =>
    cases h
    exact absurd rfl hm
  | cons c str ih =>
    rw [scan] at h
    split_ifs at h with h₁ h₂ h₃ h₄ h₅ h₆
    · obtain ⟨q, data, rfl, hq, rfl⟩ := ih h
      refine ⟨c :: q, data, rfl, List.forall_mem_cons.mpr ⟨.inl h₁, hq⟩, ?_⟩
      rw [List.length_cons]
      omega
    · obtain ⟨q, data, rfl, hq, rfl⟩ := ih h
      refine ⟨c :: q, data, rfl, List.forall_mem_cons.mpr ⟨.inr h₂, hq⟩, ?_⟩
      rw [List.length_cons]
      omega
    · exact absurd rfl h₄
    · have hi : i ≠ 0 := fun hzero => h₆ (.inl hzero)
      obtain rfl := prefixSize_of_scan hi h
      exact ⟨[], str, by rw [h₅]; rfl, by simp, rfl⟩

/-! ## Accepted strings -/

/-- The string is a prefix of letters, a colon and digits that the checksum accepts. -/
structure Accepted (str q data values : Bytes) : Prop where
  split : str = q ++ 58 :: data
  letters : ∀ c ∈ q, IsLetter c
  nonempty : q ≠ []
  digits : data.mapM charValue = some values
  checked : verifyChecksum (q.map lowerCase) values = true
  long : 8 ≤ values.length

theorem accepted_of_decode {str addrPrefix payload : Bytes}
    (h : decode str = .ok (addrPrefix, payload)) (hp : addrPrefix ≠ []) :
    ∃ q data values, Accepted str q data values ∧ addrPrefix = q.map lowerCase ∧
      payload = values.take (values.length - 8) := by
  unfold decode at h
  split at h
  · cases h
    exact absurd rfl hp
  · rename_i lower upper prefixSize hscan
    split at h
    · cases h
      exact absurd rfl hp
    · rename_i hsize
      rw [not_or] at hsize
      obtain ⟨q, data, rfl, hq, hm⟩ := exists_prefix_of_scan hsize.1 hscan
      rw [Nat.zero_add] at hm
      have hne : q ≠ [] := fun hnil => hsize.1 (by rw [hm, hnil]; rfl)
      have hdata : (q ++ 58 :: data).drop (prefixSize + 1) = data := by
        rw [hm, ← List.drop_drop, List.drop_left]
        rfl
      simp only [hm, List.take_left] at h
      rw [← hm, hdata] at h
      split at h
      · cases h
        exact absurd rfl hp
      · rename_i values hvalues
        split_ifs at h with hcheck hlong
        · cases h
          exact ⟨q, data, values, ⟨rfl, hq, hne, hvalues, hcheck, Nat.not_lt.mp hlong⟩, rfl, rfl⟩
        · cases h
          exact absurd rfl hp

theorem isLower_lowerCase {c : UInt8} (h : IsLetter c) : IsLower (lowerCase c) := by
  have hall : ∀ n < 256, IsLower (UInt8.ofNat n) ∨ 65 ≤ UInt8.ofNat n ∧ UInt8.ofNat n ≤ 90 →
      IsLower (lowerCase (UInt8.ofNat n)) := by decide +kernel
  have hone := hall c.toNat c.toNat_lt
  rw [UInt8.ofNat_toNat] at hone
  exact hone h

/-- What is accepted consists of letters, digits and the colon. With its letters in lower case
it is what the encoder writes for the result. -/
theorem decode_canonical {str addrPrefix payload : Bytes}
    (h : decode str = .ok (addrPrefix, payload)) (hp : addrPrefix ≠ []) :
    encode addrPrefix payload = .ok (str.map lowerCase) ∧
      (∀ c ∈ str, IsLetter c ∨ IsDigit c ∨ c = 58) ∧ (∀ c ∈ addrPrefix, IsLower c) ∧
      ∀ v ∈ payload, v.toNat < 32 := by
  obtain ⟨q, data, values, hacc, rfl, hpayload⟩ := accepted_of_decode h hp
  have hlt := lt_of_mem_mapM_charValue hacc.digits
  obtain ⟨check, hcheck⟩ : ∃ check, check = values.drop (values.length - 8) := ⟨_, rfl⟩
  have hsplit : values = payload ++ check := by
    rw [hpayload, hcheck, List.take_append_drop]
  have hlen : check.length = 8 := by
    have hlong := hacc.long
    rw [hcheck, List.length_drop]
    omega
  have hmem : ∀ v ∈ payload, v.toNat < 32 := fun v hv =>
    hlt v (hsplit ▸ List.mem_append_left _ hv)
  have hsame : check = createChecksum (q.map lowerCase) payload := by
    have hread : verifyChecksum (q.map lowerCase) (payload ++ check ++ []) = true := by
      rw [List.append_nil, ← hsplit]
      exact hacc.checked
    have hwritten : verifyChecksum (q.map lowerCase)
        (payload ++ createChecksum (q.map lowerCase) payload ++ []) = true := by
      rw [List.append_nil]
      exact verifyChecksum_createChecksum _ _
    exact eq_of_verifyChecksum (by rw [hlen, length_createChecksum]) hlen.le
      (fun v hv => hlt v (hsplit ▸ List.mem_append_right _ hv))
      (fun v => lt_of_mem_createChecksum) hread hwritten
  refine ⟨?_, ?_, ?_, hmem⟩
  · have hcolon : lowerCase 58 = 58 := by decide
    rw [encode, ← hsame, ← hsplit, mapM_charAt_of_charValue hacc.digits, hacc.split,
      List.map_append, List.map_cons, hcolon]
    rfl
  · intro c hc
    rw [hacc.split, List.mem_append, List.mem_cons] at hc
    rcases hc with hc | hc | hc
    · exact .inl (hacc.letters c hc)
    · exact .inr (.inr hc)
    · exact ((kind_of_mapM_charValue hacc.digits).1 c hc).imp_right .inl
  · intro c hc
    obtain ⟨d, hd, rfl⟩ := List.mem_map.mp hc
    exact isLower_lowerCase (hacc.letters d hd)

/-- An address in upper case. -/
def sampleAddress : Bytes :=
  ['S', 'I', 'M', 'P', 'L', 'E', 'L', 'E', 'D', 'G', 'E', 'R', ':', 'Q', 'P', 'M', '2', 'Q', 'S',
    'Z', 'N', 'H', 'K', 'S', '2', '3', 'Z', '7', '6', '2', '9', 'M', 'M', 'S', '6', 'S', '4', 'C',
    'W', 'E', 'F', '7', '4', 'V', 'C', 'W', 'V', 'G', '3', 'P', 'N', 'C', 'X', 'Y', 'R'].map
    fun c => UInt8.ofNat c.toNat

theorem decode_canonical_sample : ∃ addrPrefix payload,
    decode sampleAddress = .ok (addrPrefix, payload) ∧ payload.length = 34 ∧
      encode addrPrefix payload = .ok (sampleAddress.map lowerCase) := by
  have hread : ∃ r, decode sampleAddress = .ok r ∧ r.1 ≠ [] ∧ r.2.length = 34 := by decide +kernel
  obtain ⟨⟨addrPrefix, payload⟩, hdecode, hne, hlen⟩ := hread
  exact ⟨addrPrefix, payload, hdecode, hlen, (decode_canonical hdecode hne).1⟩

end Cashaddr
end SlpGraphSearch
