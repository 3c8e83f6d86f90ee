import SlpGraphSearch.Library.Digits
import SlpGraphSearch.Transaction

/-!
# Cash addresses

The vendored encoder and decoder of addresses: a lower-case prefix, a colon, the payload
as digits of five bits, and a checksum of eight more digits. The checksum is a remainder
in a linear code, so digits that follow eight zeros can be chosen to clear it.
-/
namespace SlpGraphSearch
open Library

namespace Cashaddr

/-! ## Characters -/

/-- The digits and the end of the literal. -/
def charset : Bytes :=
  ['q', 'p', 'z', 'r', 'y', '9', 'x', '8', 'g', 'f', '2', 't', 'v', 'd', 'w', '0', 's', '3', 'j',
    'n', '5', '4', 'k', 'h', 'c', 'e', '6', 'm', 'u', 'a', '7', 'l'].map (fun c =>
      UInt8.ofNat c.toNat) ++ [0]

def charsetRev : List ℤ := [
  -1, -1, -1, -1, -1, -1, -1, -1, -1, -1, -1, -1, -1, -1, -1, -1, -1, -1, -1,
  -1, -1, -1, -1, -1, -1, -1, -1, -1, -1, -1, -1, -1, -1, -1, -1, -1, -1, -1,
  -1, -1, -1, -1, -1, -1, -1, -1, -1, -1, 15, -1, 10, 17, 21, 20, 26, 30, 7,
  5, -1, -1, -1, -1, -1, -1, -1, 29, -1, 24, 13, 25, 9, 8, 23, -1, 18, 22,
  31, 27, 19, -1, 1, 0, 3, 16, 11, 28, 12, 14, 6, 4, 2, -1, -1, -1, -1,
  -1, -1, 29, -1, 24, 13, 25, 9, 8, 23, -1, 18, 22, 31, 27, 19, -1, 1, 0,
  3, 16, 11, 28, 12, 14, 6, 4, 2, -1, -1, -1, -1, -1]

def IsLower (c : UInt8) : Prop := 97 ≤ c ∧ c ≤ 122

def IsDigit (c : UInt8) : Prop := 48 ≤ c ∧ c ≤ 57

instance : DecidablePred IsLower := fun c => inferInstanceAs (Decidable (97 ≤ c ∧ c ≤ 122))

instance : DecidablePred IsDigit := fun c => inferInstanceAs (Decidable (48 ≤ c ∧ c ≤ 57))

def lowerCase (c : UInt8) : UInt8 := c ||| 0x20

/-- The value of a character of the data part. -/
def charValue (c : UInt8) : Option UInt8 :=
  match charsetRev[c.toNat]? with
  | none => none
  | some v => if v = -1 then none else some (UInt8.ofNat v.toNat)

/-! ## Checksum -/

/-- One conditional addition of a multiple of the generator. -/
def reduce (c0 bit : BitVec 8) (k c : BitVec 64) : BitVec 64 :=
  if c0 &&& bit ≠ 0 then c ^^^ k else c

def polyModStep (c : BitVec 64) (d : UInt8) : BitVec 64 :=
  let c0 := (c >>> 35).setWidth 8
  let c := ((c &&& 0x07ffffffff) <<< 5) ^^^ d.toBitVec.setWidth 64
  let c := reduce c0 0x01 0x98f2bc8e61 c
  let c := reduce c0 0x02 0x79b76d99e2 c
  let c := reduce c0 0x04 0xf33e5fb3c4 c
  let c := reduce c0 0x08 0xae2eabe2a8 c
  reduce c0 0x10 0x1e4f43e470 c

def polyMod (v : Bytes) : BitVec 64 := v.foldl polyModStep 1 ^^^ 1

def expandPrefix (addrPrefix : Bytes) : Bytes := addrPrefix.map (· &&& 0x1f) ++ [0]

def verifyChecksum (addrPrefix payload : Bytes) : Bool :=
  polyMod (expandPrefix addrPrefix ++ payload) = 0

def createChecksum (addrPrefix payload : Bytes) : Bytes :=
  let mod := polyMod (expandPrefix addrPrefix ++ payload ++ List.replicate 8 0)
  (List.range 8).map fun i => UInt8.ofNat (mod >>> (5 * (7 - i)) &&& 0x1f).toNat

/-! ## Strings -/

def charAt (c : UInt8) : Except Failure UInt8 :=
  match charset[c.toNat]? with
  | none => .error .outOfBounds
  | some x => .ok x

def encode (addrPrefix payload : Bytes) : Except Failure Bytes := do
  let digits ← (payload ++ createChecksum addrPrefix payload).mapM charAt
  .ok (addrPrefix ++ 58 :: digits)

/-- The sanity checks on the characters from position `i` on. A result has the cases seen and
the length of the prefix. -/
def scan (lower upper : Bool) (prefixSize i : ℕ) : Bytes → Option (Bool × Bool × ℕ)
  | [] => some (lower, upper, prefixSize)
  | c :: str =>
      if IsLower c then scan true upper prefixSize (i + 1) str
      else if 65 ≤ c ∧ c ≤ 90 then scan lower true prefixSize (i + 1) str
      else if IsDigit c then
        if prefixSize = 0 then none else scan lower upper prefixSize (i + 1) str
      else if c = 58 then
        if i = 0 ∨ prefixSize ≠ 0 then none else scan lower upper i (i + 1) str
      else none

/-- An empty prefix means failure. The checksum is cut off without a test of the length. -/
def decode (str : Bytes) : Except Failure (Bytes × Bytes) :=
  match scan false false 0 0 str with
  | none => .ok ([], [])
  | some (lower, upper, prefixSize) =>
      if prefixSize = 0 ∨ (upper ∧ lower) then .ok ([], [])
      else
        let addrPrefix := (str.take prefixSize).map lowerCase
        match (str.drop (prefixSize + 1)).mapM charValue with
        | none => .ok ([], [])
        | some values =>
            if ¬ verifyChecksum addrPrefix values then .ok ([], [])
            else if values.length < 8 then .error .outOfBounds
            else .ok (addrPrefix, values.take (values.length - 8))

/-! ## The code is linear -/

theorem twoPow_ne_zero {n : ℕ} (hn : n < 8) : BitVec.twoPow 8 n ≠ 0 := by
  intro h
  have hbit := congrArg (fun x => x.getLsbD n) h
  simp [hn] at hbit

theorem reduce_eq {n : ℕ} (hn : n < 8) (x : BitVec 8) (k c : BitVec 64) :
    reduce x (BitVec.twoPow 8 n) k c = if x.getLsbD n then c ^^^ k else c := by
  rw [reduce, BitVec.and_twoPow]
  cases x.getLsbD n with
  | true => exact if_pos (twoPow_ne_zero hn)
  | false => exact if_neg fun h => h rfl

theorem reduce_xor {n : ℕ} (hn : n < 8) (x y : BitVec 8) (k c e : BitVec 64) :
    reduce (x ^^^ y) (BitVec.twoPow 8 n) k (c ^^^ e) =
      reduce x (BitVec.twoPow 8 n) k c ^^^ reduce y (BitVec.twoPow 8 n) k e := by
  simp only [reduce_eq hn, BitVec.getLsbD_xor]
  cases x.getLsbD n with
  | false =>
    cases y.getLsbD n with
    | false => rfl
    | true => exact BitVec.xor_assoc c e k
  | true =>
    cases y.getLsbD n with
    | false => simp only [Bool.xor_false, if_true]; ac_rfl
    | true =>
      have hcancel : c ^^^ k ^^^ (e ^^^ k) = c ^^^ e ^^^ (k ^^^ k) := by ac_rfl
      simp [hcancel]

theorem polyModStep_xor (c e : BitVec 64) (d f : UInt8) :
    polyModStep (c ^^^ e) (d ^^^ f) = polyModStep c d ^^^ polyModStep e f := by
  have hshift : (((c ^^^ e) &&& 0x07ffffffff) <<< 5) ^^^ (d ^^^ f).toBitVec.setWidth 64 =
      ((c &&& 0x07ffffffff) <<< 5) ^^^ d.toBitVec.setWidth 64 ^^^
        (((e &&& 0x07ffffffff) <<< 5) ^^^ f.toBitVec.setWidth 64) := by
    have hand : (c ^^^ e) &&& 0x07ffffffff = (c &&& 0x07ffffffff) ^^^ (e &&& 0x07ffffffff) := by
      apply BitVec.eq_of_getLsbD_eq
      intro i hi
      simp [Bool.and_xor_distrib_right]
    rw [hand, BitVec.shiftLeft_xor_distrib, UInt8.toBitVec_xor, BitVec.setWidth_xor]
    ac_rfl
  have hlow : ((c ^^^ e) >>> 35).setWidth 8 =
      (c >>> 35).setWidth 8 ^^^ ((e >>> 35).setWidth 8 : BitVec 8) := by
    rw [BitVec.ushiftRight_xor_distrib, BitVec.setWidth_xor]
  simp only [polyModStep, hshift, hlow]
  rw [show (0x01 : BitVec 8) = BitVec.twoPow 8 0 from rfl, reduce_xor (by decide),
    show (0x02 : BitVec 8) = BitVec.twoPow 8 1 from rfl, reduce_xor (by decide),
    show (0x04 : BitVec 8) = BitVec.twoPow 8 2 from rfl, reduce_xor (by decide),
    show (0x08 : BitVec 8) = BitVec.twoPow 8 3 from rfl, reduce_xor (by decide),
    show (0x10 : BitVec 8) = BitVec.twoPow 8 4 from rfl, reduce_xor (by decide)]

/-- The digits decide what is added to a run over zeros. -/
theorem foldl_polyModStep_eq_xor (c : BitVec 64) (v : Bytes) :
    v.foldl polyModStep c =
      (List.replicate v.length 0).foldl polyModStep c ^^^ v.foldl polyModStep 0 := by
  induction v using List.reverseRecOn with
  | nil => exact (BitVec.xor_zero).symm
  | append_singleton v d ih =>
    have hstep := polyModStep_xor ((List.replicate v.length 0).foldl polyModStep c)
      (v.foldl polyModStep 0) 0 d
    rw [UInt8.zero_xor, ← ih] at hstep
    rw [List.length_append, List.length_singleton, List.replicate_succ', List.foldl_append,
      List.foldl_append, List.foldl_append]
    exact hstep

/-! ## The remainder of a few digits -/

theorem reduce_zero (bit : BitVec 8) (k c : BitVec 64) : reduce 0 bit k c = c := by
  simp [reduce]

/-- No bit leaves the remainder. -/
theorem toNat_polyModStep {c : BitVec 64} {d : UInt8} (hc : c.toNat < 2 ^ 35)
    (hd : d.toNat < 2 ^ 5) : (polyModStep c d).toNat = c.toNat * 2 ^ 5 + d.toNat := by
  have hlow : (c >>> 35).setWidth 8 = (0 : BitVec 8) := by
    apply BitVec.eq_of_toNat_eq
    rw [BitVec.toNat_setWidth, BitVec.toNat_ushiftRight, Nat.shiftRight_eq_div_pow,
      Nat.div_eq_of_lt hc]
    rfl
  have hmask : c &&& 0x07ffffffff = c := by
    apply BitVec.eq_of_toNat_eq
    rw [BitVec.toNat_and]
    exact (Nat.and_two_pow_sub_one_eq_mod _ 35).trans (Nat.mod_eq_of_lt hc)
  have hshift : (c <<< 5).toNat = c.toNat * 2 ^ 5 := by
    rw [BitVec.toNat_shiftLeft, Nat.shiftLeft_eq]
    exact Nat.mod_eq_of_lt (by omega)
  simp only [polyModStep, hlow, reduce_zero, hmask, BitVec.toNat_xor, hshift]
  have hdigit : (d.toBitVec.setWidth 64).toNat = d.toNat := by simp
  rw [hdigit]
  have hdiv : (c.toNat * 2 ^ 5 ^^^ d.toNat) / 2 ^ 5 = c.toNat := by
    rw [Nat.xor_div_two_pow, Nat.mul_div_cancel _ (by decide), Nat.div_eq_of_lt hd, Nat.xor_zero]
  have hmod : (c.toNat * 2 ^ 5 ^^^ d.toNat) % 2 ^ 5 = d.toNat := by
    rw [Nat.xor_mod_two_pow, Nat.mul_mod_left, Nat.mod_eq_of_lt hd, Nat.zero_xor]
  omega

theorem toNat_foldl_polyModStep {v : Bytes} (hlen : v.length ≤ 8)
    (hv : ∀ d ∈ v, d.toNat < 2 ^ 5) :
    (v.foldl polyModStep 0).toNat = ofDigits 5 (v.map UInt8.toNat) := by
  induction v using List.reverseRecOn with
  | nil => rfl
  | append_singleton v d ih =>
    rw [List.length_append, List.length_singleton] at hlen
    have hfront : ∀ e ∈ v, e.toNat < 2 ^ 5 := fun e he => hv e (List.mem_append_left _ he)
    have hrest := ih (by omega) hfront
    have hsmall : ofDigits 5 (v.map UInt8.toNat) < 2 ^ 35 := by
      apply lt_of_lt_of_le (ofDigits_lt (w := 5) ?_)
      · apply Nat.pow_le_pow_right (by decide)
        rw [List.length_map]
        omega
      · intro n hn
        obtain ⟨e, he, rfl⟩ := List.mem_map.mp hn
        exact hfront e he
    rw [List.foldl_append, List.foldl_cons, List.foldl_nil, List.map_append, List.map_singleton,
      ofDigits_concat, toNat_polyModStep (by omega) (hv d (by simp)), hrest]

/-! ## Eight digits clear the remainder -/

theorem toNat_reduce_lt {c0 bit : BitVec 8} {k c : BitVec 64} (hk : k.toNat < 2 ^ 40)
    (hc : c.toNat < 2 ^ 40) : (reduce c0 bit k c).toNat < 2 ^ 40 := by
  unfold reduce
  split
  · rw [BitVec.toNat_xor]
    exact Nat.xor_lt_two_pow hc hk
  · exact hc

theorem toNat_polyModStep_lt {c : BitVec 64} (d : UInt8) :
    (polyModStep c d).toNat < 2 ^ 40 := by
  have hshift : ((c &&& 0x07ffffffff) <<< 5).toNat < 2 ^ 40 := by
    have hmask : (c &&& 0x07ffffffff).toNat < 2 ^ 35 := by
      rw [BitVec.toNat_and]
      exact (Nat.and_two_pow_sub_one_eq_mod _ 35).trans_lt (Nat.mod_lt _ (by decide))
    rw [BitVec.toNat_shiftLeft, Nat.shiftLeft_eq]
    exact (Nat.mod_le _ _).trans_lt (by omega)
  have hdigit : (d.toBitVec.setWidth 64).toNat < 2 ^ 40 := by
    rw [BitVec.toNat_setWidth]
    exact (Nat.mod_le _ _).trans_lt (d.toBitVec.isLt.trans (by decide))
  unfold polyModStep
  apply toNat_reduce_lt (by decide)
  apply toNat_reduce_lt (by decide)
  apply toNat_reduce_lt (by decide)
  apply toNat_reduce_lt (by decide)
  apply toNat_reduce_lt (by decide)
  rw [BitVec.toNat_xor]
  exact Nat.xor_lt_two_pow hshift hdigit

theorem toNat_polyMod_lt (v : Bytes) : (polyMod v).toNat < 2 ^ 40 := by
  rw [polyMod, BitVec.toNat_xor]
  apply Nat.xor_lt_two_pow _ (by decide)
  induction v using List.reverseRecOn with
  | nil => decide
  | append_singleton v d _ =>
    rw [List.foldl_append]
    exact toNat_polyModStep_lt d

theorem map_toNat_createChecksum (addrPrefix payload : Bytes) :
    (createChecksum addrPrefix payload).map UInt8.toNat =
      toDigits 5 8 (polyMod (expandPrefix addrPrefix ++ payload ++ List.replicate 8 0)).toNat := by
  rw [toDigits_eq_map, createChecksum, List.map_map]
  apply List.map_congr_left
  intro i hi
  have hmask : ∀ n : ℕ, n &&& 31 = n % 2 ^ 5 := fun n => Nat.and_two_pow_sub_one_eq_mod n 5
  simp only [Function.comp_apply, BitVec.toNat_and, BitVec.toNat_ushiftRight,
    Nat.shiftRight_eq_div_pow]
  rw [UInt8.toNat_ofNat']
  simp [hmask]
  omega

theorem lt_of_mem_createChecksum {addrPrefix payload : Bytes} {d : UInt8}
    (h : d ∈ createChecksum addrPrefix payload) : d.toNat < 2 ^ 5 := by
  have hmem := List.mem_map_of_mem (f := UInt8.toNat) h
  rw [map_toNat_createChecksum] at hmem
  exact lt_of_mem_toDigits hmem

theorem length_createChecksum (addrPrefix payload : Bytes) :
    (createChecksum addrPrefix payload).length = 8 := by
  rw [createChecksum, List.length_map, List.length_range]

theorem verifyChecksum_createChecksum (addrPrefix payload : Bytes) :
    verifyChecksum addrPrefix (payload ++ createChecksum addrPrefix payload) = true := by
  have hlen := length_createChecksum addrPrefix payload
  have hdigits := map_toNat_createChecksum addrPrefix payload
  have hsum : (createChecksum addrPrefix payload).foldl polyModStep 0 =
      polyMod (expandPrefix addrPrefix ++ payload ++ List.replicate 8 0) := by
    apply BitVec.eq_of_toNat_eq
    rw [toNat_foldl_polyModStep hlen.le fun d => lt_of_mem_createChecksum, hdigits,
      ofDigits_toDigits]
    exact Nat.mod_eq_of_lt (toNat_polyMod_lt _)
  rw [verifyChecksum, decide_eq_true_iff, polyMod, ← List.append_assoc, List.foldl_append,
    foldl_polyModStep_eq_xor, hlen, hsum, polyMod, List.foldl_append, ← BitVec.xor_assoc]
  simp

/-! ## Decoding an encoded string -/

theorem charAt_spec {c : UInt8} (hc : c.toNat < 32) :
    ∃ x, charAt c = .ok x ∧ (IsLower x ∨ IsDigit x) ∧ charValue x = some c := by
  have hall : ∀ n < 32, ∃ x ∈ charset[n]?, (IsLower x ∨ IsDigit x) ∧
      charValue x = some (UInt8.ofNat n) := by
    decide
  obtain ⟨x, hx, hspec⟩ := hall c.toNat hc
  rw [UInt8.ofNat_toNat] at hspec
  exact ⟨x, by rw [charAt, hx], hspec⟩

theorem mapM_charAt_spec {values : Bytes} (hv : ∀ v ∈ values, v.toNat < 32) :
    ∃ digits, values.mapM charAt = .ok digits ∧ (∀ x ∈ digits, IsLower x ∨ IsDigit x) ∧
      digits.mapM charValue = some values := by
  induction values with
  | nil => exact ⟨[], rfl, by simp, rfl⟩
  | cons c values ih =>
    obtain ⟨x, hx, hkind, hvalue⟩ := charAt_spec (hv c (by simp))
    obtain ⟨digits, hok, hdigits, hback⟩ := ih fun v h => hv v (List.mem_cons_of_mem _ h)
    refine ⟨x :: digits, ?_, ?_, ?_⟩
    · rw [List.mapM_cons, hx, hok]
      rfl
    · exact List.forall_mem_cons.mpr ⟨hkind, hdigits⟩
    · rw [List.mapM_cons, hvalue, hback]
      rfl

theorem digits_lt {payload : Bytes} (addrPrefix : Bytes) (hv : ∀ v ∈ payload, v.toNat < 32) :
    ∀ v ∈ payload ++ createChecksum addrPrefix payload, v.toNat < 32 := by
  intro v h
  cases List.mem_append.mp h with
  | inl hpayload => exact hv v hpayload
  | inr hchecksum => exact lt_of_mem_createChecksum hchecksum

theorem encode_ok {payload : Bytes} (addrPrefix : Bytes) (hv : ∀ v ∈ payload, v.toNat < 32) :
    ∃ str, encode addrPrefix payload = .ok str := by
  obtain ⟨digits, hok, -⟩ := mapM_charAt_spec (digits_lt addrPrefix hv)
  exact ⟨_, by rw [encode, hok]; rfl⟩

theorem lt_of_charValue {c v : UInt8} (h : charValue c = some v) : v.toNat < 32 := by
  have hall : ∀ z ∈ charsetRev, z ≠ -1 → (UInt8.ofNat z.toNat).toNat < 32 := by decide +kernel
  unfold charValue at h
  split at h
  · cases h
  · split at h
    · cases h
    · rename_i z hz hne
      cases h
      exact hall z (List.mem_of_getElem? hz) hne

theorem lt_of_mem_mapM_charValue {str values : Bytes} (h : str.mapM charValue = some values) :
    ∀ v ∈ values, v.toNat < 32 := by
  induction str generalizing values with
  | nil =>
    cases h
    simp
  | cons c str ih =>
    rw [List.mapM_cons] at h
    obtain ⟨v, hv, h⟩ := Option.bind_eq_some_iff.mp h
    obtain ⟨rest, hrest, h⟩ := Option.bind_eq_some_iff.mp h
    cases h
    exact List.forall_mem_cons.mpr ⟨lt_of_charValue hv, ih hrest⟩

theorem scan_lower {str : Bytes} (h : ∀ c ∈ str, IsLower c) (lower upper : Bool) (n i : ℕ)
    (rest : Bytes) : ∃ lower', scan lower upper n i (str ++ rest) =
      scan lower' upper n (i + str.length) rest := by
  induction str generalizing lower i with
  | nil => exact ⟨lower, rfl⟩
  | cons c str ih =>
    have hc : IsLower c := h c (by simp)
    obtain ⟨lower', hrest⟩ := ih (fun d hd => h d (List.mem_cons_of_mem _ hd)) true (i + 1)
    refine ⟨lower', ?_⟩
    rw [List.cons_append, scan, if_pos hc, hrest, List.length_cons, Nat.add_right_comm,
      Nat.add_assoc]

theorem scan_digits {str : Bytes} (h : ∀ c ∈ str, IsLower c ∨ IsDigit c) {n : ℕ} (hn : n ≠ 0)
    (lower upper : Bool) (i : ℕ) :
    ∃ lower', scan lower upper n i str = some (lower', upper, n) := by
  induction str generalizing lower i with
  | nil => exact ⟨lower, rfl⟩
  | cons c str ih =>
    have htail : ∀ d ∈ str, IsLower d ∨ IsDigit d := fun d hd => h d (List.mem_cons_of_mem _ hd)
    rw [scan]
    by_cases hlower : IsLower c
    · rw [if_pos hlower]
      exact ih htail true (i + 1)
    · have hdigit : IsDigit c := (h c (by simp)).resolve_left hlower
      have hupper : ¬ (65 ≤ c ∧ c ≤ 90) := by
        intro hup
        exact absurd (UInt8.le_trans hup.1 hdigit.2) (by decide)
      rw [if_neg hlower, if_neg hupper, if_pos hdigit, if_neg hn]
      exact ih htail lower (i + 1)

theorem lowerCase_eq {c : UInt8} (h : IsLower c) : lowerCase c = c := by
  have hall : ∀ n < 123, 97 ≤ n → lowerCase (UInt8.ofNat n) = UInt8.ofNat n := by decide
  have hone := hall c.toNat (Nat.lt_succ_of_le h.2) h.1
  rwa [UInt8.ofNat_toNat] at hone

/-- Every list of digits has a string that decodes to it. -/
theorem decode_encode {addrPrefix payload : Bytes} (hp : addrPrefix ≠ [])
    (hlower : ∀ c ∈ addrPrefix, IsLower c) (hv : ∀ v ∈ payload, v.toNat < 32) :
    ∃ str, encode addrPrefix payload = .ok str ∧ decode str = .ok (addrPrefix, payload) := by
  obtain ⟨digits, hok, hdigits, hvalues⟩ := mapM_charAt_spec (digits_lt addrPrefix hv)
  have hsize : addrPrefix.length ≠ 0 := fun h => hp (List.length_eq_zero_iff.mp h)
  obtain ⟨lower, hfront⟩ := scan_lower hlower false false 0 0 (58 :: digits)
  obtain ⟨lower', hback⟩ := scan_digits hdigits hsize lower false (addrPrefix.length + 1)
  have hscan : scan false false 0 0 (addrPrefix ++ 58 :: digits) =
      some (lower', false, addrPrefix.length) := by
    rw [hfront, Nat.zero_add, ← hback, scan, if_neg (by decide), if_neg (by decide),
      if_neg (by decide), if_pos rfl, if_neg (by simp [hsize])]
  have hcase : addrPrefix.map lowerCase = addrPrefix := by
    rw [List.map_congr_left fun c hc => lowerCase_eq (hlower c hc)]
    exact List.map_id _
  have hdata : (addrPrefix ++ 58 :: digits).drop (addrPrefix.length + 1) = digits := by
    simp
  have hlength : (payload ++ createChecksum addrPrefix payload).length = payload.length + 8 := by
    rw [List.length_append, length_createChecksum]
  refine ⟨addrPrefix ++ 58 :: digits, ?_, ?_⟩
  · rw [encode, hok]
    rfl
  · rw [decode, hscan]
    simp only [hsize, Bool.false_eq_true, false_and, or_self, if_false, List.take_left, hcase,
      hdata, hvalues, verifyChecksum_createChecksum, not_true_eq_false, hlength,
      Nat.add_sub_cancel]
    rw [if_neg (by omega)]

/-- The decoder returns digits. -/
theorem decode_values {str : Bytes} {decoded : Bytes × Bytes} (h : decode str = .ok decoded) :
    decoded.1 = [] ∨ ∀ v ∈ decoded.2, v.toNat < 32 := by
  unfold decode at h
  split at h
  · cases h
    exact .inl rfl
  · split at h
    · cases h
      exact .inl rfl
    · simp only at h
      split at h
      · cases h
        exact .inl rfl
      · rename_i values hvalues
        split at h
        · cases h
          exact .inl rfl
        · split at h
          · cases h
          · cases h
            exact .inr fun v hv => lt_of_mem_mapM_charValue hvalues v (List.mem_of_mem_take hv)

end Cashaddr
end SlpGraphSearch
