import SlpGraphSearch.Cashaddr
import SlpGraphSearch.Library.Binary32
import SlpGraphSearch.Library.WrappedWrites
import Mathlib.Algebra.Order.Floor.Semifield

/-!
# Addresses of scripts

Scripts and the addresses that clients write for them. Both directions change between
bytes and digits of five bits with one converter, whose index into its result is a byte.
-/
namespace SlpGraphSearch
open Library

namespace Scriptpubkey

/-! ## The converter -/

/-- `1.f * size * from / to` is computed in single precision. -/
def conversionLength (size : ℕ) (fromBits toBits : UInt8) (strictMode : Bool) : ℕ :=
  let length := binary32 (binary32 (binary32 size * fromBits.toNat) / toBits.toNat)
  if strictMode then ⌊length⌋₊ else ⌈length⌉₊

structure Conversion where
  result : Bytes
  index : UInt8
  accumulator : UInt32
  bits : UInt8

def mask (toBits : UInt8) : UInt8 := UInt8.ofNat (2 ^ toBits.toNat - 1)

/-- `result[index] = digit; ++index;` -/
def Conversion.push (s : Conversion) (digit : UInt32) : Except Failure Conversion :=
  if s.index.toNat < s.result.length then
    .ok { s with result := s.result.set s.index.toNat digit.toUInt8, index := s.index + 1 }
  else .error .outOfBounds

/-- The inner loop. Its fuel is more than the bits it takes away. -/
def drain (toBits : UInt8) : ℕ → Conversion → Except Failure Conversion
  | 0, _ => .error .exhausted
  | fuel + 1, s =>
      if toBits ≤ s.bits then do
        let bits := s.bits - toBits
        let digit := s.accumulator >>> bits.toUInt32 &&& (mask toBits).toUInt32
        let s ← { s with bits := bits }.push digit
        drain toBits fuel s
      else .ok s

def convertStep (fromBits toBits : UInt8) (s : Conversion) (value : UInt8) :
    Except Failure Conversion :=
  if value.toNat >>> fromBits.toNat ≠ 0 then .error .assertion
  else
    let bits := s.bits + fromBits
    drain toBits (bits.toNat + 1) { s with
      accumulator := s.accumulator <<< fromBits.toUInt32 ||| value.toUInt32
      bits := bits }

def convertBits (data : Bytes) (fromBits toBits : UInt8) (strictMode : Bool) :
    Except Failure Bytes := do
  let s ← data.foldlM (convertStep fromBits toBits) {
    result := List.replicate (conversionLength data.length fromBits toBits strictMode) 0
    index := 0
    accumulator := 0
    bits := 0 }
  let rest := s.accumulator <<< (toBits - s.bits).toUInt32 &&& (mask toBits).toUInt32
  if strictMode then
    if s.bits < fromBits ∧ rest = 0 then .ok s.result else .error .assertion
  else if 0 < s.bits then do
    let s ← s.push rest
    .ok s.result
  else .ok s.result

/-! ## The addresses -/

/-- The names of the address types. -/
inductive AddressType
  | p2pkh
  | p2sh
deriving DecidableEq

/-- No type is the empty name. -/
def toAddress (v : Scriptpubkey) : Option AddressType × Bytes :=
  if 5 < v.length ∧ v[0]? = some 0x76 ∧ v[1]? = some 0xA9 ∧
      v.length = 3 + (v.getD 2 0).toNat + 2 then
    (some .p2pkh, (v.drop 3).take (v.length - 5))
  else if v.length = 23 ∧ v[0]? = some 0xA9 ∧ v[22]? = some 0x87 then
    (some .p2sh, (v.drop 1).take 20)
  else (none, [])

def p2pkhScript (hash : Bytes) : Scriptpubkey :=
  [0x76, 0xA9, UInt8.ofNat hash.length] ++ hash ++ [0x88, 0xAC]

def p2shScript (hash : Bytes) : Scriptpubkey :=
  [0xA9, UInt8.ofNat hash.length] ++ hash ++ [0x87]

def getTypeBits : Option AddressType → Except Failure UInt8
  | some .p2pkh => .ok 0
  | some .p2sh => .ok 8
  | none => .error .assertion

def getHashSizeBits (hash : Bytes) : Except Failure UInt8 :=
  match hash.length * 8 with
  | 160 => .ok 0
  | 192 => .ok 1
  | 224 => .ok 2
  | 256 => .ok 3
  | 320 => .ok 4
  | 384 => .ok 5
  | 448 => .ok 6
  | 512 => .ok 7
  | _ => .error .assertion

def toCashaddr (v : Scriptpubkey) (addrPrefix : Bytes) : Except Failure Bytes := do
  let address := toAddress v
  let typeBits ← getTypeBits address.1
  let sizeBits ← getHashSizeBits address.2
  let payload ← convertBits ((typeBits + sizeBits) :: address.2) 8 5 false
  Cashaddr.encode addrPrefix payload

def fromCashaddr (decode : Bytes → Except Failure (Bytes × Bytes)) (cashaddr : Bytes) :
    Except Failure Scriptpubkey := do
  let decoded ← decode cashaddr
  if decoded.1 = [] then .ok []
  else
    match ← convertBits decoded.2 5 8 true with
    | [] => .error .outOfBounds
    | version :: hash =>
        if version &&& 120 = 0 then .ok (p2pkhScript hash)
        else if version &&& 120 = 8 then .ok (p2shScript hash)
        else .ok []

/-! ## Lengths in single precision -/

theorem binary32_natCast {n : ℕ} (h : n < 2 ^ 24) : binary32 n = n := by
  have hexact := binary32_eq (m := n) (k := 0) h
  simpa using hexact

theorem conversionLength_strict {n : ℕ} (h : 5 * n < 2 ^ 24) :
    conversionLength n 5 8 true = 5 * n / 8 := by
  have hscaled := binary32_natCast h
  have hdivided := binary32_eq (m := 5 * n) (k := 3) h
  have hfloor : ⌊((5 * n : ℕ) : ℚ) / (8 : ℕ)⌋₊ = 5 * n / 8 := Nat.floor_div_eq_div _ _
  push_cast at hscaled hdivided hfloor
  norm_num at hdivided
  simp only [conversionLength, binary32_natCast (by omega : n < 2 ^ 24), UInt8.reduceToNat,
    Nat.cast_ofNat, mul_comm (n : ℚ), hscaled, hdivided, if_true, hfloor]

/-- Above the exact range the result is still longer than the index can reach. -/
theorem lt_conversionLength_strict {n : ℕ} (h : 2 ^ 24 ≤ 5 * n) :
    256 < conversionLength n 5 8 true := by
  have hhalf : ∀ q : ℚ, 0 < q → q / 2 ≤ binary32 q := by
    intro q hq
    have herror := abs_le.mp (binary32_error hq)
    linarith [herror.1]
  have hn : (2 ^ 24 : ℚ) ≤ 5 * n := by exact_mod_cast h
  have hsize := hhalf n (by linarith)
  have hscaled := hhalf (binary32 n * 5) (by linarith)
  have hdivided := hhalf (binary32 (binary32 n * 5) / 8) (by linarith)
  apply Nat.lt_of_succ_le
  simp only [conversionLength, UInt8.reduceToNat, Nat.cast_ofNat, if_true]
  apply Nat.le_floor
  norm_num
  linarith

theorem conversionLength_padded {n : ℕ} (h : 8 * n < 2 ^ 20) :
    conversionLength n 8 5 false = (8 * n + 4) / 5 := by
  have hscaled := binary32_natCast (by omega : 8 * n < 2 ^ 24)
  push_cast at hscaled
  simp only [conversionLength, binary32_natCast (by omega : n < 2 ^ 24), UInt8.reduceToNat,
    Nat.cast_ofNat, mul_comm (n : ℚ), hscaled, Bool.false_eq_true, if_false]
  have hdiv := Nat.div_add_mod (8 * n) 5
  cases Nat.eq_zero_or_pos (8 * n % 5) with
  | inl hzero =>
    have hwhole : (8 * n : ℚ) / 5 = (8 * n / 5 : ℕ) := by
      have hcast : ((8 * n : ℕ) : ℚ) = 5 * (8 * n / 5 : ℕ) := by exact_mod_cast (by omega)
      push_cast at hcast ⊢
      rw [hcast]
      ring
    rw [hwhole, binary32_natCast (by omega), Nat.ceil_natCast]
    omega
  | inr hpos =>
    have hq : (0 : ℚ) < 8 * n / 5 := by
      have hn : 0 < n := by omega
      positivity
    have herror := abs_le.mp (binary32_error hq)
    have hsmall : (8 * n : ℚ) < 2 ^ 20 := by exact_mod_cast h
    have hlow : (((8 * n + 4) / 5 : ℕ) : ℚ) * 5 ≤ 8 * n + 4 := by
      exact_mod_cast Nat.div_mul_le_self (8 * n + 4) 5
    have hhigh : (8 * n + 1 : ℚ) ≤ ((8 * n + 4) / 5 : ℕ) * 5 := by
      exact_mod_cast (by omega : 8 * n + 1 ≤ (8 * n + 4) / 5 * 5)
    have hone : 1 ≤ (8 * n + 4) / 5 := by omega
    apply (Nat.ceil_eq_iff (by omega)).mpr
    rw [Nat.cast_sub hone, Nat.cast_one]
    constructor
    · linarith [herror.1]
    · linarith [herror.2]

/-! ## What the converter has done -/

/-- `es` are the digits written, `v` is the number read and `b` of its bits are not written. -/
structure Conversion.Pending (s : Conversion) (len : ℕ) (es : List ℕ) (b v : ℕ) : Prop where
  bits_eq : s.bits.toNat = b
  accumulator_eq : s.accumulator.toNat = v % 2 ^ 32
  index_eq : s.index.toNat = es.length % 256
  result_eq : s.result = writeAll 256 (List.replicate len 0) (es.map UInt8.ofNat)

variable {s : Conversion} {fromBits toBits : UInt8} {len b v : ℕ} {es : List ℕ}

theorem Conversion.Pending.length_result (h : s.Pending len es b v) : s.result.length = len := by
  rw [h.result_eq, length_writeAll, List.length_replicate]

theorem Conversion.Pending.push (h : s.Pending len es b v) (hroom : es.length % 256 < len)
    (digit : UInt32) :
    ∃ s', s.push digit = .ok s' ∧ s'.Pending len (es ++ [digit.toNat]) b v := by
  have hindex : s.index.toNat < s.result.length := by rwa [h.index_eq, h.length_result]
  refine ⟨_, if_pos hindex, h.bits_eq, h.accumulator_eq, ?_, ?_⟩
  · rw [UInt8.toNat_add, h.index_eq, List.length_append]
    exact Nat.mod_add_mod _ _ _
  · rw [List.map_append, List.map_singleton, writeAll_concat, List.length_map, ← h.result_eq,
      h.index_eq, UInt8.ofNat_uInt32ToNat]

theorem toNat_mask (ht : toBits.toNat ≤ 8) :
    (mask toBits).toUInt32.toNat = 2 ^ toBits.toNat - 1 := by
  have hlt : 2 ^ toBits.toNat - 1 < 2 ^ 8 := by
    have hle := Nat.pow_le_pow_right (n := 2) (by decide) ht
    omega
  rw [UInt8.toNat_toUInt32, mask, UInt8.toNat_ofNat']
  exact Nat.mod_eq_of_lt hlt

theorem toNat_and_mask (ht : toBits.toNat ≤ 8) (x : UInt32) :
    (x &&& (mask toBits).toUInt32).toNat = x.toNat % 2 ^ toBits.toNat := by
  rw [UInt32.toNat_and, toNat_mask ht, Nat.and_two_pow_sub_one_eq_mod]

theorem drain_spec (ht : 0 < toBits.toNat) (ht8 : toBits.toNat ≤ 8) {fuel : ℕ}
    (h : s.Pending len es b v) (hfuel : b < fuel) (hb : b ≤ 32)
    (hroom : ∀ k < es.length + b / toBits.toNat, k % 256 < len) :
    ∃ s', drain toBits fuel s = .ok s' ∧
      s'.Pending len
        (es ++ toDigits toBits.toNat (b / toBits.toNat) (v / 2 ^ (b % toBits.toNat)))
        (b % toBits.toNat) v := by
  induction fuel generalizing s es b with
  | zero => exact absurd hfuel (Nat.not_lt_zero b)
  | succ fuel ih =>
    rw [drain]
    by_cases hle : toBits ≤ s.bits
    · have hge : toBits.toNat ≤ b := h.bits_eq ▸ hle
      have hsub : (s.bits - toBits).toNat = b - toBits.toNat := by
        rw [UInt8.toNat_sub_of_le _ _ hle, h.bits_eq]
      have hcount : b / toBits.toNat = (b - toBits.toNat) / toBits.toNat + 1 :=
        Nat.div_eq_sub_div ht hge
      have hrest : b % toBits.toNat = (b - toBits.toNat) % toBits.toNat := Nat.mod_eq_sub_mod hge
      have hsmall : b - toBits.toNat < 32 := by omega
      have hdigit : (s.accumulator >>> (s.bits - toBits).toUInt32 &&&
          (mask toBits).toUInt32).toNat = v / 2 ^ (b - toBits.toNat) % 2 ^ toBits.toNat := by
        rw [toNat_and_mask ht8, UInt32.toNat_shiftRight, UInt8.toNat_toUInt32, hsub,
          Nat.mod_eq_of_lt hsmall, Nat.shiftRight_eq_div_pow, h.accumulator_eq,
          mod_div_mod v (by omega)]
      have hshifted : { s with bits := s.bits - toBits }.Pending len es (b - toBits.toNat) v :=
        ⟨hsub, h.accumulator_eq, h.index_eq, h.result_eq⟩
      have hfree : es.length % 256 < len := by
        apply hroom
        rw [hcount]
        exact Nat.lt_add_of_pos_right (Nat.succ_pos _)
      obtain ⟨s₁, hpush, hpushed⟩ := hshifted.push hfree
        (s.accumulator >>> (s.bits - toBits).toUInt32 &&& (mask toBits).toUInt32)
      rw [hdigit] at hpushed
      obtain ⟨s', hdrain, hdone⟩ := ih hpushed (by omega) (by omega) (by
        intro k hk
        apply hroom
        rw [List.length_append, List.length_singleton] at hk
        omega)
      refine ⟨s', ?_, ?_⟩
      · rw [if_pos hle]
        simp only [hpush]
        exact hdrain
      · have hfirst : v / 2 ^ (b % toBits.toNat) /
            2 ^ (toBits.toNat * ((b - toBits.toNat) / toBits.toNat)) =
              v / 2 ^ (b - toBits.toNat) := by
          rw [hrest, Nat.div_div_eq_div_mul, ← Nat.pow_add, Nat.mod_add_div]
        rw [hcount, toDigits_succ, hfirst, hrest]
        rwa [List.append_assoc] at hdone
    · have hlt : b < toBits.toNat := by
        rw [← h.bits_eq]
        exact not_le.mp hle
      refine ⟨s, if_neg hle, ?_⟩
      rw [Nat.div_eq_of_lt hlt, Nat.mod_eq_of_lt hlt]
      simpa [toDigits] using h

/-- A byte goes behind the bits of the accumulator, whose highest are lost. -/
theorem toNat_shiftLeft_or {x : UInt32} {value : UInt8} (hx : x.toNat = v % 2 ^ 32)
    (hf : fromBits.toNat ≤ 8) (hvalue : value.toNat < 2 ^ fromBits.toNat) :
    (x <<< fromBits.toUInt32 ||| value.toUInt32).toNat =
      (v * 2 ^ fromBits.toNat + value.toNat) % 2 ^ 32 := by
  have hsplit : (2 : ℕ) ^ 32 = 2 ^ (32 - fromBits.toNat) * 2 ^ fromBits.toNat := by
    rw [← Nat.pow_add, Nat.sub_add_cancel (by omega)]
  have hcut : v % 2 ^ 32 * 2 ^ fromBits.toNat % 2 ^ 32 =
      v % 2 ^ (32 - fromBits.toNat) * 2 ^ fromBits.toNat := by
    rw [hsplit, Nat.mul_mod_mul_right, Nat.mod_mul_right_mod]
  have hlt := Nat.mod_lt v (Nat.two_pow_pos (32 - fromBits.toNat))
  have hfits : v % 2 ^ (32 - fromBits.toNat) * 2 ^ fromBits.toNat + value.toNat < 2 ^ 32 := by
    calc v % 2 ^ (32 - fromBits.toNat) * 2 ^ fromBits.toNat + value.toNat
        < (v % 2 ^ (32 - fromBits.toNat) + 1) * 2 ^ fromBits.toNat := by
          rw [Nat.succ_mul]
          omega
      _ ≤ 2 ^ 32 := by
          rw [hsplit]
          exact Nat.mul_le_mul_right _ hlt
  have hsum : v * 2 ^ fromBits.toNat + value.toNat =
      2 ^ 32 * (v / 2 ^ (32 - fromBits.toNat)) +
        (v % 2 ^ (32 - fromBits.toNat) * 2 ^ fromBits.toNat + value.toNat) := by
    rw [hsplit, ← Nat.add_assoc, Nat.mul_right_comm, ← Nat.add_mul, Nat.div_add_mod]
  rw [UInt32.toNat_or, UInt32.toNat_shiftLeft, UInt8.toNat_toUInt32, UInt8.toNat_toUInt32,
    Nat.mod_eq_of_lt (by omega : fromBits.toNat < 32), Nat.shiftLeft_eq, hx, hcut,
    ← Nat.shiftLeft_eq, ← Nat.shiftLeft_add_eq_or_of_lt hvalue, Nat.shiftLeft_eq, hsum,
    Nat.mul_add_mod, Nat.mod_eq_of_lt hfits]

theorem convertStep_spec (hf : fromBits.toNat ≤ 8) (ht : 0 < toBits.toNat)
    (ht8 : toBits.toNat ≤ 8) {ds : List ℕ} {value : UInt8}
    (h : s.Pending len (regroup fromBits.toNat toBits.toNat ds)
      (fromBits.toNat * ds.length % toBits.toNat) (ofDigits fromBits.toNat ds))
    (hvalue : value.toNat < 2 ^ fromBits.toNat)
    (hroom : ∀ k < fromBits.toNat * (ds ++ [value.toNat]).length / toBits.toNat, k % 256 < len) :
    ∃ s', convertStep fromBits toBits s value = .ok s' ∧
      s'.Pending len (regroup fromBits.toNat toBits.toNat (ds ++ [value.toNat]))
        (fromBits.toNat * (ds ++ [value.toNat]).length % toBits.toNat)
        (ofDigits fromBits.toNat (ds ++ [value.toNat])) := by
  have hleft := Nat.mod_lt (fromBits.toNat * ds.length) ht
  have hbits : (s.bits + fromBits).toNat =
      fromBits.toNat * ds.length % toBits.toNat + fromBits.toNat := by
    rw [UInt8.toNat_add, h.bits_eq]
    exact Nat.mod_eq_of_lt (by omega)
  have hpending : { s with
      accumulator := s.accumulator <<< fromBits.toUInt32 ||| value.toUInt32
      bits := s.bits + fromBits }.Pending len (regroup fromBits.toNat toBits.toNat ds)
        (fromBits.toNat * ds.length % toBits.toNat + fromBits.toNat)
        (ofDigits fromBits.toNat (ds ++ [value.toNat])) := by
    refine ⟨hbits, ?_, h.index_eq, h.result_eq⟩
    rw [ofDigits_concat]
    exact toNat_shiftLeft_or h.accumulator_eq hf hvalue
  have hconcat := regroup_concat fromBits.toNat toBits.toNat ds hvalue
  have hcount : fromBits.toNat * (ds ++ [value.toNat]).length / toBits.toNat =
      (regroup fromBits.toNat toBits.toNat ds).length +
        (fromBits.toNat * ds.length % toBits.toNat + fromBits.toNat) / toBits.toNat := by
    rw [← length_regroup, hconcat, List.length_append, length_toDigits]
  rw [hcount] at hroom
  obtain ⟨s', hdrain, hdone⟩ := drain_spec ht ht8 hpending (Nat.lt_succ_self _) (by omega) hroom
  have hshift : value.toNat >>> fromBits.toNat = 0 := by
    rw [Nat.shiftRight_eq_div_pow, Nat.div_eq_of_lt hvalue]
  have hrest : fromBits.toNat * (ds ++ [value.toNat]).length % toBits.toNat =
      (fromBits.toNat * ds.length % toBits.toNat + fromBits.toNat) % toBits.toNat := by
    rw [List.length_append, List.length_singleton, Nat.mul_succ, Nat.mod_add_mod]
  refine ⟨s', ?_, ?_⟩
  · rw [convertStep, if_neg (not_not.mpr hshift)]
    simp only [hbits]
    exact hdrain
  · rw [hconcat, hrest]
    exact hdone

theorem foldlM_convertStep (hf : fromBits.toNat ≤ 8) (ht : 0 < toBits.toNat)
    (ht8 : toBits.toNat ≤ 8) {data : Bytes} (hdata : ∀ d ∈ data, d.toNat < 2 ^ fromBits.toNat)
    (hroom : ∀ k < fromBits.toNat * data.length / toBits.toNat, k % 256 < len) :
    ∃ s, data.foldlM (convertStep fromBits toBits) ⟨List.replicate len 0, 0, 0, 0⟩ = .ok s ∧
      s.Pending len (regroup fromBits.toNat toBits.toNat (data.map UInt8.toNat))
        (fromBits.toNat * data.length % toBits.toNat)
        (ofDigits fromBits.toNat (data.map UInt8.toNat)) := by
  induction data using List.reverseRecOn with
  | nil =>
    refine ⟨_, rfl, ?_, rfl, ?_, ?_⟩
    · simp
    · simp [length_regroup]
    · simp [regroup, toDigits, writeAll]
  | append_singleton data d ih =>
    have hfewer : fromBits.toNat * data.length / toBits.toNat ≤
        fromBits.toNat * (data ++ [d]).length / toBits.toNat := by
      apply Nat.div_le_div_right
      apply Nat.mul_le_mul_left
      simp
    obtain ⟨s, hfold, hpending⟩ := ih (fun e he => hdata e (List.mem_append_left _ he))
      fun k hk => hroom k (hk.trans_le hfewer)
    have hlength : (data.map UInt8.toNat ++ [d.toNat]).length = (data ++ [d]).length := by simp
    rw [← List.length_map UInt8.toNat] at hpending
    obtain ⟨s', hstep, hdone⟩ := convertStep_spec hf ht ht8 hpending (hdata d (by simp)) (by
      rwa [hlength])
    refine ⟨s', ?_, ?_⟩
    · rw [List.foldlM_append, hfold, ← hstep]
      exact bind_pure (convertStep fromBits toBits s d)
    · rw [hlength] at hdone
      rwa [List.map_append, List.map_singleton]

/-! ## What the converter returns -/

/-- The bits that are left, moved to the top of a digit. -/
theorem Conversion.Pending.rest (h : s.Pending len es b v) (hb : b < toBits.toNat)
    (ht8 : toBits.toNat ≤ 8) :
    (s.accumulator <<< (toBits - s.bits).toUInt32 &&& (mask toBits).toUInt32).toNat =
      v * 2 ^ (toBits.toNat - b) % 2 ^ toBits.toNat := by
  have hle : s.bits ≤ toBits := by
    rw [UInt8.le_iff_toNat_le, h.bits_eq]
    exact hb.le
  have hsub : (toBits - s.bits).toNat = toBits.toNat - b := by
    rw [UInt8.toNat_sub_of_le _ _ hle, h.bits_eq]
  have hdvd : 2 ^ toBits.toNat ∣ 2 ^ 32 := Nat.pow_dvd_pow 2 (by omega)
  rw [toNat_and_mask ht8, UInt32.toNat_shiftLeft, UInt8.toNat_toUInt32, hsub,
    Nat.mod_eq_of_lt (by omega : toBits.toNat - b < 32), Nat.shiftLeft_eq, h.accumulator_eq,
    Nat.mod_mod_of_dvd _ hdvd, Nat.mul_mod, Nat.mod_mod_of_dvd _ hdvd, ← Nat.mul_mod]

/-- The strict converter asks that less than a digit is left, and nothing but zeros. -/
theorem convertBits_strict (fromBits toBits : UInt8) (hf : fromBits.toNat ≤ 8)
    (ht : 0 < toBits.toNat) (ht8 : toBits.toNat ≤ 8) {data : Bytes}
    (hdata : ∀ d ∈ data, d.toNat < 2 ^ fromBits.toNat)
    (hroom : ∀ k < fromBits.toNat * data.length / toBits.toNat,
      k % 256 < conversionLength data.length fromBits toBits true) :
    convertBits data fromBits toBits true =
      if fromBits.toNat * data.length % toBits.toNat < fromBits.toNat ∧
          ofDigits fromBits.toNat (data.map UInt8.toNat) %
            2 ^ (fromBits.toNat * data.length % toBits.toNat) = 0 then
        .ok (writeAll 256
          (List.replicate (conversionLength data.length fromBits toBits true) 0)
          ((regroup fromBits.toNat toBits.toNat (data.map UInt8.toNat)).map UInt8.ofNat))
      else .error .assertion := by
  obtain ⟨s, hfold, hdone⟩ := foldlM_convertStep hf ht ht8 hdata hroom
  have hlt := Nat.mod_lt (fromBits.toNat * data.length) ht
  have hbits : s.bits < fromBits ↔
      fromBits.toNat * data.length % toBits.toNat < fromBits.toNat := by
    rw [UInt8.lt_iff_toNat_lt, hdone.bits_eq]
  have hsplit : 2 ^ toBits.toNat = 2 ^ (fromBits.toNat * data.length % toBits.toNat) *
      2 ^ (toBits.toNat - fromBits.toNat * data.length % toBits.toNat) := by
    rw [← Nat.pow_add, Nat.add_sub_cancel' hlt.le]
  have hrest : s.accumulator <<< (toBits - s.bits).toUInt32 &&& (mask toBits).toUInt32 = 0 ↔
      ofDigits fromBits.toNat (data.map UInt8.toNat) %
        2 ^ (fromBits.toNat * data.length % toBits.toNat) = 0 := by
    rw [← UInt32.toNat_inj, hdone.rest hlt ht8, hsplit, Nat.mul_mod_mul_right]
    simp
  rw [convertBits, hfold]
  simp only [Except.bind, bind, if_true, hbits, hrest, hdone.result_eq]

/-- The other one writes what is left. -/
theorem convertBits_padded (fromBits toBits : UInt8) (hf : fromBits.toNat ≤ 8)
    (ht : 0 < toBits.toNat) (ht8 : toBits.toNat ≤ 8) {data : Bytes}
    (hdata : ∀ d ∈ data, d.toNat < 2 ^ fromBits.toNat)
    (hroom : ∀ k < (regroupPadded fromBits.toNat toBits.toNat (data.map UInt8.toNat)).length,
      k % 256 < conversionLength data.length fromBits toBits false) :
    convertBits data fromBits toBits false =
      .ok (writeAll 256
        (List.replicate (conversionLength data.length fromBits toBits false) 0)
        ((regroupPadded fromBits.toNat toBits.toNat (data.map UInt8.toNat)).map
          UInt8.ofNat)) := by
  have hlt := Nat.mod_lt (fromBits.toNat * data.length) ht
  have hpadded := regroupPadded_eq (a := fromBits.toNat) ht (data.map UInt8.toNat)
  rw [List.length_map] at hpadded
  have hfewer : fromBits.toNat * data.length / toBits.toNat ≤
      (regroupPadded fromBits.toNat toBits.toNat (data.map UInt8.toNat)).length := by
    rw [length_regroupPadded, List.length_map]
    exact Nat.div_le_div_right (Nat.le_add_right _ _)
  obtain ⟨s, hfold, hdone⟩ := foldlM_convertStep hf ht ht8 hdata
    fun k hk => hroom k (hk.trans_le hfewer)
  have hbits : 0 < s.bits ↔ fromBits.toNat * data.length % toBits.toNat ≠ 0 := by
    rw [UInt8.lt_iff_toNat_lt, hdone.bits_eq]
    exact Nat.pos_iff_ne_zero
  rw [convertBits, hfold]
  simp only [Except.bind, bind, Bool.false_eq_true, if_false]
  by_cases hzero : fromBits.toNat * data.length % toBits.toNat = 0
  · rw [if_neg (fun h => hbits.mp h hzero), hpadded, if_pos hzero, hdone.result_eq]
  · rw [if_neg hzero] at hpadded
    have hfree := hroom (regroup fromBits.toNat toBits.toNat (data.map UInt8.toNat)).length (by
      rw [hpadded, List.length_append]
      exact Nat.lt_succ_self _)
    obtain ⟨s', hpush, hpushed⟩ := hdone.push hfree
      (s.accumulator <<< (toBits - s.bits).toUInt32 &&& (mask toBits).toUInt32)
    rw [if_pos (hbits.mpr hzero), hpush, hpadded, ← hdone.rest hlt ht8, ← hpushed.result_eq]

end Scriptpubkey
end SlpGraphSearch
