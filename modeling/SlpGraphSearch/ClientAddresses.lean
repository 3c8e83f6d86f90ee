import SlpGraphSearch.Address

/-!
# Addresses from clients

Whether an address made from a script leads back to the script, and what the requests do
with an address that was not made from one.
-/
namespace SlpGraphSearch
open Library

namespace Scriptpubkey

/-! ## The hash in a payload -/

/-- The whole bytes in a payload. -/
def payloadBytes (values : Bytes) : Bytes :=
  (regroup 5 8 (values.map UInt8.toNat)).map UInt8.ofNat

theorem length_payloadBytes (values : Bytes) :
    (payloadBytes values).length = 5 * values.length / 8 := by
  rw [payloadBytes, List.length_map, length_regroup, List.length_map]

/-- What the converter makes of the payload of an address. -/
def hashBytes (values : Bytes) : Bytes :=
  writeAll 256 (List.replicate (conversionLength values.length 5 8 true) 0) (payloadBytes values)

theorem length_hashBytes (values : Bytes) :
    (hashBytes values).length = conversionLength values.length 5 8 true := by
  rw [hashBytes, length_writeAll, List.length_replicate]

/-- Less than a digit is left, and it is zero. -/
def PaddingClear (values : Bytes) : Prop :=
  5 * values.length % 8 < 5 ∧
    ∀ v ∈ values.getLast?, v.toNat % 2 ^ (5 * values.length % 8) = 0

instance : DecidablePred PaddingClear := fun values =>
  inferInstanceAs (Decidable (5 * values.length % 8 < 5 ∧
    ∀ v ∈ values.getLast?, v.toNat % 2 ^ (5 * values.length % 8) = 0))

theorem paddingClear_iff (values : Bytes) :
    PaddingClear values ↔ 5 * values.length % 8 < 5 ∧
      ofDigits 5 (values.map UInt8.toNat) % 2 ^ (5 * values.length % 8) = 0 := by
  apply and_congr_right
  intro hlt
  induction values using List.reverseRecOn with
  | nil => simp [ofDigits]
  | append_singleton values v _ =>
    rw [List.map_append, List.map_singleton, ofDigits_concat_mod hlt.le]
    simp

theorem convertBits_payload {values : Bytes} (hvalues : ∀ v ∈ values, v.toNat < 32) :
    convertBits values 5 8 true =
      if PaddingClear values then .ok (hashBytes values) else .error .assertion := by
  have hroom : ∀ k < 5 * values.length / 8,
      k % 256 < conversionLength values.length 5 8 true := by
    intro k hk
    by_cases hexact : 5 * values.length < 2 ^ 24
    · rw [conversionLength_strict hexact]
      exact (Nat.mod_le k 256).trans_lt hk
    · exact (Nat.mod_lt k (by decide)).trans (lt_conversionLength_strict (not_lt.mp hexact))
  have hstrict := convertBits_strict 5 8 (by decide) (by decide) (by decide) hvalues hroom
  simp only [paddingClear_iff]
  exact hstrict

/-- As long as the index does not wrap, the hash is the payload. -/
theorem hashBytes_eq {values : Bytes} (h : (payloadBytes values).length ≤ 256) :
    hashBytes values = payloadBytes values := by
  have hlen := length_payloadBytes values
  have hconv : conversionLength values.length 5 8 true = (payloadBytes values).length := by
    rw [conversionLength_strict (by omega), hlen]
  rw [hashBytes, hconv, writeAll_eq h (by simp)]
  simp

/-! ## There and back -/

theorem map_ofNat_toNat (data : Bytes) : (data.map UInt8.toNat).map UInt8.ofNat = data := by
  rw [List.map_map]
  exact (List.map_congr_left fun d _ => UInt8.ofNat_toNat).trans (List.map_id data)

theorem map_toNat_ofNat {ds : List ℕ} (h : ∀ d ∈ ds, d < 256) :
    (ds.map UInt8.ofNat).map UInt8.toNat = ds := by
  rw [List.map_map]
  apply (List.map_congr_left _).trans (List.map_id ds)
  intro d hd
  exact UInt8.toNat_ofNat_of_lt (h d hd)

theorem toNat_lt_of_mem {data : Bytes} : ∀ d ∈ data.map UInt8.toNat, d < 2 ^ 8 := by
  intro d hd
  obtain ⟨x, -, rfl⟩ := List.mem_map.mp hd
  exact x.toNat_lt

/-- The digits that an address is made of. -/
def payloadDigits (data : Bytes) : Bytes :=
  (regroupPadded 8 5 (data.map UInt8.toNat)).map UInt8.ofNat

theorem map_toNat_payloadDigits (data : Bytes) :
    (payloadDigits data).map UInt8.toNat = regroupPadded 8 5 (data.map UInt8.toNat) := by
  apply map_toNat_ofNat
  intro d hd
  exact (lt_of_mem_toDigits hd).trans (by decide)

theorem payloadDigits_lt (data : Bytes) : ∀ v ∈ payloadDigits data, v.toNat < 32 := by
  intro v hv
  have hmem := List.mem_map_of_mem (f := UInt8.toNat) hv
  rw [map_toNat_payloadDigits] at hmem
  exact lt_of_mem_toDigits hmem

theorem payloadBytes_payloadDigits (data : Bytes) : payloadBytes (payloadDigits data) = data := by
  rw [payloadBytes, map_toNat_payloadDigits,
    regroup_regroupPadded (by decide) (by decide) toNat_lt_of_mem, map_ofNat_toNat]

theorem paddingClear_payloadDigits (data : Bytes) : PaddingClear (payloadDigits data) := by
  have hdigits := length_regroupPadded 8 5 (data.map UInt8.toNat)
  rw [List.length_map] at hdigits
  apply (paddingClear_iff _).mpr
  rw [map_toNat_payloadDigits, payloadDigits, List.length_map]
  constructor
  · rw [(regroupPadded_div_mod (by decide) (by decide) _).2, List.length_map]
    omega
  · exact leftover_regroupPadded (by decide) (by decide) toNat_lt_of_mem

/-- Data whose digits the index can count. -/
theorem convertBits_data {data : Bytes} (hlen : data.length ≤ 160) :
    convertBits data 8 5 false = .ok (payloadDigits data) := by
  have hdigits := length_regroupPadded 8 5 (data.map UInt8.toNat)
  rw [List.length_map] at hdigits
  have hconv : conversionLength data.length 8 5 false =
      (regroupPadded 8 5 (data.map UInt8.toNat)).length := by
    rw [conversionLength_padded (by omega), hdigits]
  have hroom : ∀ k < (regroupPadded 8 5 (data.map UInt8.toNat)).length,
      k % 256 < conversionLength data.length 8 5 false := by
    intro k hk
    rw [hconv]
    exact (Nat.mod_le k 256).trans_lt hk
  have hpadded := convertBits_padded 8 5 (by decide) (by decide) (by decide)
    (fun d _ => d.toNat_lt) hroom
  rw [hconv, writeAll_eq (by simp; omega) (by simp)] at hpadded
  rw [hpadded, payloadDigits]
  simp

theorem convertBits_payloadDigits {data : Bytes} (hlen : data.length ≤ 160) :
    convertBits (payloadDigits data) 5 8 true = .ok data := by
  have hbytes := payloadBytes_payloadDigits data
  rw [convertBits_payload (payloadDigits_lt data), if_pos (paddingClear_payloadDigits data),
    hashBytes_eq (by rw [hbytes]; omega), hbytes]

/-- Without anything but zeros behind the whole bytes, the bytes have all the digits. -/
theorem payloadDigits_payloadBytes {values : Bytes} (hvalues : ∀ v ∈ values, v.toNat < 32)
    (hclear : PaddingClear values) : payloadDigits (payloadBytes values) = values := by
  obtain ⟨hrest, hzero⟩ := (paddingClear_iff values).mp hclear
  have hdigits : ∀ d ∈ values.map UInt8.toNat, d < 2 ^ 5 := by
    intro d hd
    obtain ⟨v, hv, heq⟩ := List.mem_map.mp hd
    exact heq ▸ hvalues v hv
  rw [← List.length_map UInt8.toNat] at hrest hzero
  have hbytes : ∀ d ∈ regroup 5 8 (values.map UInt8.toNat), d < 256 :=
    fun d hd => lt_of_mem_toDigits hd
  rw [payloadDigits, payloadBytes, map_toNat_ofNat hbytes,
    regroupPadded_regroup hdigits hrest hzero, map_ofNat_toNat]

theorem convertBits_payloadBytes {values : Bytes} (hlen : values.length ≤ 256) :
    convertBits (payloadBytes values) 8 5 false = .ok (payloadDigits (payloadBytes values)) := by
  apply convertBits_data
  rw [length_payloadBytes]
  omega

theorem length_payloadDigits (data : Bytes) :
    (payloadDigits data).length = (8 * data.length + 4) / 5 := by
  rw [payloadDigits, List.length_map, length_regroupPadded, List.length_map]

theorem ceil_div_five (n : ℕ) : ⌈(n : ℚ) / 5⌉₊ = (n + 4) / 5 := by
  apply Nat.le_antisymm
  · apply Nat.ceil_le.mpr
    rw [div_le_iff₀ (by norm_num)]
    exact_mod_cast (by omega : n ≤ (n + 4) / 5 * 5)
  · have hle := Nat.le_ceil ((n : ℚ) / 5)
    rw [div_le_iff₀ (by norm_num)] at hle
    have hnat : n ≤ ⌈(n : ℚ) / 5⌉₊ * 5 := by exact_mod_cast hle
    omega

/-- Both directions of the converter, as far as the index reaches. -/
theorem convertBits_roundTrip :
    (∀ d : Bytes, d.length ≤ 160 → ∃ e, convertBits d 8 5 false = .ok e ∧
      e.length = ⌈(8 * d.length : ℚ) / 5⌉₊ ∧ (∀ v ∈ e, v.toNat < 32) ∧
        convertBits e 5 8 true = .ok d) ∧
    ∀ e : Bytes, e.length ≤ 256 → (∀ v ∈ e, v.toNat < 32) →
      ∀ d, convertBits e 5 8 true = .ok d → convertBits d 8 5 false = .ok e := by
  constructor
  · intro d hlen
    refine ⟨_, convertBits_data hlen, ?_, payloadDigits_lt d, convertBits_payloadDigits hlen⟩
    have hceil := ceil_div_five (8 * d.length)
    rw [Nat.cast_mul, Nat.cast_ofNat] at hceil
    rw [length_payloadDigits, hceil]
  · intro e hlen hvalues d hd
    rw [convertBits_payload hvalues] at hd
    by_cases hclear : PaddingClear e
    · rw [if_pos hclear, hashBytes_eq (by rw [length_payloadBytes]; omega), Except.ok.injEq] at hd
      rw [← hd, convertBits_payloadBytes hlen, payloadDigits_payloadBytes hvalues hclear]
    · rw [if_neg hclear] at hd
      cases hd

/-- A version byte and a hash become 34 values and come back; so do four values whose padding
is clear. -/
theorem convertBits_roundTrip_sample :
    (∃ e, convertBits (0 :: List.replicate 20 0xB5) 8 5 false = .ok e ∧
      e.length = ⌈(8 * (0 :: List.replicate 20 0xB5 : Bytes).length : ℚ) / 5⌉₊ ∧
      (∀ v ∈ e, v.toNat < 32) ∧
        convertBits e 5 8 true = .ok (0 :: List.replicate 20 0xB5)) ∧
    ∃ d, convertBits [31, 0, 7, 16] 5 8 true = .ok d ∧
      convertBits d 8 5 false = .ok [31, 0, 7, 16] := by
  have hvalues : ∀ v ∈ ([31, 0, 7, 16] : Bytes), v.toNat < 32 := by decide +kernel
  have hback : convertBits [31, 0, 7, 16] 5 8 true = .ok (hashBytes [31, 0, 7, 16]) := by
    rw [convertBits_payload hvalues, if_pos (by decide +kernel)]
  exact ⟨convertBits_roundTrip.1 _ (by decide),
    _, hback, convertBits_roundTrip.2 _ (by decide) hvalues _ hback⟩

/-- The length of a hash for the size bits of a version byte. -/
def hashSize (version : UInt8) : ℕ :=
  [20, 24, 28, 32, 40, 48, 56, 64].getD (version &&& 7).toNat 0

theorem getHashSizeBits_spec {hash : Bytes} {bits : UInt8}
    (h : getHashSizeBits hash = .ok bits) : bits.toNat < 8 ∧ hash.length = hashSize bits := by
  unfold getHashSizeBits at h
  split at h
  all_goals
    cases h
  all_goals
    rename_i hlen
    exact ⟨by decide, Nat.eq_of_mul_eq_mul_right (by decide : 0 < 8) hlen⟩

theorem hashSize_le (version : UInt8) : hashSize version ≤ 64 := by
  have hall : ∀ n < 8, [20, 24, 28, 32, 40, 48, 56, 64].getD n 0 ≤ 64 := by decide
  apply hall
  rw [UInt8.toNat_and]
  exact Nat.and_lt_two_pow _ (by decide : 7 < 2 ^ 3)

def script : AddressType → Bytes → Scriptpubkey
  | .p2pkh => p2pkhScript
  | .p2sh => p2shScript

theorem toCashaddr_eq {v : Scriptpubkey} {type : AddressType} {hash : Bytes}
    {typeBits sizeBits : UInt8} (haddress : toAddress v = (some type, hash))
    (htype : getTypeBits (some type) = .ok typeBits) (hbits : getHashSizeBits hash = .ok sizeBits)
    (addrPrefix : Bytes) : toCashaddr v addrPrefix =
      Cashaddr.encode addrPrefix (payloadDigits ((typeBits + sizeBits) :: hash)) := by
  have hshort := hashSize_le sizeBits
  have hlen : ((typeBits + sizeBits) :: hash).length ≤ 160 := by
    rw [List.length_cons, (getHashSizeBits_spec hbits).2]
    omega
  simp only [toCashaddr, haddress, htype, hbits, bind, Except.bind, convertBits_data hlen]

/-- An address leads to the script of the hash that was taken from the script. -/
theorem fromCashaddr_toCashaddr {addrPrefix : Bytes} (hp : addrPrefix ≠ [])
    (hlower : ∀ c ∈ addrPrefix, Cashaddr.IsLower c) {v : Scriptpubkey} {type : AddressType}
    {hash : Bytes} (haddress : toAddress v = (some type, hash)) {sizeBits : UInt8}
    (hbits : getHashSizeBits hash = .ok sizeBits) :
    (toCashaddr v addrPrefix >>= fromCashaddr Cashaddr.decode) = .ok (script type hash) := by
  have hsize := getHashSizeBits_spec hbits
  obtain ⟨typeBits, htype, hbranch⟩ : ∃ typeBits, getTypeBits (some type) = .ok typeBits ∧
      ∀ n < 8, (typeBits + UInt8.ofNat n) &&& 120 = typeBits := by
    cases type with
    | p2pkh => exact ⟨0, rfl, by decide⟩
    | p2sh => exact ⟨8, rfl, by decide⟩
  have hversion := hbranch sizeBits.toNat hsize.1
  rw [UInt8.ofNat_toNat] at hversion
  have hshort := hashSize_le sizeBits
  have hlen : ((typeBits + sizeBits) :: hash).length ≤ 160 := by
    rw [List.length_cons, hsize.2]
    omega
  obtain ⟨str, hencode, hdecode⟩ :=
    Cashaddr.decode_encode hp hlower (payloadDigits_lt ((typeBits + sizeBits) :: hash))
  rw [toCashaddr_eq haddress htype hbits, hencode]
  simp only [bind, Except.bind, fromCashaddr, hdecode, hp, if_false,
    convertBits_payloadDigits hlen, hversion]
  cases type with
  | p2pkh =>
    cases htype
    rfl
  | p2sh =>
    cases htype
    rfl

theorem toAddress_p2pkh {hash rest : Bytes} (hpos : 0 < hash.length) (hlt : hash.length < 256)
    (hrest : rest.length = 2) :
    toAddress ([0x76, 0xA9, UInt8.ofNat hash.length] ++ hash ++ rest) = (some .p2pkh, hash) := by
  have hsize : ([0x76, 0xA9, UInt8.ofNat hash.length] ++ hash ++ rest).length =
      3 + hash.length + 2 := by
    simp only [List.length_append, List.length_cons, List.length_nil, hrest]
  have hannounced : (UInt8.ofNat hash.length).toNat = hash.length := UInt8.toNat_ofNat_of_lt hlt
  rw [toAddress, if_pos]
  · rw [hsize, List.append_assoc]
    have htake : 3 + hash.length + 2 - 5 = hash.length := by omega
    rw [htake]
    simp
  · rw [hsize]
    refine ⟨by omega, rfl, rfl, ?_⟩
    simp [hannounced]

theorem toAddress_p2sh {body : Bytes} (hbody : body.length = 21) :
    toAddress (0xA9 :: body ++ [0x87]) = (some .p2sh, body.take 20) := by
  have hother : (0xA9 :: body ++ [0x87] : Bytes)[0]? ≠ some 0x76 := by simp
  have hlast : (0xA9 :: body ++ [0x87] : Bytes)[22]? = some 0x87 := by
    rw [List.getElem?_append_right (by simp [hbody])]
    simp [hbody]
  rw [toAddress, if_neg fun h => hother h.2.1, if_pos ⟨by simp [hbody], rfl, hlast⟩]
  simp [List.take_append_of_le_length, hbody]

theorem toAddress_p2pkhScript {hash : Bytes} (hlen : hash.length = 20) :
    toAddress (p2pkhScript hash) = (some .p2pkh, hash) :=
  toAddress_p2pkh (by omega) (by omega) rfl

/-- The length and all but the last byte of the hash. -/
theorem toAddress_p2shScript {hash : Bytes} (hlen : hash.length = 20) :
    toAddress (p2shScript hash) = (some .p2sh, 20 :: hash.take 19) := by
  have hscript : p2shScript hash = 0xA9 :: (20 :: hash) ++ [0x87] := by
    rw [p2shScript, hlen]
    rfl
  rw [hscript, toAddress_p2sh (congrArg (· + 1) hlen), List.take_succ_cons]

/-! ## Standard scripts -/

def IsStandard (v : Scriptpubkey) : Prop :=
  ∃ hash : Bytes, hash.length = 20 ∧ (v = p2pkhScript hash ∨ v = p2shScript hash)

theorem eq_replicate_of_eq_cons_take {α : Type _} {as : List α} {a : α}
    (h : as = a :: as.take (as.length - 1)) : as = List.replicate as.length a := by
  have hget : ∀ i < as.length, as[i]? = some a := by
    intro i hi
    induction i with
    | zero => rw [h, List.getElem?_cons_zero]
    | succ i ih =>
      rw [h, List.getElem?_cons_succ, List.getElem?_take_of_lt (by omega)]
      exact ih (by omega)
  apply List.eq_replicate_iff.mpr
  refine ⟨rfl, ?_⟩
  intro b hb
  obtain ⟨i, hi, hib⟩ := List.getElem_of_mem hb
  have hia := hget i hi
  rw [List.getElem?_eq_getElem hi, hib] at hia
  exact Option.some.inj hia

/-- The code forgets that the length precedes the hash of a `P2SH` script. -/
theorem roundTrip_p2shScript {addrPrefix : Bytes} (hp : addrPrefix ≠ [])
    (hlower : ∀ c ∈ addrPrefix, Cashaddr.IsLower c) {hash : Bytes} (hlen : hash.length = 20) :
    (toCashaddr (p2shScript hash) addrPrefix >>= fromCashaddr Cashaddr.decode) =
      .ok (p2shScript (20 :: hash.take 19)) := by
  have hbits : getHashSizeBits (20 :: hash.take 19) = .ok 0 := by simp [getHashSizeBits, hlen]
  exact fromCashaddr_toCashaddr hp hlower (toAddress_p2shScript hlen) hbits

theorem roundTrip_p2pkhScript {addrPrefix : Bytes} (hp : addrPrefix ≠ [])
    (hlower : ∀ c ∈ addrPrefix, Cashaddr.IsLower c) {hash : Bytes} (hlen : hash.length = 20) :
    (toCashaddr (p2pkhScript hash) addrPrefix >>= fromCashaddr Cashaddr.decode) =
      .ok (p2pkhScript hash) := by
  have hbits : getHashSizeBits hash = .ok 0 := by simp [getHashSizeBits, hlen]
  exact fromCashaddr_toCashaddr hp hlower (toAddress_p2pkhScript hlen) hbits

theorem p2shScript_inj {a b : Bytes} : p2shScript a = p2shScript b ↔ a = b := by
  constructor
  · intro h
    exact List.append_inj_right (List.append_inj_left' h rfl) rfl
  · exact congrArg p2shScript

theorem p2shScript_ne_p2pkhScript (a b : Bytes) : p2shScript a ≠ p2pkhScript b := by
  intro h
  exact absurd (List.cons.inj h).1 (by decide)

theorem cons_take_eq_iff {hash : Bytes} (hlen : hash.length = 20) :
    20 :: hash.take 19 = hash ↔ hash = List.replicate 20 20 := by
  constructor
  · intro h
    have hcons : hash = 20 :: hash.take (hash.length - 1) := by rw [hlen, h]
    have heq := eq_replicate_of_eq_cons_take hcons
    rwa [hlen] at heq
  · intro h
    rw [h]
    rfl

theorem isLower_a : ∀ c ∈ ([97] : Bytes), Cashaddr.IsLower c :=
  List.forall_mem_singleton.mpr (by decide)

/-- A standard script comes back unless it is a `P2SH` script of a hash with some byte other
than its length. -/
theorem roundTrip_iff {addrPrefix : Bytes} (hp : addrPrefix ≠ [])
    (hlower : ∀ c ∈ addrPrefix, Cashaddr.IsLower c) {v : Scriptpubkey} (hv : IsStandard v) :
    (toCashaddr v addrPrefix >>= fromCashaddr Cashaddr.decode) = .ok v ↔
      (∃ hash : Bytes, hash.length = 20 ∧ v = p2pkhScript hash) ∨
        v = p2shScript (List.replicate 20 20) := by
  obtain ⟨hash, hlen, hscript⟩ := hv
  cases hscript with
  | inl hp2pkh =>
    rw [hp2pkh, roundTrip_p2pkhScript hp hlower hlen]
    exact iff_of_true rfl (.inl ⟨hash, hlen, rfl⟩)
  | inr hp2sh =>
    have hother : ¬ ∃ h : Bytes, h.length = 20 ∧ p2shScript hash = p2pkhScript h := by
      intro hexists
      obtain ⟨h, -, heq⟩ := hexists
      exact p2shScript_ne_p2pkhScript hash h heq
    rw [hp2sh, roundTrip_p2shScript hp hlower hlen, Except.ok.injEq, p2shScript_inj,
      p2shScript_inj, cons_take_eq_iff hlen, or_iff_right hother]

theorem roundTrip_p2pkh_zeros :
    (toCashaddr (p2pkhScript (List.replicate 20 0)) [97] >>= fromCashaddr Cashaddr.decode) =
      .ok (p2pkhScript (List.replicate 20 0)) :=
  (roundTrip_iff (by decide) isLower_a ⟨List.replicate 20 0, rfl, .inl rfl⟩).mpr
    (.inl ⟨List.replicate 20 0, rfl, rfl⟩)

/-- The script hash of twenty zeros. -/
theorem not_roundTrip_p2sh_zeros :
    ¬ ∀ addrPrefix : Bytes, addrPrefix ≠ [] → (∀ c ∈ addrPrefix, Cashaddr.IsLower c) →
      ∀ v, IsStandard v →
        (toCashaddr v addrPrefix >>= fromCashaddr Cashaddr.decode) = .ok v := by
  intro h
  have hback := h [97] (by decide) isLower_a (p2shScript (List.replicate 20 0))
    ⟨List.replicate 20 0, rfl, .inr rfl⟩
  rw [roundTrip_p2shScript (by decide) isLower_a rfl] at hback
  exact absurd hback (by decide)

/-! ## What clients can send -/

/-- No failure, and the empty script or the script of a hash of the announced length. -/
def Safe (values : Bytes) (result : Except Failure Scriptpubkey) : Prop :=
  ∃ v, result = .ok v ∧ (v = [] ∨ ∃ hash : Bytes,
    hash.length = hashSize ((payloadBytes values).getD 0 0) ∧
      (v = p2pkhScript hash ∨ v = p2shScript hash))

/-- The byte in the first place of the converted payload: the version byte, unless the index
wraps. -/
def firstByte (values : Bytes) : UInt8 :=
  (payloadBytes values).getD (256 * (((payloadBytes values).length - 1) / 256)) 0

def Accepted (values : Bytes) : Prop :=
  values ≠ [] ∧ PaddingClear values ∧
    (firstByte values &&& 120 = 0 ∨ firstByte values &&& 120 = 8 →
      (payloadBytes values).length = hashSize ((payloadBytes values).getD 0 0) + 1)

theorem hashBytes_eq_cons {values : Bytes} (hne : values ≠ []) (hclear : PaddingClear values) :
    ∃ hash, hashBytes values = firstByte values :: hash ∧
      ∀ version, hash.length = hashSize version ↔
        (payloadBytes values).length = hashSize version + 1 := by
  have hsome := List.length_pos_iff.mpr hne
  have hlen := length_payloadBytes values
  have hmod := hclear.1
  have hcount : 0 < (payloadBytes values).length := by omega
  have hconv := length_hashBytes values
  have hboth : (hashBytes values).length = (payloadBytes values).length ∨
      256 < (hashBytes values).length ∧ 256 < (payloadBytes values).length := by
    by_cases hexact : 5 * values.length < 2 ^ 24
    · exact .inl (by rw [hconv, conversionLength_strict hexact, hlen])
    · refine .inr ⟨?_, by omega⟩
      rw [hconv]
      exact lt_conversionLength_strict (not_lt.mp hexact)
  have hzeros : List.replicate (conversionLength values.length 5 8 true) (0 : UInt8) ≠ [] := by
    apply List.length_pos_iff.mp
    rw [List.length_replicate]
    omega
  have hhead := head_writeAll (m := 256) (by decide) hzeros (List.length_pos_iff.mp hcount)
  rw [← hashBytes] at hhead
  have hindex : 256 * (((payloadBytes values).length - 1) / 256) <
      (payloadBytes values).length := by
    omega
  cases hbytes : hashBytes values with
  | nil =>
    rw [hbytes] at hboth
    simp at hboth
    omega
  | cons version hash =>
    rw [hbytes, List.getElem?_cons_zero, List.getElem?_eq_getElem hindex] at hhead
    rw [hbytes, List.length_cons] at hboth
    refine ⟨hash, ?_, ?_⟩
    · rw [Option.some.inj hhead, firstByte, List.getD_eq_getElem?_getD,
        List.getElem?_eq_getElem hindex, Option.getD_some]
    · intro size
      have hsize := hashSize_le size
      omega

theorem safe_script_iff {values : Bytes} (type : AddressType) (hash : Bytes) :
    Safe values (.ok (script type hash)) ↔
      hash.length = hashSize ((payloadBytes values).getD 0 0) := by
  constructor
  · intro hsafe
    obtain ⟨v, hv, hempty | ⟨other, hlen, hscript⟩⟩ := hsafe
    · rw [hempty, Except.ok.injEq] at hv
      cases type with
      | p2pkh => cases hv
      | p2sh => cases hv
    · rw [Except.ok.injEq] at hv
      have hsame : hash.length = other.length := by
        cases type with
        | p2pkh =>
          cases hscript with
          | inl hp2pkh =>
            have hlengths := congrArg List.length (hv.trans hp2pkh)
            simpa [script, p2pkhScript] using hlengths
          | inr hp2sh => exact absurd (hv.trans hp2sh).symm (p2shScript_ne_p2pkhScript _ _)
        | p2sh =>
          cases hscript with
          | inl hp2pkh => exact absurd (hv.trans hp2pkh) (p2shScript_ne_p2pkhScript _ _)
          | inr hp2sh => rw [p2shScript_inj.mp (hv.trans hp2sh)]
      rw [hsame, hlen]
  · intro hlen
    refine ⟨script type hash, rfl, .inr ⟨hash, hlen, ?_⟩⟩
    cases type with
    | p2pkh => exact .inl rfl
    | p2sh => exact .inr rfl

theorem not_safe_error {values : Bytes} {e : Failure} : ¬ Safe values (.error e) := by
  intro hsafe
  obtain ⟨v, hv, -⟩ := hsafe
  cases hv

theorem safe_nil {values : Bytes} : Safe values (.ok []) := ⟨[], rfl, .inl rfl⟩

theorem safe_switch_iff {values hash : Bytes} {version : UInt8} :
    Safe values (if version &&& 120 = 0 then .ok (p2pkhScript hash)
      else if version &&& 120 = 8 then .ok (p2shScript hash) else .ok []) ↔
      (version &&& 120 = 0 ∨ version &&& 120 = 8 →
        hash.length = hashSize ((payloadBytes values).getD 0 0)) := by
  by_cases hp2pkh : version &&& 120 = 0
  · rw [if_pos hp2pkh, imp_iff_right (.inl hp2pkh)]
    exact safe_script_iff .p2pkh hash
  · by_cases hp2sh : version &&& 120 = 8
    · rw [if_neg hp2pkh, if_pos hp2sh, imp_iff_right (.inr hp2sh)]
      exact safe_script_iff .p2sh hash
    · rw [if_neg hp2pkh, if_neg hp2sh]
      exact iff_of_true safe_nil fun h => absurd h (not_or.mpr ⟨hp2pkh, hp2sh⟩)

/-- Which payloads are safe. -/
theorem fromCashaddr_safe_iff {decode : Bytes → Except Failure (Bytes × Bytes)} {str : Bytes}
    {decoded : Bytes × Bytes} (hdecode : decode str = .ok decoded)
    (hvalues : decoded.1 = [] ∨ ∀ v ∈ decoded.2, v.toNat < 32) :
    Safe decoded.2 (fromCashaddr decode str) ↔ decoded.1 = [] ∨ Accepted decoded.2 := by
  by_cases hp : decoded.1 = []
  · have hresult : fromCashaddr decode str = .ok [] := by
      simp only [fromCashaddr, hdecode, bind, Except.bind, hp, if_true]
    rw [hresult]
    exact iff_of_true safe_nil (.inl hp)
  · have hbits := convertBits_payload (hvalues.resolve_left hp)
    rw [or_iff_right hp]
    simp only [fromCashaddr, hdecode, bind, Except.bind, hp, if_false, hbits]
    by_cases hclear : PaddingClear decoded.2
    · rw [if_pos hclear]
      by_cases hne : decoded.2 = []
      · have hnil : hashBytes decoded.2 = [] := by
          rw [hne, hashBytes_eq (by decide)]
          rfl
        rw [hnil]
        exact iff_of_false not_safe_error fun haccepted => haccepted.1 hne
      · obtain ⟨hash, hcons, hsize⟩ := hashBytes_eq_cons hne hclear
        rw [hcons]
        simp only [safe_switch_iff, hsize, Accepted, ne_eq, hne, not_false_eq_true, hclear,
          true_and]
    · rw [if_neg hclear]
      exact iff_of_false not_safe_error fun haccepted => hclear haccepted.2.1

instance : DecidablePred Accepted := fun values =>
  inferInstanceAs (Decidable (values ≠ [] ∧ PaddingClear values ∧
    (firstByte values &&& 120 = 0 ∨ firstByte values &&& 120 = 8 →
      (payloadBytes values).length = hashSize ((payloadBytes values).getD 0 0) + 1)))

/-- `bitcoincash:qpm2qsznhks23z7629mms6s4cwef74vcwvy22gdx6a` -/
def clientAddress : Bytes := [98, 105, 116, 99, 111, 105, 110, 99, 97, 115, 104, 58, 113, 112,
  109, 50, 113, 115, 122, 110, 104, 107, 115, 50, 51, 122, 55, 54, 50, 57, 109, 109, 115, 54,
  115, 52, 99, 119, 101, 102, 55, 52, 118, 99, 119, 118, 121, 50, 50, 103, 100, 120, 54, 97]

def clientPayload : Bytes := [0, 1, 27, 10, 0, 16, 2, 19, 23, 22, 16, 10, 17, 2, 30, 26, 10, 5,
  27, 27, 16, 26, 16, 21, 24, 14, 25, 9, 30, 21, 12, 24, 14, 12]

theorem clientAddress_safe :
    Safe clientPayload (fromCashaddr Cashaddr.decode clientAddress) := by
  have hdecode : Cashaddr.decode clientAddress = .ok (clientAddress.take 11, clientPayload) := by
    decide +kernel
  exact (fromCashaddr_safe_iff hdecode (.inr (by decide +kernel))).mpr (.inr (by decide +kernel))

/-- `bitcoincash:q0n354ecu`, an address with one digit in its payload. -/
def shortAddress : Bytes := [98, 105, 116, 99, 111, 105, 110, 99, 97, 115, 104, 58, 113, 48, 110,
  51, 53, 52, 101, 99, 117]

theorem not_always_safe :
    ¬ ∀ decode : Bytes → Except Failure (Bytes × Bytes),
      (∀ str decoded, decode str = .ok decoded →
        decoded.1 = [] ∨ ∀ v ∈ decoded.2, v.toNat < 32) →
      ∀ str decoded, decode str = .ok decoded →
        Safe decoded.2 (fromCashaddr decode str) := by
  intro h
  have hdecode : Cashaddr.decode shortAddress = .ok (shortAddress.take 11, [0]) := by
    decide +kernel
  have hsafe := h Cashaddr.decode (fun _ _ => Cashaddr.decode_values) shortAddress _ hdecode
  have hvalues : ∀ v ∈ ([0] : Bytes), v.toNat < 32 := List.forall_mem_singleton.mpr (by decide)
  have hbits := convertBits_payload hvalues
  rw [if_neg (by decide)] at hbits
  have hresult : fromCashaddr Cashaddr.decode shortAddress = .error .assertion := by
    simp only [fromCashaddr, hdecode, bind, Except.bind, hbits]
    rfl
  rw [hresult] at hsafe
  exact not_safe_error hsafe

end Scriptpubkey
end SlpGraphSearch
