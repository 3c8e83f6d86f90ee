import SlpGraphSearch.Library.Run
import SlpGraphSearch.Transaction

/-!
# Transaction ids in requests

How the requests turn strings into transaction ids. Most of them ask for sixty-four
hexadecimal digits of either case. The constructor of `bhash` only knows the lower-case ones,
and its test of the length looks at the new hash instead of the string, so that a string of
any other length than thirty-two is read as digits.
-/
namespace SlpGraphSearch
open Library

/-! ## Hexadecimal digits -/

/-- The digits that the constructor of `bhash` accepts. -/
def IsHexDigit (p : UInt8) : Prop := 48 ≤ p ∧ p ≤ 57 ∨ 97 ≤ p ∧ p ≤ 102

instance : DecidablePred IsHexDigit := fun p =>
  inferInstanceAs (Decidable (48 ≤ p ∧ p ≤ 57 ∨ 97 ≤ p ∧ p ≤ 102))

def hexDigitValue (p : UInt8) : UInt8 := if 48 ≤ p ∧ p ≤ 57 then p - 48 else p - 97 + 10

def hexChars : Bytes := [48, 49, 50, 51, 52, 53, 54, 55, 56, 57, 97, 98, 99, 100, 101, 102]

/-- `gs::util::hex` -/
def hex (v : Bytes) : Bytes :=
  v.flatMap fun b : UInt8 =>
    [hexChars.getD (b >>> 4).toNat 0, hexChars.getD (b &&& 0x0F).toNat 0]

namespace Bhash

/-- `n` rounds of the loop, from the character that the next one reads first. Behind the last
character is the terminator, which is no digit, and nothing behind that may be read. -/
def hexPairs : ℕ → Bytes → Except Failure Bytes
  | 0, _ => .ok []
  | n + 1, p1 :: p2 :: rest =>
      if IsHexDigit p1 ∧ IsHexDigit p2 then do
        let v ← hexPairs n rest
        .ok ((hexDigitValue p1 <<< 4 + hexDigitValue p2) :: v)
      else .error .assertion
  | _ + 1, [_] => .error .assertion
  | _ + 1, [] => .error .outOfBounds

/-- The constructor from a string. Its first assertion is about the array of the new hash and
always holds. -/
def ofString (v_ : Bytes) : Except Failure Bhash :=
  if h : v_.length = 32 then .ok ⟨v_, h⟩
  else do
    let v ← hexPairs 32 v_
    .ok (.ofBytes v)

def decompress (h : Bhash) (reverse : Bool) : Bytes := hex (if reverse then h.v.reverse else h.v)

end Bhash

/-! ## Requests -/

/-- `^[0-9a-fA-F]{64}$` -/
def TxidRegex (s : Bytes) : Prop :=
  s.length = 64 ∧ ∀ c ∈ s, 48 ≤ c ∧ c ≤ 57 ∨ 97 ≤ c ∧ c ≤ 102 ∨ 65 ≤ c ∧ c ≤ 70

instance : DecidablePred TxidRegex := fun s =>
  inferInstanceAs (Decidable (s.length = 64 ∧
    ∀ c ∈ s, 48 ≤ c ∧ c ≤ 57 ∨ 97 ≤ c ∧ c ≤ 102 ∨ 65 ≤ c ∧ c ≤ 70))

/-- The requests that carry transaction ids. -/
inductive TxidRequest
  | graphSearch (txid : Bytes) (excludeTxids : List Bytes)
  | trustedValidation (txid : Bytes)
  | trustedValidationBulk (txids : List Bytes)
  | outputOracle (txid : Bytes) (vout : UInt32)
  | utxoSearchByOutpoints (outpoints : List (Bytes × UInt32))

def lookupTxid (txid : Bytes) : Except Failure (Option Txid) :=
  if TxidRegex txid then do
    let lookup ← Bhash.ofString txid
    .ok (some lookup)
  else .ok none

/-- Strings that do not match are skipped. -/
def excludeTxids : List Bytes → Except Failure (List Txid)
  | [] => .ok []
  | txid :: txids =>
      if TxidRegex txid then do
        let exclude ← Bhash.ofString txid
        let excludes ← excludeTxids txids
        .ok (exclude :: excludes)
      else excludeTxids txids

/-- The first string that does not match ends the loop. -/
def bulkTxids : List Bytes → Except Failure (List Txid)
  | [] => .ok []
  | txid :: txids =>
      if TxidRegex txid then do
        let lookup ← Bhash.ofString txid
        let lookups ← bulkTxids txids
        .ok (lookup :: lookups)
      else .ok []

def searchOutpoints : List (Bytes × UInt32) → Except Failure (List Outpoint)
  | [] => .ok []
  | o :: os => do
      let txid ← Bhash.ofString o.1
      let outpoints ← searchOutpoints os
      .ok (⟨txid, o.2⟩ :: outpoints)

namespace TxidRequest

/-- The transaction ids that a request makes, in the order in which it makes them. -/
def decode : TxidRequest → Except Failure (List Txid)
  | graphSearch txid exclude => do
      match ← lookupTxid txid with
      | none => .ok []
      | some lookup => do
          let excludes ← excludeTxids exclude
          .ok (lookup :: excludes)
  | trustedValidation txid => do
      let lookup ← lookupTxid txid
      .ok lookup.toList
  | trustedValidationBulk txids => bulkTxids txids
  | outputOracle txid _ => do
      let lookup ← lookupTxid txid
      .ok lookup.toList
  | utxoSearchByOutpoints outpoints => do
      let outpoints ← searchOutpoints outpoints
      .ok (outpoints.map Outpoint.txid)

/-- The strings that a request turns into transaction ids. -/
def turned : TxidRequest → List Bytes
  | graphSearch txid exclude =>
      if TxidRegex txid then txid :: exclude.filter fun s => TxidRegex s else []
  | trustedValidation txid => [txid].filter fun s => TxidRegex s
  | trustedValidationBulk txids => txids.takeWhile fun s => TxidRegex s
  | outputOracle txid _ => [txid].filter fun s => TxidRegex s
  | utxoSearchByOutpoints outpoints => outpoints.map Prod.fst

end TxidRequest

theorem excludeTxids_eq (txids : List Bytes) :
    excludeTxids txids = (txids.filter fun s => TxidRegex s).mapM Bhash.ofString := by
  induction txids with
  | nil => rfl
  | cons txid txids ih =>
    rw [excludeTxids]
    by_cases hmatch : TxidRegex txid
    · rw [if_pos hmatch, List.filter_cons_of_pos (by simpa using hmatch), List.mapM_cons, ih]
      rfl
    · rw [if_neg hmatch, List.filter_cons_of_neg (by simpa using hmatch), ih]

theorem bulkTxids_eq (txids : List Bytes) :
    bulkTxids txids = (txids.takeWhile fun s => TxidRegex s).mapM Bhash.ofString := by
  induction txids with
  | nil => rfl
  | cons txid txids ih =>
    rw [bulkTxids]
    by_cases hmatch : TxidRegex txid
    · rw [if_pos hmatch, List.takeWhile_cons_of_pos (by simpa using hmatch), List.mapM_cons, ih]
      rfl
    · rw [if_neg hmatch, List.takeWhile_cons_of_neg (by simpa using hmatch)]
      rfl

theorem lookupTxid_toList (txid : Bytes) :
    (lookupTxid txid >>= fun lookup => .ok lookup.toList) =
      ([txid].filter fun s => TxidRegex s).mapM Bhash.ofString := by
  rw [lookupTxid]
  by_cases hmatch : TxidRegex txid
  · rw [if_pos hmatch, List.filter_cons_of_pos (by simpa using hmatch), List.filter_nil,
      List.mapM_cons, List.mapM_nil]
    cases Bhash.ofString txid with
    | error e => rfl
    | ok lookup => rfl
  · rw [if_neg hmatch, List.filter_cons_of_neg (by simpa using hmatch)]
    rfl

theorem searchOutpoints_txids (outpoints : List (Bytes × UInt32)) :
    (searchOutpoints outpoints >>= fun outpoints => .ok (outpoints.map Outpoint.txid)) =
      (outpoints.map Prod.fst).mapM Bhash.ofString := by
  induction outpoints with
  | nil => rfl
  | cons o outpoints ih =>
    rw [List.map_cons, List.mapM_cons, ← ih, searchOutpoints]
    cases Bhash.ofString o.1 with
    | error e => rfl
    | ok txid =>
      cases searchOutpoints outpoints with
      | error e => rfl
      | ok rest => rfl

namespace TxidRequest

theorem decode_eq (r : TxidRequest) : r.decode = r.turned.mapM Bhash.ofString := by
  cases r with
  | graphSearch txid exclude =>
    rw [decode, turned, lookupTxid]
    by_cases hmatch : TxidRegex txid
    · rw [if_pos hmatch, if_pos hmatch, List.mapM_cons, excludeTxids_eq]
      cases Bhash.ofString txid with
      | error e => rfl
      | ok lookup => rfl
    · rw [if_neg hmatch, if_neg hmatch]
      rfl
  | trustedValidation txid => exact lookupTxid_toList txid
  | trustedValidationBulk txids => exact bulkTxids_eq txids
  | outputOracle txid vout => exact lookupTxid_toList txid
  | utxoSearchByOutpoints outpoints => exact searchOutpoints_txids outpoints

end TxidRequest

/-! ## What the constructor decodes -/

theorem hexDigitValue_spec {p : UInt8} (h : IsHexDigit p) :
    (hexDigitValue p).toNat < 16 ∧ hexChars.getD (hexDigitValue p).toNat 0 = p := by
  have hall : ∀ n < 256, IsHexDigit (UInt8.ofNat n) →
      (hexDigitValue (UInt8.ofNat n)).toNat < 16 ∧
        hexChars.getD (hexDigitValue (UInt8.ofNat n)).toNat 0 = UInt8.ofNat n := by
    decide +kernel
  have hp := hall p.toNat p.toNat_lt
  rw [UInt8.ofNat_toNat] at hp
  exact hp h

/-- A byte written with the digits that it was made of. -/
theorem hex_cons {p1 p2 : UInt8} (h1 : IsHexDigit p1) (h2 : IsHexDigit p2) (v : Bytes) :
    hex ((hexDigitValue p1 <<< 4 + hexDigitValue p2) :: v) = p1 :: p2 :: hex v := by
  obtain ⟨hlt1, hchar1⟩ := hexDigitValue_spec h1
  obtain ⟨hlt2, hchar2⟩ := hexDigitValue_spec h2
  have hbyte : (hexDigitValue p1 <<< 4 + hexDigitValue p2).toNat =
      (hexDigitValue p1).toNat * 16 + (hexDigitValue p2).toNat := by
    rw [UInt8.toNat_add, UInt8.toNat_shiftLeft]
    simp only [UInt8.reduceToNat, Nat.shiftLeft_eq, Nat.reduceMod, Nat.reducePow]
    omega
  have hhigh : ((hexDigitValue p1 <<< 4 + hexDigitValue p2) >>> 4).toNat =
      (hexDigitValue p1).toNat := by
    rw [UInt8.toNat_shiftRight, hbyte]
    simp only [UInt8.reduceToNat, Nat.shiftRight_eq_div_pow, Nat.reduceMod, Nat.reducePow]
    omega
  have hlow : ((hexDigitValue p1 <<< 4 + hexDigitValue p2) &&& 0x0F).toNat =
      (hexDigitValue p2).toNat := by
    rw [UInt8.toNat_and, hbyte]
    exact (Nat.and_two_pow_sub_one_eq_mod _ 4).trans (by omega)
  simp only [hex, List.flatMap_cons, hhigh, hlow, hchar1, hchar2]
  rfl

namespace Bhash

/-- The loop gets through where enough digits follow, and writing what it made gives them
back. -/
theorem hexPairs_spec {n : ℕ} {s : Bytes} (hlen : 2 * n ≤ s.length)
    (hdigits : ∀ c ∈ s.take (2 * n), IsHexDigit c) :
    ∃ v, hexPairs n s = .ok v ∧ v.length = n ∧ hex v = s.take (2 * n) := by
  induction n generalizing s with
  | zero => exact ⟨[], by rw [hexPairs], rfl, rfl⟩
  | succ n ih =>
    cases s with
    | nil => simp at hlen
    | cons p1 s =>
      cases s with
      | nil => simp only [List.length_cons, List.length_nil] at hlen; omega
      | cons p2 rest =>
        simp only [Nat.mul_succ, List.take_succ_cons, List.forall_mem_cons] at hdigits
        simp only [List.length_cons] at hlen
        obtain ⟨hp1, hp2, hrest⟩ := hdigits
        obtain ⟨v, hv, hvlen, hhex⟩ := ih (by omega) hrest
        have hpair : hexPairs (n + 1) (p1 :: p2 :: rest) =
            .ok ((hexDigitValue p1 <<< 4 + hexDigitValue p2) :: v) := by
          rw [hexPairs, if_pos ⟨hp1, hp2⟩, hv]
          rfl
        refine ⟨_, hpair, congrArg (· + 1) hvlen, ?_⟩
        rw [hex_cons hp1 hp2, hhex]
        rfl

theorem digits_of_hexPairs {n : ℕ} {s v : Bytes} (h : hexPairs n s = .ok v) :
    2 * n ≤ s.length ∧ ∀ c ∈ s.take (2 * n), IsHexDigit c := by
  induction n generalizing s v with
  | zero => simp
  | succ n ih =>
    cases s with
    | nil => simp [hexPairs] at h
    | cons p1 s =>
      cases s with
      | nil => simp [hexPairs] at h
      | cons p2 rest =>
        rw [hexPairs] at h
        split_ifs at h with hp
        obtain ⟨v', hv', -⟩ := bind_eq_ok.mp h
        obtain ⟨hlen, hrest⟩ := ih hv'
        simp only [Nat.mul_succ, List.take_succ_cons, List.forall_mem_cons, List.length_cons]
        exact ⟨by omega, hp.1, hp.2, hrest⟩

end Bhash

/-! ## Faithful strings -/

def toLower (c : UInt8) : UInt8 := if 65 ≤ c ∧ c ≤ 90 then c + 32 else c

/-- What a hash must be for the string that it was made from. -/
structure DecodedFrom (s : Bytes) (h : Bhash) : Prop where
  hex : s.length = 64 →
    (∀ c ∈ s, 48 ≤ c ∧ c ≤ 57 ∨ 97 ≤ c ∧ c ≤ 102 ∨ 65 ≤ c ∧ c ≤ 70) →
      h.decompress false = s.map toLower
  raw : s.length = 32 → h.v = s

/-- Thirty-two bytes, or enough digits that the constructor knows. -/
def Decodable (s : Bytes) : Prop :=
  s.length = 32 ∨ 64 ≤ s.length ∧ ∀ c ∈ s.take 64, IsHexDigit c

theorem toLower_of_isHexDigit {c : UInt8} (h : IsHexDigit c) : toLower c = c := by
  apply if_neg
  unfold IsHexDigit at h
  simp only [UInt8.le_iff_toNat_le, UInt8.reduceToNat] at h ⊢
  omega

theorem map_toLower {s : Bytes} (h : ∀ c ∈ s, IsHexDigit c) : s.map toLower = s :=
  (List.map_congr_left fun c hc => toLower_of_isHexDigit (h c hc)).trans (List.map_id s)

theorem Bhash.ofString_iff (s : Bytes) :
    (∃ h, ofString s = .ok h ∧ DecodedFrom s h) ↔ Decodable s := by
  by_cases hraw : s.length = 32
  · refine iff_of_true ⟨⟨s, hraw⟩, dif_pos hraw, ⟨fun hlen => ?_, fun _ => rfl⟩⟩ (.inl hraw)
    rw [hraw] at hlen
    cases hlen
  · rw [Decodable, or_iff_right hraw, ofString, dif_neg hraw]
    constructor
    · intro hdecoded
      obtain ⟨h, hh, -⟩ := hdecoded
      obtain ⟨v, hv, -⟩ := bind_eq_ok.mp hh
      exact digits_of_hexPairs hv
    · intro hdigits
      obtain ⟨v, hv, hlen, hhex⟩ := hexPairs_spec (n := 32) hdigits.1 hdigits.2
      refine ⟨.ofBytes v, by rw [hv]; rfl, ⟨fun hlen64 _ => ?_, fun h => absurd h hraw⟩⟩
      have htake : s.take 64 = s := List.take_of_length_le hlen64.le
      have hlower := hdigits.2
      rw [htake] at hlower
      rw [decompress, if_neg (by decide), Bhash.ofBytes_v hlen, map_toLower hlower, hhex]
      exact htake

/-- Behind the regular expression it takes lower case. -/
theorem decodable_iff_of_txidRegex {s : Bytes} (h : TxidRegex s) :
    Decodable s ↔ ∀ c ∈ s, ¬ (65 ≤ c ∧ c ≤ 70) := by
  have hraw : s.length ≠ 32 := by
    rw [h.1]
    decide
  have htake : s.take 64 = s := List.take_of_length_le h.1.le
  rw [Decodable, or_iff_right hraw, htake, and_iff_right h.1.ge]
  apply forall₂_congr
  intro c hc
  have hclass := h.2 c hc
  simp only [IsHexDigit, UInt8.le_iff_toNat_le, UInt8.reduceToNat] at hclass ⊢
  omega

/-- Every string that a request turns into a transaction id is read faithfully, exactly if it
is decodable; and so is a request, exactly if its strings are. -/
theorem TxidRequest.decode_faithful_iff (r : TxidRequest) :
    (∀ s ∈ r.turned, ((∃ h, Bhash.ofString s = .ok h ∧ DecodedFrom s h) ↔ Decodable s)) ∧
      ((∃ txids, r.decode = .ok txids ∧ List.Forall₂ DecodedFrom r.turned txids) ↔
        ∀ s ∈ r.turned, Decodable s) := by
  constructor
  · intro s _
    exact Bhash.ofString_iff s
  · rw [decode_eq, mapM_forall₂_iff]
    simp only [Bhash.ofString_iff]

/-- Sixty-four digits. -/
def zeroDigits : Bytes := List.replicate 64 48

theorem TxidRequest.turned_trustedValidation {txid : Bytes} (h : TxidRegex txid) :
    (trustedValidation txid).turned = [txid] := by
  rw [turned, List.filter_cons_of_pos (by simpa using h), List.filter_nil]

theorem txidRegex_replicate {c : UInt8}
    (hc : 48 ≤ c ∧ c ≤ 57 ∨ 97 ≤ c ∧ c ≤ 102 ∨ 65 ≤ c ∧ c ≤ 70) :
    TxidRegex (List.replicate 64 c) := by
  refine ⟨List.length_replicate, ?_⟩
  intro d hd
  exact List.eq_of_mem_replicate hd ▸ hc

theorem TxidRequest.decode_faithful_zeros :
    ∃ txids, (trustedValidation zeroDigits).decode = .ok txids ∧
      List.Forall₂ DecodedFrom (trustedValidation zeroDigits).turned txids := by
  have hregex : TxidRegex zeroDigits := txidRegex_replicate (by decide)
  apply (decode_faithful_iff (trustedValidation zeroDigits)).2.mpr
  rw [turned_trustedValidation hregex, List.forall_mem_singleton,
    decodable_iff_of_txidRegex hregex]
  intro c hc
  rw [List.eq_of_mem_replicate hc]
  decide

/-- `AA...A` matches the regular expression. -/
theorem TxidRequest.not_decode_faithful :
    ¬ ∀ r : TxidRequest, ∀ s ∈ r.turned, ∃ h, Bhash.ofString s = .ok h ∧ DecodedFrom s h := by
  intro hall
  have hregex : TxidRegex (List.replicate 64 65) := txidRegex_replicate (by decide)
  have hmem : List.replicate 64 65 ∈ (trustedValidation (List.replicate 64 65)).turned := by
    rw [turned_trustedValidation hregex]
    exact List.mem_singleton_self _
  have hdecodable := (Bhash.ofString_iff _).mp (hall _ _ hmem)
  have hin : (65 : UInt8) ∈ List.replicate 64 65 := List.mem_replicate.mpr ⟨by decide, rfl⟩
  exact (decodable_iff_of_txidRegex hregex).mp hdecodable 65 hin (by decide)

end SlpGraphSearch
