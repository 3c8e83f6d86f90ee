import SlpGraphSearch.Library.Cursor
import Mathlib.Data.UInt

/-!
# Bytes, hashes and the extraction helpers

The `extract_*` helpers copy the little-endian bytes of an integer and advance
the iterator; none of them checks the end of the buffer. Variable length
integers read their width from the first byte, and the callers test the end
through `var_int_additional_size`, which itself dereferences the iterator.
-/
namespace SlpGraphSearch
open Library Cursor

abbrev Bytes := List UInt8

/-- The `k` low bytes of `n`, little-endian. -/
def leBytes : ℕ → ℕ → Bytes
  | 0, _ => []
  | k + 1, n => UInt8.ofNat n :: leBytes k (n / 256)

@[simp] theorem length_leBytes (k n : ℕ) : (leBytes k n).length = k := by
  induction k generalizing n with
  | zero => rfl
  | succ k ih => rw [leBytes, List.length_cons, ih]

theorem leValue_leBytes (k n : ℕ) : leValue (leBytes k n) = n % 256 ^ k := by
  induction k generalizing n with
  | zero => rw [leBytes, leValue, pow_zero, Nat.mod_one]
  | succ k ih =>
      have hmod : n % (256 * 256 ^ k) = n % 256 + 256 * (n / 256 % 256 ^ k) := Nat.mod_mul
      rw [leBytes, leValue, ih, UInt8.toNat_ofNat', pow_succ' 256 k, hmod]

theorem leBytes_leValue (bs : Bytes) : leBytes bs.length (leValue bs) = bs := by
  induction bs with
  | nil => rfl
  | cons b bs ih =>
      have hb := b.toNat_lt
      have hdiv : (b.toNat + 256 * leValue bs) / 256 = leValue bs := by omega
      have hmod : UInt8.ofNat (b.toNat + 256 * leValue bs) = b := by
        apply UInt8.toNat_inj.mp
        rw [UInt8.toNat_ofNat']
        omega
      rw [List.length_cons, leBytes, leValue, hdiv, hmod, ih]

/-- Four bytes are those of the number that they encode. -/
theorem leBytes_uint32 {p : Bytes} {n : UInt32} :
    p.length = 4 ∧ n = UInt32.ofNat (leValue p) ↔ p = leBytes 4 n.toNat := by
  constructor
  · rintro ⟨hp, rfl⟩
    have hlt := leValue_lt p
    rw [hp] at hlt
    rw [UInt32.toNat_ofNat', Nat.mod_eq_of_lt (by simpa using hlt), ← hp, leBytes_leValue]
  · rintro rfl
    have hlt : n.toNat < 256 ^ 4 := n.toNat_lt
    exact ⟨length_leBytes _ _, by rw [leValue_leBytes, Nat.mod_eq_of_lt hlt, UInt32.ofNat_toNat]⟩

/-- `bhash<Tag, 32>`: thirty-two bytes. The tag only separates the C++ types;
`txid`, `tokenid` and `blockhash` convert through the same array. -/
structure Bhash where
  v : Bytes
  size_eq : v.length = 32
deriving DecidableEq

abbrev Txid := Bhash
abbrev Tokenid := Bhash
abbrev Blockhash := Bhash

/-- The default constructor fills with zeros. -/
def Bhash.zero : Bhash := ⟨List.replicate 32 0, by simp⟩

theorem Bhash.ext_v {a b : Bhash} (h : a.v = b.v) : a = b := by
  cases a
  cases b
  simpa using h

/-- Thirty-two copied bytes as a hash; the length is known where it is used. -/
def Bhash.ofBytes (v : Bytes) : Bhash :=
  if h : v.length = 32 then ⟨v, h⟩ else .zero

theorem Bhash.ofBytes_v {v : Bytes} (h : v.length = 32) : (Bhash.ofBytes v).v = v := by
  simp [Bhash.ofBytes, h]

theorem Bhash.ofBytes_self (h : Bhash) : Bhash.ofBytes h.v = h :=
  Bhash.ext_v (Bhash.ofBytes_v h.size_eq)

def extractU8 : Cursor UInt8 := do
  let b ← take 1
  pure (UInt8.ofNat (leValue b))

def extractU16 : Cursor UInt16 := do
  let b ← take 2
  pure (UInt16.ofNat (leValue b))

def extractU32 : Cursor UInt32 := do
  let b ← take 4
  pure (UInt32.ofNat (leValue b))

def extractU64 : Cursor UInt64 := do
  let b ← take 8
  pure (UInt64.ofNat (leValue b))

/-- The number of bytes after the first byte of a variable length integer. -/
def varIntWidth (v : UInt8) : ℕ :=
  if v < 0xFD then 0 else if v = 0xFD then 2 else if v = 0xFE then 4 else 8

def varIntAdditionalSize : Cursor ℕ := do
  let v ← peek
  pure (varIntWidth v)

def extractVarInt : Cursor UInt64 := do
  let ret ← extractU8
  if ret < 0xFD then pure ret.toUInt64
  else if ret = 0xFD then do
    let n ← extractU16
    pure n.toUInt64
  else if ret = 0xFE then do
    let n ← extractU32
    pure n.toUInt64
  else extractU64

/-- The end test of the variable length integers, `1 + size` bytes with `k = 1`
and `size` bytes with `k = 0`. -/
def checkedVarInt (k : ℕ) : Cursor UInt64 := do
  let size ← varIntAdditionalSize
  checkEnd (k + size)
  extractVarInt

/-- An encoding of a variable length integer, minimal or not. -/
def VarInt (p : Bytes) (n : UInt64) : Prop :=
  ∃ b q, p = b :: q ∧ q.length = varIntWidth b ∧
    n = if b < 0xFD then b.toUInt64 else UInt64.ofNat (leValue q)

theorem extractU8_cons (b : UInt8) (it : Bytes) : extractU8 (b :: it) = .ok (b, it) := by
  simp [extractU8, take_ok, leValue, Except.bind]

/-- Unguarded extraction: the first byte decides the width, and the read is in
bounds exactly when that many bytes follow. -/
theorem extractVarInt_cons (b : UInt8) (it : Bytes) (h : varIntWidth b ≤ it.length) :
    extractVarInt (b :: it) = .ok (if b < 0xFD then b.toUInt64 else
      UInt64.ofNat (leValue (it.take (varIntWidth b))), it.drop (varIntWidth b)) := by
  rw [extractVarInt, run_bind, extractU8_cons]
  simp only [Except.bind]
  unfold varIntWidth at h ⊢
  split_ifs at h ⊢ with h₁ h₂ h₃
  · simp
  · have hv := leValue_lt (it.take 2)
    rw [List.length_take, Nat.min_eq_left h] at hv
    simp only [extractU16, run_bind, take_ok h, Except.bind, run_pure, Except.ok.injEq,
      Prod.mk.injEq, and_true]
    apply UInt64.toNat_inj.mp
    simp only [UInt16.toNat_toUInt64, UInt16.toNat_ofNat', UInt64.toNat_ofNat']
    omega
  · have hv := leValue_lt (it.take 4)
    rw [List.length_take, Nat.min_eq_left h] at hv
    simp only [extractU32, run_bind, take_ok h, Except.bind, run_pure, Except.ok.injEq,
      Prod.mk.injEq, and_true]
    apply UInt64.toNat_inj.mp
    simp only [UInt32.toNat_toUInt64, UInt32.toNat_ofNat', UInt64.toNat_ofNat']
    omega
  · simp [extractU64, run_bind, take_ok h, Except.bind]

/-- Unguarded extraction leaves the bytes when fewer follow than the first announces. -/
theorem extractVarInt_outOfBounds {b : UInt8} {it : Bytes} (h : it.length < varIntWidth b) :
    extractVarInt (b :: it) = .error .outOfBounds := by
  rw [extractVarInt, run_bind, extractU8_cons]
  simp only [Except.bind]
  unfold varIntWidth at h
  split_ifs at h ⊢ with h₁ h₂ h₃
  · exact absurd h (Nat.not_lt_zero _)
  · simp only [extractU16, run_bind, take_outOfBounds h, Except.bind]
  · simp only [extractU32, run_bind, take_outOfBounds h, Except.bind]
  · simp only [extractU64, run_bind, take_outOfBounds h, Except.bind]

/-- What it reads is an encoding of the number that it returns. -/
theorem extractVarInt_iff {it rest : Bytes} {n : UInt64} :
    extractVarInt it = .ok (n, rest) ↔ ∃ p, it = p ++ rest ∧ VarInt p n := by
  constructor
  · intro h
    cases it with
    | nil =>
        have hstop : extractVarInt [] = .error .outOfBounds := rfl
        rw [hstop] at h
        cases h
    | cons b it =>
        cases Nat.lt_or_ge it.length (varIntWidth b) with
        | inl hshort =>
            rw [extractVarInt_outOfBounds hshort] at h
            cases h
        | inr hfit =>
            rw [extractVarInt_cons b it hfit, Except.ok.injEq, Prod.mk.injEq] at h
            obtain ⟨hn, hrest⟩ := h
            refine ⟨b :: it.take (varIntWidth b), ?_, b, _, rfl, ?_, hn.symm⟩
            · rw [← hrest, List.cons_append, List.take_append_drop]
            · rw [List.length_take, Nat.min_eq_left hfit]
  · intro h
    obtain ⟨p, hit, b, q, hp, hq, hn⟩ := h
    have hfit : varIntWidth b ≤ (q ++ rest).length := by
      rw [List.length_append, hq]
      exact Nat.le_add_right _ _
    rw [hit, hp, List.cons_append, extractVarInt_cons b _ hfit, ← hq, List.take_left,
      List.drop_left, hn]

theorem varIntAdditionalSize_encoding {p : Bytes} {n : UInt64} (h : VarInt p n) (rest : Bytes) :
    ∃ size, varIntAdditionalSize (p ++ rest) = .ok (size, p ++ rest) ∧ p.length = 1 + size := by
  obtain ⟨b, q, hp, hq, -⟩ := h
  refine ⟨varIntWidth b, ?_, ?_⟩
  · rw [hp]
    rfl
  · rw [hp, List.length_cons, hq, Nat.add_comm]

/-- `CHECK_END(k + size)` makes the variable length integer safe wherever one
byte can be dereferenced, and leaves `k` bytes behind it. -/
theorem checkedVarInt_decodes (k : ℕ) : Decodes 1 k (checkedVarInt k) VarInt where
  complete := by
    rintro p n rest ⟨b, q, rfl, hq, rfl⟩ hr
    have hlen : k + varIntWidth b < (b :: (q ++ rest)).length := by
      simp only [List.length_cons, List.length_append]
      omega
    have hfit : varIntWidth b ≤ (q ++ rest).length := by
      simp only [List.length_append]
      omega
    simp only [checkedVarInt, varIntAdditionalSize, run_bind, List.cons_append, peek,
      Except.bind, run_pure, checkEnd_ok hlen, extractVarInt_cons b _ hfit]
    rw [← hq, List.take_left, List.drop_left]
  sound := by
    intro it n rest hb h
    cases it with
    | nil => simp at hb
    | cons b it =>
        simp only [checkedVarInt, varIntAdditionalSize, run_bind, peek, Except.bind,
          run_pure] at h
        rcases Nat.lt_or_ge (k + varIntWidth b) (b :: it).length with hk | hk
        · have hfit : varIntWidth b ≤ it.length := by
            simp only [List.length_cons] at hk
            omega
          simp only [checkEnd_ok hk, extractVarInt_cons b it hfit, Except.ok.injEq,
            Prod.mk.injEq] at h
          obtain ⟨rfl, rfl⟩ := h
          refine ⟨?_, b :: it.take (varIntWidth b), by simp, b, _, rfl, ?_, rfl⟩
          · simp only [List.length_cons, List.length_drop] at hk ⊢
            omega
          · rw [List.length_take]
            omega
        · simp [checkEnd_refuse hk] at h
  safe := by
    intro it hb
    cases it with
    | nil => simp at hb
    | cons b it =>
        simp only [checkedVarInt, varIntAdditionalSize, run_bind, peek, Except.bind, run_pure]
        rcases Nat.lt_or_ge (k + varIntWidth b) (b :: it).length with hk | hk
        · have hfit : varIntWidth b ≤ it.length := by
            simp only [List.length_cons] at hk
            omega
          simp [checkEnd_ok hk, extractVarInt_cons b it hfit]
        · simp [checkEnd_refuse hk]
  room := by
    rintro p n ⟨b, q, rfl, -, -⟩
    simp only [List.length_cons]
    omega

theorem extractVarInt_terminates : Terminates extractVarInt := by
  refine ((Terminates.take 1).bind fun b => .pure _).bind fun ret => ?_
  split_ifs
  · exact .pure _
  · exact ((Terminates.take 2).bind fun b => .pure _).bind fun n => .pure _
  · exact ((Terminates.take 4).bind fun b => .pure _).bind fun n => .pure _
  · exact (Terminates.take 8).bind fun b => .pure _

theorem checkedVarInt_terminates (k : ℕ) : Terminates (checkedVarInt k) :=
  (Terminates.peek.bind fun _ => .pure _).bind fun _ =>
    (Terminates.checkEnd _).bind fun _ => extractVarInt_terminates

/-- The shortest encoding. The source notes "TODO test this its probably broken". -/
def numToVarInt (n : UInt64) : Bytes :=
  if n ≤ 0xFC then [n.toUInt8]
  else if n ≤ 0xFFFF then 0xFD :: leBytes 2 n.toNat
  else if n ≤ 0xFFFFFFFF then 0xFE :: leBytes 4 n.toNat
  else 0xFF :: leBytes 8 n.toNat

theorem ofNat_leValue_leBytes {k : ℕ} {n : UInt64} (h : n.toNat < 256 ^ k) :
    UInt64.ofNat (leValue (leBytes k n.toNat)) = n := by
  rw [leValue_leBytes, Nat.mod_eq_of_lt h, UInt64.ofNat_toNat]

theorem varInt_numToVarInt (n : UInt64) : VarInt (numToVarInt n) n := by
  unfold numToVarInt
  split_ifs with h₁ h₂ h₃
  · rw [UInt64.le_iff_toNat_le] at h₁
    have hb : n.toUInt8.toNat = n.toNat := by
      rw [UInt64.toNat_toUInt8]
      exact Nat.mod_eq_of_lt (lt_of_le_of_lt h₁ (by decide))
    have hlt : n.toUInt8 < 0xFD := by
      rw [UInt8.lt_iff_toNat_lt, hb]
      exact lt_of_le_of_lt h₁ (by decide)
    refine ⟨_, [], rfl, by simp [varIntWidth, hlt], ?_⟩
    rw [if_pos hlt]
    exact UInt64.toNat_inj.mp (by rw [UInt8.toNat_toUInt64, hb])
  · rw [UInt64.le_iff_toNat_le] at h₂
    exact ⟨_, _, rfl, by simp [varIntWidth], (ofNat_leValue_leBytes
      (lt_of_le_of_lt h₂ (by decide))).symm⟩
  · rw [UInt64.le_iff_toNat_le] at h₃
    exact ⟨_, _, rfl, by simp [varIntWidth], (ofNat_leValue_leBytes
      (lt_of_le_of_lt h₃ (by decide))).symm⟩
  · exact ⟨_, _, rfl, by simp [varIntWidth], (ofNat_leValue_leBytes n.toNat_lt).symm⟩

theorem length_numToVarInt (n : UInt64) : (numToVarInt n).length =
    if n ≤ 0xFC then 1 else if n ≤ 0xFFFF then 3 else if n ≤ 0xFFFFFFFF then 5 else 9 := by
  unfold numToVarInt
  split_ifs <;> simp

/-- The number that a given count of low bytes encodes. -/
theorem eq_leBytes_of_ofNat {k : ℕ} (hk : k ≤ 8) {q : Bytes} {n : UInt64} (hq : q.length = k)
    (hn : n = UInt64.ofNat (leValue q)) : n.toNat < 256 ^ k ∧ q = leBytes k n.toNat := by
  have hlt : leValue q < 256 ^ k := hq ▸ leValue_lt q
  have hpow : 256 ^ k ≤ 2 ^ 64 := (Nat.pow_le_pow_right (by decide) hk).trans (by decide)
  have hnat : n.toNat = leValue q := by
    rw [hn, UInt64.toNat_ofNat', Nat.mod_eq_of_lt (hlt.trans_le hpow)]
  exact ⟨hnat ▸ hlt, by rw [hnat, ← hq, leBytes_leValue]⟩

/-- The writer's encoding is the only one of its length, and none is shorter. -/
theorem VarInt.shortest {p : Bytes} {n : UInt64} (h : VarInt p n) :
    (numToVarInt n).length ≤ p.length ∧
      (p.length ≤ (numToVarInt n).length → p = numToVarInt n) := by
  obtain ⟨b, q, rfl, hq, hn⟩ := h
  rw [length_numToVarInt, List.length_cons]
  unfold varIntWidth at hq
  by_cases hb : b < 0xFD
  · rw [if_pos hb] at hq hn
    have hle : n ≤ 0xFC := by
      rw [UInt8.lt_iff_toNat_lt] at hb
      rw [UInt64.le_iff_toNat_le, hn, UInt8.toNat_toUInt64]
      exact Nat.le_of_lt_succ hb
    rw [numToVarInt, if_pos hle, if_pos hle, List.eq_nil_of_length_eq_zero hq, hn]
    exact ⟨Nat.le_refl _, fun _ => by rw [UInt8.toUInt8_toUInt64]⟩
  · rw [if_neg hb] at hq hn
    by_cases hD : b = 0xFD
    · rw [if_pos hD] at hq
      obtain ⟨hlt, hqn⟩ := eq_leBytes_of_ofNat (by decide) hq hn
      have hle : n ≤ 0xFFFF := UInt64.le_iff_toNat_le.mpr (Nat.le_of_lt_succ hlt)
      rw [numToVarInt, hq, if_pos hle, hD, hqn, if_pos hle]
      split_ifs <;> simp
    · rw [if_neg hD] at hq
      by_cases hE : b = 0xFE
      · rw [if_pos hE] at hq
        obtain ⟨hlt, hqn⟩ := eq_leBytes_of_ofNat (by decide) hq hn
        have hle : n ≤ 0xFFFFFFFF := UInt64.le_iff_toNat_le.mpr (Nat.le_of_lt_succ hlt)
        rw [numToVarInt, hq, if_pos hle, hE, hqn, if_pos hle]
        split_ifs <;> simp
      · rw [if_neg hE] at hq
        obtain ⟨-, hqn⟩ := eq_leBytes_of_ofNat (by decide) hq hn
        have hF : b = 0xFF := by
          apply UInt8.toNat_inj.mp
          have hD' : b.toNat ≠ 0xFD := fun h => hD (UInt8.toNat_inj.mp h)
          have hE' : b.toNat ≠ 0xFE := fun h => hE (UInt8.toNat_inj.mp h)
          have hlt := b.toNat_lt
          rw [UInt8.lt_iff_toNat_lt] at hb
          simp only [UInt8.reduceToNat] at hb ⊢
          omega
        rw [numToVarInt, hq, hF, hqn]
        split_ifs <;> simp

/-- An encoding of a number that no other one of the number is shorter than. -/
def MinimalVarInt (p : Bytes) (n : UInt64) : Prop :=
  VarInt p n ∧ ∀ q, VarInt q n → p.length ≤ q.length

theorem minimalVarInt_iff {p : Bytes} {n : UInt64} :
    MinimalVarInt p n ↔ p = numToVarInt n := by
  constructor
  · rintro ⟨hp, hmin⟩
    exact hp.shortest.2 (hmin _ (varInt_numToVarInt n))
  · rintro rfl
    exact ⟨varInt_numToVarInt n, fun q hq => hq.shortest.1⟩

/-- Writing and reading: the reader undoes the writer and stops where the predicted size says,
and the writer undoes the reader exactly where nothing shorter reads as the same number. -/
theorem varInt_codec :
    (∀ (n : UInt64) (tail : Bytes),
      extractVarInt (numToVarInt n ++ tail) = .ok (n, tail) ∧
        ∃ size, varIntAdditionalSize (numToVarInt n ++ tail) =
          .ok (size, numToVarInt n ++ tail) ∧ (numToVarInt n).length = 1 + size) ∧
    ∀ (it rest : Bytes) (n : UInt64), extractVarInt it = .ok (n, rest) →
      ∃ p, it = p ++ rest ∧ (numToVarInt n).length ≤ p.length ∧
        (numToVarInt n = p ↔
          ∀ q tail, extractVarInt (q ++ tail) = .ok (n, tail) → p.length ≤ q.length) := by
  have hreads : ∀ q n, (∃ tail, extractVarInt (q ++ tail) = .ok (n, tail)) ↔ VarInt q n := by
    intro q n
    constructor
    · intro hread
      obtain ⟨tail, hread⟩ := hread
      obtain ⟨q', hq, hn⟩ := extractVarInt_iff.mp hread
      rwa [List.append_cancel_right hq]
    · intro hn
      exact ⟨[], extractVarInt_iff.mpr ⟨q, rfl, hn⟩⟩
  constructor
  · intro n tail
    have hn := varInt_numToVarInt n
    exact ⟨extractVarInt_iff.mpr ⟨_, rfl, hn⟩, varIntAdditionalSize_encoding hn tail⟩
  · intro it rest n h
    obtain ⟨p, hit, hp⟩ := extractVarInt_iff.mp h
    refine ⟨p, hit, hp.shortest.1, ?_⟩
    have hminimal : numToVarInt n = p ↔ ∀ q, VarInt q n → p.length ≤ q.length := by
      rw [eq_comm, ← minimalVarInt_iff, MinimalVarInt, and_iff_right hp]
    rw [hminimal]
    simp only [← hreads, forall_exists_index]

theorem varInt_codec_five :
    extractVarInt [0xFD, 5, 0, 9] = .ok (5, [9]) ∧
      ∃ p, [0xFD, 5, 0, 9] = p ++ [9] ∧ (numToVarInt 5).length ≤ p.length ∧
        (numToVarInt 5 = p ↔
          ∀ q tail, extractVarInt (q ++ tail) = .ok (5, tail) → p.length ≤ q.length) :=
  ⟨by decide, varInt_codec.2 _ _ _ (by decide)⟩

end SlpGraphSearch
