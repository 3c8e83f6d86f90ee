import Mathlib.Algebra.Order.Ring.Nat
import Mathlib.Data.List.Induction
import Mathlib.Tactic.Ring
import Mathlib.Tactic.Linarith

/-!
# Digits of a fixed width

Numbers as lists of digits of `w` bits, the most significant first, and the change from
one width to another: the bits in the same order, cut into digits of the new width.
-/
namespace SlpGraphSearch.Library

/-- The number that digits of `w` bits write. -/
def ofDigits (w : ℕ) (ds : List ℕ) : ℕ := ds.foldl (fun v d => v * 2 ^ w + d) 0

/-- The last `n` digits of `w` bits of a number. -/
def toDigits (w : ℕ) : ℕ → ℕ → List ℕ
  | 0, _ => []
  | n + 1, v => toDigits w n (v / 2 ^ w) ++ [v % 2 ^ w]

variable {w a b : ℕ}

theorem ofDigits_concat (w : ℕ) (ds : List ℕ) (d : ℕ) :
    ofDigits w (ds ++ [d]) = ofDigits w ds * 2 ^ w + d := by
  simp [ofDigits]

theorem length_toDigits (w n v : ℕ) : (toDigits w n v).length = n := by
  induction n generalizing v with
  | zero => rfl
  | succ n ih => rw [toDigits, List.length_append, ih, List.length_singleton]

theorem lt_of_mem_toDigits {n v d : ℕ} (h : d ∈ toDigits w n v) : d < 2 ^ w := by
  induction n generalizing v with
  | zero => simp [toDigits] at h
  | succ n ih =>
    cases List.mem_append.mp h with
    | inl hfront => exact ih hfront
    | inr hlast =>
      rw [List.mem_singleton.mp hlast]
      exact Nat.mod_lt _ (by positivity)

theorem ofDigits_toDigits (w n v : ℕ) : ofDigits w (toDigits w n v) = v % 2 ^ (w * n) := by
  induction n generalizing v with
  | zero => simp [toDigits, ofDigits, Nat.mod_one]
  | succ n ih =>
    rw [toDigits, ofDigits_concat, ih, Nat.mul_succ, Nat.pow_add, Nat.mul_comm (2 ^ (w * n)),
      Nat.mod_mul, Nat.add_comm, Nat.mul_comm (2 ^ w)]

theorem toDigits_ofDigits {ds : List ℕ} (h : ∀ d ∈ ds, d < 2 ^ w) :
    toDigits w ds.length (ofDigits w ds) = ds := by
  induction ds using List.reverseRecOn with
  | nil => rfl
  | append_singleton ds d ih =>
    have hd : d < 2 ^ w := h d (by simp)
    have hpos : 0 < 2 ^ w := by positivity
    have hdiv : (ofDigits w ds * 2 ^ w + d) / 2 ^ w = ofDigits w ds := by
      rw [Nat.add_comm, Nat.add_mul_div_right _ _ hpos, Nat.div_eq_of_lt hd, Nat.zero_add]
    have hmod : (ofDigits w ds * 2 ^ w + d) % 2 ^ w = d := by
      rw [Nat.mul_add_mod_self_right, Nat.mod_eq_of_lt hd]
    rw [List.length_append, List.length_singleton, toDigits, ofDigits_concat, hdiv, hmod,
      ih fun e he => h e (List.mem_append_left _ he)]

theorem ofDigits_lt {ds : List ℕ} (h : ∀ d ∈ ds, d < 2 ^ w) :
    ofDigits w ds < 2 ^ (w * ds.length) := by
  have hround := congrArg (ofDigits w) (toDigits_ofDigits h)
  rw [ofDigits_toDigits] at hround
  rw [← hround]
  exact Nat.mod_lt _ (by positivity)

theorem toDigits_eq_map (w n v : ℕ) :
    toDigits w n v = (List.range n).map fun i => v / 2 ^ (w * (n - 1 - i)) % 2 ^ w := by
  induction n generalizing v with
  | zero => rfl
  | succ n ih =>
    have hfront : ∀ i ∈ List.range n, v / 2 ^ w / 2 ^ (w * (n - 1 - i)) % 2 ^ w =
        v / 2 ^ (w * (n + 1 - 1 - i)) % 2 ^ w := by
      intro i hi
      have hi := List.mem_range.mp hi
      have hsucc : n + 1 - 1 - i = n - 1 - i + 1 := by omega
      rw [Nat.div_div_eq_div_mul, ← Nat.pow_add, hsucc, Nat.mul_succ, Nat.add_comm w]
    rw [toDigits, ih, List.map_congr_left hfront, List.range_succ, List.map_append]
    simp

/-- The digits in front of the last `m`, and the last `m`. -/
theorem toDigits_add (w n m v : ℕ) :
    toDigits w (n + m) v = toDigits w n (v / 2 ^ (w * m)) ++ toDigits w m v := by
  induction m generalizing v with
  | zero => simp [toDigits]
  | succ m ih =>
    have hdiv : v / 2 ^ w / 2 ^ (w * m) = v / 2 ^ (w * (m + 1)) := by
      rw [Nat.div_div_eq_div_mul, ← Nat.pow_add, Nat.mul_succ, Nat.add_comm]
    rw [← Nat.add_assoc, toDigits, ih, hdiv, toDigits, List.append_assoc]

theorem toDigits_succ (w n v : ℕ) :
    toDigits w (n + 1) v = v / 2 ^ (w * n) % 2 ^ w :: toDigits w n v := by
  rw [Nat.add_comm, toDigits_add]
  simp [toDigits]

/-- The bits behind the last full digit of `r` bits that one more digit of `w` bits leaves are
its own. -/
theorem ofDigits_concat_mod {ds : List ℕ} {d r : ℕ} (hr : r ≤ w) :
    ofDigits w (ds ++ [d]) % 2 ^ r = d % 2 ^ r := by
  rw [ofDigits_concat]
  have hsplit : 2 ^ w = 2 ^ (w - r) * 2 ^ r := by rw [← Nat.pow_add, Nat.sub_add_cancel hr]
  rw [hsplit, ← Nat.mul_assoc, Nat.mul_add_mod_self_right]

/-- A digit below the bits that are cut off. -/
theorem mod_div_mod {n m : ℕ} (v : ℕ) (h : n + w ≤ m) :
    v % 2 ^ m / 2 ^ n % 2 ^ w = v / 2 ^ n % 2 ^ w := by
  have hsplit : 2 ^ m = 2 ^ n * 2 ^ (m - n) := by
    rw [← Nat.pow_add, Nat.add_sub_cancel' (by omega)]
  rw [hsplit, Nat.mod_mul_right_div_self, Nat.mod_mod_of_dvd]
  exact Nat.pow_dvd_pow 2 (by omega)

/-! ## Another width -/

/-- The full digits of `b` bits in digits of `a` bits. -/
def regroup (a b : ℕ) (ds : List ℕ) : List ℕ :=
  toDigits b (a * ds.length / b) (ofDigits a ds / 2 ^ (a * ds.length % b))

/-- Digits of `b` bits for all the bits, with zeros behind the last. -/
def regroupPadded (a b : ℕ) (ds : List ℕ) : List ℕ :=
  let n := (a * ds.length + (b - 1)) / b
  toDigits b n (ofDigits a ds * 2 ^ (b * n - a * ds.length))

theorem length_regroup (a b : ℕ) (ds : List ℕ) : (regroup a b ds).length = a * ds.length / b :=
  length_toDigits b _ _

theorem length_regroupPadded (a b : ℕ) (ds : List ℕ) :
    (regroupPadded a b ds).length = (a * ds.length + (b - 1)) / b :=
  length_toDigits b _ _

/-- One more digit of `a` bits fills digits of `b` bits with what was left over before it. -/
theorem regroup_concat (a b : ℕ) (ds : List ℕ) {d : ℕ} (hd : d < 2 ^ a) :
    regroup a b (ds ++ [d]) = regroup a b ds ++
      toDigits b ((a * ds.length % b + a) / b)
        (ofDigits a (ds ++ [d]) / 2 ^ ((a * ds.length % b + a) % b)) := by
  have hbits : a * (ds ++ [d]).length = a * ds.length % b + a + b * (a * ds.length / b) := by
    have hdiv := Nat.mod_add_div (a * ds.length) b
    rw [List.length_append, List.length_singleton, Nat.mul_succ]
    omega
  have hcount : a * (ds ++ [d]).length / b =
      a * ds.length / b + (a * ds.length % b + a) / b := by
    cases Nat.eq_zero_or_pos b with
    | inl hzero => simp [hzero]
    | inr hpos => rw [hbits, Nat.add_mul_div_left _ _ hpos, Nat.add_comm]
  have hrest : a * (ds ++ [d]).length % b = (a * ds.length % b + a) % b := by
    rw [hbits, Nat.add_mul_mod_self_left]
  have hfront : ofDigits a (ds ++ [d]) / 2 ^ ((a * ds.length % b + a) % b) /
      2 ^ (b * ((a * ds.length % b + a) / b)) = ofDigits a ds / 2 ^ (a * ds.length % b) := by
    have hdigit : (ofDigits a ds * 2 ^ a + d) / 2 ^ a = ofDigits a ds := by
      rw [Nat.add_comm, Nat.add_mul_div_right _ _ (by positivity), Nat.div_eq_of_lt hd,
        Nat.zero_add]
    rw [Nat.div_div_eq_div_mul, ← Nat.pow_add, Nat.mod_add_div, Nat.add_comm _ a, Nat.pow_add,
      ← Nat.div_div_eq_div_mul, ofDigits_concat, hdigit]
  rw [regroup, hcount, hrest, toDigits_add, hfront]
  rfl

/-- The padding is shorter than a digit. -/
theorem padding_spec (hb : 0 < b) (n : ℕ) :
    n ≤ b * ((n + (b - 1)) / b) ∧ b * ((n + (b - 1)) / b) < n + b := by
  have hdiv := Nat.div_add_mod (n + (b - 1)) b
  have hmod := Nat.mod_lt (n + (b - 1)) hb
  omega

theorem regroupPadded_eq (hb : 0 < b) (ds : List ℕ) :
    regroupPadded a b ds =
      if a * ds.length % b = 0 then regroup a b ds
      else regroup a b ds ++ [ofDigits a ds * 2 ^ (b - a * ds.length % b) % 2 ^ b] := by
  have hdiv := Nat.div_add_mod (a * ds.length) b
  have hlt := Nat.mod_lt (a * ds.length) hb
  have hsum : a * ds.length + (b - 1) =
      b * (a * ds.length / b) + (a * ds.length % b + (b - 1)) := by omega
  rw [regroupPadded, regroup, hsum, Nat.mul_add_div hb]
  cases Nat.eq_zero_or_pos (a * ds.length % b) with
  | inl hzero =>
    rw [hzero, Nat.add_zero] at hdiv
    have hfull : (0 + (b - 1)) / b = 0 := Nat.div_eq_of_lt (by omega)
    rw [if_pos hzero, hzero, hfull, Nat.add_zero, hdiv, Nat.sub_self]
    simp
  | inr hpos =>
    have hone : (a * ds.length % b + (b - 1)) / b = 1 := by
      apply Nat.div_eq_of_lt_le
      · omega
      · omega
    have hpad : b * (a * ds.length / b + 1) - a * ds.length = b - a * ds.length % b := by
      rw [Nat.mul_succ]
      omega
    have hback : 2 ^ b = 2 ^ (b - a * ds.length % b) * 2 ^ (a * ds.length % b) := by
      rw [← Nat.pow_add, Nat.sub_add_cancel hlt.le]
    have hfront : ofDigits a ds * 2 ^ (b - a * ds.length % b) / 2 ^ b =
        ofDigits a ds / 2 ^ (a * ds.length % b) := by
      rw [hback, ← Nat.div_div_eq_div_mul, Nat.mul_div_cancel _ (by positivity)]
    rw [if_neg hpos.ne', hone, hpad, toDigits, hfront]

theorem ofDigits_regroupPadded (hb : 0 < b) {ds : List ℕ} (h : ∀ d ∈ ds, d < 2 ^ a) :
    ofDigits b (regroupPadded a b ds) =
      ofDigits a ds * 2 ^ (b * (regroupPadded a b ds).length - a * ds.length) := by
  obtain ⟨hle, -⟩ := padding_spec hb (a * ds.length)
  rw [length_regroupPadded, regroupPadded, ofDigits_toDigits]
  apply Nat.mod_eq_of_lt
  calc ofDigits a ds * 2 ^ (b * ((a * ds.length + (b - 1)) / b) - a * ds.length)
      < 2 ^ (a * ds.length) * 2 ^ (b * ((a * ds.length + (b - 1)) / b) - a * ds.length) :=
        Nat.mul_lt_mul_of_pos_right (ofDigits_lt h) (by positivity)
    _ = 2 ^ (b * ((a * ds.length + (b - 1)) / b)) := by
        rw [← Nat.pow_add, Nat.add_sub_cancel' hle]

/-- The padded digits hold as many digits of the wider kind as they came from, and the
padding. -/
theorem regroupPadded_div_mod (hb : 0 < b) (hba : b ≤ a) (ds : List ℕ) :
    b * (regroupPadded a b ds).length / a = ds.length ∧
      b * (regroupPadded a b ds).length % a =
        b * (regroupPadded a b ds).length - a * ds.length := by
  obtain ⟨hle, hlt⟩ := padding_spec hb (a * ds.length)
  rw [← length_regroupPadded] at hle hlt
  obtain ⟨pad, hpad⟩ := Nat.exists_eq_add_of_le hle
  have hsmall : pad < a := by omega
  rw [hpad, Nat.add_sub_cancel_left]
  constructor
  · rw [Nat.mul_add_div (by omega), Nat.div_eq_of_lt hsmall, Nat.add_zero]
  · rw [Nat.mul_add_mod, Nat.mod_eq_of_lt hsmall]

/-- Digits cut smaller, padded, and put together again. -/
theorem regroup_regroupPadded (hb : 0 < b) (hba : b ≤ a) {ds : List ℕ}
    (h : ∀ d ∈ ds, d < 2 ^ a) : regroup b a (regroupPadded a b ds) = ds := by
  obtain ⟨hcount, hrest⟩ := regroupPadded_div_mod hb hba ds
  rw [regroup, hcount, hrest, ofDigits_regroupPadded hb h, Nat.mul_div_cancel _ (by positivity),
    toDigits_ofDigits h]

/-- What is left behind the digits is the padding. -/
theorem leftover_regroupPadded (hb : 0 < b) (hba : b ≤ a) {ds : List ℕ}
    (h : ∀ d ∈ ds, d < 2 ^ a) :
    ofDigits b (regroupPadded a b ds) % 2 ^ (b * (regroupPadded a b ds).length % a) = 0 := by
  rw [(regroupPadded_div_mod hb hba ds).2, ofDigits_regroupPadded hb h, Nat.mul_mod_left]

/-- Digits put together without the bits behind the last full one, which are zero, and cut
again. -/
theorem regroupPadded_regroup {ds : List ℕ} (h : ∀ d ∈ ds, d < 2 ^ a)
    (hrest : a * ds.length % b < a) (hzero : ofDigits a ds % 2 ^ (a * ds.length % b) = 0) :
    regroupPadded b a (regroup a b ds) = ds := by
  have hdiv := Nat.div_add_mod (a * ds.length) b
  have hbits : b * (regroup a b ds).length + a * ds.length % b = a * ds.length := by
    rw [length_regroup, hdiv]
  have hcount : (b * (regroup a b ds).length + (a - 1)) / a = ds.length := by
    apply Nat.div_eq_of_lt_le
    · rw [Nat.mul_comm ds.length]
      omega
    · rw [Nat.mul_comm _ a, Nat.mul_succ]
      omega
  have hpad : a * ds.length - b * (regroup a b ds).length = a * ds.length % b := by omega
  have hfront : ofDigits b (regroup a b ds) = ofDigits a ds / 2 ^ (a * ds.length % b) := by
    rw [regroup, ofDigits_toDigits]
    apply Nat.mod_eq_of_lt
    apply Nat.div_lt_of_lt_mul
    rw [← Nat.pow_add, Nat.add_comm, hdiv]
    exact ofDigits_lt h
  rw [regroupPadded, hcount, hpad, hfront, Nat.div_mul_cancel (Nat.dvd_of_mod_eq_zero hzero),
    toDigits_ofDigits h]

end SlpGraphSearch.Library
