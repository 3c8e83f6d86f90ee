import Mathlib.Data.List.Range
import Mathlib.Logic.Function.Basic

/-!
# Memories of bytes

A cell is the list of the addresses of its bytes, so cells may be anything from a
word to a scattered record, and addresses may wrap around. A store changes its cell
and nothing else, and a loop that stores to disjoint cells leaves in each of them
what it stored there.
-/
namespace SlpGraphSearch.Library

variable {A : Type*} [DecidableEq A]

/-- The bytes of a cell. -/
def load (m : A → UInt8) (cell : List A) : List UInt8 := cell.map m

/-- A store, byte by byte. -/
def store (m : A → UInt8) : List A → List UInt8 → A → UInt8
  | a :: cell, b :: bs => store (Function.update m a b) cell bs
  | _, _ => m

theorem store_of_notMem {m : A → UInt8} {cell : List A} {bs : List UInt8} {a : A}
    (ha : a ∉ cell) : store m cell bs a = m a := by
  induction cell generalizing m bs with
  | nil => rfl
  | cons a' cell ih =>
      cases bs with
      | nil => rfl
      | cons b bs =>
          rw [List.mem_cons, not_or] at ha
          rw [store, ih ha.2, Function.update_of_ne ha.1]

theorem load_store {m : A → UInt8} {cell : List A} {bs : List UInt8} (hcell : cell.Nodup)
    (hlen : cell.length = bs.length) : load (store m cell bs) cell = bs := by
  induction cell generalizing m bs with
  | nil => exact (List.length_eq_zero_iff.mp hlen.symm).symm
  | cons a cell ih =>
      cases bs with
      | nil => simp at hlen
      | cons b bs =>
          rw [List.nodup_cons] at hcell
          have hrest := ih (m := Function.update m a b) hcell.2 (Nat.succ.inj hlen)
          have hhead : store (Function.update m a b) cell bs a = b := by
            rw [store_of_notMem hcell.1, Function.update_self]
          exact List.cons_eq_cons.mpr ⟨hhead, hrest⟩

theorem load_store_of_disjoint {m : A → UInt8} {cell other : List A} {bs : List UInt8}
    (h : ∀ a ∈ other, a ∉ cell) : load (store m cell bs) other = load m other :=
  List.map_congr_left fun a ha => store_of_notMem (h a ha)

/-! ## Loops of stores -/

/-- The stores of `n` values to `n` cells, in order. -/
def storeAll (m : A → UInt8) (cell : ℕ → List A) (value : ℕ → List UInt8) (n : ℕ) : A → UInt8 :=
  (List.range n).foldl (fun m i => store m (cell i) (value i)) m

variable {m : A → UInt8} {cell : ℕ → List A} {value : ℕ → List UInt8} {n : ℕ}

theorem storeAll_succ (n : ℕ) :
    storeAll m cell value (n + 1) = store (storeAll m cell value n) (cell n) (value n) := by
  rw [storeAll, List.range_succ, List.foldl_append, List.foldl_cons, List.foldl_nil, storeAll]

theorem storeAll_of_notMem {a : A} (ha : ∀ i < n, a ∉ cell i) :
    storeAll m cell value n a = m a := by
  induction n with
  | zero => rfl
  | succ n ih =>
      rw [storeAll_succ, store_of_notMem (ha n n.lt_succ_self)]
      exact ih fun i hi => ha i (Nat.lt_succ_of_lt hi)

theorem load_storeAll (hcell : ∀ i < n, (cell i).Nodup)
    (hlen : ∀ i < n, (cell i).length = (value i).length)
    (happart : ∀ i < n, ∀ j < i, ∀ a ∈ cell j, a ∉ cell i) {i : ℕ} (hi : i < n) :
    load (storeAll m cell value n) (cell i) = value i := by
  induction n with
  | zero => omega
  | succ n ih =>
      rw [storeAll_succ]
      rcases Nat.lt_succ_iff_lt_or_eq.mp hi with hlt | rfl
      · rw [load_store_of_disjoint (happart n n.lt_succ_self i hlt)]
        exact ih (fun j hj => hcell j (Nat.lt_succ_of_lt hj))
          (fun j hj => hlen j (Nat.lt_succ_of_lt hj))
          (fun j hj => happart j (Nat.lt_succ_of_lt hj)) hlt
      · exact load_store (hcell i hi) (hlen i hi)

/-- What the cells hold and what is around them make up the memory. -/
theorem eq_storeAll_iff (hcell : ∀ i < n, (cell i).Nodup)
    (hlen : ∀ i < n, (cell i).length = (value i).length)
    (happart : ∀ i < n, ∀ j < i, ∀ a ∈ cell j, a ∉ cell i) {m' : A → UInt8} :
    m' = storeAll m cell value n ↔
      (∀ i < n, load m' (cell i) = value i) ∧ ∀ a, (∀ i < n, a ∉ cell i) → m' a = m a := by
  constructor
  · intro h
    rw [h]
    exact ⟨fun i hi => load_storeAll hcell hlen happart hi, fun a ha => storeAll_of_notMem ha⟩
  · intro h
    obtain ⟨hvalue, hframe⟩ := h
    funext a
    by_cases ha : ∃ i < n, a ∈ cell i
    · obtain ⟨i, hi, hmem⟩ := ha
      have hsame : load m' (cell i) = load (storeAll m cell value n) (cell i) := by
        rw [hvalue i hi, load_storeAll hcell hlen happart hi]
      exact List.map_inj_left.mp hsame a hmem
    · push Not at ha
      rw [hframe a ha, storeAll_of_notMem ha]

end SlpGraphSearch.Library
