import Mathlib.Data.List.Basic

/-!
# Folding over blocks

A list is consumed in blocks of a fixed size, and what is too short for a block waits for
more. A list that comes in pieces leads to the same state as the whole list.
-/
namespace SlpGraphSearch.Library

variable {σ α : Type*} (f : σ → List α → σ) (n : ℕ)

/-- Consume `k` blocks. -/
def foldBlocks : ℕ → σ → List α → σ
  | 0, s, _ => s
  | k + 1, s, l => foldBlocks k (f s (l.take n)) (l.drop n)

theorem foldBlocks_add (j k : ℕ) (s : σ) (l : List α) :
    foldBlocks f n (j + k) s l = foldBlocks f n k (foldBlocks f n j s l) (l.drop (n * j)) := by
  induction j generalizing s l with
  | zero => simp [foldBlocks]
  | succ j ih =>
      have hdrop : (l.drop n).drop (n * j) = l.drop (n * (j + 1)) := by
        rw [List.drop_drop, Nat.mul_succ, Nat.add_comm]
      rw [Nat.succ_add, foldBlocks, ih, hdrop, foldBlocks]

/-- Only the blocks that are consumed matter. -/
theorem foldBlocks_append {k : ℕ} (s : σ) {l : List α} (h : n * k ≤ l.length) (m : List α) :
    foldBlocks f n k s (l ++ m) = foldBlocks f n k s l := by
  induction k generalizing s l with
  | zero => rfl
  | succ k ih =>
      rw [Nat.mul_succ] at h
      have hn : n ≤ l.length := by omega
      rw [foldBlocks, foldBlocks, List.take_append_of_le_length hn,
        List.drop_append_of_le_length hn, ih]
      rw [List.length_drop]
      omega

/-- The blocks of `l` are consumed from `s₀` on, and `rest` waits. -/
structure Consumed (s₀ : σ) (l : List α) (s : σ) (rest : List α) : Prop where
  state : s = foldBlocks f n (l.length / n) s₀ l
  waiting : rest = l.drop (n * (l.length / n))

variable {f n} {s₀ s : σ} {l rest : List α}

theorem Consumed.nil (s₀ : σ) : Consumed f n s₀ [] s₀ [] where
  state := by simp [foldBlocks]
  waiting := by simp

theorem Consumed.length_rest (h : Consumed f n s₀ l s rest) : rest.length = l.length % n := by
  have hdiv := Nat.div_add_mod l.length n
  rw [h.waiting, List.length_drop]
  omega

theorem Consumed.length_eq (h : Consumed f n s₀ l s rest) :
    l.length = n * (l.length / n) + rest.length := by
  rw [h.length_rest, Nat.div_add_mod]

theorem Consumed.drop_append (h : Consumed f n s₀ l s rest) (m : List α) :
    (l ++ m).drop (n * (l.length / n)) = rest ++ m := by
  rw [List.drop_append_of_le_length (Nat.mul_div_le _ _), ← h.waiting]

/-- A piece that fills no block waits with the rest. -/
theorem Consumed.append_short (h : Consumed f n s₀ l s rest) {m : List α}
    (hm : rest.length + m.length < n) : Consumed f n s₀ (l ++ m) s (rest ++ m) := by
  have hblocks : (l ++ m).length / n = l.length / n := by
    have hlength : (l ++ m).length = n * (l.length / n) + (rest.length + m.length) := by
      have hsplit := h.length_eq
      rw [List.length_append]
      omega
    rw [hlength, Nat.mul_add_div (by omega), Nat.div_eq_of_lt hm, Nat.add_zero]
  constructor
  · rw [hblocks, foldBlocks_append f n s₀ (Nat.mul_div_le _ _)]
    exact h.state
  · rw [hblocks, h.drop_append]

/-- A longer piece fills the block that waits, then whole blocks, and leaves its end. -/
theorem Consumed.append_long (h : Consumed f n s₀ l s rest) {m : List α} (hn : 0 < n)
    (hm : n ≤ rest.length + m.length) :
    Consumed f n s₀ (l ++ m)
      (foldBlocks f n ((m.length - (n - rest.length)) / n)
        (f s (rest ++ m.take (n - rest.length))) (m.drop (n - rest.length)))
      (m.drop (n - rest.length + n * ((m.length - (n - rest.length)) / n))) := by
  have hrest : rest.length < n := h.length_rest ▸ Nat.mod_lt _ hn
  obtain ⟨k, hk⟩ : ∃ k, k = (m.length - (n - rest.length)) / n := ⟨_, rfl⟩
  rw [← hk]
  have hblocks : (l ++ m).length / n = l.length / n + (k + 1) := by
    have hlength : (l ++ m).length =
        n * (l.length / n + 1) + (m.length - (n - rest.length)) := by
      have hsplit := h.length_eq
      rw [List.length_append, Nat.mul_succ]
      omega
    rw [hlength, Nat.mul_add_div hn, ← hk]
    omega
  have hfirst : (rest ++ m).take n = rest ++ m.take (n - rest.length) := by
    rw [List.take_append, List.take_of_length_le (Nat.le_of_lt hrest)]
  have hothers : (rest ++ m).drop n = m.drop (n - rest.length) := by
    rw [List.drop_append, List.drop_of_length_le (Nat.le_of_lt hrest), List.nil_append]
  constructor
  · rw [hblocks, foldBlocks_add, foldBlocks_append f n s₀ (Nat.mul_div_le _ _), ← h.state,
      h.drop_append, foldBlocks, hfirst, hothers]
  · rw [hblocks, Nat.mul_add, Nat.mul_succ, Nat.add_comm (n * k) n]
    symm
    calc (l ++ m).drop (n * (l.length / n) + (n + n * k))
        = ((rest ++ m).drop n).drop (n * k) := by
          rw [← h.drop_append, List.drop_drop, List.drop_drop]
      _ = m.drop (n - rest.length + n * k) := by rw [hothers, List.drop_drop]

end SlpGraphSearch.Library
