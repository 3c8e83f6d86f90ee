import Mathlib.Data.List.Induction

/-!
# Writes at a wrapping index

Values written one after the other into a list, at an index that goes back to zero after
`m` writes.
-/
namespace SlpGraphSearch.Library

variable {α : Type _}

def writeAll (m : ℕ) (r es : List α) : List α :=
  es.zipIdx.foldl (fun r e => r.set (e.2 % m) e.1) r

theorem writeAll_concat (m : ℕ) (r es : List α) (e : α) :
    writeAll m r (es ++ [e]) = (writeAll m r es).set (es.length % m) e := by
  simp [writeAll, List.zipIdx_append]

theorem length_writeAll (m : ℕ) (r es : List α) : (writeAll m r es).length = r.length := by
  induction es using List.reverseRecOn with
  | nil => rfl
  | append_singleton es e ih => rw [writeAll_concat, List.length_set, ih]

/-- Before the index wraps, the values stand in their order. -/
theorem writeAll_eq {m : ℕ} {r es : List α} (hm : es.length ≤ m) (hr : es.length ≤ r.length) :
    writeAll m r es = es ++ r.drop es.length := by
  induction es using List.reverseRecOn with
  | nil => rfl
  | append_singleton es e ih =>
    rw [List.length_append, List.length_singleton] at hm hr
    have hdrop : r.drop es.length = r[es.length] :: r.drop (es.length + 1) :=
      List.drop_eq_getElem_cons hr
    rw [writeAll_concat, ih (by omega) (by omega), Nat.mod_eq_of_lt hm,
      List.set_append_right _ _ (Nat.le_refl _), Nat.sub_self, hdrop, List.set_cons_zero]
    simp

/-- The first place holds the last value written when the index was zero. -/
theorem head_writeAll {m : ℕ} (hm : 0 < m) {r es : List α} (hr : r ≠ []) (hes : es ≠ []) :
    (writeAll m r es)[0]? = es[m * ((es.length - 1) / m)]? := by
  induction es using List.reverseRecOn with
  | nil => exact absurd rfl hes
  | append_singleton es e ih =>
    have hpos : 0 < (writeAll m r es).length := by
      rw [length_writeAll]
      exact List.length_pos_iff.mpr hr
    have hindex : (es ++ [e]).length - 1 = es.length := by simp
    rw [writeAll_concat, hindex]
    have hdiv := Nat.div_add_mod es.length m
    cases Nat.eq_zero_or_pos (es.length % m) with
    | inl hzero =>
      rw [hzero, Nat.add_zero] at hdiv
      rw [hzero, hdiv, List.getElem?_set_self hpos]
      simp
    | inr hmod =>
      have hne : es ≠ [] := by
        intro hnil
        simp [hnil] at hmod
      have hsame : (es.length - 1) / m = es.length / m := by
        have hsub : es.length - 1 = m * (es.length / m) + (es.length % m - 1) := by omega
        have hlt := Nat.mod_lt es.length hm
        have hsmall : (es.length % m - 1) / m = 0 := Nat.div_eq_of_lt (by omega)
        rw [hsub, Nat.mul_add_div hm, hsmall, Nat.add_zero]
      have hlt : m * (es.length / m) < es.length := by omega
      rw [List.getElem?_set_ne (by omega), ih hne, hsame, List.getElem?_append_left hlt]

end SlpGraphSearch.Library
