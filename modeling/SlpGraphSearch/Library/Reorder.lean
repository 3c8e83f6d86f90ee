import Mathlib.Data.List.Perm.Basic
import Mathlib.Data.Set.Insert

/-!
# Folds in another order

A fold gives the same result for two orders of its list that both respect a relation,
if any two steps that the relation leaves unordered can be swapped. The swaps may use
what is known about the state and about the elements that were processed before.
-/
namespace SlpGraphSearch.Library

variable {σ α : Type*} {f : σ → α → σ}

/-- No element comes after one that it should precede. -/
def Respects (r : α → α → Prop) (l : List α) : Prop := l.Pairwise fun a c => ¬ r c a

/-- `P` follows the fold over elements of `X`, and under it steps can be swapped that
`r` does not order. -/
structure Swappable (f : σ → α → σ) (r : α → α → Prop) (X : Set α) (P : Set α → σ → Prop) :
    Prop where
  step : ∀ {done s a}, P done s → a ∈ X → a ∉ done → P (insert a done) (f s a)
  swap : ∀ {done s a c}, P done s → a ∈ X → c ∈ X → a ∉ done → c ∉ done → a ≠ c →
    ¬ r a c → ¬ r c a → f (f s a) c = f (f s c) a

variable {r : α → α → Prop} {X : Set α} {P : Set α → σ → Prop}

/-- An element moves to the front past those that it is not ordered with. -/
theorem Swappable.foldl_middle (h : Swappable f r X P) {before : List α} (after : List α)
    {a : α} {done : Set α} {s : σ} (hs : P done s) (ha : a ∈ X) (hnew : a ∉ done)
    (hbefore : ∀ x ∈ before, x ∈ X ∧ x ∉ done ∧ x ≠ a ∧ ¬ r x a ∧ ¬ r a x)
    (hnodup : before.Nodup) :
    (before ++ a :: after).foldl f s = (before ++ after).foldl f (f s a) := by
  induction before generalizing done s with
  | nil => rfl
  | cons x before ih =>
      obtain ⟨hx, hxnew, hne, hxa, hax⟩ := hbefore x List.mem_cons_self
      rw [List.nodup_cons] at hnodup
      have hmove := ih (h.step hs hx hxnew) (fun hmem => hmem.elim (fun h => hne h.symm) hnew)
        (fun y hy => ?_) hnodup.2
      · rw [List.cons_append, List.foldl_cons, hmove, List.cons_append, List.foldl_cons,
          h.swap hs hx ha hxnew hnew hne hxa hax]
      · obtain ⟨hyX, hynew, hrest⟩ := hbefore y (List.mem_cons_of_mem _ hy)
        exact ⟨hyX, fun hmem => hmem.elim (fun h => hnodup.1 (h ▸ hy)) hynew, hrest⟩

/-- Two orders that respect the relation give the same result. -/
theorem Swappable.foldl_eq (h : Swappable f r X P) {l l' : List α} (hperm : l.Perm l')
    (hl : Respects r l) (hl' : Respects r l') (hnodup : l.Nodup) {done : Set α} {s : σ}
    (hs : P done s) (hmem : ∀ a ∈ l, a ∈ X ∧ a ∉ done) : l.foldl f s = l'.foldl f s := by
  induction l generalizing l' done s with
  | nil => rw [List.nil_perm.mp hperm]
  | cons a l ih =>
      obtain ⟨before, after, rfl⟩ := List.append_of_mem (hperm.mem_iff.mp List.mem_cons_self)
      have hrest : l.Perm (before ++ after) := (List.perm_cons a).mp (hperm.trans List.perm_middle)
      obtain ⟨hfirst, hl⟩ := List.pairwise_cons.mp hl
      obtain ⟨ha, hnodup⟩ := List.nodup_cons.mp hnodup
      obtain ⟨haX, hnew⟩ := hmem a List.mem_cons_self
      have hnodup' : (before ++ after).Nodup := hrest.nodup_iff.mp hnodup
      obtain ⟨hbefore, hafter, hcross⟩ := List.pairwise_append.mp hl'
      have hlater : Respects r (before ++ after) := List.pairwise_append.mpr
        ⟨hbefore, hafter.of_cons, fun x hx y hy => hcross x hx y (List.mem_cons_of_mem _ hy)⟩
      have hin : ∀ x ∈ before, x ∈ l := fun x hx => hrest.mem_iff.mpr (List.mem_append_left _ hx)
      have hmove := h.foldl_middle after hs haX hnew (fun x hx => ?_)
        (List.nodup_append.mp hnodup').1
      · rw [List.foldl_cons, hmove]
        refine ih hrest hl hlater hnodup (h.step hs haX hnew) fun x hx => ?_
        obtain ⟨hxX, hxnew⟩ := hmem x (List.mem_cons_of_mem _ hx)
        exact ⟨hxX, fun hdone => hdone.elim (fun heq => ha (heq ▸ hx)) hxnew⟩
      · obtain ⟨hxX, hxnew⟩ := hmem x (List.mem_cons_of_mem _ (hin x hx))
        exact ⟨hxX, hxnew, fun heq => ha (heq ▸ hin x hx), hfirst x (hin x hx),
          hcross x hx a List.mem_cons_self⟩

end SlpGraphSearch.Library
