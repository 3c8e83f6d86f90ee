import Mathlib.Data.List.Chain
import Mathlib.Logic.Relation

/-!
# Lines

A relation that gives every element at most one successor and has no infinite path
leads from an element through a list: everything reachable stands in it once, each
behind the one it comes from.
-/
namespace SlpGraphSearch.Library
open Relation

variable {α : Type*} {r : α → α → Prop}

theorem not_transGen_self (hwf : WellFounded (flip r)) (x : α) : ¬ TransGen r x x := by
  intro h
  have hswap : TransGen (flip r) x x := transGen_swap.mpr h
  exact hwf.transGen.asymmetric x x hswap hswap

/-- What is reachable from `y`, listed from `y` on. -/
theorem exists_line (hwf : WellFounded (flip r)) (huniq : Relator.RightUnique r) (y : α) :
    ∃ l : List α, (y :: l).Nodup ∧ (y :: l).IsChain r ∧
      ∀ x, x ∈ y :: l ↔ ReflTransGen r y x := by
  induction y using hwf.induction with
  | _ y ih =>
      by_cases hsucc : ∃ z, r y z
      · obtain ⟨z, hz⟩ := hsucc
        obtain ⟨l, hnodup, hchain, hmem⟩ := ih z hz
        have hy : y ∉ z :: l := fun hy =>
          not_transGen_self hwf y (TransGen.head' hz ((hmem y).mp hy))
        refine ⟨z :: l, List.nodup_cons.mpr ⟨hy, hnodup⟩,
          List.isChain_cons_cons.mpr ⟨hz, hchain⟩, fun x => ?_⟩
        rw [List.mem_cons, hmem, ReflTransGen.cases_head_iff (a := y)]
        constructor
        · rintro (rfl | hx)
          · exact .inl rfl
          · exact .inr ⟨z, hz, hx⟩
        · rintro (rfl | ⟨z', hz', hx⟩)
          · exact .inl rfl
          · exact .inr (huniq hz' hz ▸ hx)
      · refine ⟨[], by simp, List.isChain_singleton y, fun x => ?_⟩
        rw [List.mem_singleton, ReflTransGen.cases_head_iff]
        constructor
        · rintro rfl
          exact .inl rfl
        · rintro (rfl | ⟨z, hz, -⟩)
          · rfl
          · exact absurd ⟨z, hz⟩ hsucc

/-- Only one reachable element can be the last. -/
theorem last_unique (huniq : Relator.RightUnique r) {y a b : α} (ha : ReflTransGen r y a)
    (hb : ReflTransGen r y b) (hna : ∀ z, ¬ r a z) (hnb : ∀ z, ¬ r b z) : a = b := by
  have hstop : ∀ {a b : α}, (∀ z, ¬ r a z) → ReflTransGen r a b → a = b := fun hn h => by
    rcases h.cases_head with rfl | ⟨z, hz, -⟩
    · rfl
    · exact absurd hz (hn z)
  rcases ReflTransGen.total_of_right_unique huniq ha hb with hab | hba
  · exact hstop hna hab
  · exact (hstop hnb hba).symm

end SlpGraphSearch.Library
