import Mathlib.Algebra.BigOperators.Group.Finset.Basic
import Mathlib.Algebra.BigOperators.Group.Finset.Sigma
import Mathlib.Algebra.Order.BigOperators.Group.Finset
import Mathlib.Algebra.BigOperators.Fin

/-!
# Conservation in a spending graph

Nodes declare outputs and spend outputs of other nodes. If no node declares more
than it issues and spends, and no output is spent twice, then the outputs left
unspent are covered by what was issued.
-/
namespace SlpGraphSearch.Library
open Finset

variable {ι κ : Type*} [DecidableEq ι] [DecidableEq κ]

/-- A finite graph of nodes `ι` and outputs `κ`: the node of an output, its
amount, and the outputs each node spends. -/
structure Flow (ι κ : Type*) where
  nodes : Finset ι
  source : κ → ι
  amount : κ → ℕ
  spends : ι → Finset κ
  total : ι → ℕ
  issued : ι → ℕ

structure Flow.Balanced (F : Flow ι κ) : Prop where
  declared : ∀ x ∈ F.nodes, ∀ O : Finset κ, (∀ o ∈ O, F.source o = x) →
    ∑ o ∈ O, F.amount o ≤ F.total x
  covered : ∀ x ∈ F.nodes, F.total x ≤ F.issued x + ∑ o ∈ F.spends x, F.amount o
  inside : ∀ x ∈ F.nodes, ∀ o ∈ F.spends x, F.source o ∈ F.nodes
  once : (F.nodes : Set ι).PairwiseDisjoint F.spends

/-- Unspent outputs of the nodes never exceed what the nodes issued. -/
theorem Flow.Balanced.unspent_le {F : Flow ι κ} (h : F.Balanced) {U : Finset κ}
    (hU : ∀ o ∈ U, F.source o ∈ F.nodes) (hfree : ∀ x ∈ F.nodes, Disjoint U (F.spends x)) :
    ∑ o ∈ U, F.amount o ≤ ∑ x ∈ F.nodes, F.issued x := by
  let spent := F.nodes.biUnion F.spends
  have hspent : ∑ o ∈ spent, F.amount o = ∑ x ∈ F.nodes, ∑ o ∈ F.spends x, F.amount o :=
    sum_biUnion h.once
  have hdisj : Disjoint U spent := (disjoint_biUnion_right _ _ _).mpr hfree
  have hall : ∀ o ∈ U ∪ spent, F.source o ∈ F.nodes := by
    intro o ho
    rcases mem_union.mp ho with ho | ho
    · exact hU o ho
    · obtain ⟨x, hx, ho⟩ := mem_biUnion.mp ho
      exact h.inside x hx o ho
  have hchain : ∑ o ∈ U, F.amount o + ∑ o ∈ spent, F.amount o ≤
      ∑ x ∈ F.nodes, F.issued x + ∑ o ∈ spent, F.amount o := by
    calc ∑ o ∈ U, F.amount o + ∑ o ∈ spent, F.amount o
        = ∑ o ∈ U ∪ spent, F.amount o := (sum_union hdisj).symm
      _ = ∑ x ∈ F.nodes, ∑ o ∈ U ∪ spent with F.source o = x, F.amount o :=
          (sum_fiberwise_of_maps_to hall _).symm
      _ ≤ ∑ x ∈ F.nodes, F.total x :=
          sum_le_sum fun x hx => h.declared x hx _ fun o ho => (mem_filter.mp ho).2
      _ ≤ ∑ x ∈ F.nodes, (F.issued x + ∑ o ∈ F.spends x, F.amount o) :=
          sum_le_sum h.covered
      _ = ∑ x ∈ F.nodes, F.issued x + ∑ o ∈ spent, F.amount o := by
          rw [sum_add_distrib, hspent]
  omega

/-- Entries at distinct positions sum to at most the whole list. -/
theorem sum_getD_le (l : List ℕ) (I : Finset ℕ) : ∑ i ∈ I, l.getD i 0 ≤ l.sum := by
  have hrange : ∑ i ∈ range l.length, l.getD i 0 = l.sum := by
    induction l with
    | nil => simp
    | cons n l ih =>
        rw [List.length_cons, sum_range_succ', List.sum_cons, ← ih]
        simp [add_comm]
  calc ∑ i ∈ I, l.getD i 0
      = ∑ i ∈ I with i < l.length, l.getD i 0 := by
        refine (sum_filter_of_ne fun i _ hne => ?_).symm
        by_contra hi
        rw [List.getD_eq_getElem?_getD, List.getElem?_eq_none (by omega)] at hne
        exact hne rfl
    _ ≤ ∑ i ∈ range l.length, l.getD i 0 :=
        sum_le_sum_of_subset fun i hi => mem_range.mpr (mem_filter.mp hi).2
    _ = l.sum := hrange

end SlpGraphSearch.Library
