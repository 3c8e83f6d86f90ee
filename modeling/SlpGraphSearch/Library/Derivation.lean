import Mathlib.Data.Set.Finite.Basic
import Mathlib.Logic.Relation
import Mathlib.Order.FixedPoints
import Mathlib.Order.CompletePartialOrder

/-!
# Derivable sets and one-pass evaluation

A monotone rule system decides each element from a set of elements already
accepted. The derivable elements are the least set closed under the rules.

An evaluator that visits elements one at a time and keeps those whose rule holds
on what it kept so far never leaves the derivable set, and misses nothing on a
visited part as long as every visit comes after the element's dependencies.
-/
namespace SlpGraphSearch.Library

variable {α : Type*}

/-- A relation without cycles whose left members are finitely many. -/
theorem wellFounded_of_acyclic {r : α → α → Prop} {s : Set α} (hs : s.Finite)
    (hr : ∀ {x y}, r x y → x ∈ s) (hcycle : ∀ x, ¬ Relation.TransGen r x x) :
    WellFounded r := by
  have hfin : Finite s := hs
  have hstrict : IsStrictOrder s fun x y => Relation.TransGen r x.1 y.1 :=
    { irrefl := fun x => hcycle x.1, trans := fun _ _ _ => Relation.TransGen.trans }
  have hwf := Finite.wellFounded_of_trans_of_irrefl
    fun x y : s => Relation.TransGen r x.1 y.1
  have hacc : ∀ x : s, Acc r x.1 := by
    intro x
    induction x using hwf.induction with
    | _ x ih => exact ⟨_, fun y hy => ih ⟨y, hr hy⟩ (.single hy)⟩
  exact ⟨fun x => ⟨_, fun y hy => hacc ⟨y, hr hy⟩⟩⟩

structure Rules (α : Type*) where
  holds : Set α → α → Prop
  mono : ∀ {V W : Set α} {x : α}, V ⊆ W → holds V x → holds W x

namespace Rules

variable (R : Rules α)

def step : Set α →o Set α where
  toFun V := {x | R.holds V x}
  monotone' _ _ h _ hx := R.mono h hx

/-- The least set closed under the rules. -/
def derivable : Set α := R.step.lfp

theorem mem_derivable {x : α} : x ∈ R.derivable ↔ R.holds R.derivable x := by
  have h : {y | R.holds R.derivable y} = R.derivable := R.step.map_lfp
  exact (Set.ext_iff.mp h x).symm

/-- `dep y x` covers every element the rule of `x` looks at. -/
def DependsOn (dep : α → α → Prop) : Prop :=
  ∀ {V W : Set α} {x : α}, (∀ y, dep y x → (y ∈ V ↔ y ∈ W)) → R.holds V x → R.holds W x

variable {R} {dep : α → α → Prop}

/-- Over well-founded dependencies a self-justified set is derivable. -/
theorem subset_derivable (hd : R.DependsOn dep) (hwf : WellFounded dep) {V : Set α}
    (hV : ∀ x ∈ V, R.holds V x) : V ⊆ R.derivable := by
  intro x
  induction x using hwf.induction with
  | _ x ih =>
      intro hx
      rw [mem_derivable]
      have hlocal : R.holds (V ∩ {y | dep y x}) x :=
        hd (fun y hy => by simp [hy]) (hV x hx)
      exact R.mono (fun y hy => ih y hy.2 hy.1) hlocal

/-- `V` is what an evaluator kept after visiting `P`, with nothing missed. -/
structure Settled (R : Rules α) (V P : Set α) : Prop where
  sound : V ⊆ R.derivable
  complete : ∀ x ∈ P, x ∈ R.derivable → x ∈ V

theorem Settled.empty : R.Settled ∅ ∅ where
  sound := Set.empty_subset _
  complete := by simp

/-- On settled dependencies the rule decides derivability. -/
theorem Settled.holds_iff {V P : Set α} (h : R.Settled V P) (hd : R.DependsOn dep) {x : α}
    (hx : ∀ y, dep y x → y ∈ R.derivable → y ∈ P) : R.holds V x ↔ x ∈ R.derivable := by
  rw [mem_derivable]
  constructor
  · exact R.mono h.sound
  · exact hd fun y hy => ⟨fun hyd => h.complete y (hx y hy hyd) hyd, fun hyV => h.sound hyV⟩

/-- Visiting an element whose dependencies were visited settles it. -/
theorem Settled.visit {V W P : Set α} (h : R.Settled V P) (hd : R.DependsOn dep) {x : α}
    (hx : ∀ y, dep y x → y ∈ R.derivable → y ∈ P)
    (hW : ∀ y, y ∈ W ↔ y ∈ V ∨ y = x ∧ R.holds V x) : R.Settled W (insert x P) where
  sound := by
    intro y hy
    rcases (hW y).mp hy with hy | ⟨rfl, hy⟩
    · exact h.sound hy
    · exact (h.holds_iff hd hx).mp hy
  complete := by
    rintro y (rfl | hy) hyd
    · exact (hW y).mpr (.inr ⟨rfl, (h.holds_iff hd hx).mpr hyd⟩)
    · exact (hW y).mpr (.inl (h.complete y hy hyd))

end Rules
end SlpGraphSearch.Library
