import Mathlib.Data.Finset.Card
import Mathlib.Logic.Relation
import Mathlib.Tactic.Linarith

/-!
# Worklist search

The loop that pops a node from a stack and pushes those of its neighbours that
were not seen before. The nodes it finds are reachable, they are the ones newly
seen, and nothing they point to stays unseen. The nodes that were seen before the
search act as a boundary: they are neither found nor followed.
-/
namespace SlpGraphSearch.Library

variable {α : Type*} [DecidableEq α]

structure Search (α : Type*) where
  seen : Finset α
  stack : List α
  found : List α

namespace Search

/-- The state before the loop, at the root `r`. -/
def start (seen : Finset α) (r : α) : Search α := ⟨insert r seen, [r], [r]⟩

/-- One neighbour: seen, pushed and reported unless it was seen before. -/
def push (s : Search α) (n : α) : Search α :=
  if n ∈ s.seen then s else ⟨insert n s.seen, n :: s.stack, s.found ++ [n]⟩

/-- The loop; `next` lists the neighbours of a node. -/
def run (next : α → List α) : ℕ → Search α → Option (Search α)
  | 0, _ => none
  | fuel + 1, s =>
      match s.stack with
      | [] => some s
      | node :: rest => run next fuel ((next node).foldl push { s with stack := rest })

/-- What every state of a search from `r` satisfies. -/
structure Inv (next : α → List α) (before : Finset α) (r : α) (s : Search α) : Prop where
  seen_iff : ∀ x, x ∈ s.seen ↔ x ∈ before ∨ x ∈ s.found
  root : r ∈ s.found
  reach : ∀ x ∈ s.found, Relation.ReflTransGen (fun a b => b ∈ next a) r x
  found_of_stack : ∀ x ∈ s.stack, x ∈ s.found
  closed : ∀ x ∈ s.found, x ∈ s.stack ∨ ∀ y ∈ next x, y ∈ s.seen

variable {next : α → List α} {before : Finset α} {r : α} {s : Search α}

theorem Inv.start : Inv next before r (start before r) where
  seen_iff x := by simp [Search.start, or_comm]
  root := by simp [Search.start]
  reach x hx := by
    rw [List.mem_singleton.mp hx]
  found_of_stack x hx := hx
  closed x hx := .inl hx

theorem push_seen (s : Search α) (n : α) : (s.push n).seen = insert n s.seen := by
  unfold push
  split_ifs with h
  · rw [Finset.insert_eq_of_mem h]
  · rfl

theorem foldl_push_seen (s : Search α) (ns : List α) :
    ∀ x, x ∈ (ns.foldl push s).seen ↔ x ∈ s.seen ∨ x ∈ ns := by
  induction ns generalizing s with
  | nil => simp
  | cons n ns ih =>
      intro x
      rw [List.foldl_cons, ih, push_seen, Finset.mem_insert, List.mem_cons]
      tauto

/-- Pushing neighbours of `node` keeps the invariant, up to the node itself whose
neighbours are on their way. -/
theorem Inv.foldl_push {node : α} {ns : List α} (hnode : node ∈ s.found)
    (hns : ∀ n ∈ ns, n ∈ next node)
    (seen_iff : ∀ x, x ∈ s.seen ↔ x ∈ before ∨ x ∈ s.found)
    (reach : ∀ x ∈ s.found, Relation.ReflTransGen (fun a b => b ∈ next a) r x)
    (found_of_stack : ∀ x ∈ s.stack, x ∈ s.found)
    (closed : ∀ x ∈ s.found, x = node ∨ x ∈ s.stack ∨ ∀ y ∈ next x, y ∈ s.seen) :
    let s' := ns.foldl push s
    (∀ x, x ∈ s'.seen ↔ x ∈ before ∨ x ∈ s'.found) ∧
      (∀ x ∈ s.found, x ∈ s'.found) ∧
      (∀ x ∈ s'.found, Relation.ReflTransGen (fun a b => b ∈ next a) r x) ∧
      (∀ x ∈ s'.stack, x ∈ s'.found) ∧
      ∀ x ∈ s'.found, x = node ∨ x ∈ s'.stack ∨ ∀ y ∈ next x, y ∈ s'.seen := by
  induction ns generalizing s with
  | nil => exact ⟨seen_iff, fun _ h => h, reach, found_of_stack, closed⟩
  | cons n ns ih =>
      simp only [List.foldl_cons]
      by_cases hn : n ∈ s.seen
      · rw [show s.push n = s from if_pos hn]
        exact ih hnode (fun m hm => hns m (List.mem_cons_of_mem _ hm)) seen_iff reach
          found_of_stack closed
      · have hpush : s.push n = ⟨insert n s.seen, n :: s.stack, s.found ++ [n]⟩ := if_neg hn
        rw [hpush]
        obtain ⟨h₁, h₂, h₃, h₄, h₅⟩ := ih (s := ⟨insert n s.seen, n :: s.stack, s.found ++ [n]⟩)
          (List.mem_append_left _ hnode) (fun m hm => hns m (List.mem_cons_of_mem _ hm))
          (fun x => by
            rw [Finset.mem_insert, seen_iff, List.mem_append, List.mem_singleton]
            tauto)
          (fun x hx => by
            rcases List.mem_append.mp hx with hx | hx
            · exact reach x hx
            · rw [List.mem_singleton.mp hx]
              exact (reach node hnode).tail (hns n List.mem_cons_self))
          (fun x hx => by
            rcases List.mem_cons.mp hx with rfl | hx
            · simp
            · exact List.mem_append_left _ (found_of_stack x hx))
          (fun x hx => by
            rcases List.mem_append.mp hx with hx | hx
            · rcases closed x hx with h | h | h
              · exact .inl h
              · exact .inr (.inl (List.mem_cons_of_mem _ h))
              · exact .inr (.inr fun y hy => Finset.mem_insert_of_mem (h y hy))
            · rw [List.mem_singleton.mp hx]
              exact .inr (.inl List.mem_cons_self))
        exact ⟨h₁, fun x hx => h₂ x (List.mem_append_left _ hx), h₃, h₄, h₅⟩

/-- One round of the loop keeps the invariant. -/
theorem Inv.round (h : Inv next before r s) {node : α} {rest : List α}
    (hs : s.stack = node :: rest) :
    Inv next before r ((next node).foldl push { s with stack := rest }) := by
  have hnode : node ∈ s.found := h.found_of_stack node (hs ▸ List.mem_cons_self)
  obtain ⟨h₁, h₂, h₃, h₄, h₅⟩ := Inv.foldl_push (s := { s with stack := rest }) (r := r)
    hnode (fun n hn => hn) h.seen_iff h.reach
    (fun x hx => h.found_of_stack x (hs ▸ List.mem_cons_of_mem _ hx)) fun x hx => by
      rcases h.closed x hx with hx | hx
      · rw [hs] at hx
        rcases List.mem_cons.mp hx with rfl | hx
        · exact .inl rfl
        · exact .inr (.inl hx)
      · exact .inr (.inr hx)
  refine ⟨h₁, h₂ r h.root, h₃, h₄, fun x hx => ?_⟩
  rcases h₅ x hx with rfl | hx
  · exact .inr fun y hy => (foldl_push_seen _ _ y).mpr (.inr hy)
  · exact hx

/-- Rounds that are left: what is on the stack or still to be seen. -/
theorem foldl_push_measure {U : Finset α} (s : Search α) {ns : List α} (hns : ∀ n ∈ ns, n ∈ U) :
    (ns.foldl push s).stack.length + (U \ (ns.foldl push s).seen).card =
      s.stack.length + (U \ s.seen).card := by
  induction ns generalizing s with
  | nil => rfl
  | cons n ns ih =>
      rw [List.foldl_cons, ih _ fun m hm => hns m (List.mem_cons_of_mem _ hm)]
      unfold push
      split_ifs with hn
      · rfl
      · have hU : n ∈ U \ s.seen :=
          Finset.mem_sdiff.mpr ⟨hns n List.mem_cons_self, hn⟩
        have herase : U \ insert n s.seen = (U \ s.seen).erase n := by
          ext x
          simp only [Finset.mem_sdiff, Finset.mem_insert, Finset.mem_erase]
          tauto
        have hcard := Finset.card_erase_add_one hU
        simp only [herase, List.length_cons]
        omega

/-- With enough fuel the loop ends, with the invariant and an empty stack. -/
theorem Inv.run_spec {U : Finset α} (hU : ∀ x, ∀ y ∈ next x, y ∈ U) {fuel : ℕ}
    (h : Inv next before r s) (hfuel : s.stack.length + (U \ s.seen).card < fuel) :
    ∃ s', run next fuel s = some s' ∧ Inv next before r s' ∧ s'.stack = [] := by
  induction fuel generalizing s with
  | zero => omega
  | succ fuel ih =>
      cases hs : s.stack with
      | nil => exact ⟨s, by simp [run, hs], h, hs⟩
      | cons node rest =>
          have hm := foldl_push_measure (U := U) { s with stack := rest } (hU node)
          rw [hs, List.length_cons] at hfuel
          obtain ⟨s', hrun, h'⟩ := ih (h.round hs) (by
            rw [hm]
            change rest.length + (U \ s.seen).card < fuel
            omega)
          exact ⟨s', by simpa [run, hs] using hrun, h'⟩

/-- A search from `r` finds `r` and what it reaches without crossing `before`. -/
theorem run_start {U : Finset α} (hU : ∀ x, ∀ y ∈ next x, y ∈ U) (before : Finset α) (r : α)
    {fuel : ℕ} (hfuel : U.card + 1 < fuel) :
    ∃ s, run next fuel (start before r) = some s ∧
      (∀ x, x ∈ s.seen ↔ x ∈ before ∨ x ∈ s.found) ∧ r ∈ s.found ∧
      (∀ x ∈ s.found, Relation.ReflTransGen (fun a b => b ∈ next a) r x) ∧
      ∀ x ∈ s.found, ∀ y ∈ next x, y ∈ before ∨ y ∈ s.found := by
  have hcard := Finset.card_le_card (Finset.sdiff_subset (s := U) (t := (start before r).seen))
  have hmeasure : (start before r).stack.length + (U \ (start before r).seen).card < fuel := by
    change 1 + _ < fuel
    omega
  obtain ⟨s, hrun, h, hs⟩ := Inv.run_spec hU Inv.start hmeasure
  refine ⟨s, hrun, h.seen_iff, h.root, h.reach, fun x hx y hy => ?_⟩
  rcases h.closed x hx with hx | hx
  · rw [hs] at hx
    exact absurd hx List.not_mem_nil
  · exact (h.seen_iff y).mp (hx y hy)

/-! ### Findings are new -/

/-- Every finding except the root was unseen, and is found once. -/
structure Fresh (before : Finset α) (r : α) (s : Search α) : Prop where
  seen : ∀ x, x ∈ before ∨ x ∈ s.found → x ∈ s.seen
  nodup : s.found.Nodup
  fresh : ∀ x ∈ s.found, x = r ∨ x ∉ before

theorem Fresh.start : Fresh before r (Search.start before r) where
  seen x := by simp [Search.start, or_comm]
  nodup := by simp [Search.start]
  fresh x hx := .inl (List.mem_singleton.mp hx)

theorem Fresh.push (h : Fresh before r s) (n : α) : Fresh before r (s.push n) := by
  unfold Search.push
  split_ifs with hn
  · exact h
  · refine ⟨fun x hx => ?_, ?_, fun x hx => ?_⟩
    · rw [Finset.mem_insert]
      rcases hx with hx | hx
      · exact .inr (h.seen x (.inl hx))
      · rcases List.mem_append.mp hx with hx | hx
        · exact .inr (h.seen x (.inr hx))
        · exact .inl (List.mem_singleton.mp hx)
    · refine List.nodup_append.mpr ⟨h.nodup, by simp, fun a ha b hb hab => hn ?_⟩
      rw [← List.mem_singleton.mp hb, ← hab]
      exact h.seen a (.inr ha)
    · rcases List.mem_append.mp hx with hx | hx
      · exact h.fresh x hx
      · exact .inr fun hb => hn (List.mem_singleton.mp hx ▸ h.seen x (.inl hb))

theorem Fresh.foldl_push (h : Fresh before r s) (ns : List α) :
    Fresh before r (ns.foldl Search.push s) := by
  induction ns generalizing s with
  | nil => exact h
  | cons n ns ih => exact ih (h.push n)

theorem Fresh.run (h : Fresh before r s) {fuel : ℕ} {s' : Search α}
    (hrun : run next fuel s = some s') : Fresh before r s' := by
  induction fuel generalizing s with
  | zero => simp [Search.run] at hrun
  | succ fuel ih =>
      unfold Search.run at hrun
      split at hrun
      · exact Option.some.inj hrun ▸ h
      · rename_i node rest _
        have hrest : Fresh before r { s with stack := rest } := ⟨h.seen, h.nodup, h.fresh⟩
        exact ih (hrest.foldl_push (next node)) hrun

/-- Behind a closed boundary a search sees the boundary and all that is reachable,
and it finds the root and what is reachable beyond the boundary. -/
theorem run_start_closed {U : Finset α} (hU : ∀ x, ∀ y ∈ next x, y ∈ U) {before : Finset α}
    (hclosed : ∀ x ∈ before, ∀ y ∈ next x, y ∈ before) (r : α) {fuel : ℕ}
    (hfuel : U.card + 1 < fuel) :
    ∃ s, run next fuel (Search.start before r) = some s ∧ s.found.Nodup ∧
      (∀ x, x ∈ s.seen ↔ x ∈ before ∨ Relation.ReflTransGen (fun a b => b ∈ next a) r x) ∧
      ∀ x, x ∈ s.found ↔ x = r ∨
        x ∉ before ∧ Relation.ReflTransGen (fun a b => b ∈ next a) r x := by
  obtain ⟨s, hrun, hseen, hroot, hreach, hnext⟩ := run_start hU before r hfuel
  have hfresh := Fresh.run Fresh.start hrun
  have hall : ∀ x, Relation.ReflTransGen (fun a b => b ∈ next a) r x →
      x ∈ before ∨ x ∈ s.found := by
    intro x hx
    induction hx with
    | refl => exact .inr hroot
    | @tail y z _ hz ih =>
        rcases ih with hy | hy
        · exact .inl (hclosed y hy z hz)
        · exact hnext y hy z hz
  refine ⟨s, hrun, hfresh.nodup, fun x => ?_, fun x => ?_⟩
  · rw [hseen]
    constructor
    · exact Or.imp_right (hreach x)
    · rintro (hx | hx)
      · exact .inl hx
      · exact hall x hx
  · constructor
    · intro hx
      exact (hfresh.fresh x hx).imp_right fun hb => ⟨hb, hreach x hx⟩
    · rintro (rfl | ⟨hb, hx⟩)
      · exact hroot
      · exact (hall x hx).resolve_left hb

/-! ### Agreement of two searches -/

theorem foldl_push_stack {P : α → Prop} {ns : List α} (hns : ∀ n ∈ ns, P n)
    (hstack : ∀ x ∈ s.stack, P x) : ∀ x ∈ (ns.foldl push s).stack, P x := by
  induction ns generalizing s with
  | nil => exact hstack
  | cons n ns ih =>
      refine ih (fun m hm => hns m (List.mem_cons_of_mem _ hm)) fun x hx => ?_
      unfold push at hx
      split_ifs at hx
      · exact hstack x hx
      · rcases List.mem_cons.mp hx with rfl | hx
        · exact hns x List.mem_cons_self
        · exact hstack x hx

/-- Neighbours count only where the search can get to. -/
theorem run_congr {next' : α → List α} {P : α → Prop} (hnext : ∀ x, P x → next' x = next x)
    (hP : ∀ x, P x → ∀ y ∈ next x, P y) (fuel : ℕ) (hstack : ∀ x ∈ s.stack, P x) :
    run next' fuel s = run next fuel s := by
  induction fuel generalizing s with
  | zero => rfl
  | succ fuel ih =>
      cases hs : s.stack with
      | nil => simp only [run, hs]
      | cons node rest =>
          have hnode : P node := hstack node (hs ▸ List.mem_cons_self)
          have hrest : ∀ x ∈ rest, P x := fun x hx => hstack x (hs ▸ List.mem_cons_of_mem _ hx)
          simp only [run, hs, hnext node hnode]
          exact ih (foldl_push_stack (hP node hnode) hrest)

/-- A search that ended does not change with more fuel. -/
theorem run_mono {fuel fuel' : ℕ} (hle : fuel ≤ fuel') {s' : Search α}
    (h : run next fuel s = some s') : run next fuel' s = some s' := by
  induction fuel generalizing s fuel' with
  | zero => simp [run] at h
  | succ fuel ih =>
      obtain ⟨fuel', rfl⟩ : ∃ n, fuel' = n + 1 := ⟨fuel' - 1, by omega⟩
      unfold run at h ⊢
      split at h
      · exact h
      · exact ih (Nat.le_of_succ_le_succ hle) h

end Search
end SlpGraphSearch.Library
