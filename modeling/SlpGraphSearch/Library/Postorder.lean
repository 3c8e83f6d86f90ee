import Mathlib.Data.Finset.Card
import Mathlib.Logic.Relation

/-!
# Depth-first postorder

A graph is given by a lookup of nodes under their keys and the keys each node
depends on. The visit marks a node, visits its unmarked dependencies in order and
then appends the node, so dependencies come first whenever there is no cycle.

The bound on the recursion is never reached: every level marks a new key.
-/
namespace SlpGraphSearch.Library

variable {κ α : Type*}

structure DepGraph (κ α : Type*) where
  key : α → κ
  deps : α → List κ
  find : κ → Option α

/-- The marked keys and the output so far. -/
structure Postorder (κ α : Type*) where
  visited : Finset κ
  stack : List α

namespace DepGraph

variable (G : DepGraph κ α)

/-- `k` is a known dependency of the node under `l`. -/
def Dep (k l : κ) : Prop := ∃ y, G.find l = some y ∧ k ∈ G.deps y ∧ ∃ z, G.find k = some z

/-- Every known dependency comes earlier. -/
def Ordered (l : List α) : Prop :=
  ∀ pre y post, l = pre ++ y :: post → ∀ k ∈ G.deps y, (∃ z, G.find k = some z) →
    k ∈ pre.map G.key

/-- The second state extends the first: nodes of the graph were appended, each
once, and exactly their keys were marked. -/
structure Extends (st st' : Postorder κ α) (l : List α) : Prop where
  stack_eq : st'.stack = st.stack ++ l
  visited_iff : ∀ k, k ∈ st'.visited ↔ k ∈ st.visited ∨ k ∈ l.map G.key
  fresh : ∀ k ∈ l.map G.key, k ∉ st.visited
  nodup : (l.map G.key).Nodup
  found : ∀ y ∈ l, G.find (G.key y) = some y

/-- The open keys are marked but not yet output. -/
def IsOpen (st : Postorder κ α) (g : κ) : Prop := g ∈ st.visited ∧ g ∉ st.stack.map G.key

variable {G}

theorem Extends.refl (st : Postorder κ α) : G.Extends st st [] where
  stack_eq := (List.append_nil _).symm
  visited_iff := by simp
  fresh := by simp
  nodup := List.nodup_nil
  found := by simp

theorem Extends.trans {a b c : Postorder κ α} {l m : List α} (h : G.Extends a b l)
    (h' : G.Extends b c m) : G.Extends a c (l ++ m) where
  stack_eq := by rw [h'.stack_eq, h.stack_eq, List.append_assoc]
  visited_iff k := by
    rw [h'.visited_iff, h.visited_iff, List.map_append, List.mem_append, or_assoc]
  fresh k hk := by
    rw [List.map_append, List.mem_append] at hk
    rcases hk with hk | hk
    · exact h.fresh k hk
    · exact fun hka => h'.fresh k hk ((h.visited_iff k).mpr (.inl hka))
  nodup := by
    rw [List.map_append]
    refine h.nodup.append h'.nodup fun k hl hm => ?_
    exact h'.fresh k hm ((h.visited_iff k).mpr (.inr hl))
  found y hy := by
    rcases List.mem_append.mp hy with hy | hy
    · exact h.found y hy
    · exact h'.found y hy

/-- An extension opens nothing. -/
theorem Extends.isOpen {a b : Postorder κ α} {l : List α} (h : G.Extends a b l) {g : κ}
    (hg : G.IsOpen b g) : G.IsOpen a g := by
  obtain ⟨hv, hs⟩ := hg
  rw [h.stack_eq, List.map_append, List.mem_append, not_or] at hs
  exact ⟨((h.visited_iff g).mp hv).resolve_right hs.2, hs.1⟩

theorem Ordered.concat {l : List α} (h : G.Ordered l) {x : α}
    (hx : ∀ k ∈ G.deps x, (∃ z, G.find k = some z) → k ∈ l.map G.key) :
    G.Ordered (l ++ [x]) := by
  intro pre y post heq k hk hz
  rcases List.eq_nil_or_concat' post with rfl | ⟨post', z, rfl⟩
  · obtain ⟨rfl, hxy⟩ := List.append_inj' heq rfl
    obtain rfl : x = y := by simpa using hxy
    exact hx k hk hz
  · rw [← List.cons_append, ← List.append_assoc] at heq
    obtain ⟨rfl, -⟩ := List.append_inj' heq rfl
    exact h pre y post' rfl k hk hz

theorem Ordered.of_concat {l : List α} {x : α} (h : G.Ordered (l ++ [x])) : G.Ordered l :=
  fun pre y post heq => h pre y (post ++ [x]) (by rw [heq]; simp)

/-- In an ordered list without repetition nothing depends on a later element. -/
theorem Ordered.pairwise {l : List α} (h : G.Ordered l) (hl : (l.map G.key).Nodup)
    (hfound : ∀ y ∈ l, G.find (G.key y) = some y) :
    l.Pairwise fun a b => G.key b ∉ G.deps a := by
  refine List.pairwise_iff_getElem.mpr fun i j hi hj hij hdep => ?_
  have hsplit : l = l.take i ++ l[i] :: l.drop (i + 1) := by
    rw [← List.drop_eq_getElem_cons hi, List.take_append_drop]
  have hbefore := h _ _ _ hsplit _ hdep ⟨_, hfound _ (List.getElem_mem hj)⟩
  rw [List.map_take, List.mem_take_iff_getElem] at hbefore
  obtain ⟨n, hn, hkey⟩ := hbefore
  have hnj : n = j := by
    have hget := @List.Nodup.getElem_inj_iff _ _ hl n (by omega) j (by simpa using hj)
    rw [← hget, hkey, List.getElem_map]
  omega

variable [DecidableEq κ] (G)

/-- One dependency: skipped if it is marked or unknown. -/
def visitDep (visit : α → Postorder κ α → Option (Postorder κ α)) (st : Postorder κ α) (k : κ) :
    Option (Postorder κ α) :=
  if k ∈ st.visited then some st
  else match G.find k with
    | none => some st
    | some y => visit y st

def visit : ℕ → α → Postorder κ α → Option (Postorder κ α)
  | 0, _, _ => none
  | fuel + 1, x, st => do
      let st ← (G.deps x).foldlM (G.visitDep (visit fuel))
        { st with visited := insert (G.key x) st.visited }
      some { st with stack := st.stack ++ [x] }

/-- Visit a node of the list if it is still unmarked. -/
def visitRoot (fuel : ℕ) (st : Postorder κ α) (x : α) : Option (Postorder κ α) :=
  if G.key x ∈ st.visited then some st else G.visit fuel x st

def sort (fuel : ℕ) (xs : List α) : Option (Postorder κ α) :=
  xs.foldlM (G.visitRoot fuel) ⟨∅, []⟩

/-- A keyed lookup whose keys lie in a finite set. -/
structure Keyed (D : Finset κ) : Prop where
  mem : ∀ {k y}, G.find k = some y → k ∈ D
  key_eq : ∀ {k y}, G.find k = some y → G.key y = k

/-- No node depends on itself. -/
def Acyclic : Prop := ∀ k, ¬ Relation.TransGen G.Dep k k

/-- What a visit of the node under `l` achieves from `st`. -/
structure Visits (st st' : Postorder κ α) (l : κ) : Prop where
  extends_ : ∃ m, G.Extends st st' m
  marked : l ∈ st'.visited
  ordered : G.Acyclic → (∀ g, G.IsOpen st g → Relation.TransGen G.Dep l g) →
    G.Ordered st.stack → G.Ordered st'.stack

variable {G} {D : Finset κ} {fuel : ℕ}

theorem card_sdiff_le {st st' : Postorder κ α} {m : List α} (h : G.Extends st st' m) :
    (D \ st'.visited).card ≤ (D \ st.visited).card :=
  Finset.card_le_card (Finset.sdiff_subset_sdiff le_rfl fun k hk =>
    (h.visited_iff k).mpr (.inl hk))

/-- The dependencies of an open node, visited one after the other. -/
theorem visitDeps_spec (hG : G.Keyed D) {x : α} (hx : G.find (G.key x) = some x)
    (ih : ∀ y st, G.find (G.key y) = some y → G.key y ∉ st.visited →
      (D \ st.visited).card < fuel → ∃ st', G.visit fuel y st = some st' ∧
        G.Visits st st' (G.key y))
    {ks : List κ} (hks : ∀ k ∈ ks, k ∈ G.deps x) {st : Postorder κ α}
    (hfuel : (D \ st.visited).card < fuel) :
    ∃ st' m, ks.foldlM (G.visitDep (G.visit fuel)) st = some st' ∧ G.Extends st st' m ∧
      (∀ k ∈ ks, (∃ z, G.find k = some z) → k ∈ st'.visited) ∧
      (G.Acyclic → (∀ g, G.IsOpen st g → g = G.key x ∨ Relation.TransGen G.Dep (G.key x) g) →
        G.Ordered st.stack → G.Ordered st'.stack) := by
  induction ks generalizing st with
  | nil => exact ⟨st, [], rfl, .refl st, by simp, fun _ _ h => h⟩
  | cons k ks ihks =>
      -- One dependency extends the state; the open nodes do not change.
      obtain ⟨st₁, m, hst₁, hm, hk₁, hord₁⟩ : ∃ st₁ m, G.visitDep (G.visit fuel) st k = some st₁ ∧
          G.Extends st st₁ m ∧ ((∃ z, G.find k = some z) → k ∈ st₁.visited) ∧
          (G.Acyclic → (∀ g, G.IsOpen st g →
            g = G.key x ∨ Relation.TransGen G.Dep (G.key x) g) →
            G.Ordered st.stack → G.Ordered st₁.stack) := by
        unfold visitDep
        split_ifs with hk
        · exact ⟨st, [], rfl, .refl st, fun _ => hk, fun _ _ h => h⟩
        · cases hfind : G.find k with
          | none => exact ⟨st, [], rfl, .refl st, by simp, fun _ _ h => h⟩
          | some y =>
              obtain rfl := hG.key_eq hfind
              obtain ⟨st₁, hst₁, ⟨m, hm⟩, hmark, hord⟩ := ih y st hfind hk hfuel
              refine ⟨st₁, m, hst₁, hm, fun _ => hmark, fun hacyc hopen => ?_⟩
              have hdep : G.Dep (G.key y) (G.key x) :=
                ⟨x, hx, hks _ List.mem_cons_self, y, hfind⟩
              refine hord hacyc fun g hg => ?_
              rcases hopen g hg with rfl | hxg
              · exact .single hdep
              · exact .head hdep hxg
      obtain ⟨st', m', hst', hm', hks', hord'⟩ :=
        ihks (fun k' hk' => hks k' (List.mem_cons_of_mem _ hk'))
          ((card_sdiff_le hm).trans_lt hfuel)
      refine ⟨st', m ++ m', ?_, hm.trans hm', ?_, ?_⟩
      · rw [List.foldlM_cons, hst₁]
        exact hst'
      · intro k' hk' hz
        rcases List.mem_cons.mp hk' with rfl | hk'
        · exact (hm'.visited_iff _).mpr (.inl (hk₁ hz))
        · exact hks' k' hk' hz
      · intro hacyc hopen hord
        exact hord' hacyc (fun g hg => hopen g (hm.isOpen hg)) (hord₁ hacyc hopen hord)

/-- A visit of an unmarked node terminates and achieves what it should. -/
theorem visit_spec (hG : G.Keyed D) (fuel : ℕ) : ∀ x st, G.find (G.key x) = some x →
    G.key x ∉ st.visited → (D \ st.visited).card < fuel →
    ∃ st', G.visit fuel x st = some st' ∧ G.Visits st st' (G.key x) := by
  induction fuel with
  | zero => exact fun _ _ _ _ h => absurd h (Nat.not_lt_zero _)
  | succ fuel ih =>
      intro x st hx hmark hfuel
      let st₀ : Postorder κ α := { st with visited := insert (G.key x) st.visited }
      have hfuel₀ : (D \ st₀.visited).card < fuel := by
        have hlt : (D \ st₀.visited).card < (D \ st.visited).card := by
          refine Finset.card_lt_card ⟨Finset.sdiff_subset_sdiff le_rfl (by simp [st₀]), ?_⟩
          intro hsub
          have hmem := hsub (Finset.mem_sdiff.mpr ⟨hG.mem hx, hmark⟩)
          simp [st₀] at hmem
        omega
      obtain ⟨st₁, m, hst₁, hm, hdeps, hord⟩ :=
        visitDeps_spec hG hx ih (fun k hk => hk) hfuel₀
      have hext : G.Extends st { st₁ with stack := st₁.stack ++ [x] } (m ++ [x]) := by
        refine ⟨?_, fun k => ?_, fun k hk => ?_, ?_, fun y hy => ?_⟩
        · simp only [hm.stack_eq, st₀, List.append_assoc]
        · simp only [hm.visited_iff, st₀, Finset.mem_insert, List.map_append, List.mem_append,
            List.map_cons, List.map_nil, List.mem_singleton]
          tauto
        · rw [List.map_append, List.mem_append] at hk
          rcases hk with hk | hk
          · exact fun hks => hm.fresh k hk (Finset.mem_insert_of_mem hks)
          · rw [List.map_cons, List.map_nil, List.mem_singleton] at hk
            exact hk ▸ hmark
        · rw [List.map_append]
          refine hm.nodup.append (List.nodup_singleton _) fun k hk hkx => ?_
          rw [List.map_cons, List.map_nil, List.mem_singleton] at hkx
          exact hm.fresh k hk (hkx ▸ Finset.mem_insert_self _ _)
        · rcases List.mem_append.mp hy with hy | hy
          · exact hm.found y hy
          · exact List.mem_singleton.mp hy ▸ hx
      refine ⟨_, by rw [visit, hst₁]; rfl, ⟨_, hext⟩, ?_, ?_⟩
      · exact (hm.visited_iff _).mpr (.inl (Finset.mem_insert_self _ _))
      · intro hacyc hopen hordst
        have hopen₀ : ∀ g, G.IsOpen st₀ g →
            g = G.key x ∨ Relation.TransGen G.Dep (G.key x) g := by
          rintro g ⟨hg, hgs⟩
          rcases Finset.mem_insert.mp hg with rfl | hg
          · exact .inl rfl
          · exact .inr (hopen g ⟨hg, hgs⟩)
        refine (hord hacyc hopen₀ hordst).concat fun k hk hz => ?_
        -- A marked dependency that is still open would close a cycle.
        by_contra hks
        have hdep : G.Dep k (G.key x) := ⟨x, hx, hk, hz⟩
        rcases hopen₀ k (hm.isOpen ⟨hdeps k hk hz, hks⟩) with rfl | hxk
        · exact hacyc _ (.single hdep)
        · exact hacyc _ (.head hdep hxk)

/-- Sorting nodes of the graph terminates. Its output holds each of their keys
once, along with the keys they lead to, and is ordered if there is no cycle. -/
theorem sort_spec (hG : G.Keyed D) {xs : List α} (hxs : ∀ x ∈ xs, G.find (G.key x) = some x)
    (hfuel : D.card < fuel) :
    ∃ st, G.sort fuel xs = some st ∧ G.Extends ⟨∅, []⟩ st st.stack ∧
      (∀ x ∈ xs, G.key x ∈ st.stack.map G.key) ∧ (G.Acyclic → G.Ordered st.stack) := by
  have hrun : ∀ (xs : List α) (st : Postorder κ α) (l : List α),
      (∀ x ∈ xs, G.find (G.key x) = some x) → G.Extends ⟨∅, []⟩ st l →
      (G.Acyclic → G.Ordered st.stack) →
      ∃ st' l', xs.foldlM (G.visitRoot fuel) st = some st' ∧ G.Extends ⟨∅, []⟩ st' l' ∧
        (∀ k ∈ st.visited, k ∈ st'.visited) ∧ (∀ x ∈ xs, G.key x ∈ st'.visited) ∧
        (G.Acyclic → G.Ordered st'.stack) := by
    intro xs
    induction xs with
    | nil => exact fun st l _ hext hord => ⟨st, l, rfl, hext, fun _ h => h, by simp, hord⟩
    | cons x xs ih =>
        intro st l hxs hext hord
        have hx := hxs x List.mem_cons_self
        obtain ⟨st₁, m, hst₁, hm, hmark, hord₁⟩ : ∃ st₁ m, G.visitRoot fuel st x = some st₁ ∧
            G.Extends st st₁ m ∧ G.key x ∈ st₁.visited ∧ (G.Acyclic → G.Ordered st₁.stack) := by
          unfold visitRoot
          split_ifs with hk
          · exact ⟨st, [], rfl, .refl st, hk, hord⟩
          · have hlt : (D \ st.visited).card < fuel :=
              (Finset.card_le_card Finset.sdiff_subset).trans_lt hfuel
            obtain ⟨st₁, hst₁, ⟨m, hm⟩, hmark, hvis⟩ := visit_spec hG fuel x st hx hk hlt
            refine ⟨st₁, m, hst₁, hm, hmark, fun hacyc => hvis hacyc (fun g hg => ?_) (hord hacyc)⟩
            exact absurd (hext.isOpen hg).1 (by simp)
        obtain ⟨st', l', hst', hl', hmono, hks, hord'⟩ :=
          ih st₁ _ (fun y hy => hxs y (List.mem_cons_of_mem _ hy)) (hext.trans hm) hord₁
        refine ⟨st', l', ?_, hl', fun k hk => hmono k ((hm.visited_iff k).mpr (.inl hk)), ?_, hord'⟩
        · rw [List.foldlM_cons, hst₁]
          exact hst'
        · intro y hy
          rcases List.mem_cons.mp hy with rfl | hy
          · exact hmono _ hmark
          · exact hks y hy
  have hnil : G.Ordered [] := fun pre y post h => by simp at h
  obtain ⟨st, l, hst, hext, -, hks, hord⟩ := hrun xs ⟨∅, []⟩ [] hxs (.refl _) fun _ => hnil
  have hl : st.stack = l := by simpa using hext.stack_eq
  subst hl
  refine ⟨st, hst, hext, fun x hx => ?_, hord⟩
  exact ((hext.visited_iff _).mp (hks x hx)).resolve_left (by simp)

/-- Marked and unknown dependencies are skipped. -/
theorem visitDeps_skip {visit : α → Postorder κ α → Option (Postorder κ α)} {ks : List κ}
    {st : Postorder κ α} (h : ∀ k ∈ ks, k ∈ st.visited ∨ G.find k = none) :
    ks.foldlM (G.visitDep visit) st = some st := by
  induction ks with
  | nil => rfl
  | cons k ks ih =>
      have hskip : G.visitDep visit st k = some st := by
        unfold visitDep
        split_ifs with hk
        · rfl
        · rw [(h k List.mem_cons_self).resolve_left hk]
      rw [List.foldlM_cons, hskip]
      exact ih fun k' hk' => h k' (List.mem_cons_of_mem _ hk')

/-- Nodes that are marked already are skipped. -/
theorem visitRoots_skip {xs : List α} {st : Postorder κ α}
    (h : ∀ x ∈ xs, G.key x ∈ st.visited) : xs.foldlM (G.visitRoot fuel) st = some st := by
  induction xs with
  | nil => rfl
  | cons x xs ih =>
      rw [List.foldlM_cons, visitRoot, if_pos (h x List.mem_cons_self)]
      exact ih fun y hy => h y (List.mem_cons_of_mem _ hy)

theorem visitRoots_ordered {l : List α} (hord : G.Ordered l) (hnodup : (l.map G.key).Nodup) :
    l.foldlM (G.visitRoot (fuel + 1)) ⟨∅, []⟩ = some ⟨(l.map G.key).toFinset, l⟩ := by
  induction l using List.reverseRecOn with
  | nil => rfl
  | append_singleton l x ih =>
      rw [List.map_append, List.map_singleton] at hnodup
      obtain ⟨hl, -, hne⟩ := List.nodup_append.mp hnodup
      have hnew : G.key x ∉ (l.map G.key).toFinset := fun hmem =>
        hne _ (List.mem_toFinset.mp hmem) _ (List.mem_singleton.mpr rfl) rfl
      have hdeps : ∀ k ∈ G.deps x,
          k ∈ insert (G.key x) (l.map G.key).toFinset ∨ G.find k = none := by
        intro k hk
        cases hfind : G.find k with
        | none => exact .inr rfl
        | some z =>
            have hbefore := hord l x [] rfl k hk ⟨z, hfind⟩
            exact .inl (Finset.mem_insert_of_mem (List.mem_toFinset.mpr hbefore))
      have hvisit : G.visitRoot (fuel + 1) ⟨(l.map G.key).toFinset, l⟩ x =
          some ⟨insert (G.key x) (l.map G.key).toFinset, l ++ [x]⟩ := by
        rw [visitRoot, if_neg hnew, visit, visitDeps_skip hdeps]
        rfl
      rw [List.foldlM_append, ih hord.of_concat hl, Option.bind_eq_bind, Option.bind_some,
        List.foldlM_cons, hvisit]
      simp [List.toFinset_append]

/-- A list that is ordered already stays as it is, and what repeats its keys after it is
left out. -/
theorem sort_ordered {l rest : List α} (hord : G.Ordered l) (hnodup : (l.map G.key).Nodup)
    (hrest : ∀ x ∈ rest, G.key x ∈ l.map G.key) :
    G.sort (fuel + 1) (l ++ rest) = some ⟨(l.map G.key).toFinset, l⟩ := by
  rw [sort, List.foldlM_append, visitRoots_ordered hord hnodup]
  exact visitRoots_skip fun x hx => List.mem_toFinset.mpr (hrest x hx)

/-! ### Any run -/

omit [DecidableEq κ] in
theorem foldlM_keeps {β : Type*} {I : Postorder κ α → Prop}
    {f : Postorder κ α → β → Option (Postorder κ α)} {as : List β} {st st' : Postorder κ α}
    (hstep : ∀ a ∈ as, ∀ st st', I st → f st a = some st' → I st') (hst : I st)
    (h : as.foldlM f st = some st') : I st' := by
  induction as generalizing st with
  | nil =>
      rw [List.foldlM_nil] at h
      exact Option.some.inj h ▸ hst
  | cons a as ih =>
      rw [List.foldlM_cons, Option.bind_eq_bind, Option.bind_eq_some_iff] at h
      obtain ⟨st₁, hfirst, h⟩ := h
      exact ih (fun a' ha' => hstep a' (List.mem_cons_of_mem _ ha'))
        (hstep a List.mem_cons_self st st₁ hst hfirst) h

/-- A dependency is followed if it is unmarked and can be looked up. -/
theorem visitDep_keeps {I : Postorder κ α → Prop} {k : κ} {st st' : Postorder κ α}
    (hvisit : ∀ y, k ∉ st.visited → G.find k = some y → G.visit fuel y st = some st' → I st')
    (hst : I st) (h : G.visitDep (G.visit fuel) st k = some st') : I st' := by
  unfold visitDep at h
  split_ifs at h with hk
  · exact Option.some.inj h ▸ hst
  · cases hy : G.find k with
    | none =>
        rw [hy] at h
        exact Option.some.inj h ▸ hst
    | some y =>
        rw [hy] at h
        exact hvisit y hk hy h

theorem visit_forall {P : α → Prop} (hfind : ∀ k y, G.find k = some y → P y) (fuel : ℕ) :
    ∀ x st st', P x → (∀ y ∈ st.stack, P y) → G.visit fuel x st = some st' →
      ∀ y ∈ st'.stack, P y := by
  induction fuel with
  | zero =>
      intro x st st' _ _ h
      cases h
  | succ fuel ih =>
      intro x st st' hx hst h
      obtain ⟨st₁, hdeps, h⟩ := Option.bind_eq_some_iff.mp h
      have hstart : ∀ y ∈ ({ st with visited := insert (G.key x) st.visited } :
          Postorder κ α).stack, P y := hst
      have hst₁ : ∀ y ∈ st₁.stack, P y := by
        refine foldlM_keeps (I := fun st => ∀ y ∈ st.stack, P y) ?_ hstart hdeps
        intro k _ a b ha hab
        refine visitDep_keeps (I := fun st => ∀ y ∈ st.stack, P y) ?_ ha hab
        intro y _ hy hvisit
        exact ih y a b (hfind k y hy) ha hvisit
      intro y hy
      rw [← Option.some.inj h] at hy
      rcases List.mem_append.mp hy with hy | hy
      · exact hst₁ y hy
      · exact List.mem_singleton.mp hy ▸ hx

/-- The output consists of the roots and of what can be looked up. -/
theorem sort_forall {P : α → Prop} (hfind : ∀ k y, G.find k = some y → P y) {xs : List α}
    (hxs : ∀ x ∈ xs, P x) {st : Postorder κ α} (h : G.sort fuel xs = some st) :
    ∀ y ∈ st.stack, P y := by
  refine foldlM_keeps (I := fun st => ∀ y ∈ st.stack, P y) ?_
    (fun y hy => absurd hy List.not_mem_nil) h
  intro x hx a b ha hab
  unfold visitRoot at hab
  split_ifs at hab
  · exact Option.some.inj hab ▸ ha
  · exact visit_forall hfind fuel x a b (hxs x hx) ha hab

/-- The output has each of its keys once, all marked, and the keys of `S` are open. -/
structure Clean (G : DepGraph κ α) (S : Set κ) (st : Postorder κ α) : Prop where
  nodup : (st.stack.map G.key).Nodup
  marked : ∀ k ∈ st.stack.map G.key, k ∈ st.visited
  isOpen : ∀ k ∈ S, G.IsOpen st k

/-- A visit closes what it opens, and nothing else. -/
theorem visit_clean (hkey : ∀ {k y}, G.find k = some y → G.key y = k) (fuel : ℕ) :
    ∀ x st st' S, G.key x ∉ st.visited → G.Clean S st → G.visit fuel x st = some st' →
      G.Clean S st' := by
  induction fuel with
  | zero =>
      intro x st st' S _ _ h
      cases h
  | succ fuel ih =>
      intro x st st' S hx hst h
      obtain ⟨st₁, hdeps, h⟩ := Option.bind_eq_some_iff.mp h
      have hstart : G.Clean (insert (G.key x) S)
          { st with visited := insert (G.key x) st.visited } := by
        refine ⟨hst.nodup, fun k hk => Finset.mem_insert_of_mem (hst.marked k hk), ?_⟩
        intro k hk
        rcases hk with rfl | hk
        · exact ⟨Finset.mem_insert_self _ _, fun hmem => hx (hst.marked _ hmem)⟩
        · exact ⟨Finset.mem_insert_of_mem (hst.isOpen k hk).1, (hst.isOpen k hk).2⟩
      have hst₁ : G.Clean (insert (G.key x) S) st₁ := by
        refine foldlM_keeps (I := G.Clean (insert (G.key x) S)) ?_ hstart hdeps
        intro k _ a b ha hab
        refine visitDep_keeps ?_ ha hab
        intro y hk hy hvisit
        exact ih y a b _ (by rwa [hkey hy]) ha hvisit
      obtain ⟨hmarked, hnew⟩ := hst₁.isOpen (G.key x) (Set.mem_insert _ _)
      rw [← Option.some.inj h]
      refine ⟨?_, ?_, ?_⟩
      · rw [List.map_append, List.map_singleton]
        exact hst₁.nodup.append (List.nodup_singleton _) (List.disjoint_singleton.mpr hnew)
      · intro k hk
        rw [List.map_append, List.mem_append, List.map_singleton, List.mem_singleton] at hk
        rcases hk with hk | rfl
        · exact hst₁.marked k hk
        · exact hmarked
      · intro k hk
        obtain ⟨hkmarked, hkout⟩ := hst₁.isOpen k (Set.mem_insert_of_mem _ hk)
        refine ⟨hkmarked, ?_⟩
        rw [List.map_append, List.mem_append, List.map_singleton, List.mem_singleton, not_or]
        exact ⟨hkout, fun heq => hx (heq ▸ (hst.isOpen k hk).1)⟩

/-- Whatever the roots are, no key is output twice. -/
theorem sort_nodup (hkey : ∀ {k y}, G.find k = some y → G.key y = k) {xs : List α}
    {st : Postorder κ α} (h : G.sort fuel xs = some st) : (st.stack.map G.key).Nodup := by
  have hstart : G.Clean ∅ ⟨∅, []⟩ := ⟨List.nodup_nil, by simp, by simp⟩
  have hclean : G.Clean ∅ st := by
    refine foldlM_keeps ?_ hstart h
    intro x _ a b ha hab
    unfold visitRoot at hab
    split_ifs at hab with hx
    · exact Option.some.inj hab ▸ ha
    · exact visit_clean hkey fuel x a b ∅ hx ha hab
  exact hclean.nodup

end DepGraph
end SlpGraphSearch.Library
