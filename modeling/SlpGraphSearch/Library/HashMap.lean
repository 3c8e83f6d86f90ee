import Mathlib.Data.Finmap
import Mathlib.Data.Set.Finite.Basic

/-!
# Hash maps and keyed maps

A hash map is a finite map; nothing here depends on its layout. `emplace` is the
insertion of the C++ containers, which keeps the value already stored under an
equal key.

A keyed map stores values under a key computed from them. It is a hash map whose
entries sit under their own key, or equally a hash set whose equality compares
the keys only.
-/
namespace SlpGraphSearch.Library

variable {κ ν : Type*} [DecidableEq κ]

abbrev HashMap (κ ν : Type*) := Finmap fun _ : κ => ν

namespace HashMap

/-- Insert unless the key is present. -/
def emplace (m : HashMap κ ν) (k : κ) (v : ν) : HashMap κ ν :=
  if k ∈ m then m else Finmap.insert k v m

theorem lookup_insert (m : HashMap κ ν) (k : κ) (v : ν) (x : κ) :
    (Finmap.insert k v m).lookup x = if x = k then some v else m.lookup x := by
  split_ifs with h
  · rw [h, Finmap.lookup_insert]
  · rw [Finmap.lookup_insert_of_ne m h]

theorem lookup_erase (m : HashMap κ ν) (k x : κ) :
    (Finmap.erase k m).lookup x = if x = k then none else m.lookup x := by
  split_ifs with h
  · rw [h, Finmap.lookup_erase]
  · rw [Finmap.lookup_erase_ne h]

theorem lookup_emplace (m : HashMap κ ν) (k : κ) (v : ν) (x : κ) :
    (m.emplace k v).lookup x = if x = k then some ((m.lookup k).getD v) else m.lookup x := by
  unfold emplace
  split_ifs with hk hx hx
  · obtain ⟨w, hw⟩ := Finmap.mem_iff.mp hk
    rw [hx, hw, Option.getD_some]
  · rfl
  · rw [hx, Finmap.lookup_insert, Finmap.lookup_eq_none.mpr hk, Option.getD_none]
  · rw [Finmap.lookup_insert_of_ne m hx]

/-- What is there stays, and only the inserted key is new. -/
theorem lookup_emplace_or (m : HashMap κ ν) (k : κ) (v : ν) (x : κ) :
    (m.emplace k v).lookup x = (m.lookup x).or (if x = k then some v else none) := by
  rw [lookup_emplace]
  split_ifs with hx
  · subst hx
    cases m.lookup x <;> rfl
  · rw [Option.or_none]

/-- The values of a list, inserted in order under the keys that `k` gives them. -/
theorem lookup_foldl_emplace {α : Type*} (k : α → κ) (v : α → ν) (m : HashMap κ ν) (l : List α)
    (x : κ) : (l.foldl (fun m a => m.emplace (k a) (v a)) m).lookup x =
      (m.lookup x).or ((l.find? fun a => k a = x).map v) := by
  induction l generalizing m with
  | nil => simp
  | cons a l ih =>
      rw [List.foldl_cons, ih, lookup_emplace_or, Option.or_assoc, List.find?_cons]
      by_cases hx : x = k a
      · simp [hx]
      · simp [hx, Ne.symm hx]

end HashMap

/-- A map whose entries sit under the key of their value. -/
structure KeyedMap (key : ν → κ) where
  toMap : HashMap κ ν
  key_eq : ∀ {k v}, toMap.lookup k = some v → key v = k

namespace KeyedMap

variable {key : ν → κ}

def lookup (m : KeyedMap key) (k : κ) : Option ν := m.toMap.lookup k

instance : EmptyCollection (KeyedMap key) :=
  ⟨∅, by simp [Finmap.lookup_empty]⟩

instance : Membership κ (KeyedMap key) := ⟨fun m k => k ∈ m.toMap⟩

instance (m : KeyedMap key) (k : κ) : Decidable (k ∈ m) :=
  inferInstanceAs (Decidable (k ∈ m.toMap))

/-- Insert unless an entry with the same key is present. -/
def emplace (m : KeyedMap key) (v : ν) : KeyedMap key where
  toMap := m.toMap.emplace (key v) v
  key_eq := by
    intro k w h
    rw [HashMap.lookup_emplace] at h
    split_ifs at h with hk
    · subst hk
      rw [Option.some.injEq] at h
      cases hl : m.toMap.lookup (key v) with
      | none => rw [← h, hl, Option.getD_none]
      | some u => rw [← h, hl, Option.getD_some, m.key_eq hl]
    · exact m.key_eq h

def erase (m : KeyedMap key) (k : κ) : KeyedMap key where
  toMap := Finmap.erase k m.toMap
  key_eq := by
    intro x w h
    rw [HashMap.lookup_erase] at h
    split_ifs at h
    exact m.key_eq h

theorem ext_lookup {m n : KeyedMap key} (h : ∀ k, m.lookup k = n.lookup k) : m = n := by
  cases m
  cases n
  simp only [mk.injEq]
  exact Finmap.ext_lookup h

theorem key_lookup {m : KeyedMap key} {k : κ} {v : ν} (h : m.lookup k = some v) : key v = k :=
  m.key_eq h

theorem mem_iff {m : KeyedMap key} {k : κ} : k ∈ m ↔ ∃ v, m.lookup k = some v :=
  Finmap.mem_iff

theorem lookup_eq_none {m : KeyedMap key} {k : κ} : m.lookup k = none ↔ k ∉ m :=
  Finmap.lookup_eq_none

@[simp] theorem lookup_empty (k : κ) : (∅ : KeyedMap key).lookup k = none :=
  Finmap.lookup_empty k

@[simp] theorem notMem_empty (k : κ) : k ∉ (∅ : KeyedMap key) := Finmap.notMem_empty

theorem finite_mem (m : KeyedMap key) : {k | k ∈ m}.Finite :=
  m.toMap.keys.finite_toSet.subset fun _ hk => Finmap.mem_keys.mpr hk

theorem lookup_emplace (m : KeyedMap key) (v : ν) (k : κ) :
    (m.emplace v).lookup k = if k = key v then some ((m.lookup k).getD v) else m.lookup k := by
  have h := HashMap.lookup_emplace m.toMap (key v) v k
  split_ifs at h ⊢ with hk
  · rw [hk] at h ⊢
    exact h
  · exact h

/-- What is found was there before or is the new entry. -/
theorem lookup_emplace_cases {m : KeyedMap key} {v w : ν} {k : κ}
    (h : (m.emplace v).lookup k = some w) : w = v ∨ m.lookup k = some w := by
  rw [lookup_emplace] at h
  split_ifs at h with hk
  · cases hl : m.lookup k with
    | none => exact .inl (by simpa [hl] using h.symm)
    | some u => exact .inr (by simpa [hl] using h)
  · exact .inr h

theorem lookup_erase (m : KeyedMap key) (k x : κ) :
    (m.erase k).lookup x = if x = k then none else m.lookup x :=
  HashMap.lookup_erase m.toMap k x

theorem erase_of_lookup_none {m : KeyedMap key} {k : κ} (h : m.lookup k = none) :
    m.erase k = m := by
  refine ext_lookup fun x => ?_
  rw [lookup_erase]
  split_ifs with hx
  · rw [hx, h]
  · rfl

theorem erase_comm (m : KeyedMap key) (k k' : κ) :
    (m.erase k).erase k' = (m.erase k').erase k := by
  refine ext_lookup fun x => ?_
  simp only [lookup_erase]
  split_ifs <;> rfl

/-- The entry that `emplace` leaves has the key of the value. -/
theorem key_getD_lookup (m : KeyedMap key) (v : ν) : key ((m.lookup (key v)).getD v) = key v := by
  cases hl : m.lookup (key v) with
  | none => rfl
  | some w => exact key_lookup hl

@[simp] theorem mem_emplace {m : KeyedMap key} {v : ν} {k : κ} :
    k ∈ m.emplace v ↔ k = key v ∨ k ∈ m := by
  rw [mem_iff, mem_iff, lookup_emplace]
  split_ifs with hk
  · simp [hk]
  · simp [hk]

def isEmpty (m : KeyedMap key) : Bool := m.toMap.keys = ∅

theorem isEmpty_iff {m : KeyedMap key} : m.isEmpty = true ↔ ∀ k, m.lookup k = none := by
  rw [isEmpty, decide_eq_true_eq, Finset.eq_empty_iff_forall_notMem]
  exact forall_congr' fun k => Finmap.mem_keys.not.trans lookup_eq_none.symm

theorem isEmpty_erase {m : KeyedMap key} (h : m.isEmpty = true) (k : κ) :
    (m.erase k).isEmpty = true := by
  rw [isEmpty_iff] at h ⊢
  intro x
  rw [lookup_erase, h, ite_self]

/-- The values of a list under their keys, inserted in order. -/
def ofList (l : List ν) : KeyedMap key := l.foldl emplace ∅

theorem lookup_foldl_emplace (m : KeyedMap key) (l : List ν) (k : κ) :
    (l.foldl emplace m).lookup k = (m.lookup k).or (l.find? fun v => key v = k) := by
  induction l generalizing m with
  | nil => simp
  | cons v l ih =>
      rw [List.foldl_cons, ih, lookup_emplace, List.find?_cons]
      by_cases hk : k = key v
      · subst hk
        cases m.lookup (key v) <;> simp
      · simp [hk, Ne.symm hk]

/-- What is found after inserting a list was there before or is the first of its key. -/
theorem lookup_foldl_emplace_cases {m : KeyedMap key} {l : List ν} {k : κ} {v : ν}
    (h : (l.foldl emplace m).lookup k = some v) :
    m.lookup k = some v ∨ k ∉ m ∧ (l.find? fun v => key v = k) = some v := by
  rw [lookup_foldl_emplace] at h
  exact (Option.or_eq_some_iff.mp h).imp_right fun ⟨hk, hv⟩ => ⟨lookup_eq_none.mp hk, hv⟩

theorem mem_foldl_emplace {m : KeyedMap key} {l : List ν} {k : κ} :
    k ∈ l.foldl emplace m ↔ k ∈ m ∨ ∃ v ∈ l, key v = k := by
  induction l generalizing m with
  | nil => simp
  | cons v l ih =>
      rw [List.foldl_cons, ih, mem_emplace, List.exists_mem_cons_iff, or_assoc, or_left_comm,
        eq_comm]

/-- If keys determine values, the map holds exactly the list. -/
theorem lookup_ofList {l : List ν} (hl : ∀ v ∈ l, ∀ w ∈ l, key v = key w → v = w) {k : κ}
    {v : ν} : (ofList l : KeyedMap key).lookup k = some v ↔ v ∈ l ∧ key v = k := by
  rw [ofList, lookup_foldl_emplace, lookup_empty, Option.none_or]
  constructor
  · intro h
    exact ⟨List.mem_of_find?_eq_some h, by simpa using List.find?_some h⟩
  · rintro ⟨hv, rfl⟩
    cases h : l.find? fun w => key w = key v with
    | none => simpa using List.find?_eq_none.mp h v hv
    | some w =>
        rw [hl w (List.mem_of_find?_eq_some h) v hv (by simpa using List.find?_some h)]

end KeyedMap

/-! ## Iteration

The order in which a hash container yields its entries is not specified. It is a
parameter of the code that iterates. -/

/-- An order of iteration over entries that are listed in insertion order. -/
structure HashOrder (α : Type*) where
  permute : List α → List α
  perm : ∀ l, (permute l).Perm l

/-- The order of insertion. -/
def HashOrder.insertion (α : Type*) : HashOrder α := ⟨id, .refl⟩

theorem HashOrder.mem {α : Type*} (order : HashOrder α) {l : List α} {a : α} :
    a ∈ order.permute l ↔ a ∈ l := (order.perm l).mem_iff

/-- An order of iteration over the values of a keyed map. -/
structure KeyedOrder (key : ν → κ) where
  list : KeyedMap key → List ν
  mem_list : ∀ {m : KeyedMap key} {v : ν}, v ∈ list m ↔ m.lookup (key v) = some v
  nodup : ∀ m, (list m).Nodup

theorem KeyedOrder.length_list_le {key : ν → κ} (order : KeyedOrder key) (m : KeyedMap key) :
    (order.list m).length ≤ m.toMap.keys.card := by
  have hkeys : ((order.list m).map key).Nodup := by
    refine List.Nodup.map_on (fun v hv w hw hvw => ?_) (order.nodup m)
    have hv := order.mem_list.mp hv
    rw [hvw, order.mem_list.mp hw, Option.some.injEq] at hv
    exact hv.symm
  rw [← List.length_map key, ← List.toFinset_card_of_nodup hkeys]
  refine Finset.card_le_card fun k hk => ?_
  obtain ⟨v, hv, rfl⟩ := List.mem_map.mp (List.mem_toFinset.mp hk)
  exact Finmap.mem_keys.mpr (KeyedMap.mem_iff.mpr ⟨v, order.mem_list.mp hv⟩)

/-- Some order of iteration. -/
noncomputable def KeyedOrder.some (key : ν → κ) : KeyedOrder key where
  list m := m.toMap.keys.toList.filterMap m.lookup
  mem_list := by
    intro m v
    simp only [List.mem_filterMap, Finset.mem_toList, Finmap.mem_keys]
    constructor
    · rintro ⟨k, -, hk⟩
      rwa [KeyedMap.key_lookup hk]
    · exact fun h => ⟨key v, KeyedMap.mem_iff.mpr ⟨v, h⟩, h⟩
  nodup m := by
    refine (Finset.nodup_toList _).filterMap fun k k' v hk hk' => ?_
    exact (KeyedMap.key_lookup hk).symm.trans (KeyedMap.key_lookup hk')

/-- An order of iteration over a hash set. -/
structure SetOrder (α : Type*) where
  list : Finset α → List α
  mem_list : ∀ {s : Finset α} {a : α}, a ∈ list s ↔ a ∈ s
  nodup : ∀ s, (list s).Nodup

noncomputable def SetOrder.some (α : Type*) : SetOrder α where
  list := Finset.toList
  mem_list := Finset.mem_toList
  nodup := Finset.nodup_toList

end SlpGraphSearch.Library
