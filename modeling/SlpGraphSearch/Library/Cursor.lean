import Mathlib.Tactic.Ring
import Mathlib.Tactic.Linarith

/-!
# Cursors over a byte buffer

A cursor program walks an iterator through a buffer and either returns a value,
refuses the buffer, or reads outside it. The state is the range from the
iterator to the end of the buffer, so the distance to the end is its length and
a read past the end is a visible failure instead of an assumption.

`Decodes before after c E` is the contract of such a program. Whenever at least
`before` bytes remain, the program never reads outside the buffer, and it
returns `a` exactly when the remaining bytes start with an encoding `E p a` that
leaves at least `after` bytes. Contracts compose, so a decoder is verified by
following its text.
-/
namespace SlpGraphSearch.Library

/-- How a cursor program ends without a value. `exhausted` is not an outcome of
the program: it marks a loop cut off by the bound given to its model. -/
inductive Stop
  | refuse
  | outOfBounds
  | exhausted
deriving DecidableEq, Repr

abbrev Cursor (α : Type) := StateT (List UInt8) (Except Stop) α

/-- Refuse unless strictly more than `n` bytes remain: `it + n >= end` fails. -/
def Cursor.checkEnd (n : ℕ) : Cursor Unit := fun it =>
  if it.length ≤ n then .error .refuse else .ok ((), it)

/-- Refuse unless a condition on values already read holds. -/
def Cursor.require (p : Prop) [Decidable p] : Cursor Unit := fun it =>
  if p then .ok ((), it) else .error .refuse

/-- Dereference without advancing. -/
def Cursor.peek : Cursor UInt8
  | [] => .error .outOfBounds
  | b :: it => .ok (b, b :: it)

/-- Copy `n` bytes and advance past them. -/
def Cursor.take (n : ℕ) : Cursor (List UInt8) := fun it =>
  if it.length < n then .error .outOfBounds else .ok (it.take n, it.drop n)

/-- `CHECK_END(k)` followed by copying `n` bytes. -/
def Cursor.checkedTake (k n : ℕ) : Cursor (List UInt8) := do
  checkEnd k
  take n

/-- A counted loop; the body receives the loop counter. -/
def Cursor.loop {α : Type} (body : ℕ → Cursor α) : ℕ → ℕ → Cursor (List α)
  | _, 0 => pure []
  | i, n + 1 => do
      let a ← body i
      let as ← Cursor.loop body (i + 1) n
      pure (a :: as)

/-- The number of iterations that a counted loop starts. -/
def Cursor.iterations {α : Type} (body : ℕ → Cursor α) : ℕ → ℕ → List UInt8 → ℕ
  | _, 0, _ => 0
  | i, n + 1, it =>
      match body i it with
      | .ok (_, it') => iterations body (i + 1) n it' + 1
      | .error _ => 1

/-- The unsigned value of little-endian bytes. -/
def leValue : List UInt8 → ℕ
  | [] => 0
  | b :: bs => b.toNat + 256 * leValue bs

theorem leValue_lt (bs : List UInt8) : leValue bs < 256 ^ bs.length := by
  induction bs with
  | nil => simp [leValue]
  | cons b bs ih =>
      have hb := b.toNat_lt
      simp only [leValue, List.length_cons, pow_succ]
      omega

variable {α β : Type}

open Cursor

@[simp] theorem Cursor.run_bind (c : Cursor α) (f : α → Cursor β) (it : List UInt8) :
    (c >>= f) it = (c it).bind fun r => f r.1 r.2 := rfl

@[simp] theorem Cursor.run_pure (a : α) (it : List UInt8) :
    (pure a : Cursor α) it = .ok (a, it) := rfl

theorem Cursor.checkEnd_ok {n : ℕ} {it : List UInt8} (h : n < it.length) :
    checkEnd n it = .ok ((), it) := if_neg (by omega)

theorem Cursor.checkEnd_refuse {n : ℕ} {it : List UInt8} (h : it.length ≤ n) :
    checkEnd n it = .error .refuse := if_pos h

theorem Cursor.take_ok {n : ℕ} {it : List UInt8} (h : n ≤ it.length) :
    take n it = .ok (it.take n, it.drop n) := if_neg (by omega)

theorem Cursor.take_outOfBounds {n : ℕ} {it : List UInt8} (h : it.length < n) :
    take n it = .error .outOfBounds := if_pos h

/-! ### Termination -/

/-- No run of the program is cut off. -/
def Terminates (c : Cursor α) : Prop := ∀ it, c it ≠ .error .exhausted

theorem Terminates.pure (a : α) : Terminates (pure a) := fun it => by simp

theorem Terminates.bind {c : Cursor α} {f : α → Cursor β} (hc : Terminates c)
    (hf : ∀ a, Terminates (f a)) : Terminates (c >>= f) := by
  intro it
  rw [run_bind]
  cases hx : c it with
  | error e =>
      have := hc it
      simpa [hx, Except.bind] using this
  | ok r => exact hf r.1 r.2

theorem Terminates.checkEnd (n : ℕ) : Terminates (checkEnd n) := by
  intro it
  unfold Cursor.checkEnd
  split_ifs <;> simp

theorem Terminates.require (p : Prop) [Decidable p] : Terminates (require p) := by
  intro it
  unfold Cursor.require
  split_ifs <;> simp

theorem Terminates.take (n : ℕ) : Terminates (take n) := by
  intro it
  unfold Cursor.take
  split_ifs <;> simp

theorem Terminates.peek : Terminates peek
  | [] => by simp [Cursor.peek]
  | b :: it => by simp [Cursor.peek]

theorem Terminates.checkedTake (k n : ℕ) : Terminates (checkedTake k n) :=
  (Terminates.checkEnd k).bind fun _ => .take n

theorem Terminates.loop {body : ℕ → Cursor α} (h : ∀ i, Terminates (body i)) (n i : ℕ) :
    Terminates (loop body i n) := by
  induction n generalizing i with
  | zero => exact .pure []
  | succ n ih => exact (h i).bind fun a => (ih (i + 1)).bind fun as => .pure (a :: as)

/-- A loop whose body advances ends with the buffer, whatever its bound is. -/
theorem Cursor.iterations_le {body : ℕ → Cursor α}
    (h : ∀ i it a rest, body i it = .ok (a, rest) → rest.length < it.length) (n i : ℕ)
    (it : List UInt8) : iterations body i n it ≤ it.length + 1 := by
  induction n generalizing i it with
  | zero => exact Nat.zero_le _
  | succ n ih =>
      rw [iterations]
      split
      · rename_i a rest hbody
        have hlt := h i it a rest hbody
        have hrec := ih (i + 1) rest
        omega
      · omega

/-- The iterations that are started decide what the loop returns. -/
theorem Cursor.loop_iterations (body : ℕ → Cursor α) (n i : ℕ) (it : List UInt8) :
    loop body i (iterations body i n it) it = loop body i n it := by
  induction n generalizing i it with
  | zero => rfl
  | succ n ih =>
      rw [iterations]
      cases hbody : body i it with
      | error e => simp only [loop, run_bind, hbody, Except.bind]
      | ok r => simp only [loop, run_bind, hbody, Except.bind, ih]

/-- A program that neither reads outside nor is cut off refuses or returns. -/
theorem Terminates.cases {c : Cursor α} (hc : Terminates c) {it : List UInt8}
    (hsafe : c it ≠ .error .outOfBounds) : c it = .error .refuse ∨ ∃ r, c it = .ok r := by
  cases hr : c it with
  | ok r => exact .inr ⟨r, rfl⟩
  | error e =>
      cases e with
      | refuse => exact .inl rfl
      | outOfBounds => exact absurd hr hsafe
      | exhausted => exact absurd hr (hc it)

/-! ### Contracts -/

/-- The contract of a cursor program against an encoding relation. -/
structure Decodes (before after : ℕ) (c : Cursor α) (E : List UInt8 → α → Prop) : Prop where
  complete : ∀ p a rest, E p a → after ≤ rest.length → c (p ++ rest) = .ok (a, rest)
  sound : ∀ it a rest, before ≤ it.length → c it = .ok (a, rest) →
    after ≤ rest.length ∧ ∃ p, it = p ++ rest ∧ E p a
  safe : ∀ it, before ≤ it.length → c it ≠ .error .outOfBounds
  room : ∀ p a, E p a → before ≤ p.length + after

theorem Decodes.congr {b a : ℕ} {c : Cursor α} {E F : List UInt8 → α → Prop}
    (h : Decodes b a c E) (hEF : ∀ p x, E p x ↔ F p x) : Decodes b a c F where
  complete p x rest hp hr := h.complete p x rest ((hEF p x).mpr hp) hr
  sound it x rest hb hc := by
    obtain ⟨hr, p, hp, hE⟩ := h.sound it x rest hb hc
    exact ⟨hr, p, hp, (hEF p x).mp hE⟩
  safe := h.safe
  room p x hp := h.room p x ((hEF p x).mpr hp)

/-- Sequencing concatenates encodings. -/
theorem Decodes.bind {b m a : ℕ} {c : Cursor α} {f : α → Cursor β}
    {E : List UInt8 → α → Prop} {F : α → List UInt8 → β → Prop}
    (hc : Decodes b m c E) (hf : ∀ x, Decodes m a (f x) (F x)) :
    Decodes b a (c >>= f) fun r y => ∃ p q x, r = p ++ q ∧ E p x ∧ F x q y where
  complete := by
    rintro r y rest ⟨p, q, x, rfl, hE, hF⟩ hr
    have hm : m ≤ (q ++ rest).length := by
      have := (hf x).room q y hF
      simp only [List.length_append]
      omega
    rw [run_bind, List.append_assoc, hc.complete p x (q ++ rest) hE hm]
    exact (hf x).complete q y rest hF hr
  sound := by
    intro it y rest hb h
    rw [run_bind] at h
    cases hx : c it with
    | error e => simp [hx, Except.bind] at h
    | ok r =>
        obtain ⟨x, mid⟩ := r
        simp only [hx, Except.bind] at h
        obtain ⟨hm, p, rfl, hE⟩ := hc.sound it x mid hb hx
        obtain ⟨hr, q, rfl, hF⟩ := (hf x).sound mid y rest hm h
        exact ⟨hr, p ++ q, by rw [List.append_assoc], p, q, x, rfl, hE, hF⟩
  safe := by
    intro it hb
    rw [run_bind]
    cases hx : c it with
    | error e =>
        have := hc.safe it hb
        simpa [hx, Except.bind] using this
    | ok r =>
        have hm := (hc.sound it r.1 r.2 hb hx).1
        exact (hf r.1).safe r.2 hm
  room := by
    rintro r y ⟨p, q, x, rfl, hE, hF⟩
    have h₁ := hc.room p x hE
    have h₂ := (hf x).room q y hF
    simp only [List.length_append]
    omega

theorem Decodes.pure {b : ℕ} (a : α) :
    Decodes b b (pure a : Cursor α) fun p x => p = [] ∧ x = a where
  complete := by
    rintro p x rest ⟨rfl, rfl⟩ _
    rfl
  sound := by
    intro it x rest hb h
    simp only [run_pure, Except.ok.injEq, Prod.mk.injEq] at h
    obtain ⟨rfl, rfl⟩ := h
    exact ⟨hb, [], rfl, rfl, rfl⟩
  safe := by simp
  room := by simp

theorem Decodes.require {b : ℕ} (q : Prop) [Decidable q] :
    Decodes b b (require q) fun p (_ : Unit) => p = [] ∧ q where
  complete := by
    rintro p x rest ⟨rfl, hq⟩ _
    simp [Cursor.require, hq]
  sound := by
    intro it x rest hb h
    unfold Cursor.require at h
    split_ifs at h with hq
    simp only [Except.ok.injEq, Prod.mk.injEq] at h
    obtain ⟨-, rfl⟩ := h
    exact ⟨hb, [], rfl, rfl, hq⟩
  safe := by
    intro it _
    unfold Cursor.require
    split_ifs <;> simp
  room := by
    rintro p x ⟨rfl, -⟩
    simp

/-- The idiom `CHECK_END(k)` followed by copying `n` bytes. With `k = n` one
more byte must follow; with `k = n - 1` the copied bytes may be the last. -/
theorem Decodes.checkedTake {b a n k : ℕ} (hk : k + 1 = n + a) (hb : b ≤ n + a) :
    Decodes b a (checkedTake k n) fun p x => p.length = n ∧ x = p where
  complete := by
    rintro p x rest ⟨rfl, rfl⟩ hr
    have h₁ : k < (x ++ rest).length := by
      simp only [List.length_append]
      omega
    have h₂ : x.length ≤ (x ++ rest).length := by simp
    rw [Cursor.checkedTake, run_bind, checkEnd_ok h₁]
    simp only [Except.bind, take_ok h₂, List.take_left, List.drop_left]
  sound := by
    intro it x rest _ h
    rw [Cursor.checkedTake, run_bind] at h
    rcases Nat.lt_or_ge k it.length with hk' | hk'
    · have hn : n ≤ it.length := by omega
      simp only [checkEnd_ok hk', Except.bind, take_ok hn, Except.ok.injEq,
        Prod.mk.injEq] at h
      obtain ⟨rfl, rfl⟩ := h
      refine ⟨by rw [List.length_drop]; omega, it.take n,
        (List.take_append_drop n it).symm, ?_, rfl⟩
      rw [List.length_take]
      omega
    · simp [checkEnd_refuse hk', Except.bind] at h
  safe := by
    intro it _
    rw [Cursor.checkedTake, run_bind]
    rcases Nat.lt_or_ge k it.length with hk' | hk'
    · have hn : n ≤ it.length := by omega
      simp [checkEnd_ok hk', Except.bind, take_ok hn]
    · simp [checkEnd_refuse hk', Except.bind]
  room := by
    rintro p x ⟨hp, -⟩
    omega

theorem Decodes.map {b a : ℕ} {c : Cursor α} {E : List UInt8 → α → Prop}
    (hc : Decodes b a c E) (f : α → β) :
    Decodes b a (do let x ← c; Pure.pure (f x)) fun p y => ∃ x, E p x ∧ y = f x := by
  refine (hc.bind fun x => Decodes.pure (b := a) (f x)).congr fun p y => ?_
  constructor
  · rintro ⟨p, q, x, rfl, hE, rfl, rfl⟩
    exact ⟨x, by simpa using hE, rfl⟩
  · rintro ⟨x, hE, rfl⟩
    exact ⟨p, [], x, by simp, hE, rfl, rfl⟩

/-- `CHECK_END(k)` followed by an extraction that copies `n` bytes. -/
theorem Decodes.checkedRead {b a n k : ℕ} (hk : k + 1 = n + a) (hb : b ≤ n + a)
    (f : List UInt8 → α) :
    Decodes b a (do checkEnd k; let x ← take n; Pure.pure (f x))
      fun p y => p.length = n ∧ y = f p := by
  have h := (Decodes.checkedTake hk hb).map f
  rw [Cursor.checkedTake, bind_assoc] at h
  refine h.congr fun p y => ?_
  constructor
  · rintro ⟨x, ⟨hp, rfl⟩, rfl⟩
    exact ⟨hp, rfl⟩
  · rintro ⟨hp, rfl⟩
    exact ⟨p, ⟨hp, rfl⟩, rfl⟩

/-- Consecutive encodings of the elements of a list, by loop counter. -/
inductive Repeats (E : ℕ → List UInt8 → α → Prop) : ℕ → List UInt8 → List α → Prop
  | nil (i : ℕ) : Repeats E i [] []
  | cons {i : ℕ} {p q : List UInt8} {a : α} {as : List α} :
      E i p a → Repeats E (i + 1) q as → Repeats E i (p ++ q) (a :: as)

theorem Repeats.getElem? {E : ℕ → List UInt8 → α → Prop} {i : ℕ} {p : List UInt8}
    {as : List α} (h : Repeats E i p as) {j : ℕ} {a : α} (ha : as[j]? = some a) :
    ∃ q, E (i + j) q a := by
  induction h generalizing j with
  | nil => simp at ha
  | @cons i p q b bs hE _ ih =>
      cases j with
      | zero =>
          obtain rfl : b = a := by simpa using ha
          exact ⟨p, hE⟩
      | succ j =>
          obtain ⟨q, hq⟩ := ih (by simpa using ha)
          exact ⟨q, by rwa [Nat.add_right_comm, Nat.add_assoc] at hq⟩

/-- Elements written one after the other. -/
theorem Repeats.flatMap {E : ℕ → List UInt8 → β → Prop} {enc : α → List UInt8} {f : ℕ → α → β}
    {as : List α} (h : ∀ i, ∀ a ∈ as, E i (enc a) (f i a)) (i : ℕ) :
    Repeats E i (as.flatMap enc) (as.mapIdx fun j a => f (i + j) a) := by
  induction as generalizing i with
  | nil => exact .nil i
  | cons a as ih =>
      rw [List.flatMap_cons, List.mapIdx_cons]
      refine .cons (h i a List.mem_cons_self) ?_
      have hrec := ih (fun j b hb => h j b (List.mem_cons_of_mem _ hb)) (i + 1)
      simpa only [Nat.add_right_comm, Nat.add_assoc] using hrec

/-- Elements that determine their encodings. -/
theorem Repeats.eq_flatMap {E : ℕ → List UInt8 → α → Prop} {enc : α → List UInt8} {i : ℕ}
    {p : List UInt8} {as : List α} (hr : Repeats E i p as)
    (h : ∀ i p a, E i p a → p = enc a) : p = as.flatMap enc := by
  induction hr with
  | nil i => rfl
  | cons hE _ ih => rw [List.flatMap_cons, ← ih, h _ _ _ hE]

/-- Elements that are images of uniformly encoded ones. -/
theorem Repeats.iff_mapIdx {E : ℕ → List UInt8 → β → Prop} {W : List UInt8 → α → Prop}
    {g : ℕ → α → β} (h : ∀ i p b, E i p b ↔ ∃ a, W p a ∧ b = g i a) {i : ℕ} {p : List UInt8}
    {bs : List β} : Repeats E i p bs ↔
      ∃ as, Repeats (fun _ => W) i p as ∧ bs = as.mapIdx fun j a => g (i + j) a := by
  have hshift : ∀ (i : ℕ) (as : List α), (as.mapIdx fun j a => g (i + (j + 1)) a) =
      as.mapIdx fun j a => g (i + 1 + j) a := fun i as => by
    simp only [Nat.add_right_comm, Nat.add_assoc]
  constructor
  · intro hr
    induction hr with
    | nil i => exact ⟨[], .nil i, rfl⟩
    | @cons i p q b bs hE _ ih =>
        obtain ⟨a, hW, rfl⟩ := (h i p b).mp hE
        obtain ⟨as, has, rfl⟩ := ih
        exact ⟨a :: as, .cons hW has, by rw [List.mapIdx_cons, hshift]; rfl⟩
  · rintro ⟨as, has, rfl⟩
    induction has with
    | nil i => exact .nil i
    | @cons i p q a as hW _ ih =>
        rw [List.mapIdx_cons, hshift]
        exact .cons ((h i p _).mpr ⟨a, hW, rfl⟩) ih

/-- The same bytes under another relation. -/
theorem Repeats.exists_forall₂ {E : ℕ → List UInt8 → α → Prop} {F : ℕ → List UInt8 → β → Prop}
    {R : α → β → Prop} {i : ℕ} {p : List UInt8} {as : List α} (hr : Repeats E i p as)
    (h : ∀ i p a, E i p a → ∃ b, F i p b ∧ R a b) :
    ∃ bs, Repeats F i p bs ∧ List.Forall₂ R as bs := by
  induction hr with
  | nil i => exact ⟨[], .nil i, .nil⟩
  | cons hE _ ih =>
      obtain ⟨b, hF, hR⟩ := h _ _ _ hE
      obtain ⟨bs, hbs, hall⟩ := ih
      exact ⟨b :: bs, .cons hF hbs, .cons hR hall⟩

theorem Decodes.loop {b : ℕ} {body : ℕ → Cursor α} {E : ℕ → List UInt8 → α → Prop}
    (h : ∀ i, Decodes b b (body i) (E i)) (n i : ℕ) :
    Decodes b b (loop body i n) fun p as => as.length = n ∧ Repeats E i p as := by
  induction n generalizing i with
  | zero =>
      refine (Decodes.pure (b := b) ([] : List α)).congr fun p as => ?_
      constructor
      · rintro ⟨rfl, rfl⟩
        exact ⟨rfl, .nil i⟩
      · rintro ⟨hn, hr⟩
        cases hr with
        | nil => exact ⟨rfl, rfl⟩
        | cons => simp at hn
  | succ n ih =>
      refine ((h i).bind fun a => (ih (i + 1)).map fun as => a :: as).congr fun p as => ?_
      constructor
      · rintro ⟨p, q, a, rfl, hE, as', ⟨hn, hr⟩, rfl⟩
        exact ⟨by simp [hn], .cons hE hr⟩
      · rintro ⟨hn, hr⟩
        cases hr with
        | nil => simp at hn
        | cons hE hr => exact ⟨_, _, _, rfl, hE, _, ⟨by simpa using hn, hr⟩, rfl⟩

/-- A contract determines the program on every buffer that starts with an
encoding, so the encoding is the only one that is a prefix of the buffer. -/
theorem Decodes.unique {b : ℕ} {c : Cursor α} {E : List UInt8 → α → Prop}
    (h : Decodes b 0 c E) {p q r s : List UInt8} {x y : α} (hp : E p x) (hq : E q y)
    (hb : p ++ r = q ++ s) : p = q ∧ x = y := by
  have h₁ := h.complete p x r hp (Nat.zero_le _)
  have h₂ := h.complete q y s hq (Nat.zero_le _)
  rw [hb, h₂] at h₁
  simp only [Except.ok.injEq, Prod.mk.injEq] at h₁
  obtain ⟨rfl, rfl⟩ := h₁
  exact ⟨List.append_cancel_right hb, rfl⟩

end SlpGraphSearch.Library
