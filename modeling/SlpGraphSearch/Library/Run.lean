import Mathlib.Data.List.Forall2
import Mathlib.Data.List.Induction
import Mathlib.Data.List.Infix

/-!
# Runs of a fallible step function

A run folds a step that may fail over a list of events. A property of states may
look at the events that led there. When one step decides the next state's property
by a condition on the state before it, the property holds in every state of a run
exactly if every step meets the condition.
-/
namespace SlpGraphSearch.Library

variable {σ ε φ : Type*}

theorem bind_eq_ok {α β : Type _} {x : Except φ α} {f : α → Except φ β} {b : β} :
    (x >>= f) = .ok b ↔ ∃ a, x = .ok a ∧ f a = .ok b := by
  cases x with
  | error e => simp [bind, Except.bind]
  | ok a => simp [bind, Except.bind]

/-- What a computation returns can be tested by running it. -/
instance decidableExistsOk {α : Type _} {x : Except φ α} {p : α → Prop} [DecidablePred p] :
    Decidable (∃ a, x = .ok a ∧ p a) :=
  match x with
  | .ok a => decidable_of_iff (p a) (by simp)
  | .error _ => .isFalse (by simp)

theorem mem_of_mapM_ok {α β : Type _} {f : α → Except φ β} {as : List α} {bs : List β}
    (h : as.mapM f = .ok bs) {b : β} (hb : b ∈ bs) : ∃ a ∈ as, f a = .ok b := by
  induction as generalizing bs with
  | nil =>
      rw [List.mapM_nil] at h
      rw [← Except.ok.inj h] at hb
      exact absurd hb List.not_mem_nil
  | cons a as ih =>
      simp only [List.mapM_cons, bind_eq_ok] at h
      obtain ⟨b₁, hb₁, bs₁, hbs₁, h⟩ := h
      rw [← Except.ok.inj h] at hb
      rcases List.mem_cons.mp hb with rfl | hb
      · exact ⟨a, List.mem_cons_self, hb₁⟩
      · obtain ⟨a', ha', hfa'⟩ := ih hbs₁ hb
        exact ⟨a', List.mem_cons_of_mem _ ha', hfa'⟩

theorem exists_mem_of_mapM_ok {α β : Type _} {f : α → Except φ β} {as : List α} {bs : List β}
    (h : as.mapM f = .ok bs) {a : α} (ha : a ∈ as) : ∃ b ∈ bs, f a = .ok b := by
  induction as generalizing bs with
  | nil => exact absurd ha List.not_mem_nil
  | cons a₁ as ih =>
      simp only [List.mapM_cons, bind_eq_ok] at h
      obtain ⟨b₁, hb₁, bs₁, hbs₁, h⟩ := h
      rw [← Except.ok.inj h]
      rcases List.mem_cons.mp ha with rfl | ha
      · exact ⟨b₁, List.mem_cons_self, hb₁⟩
      · obtain ⟨b, hb, hab⟩ := ih hbs₁ ha
        exact ⟨b, List.mem_cons_of_mem _ hb, hab⟩

theorem exists_ok_of_mapM_ok {α β : Type _} {f : α → Except φ β} {as : List α} {bs : List β}
    (h : as.mapM f = .ok bs) {a : α} (ha : a ∈ as) : ∃ b, f a = .ok b := by
  obtain ⟨b, -, hb⟩ := exists_mem_of_mapM_ok h ha
  exact ⟨b, hb⟩

theorem mapM_ok {α β : Type _} {f : α → Except φ β} {as : List α} (h : ∀ a ∈ as, ∃ b, f a = .ok b) :
    ∃ bs, as.mapM f = .ok bs := by
  induction as with
  | nil => exact ⟨[], rfl⟩
  | cons a as ih =>
      obtain ⟨b, hb⟩ := h a List.mem_cons_self
      obtain ⟨bs, hbs⟩ := ih fun a' ha' => h a' (List.mem_cons_of_mem _ ha')
      exact ⟨b :: bs, by rw [List.mapM_cons, hb, hbs]; rfl⟩

theorem mapM_ok_iff {α β : Type _} {f : α → Except φ β} {as : List α} :
    (∃ bs, as.mapM f = .ok bs) ↔ ∀ a ∈ as, ∃ b, f a = .ok b := by
  constructor
  · intro h a ha
    obtain ⟨bs, hbs⟩ := h
    exact exists_ok_of_mapM_ok hbs ha
  · exact mapM_ok

theorem mapM_eq_ok_iff {α β : Type _} {f : α → Except φ β} {as : List α} {bs : List β} :
    as.mapM f = .ok bs ↔ List.Forall₂ (fun a b => f a = .ok b) as bs := by
  induction as generalizing bs with
  | nil =>
      rw [List.mapM_nil, List.forall₂_nil_left_iff]
      exact ⟨fun h => (Except.ok.inj h).symm, fun h => h ▸ rfl⟩
  | cons a as ih =>
      simp only [List.mapM_cons, bind_eq_ok, List.forall₂_cons_left_iff, ih]
      constructor
      · intro h
        obtain ⟨b, hb, rest, hrest, h⟩ := h
        exact ⟨b, rest, hb, hrest, (Except.ok.inj h).symm⟩
      · intro h
        obtain ⟨b, rest, hb, hrest, rfl⟩ := h
        exact ⟨b, hb, rest, hrest, rfl⟩

/-- A list is converted as wanted exactly if each of its elements is. -/
theorem mapM_forall₂_iff {α β : Type _} {f : α → Except φ β} {R : α → β → Prop} {as : List α} :
    (∃ bs, as.mapM f = .ok bs ∧ List.Forall₂ R as bs) ↔ ∀ a ∈ as, ∃ b, f a = .ok b ∧ R a b := by
  induction as with
  | nil => exact iff_of_true ⟨[], rfl, .nil⟩ fun a ha => absurd ha List.not_mem_nil
  | cons a as ih =>
      rw [List.forall_mem_cons, ← ih]
      constructor
      · intro h
        obtain ⟨bs, hbs, hrelated⟩ := h
        simp only [List.mapM_cons, bind_eq_ok] at hbs
        obtain ⟨b, hb, rest, hrest, hcons⟩ := hbs
        rw [← Except.ok.inj hcons] at hrelated
        cases hrelated with
        | cons hhead htail => exact ⟨⟨b, hb, hhead⟩, rest, hrest, htail⟩
      · intro h
        obtain ⟨⟨b, hb, hhead⟩, rest, hrest, htail⟩ := h
        refine ⟨b :: rest, ?_, .cons hhead htail⟩
        rw [List.mapM_cons, hb, hrest]
        rfl

/-- The elements that a loop keeps are those that its test accepts. -/
theorem mem_foldlM_keep {α : Type _} {p : α → Except φ Bool} {as acc bs : List α}
    (h : as.foldlM (fun acc a => do .ok (if ← p a then acc ++ [a] else acc)) acc = .ok bs)
    {b : α} : b ∈ bs ↔ b ∈ acc ∨ b ∈ as ∧ p b = .ok true := by
  induction as generalizing acc with
  | nil =>
      rw [← Except.ok.inj h]
      simp
  | cons a as ih =>
      simp only [List.foldlM_cons, bind_eq_ok] at h
      obtain ⟨acc₁, ⟨kept, hkept, hacc⟩, hrest⟩ := h
      rw [ih hrest, ← Except.ok.inj hacc]
      cases kept with
      | true => grind
      | false => grind

theorem foldlM_keep_ok_iff {α : Type _} {p : α → Except φ Bool} {as acc : List α} :
    (∃ bs, as.foldlM (fun acc a => do .ok (if ← p a then acc ++ [a] else acc)) acc = .ok bs) ↔
      ∀ a ∈ as, ∃ kept, p a = .ok kept := by
  induction as generalizing acc with
  | nil => exact iff_of_true ⟨acc, rfl⟩ fun a ha => absurd ha List.not_mem_nil
  | cons a as ih =>
      simp only [List.foldlM_cons, bind_eq_ok, List.forall_mem_cons]
      constructor
      · intro h
        obtain ⟨bs, acc₁, ⟨kept, hkept, -⟩, hrest⟩ := h
        exact ⟨⟨kept, hkept⟩, ih.mp ⟨bs, hrest⟩⟩
      · intro h
        obtain ⟨⟨kept, hkept⟩, htail⟩ := h
        obtain ⟨bs, hbs⟩ := ih.mpr htail
        exact ⟨bs, _, ⟨kept, hkept, rfl⟩, hbs⟩

variable (step : σ → ε → Except φ σ)

/-- `P` holds in every state that a prefix of the run reaches. -/
def Always (P : List ε → σ → Prop) (s : σ) (events : List ε) : Prop :=
  ∀ past rest, events = past ++ rest → ∀ s₁, past.foldlM step s = .ok s₁ → P past s₁

/-- Every step that the run takes meets `C`. -/
def EveryStep (C : List ε → σ → ε → Prop) (s : σ) (events : List ε) : Prop :=
  ∀ past e rest, events = past ++ e :: rest → ∀ s₁ s₂, past.foldlM step s = .ok s₁ →
    step s₁ e = .ok s₂ → C past s₁ e

variable {step} {s : σ} {events : List ε}

theorem foldlM_concat {past : List ε} {e : ε} {s₂ : σ} :
    (past ++ [e]).foldlM step s = .ok s₂ ↔
      ∃ s₁, past.foldlM step s = .ok s₁ ∧ step s₁ e = .ok s₂ := by
  rw [List.foldlM_append, bind_eq_ok]
  refine exists_congr fun s₁ => and_congr_right fun _ => ?_
  simp [List.foldlM_cons, bind_eq_ok, pure, Except.pure]

/-- A run that gets through has taken every step. -/
theorem exists_step_ok {s' : σ} (h : events.foldlM step s = .ok s') {e : ε} (he : e ∈ events) :
    ∃ s₁ s₂, step s₁ e = .ok s₂ := by
  obtain ⟨past, rest, rfl⟩ := List.append_of_mem he
  simp only [List.foldlM_append, List.foldlM_cons, bind_eq_ok] at h
  obtain ⟨s₁, -, s₂, hs₂, -⟩ := h
  exact ⟨s₁, s₂, hs₂⟩

/-- What every step keeps, a run keeps. -/
theorem foldlM_inv {I : σ → Prop} {s' : σ}
    (hstep : ∀ s, ∀ e ∈ events, ∀ s', I s → step s e = .ok s' → I s') (hs : I s)
    (h : events.foldlM step s = .ok s') : I s' := by
  induction events generalizing s with
  | nil =>
      rw [List.foldlM_nil] at h
      exact Except.ok.inj h ▸ hs
  | cons e events ih =>
      rw [List.foldlM_cons, bind_eq_ok] at h
      obtain ⟨s₁, hfirst, h⟩ := h
      exact ih (fun s e' he' => hstep s e' (List.mem_cons_of_mem _ he'))
        (hstep s e List.mem_cons_self s₁ hs hfirst) h

/-- Where an invariant holds, a step succeeds exactly under `C`, so a run does exactly if `C`
holds of each event in the state that the events before it lead to. -/
theorem foldlM_ok_iff {I : σ → Prop} {C : σ → ε → Prop} (hs : I s)
    (hkeep : ∀ s, ∀ e ∈ events, ∀ s', I s → step s e = .ok s' → I s')
    (hstep : ∀ s, ∀ e ∈ events, I s → ((∃ s', step s e = .ok s') ↔ C s e)) :
    (∃ s', events.foldlM step s = .ok s') ↔
      ∀ past e rest s₁, events = past ++ e :: rest → past.foldlM step s = .ok s₁ → C s₁ e := by
  constructor
  · intro h past e rest s₁ hev hs₁
    obtain ⟨s', hs'⟩ := h
    have hmem : ∀ e' ∈ past, e' ∈ events := fun e' he' => hev ▸ List.mem_append_left _ he'
    have hI := foldlM_inv (fun s e' he' => hkeep s e' (hmem e' he')) hs hs₁
    rw [hev, List.foldlM_append, bind_eq_ok] at hs'
    obtain ⟨s₂, hs₂, hs'⟩ := hs'
    rw [hs₁, Except.ok.injEq] at hs₂
    rw [List.foldlM_cons, bind_eq_ok] at hs'
    obtain ⟨s₃, hs₃, -⟩ := hs'
    exact (hstep s₁ e (hev ▸ List.mem_append_right _ List.mem_cons_self) hI).mp ⟨s₃, hs₂ ▸ hs₃⟩
  · intro h
    induction events generalizing s with
    | nil => exact ⟨s, rfl⟩
    | cons e events ih =>
        have hfirst := h [] e events s rfl rfl
        obtain ⟨s₁, hs₁⟩ := (hstep s e List.mem_cons_self hs).mpr hfirst
        have hrun : ∀ past, (e :: past).foldlM step s = past.foldlM step s₁ := by
          intro past
          rw [List.foldlM_cons, hs₁]
          rfl
        rw [hrun]
        refine ih (hkeep s e List.mem_cons_self s₁ hs hs₁)
          (fun s' e' he' => hkeep s' e' (List.mem_cons_of_mem _ he'))
          (fun s' e' he' => hstep s' e' (List.mem_cons_of_mem _ he')) ?_
        intro past e' rest s₂ hev hs₂
        exact h (e :: past) e' rest s₂ (congrArg (e :: ·) hev) ((hrun past).trans hs₂)

/-- A property of one concrete run, checked prefix by prefix. -/
theorem Always.of_inits {P : List ε → σ → Prop}
    (h : ∀ past ∈ events.inits, ∃ s₁, past.foldlM step s = .ok s₁ ∧ P past s₁) :
    Always step P s events := by
  intro past rest hev s₁ hs₁
  obtain ⟨s₂, hs₂, hP⟩ := h past ((List.mem_inits past events).mpr ⟨rest, hev.symm⟩)
  rw [hs₁, Except.ok.injEq] at hs₂
  exact hs₂ ▸ hP

/-- A condition on the steps of one concrete run, checked at each position. -/
theorem EveryStep.of_take {C : List ε → σ → ε → Prop}
    (h : ∀ n < events.length, ∃ s₁, (events.take n).foldlM step s = .ok s₁ ∧
      ∀ e ∈ events[n]?, C (events.take n) s₁ e) : EveryStep step C s events := by
  intro past e rest hev s₁ s₂ hs₁ _
  obtain ⟨s₁', hs₁', hC⟩ := h past.length (by simp [hev])
  have htake : events.take past.length = past := by rw [hev, List.take_left]
  rw [htake] at hs₁' hC
  rw [hs₁, Except.ok.injEq] at hs₁'
  exact hs₁' ▸ hC e (by simp [hev])

theorem EveryStep.nil {C : List ε → σ → ε → Prop} : EveryStep step C s [] := by
  intro past e rest hev
  exact absurd hev.symm (by simp)

/-- A condition that ignores the past can be checked step by step. -/
theorem EveryStep.cons {C : σ → ε → Prop} {e : ε}
    (h : ∀ s₁, step s e = .ok s₁ → C s e ∧ EveryStep step (fun _ => C) s₁ events) :
    EveryStep step (fun _ => C) s (e :: events) := by
  intro past e' rest hev s₁ s₂ hs₁ hs₂
  cases past with
  | nil =>
      obtain ⟨rfl, rfl⟩ := List.cons.inj hev
      rw [List.foldlM_nil] at hs₁
      obtain rfl := Except.ok.inj hs₁
      exact (h s₂ hs₂).1
  | cons e₀ past =>
      obtain ⟨rfl, hrest⟩ := List.cons.inj hev
      rw [List.foldlM_cons, bind_eq_ok] at hs₁
      obtain ⟨s₀, hs₀, hs₁⟩ := hs₁
      exact (h s₀ hs₀).2 past e' rest hrest s₁ s₂ hs₁ hs₂

/-- A fold whose steps never fail does not fail. -/
theorem foldlM_ok (step : σ → ε → Except φ σ) (events : List ε)
    (h : ∀ s, ∀ e ∈ events, ∃ s', step s e = .ok s') (s : σ) :
    ∃ s', events.foldlM step s = .ok s' := by
  induction events generalizing s with
  | nil => exact ⟨s, rfl⟩
  | cons e events ih =>
      obtain ⟨s₁, hs₁⟩ := h s e List.mem_cons_self
      obtain ⟨s', hs'⟩ := ih (fun s e' he' => h s e' (List.mem_cons_of_mem _ he')) s₁
      exact ⟨s', by rw [List.foldlM_cons, hs₁]; exact hs'⟩

/-- What holds first and survives every step holds after every prefix. -/
theorem Always.of_step {P : List ε → σ → Prop} (h₀ : P [] s)
    (hstep : ∀ past e rest s₁ s₂, events = past ++ e :: rest → P past s₁ →
      past.foldlM step s = .ok s₁ → step s₁ e = .ok s₂ → P (past ++ [e]) s₂) :
    Always step P s events := by
  intro past
  induction past using List.reverseRecOn with
  | nil =>
      intro rest _ s₁ hs₁
      rw [List.foldlM_nil] at hs₁
      obtain rfl := Except.ok.inj hs₁
      exact h₀
  | append_singleton past e ih =>
      intro rest hev s₂ hs₂
      obtain ⟨s₁, hs₁, hlast⟩ := foldlM_concat.mp hs₂
      have hev' : events = past ++ e :: rest := by rw [hev, List.append_assoc]; rfl
      exact hstep past e rest s₁ s₂ hev' (ih _ hev' s₁ hs₁) hs₁ hlast

/-- A run gets through if every step does from where the invariant holds, and the
invariant survives the steps that meet the condition. -/
theorem EveryStep.run_ok {I : List ε → σ → Prop} {C : List ε → σ → ε → Prop}
    (h : EveryStep step C s events) (hI₀ : I [] s)
    (hstep : ∀ past e rest s₁, events = past ++ e :: rest → I past s₁ →
      past.foldlM step s = .ok s₁ →
      ∃ s₂, step s₁ e = .ok s₂ ∧ (C past s₁ e → I (past ++ [e]) s₂)) :
    ∃ s', events.foldlM step s = .ok s' := by
  have hall : ∀ past rest, events = past ++ rest →
      ∃ s₁, past.foldlM step s = .ok s₁ ∧ I past s₁ := by
    intro past
    induction past using List.reverseRecOn with
    | nil => exact fun rest _ => ⟨s, rfl, hI₀⟩
    | append_singleton past e ih =>
        intro rest hev
        have hev' : events = past ++ e :: rest := by rw [hev, List.append_assoc]; rfl
        obtain ⟨s₁, hs₁, hI⟩ := ih _ hev'
        obtain ⟨s₂, hs₂, hnext⟩ := hstep past e rest s₁ hev' hI hs₁
        exact ⟨s₂, foldlM_concat.mpr ⟨s₁, hs₁, hs₂⟩, hnext (h past e rest hev' s₁ s₂ hs₁ hs₂)⟩
  obtain ⟨s', hs', -⟩ := hall events [] (List.append_nil _).symm
  exact ⟨s', hs'⟩

/-- The property holds throughout exactly if every step meets the condition, when an
invariant that the condition keeps makes the two agree on each step. -/
theorem always_iff_everyStep_of_inv {I P : List ε → σ → Prop} {C : List ε → σ → ε → Prop}
    (hI₀ : I [] s) (hIP : ∀ past s₁, I past s₁ → P past s₁)
    (hstep : ∀ past e rest s₁ s₂, events = past ++ e :: rest → I past s₁ →
      past.foldlM step s = .ok s₁ → step s₁ e = .ok s₂ →
      (P (past ++ [e]) s₂ → C past s₁ e) ∧ (C past s₁ e → I (past ++ [e]) s₂)) :
    Always step P s events ↔ EveryStep step C s events := by
  constructor
  · intro h
    have hnext : ∀ past e rest s₁ s₂, events = past ++ e :: rest → past.foldlM step s = .ok s₁ →
        step s₁ e = .ok s₂ → P (past ++ [e]) s₂ := fun past e rest s₁ s₂ hev hs₁ hs₂ =>
      h (past ++ [e]) rest (by rw [hev, List.append_assoc]; rfl) s₂
        (foldlM_concat.mpr ⟨s₁, hs₁, hs₂⟩)
    have hI : Always step I s events := Always.of_step hI₀ fun past e rest s₁ s₂ hev hI hs₁ hs₂ =>
      have hboth := hstep past e rest s₁ s₂ hev hI hs₁ hs₂
      hboth.2 (hboth.1 (hnext past e rest s₁ s₂ hev hs₁ hs₂))
    exact fun past e rest hev s₁ s₂ hs₁ hs₂ =>
      (hstep past e rest s₁ s₂ hev (hI past _ hev s₁ hs₁) hs₁ hs₂).1
        (hnext past e rest s₁ s₂ hev hs₁ hs₂)
  · intro h
    have hI : Always step I s events := Always.of_step hI₀ fun past e rest s₁ s₂ hev hI hs₁ hs₂ =>
      (hstep past e rest s₁ s₂ hev hI hs₁ hs₂).2 (h past e rest hev s₁ s₂ hs₁ hs₂)
    exact fun past rest hev s₁ hs₁ => hIP past s₁ (hI past rest hev s₁ hs₁)

/-- The property holds throughout exactly if every step meets the condition. -/
theorem always_iff_everyStep {P : List ε → σ → Prop} {C : List ε → σ → ε → Prop} (h₀ : P [] s)
    (hstep : ∀ past e rest s₁ s₂, events = past ++ e :: rest → P past s₁ →
      past.foldlM step s = .ok s₁ → step s₁ e = .ok s₂ → (P (past ++ [e]) s₂ ↔ C past s₁ e)) :
    Always step P s events ↔ EveryStep step C s events :=
  always_iff_everyStep_of_inv h₀ (fun _ _ => id) fun past e rest s₁ s₂ hev hP hs₁ hs₂ =>
    ⟨(hstep past e rest s₁ s₂ hev hP hs₁ hs₂).mp, (hstep past e rest s₁ s₂ hev hP hs₁ hs₂).mpr⟩

end SlpGraphSearch.Library
