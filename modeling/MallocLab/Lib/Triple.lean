/-
Programs that pass a state and may stop, and what is known when they
return. `Triple P x Q` is partial correctness: from a state of `P`, if
`x` returns, its result and the state it leaves are in `Q`. A program
that stops satisfies every triple.

`Reads E x` is about programs that only look: up to the equivalence `E`
of states, `x` changes nothing and its result does not depend on the
state's representative. What such a program returns is then a property
of the state (`Gives`), and a sequence of them returns what its parts
return one by one (`gives_bind`), each from the state at the start.
-/
import Mathlib.Logic.Basic

namespace MallocLab.Hoare

variable {ε σ α β : Type}

-- ============================================================ what returns

theorem returns_pure {a b : α} {s s' : σ} :
    (pure a : EStateM ε σ α).run s = .ok b s' ↔ a = b ∧ s = s' := by
  constructor
  · intro h
    cases h
    exact ⟨rfl, rfl⟩
  · rintro ⟨rfl, rfl⟩
    rfl

theorem returns_get {s s' t : σ} :
    (get : EStateM ε σ σ).run s = .ok t s' ↔ s = t ∧ s = s' :=
  returns_pure (a := s)

/-- A sequence returns when its parts do, one after the other. -/
theorem returns_bind {x : EStateM ε σ α} {f : α → EStateM ε σ β}
    {s s'' : σ} {b : β} : (x >>= f).run s = .ok b s'' ↔
      ∃ a s', x.run s = .ok a s' ∧ (f a).run s' = .ok b s'' := by
  change EStateM.bind x f s = _ ↔ ∃ a s', x s = _ ∧ _
  unfold EStateM.bind
  cases x s with
  | ok a s' =>
      constructor
      · intro h
        exact ⟨a, s', rfl, h⟩
      · rintro ⟨c, t, hc, h⟩
        cases hc
        exact h
  | error e s' =>
      constructor
      · intro h
        cases h
      · rintro ⟨c, t, hc, h⟩
        cases hc

/-- What a run returned, and what is read of the state it left. -/
def reads (f : σ → β) : EStateM.Result ε σ α → Option (α × β)
  | .ok a s => some (a, f s)
  | .error _ _ => none

theorem of_reads (f : σ → β) {r : EStateM.Result ε σ α} {a : α} {b : β}
    (h : reads f r = some (a, b)) : ∃ s, r = .ok a s ∧ f s = b := by
  cases r with
  | ok c s =>
      cases h
      exact ⟨s, rfl, rfl⟩
  | error e s => cases h

/-- A sequence runs its parts one after the other. -/
theorem run_bind (x : EStateM ε σ α) (f : α → EStateM ε σ β) (s : σ) :
    (x >>= f).run s = match x.run s with
      | .ok a s' => (f a).run s'
      | .error e s' => .error e s' := by
  show EStateM.bind x f s = _
  unfold EStateM.bind EStateM.run
  cases x s <;> rfl

/-- A program that returns hands its result on. -/
theorem bind_ok {x : EStateM ε σ α} {f : α → EStateM ε σ β}
    {s s' : σ} {a : α} (h : x.run s = .ok a s') :
    (x >>= f).run s = (f a).run s' := by
  rw [run_bind, h]

/-- A program that stops stops what follows. -/
theorem bind_error {x : EStateM ε σ α} {f : α → EStateM ε σ β}
    {s s' : σ} {e : ε} (h : x.run s = .error e s') :
    (x >>= f).run s = .error e s' := by
  rw [run_bind, h]

/-- If a sequence returns, both its parts do. -/
theorem bind_returns {x : EStateM ε σ α} {f : α → EStateM ε σ β}
    {s s'' : σ} {b : β} (h : (x >>= f).run s = .ok b s'') :
    ∃ a s', x.run s = .ok a s' ∧ (f a).run s' = .ok b s'' :=
  returns_bind.1 h

-- ================================================================== triples

/-- From a state of `P`, if `x` returns, then in `Q`. -/
def Triple (P : σ → Prop) (x : EStateM ε σ α) (Q : α → σ → Prop) : Prop :=
  ∀ s a s', P s → x.run s = .ok a s' → Q a s'

/-- A sequence, by what holds between its parts. -/
theorem Triple.bind {P : σ → Prop} {Q : α → σ → Prop} {T : β → σ → Prop}
    {x : EStateM ε σ α} {f : α → EStateM ε σ β} (hx : Triple P x Q)
    (hf : ∀ a, Triple (Q a) (f a) T) : Triple P (x >>= f) T := by
  intro s b s'' hP hrun
  obtain ⟨a, s', h₁, h₂⟩ := bind_returns hrun
  exact hf a s' b s'' (hx s a s' hP h₁) h₂

theorem Triple.pure {P : σ → Prop} {Q : α → σ → Prop} {a : α}
    (h : ∀ s, P s → Q a s) : Triple P (pure a : EStateM ε σ α) Q := by
  intro s b s' hP hrun
  cases hrun
  exact h s hP

theorem Triple.throw {P : σ → Prop} {Q : α → σ → Prop} (e : ε) :
    Triple P (throw e : EStateM ε σ α) Q := by
  intro s a s' _ hrun
  cases hrun

theorem Triple.modify {P : σ → Prop} {Q : PUnit → σ → Prop} {g : σ → σ}
    (h : ∀ s, P s → Q ⟨⟩ (g s)) :
    Triple P (modify g : EStateM ε σ PUnit) Q := by
  intro s a s' hP hrun
  cases hrun
  exact h s hP

/-- What does not speak of the state may be assumed outside. -/
theorem Triple.given {P : σ → Prop} {Q : α → σ → Prop} {c : Prop}
    {x : EStateM ε σ α} (h : c → Triple P x Q) :
    Triple (fun s => c ∧ P s) x Q := by
  intro s a s' hs hrun
  exact h hs.1 s a s' hs.2 hrun

/-- Less may be assumed and more concluded. -/
theorem Triple.mono {P P' : σ → Prop} {Q Q' : α → σ → Prop}
    {x : EStateM ε σ α} (h : Triple P x Q) (hP : ∀ s, P' s → P s)
    (hQ : ∀ a s, Q a s → Q' a s) : Triple P' x Q' := by
  intro s a s' hs hrun
  exact hQ a s' (h s a s' (hP s hs) hrun)

-- ================================================================== readers

/-- Up to `E`, `x` changes nothing, and returns the same from alike
states. -/
def Reads (E : σ → σ → Prop) (x : EStateM ε σ α) : Prop :=
  ∀ s t, E s t → ∀ a s', x.run s = .ok a s' →
    E s s' ∧ ∃ t', x.run t = .ok a t'

/-- From `s`, `x` returns `a`. -/
def Gives (s : σ) (x : EStateM ε σ α) (a : α) : Prop :=
  ∃ s', x.run s = .ok a s'

variable {E : σ → σ → Prop}

theorem Gives.unique {s : σ} {x : EStateM ε σ α} {a b : α}
    (h : Gives s x a) (h' : Gives s x b) : a = b := by
  obtain ⟨s', h⟩ := h
  obtain ⟨s'', h'⟩ := h'
  cases h.symm.trans h'
  rfl

theorem Reads.pure (hE : Equivalence E) (a : α) :
    Reads E (pure a : EStateM ε σ α) := by
  intro s t _ b s' hrun
  cases hrun
  exact ⟨hE.refl s, t, rfl⟩

/-- Readers one after the other are a reader. -/
theorem Reads.bind (hE : Equivalence E) {x : EStateM ε σ α}
    {f : α → EStateM ε σ β} (hx : Reads E x) (hf : ∀ a, Reads E (f a)) :
    Reads E (x >>= f) := by
  intro s t hst b s₂ hrun
  obtain ⟨a, s₁, h₁, h₂⟩ := bind_returns hrun
  obtain ⟨hs₁, t₁, ht⟩ := hx s t hst a s₁ h₁
  have ht₁ := (hx t t (hE.refl t) a t₁ ht).1
  have halike : E s₁ t₁ := hE.trans (hE.symm hs₁) (hE.trans hst ht₁)
  obtain ⟨hs₂, t₂, ht'⟩ := hf a s₁ t₁ halike b s₂ h₂
  refine ⟨hE.trans hs₁ hs₂, t₂, ?_⟩
  change EStateM.bind x f t = _
  unfold EStateM.bind
  rw [show x t = .ok a t₁ from ht]
  exact ht'

/-- And what they return from the start, the sequence returns. -/
theorem Gives.bind (hE : Equivalence E) {x : EStateM ε σ α}
    {f : α → EStateM ε σ β} (hx : Reads E x) (hf : ∀ a, Reads E (f a))
    {s : σ} {a : α} {b : β} (h : Gives s x a) (h' : Gives s (f a) b) :
    Gives s (x >>= f) b := by
  obtain ⟨s₁, h₁⟩ := h
  obtain ⟨s₂, h₂⟩ := h'
  have halike := (hx s s (hE.refl s) a s₁ h₁).1
  obtain ⟨-, t, ht⟩ := hf a s s₁ halike b s₂ h₂
  refine ⟨t, ?_⟩
  change EStateM.bind x f s = _
  unfold EStateM.bind
  rw [show x s = .ok a s₁ from h₁]
  exact ht

/-- A reader keeps what does not depend on the representative. -/
theorem Reads.keeps (hE : Equivalence E) {x : EStateM ε σ α}
    (hx : Reads E x) {P : σ → Prop} (hP : ∀ s t, P s → E s t → P t) :
    Triple P x fun a s => P s ∧ Gives s x a := by
  intro s a s' hs hrun
  obtain ⟨hss', -⟩ := hx s s (hE.refl s) a s' hrun
  obtain ⟨-, t, ht⟩ := hx s s' hss' a s' hrun
  exact ⟨hP s s' hs hss', t, ht⟩

end MallocLab.Hoare
