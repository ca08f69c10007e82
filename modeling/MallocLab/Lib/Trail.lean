/-
Programs that leave a trail: a state-passing program that may stop, and
beside its result the list of the events it came past. The trail is only
written, so what the program does is the program without it (`erase`).

A program of interest is instrumented by writing it once more with
`mark` at the steps of interest. That the text is the same program is an
equation about `erase`, proved construct by construct; what is then said
about `events` is said about every run of the original.
-/
import Mathlib.Data.List.Basic

namespace MallocLab.Tracing

variable {ε σ ω α β : Type}

/-- A program with results in `α` that leaves events in `ω`. -/
def Trail (ε σ ω α : Type) : Type := σ → EStateM.Result ε σ α × List ω

/-- The program without its trail. -/
def erase (x : Trail ε σ ω α) : EStateM ε σ α := fun s => (x s).1

/-- The events of the run from `s`, in order, whether it returns or
stops. -/
def events (x : Trail ε σ ω α) (s : σ) : List ω := (x s).2

/-- Do `x`, then `f`, and put the trails one behind the other. -/
def bind (x : Trail ε σ ω α) (f : α → Trail ε σ ω β) : Trail ε σ ω β :=
  fun s => match x s with
    | (.ok a s', es) => ((f a s').1, es ++ (f a s').2)
    | (.error e s', es) => (.error e s', es)

/-- A program that leaves no trail. -/
def silent (x : EStateM ε σ α) : Trail ε σ ω α := fun s => (x s, [])

/-- Leave the event `f` makes of the state, then do `x`. -/
def mark (f : σ → ω) (x : EStateM ε σ α) : Trail ε σ ω α :=
  fun s => (x s, [f s])

instance : Monad (Trail ε σ ω) where
  pure a := silent (pure a)
  bind := bind

instance : MonadLift (EStateM ε σ) (Trail ε σ ω) where
  monadLift := silent

-- ========================================================= without the trail

@[simp] theorem erase_pure (a : α) :
    erase (pure a : Trail ε σ ω α) = pure a := funext fun _ => rfl

@[simp] theorem erase_silent (x : EStateM ε σ α) :
    erase (liftM x : Trail ε σ ω α) = x := funext fun _ => rfl

@[simp] theorem erase_mark (f : σ → ω) (x : EStateM ε σ α) :
    erase (mark f x) = x := funext fun _ => rfl

@[simp] theorem erase_bind (x : Trail ε σ ω α) (f : α → Trail ε σ ω β) :
    erase (x >>= f) = erase x >>= fun a => erase (f a) := by
  funext s
  show (bind x f s).1 = EStateM.bind (erase x) (fun a => erase (f a)) s
  unfold bind EStateM.bind erase
  cases hx : x s with
  | mk r es =>
      cases r with
      | ok a s' => rfl
      | error e s' => rfl

@[simp] theorem erase_ite (c : Prop) [Decidable c] (x y : Trail ε σ ω α) :
    erase (if c then x else y) = if c then erase x else erase y := by
  split <;> rfl

-- ================================================================ the trail

@[simp] theorem events_pure (a : α) (s : σ) :
    events (pure a : Trail ε σ ω α) s = [] := rfl

@[simp] theorem events_silent (x : EStateM ε σ α) (s : σ) :
    events (liftM x : Trail ε σ ω α) s = [] := rfl

@[simp] theorem events_mark (f : σ → ω) (x : EStateM ε σ α) (s : σ) :
    events (mark f x) s = [f s] := rfl

/-- Behind a program that returns, the trail goes on. -/
theorem events_bind {x : Trail ε σ ω α} {s s' : σ} {a : α}
    (h : (erase x).run s = .ok a s') (f : α → Trail ε σ ω β) :
    events (x >>= f) s = events x s ++ events (f a) s' := by
  show (bind x f s).2 = (x s).2 ++ (f a s').2
  have hx : (x s).1 = .ok a s' := h
  unfold bind
  cases hxs : x s with
  | mk r es =>
      rw [hxs] at hx
      dsimp only at hx
      rw [hx]

/-- Behind a silent program that returns, there is only what follows. -/
theorem events_step {x : EStateM ε σ α} {s s' : σ} {a : α}
    (h : x.run s = .ok a s') (f : α → Trail ε σ ω β) :
    events (liftM x >>= f) s = events (f a) s' :=
  (events_bind (x := liftM x) h f).trans (List.nil_append _)

/-- Where a program stops, the trail ends. -/
theorem events_stop {x : Trail ε σ ω α} {s s' : σ} {e : ε}
    (h : (erase x).run s = .error e s') (f : α → Trail ε σ ω β) :
    events (x >>= f) s = events x s := by
  show (bind x f s).2 = (x s).2
  have hx : (x s).1 = .error e s' := h
  unfold bind
  cases hxs : x s with
  | mk r es =>
      rw [hxs] at hx
      dsimp only at hx
      rw [hx]

-- ==================================================== what all events are

/-- Every event of the run from `s` is in `P`. -/
def All (P : ω → Prop) (x : Trail ε σ ω α) (s : σ) : Prop :=
  ∀ e ∈ events x s, P e

variable {P : ω → Prop}

theorem all_silent (x : EStateM ε σ α) (s : σ) :
    All P (liftM x : Trail ε σ ω α) s :=
  fun _ h => absurd h List.not_mem_nil

theorem all_pure (a : α) (s : σ) : All P (pure a : Trail ε σ ω α) s :=
  fun _ h => absurd h List.not_mem_nil

theorem all_mark {f : σ → ω} {s : σ} (h : P (f s)) (x : EStateM ε σ α) :
    All P (mark f x) s := by
  intro e he
  rw [List.mem_singleton.1 he]
  exact h

/-- No event is in no set. -/
theorem events_nil {x : Trail ε σ ω α} {s : σ}
    (h : All (fun _ => False) x s) : events x s = [] :=
  List.eq_nil_iff_forall_not_mem.2 h

/-- A sequence whose second part leaves none. -/
theorem events_only {x : Trail ε σ ω α} {f : α → Trail ε σ ω β} {s : σ}
    (h : ∀ a s', All (fun _ => False) (f a) s') :
    events (x >>= f) s = events x s := by
  cases hrun : (erase x).run s with
  | ok a s' => rw [events_bind hrun, events_nil (h a s'), List.append_nil]
  | error e s' => exact events_stop hrun f

/-- A sequence, by its parts: the second from where the first returns. -/
theorem all_bind {x : Trail ε σ ω α} {f : α → Trail ε σ ω β} {s : σ}
    (hx : All P x s)
    (hf : ∀ a s', (erase x).run s = .ok a s' → All P (f a) s') :
    All P (x >>= f) s := by
  intro e he
  cases hrun : (erase x).run s with
  | ok a s' =>
      rw [events_bind hrun] at he
      rcases List.mem_append.1 he with he | he
      · exact hx e he
      · exact hf a s' hrun e he
  | error e' s' =>
      rw [events_stop hrun] at he
      exact hx e he

/-- A sequence that starts with a silent program. -/
theorem all_step {x : EStateM ε σ α} {f : α → Trail ε σ ω β} {s : σ}
    (hf : ∀ a s', x.run s = .ok a s' → All P (f a) s') :
    All P (liftM x >>= f) s :=
  all_bind (all_silent x s) hf

/-- A sequence whose first part returns. -/
theorem all_next {x : Trail ε σ ω α} {f : α → Trail ε σ ω β} {s s' : σ}
    {a : α} (hx : All P x s) (h : (erase x).run s = .ok a s')
    (hf : All P (f a) s') : All P (x >>= f) s := by
  refine all_bind hx fun b t hb => ?_
  injection h.symm.trans hb with ha ht
  rw [← ha, ← ht]
  exact hf

/-- A sequence that starts with a silent program that returns. -/
theorem all_after {x : EStateM ε σ α} {f : α → Trail ε σ ω β} {s s' : σ}
    {a : α} (h : x.run s = .ok a s') (hf : All P (f a) s') :
    All P (liftM x >>= f) s :=
  all_next (all_silent x s) h hf

/-- A choice, by its branches. -/
theorem all_ite {c : Prop} [Decidable c] {x y : Trail ε σ ω α} {s : σ}
    (ht : c → All P x s) (he : ¬ c → All P y s) :
    All P (if c then x else y) s := by
  by_cases h : c
  · rw [if_pos h]
    exact ht h
  · rw [if_neg h]
    exact he h

end MallocLab.Tracing
