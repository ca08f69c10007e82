/-
fcyc.c, the timing package `fsecs` uses when it is built with a cycle
counter: run a function over and over, and take the least reading once
the least few are close together.

A `double` is a member of a linear order: no reading is a NaN. What is
done with one beyond comparing it, the test of `has_converged`, is a
parameter, and so is the counter, which is clock.c's assembly.
-/
import Mathlib.Order.Lattice
import Mathlib.Logic.Function.Basic

namespace MallocLab.Model

variable {α ε σ : Type} [LinearOrder α]

/-- The parameters of the package. -/
structure Fcyc (α : Type) where
  kbest : Nat
  maxsamples : Nat
  /-- `(1 + epsilon)*lo >= hi`. -/
  within : α → α → Bool
  compensate : Bool
  clearCache : Bool
  kbest_pos : 1 ≤ kbest

/-- The parameters `init_fsecs` sets. -/
def initFsecs (within : α → α → Bool) : Fcyc α :=
  ⟨3, 20, within, true, true, Nat.le_add_left 1 2⟩

/-- clock.c, and `clear`. -/
structure Counter (ε σ α : Type) where
  startCounter : EStateM ε σ Unit
  getCounter : EStateM ε σ α
  startCompCounter : EStateM ε σ Unit
  getCompCounter : EStateM ε σ α
  clear : EStateM ε σ Unit

/-- `values` and `samplecount`. -/
structure Sampler (α : Type) where
  values : Nat → α
  samplecount : Nat

/-- `init_sampler`. -/
def initSampler [Zero α] : Sampler α := ⟨fun _ => 0, 0⟩

/-- The insertion sort of `add_sample`, from `pos` down. -/
def insertion : Nat → (Nat → α) → Nat → α
  | 0, values => values
  | pos + 1, values =>
      if values pos > values (pos + 1) then
        let temp := values pos
        let values := Function.update values pos (values (pos + 1))
        insertion pos (Function.update values (pos + 1) temp)
      else values

/-- `add_sample`. -/
def addSample (q : Fcyc α) (s : Sampler α) (val : α) : Sampler α :=
  if s.samplecount < q.kbest then
    let pos := s.samplecount
    ⟨insertion pos (Function.update s.values pos val), s.samplecount + 1⟩
  else if val < s.values (q.kbest - 1) then
    let pos := q.kbest - 1
    ⟨insertion pos (Function.update s.values pos val), s.samplecount + 1⟩
  else ⟨s.values, s.samplecount + 1⟩

theorem addSample_samplecount {q : Fcyc α} {s : Sampler α} {val : α} :
    (addSample q s val).samplecount = s.samplecount + 1 := by
  unfold addSample
  split
  · rfl
  · split
    · rfl
    · rfl

/-- `has_converged`. -/
def hasConverged (q : Fcyc α) (s : Sampler α) : Bool :=
  decide (q.kbest ≤ s.samplecount) &&
    q.within (s.values 0) (s.values (q.kbest - 1))

/-- A reading of the counter over a run of `f`. The two loops of `fcyc`
differ in the counter they read. -/
def reading (q : Fcyc α) (clock : Counter ε σ α) (f : EStateM ε σ Unit) :
    EStateM ε σ α := do
  if q.clearCache then clock.clear
  if q.compensate then
    clock.startCompCounter
    f
    clock.getCompCounter
  else
    clock.startCounter
    f
    clock.getCounter

/-- The loop of `fcyc`, whose samples `measure` takes. -/
def sampling (q : Fcyc α) (measure : EStateM ε σ α) (s : Sampler α) :
    EStateM ε σ (Sampler α) := do
  let cyc ← measure
  let next := addSample q s cyc
  if ¬ hasConverged q next ∧ next.samplecount < q.maxsamples then
    sampling q measure next
  else return next
termination_by q.maxsamples - s.samplecount
decreasing_by
  rename_i h
  have hlt : (addSample q s cyc).samplecount < q.maxsamples := h.2
  rw [addSample_samplecount] at hlt ⊢
  omega

/-- `fcyc`. -/
def fcyc [Zero α] (q : Fcyc α) (clock : Counter ε σ α)
    (f : EStateM ε σ Unit) : EStateM ε σ α := do
  let s ← sampling q (reading q clock f) initSampler
  return s.values 0

end MallocLab.Model
