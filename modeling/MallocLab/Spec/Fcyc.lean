/-
What fcyc.c takes for the time of a function: the least of its readings,
of which it takes as few as are enough.
-/
import MallocLab.Model.Fcyc

namespace MallocLab.Spec

open Model

variable {α ε σ : Type} [LinearOrder α]

/-- The `kbest` least readings are within the tolerance. -/
def Close (q : Fcyc α) (xs : List α) : Prop :=
  ∃ lo hi, (xs.mergeSort (· ≤ ·))[0]? = some lo ∧
    (xs.mergeSort (· ≤ ·))[q.kbest - 1]? = some hi ∧ q.within lo hi

/-- No further reading is called for. -/
def Enough (q : Fcyc α) (xs : List α) : Prop :=
  Close q xs ∨ q.maxsamples ≤ xs.length

/-- One reading after the other, the last one first, each called for by
those before it. -/
inductive Sampled (q : Fcyc α) (measure : EStateM ε σ α) (s : σ) :
    List α → σ → Prop
  | start : Sampled q measure s [] s
  | take {x xs s₁ s₂} : Sampled q measure s xs s₁ →
      (xs ≠ [] → ¬ Enough q xs) → measure.run s₁ = .ok x s₂ →
      Sampled q measure s (x :: xs) s₂

end MallocLab.Spec
