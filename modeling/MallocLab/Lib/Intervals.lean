/-
Intervals of numbers that do not meet, and how much room they take: the
lengths of intervals that lie within bounds and apart from each other
add up to no more than the bounds are apart.

The intervals are given by a list of anything with a start and a length,
so that a list of blocks or of payloads can be measured as it is.
-/
import Mathlib.Algebra.Ring.Nat
import Mathlib.Data.Finset.Union
import Mathlib.Order.Interval.Finset.Nat

namespace MallocLab.Intervals

variable {ι : Type} (start len : ι → Nat)

/-- Two intervals that do not meet. -/
def Apart (a b : ι) : Prop :=
  start a + len a ≤ start b ∨ start b + len b ≤ start a

/-- The numbers in the intervals of a list. -/
def cover : List ι → Finset Nat
  | [] => ∅
  | a :: l => Finset.Ico (start a) (start a + len a) ∪ cover l

variable {start len}

theorem mem_cover {l : List ι} {x : Nat} : x ∈ cover start len l ↔
    ∃ a ∈ l, start a ≤ x ∧ x < start a + len a := by
  induction l with
  | nil => simp [cover]
  | cons a l ih => simp [cover, ih]

/-- Intervals apart cover as many numbers as they are long together. -/
theorem card_cover {l : List ι} (h : l.Pairwise (Apart start len)) :
    (cover start len l).card = (l.map len).sum := by
  induction l with
  | nil => rfl
  | cons a l ih =>
      obtain ⟨ha, hl⟩ := List.pairwise_cons.1 h
      have hdisjoint : Disjoint (Finset.Ico (start a) (start a + len a))
          (cover start len l) := by
        refine Finset.disjoint_left.2 fun x hx hx' => ?_
        obtain ⟨hlo, hhi⟩ := Finset.mem_Ico.1 hx
        obtain ⟨b, hb, hblo, hbhi⟩ := mem_cover.1 hx'
        have hab : start a + len a ≤ start b ∨ start b + len b ≤ start a :=
          ha b hb
        omega
      rw [cover, Finset.card_union_of_disjoint hdisjoint, ih hl,
        Nat.card_Ico, List.map_cons, List.sum_cons,
        Nat.add_sub_cancel_left]

/-- Intervals apart between two bounds are no longer together than the
bounds are apart. -/
theorem sum_len_le {l : List ι} {lo hi : Nat}
    (h : l.Pairwise (Apart start len))
    (hin : ∀ a ∈ l, lo ≤ start a ∧ start a + len a ≤ hi) :
    (l.map len).sum ≤ hi - lo := by
  rw [← card_cover h, ← Nat.card_Ico]
  refine Finset.card_le_card fun x hx => ?_
  obtain ⟨a, ha, hlo, hhi⟩ := mem_cover.1 hx
  obtain ⟨hstart, hend⟩ := hin a ha
  exact Finset.mem_Ico.2 ⟨by omega, by omega⟩

end MallocLab.Intervals
