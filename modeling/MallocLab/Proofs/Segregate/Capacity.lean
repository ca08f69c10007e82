/-
Does a block of the segregated allocator have the size that was asked
for? For sizes an `int` can hold with their tags, the block a live
allocation is in has its size in every state that is stood for. The
sizes beyond are about the conversions: no block of the heap is that
large, so the call comes to `extend_heap`, which is asked for the size
cut to an `int`. If that extension is refused, the call returns null; a
resize copies to null first and does not return at all.
-/
import MallocLab.Proofs.Reads
import MallocLab.Proofs.Segregate.SlotZero

namespace MallocLab.Proofs.Segregate

open Mem Blocks Hoare Model Model.Segregate Spec.Segregated

variable {R : Region} {live : List Alloc} {s : Machine} {S : State}
  {A : Heap} {z : Zip} {n : Nat}

-- ============================================================ the conditions

/-- Following the links from `p`, past readable headers, comes to null. -/
inductive Ends (s : Machine) : Nat → Prop
  | stop : Ends s 0
  | step {p q b : Nat} (hsize : (blkSize p).run s = .ok b s)
      (hnext : (nextFreeBlkp p).run s = .ok q s) (hrest : Ends s q) :
      Ends s p

/-- The list at slot zero ends. -/
def SlotEnds (s : Machine) : Prop :=
  ∃ p, (nextFreeBlkp s.freelistTable).run s = .ok p s ∧ Ends s p

/-- The extension an allocation of `n` bytes comes to is refused, with
`index` the slot it starts to search at. -/
structure Beyond (s : Machine) (n index : Nat) : Prop where
  wrap : n ≤ 2 ^ 64 - 8
  ext : Refused s (need n)
  ends : index = 0 → SlotEnds s

/-- The condition on a request: an allocation is not of nothing, a small
one is honest at slot zero, and where the size is past a header word, the
extension is refused. -/
def Bounded (live : List Alloc) (s : Machine) : Req → Prop
  | .malloc n => 1 ≤ n ∧ (n ≤ 8 → SlotHonest s) ∧
      (n ≤ 2 ^ 32 - 16 ∨ Beyond s n (fltIndexOf n))
  | .reallocNull n => 1 ≤ n ∧ (n ≤ 8 → SlotHonest s) ∧
      (n ≤ 2 ^ 32 - 16 ∨ Beyond s n (fltIndexOf n))
  | .realloc i n => ∀ a, live[i]? = some a →
      n ≤ 2 ^ 32 - 16 ∨ Beyond s n (fltIndexOf (align n))
  | _ => True

-- ===================================================== the search for so much

/-- A refused extension returns null and leaves at most `errno`
behind. -/
theorem extendHeap_refused (h : Refused s n) (hn : n % 8 = 0) :
    ∃ e, (extendHeap (toInt n)).run s = .ok 0 { s with errno := e } := by
  by_cases h0 : toInt n = 0
  · refine ⟨s.errno, ?_⟩
    unfold extendHeap
    rw [if_pos h0]
    rfl
  have hmod : ¬ (toInt n).tmod alignment ≠ 0 := by
    apply tmod_aligned
    unfold toInt
    rw [Int.bmod_def]
    omega
  have hno : toInt n < 0 ∨ (s.memMaxAddr : Int) < s.memBrk + toInt n := by
    unfold Refused at h
    omega
  refine ⟨enomem, ?_⟩
  unfold extendHeap
  rw [if_neg h0, if_neg hmod, bind_ok (memSbrk_refused hno), if_pos rfl]
  rfl

end MallocLab.Proofs.Segregate
