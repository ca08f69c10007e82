/-
A call that stays inside its heap does not know where the heap ends: on
the same machine with a higher break it does the same (`Raisable`). That
is true of every access, and of what is put together from accesses
without `mem_sbrk`, as `implicit_mm_free` is.

So a call may be followed on the part of a heap that is still in order,
cut off by a lower break, where the blocks behind it are not.
-/
import MallocLab.Proofs.Contained

namespace MallocLab.Proofs

open Mem Model

-- the search for an instance is as large as the program
set_option synthInstance.maxSize 1000

variable {α β : Type}

/-- A run that returns and records no access outside the heap is the same
run under a higher break. A class, so that a program put together from
such programs is one by inference. -/
class Raisable (x : M α) : Prop where
  raised : ∀ s a s', x.run s = .ok a s' → s'.strays = s.strays →
    s'.memBrk = s.memBrk ∧ ∀ k, s.memBrk ≤ k →
      x.run { s with memBrk := k } = .ok a { s' with memBrk := k }

-- =================================================== what is put together

instance pure_raisable (a : α) : Raisable (pure a : M α) where
  raised := by
    rintro s b s' ⟨⟩ -
    exact ⟨rfl, fun _ _ => rfl⟩

instance bind_raisable {x : M α} {f : α → M β} [hx : Raisable x]
    [hf : ∀ a, Raisable (f a)] [hc : Contains x]
    [hd : ∀ a, Contains (f a)] : Raisable (x >>= f) where
  raised := by
    intro s b s' hrun hnone
    obtain ⟨a, s₁, h₁, h₂⟩ := bind_returns hrun
    -- neither part recorded anything
    have hle := (hc.returned h₁).strays
    have hle' := ((hd a).returned h₂).strays
    have hfirst : s₁.strays = s.strays :=
      (hle.eq_of_length_le (hnone ▸ hle'.length_le)).symm
    obtain ⟨hbrk₁, hraise₁⟩ := hx.raised s a s₁ h₁ hfirst
    obtain ⟨hbrk₂, hraise₂⟩ :=
      (hf a).raised s₁ b s' h₂ (hnone.trans hfirst.symm)
    refine ⟨hbrk₂.trans hbrk₁, fun k hk => ?_⟩
    rw [bind_ok (hraise₁ k hk)]
    exact hraise₂ k (by omega)

instance ite_raisable {c : Prop} [Decidable c] {x y : M α}
    [hx : Raisable x] [hy : Raisable y] :
    Raisable (if c then x else y) := by
  split
  · exact hx
  · exact hy

-- ============================================================== the accesses

instance touch_raisable (a n : Nat) : Raisable (touch a n) where
  raised := by
    intro s u s' hrun hnone
    have htouch : ∀ t : Machine, (touch a n).run t = if Mapped t a n then
        .ok () (if Within t a n then t
          else { t with strays := (a, n) :: t.strays })
        else .error .fault t := fun _ => rfl
    rw [htouch] at hrun
    by_cases hm : Mapped s a n
    · rw [if_pos hm] at hrun
      by_cases hw : Within s a n
      · rw [if_pos hw] at hrun
        cases hrun
        refine ⟨rfl, fun k hk => ?_⟩
        have hm' : Mapped { s with memBrk := k } a n := hm
        have hw' : Within { s with memBrk := k } a n :=
          ⟨hw.1, Nat.le_trans hw.2 hk⟩
        rw [htouch, if_pos hm', if_pos hw']
      · rw [if_neg hw] at hrun
        cases hrun
        exact absurd hnone (List.cons_ne_self _ _)
    · rw [if_neg hm] at hrun
      cases hrun

/-- An access, and what is then done to memory. -/
theorem access_raisable {a n : Nat} {y : M α} {f : Bytes → α}
    {g : Bytes → Bytes}
    (hy : ∀ s, y.run s = .ok (f s.mem) { s with mem := g s.mem }) :
    Raisable (touch a n >>= fun _ => y) where
  raised := by
    intro s b s' hrun hnone
    obtain ⟨u, s₁, h₁, h₂⟩ := bind_returns hrun
    rw [hy] at h₂
    cases h₂
    obtain ⟨hbrk, hraise⟩ := (touch_raisable a n).raised s u s₁ h₁ hnone
    exact ⟨hbrk, fun k hk => (bind_ok (hraise k hk)).trans (hy _)⟩

instance load_raisable (w a : Nat) : Raisable (load w a) :=
  access_raisable (f := fun m => rd w m a) (g := id) fun _ => rfl

instance store_raisable (w a v : Nat) : Raisable (store w a v) :=
  access_raisable (f := fun _ => ⟨⟩) (g := fun m => wr w m a v) fun _ => rfl

-- ================================================================= the macros

instance getSize_raisable (p : Nat) : Raisable (getSize p) := by
  unfold getSize getWord
  infer_instance

instance getAlloc_raisable (p : Nat) : Raisable (getAlloc p) := by
  unfold getAlloc getWord
  infer_instance

instance blkSize_raisable (p : Nat) : Raisable (blkSize p) :=
  getSize_raisable _

instance setBlk_raisable (p size alloc : Nat) :
    Raisable (setBlk p size alloc) := by
  unfold setBlk blkFtrp blkAvalSize setWord
  infer_instance

-- ================================================================= implicit.c

section
open Implicit

instance roverTo_raisable (fit : Fit) (p : Nat) :
    Raisable (roverTo fit p) where
  raised := by
    unfold roverTo
    split
    · rintro s u s' ⟨⟩ -
      exact ⟨rfl, fun _ _ => rfl⟩
    · rintro s u s' ⟨⟩ -
      exact ⟨rfl, fun _ _ => rfl⟩

instance coalesce_raisable (fit : Fit) (bp : Nat) :
    Raisable (coalesce fit bp) := by
  unfold coalesce coalesceNext coalescePrev prevBlkAlloc prevBlkp prevBlkSize
    nextBlkAlloc nextBlkSize nextHdrp
  dsimp only
  infer_instance

instance implicitMmFree_raisable (fit : Fit) (ptr : Nat) :
    Raisable (implicitMmFree fit ptr) := by
  unfold implicitMmFree
  infer_instance

end

end MallocLab.Proofs
