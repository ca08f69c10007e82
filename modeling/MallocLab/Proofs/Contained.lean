/-
What a call of either allocator can do to the machine, whatever state it
finds the heap in: the break goes up only and not past the limit, and an
access outside the heap is recorded. So a call that recorded none has
written between `mem_start_brk` and the break, and nowhere else. And
`errno` is never cleared.

This needs no heap list. `Contained` relates the machines before and
after a call, returned or stopped; it holds of every access, of
`mem_sbrk`, and of what is put together from them, and the functions of
segregate.c and implicit.c are.
-/
import MallocLab.Model.Client
import MallocLab.Model.Driver

namespace MallocLab.Proofs

open Mem Model

-- the search for an instance is as large as the program
set_option synthInstance.maxSize 1000

variable {α β : Type}

/-- What a call does to the machine. -/
structure Contained (s s' : Machine) : Prop where
  sbrks : Sbrks s s'
  strays : s.strays <:+ s'.strays
  frame : s'.strays = s.strays →
    ∀ a, a < s.memStartBrk ∨ s'.memBrk ≤ a → s'.mem a = s.mem a
  errno : s'.errno = s.errno ∨ s'.errno = enomem

theorem Contained.refl (s : Machine) : Contained s s :=
  ⟨Sbrks.refl s, List.suffix_refl _, fun _ _ _ => rfl, Or.inl rfl⟩

/-- If the whole recorded nothing, neither part did. -/
theorem Contained.trans {s s' s'' : Machine} (h : Contained s s')
    (h' : Contained s' s'') : Contained s s'' where
  sbrks := Sbrks.trans h.sbrks h'.sbrks
  strays := h.strays.trans h'.strays
  frame := fun hnone a ha => by
    have hfirst : s'.strays = s.strays :=
      (h.strays.eq_of_length_le (hnone ▸ h'.strays.length_le)).symm
    have hgrows := h'.sbrks.grows
    rw [h'.frame (hnone.trans hfirst.symm) a (by rw [h.sbrks.start]; exact ha),
      h.frame hfirst a (by omega)]
  errno := by
    rcases h'.errno with hsame | hset
    · rw [hsame]
      exact h.errno
    · exact Or.inr hset

/-- A program whose every run is contained, however it ends. A class, so
that a program put together from such programs is one by inference. -/
class Contains (x : M α) : Prop where
  final : ∀ s, Contained s (final (x.run s))

/-- A run that returned. -/
theorem Contains.returned {x : M α} (h : Contains x) {s s' : Machine}
    {a : α} (hrun : x.run s = .ok a s') : Contained s s' := by
  have := h.final s
  rwa [hrun] at this

-- =================================================== what is put together

instance pure_contains (a : α) : Contains (pure a : M α) :=
  ⟨fun s => Contained.refl s⟩

instance throw_contains (e : Stop) : Contains (throw e : M α) :=
  ⟨fun s => Contained.refl s⟩

instance get_contains : Contains (get : M Machine) :=
  ⟨fun s => Contained.refl s⟩

instance bind_contains {x : M α} {f : α → M β} [hx : Contains x]
    [hf : ∀ a, Contains (f a)] : Contains (x >>= f) where
  final := fun s => by
    have hfirst := hx.final s
    rw [run_bind]
    cases hrun : x.run s with
    | ok a s' =>
        rw [hrun] at hfirst
        exact Contained.trans hfirst ((hf a).final s')
    | error e s' =>
        rw [hrun] at hfirst
        exact hfirst

instance ite_contains {c : Prop} [Decidable c] {x y : M α}
    [hx : Contains x] [hy : Contains y] :
    Contains (if c then x else y) := by
  split
  · exact hx
  · exact hy

-- ============================================================== the accesses

instance touch_contains (a n : Nat) : Contains (touch a n) where
  final := fun s => by
    have hs : (touch a n).run s = if Mapped s a n then
        .ok () (if Within s a n then s
          else { s with strays := (a, n) :: s.strays })
        else .error .fault s := rfl
    rw [hs]
    split
    · split
      · exact Contained.refl s
      · refine ⟨⟨rfl, rfl, Nat.le_refl _, fun h => h⟩,
          List.suffix_cons _ _, fun hnone => ?_, Or.inl rfl⟩
        exact absurd hnone (List.cons_ne_self _ _)
    · exact Contained.refl s

/-- An access that changes nothing of memory but the bytes it touched. -/
theorem write_contains {a n : Nat} {g : Bytes → Bytes}
    (hg : ∀ m y, y < a ∨ a + n ≤ y → g m y = m y) : Contains (do
      touch a n
      modify fun s => { s with mem := g s.mem }) where
  final := fun s => by
    have htouch : (touch a n).run s = if Mapped s a n then
        .ok () (if Within s a n then s
          else { s with strays := (a, n) :: s.strays })
        else .error .fault s := rfl
    by_cases hm : Mapped s a n
    · rw [if_pos hm] at htouch
      rw [bind_ok htouch]
      by_cases hw : Within s a n
      · rw [if_pos hw]
        refine ⟨⟨rfl, rfl, Nat.le_refl _, fun h => h⟩,
          List.suffix_refl _, fun _ y hy => ?_, Or.inl rfl⟩
        obtain ⟨hlo, hhi⟩ := hw
        have hy' : y < s.memStartBrk ∨ s.memBrk ≤ y := hy
        exact hg s.mem y (by omega)
      · rw [if_neg hw]
        refine ⟨⟨rfl, rfl, Nat.le_refl _, fun h => h⟩,
          List.suffix_cons _ _, fun hnone => ?_, Or.inl rfl⟩
        exact absurd hnone (List.cons_ne_self _ _)
    · rw [if_neg hm] at htouch
      rw [bind_error htouch]
      exact Contained.refl s

instance load_contains (w a : Nat) : Contains (load w a) := by
  unfold load
  infer_instance

instance store_contains (w a v : Nat) : Contains (store w a v) :=
  write_contains fun _ _ => wr_of_out

instance memset_contains (a : Nat) (v : UInt8) (n : Nat) :
    Contains (memset a v n) :=
  write_contains fun _ _ => fill_of_out

instance memcpy_contains (d s n : Nat) : Contains (memcpy d s n) :=
  @bind_contains _ _ _ _ (touch_contains s n) fun _ =>
    write_contains fun _ _ => copy_of_out

instance memSbrk_contains (k : Int) : Contains (memSbrk k) where
  final := fun s => by
    have hs : (memSbrk k).run s
        = if k < 0 ∨ (s.memMaxAddr : Int) < s.memBrk + k then
            .ok minusOne { s with errno := enomem }
          else .ok s.memBrk { s with memBrk := (s.memBrk + k).toNat } := rfl
    rw [hs]
    split
    · exact ⟨⟨rfl, rfl, Nat.le_refl _, fun h => h⟩,
        List.suffix_refl _, fun _ _ _ => rfl, Or.inr rfl⟩
    · refine ⟨memSbrk_sbrks (k := k) (p := s.memBrk) (hs.trans ?_),
        List.suffix_refl _, fun _ _ _ => rfl, Or.inl rfl⟩
      exact if_neg ‹_›

/-- Setting a static is contained. -/
instance heapListp_contains (p : Nat) :
    Contains (modify fun s => { s with heapListp := p } : M PUnit) :=
  ⟨fun _ => ⟨⟨rfl, rfl, Nat.le_refl _, fun h => h⟩,
    List.suffix_refl _, fun _ _ _ => rfl, Or.inl rfl⟩⟩

instance freelistTable_contains (p : Nat) :
    Contains (modify fun s => { s with freelistTable := p } : M PUnit) :=
  ⟨fun _ => ⟨⟨rfl, rfl, Nat.le_refl _, fun h => h⟩,
    List.suffix_refl _, fun _ _ _ => rfl, Or.inl rfl⟩⟩

-- ================================================================= the macros

instance getWord_contains (p : Nat) : Contains (getWord p) :=
  load_contains 4 p

instance setWord_contains (p v : Nat) : Contains (setWord p v) :=
  store_contains 4 p v

instance getSize_contains (p : Nat) : Contains (getSize p) := by
  unfold getSize
  infer_instance

instance getAlloc_contains (p : Nat) : Contains (getAlloc p) := by
  unfold getAlloc
  infer_instance

instance setEb_contains (p : Nat) : Contains (setEb p) :=
  setWord_contains _ _

instance blkSize_contains (p : Nat) : Contains (blkSize p) :=
  getSize_contains _

instance blkAvalSize_contains (p : Nat) : Contains (blkAvalSize p) := by
  unfold blkAvalSize
  infer_instance

instance blkState_contains (p : Nat) : Contains (blkState p) :=
  getAlloc_contains _

instance blkFtrp_contains (p : Nat) : Contains (blkFtrp p) := by
  unfold blkFtrp
  infer_instance

instance setBlk_contains (p size alloc : Nat) :
    Contains (setBlk p size alloc) := by
  unfold setBlk
  infer_instance

instance nextBlkp_contains (p : Nat) : Contains (nextBlkp p) := by
  unfold nextBlkp
  infer_instance

instance nextHdrp_contains (p : Nat) : Contains (nextHdrp p) := by
  unfold nextHdrp
  infer_instance

instance prevBlkAlloc_contains (p : Nat) : Contains (prevBlkAlloc p) :=
  getAlloc_contains _

instance prevBlkSize_contains (p : Nat) : Contains (prevBlkSize p) :=
  getSize_contains _

instance nextBlkAlloc_contains (p : Nat) : Contains (nextBlkAlloc p) := by
  unfold nextBlkAlloc
  infer_instance

instance nextBlkSize_contains (p : Nat) : Contains (nextBlkSize p) := by
  unfold nextBlkSize
  infer_instance

instance prevBlkp_contains (p : Nat) : Contains (prevBlkp p) := by
  unfold prevBlkp
  infer_instance

-- ================================================================ segregate.c

section
open Segregate

instance nextFreeBlkp_contains (p : Nat) : Contains (nextFreeBlkp p) :=
  load_contains 8 p

instance setNextFreeBlk_contains (bp next : Nat) :
    Contains (setNextFreeBlk bp next) :=
  store_contains 8 bp next

instance setPrevFreeBlk_contains (bp prev : Nat) :
    Contains (setPrevFreeBlk bp prev) :=
  store_contains 8 (bp + 8) prev

instance freelistDelBlk_contains (bp : Nat) :
    Contains (freelistDelBlk bp) := by
  unfold freelistDelBlk prevFreeBlkp
  infer_instance

instance segregateCoalesce_contains (bp : Nat) :
    Contains (Segregate.coalesce bp) := by
  unfold Segregate.coalesce Segregate.coalesceNext Segregate.coalescePrev
  dsimp only
  infer_instance

instance freelistInsert_contains (bp : Nat) :
    Contains (freelistInsert bp) := by
  unfold freelistInsert freelistInsert2
  infer_instance

instance freelistWalk_contains (nsize fuel p : Nat) :
    Contains (freelistWalk nsize fuel p) := by
  induction fuel generalizing p with
  | zero => exact throw_contains _
  | succ fuel ih =>
      unfold freelistWalk freelistTake
      infer_instance

instance freelistAlloc_contains (freelistp size : Nat) :
    Contains (freelistAlloc freelistp size) := by
  unfold freelistAlloc
  infer_instance

instance segregateExtend_contains (size : Int) :
    Contains (Segregate.extendHeap size) := by
  unfold Segregate.extendHeap
  infer_instance

instance scanSlots_contains (size : Nat) (is : List Nat) :
    Contains (scanSlots size is) := by
  induction is with
  | nil => exact pure_contains 0
  | cons i is ih =>
      unfold scanSlots
      infer_instance

instance segregateMmMalloc_contains (size : Nat) :
    Contains (segregateMmMalloc size) := by
  unfold segregateMmMalloc
  infer_instance

instance segregateMmFree_contains (ptr : Nat) :
    Contains (segregateMmFree ptr) :=
  freelistInsert_contains ptr

instance segregateMmRealloc_contains (ptr size : Nat) :
    Contains (segregateMmRealloc ptr size) := by
  unfold segregateMmRealloc
  infer_instance

end

-- ================================================================= implicit.c

section
open Implicit

/-- Moving the rover is contained. -/
instance roverTo_contains (fit : Fit) (p : Nat) :
    Contains (roverTo fit p) where
  final := fun s => by
    unfold roverTo
    split
    · exact ⟨⟨rfl, rfl, Nat.le_refl _, fun h => h⟩,
        List.suffix_refl _, fun _ _ _ => rfl, Or.inl rfl⟩
    · exact Contained.refl s

instance eb_contains (p : Nat) : Contains (eb p) := by
  unfold eb
  infer_instance

instance tailBlk_contains : Contains tailBlk := by
  unfold tailBlk
  infer_instance

instance place_contains (bp size : Nat) : Contains (place bp size) := by
  unfold place
  infer_instance

instance fits_contains (size p : Nat) : Contains (fits size p) := by
  unfold fits
  infer_instance

instance firstFitLoop_contains (size fuel p : Nat) :
    Contains (firstFitLoop size fuel p) := by
  induction fuel generalizing p with
  | zero => exact throw_contains _
  | succ fuel ih =>
      unfold firstFitLoop
      infer_instance

instance nextFitLoop_contains (size oldp fuel p : Nat) :
    Contains (nextFitLoop size oldp fuel p) := by
  induction fuel generalizing p with
  | zero => exact throw_contains _
  | succ fuel ih =>
      have hturn : Contains (nextFitTurn size p) := by
        unfold nextFitTurn
        infer_instance
      have hrest : ∀ x : Nat ⊕ Nat, Contains (match x with
          | .inl bp => pure bp
          | .inr p => if p = oldp then pure 0
              else nextFitLoop size oldp fuel p) := by
        rintro (bp | p)
        · exact pure_contains bp
        · dsimp only
          infer_instance
      exact bind_contains

instance bestFitLoop_contains (size fuel best bestp p : Nat) :
    Contains (bestFitLoop size fuel best bestp p) := by
  induction fuel generalizing best bestp p with
  | zero => exact throw_contains _
  | succ fuel ih =>
      unfold bestFitLoop
      infer_instance

instance findFit_contains (fit : Fit) (size : Nat) :
    Contains (findFit fit size) := by
  cases fit with
  | first =>
      unfold findFit firstFit
      infer_instance
  | next =>
      unfold findFit nextFit
      infer_instance
  | best =>
      unfold findFit bestFit
      dsimp only
      infer_instance

instance coalesce_contains (fit : Fit) (bp : Nat) :
    Contains (coalesce fit bp) := by
  unfold coalesce coalesceNext coalescePrev
  dsimp only
  infer_instance

instance implicitExtend_contains (size : Int) :
    Contains (extendHeap size) := by
  unfold extendHeap
  infer_instance

instance doMalloc_contains (fit : Fit) (size : Nat) :
    Contains (doMalloc fit size) := by
  unfold doMalloc doMallocAt
  dsimp only
  infer_instance

instance implicitMmMalloc_contains (fit : Fit) (size : Nat) :
    Contains (implicitMmMalloc fit size) := by
  unfold implicitMmMalloc
  infer_instance

instance implicitMmFree_contains (fit : Fit) (ptr : Nat) :
    Contains (implicitMmFree fit ptr) := by
  unfold implicitMmFree
  infer_instance

instance reallocDone_contains (fit : Fit) (p : Nat) :
    Contains (reallocDone fit p) := by
  unfold reallocDone
  infer_instance

instance reallocNew_contains (fit : Fit) (ptr size nsize bsize : Nat) :
    Contains (reallocNew fit ptr size nsize bsize) := by
  unfold reallocNew
  infer_instance

instance reallocPrev_contains (fit : Fit) (ptr size nsize bsize : Nat) :
    Contains (reallocPrev fit ptr size nsize bsize) := by
  unfold reallocPrev
  infer_instance

instance reallocGrow_contains (fit : Fit) (ptr size nsize bsize : Nat) :
    Contains (reallocGrow fit ptr size nsize bsize) := by
  unfold reallocGrow
  dsimp only
  infer_instance

instance implicitMmRealloc_contains (fit : Fit) (ptr size : Nat) :
    Contains (implicitMmRealloc fit ptr size) := by
  unfold implicitMmRealloc
  dsimp only
  infer_instance

end

-- ====================================================================== mm.c

/-- The four calls of mm.c, whichever allocator they are dispatched to. -/
instance mmInit_contains (mode : Mode) : Contains (mmInit mode) := by
  cases mode with
  | implicit fit =>
      show Contains (Implicit.implicitMmInit fit)
      unfold Implicit.implicitMmInit
      infer_instance
  | segregate =>
      show Contains Segregate.segregateMmInit
      unfold Segregate.segregateMmInit
      dsimp only
      infer_instance

instance mmMalloc_contains (mode : Mode) (size : Nat) :
    Contains (mmMalloc mode size) := by
  cases mode with
  | implicit fit => exact implicitMmMalloc_contains fit size
  | segregate => exact segregateMmMalloc_contains size

instance mmFree_contains (mode : Mode) (ptr : Nat) :
    Contains (mmFree mode ptr) := by
  cases mode with
  | implicit fit => exact implicitMmFree_contains fit ptr
  | segregate => exact segregateMmFree_contains ptr

instance mmRealloc_contains (mode : Mode) (ptr size : Nat) :
    Contains (mmRealloc mode ptr size) := by
  cases mode with
  | implicit fit => exact implicitMmRealloc_contains fit ptr size
  | segregate => exact segregateMmRealloc_contains ptr size

end MallocLab.Proofs
