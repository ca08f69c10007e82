/-
`implicit_mm_realloc` with a trail: the ranges of every `memcpy` it
executes. The functions are those of Model/Implicit.lean, from the call
down to the two copies; `erase_implicitMmRealloc` says that nothing else
was changed.
-/
import MallocLab.Lib.Trail
import MallocLab.Model.Implicit

namespace MallocLab.Model.Implicit.Copies

open Model Tracing

/-- One `memcpy`: `n` bytes from `src` to `dst`. -/
structure Copy where
  dst : Nat
  src : Nat
  n : Nat
deriving DecidableEq, Repr

/-- What the C library asks for: the ranges share no byte. -/
def Copy.Apart (c : Copy) : Prop :=
  c.dst + c.n ≤ c.src ∨ c.src + c.n ≤ c.dst

/-- The block at `dst` has the bytes, in the machine the call leaves. -/
def Copy.Held (c : Copy) (s : Machine) : Prop :=
  ∃ k, (blkAvalSize c.dst).run s = .ok k s ∧ c.n ≤ k

/-- A call with the copies it makes. -/
abbrev C := Trail Stop Machine Copy

/-- `memcpy`. -/
def memcpy (d s n : Nat) : C Unit :=
  mark (fun _ => ⟨d, s, n⟩) (Model.memcpy d s n)

/-- `implicit_mm_realloc`, from the comment on extending the heap on. -/
def reallocNew (fit : Fit) (ptr size nsize bsize : Nat) : C Nat := do
  if ptr = (← tailBlk) then
    let p ← extendHeap (toInt (nsize - bsize))
    if p = minusOne then return 0
    setRb p nsize blkAlloc
    reallocDone fit p
  else
    let p ← doMalloc fit (align size)
    if p = 0 then return 0
    memcpy p ptr (← rbAvlSize ptr)
    implicitMmFree fit ptr
    setRb p nsize blkAlloc
    reallocDone fit p

/-- `implicit_mm_realloc`, from the check of the previous block on. -/
def reallocPrev (fit : Fit) (ptr size nsize bsize : Nat) : C Nat := do
  let prep ← prevBlkp ptr
  let fsize ← rbSize prep
  if (← rbAlloc prep) = blkFree ∧ nsize ≤ bsize + fsize then
    let fsize := fsize - (nsize - bsize)
    memcpy prep ptr (← rbAvlSize ptr)
    setRb prep nsize blkAlloc
    if fsize ≥ minBlkSize then
      setRb (← nextBlkp prep) fsize blkFree
    reallocDone fit prep
  else reallocNew fit ptr size nsize bsize

/-- `implicit_mm_realloc`, from the check of the following block on. -/
def reallocGrow (fit : Fit) (ptr size nsize bsize : Nat) : C Nat := do
  if (← nextBlkAlloc ptr) = blkFree then
    let fsize ← nextBlkSize ptr
    if nsize ≤ bsize + fsize then
      let fsize := fsize - (nsize - bsize)
      setRb ptr nsize blkAlloc
      if fsize ≥ minBlkSize then
        setRb (← nextBlkp ptr) fsize blkFree
      reallocDone fit ptr
    else if ← eb (← nextBlkp ptr) then
      let fsize := nsize - bsize - fsize
      let _ ← extendHeap (toInt fsize)
      setRb ptr nsize blkAlloc
      reallocDone fit ptr
    else reallocPrev fit ptr size nsize bsize
  else reallocPrev fit ptr size nsize bsize

/-- `implicit_mm_realloc`. -/
def implicitMmRealloc (fit : Fit) (ptr size : Nat) : C Nat := do
  if ptr = 0 then implicitMmMalloc fit size
  else if size = 0 then
    implicitMmFree fit ptr
    return ptr
  else
    let hdrp := rbHdrp ptr
    if hdrp = 0 then return 0
    let ftrp ← rbFtrp ptr
    if ftrp = 0 then return 0
    let bsize ← rbSize ptr
    let alloc ← rbAlloc ptr
    if alloc = blkFree ∨ bsize ≤ minBlkSize ∨ bsize % alignment ≠ 0 then
      return 0
    if (← getWord hdrp) ≠ (← getWord ftrp) then return 0
    let nsize := u64 (align size + blkHdrSize + blkFtrSize)
    if nsize = bsize then reallocDone fit ptr
    else if nsize < bsize then
      let rsize := bsize - nsize
      if rsize ≥ minBlkSize then
        setRb ptr nsize blkAlloc
        let splitp ← nextBlkp ptr
        setRb splitp rsize blkFree
      reallocDone fit ptr
    else reallocGrow fit ptr size nsize bsize

-- ======================================================== the same program

theorem erase_reallocNew (fit : Fit) (ptr size nsize bsize : Nat) :
    erase (reallocNew fit ptr size nsize bsize)
      = Implicit.reallocNew fit ptr size nsize bsize := by
  unfold reallocNew Implicit.reallocNew memcpy
  simp only [erase_bind, erase_silent, erase_ite, erase_pure, erase_mark]

theorem erase_reallocPrev (fit : Fit) (ptr size nsize bsize : Nat) :
    erase (reallocPrev fit ptr size nsize bsize)
      = Implicit.reallocPrev fit ptr size nsize bsize := by
  unfold reallocPrev Implicit.reallocPrev memcpy
  simp only [erase_bind, erase_silent, erase_ite, erase_mark,
    erase_reallocNew]

theorem erase_reallocGrow (fit : Fit) (ptr size nsize bsize : Nat) :
    erase (reallocGrow fit ptr size nsize bsize)
      = Implicit.reallocGrow fit ptr size nsize bsize := by
  unfold reallocGrow Implicit.reallocGrow
  simp only [erase_bind, erase_silent, erase_ite, erase_reallocPrev]

/-- Without its trail it is `implicit_mm_realloc`. -/
theorem erase_implicitMmRealloc (fit : Fit) (ptr size : Nat) :
    erase (implicitMmRealloc fit ptr size)
      = Implicit.implicitMmRealloc fit ptr size := by
  unfold implicitMmRealloc Implicit.implicitMmRealloc
  simp only [erase_bind, erase_silent, erase_ite, erase_pure,
    erase_reallocGrow]

end MallocLab.Model.Implicit.Copies
