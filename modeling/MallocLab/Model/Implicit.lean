/-
implicit.c, function by function: the allocator with an implicit list.
The heap list is the tags themselves; a search steps through every block
from the prologue, or from the rover under the next-fit strategy.

The strategy is a compile-time choice in the source (`USE_FIRST_FIT` and
its two siblings); here it is a parameter, and the `#ifdef USE_NEXT_FIT`
lines that move the rover are `roverTo`. `goto realloc` is
`reallocDone`. The tag macros are the ones of Model/Tags.lean under
implicit.c's names.
-/
import MallocLab.Model.Tags

namespace MallocLab.Model.Implicit

open Model

-- ============================================================== the macros

/-- `MIN_BLK_SIZE`. -/
def minBlkSize : Nat := blkHdrSize + blkFtrSize

/-- `RB_HDRP`. -/
abbrev rbHdrp := blkHdrp

/-- `RB_FTRP`. -/
abbrev rbFtrp := blkFtrp

/-- `RB_ALLOC`. -/
abbrev rbAlloc := blkState

/-- `RB_SIZE`. -/
abbrev rbSize := blkSize

/-- `RB_AVL_SIZE`. -/
abbrev rbAvlSize := blkAvalSize

/-- `SET_RB`. -/
abbrev setRb := setBlk

/-- `EB`: is `p` past the last block? Only the size is asked for. -/
def eb (p : Nat) : M Bool := do
  return (← getSize (ebHdrp p)) == 0

/-- `TAIL_BLK`. -/
def tailBlk : M Nat := do
  prevBlkp (← memSbrk 0)

/-- The three fit strategies. -/
inductive Fit
  | first
  | next
  | best
deriving DecidableEq, Repr

/-- `heap_curp = p`, compiled in under `USE_NEXT_FIT` only. -/
def roverTo (fit : Fit) (p : Nat) : M Unit :=
  if fit = .next then modify fun s => { s with heapCurp := p } else pure ()

-- ========================================================= finding a place

/-- `place`: put `size` bytes into the block `bp`. -/
def place (bp size : Nat) : M Nat := do
  if (← rbAlloc bp) = blkAlloc then return 0
  let asize := align size
  let nsize := u64 (asize + blkHdrSize + blkFtrSize)
  let osize ← rbSize bp
  if nsize > osize then return 0
  let rsize := osize - nsize
  if rsize < minBlkSize then
    setRb bp osize blkAlloc
    return bp
  setRb bp nsize blkAlloc
  let splitp ← nextBlkp bp
  setRb splitp rsize blkFree
  return bp

/-- The test the searches make at a block. -/
def fits (size p : Nat) : M Bool := do
  if (← rbAlloc p) = blkFree then
    return decide ((← rbAvlSize p) ≥ size)
  else return false

/-- The while loop of `first_fit`. -/
def firstFitLoop (size : Nat) : Nat → Nat → M Nat
  | 0, _ => throw .spin
  | fuel + 1, p => do
      if ← eb p then return 0
      if ← fits size p then place p size
      else firstFitLoop size fuel (← nextBlkp p)

/-- `first_fit`. -/
def firstFit (size : Nat) : M Nat := do
  firstFitLoop size loopFuel (← get).heapListp

/-- One turn of the do loop of `next_fit`: the block placed, or where
the search goes on. -/
def nextFitTurn (size p : Nat) : M (Nat ⊕ Nat) := do
  if ← eb p then return .inr (← get).heapListp
  else if ← fits size p then return .inl (← place p size)
  else return .inr (← nextBlkp p)

/-- The do loop of `next_fit`. -/
def nextFitLoop (size oldp : Nat) : Nat → Nat → M Nat
  | 0, _ => throw .spin
  | fuel + 1, p => do
      match ← nextFitTurn size p with
      | .inl bp => return bp
      | .inr p => if p = oldp then return 0 else nextFitLoop size oldp fuel p

/-- `next_fit`. -/
def nextFit (size : Nat) : M Nat := do
  let oldp ← nextBlkp (← get).heapCurp
  nextFitLoop size oldp loopFuel oldp

/-- The while loop of `best_fit`; `best` and `bestp` are its variables of
these names. -/
def bestFitLoop (size : Nat) : Nat → Nat → Nat → Nat → M (Nat × Nat)
  | 0, _, _, _ => throw .spin
  | fuel + 1, best, bestp, p => do
      if ← eb p then return (best, bestp)
      let nsize ← rbAvlSize p
      if (← rbAlloc p) = blkFree ∧ nsize ≥ size ∧ nsize < best then
        bestFitLoop size fuel nsize p (← nextBlkp p)
      else bestFitLoop size fuel best bestp (← nextBlkp p)

/-- `best_fit`. -/
def bestFit (size : Nat) : M Nat := do
  let (best, bestp) ← bestFitLoop size loopFuel maxHeap 0 (← get).heapListp
  if best = maxHeap then return 0
  place bestp size

/-- `find_fit`. -/
def findFit (fit : Fit) (size : Nat) : M Nat :=
  match fit with
  | .first => firstFit size
  | .next => nextFit size
  | .best => bestFit size

-- ============================================================ the helpers

/-- `coalesce`, the check of the next block. -/
def coalesceNext (bp size : Nat) : M Nat := do
  if (← nextBlkAlloc bp) = blkFree then
    return u32 (size + (← nextBlkSize bp))
  else return size

/-- `coalesce`, the check of the previous block: the size and the place
of the joined block. -/
def coalescePrev (bp size : Nat) : M (Nat × Nat) := do
  if (← prevBlkAlloc bp) = blkFree then
    let size := u32 (size + (← prevBlkSize bp))
    return (size, ← prevBlkp bp)
  else return (size, bp)

/-- `coalesce`. -/
def coalesce (fit : Fit) (bp : Nat) : M Nat := do
  let size ← coalesceNext bp (← rbSize bp)
  let (size, p) ← coalescePrev bp size
  setRb p size blkFree
  roverTo fit p
  return p

/-- `extend_heap`: what `NEXT_BLKP` reads at the old break is the word
below it. -/
def extendHeap (size : Int) : M Nat := do
  if size = 0 then return 0
  let oldBrkp ← memSbrk size
  if oldBrkp = minusOne then return 0
  setEb (← nextBlkp oldBrkp)
  return oldBrkp

/-- The end of `do_malloc`, once there is a place. -/
def doMallocAt (fit : Fit) (curp size : Nat) : M Nat := do
  setRb curp (u64 (size + blkHdrSize + blkFtrSize)) blkAlloc
  roverTo fit curp
  return curp

/-- `do_malloc`. The difference of the two `size_t` sizes wraps when the
tail block is the larger. -/
def doMalloc (fit : Fit) (size : Nat) : M Nat := do
  let size := align size
  let tailp ← tailBlk
  if (← rbAlloc tailp) = blkFree then
    let pasize ← rbAvlSize tailp
    let tsize := u64 (size + 2 ^ 64 - pasize)
    if (← extendHeap (toInt tsize)) = 0 then return 0
    doMallocAt fit tailp size
  else
    let tsize := u64 (size + blkHdrSize + blkFtrSize)
    let curp ← extendHeap (toInt tsize)
    if curp = 0 then return 0
    doMallocAt fit curp size

-- ========================================================= the open calls

/-- `implicit_mm_init`. -/
def implicitMmInit (fit : Fit) : M Nat := do
  let heapListp ← extendHeap (paddingBlkSize + pbHdrSize + pbFtrSize
    + ebHdrSize : Nat)
  modify fun s => { s with heapListp := heapListp }
  if heapListp = minusOne then return 1
  setWord heapListp 0xDEADBEEF
  setWord (heapListp + paddingBlkSize)
    (pack (pbHdrSize + pbFtrSize) blkAlloc)
  setWord (heapListp + paddingBlkSize + pbHdrSize)
    (pack (pbHdrSize + pbFtrSize) blkAlloc)
  setWord (heapListp + paddingBlkSize + pbHdrSize + pbFtrSize)
    (pack 0 blkAlloc)
  modify fun s =>
    { s with heapListp := heapListp + paddingBlkSize + pbHdrSize }
  roverTo fit (heapListp + paddingBlkSize + pbHdrSize)
  return 0

/-- `implicit_mm_malloc`. -/
def implicitMmMalloc (fit : Fit) (size : Nat) : M Nat := do
  if size = 0 then return 0
  let asize := align size
  let curp ← findFit fit asize
  let curp ← if curp ≠ 0 then pure curp else doMalloc fit asize
  roverTo fit curp
  return curp

/-- `implicit_mm_free`. -/
def implicitMmFree (fit : Fit) (ptr : Nat) : M Unit := do
  setRb ptr (← rbSize ptr) blkFree
  let _ ← coalesce fit ptr

/-- The label `realloc` at the end of `implicit_mm_realloc`. -/
def reallocDone (fit : Fit) (p : Nat) : M Nat := do
  roverTo fit p
  return p

/-- `implicit_mm_realloc`, from the comment on extending the heap on: no
free neighbour serves. -/
def reallocNew (fit : Fit) (ptr size nsize bsize : Nat) : M Nat := do
  if ptr = (← tailBlk) then
    let p ← extendHeap (toInt (nsize - bsize))
    if p = minusOne then return 0
    setRb p nsize blkAlloc
    reallocDone fit p
  else
    let p ← doMalloc fit (align size)
    if p = 0 then return 0
    memcpy p ptr (← rbAvlSize ptr)
    implicitMmFree fit ptr
    setRb p nsize blkAlloc
    reallocDone fit p

/-- `implicit_mm_realloc`, from the check of the previous block on. -/
def reallocPrev (fit : Fit) (ptr size nsize bsize : Nat) : M Nat := do
  let prep ← prevBlkp ptr
  let fsize ← rbSize prep
  if (← rbAlloc prep) = blkFree ∧ nsize ≤ bsize + fsize then
    let fsize := fsize - (nsize - bsize)
    memcpy prep ptr (← rbAvlSize ptr)
    setRb prep nsize blkAlloc
    if fsize ≥ minBlkSize then
      setRb (← nextBlkp prep) fsize blkFree
    reallocDone fit prep
  else reallocNew fit ptr size nsize bsize

/-- `implicit_mm_realloc`, from the check of the following block on. -/
def reallocGrow (fit : Fit) (ptr size nsize bsize : Nat) : M Nat := do
  if (← nextBlkAlloc ptr) = blkFree then
    let fsize ← nextBlkSize ptr
    if nsize ≤ bsize + fsize then
      let fsize := fsize - (nsize - bsize)
      setRb ptr nsize blkAlloc
      if fsize ≥ minBlkSize then
        setRb (← nextBlkp ptr) fsize blkFree
      reallocDone fit ptr
    else if ← eb (← nextBlkp ptr) then
      let fsize := nsize - bsize - fsize
      let _ ← extendHeap (toInt fsize)
      setRb ptr nsize blkAlloc
      reallocDone fit ptr
    else reallocPrev fit ptr size nsize bsize
  else reallocPrev fit ptr size nsize bsize

/-- `implicit_mm_realloc`. -/
def implicitMmRealloc (fit : Fit) (ptr size : Nat) : M Nat := do
  if ptr = 0 then implicitMmMalloc fit size
  else if size = 0 then
    implicitMmFree fit ptr
    return ptr
  else
    let hdrp := rbHdrp ptr
    if hdrp = 0 then return 0
    let ftrp ← rbFtrp ptr
    if ftrp = 0 then return 0
    let bsize ← rbSize ptr
    let alloc ← rbAlloc ptr
    if alloc = blkFree ∨ bsize ≤ minBlkSize ∨ bsize % alignment ≠ 0 then
      return 0
    if (← getWord hdrp) ≠ (← getWord ftrp) then return 0
    let nsize := u64 (align size + blkHdrSize + blkFtrSize)
    if nsize = bsize then reallocDone fit ptr
    else if nsize < bsize then
      let rsize := bsize - nsize
      if rsize ≥ minBlkSize then
        setRb ptr nsize blkAlloc
        let splitp ← nextBlkp ptr
        setRb splitp rsize blkFree
      reallocDone fit ptr
    else reallocGrow fit ptr size nsize bsize

end MallocLab.Model.Implicit
