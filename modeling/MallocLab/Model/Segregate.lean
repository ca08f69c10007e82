/-
segregate.c, function by function: the segregated-fits allocator. Free
blocks hang off eleven lists by size class; the links live in the free
blocks' payloads.

The names are the source's. `size_t` and pointers are natural numbers,
`unsigned int` results are cut where C cuts them, `int` parameters are
integers and the callers convert. The debug printing is left out.
-/
import MallocLab.Model.Tags

namespace MallocLab.Model.Segregate

open Model

-- ============================================================ constants

/-- `BLK_MIN_SIZE`: the smallest block the allocator maintains. -/
def blkMinSize : Nat := blkHdrSize + alignment + blkFtrSize

/-- `FLT_SLOT_NUM`. -/
def fltSlotNum : Nat := 11

/-- `FLT_SIZE`: the table's bytes, `sizeof(void *)` a slot. -/
def fltSize : Nat := fltSlotNum * 8

-- ======================================================= free-list words

/-- `NEXT_FREE_BLKP`. -/
def nextFreeBlkp (p : Nat) : M Nat := load 8 p

/-- `PREV_FREE_BLKP`. -/
def prevFreeBlkp (p : Nat) : M Nat := load 8 (p + 8)

/-- `SET_NEXT_FREE_BLK`. -/
def setNextFreeBlk (bp next : Nat) : M Unit := store 8 bp next

/-- `SET_PREV_FREE_BLK`. -/
def setPrevFreeBlk (bp prev : Nat) : M Unit := store 8 (bp + 8) prev

/-- `FREELIST_DEL_BLK`: a block of the smallest size keeps no back
pointer and stays where it is. -/
def freelistDelBlk (bp : Nat) : M Unit := do
  if (← blkSize bp) > blkMinSize then
    let prevp ← prevFreeBlkp bp
    let nextp ← nextFreeBlkp bp
    setNextFreeBlk prevp nextp
    if nextp ≠ 0 then
      setPrevFreeBlk nextp prevp

-- ========================================================== size classes

/-- The mask array `b` of `flt_index`. -/
def fltMask : Nat → BitVec 32
  | 0 => 0x2
  | 1 => 0xC
  | 2 => 0xF0
  | 3 => 0xFF00
  | _ => 0xFFFF0000

/-- The shift array `S` of `flt_index`. -/
def fltShift (i : Nat) : Nat := 2 ^ i

/-- One round of the loop of `flt_index` on `(v, r)`. -/
def fltRound (x : BitVec 32 × BitVec 32) (i : Nat) : BitVec 32 × BitVec 32 :=
  if x.1 &&& fltMask i ≠ 0 then
    (x.1.sshiftRight (fltShift i), x.2 ||| BitVec.ofNat 32 (fltShift i))
  else x

/-- `flt_index`: the size class of `v`. -/
def fltIndex (v : BitVec 32) : Nat :=
  let r := ([4, 3, 2, 1, 0].foldl fltRound (v, 0)).2
  let ret := r - 3 + (if v &&& (v - 1) ≠ 0 then 1 else 0)
  if ret.toInt < 0 then 0
  else if ret.toInt > 10 then 10
  else ret.toInt.toNat

/-- `flt_index` at a `size_t` or `unsigned int` argument. -/
def fltIndexOf (n : Nat) : Nat := fltIndex (BitVec.ofNat 32 n)

-- ============================================================ free lists

/-- `freelist_insert2`: push `bp` on the list at `freelistp`. -/
def freelistInsert2 (freelistp bp : Nat) : M Unit := do
  let nextp ← nextFreeBlkp freelistp
  if (← blkSize bp) = blkMinSize then
    setNextFreeBlk bp nextp
    setNextFreeBlk freelistp bp
  else
    let nextp ← nextFreeBlkp freelistp
    setNextFreeBlk bp nextp
    setPrevFreeBlk bp freelistp
    setNextFreeBlk freelistp bp
    if nextp ≠ 0 then
      setPrevFreeBlk nextp bp

/-- `coalesce`, the check of the next block. -/
def coalesceNext (bp size : Nat) : M Nat := do
  if (← nextBlkAlloc bp) = blkFree then
    freelistDelBlk (← nextBlkp bp)
    return u32 (size + (← nextBlkSize bp))
  else return size

/-- `coalesce`, the check of the previous block: the size and the place
of the joined block. -/
def coalescePrev (bp size : Nat) : M (Nat × Nat) := do
  if (← prevBlkAlloc bp) = blkFree then
    freelistDelBlk (← prevBlkp bp)
    let size := u32 (size + (← prevBlkSize bp))
    return (size, ← prevBlkp bp)
  else return (size, bp)

/-- `coalesce`: take the free neighbours of `bp` off their lists and
join them to it. -/
def coalesce (bp : Nat) : M Nat := do
  let size ← coalesceNext bp (← blkSize bp)
  let (size, p) ← coalescePrev bp size
  setBlk p size blkFree
  return p

/-- `freelist_insert`. -/
def freelistInsert (bp : Nat) : M Unit := do
  let p ← coalesce bp
  let slot := fltIndexOf (← blkAvalSize p)
  freelistInsert2 ((← get).freelistTable + 8 * slot) p

/-- What `freelist_alloc` does with the first block that fits. -/
def freelistTake (p bsize nsize : Nat) : M Nat := do
  freelistDelBlk p
  let rsize := bsize - nsize
  if rsize ≥ blkMinSize then
    setBlk p nsize blkAlloc
    setBlk (← nextBlkp p) rsize blkFree
    freelistInsert (← nextBlkp p)
  else
    setBlk p (← blkSize p) blkAlloc
  return p

/-- The while loop of `freelist_alloc`, from the node `p`. -/
def freelistWalk (nsize : Nat) : Nat → Nat → M Nat
  | 0, _ => throw .spin
  | fuel + 1, p =>
      if p = 0 then pure 0
      else do
        let bsize ← blkSize p
        if bsize ≥ nsize then freelistTake p bsize nsize
        else freelistWalk nsize fuel (← nextFreeBlkp p)

/-- `freelist_alloc`: first fit on the list at `freelistp`. -/
def freelistAlloc (freelistp size : Nat) : M Nat := do
  let p ← nextFreeBlkp freelistp
  if p = 0 then pure 0
  else
    freelistWalk (u64 (align size + blkHdrSize + blkFtrSize)) loopFuel p

-- ========================================================= the open calls

/-- `extend_heap`. -/
def extendHeap (size : Int) : M Nat := do
  if size = 0 then return 0
  if size.tmod alignment ≠ 0 then return 0
  let oldBrk ← memSbrk size
  if oldBrk = minusOne then return 0
  setEb (← memSbrk 0)
  return oldBrk

/-- `segregate_mm_init`. -/
def segregateMmInit : M Nat := do
  let table ← extendHeap (fltSize + paddingBlkSize + pbHdrSize + pbFtrSize
    + ebHdrSize : Nat)
  modify fun s => { s with freelistTable := table }
  if table = 0 then return 1
  memset table 0 fltSize
  let heapListp := table + 8 * fltSlotNum
  setWord heapListp 0xDEADBEEF
  setWord (heapListp + paddingBlkSize) (pack 8 blkAlloc)
  setWord (heapListp + paddingBlkSize + pbHdrSize) (pack 8 blkAlloc)
  setWord (heapListp + paddingBlkSize + pbHdrSize + pbFtrSize)
    (pack 0 blkAlloc)
  modify fun s =>
    { s with heapListp := heapListp + paddingBlkSize + pbHdrSize }
  return 0

/-- The for loop of `segregate_mm_malloc` over the slots `is`. -/
def scanSlots (size : Nat) : List Nat → M Nat
  | [] => pure 0
  | i :: is => do
      let bp ← freelistAlloc ((← get).freelistTable + 8 * i) size
      if bp ≠ 0 then return bp
      scanSlots size is

/-- `segregate_mm_malloc`. -/
def segregateMmMalloc (size : Nat) : M Nat := do
  let index := fltIndexOf size
  let bp ← scanSlots size (List.range' index (fltSlotNum - index))
  if bp ≠ 0 then return bp
  let bsize := u64 (align size + blkHdrSize + blkFtrSize)
  let bp ← extendHeap (toInt bsize)
  if bp = 0 then return 0
  setBlk bp bsize blkAlloc
  return bp

/-- `segregate_mm_free`. -/
def segregateMmFree (ptr : Nat) : M Unit := freelistInsert ptr

/-- `segregate_mm_realloc`. -/
def segregateMmRealloc (ptr size : Nat) : M Nat := do
  if ptr = 0 then segregateMmMalloc size
  else if size = 0 then
    segregateMmFree ptr
    return 0
  else
    let asize := align size
    let avasize ← blkAvalSize ptr
    if asize > avasize then
      let np ← segregateMmMalloc asize
      memcpy np ptr (← blkAvalSize ptr)
      segregateMmFree ptr
      return np
    else
      if asize < avasize then
        if avasize - asize ≥ blkMinSize then
          setBlk ptr (u64 (asize + blkHdrSize + blkFtrSize)) blkAlloc
          setBlk (← nextBlkp ptr) (avasize - asize) blkFree
          segregateMmFree (← nextBlkp ptr)
      return ptr

end MallocLab.Model.Segregate
