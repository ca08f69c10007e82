/-
The segregated allocator with a trail: every link that `freelist_insert2`
writes into a block, with the machine it is written in. The writes to the
table are not links of a block and leave nothing.

The functions are those of Model/Segregate.lean, and the client is that
of Model/Client.lean on this allocator; `erase_run` says that nothing
else was changed.
-/
import MallocLab.Lib.Trail
import MallocLab.Model.Client

namespace MallocLab.Model.Segregate.LinkWrites

open Model Tracing

/-- Eight bytes about to be written at `addr`, a link of the block
`block`. -/
structure LinkWrite where
  machine : Machine
  block : Nat
  addr : Nat

/-- A call with the links it writes. -/
abbrev L := Trail Stop Machine LinkWrite

/-- `SET_NEXT_FREE_BLK` of a block. -/
def setNextFreeBlk (bp next : Nat) : L Unit :=
  mark (fun s => ⟨s, bp, bp⟩) (Segregate.setNextFreeBlk bp next)

/-- `SET_PREV_FREE_BLK` of a block. -/
def setPrevFreeBlk (bp prev : Nat) : L Unit :=
  mark (fun s => ⟨s, bp, bp + 8⟩) (Segregate.setPrevFreeBlk bp prev)

/-- `freelist_insert2`. -/
def freelistInsert2 (freelistp bp : Nat) : L Unit := do
  let nextp ← nextFreeBlkp freelistp
  if (← blkSize bp) = blkMinSize then
    setNextFreeBlk bp nextp
    Segregate.setNextFreeBlk freelistp bp
  else
    let nextp ← nextFreeBlkp freelistp
    setNextFreeBlk bp nextp
    setPrevFreeBlk bp freelistp
    Segregate.setNextFreeBlk freelistp bp
    if nextp ≠ 0 then
      setPrevFreeBlk nextp bp

/-- `freelist_insert`. -/
def freelistInsert (bp : Nat) : L Unit := do
  let p ← coalesce bp
  let slot := fltIndexOf (← blkAvalSize p)
  let s ← (get : M Machine)
  freelistInsert2 (s.freelistTable + 8 * slot) p

/-- What `freelist_alloc` does with the first block that fits. -/
def freelistTake (p bsize nsize : Nat) : L Nat := do
  freelistDelBlk p
  let rsize := bsize - nsize
  if rsize ≥ blkMinSize then
    setBlk p nsize blkAlloc
    setBlk (← nextBlkp p) rsize blkFree
    freelistInsert (← nextBlkp p)
  else
    setBlk p (← blkSize p) blkAlloc
  return p

/-- The while loop of `freelist_alloc`, from the node `p`. -/
def freelistWalk (nsize : Nat) : Nat → Nat → L Nat
  | 0, _ => (throw .spin : M Nat)
  | fuel + 1, p =>
      if p = 0 then pure 0
      else do
        let bsize ← blkSize p
        if bsize ≥ nsize then freelistTake p bsize nsize
        else freelistWalk nsize fuel (← nextFreeBlkp p)

/-- `freelist_alloc`: first fit on the list at `freelistp`. -/
def freelistAlloc (freelistp size : Nat) : L Nat := do
  let p ← nextFreeBlkp freelistp
  if p = 0 then pure 0
  else
    freelistWalk (u64 (align size + blkHdrSize + blkFtrSize)) loopFuel p

/-- The for loop of `segregate_mm_malloc` over the slots `is`. -/
def scanSlots (size : Nat) : List Nat → L Nat
  | [] => pure 0
  | i :: is => do
      let s ← (get : M Machine)
      let bp ← freelistAlloc (s.freelistTable + 8 * i) size
      if bp ≠ 0 then return bp
      scanSlots size is

/-- `segregate_mm_malloc`. -/
def segregateMmMalloc (size : Nat) : L Nat := do
  let index := fltIndexOf size
  let bp ← scanSlots size (List.range' index (fltSlotNum - index))
  if bp ≠ 0 then return bp
  let bsize := u64 (align size + blkHdrSize + blkFtrSize)
  let bp ← extendHeap (toInt bsize)
  if bp = 0 then return 0
  setBlk bp bsize blkAlloc
  return bp

/-- `segregate_mm_free`. -/
def segregateMmFree (ptr : Nat) : L Unit := freelistInsert ptr

/-- `segregate_mm_realloc`. -/
def segregateMmRealloc (ptr size : Nat) : L Nat := do
  if ptr = 0 then segregateMmMalloc size
  else if size = 0 then
    segregateMmFree ptr
    return 0
  else
    let asize := align size
    let avasize ← blkAvalSize ptr
    if asize > avasize then
      let np ← segregateMmMalloc asize
      memcpy np ptr (← blkAvalSize ptr)
      segregateMmFree ptr
      return np
    else
      if asize < avasize then
        if avasize - asize ≥ blkMinSize then
          setBlk ptr (u64 (asize + blkHdrSize + blkFtrSize)) blkAlloc
          setBlk (← nextBlkp ptr) (avasize - asize) blkFree
          segregateMmFree (← nextBlkp ptr)
      return ptr

/-- Serve one request. -/
def serve (live : List Alloc) : Req → L (Nat × List Alloc)
  | .malloc size => do
      let p ← segregateMmMalloc size
      return (p, enrol live p size)
  | .free i =>
      match live[i]? with
      | none => return (0, live)
      | some a => do
          segregateMmFree a.ptr
          return (0, live.eraseIdx i)
  | .realloc i size =>
      match live[i]? with
      | none => return (0, live)
      | some a => do
          let p ← segregateMmRealloc a.ptr size
          return (p, resized live i p size)
  | .reallocNull size => do
      let p ← segregateMmRealloc 0 size
      return (p, enrol live p size)
  | .write i off v => liftM (Model.serve .segregate live (.write i off v))

/-- Serve a list of requests. -/
def serveAll : List Alloc → List Req → L (List Nat × List Alloc)
  | live, [] => return ([], live)
  | live, r :: rs => do
      let (p, live) ← serve live r
      let (ps, live) ← serveAll live rs
      return (p :: ps, live)

/-- A run: initialise, then serve the requests. -/
def run (reqs : List Req) : L (List Nat × List Alloc) := do
  let _ ← segregateMmInit
  serveAll [] reqs

-- ======================================================== the same program

theorem erase_freelistInsert2 (freelistp bp : Nat) :
    erase (freelistInsert2 freelistp bp)
      = Segregate.freelistInsert2 freelistp bp := by
  unfold freelistInsert2 Segregate.freelistInsert2 setNextFreeBlk
    setPrevFreeBlk
  simp only [erase_bind, erase_silent, erase_ite, erase_pure, erase_mark]

theorem erase_freelistInsert (bp : Nat) :
    erase (freelistInsert bp) = Segregate.freelistInsert bp := by
  unfold freelistInsert Segregate.freelistInsert
  simp only [erase_bind, erase_silent, erase_freelistInsert2]

theorem erase_freelistTake (p bsize nsize : Nat) :
    erase (freelistTake p bsize nsize)
      = Segregate.freelistTake p bsize nsize := by
  unfold freelistTake Segregate.freelistTake
  simp only [erase_bind, erase_silent, erase_ite, erase_pure,
    erase_freelistInsert]

theorem erase_freelistWalk (nsize fuel p : Nat) :
    erase (freelistWalk nsize fuel p)
      = Segregate.freelistWalk nsize fuel p := by
  induction fuel generalizing p with
  | zero => exact erase_silent _
  | succ fuel ih =>
      unfold freelistWalk Segregate.freelistWalk
      simp only [erase_bind, erase_silent, erase_ite, erase_pure,
        erase_freelistTake, ih]

theorem erase_freelistAlloc (freelistp size : Nat) :
    erase (freelistAlloc freelistp size)
      = Segregate.freelistAlloc freelistp size := by
  unfold freelistAlloc Segregate.freelistAlloc
  simp only [erase_bind, erase_silent, erase_ite, erase_pure,
    erase_freelistWalk]

theorem erase_scanSlots (size : Nat) (is : List Nat) :
    erase (scanSlots size is) = Segregate.scanSlots size is := by
  induction is with
  | nil => exact erase_pure _
  | cons i is ih =>
      unfold scanSlots Segregate.scanSlots
      simp only [erase_bind, erase_silent, erase_ite, erase_pure,
        erase_freelistAlloc, ih]

theorem erase_segregateMmMalloc (size : Nat) :
    erase (segregateMmMalloc size) = Segregate.segregateMmMalloc size := by
  unfold segregateMmMalloc Segregate.segregateMmMalloc
  simp only [erase_bind, erase_silent, erase_ite, erase_pure,
    erase_scanSlots]

theorem erase_segregateMmFree (ptr : Nat) :
    erase (segregateMmFree ptr) = Segregate.segregateMmFree ptr :=
  erase_freelistInsert ptr

theorem erase_segregateMmRealloc (ptr size : Nat) :
    erase (segregateMmRealloc ptr size)
      = Segregate.segregateMmRealloc ptr size := by
  unfold segregateMmRealloc Segregate.segregateMmRealloc
  simp only [erase_bind, erase_silent, erase_ite, erase_pure,
    erase_segregateMmMalloc, erase_segregateMmFree]

theorem erase_serve (live : List Alloc) (r : Req) :
    erase (serve live r) = Model.serve .segregate live r := by
  cases r with
  | malloc size =>
      simp only [serve, Model.serve, mmMalloc, erase_bind, erase_pure,
        erase_segregateMmMalloc]
  | free i =>
      simp only [serve, Model.serve]
      cases live[i]? with
      | none => exact erase_pure _
      | some a =>
          simp only [mmFree, erase_bind, erase_pure, erase_segregateMmFree]
  | realloc i size =>
      simp only [serve, Model.serve]
      cases live[i]? with
      | none => exact erase_pure _
      | some a =>
          simp only [mmRealloc, erase_bind, erase_pure,
            erase_segregateMmRealloc]
  | reallocNull size =>
      simp only [serve, Model.serve, mmRealloc, erase_bind, erase_pure,
        erase_segregateMmRealloc]
  | write i off v => exact erase_silent _

theorem erase_serveAll (live : List Alloc) (reqs : List Req) :
    erase (serveAll live reqs) = Model.serveAll .segregate live reqs := by
  induction reqs generalizing live with
  | nil => exact erase_pure _
  | cons r rs ih =>
      unfold serveAll Model.serveAll
      simp only [erase_bind, erase_pure, erase_serve, ih]

/-- Without its trail it is the run of the segregated allocator. -/
theorem erase_run (reqs : List Req) :
    erase (run reqs) = Model.run .segregate reqs := by
  unfold run Model.run
  simp only [erase_bind, erase_silent, erase_serveAll]
  rfl

end MallocLab.Model.Segregate.LinkWrites
