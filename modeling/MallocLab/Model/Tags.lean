/-
The tag macros, shared word for word by segregate.c and implicit.c: what
is read from and written to a block's header and footer, and the pointer
arithmetic from a block to its neighbours. Where the two files spell a
macro differently (`BLK_SIZE` and `RB_SIZE`), segregate.c's word is used
here and Model/Implicit.lean gives implicit.c's as another name.

A macro's arguments are evaluated once here. In C they are evaluated at
each mention, which comes to the same: no macro writes what its
arguments read before it has read it.
-/
import MallocLab.Model.Machine

namespace MallocLab.Model

-- ============================================================= constants

/-- `ALIGNMENT`, utils.h. -/
def alignment : Nat := 8

def blkFree : Nat := 0
def blkAlloc : Nat := 1

def blkHdrSize : Nat := 4
def blkFtrSize : Nat := 4

def paddingBlkSize : Nat := 4
def pbHdrSize : Nat := 4
def pbFtrSize : Nat := 4
def ebHdrSize : Nat := 4

-- ============================================================ single words

/-- `PACK`. -/
def pack (size alloc : Nat) : Nat := size ||| alloc

/-- `GET`. -/
def getWord (p : Nat) : M Nat := load 4 p

/-- `SET`: the value is cut to an `unsigned int`. -/
def setWord (p val : Nat) : M Unit := store 4 p val

/-- `GET_SIZE`: the word at `p & ~0x7`. -/
def getSize (p : Nat) : M Nat := do
  return (← getWord p) &&& (2 ^ 32 - 8)

/-- `GET_ALLOC`: the word at `p & 0x1`. -/
def getAlloc (p : Nat) : M Nat := do
  return (← getWord p) &&& 1

-- ============================================================= one block

/-- `EB_HDRP`. -/
def ebHdrp (p : Nat) : Nat := p - ebHdrSize

/-- `SET_EB`. -/
def setEb (p : Nat) : M Unit := setWord (ebHdrp p) (pack 0 1)

/-- `BLK_HDRP`. -/
def blkHdrp (p : Nat) : Nat := p - blkHdrSize

/-- `BLK_SIZE`. -/
def blkSize (p : Nat) : M Nat := getSize (blkHdrp p)

/-- `BLK_AVAL_SIZE`, in `unsigned int`. -/
def blkAvalSize (p : Nat) : M Nat := do
  return u32 ((← blkSize p) + 2 ^ 32 - blkHdrSize - blkFtrSize)

/-- `BLK_STATE`. -/
def blkState (p : Nat) : M Nat := getAlloc (blkHdrp p)

/-- `BLK_FTRP`. -/
def blkFtrp (p : Nat) : M Nat := do
  return p + (← blkAvalSize p)

/-- `SET_BLK`: the header first, the footer at the place the header just
written says. -/
def setBlk (p size alloc : Nat) : M Unit := do
  setWord (blkHdrp p) (pack size alloc)
  setWord (← blkFtrp p) (pack size alloc)

-- ============================================================ neighbours

/-- `NEXT_BLKP`. -/
def nextBlkp (p : Nat) : M Nat := do
  return p + (← blkSize p)

/-- `NEXT_HDRP`. -/
def nextHdrp (p : Nat) : M Nat := do
  return blkHdrp (p + (← blkSize p))

/-- `PREV_FTRP`. -/
def prevFtrp (p : Nat) : Nat := p - blkHdrSize - blkFtrSize

/-- `PREV_BLK_ALLOC`. -/
def prevBlkAlloc (p : Nat) : M Nat := getAlloc (prevFtrp p)

/-- `PREV_BLK_SIZE`. -/
def prevBlkSize (p : Nat) : M Nat := getSize (prevFtrp p)

/-- `NEXT_BLK_ALLOC`. -/
def nextBlkAlloc (p : Nat) : M Nat := do
  getAlloc (← nextHdrp p)

/-- `NEXT_BLK_SIZE`. -/
def nextBlkSize (p : Nat) : M Nat := do
  getSize (← nextHdrp p)

/-- `PREV_BLKP`. -/
def prevBlkp (p : Nat) : M Nat := do
  return p - (← prevBlkSize p)

end MallocLab.Model
