/-
mdriver.c's check of a malloc package on a trace: the list of payload
extents and `eval_mm_valid`.

The package is whatever the driver is linked with: four calls on the
machine and on static data of the package's own. All that is asked of it
is what memlib.c imposes, that a call moves the break by `mem_sbrk` only
(`Sbrks`).

The driver runs in `D`: the machine, the package's static data, and its
own variables, the two arrays of the trace among them. They are functions
here: `read_trace` asserts that allocated ids index them, and what a free
may name is the subject of Proofs/Trace.lean.
`sprintf` and `printf` append to the lines of output.
-/
import MallocLab.Model.Tags

namespace MallocLab.Model

variable {σ α : Type}

-- ============================================================ the package

/-- What any number of calls of `mem_sbrk` come to: the break does not
fall and does not pass the limit. -/
structure Sbrks (s s' : Machine) : Prop where
  start : s'.memStartBrk = s.memStartBrk
  max : s'.memMaxAddr = s.memMaxAddr
  grows : s.memBrk ≤ s'.memBrk
  limit : s.memBrk ≤ s.memMaxAddr → s'.memBrk ≤ s.memMaxAddr

theorem Sbrks.refl (s : Machine) : Sbrks s s :=
  ⟨rfl, rfl, Nat.le_refl _, fun h => h⟩

theorem Sbrks.trans {s s' s'' : Machine} (h : Sbrks s s')
    (h' : Sbrks s' s'') : Sbrks s s'' where
  start := h'.start.trans h.start
  max := h'.max.trans h.max
  grows := Nat.le_trans h.grows h'.grows
  limit := fun hlim => by
    have := h'.limit (by rw [h.max]; exact h.limit hlim)
    rwa [h.max] at this

/-- One call of `mem_sbrk`. -/
theorem memSbrk_sbrks {k : Int} {s s' : Machine} {p : Nat}
    (h : (memSbrk k).run s = .ok p s') : Sbrks s s' := by
  change (if _ then _ else _) = _ at h
  split at h
  · cases h
    exact ⟨rfl, rfl, Nat.le_refl _, fun h => h⟩
  · cases h
    refine ⟨rfl, rfl, ?_, fun hlimit => ?_⟩
    · show s.memBrk ≤ (s.memBrk + k).toNat
      omega
    · show (s.memBrk + k).toNat ≤ s.memMaxAddr
      omega

/-- A malloc package with static data in `σ`, as mm.h declares it. -/
structure Package (σ : Type) where
  mmInit : σ → M (Int × σ)
  mmMalloc : Nat → σ → M (Nat × σ)
  mmFree : Nat → σ → M (Unit × σ)
  mmRealloc : Nat → Nat → σ → M (Nat × σ)
  init_sbrks : ∀ st s r s', (mmInit st).run s = .ok r s' → Sbrks s s'
  malloc_sbrks : ∀ n st s r s',
    (mmMalloc n st).run s = .ok r s' → Sbrks s s'
  free_sbrks : ∀ p st s r s',
    (mmFree p st).run s = .ok r s' → Sbrks s s'
  realloc_sbrks : ∀ p n st s r s',
    (mmRealloc p n st).run s = .ok r s' → Sbrks s s'

-- ================================================================ the data

/-- `range_t`: the first and the last address of a payload. -/
structure Range where
  lo : Nat
  hi : Nat
deriving DecidableEq, Repr

/-- The type of a request. -/
inductive OpType
  | alloc
  | free
  | realloc
deriving DecidableEq, Repr

/-- `traceop_t`. The size is an `int`. -/
structure TraceOp where
  type : OpType
  index : Nat
  size : Int
  int : -2 ^ 31 ≤ size ∧ size < 2 ^ 31 := by decide

/-- Why the driver did not go on. -/
inductive Halt
  /-- A call, or an access of the driver's own, stopped. -/
  | stop (e : Stop)
  /-- An assertion failed. -/
  | abort
deriving DecidableEq, Repr

/-- The driver's state. -/
structure World (σ : Type) where
  machine : Machine
  /-- The package's static data. -/
  statics : σ
  /-- The range list, its head first. -/
  ranges : List Range
  /-- `trace->blocks`. -/
  blocks : Nat → Nat
  /-- `trace->block_sizes`. -/
  blockSizes : Nat → Nat
  /-- The lines printed; there are `errors` of them. -/
  output : List String

/-- The state a trace is checked in, as `main` and `read_trace` leave
it. -/
def World.start (s : Machine) (st : σ) : World σ where
  machine := s
  statics := st
  ranges := []
  blocks := fun _ => 0
  blockSizes := fun _ => 0
  output := []

/-- The driver's functions. -/
abbrev D (σ : Type) := EStateM Halt (World σ)

/-- A function on the machine alone. -/
def onMachine (x : M α) : D σ α := fun w =>
  match x.run w.machine with
  | .ok a s => .ok a { w with machine := s }
  | .error e s => .error (.stop e) { w with machine := s }

/-- A call of the package. -/
def call (f : σ → M (α × σ)) : D σ α := fun w =>
  match (f w.statics).run w.machine with
  | .ok (a, st) s => .ok a { w with
      machine := s
      statics := st }
  | .error e s => .error (.stop e) { w with machine := s }

/-- Conversion of an `int` to `size_t`. -/
def sizeT (i : Int) : Nat := (i % 2 ^ 64).toNat

/-- A `char` as an `int`; plain `char` is signed. -/
def charInt (c : Nat) : Int := Int.bmod c (2 ^ 8)

/-- The conversion of `%p`. -/
def ptrText (p : Nat) : String := "0x" ++ String.ofList (Nat.toDigits 16 p)

/-- `malloc_error`: requests are counted from line 5 of the trace. -/
def mallocError (tracenum : Int) (opnum : Nat) (msg : String) : D σ Unit :=
  modify fun w => { w with
    output := w.output ++ ["ERROR [trace " ++ toString tracenum ++
      ", line " ++ toString (opnum + 5) ++ "]: " ++ msg] }

-- ========================================================== the range list

/-- The test of `add_range` on a range of the list. -/
def overlaps (lo hi : Nat) (p : Range) : Bool :=
  decide (lo ≥ p.lo ∧ lo ≤ p.hi ∨ hi ≥ p.lo ∧ hi ≤ p.hi)

/-- `add_range`. -/
def addRange (lo : Nat) (size tracenum : Int) (opnum : Nat) : D σ Bool := do
  let hi := sizeT (lo + size - 1)
  if size < 0 then throw .abort
  if u32 lo % alignment ≠ 0 then
    mallocError tracenum opnum ("Payload address (" ++ ptrText lo ++
      ") not aligned to " ++ toString alignment ++ " bytes")
    return false
  let heapLo ← onMachine memHeapLo
  let heapHi ← onMachine memHeapHi
  if lo < heapLo ∨ lo > heapHi ∨ hi < heapLo ∨ hi > heapHi then
    mallocError tracenum opnum ("Payload (" ++ ptrText lo ++ ":" ++
      ptrText hi ++ ") lies outside heap (" ++ ptrText heapLo ++ ":" ++
      ptrText heapHi ++ ")")
    return false
  match (← get).ranges.find? (overlaps lo hi) with
  | some p =>
      mallocError tracenum opnum ("Payload (" ++ ptrText lo ++ ":" ++
        ptrText hi ++ ") overlaps another payload (" ++ ptrText p.lo ++
        ":" ++ ptrText p.hi ++ ")\n")
      return false
  | none =>
      modify fun w => { w with ranges := ⟨lo, hi⟩ :: w.ranges }
      return true

/-- `remove_range`: the first range that starts at `lo`. -/
def removeRange (lo : Nat) : D σ Unit :=
  modify fun w => { w with ranges := w.ranges.eraseP (·.lo == lo) }

/-- `clear_ranges`. -/
def clearRanges : D σ Unit := modify fun w => { w with ranges := [] }

-- =========================================================== eval_mm_valid

/-- `memset(p, index & 0xFF, size)`. -/
def fillRange (p index : Nat) (size : Int) : D σ Unit :=
  onMachine (memset p (UInt8.ofNat (index &&& 0xFF)) (sizeT size))

/-- Remember the region of an id. -/
def remember (index p : Nat) (size : Int) : D σ Unit :=
  modify fun w => { w with
    blocks := Function.update w.blocks index p
    blockSizes := Function.update w.blockSizes index (sizeT size) }

/-- The loop that compares `n` bytes of the new block, from the `j`-th
on, with the low byte of the id. -/
def keptData (newp index : Nat) : Nat → Nat → D σ Bool
  | 0, _ => return true
  | n + 1, j => do
      if charInt (← onMachine (load 1 (newp + j))) ≠ (index &&& 0xFF : Nat)
        then return false
      keptData newp index n (j + 1)

/-- One round of the loop over the trace: whether it goes on. -/
def evalOp (pkg : Package σ) (tracenum : Int) (i : Nat) (op : TraceOp) :
    D σ Bool := do
  let index := op.index
  let size := op.size
  match op.type with
  | .alloc =>
      let p ← call (pkg.mmMalloc (sizeT size))
      if p = 0 then
        mallocError tracenum i "mm_malloc failed."
        return false
      if (← addRange p size tracenum i) = false then return false
      fillRange p index size
      remember index p size
      return true
  | .realloc =>
      let oldp := (← get).blocks index
      let newp ← call (pkg.mmRealloc oldp (sizeT size))
      if newp = 0 then
        mallocError tracenum i "mm_realloc failed."
        return false
      removeRange oldp
      if (← addRange newp size tracenum i) = false then return false
      let oldsize := toInt ((← get).blockSizes index)
      let oldsize := if size < oldsize then size else oldsize
      if (← keptData newp index oldsize.toNat 0) = false then
        mallocError tracenum i
          "mm_realloc did not preserve the data from old block"
        return false
      fillRange newp index size
      remember index newp size
      return true
  | .free =>
      let p := (← get).blocks index
      removeRange p
      call (pkg.mmFree p)
      return true

/-- The loop over the trace, from its `i`-th request on. -/
def evalOps (pkg : Package σ) (tracenum : Int) :
    Nat → List TraceOp → D σ Int
  | _, [] => return 1
  | i, op :: ops => do
      if (← evalOp pkg tracenum i op) = false then return 0
      evalOps pkg tracenum (i + 1) ops

/-- The start of `eval_mm_valid`: an empty heap, no ranges, `mm_init`. -/
def evalInit (pkg : Package σ) : D σ Int := do
  onMachine memResetBrk
  clearRanges
  call pkg.mmInit

/-- `eval_mm_valid`. -/
def evalMmValid (pkg : Package σ) (ops : List TraceOp) (tracenum : Int) :
    D σ Int := do
  if (← evalInit pkg) < 0 then
    mallocError tracenum 0 "mm_init failed."
    return 0
  evalOps pkg tracenum 0 ops

end MallocLab.Model
