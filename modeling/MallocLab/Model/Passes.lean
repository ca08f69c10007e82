/-
mdriver.c beyond the correctness check: what `main` does with each trace.
A trace that `eval_mm_valid` accepts is run again by `eval_mm_util`, for
the space it takes, and ten times by `eval_mm_speed`, for the time; the
storage is cleared before and after each run, by `clean_up`.

These passes do not carry on after a failed call: `app_error` and
`realloc_error` exit. So they run in `P`, which is `D` with an exit.

The clock readings of `ftimer_gettod` are left out, with what `main`
computes from them, and so is the rounding of `double`: a utilization is
the quotient itself.
-/
import MallocLab.Model.Trace
import Mathlib.Data.Rat.Defs

namespace MallocLab.Model

open Mem

variable {σ α : Type}

-- =============================================================== memlib.c

/-- `mem_clear`. The storage is memlib.c's own: this is no access of the
package's. -/
def memClear : M Unit := do
  modify fun s => { s with mem := fill s.mem s.memStartBrk maxHeap 0 }
  memResetBrk

/-- `mem_heapsize`. -/
def memHeapsize : M Nat := do
  let s ← get
  return s.memBrk - s.memStartBrk

-- ================================================================ the exits

/-- Why a pass did not return. -/
inductive Ended
  /-- The driver did not go on. -/
  | halt (h : Halt)
  /-- `exit(1)`, with the text `app_error` printed, if it did. -/
  | exit (text : String)
  /-- `read_trace` did not return. -/
  | quit (e : Quit)
deriving DecidableEq, Repr

/-- The driver's functions that may exit. -/
abbrev P (σ : Type) := EStateM Ended (World σ)

/-- A function that does not exit. -/
def plain (x : D σ α) : P σ α := fun w =>
  match x.run w with
  | .ok a w => .ok a w
  | .error e w => .error (.halt e) w

/-- `app_error`. -/
def appError (msg : String) : P σ α := throw (.exit msg)

/-- `realloc_error`. -/
def reallocError (tracenum : Int) (opnum : Nat) (msg : String) : P σ α := do
  plain (mallocError tracenum opnum msg)
  throw (.exit "")

-- ============================================================= the pointers

/-- Remember the pointer of an id, and not its size. -/
def rememberBlock (index p : Nat) : D σ Unit :=
  modify fun w => { w with blocks := Function.update w.blocks index p }

/-- `clean_up`, for a trace with `numIds` ids. -/
def cleanUp (numIds : Nat) : D σ Unit := do
  onMachine memClear
  modify fun w => { w with
    blocks := fun i => if i < numIds then 0 else w.blocks i
    blockSizes := fun i => if i < numIds then 0 else w.blockSizes i }

-- ============================================================ eval_mm_util

/-- `total_size` and `max_total_size`. -/
structure Totals where
  total : Int
  max : Int
deriving DecidableEq, Repr

/-- Bring the totals up to date after the payload grew by `n` bytes. -/
def Totals.add (t : Totals) (n : Int) : Totals :=
  let total := cutInt (t.total + n)
  ⟨total, if total > t.max then total else t.max⟩

/-- One round of the loop of `eval_mm_util`. -/
def utilOp (pkg : Package σ) (tracenum : Int) (i : Nat) (op : TraceOp)
    (t : Totals) : P σ Totals := do
  let index := op.index
  match op.type with
  | .alloc =>
      let size := op.size
      let p ← plain (call (pkg.mmMalloc (sizeT size)))
      if p = 0 then appError "mm_malloc failed in eval_mm_util"
      plain (remember index p size)
      return t.add size
  | .realloc =>
      let newsize := op.size
      let oldsize := toInt ((← get).blockSizes index)
      let oldp := (← get).blocks index
      let newp ← plain (call (pkg.mmRealloc oldp (sizeT newsize)))
      if newp = 0 then
        reallocError tracenum i "mm_realloc failed in eval_mm_util"
      plain (remember index newp newsize)
      return t.add (newsize - oldsize)
  | .free =>
      let size := toInt ((← get).blockSizes index)
      let p := (← get).blocks index
      plain (call (pkg.mmFree p))
      return { t with total := cutInt (t.total - size) }

/-- The loop over the trace, from its `i`-th request on. -/
def utilOps (pkg : Package σ) (tracenum : Int) :
    Nat → List TraceOp → Totals → P σ Totals
  | _, [], t => return t
  | i, op :: ops, t => do
      utilOps pkg tracenum (i + 1) ops (← utilOp pkg tracenum i op t)

/-- `eval_mm_util`. The quotient is exact where C rounds to a `double`. Of
an empty heap it is 0 here, infinite or no number in C. -/
def evalMmUtil (pkg : Package σ) (ops : List TraceOp) (tracenum : Int) :
    P σ ℚ := do
  if (← plain (call pkg.mmInit)) < 0 then
    appError "mm_init failed in eval_mm_util"
  let t ← utilOps pkg tracenum 0 ops ⟨0, 0⟩
  return t.max / (← plain (onMachine memHeapsize) : Nat)

-- =========================================================== eval_mm_speed

/-- One round of the loop of `eval_mm_speed`. -/
def speedOp (pkg : Package σ) (i : Nat) (op : TraceOp) : P σ Unit := do
  let index := op.index
  match op.type with
  | .alloc =>
      let p ← plain (call (pkg.mmMalloc (sizeT op.size)))
      if p = 0 then appError "mm_malloc error in eval_mm_speed"
      plain (rememberBlock index p)
  | .realloc =>
      let oldp := (← get).blocks index
      let newp ← plain (call (pkg.mmRealloc oldp (sizeT op.size)))
      if newp = 0 then
        reallocError (-1) i "mm_realloc error in eval_mm_speed"
      plain (rememberBlock index newp)
  | .free =>
      let block := (← get).blocks index
      plain (call (pkg.mmFree block))

/-- The loop over the trace, from its `i`-th request on. -/
def speedOps (pkg : Package σ) : Nat → List TraceOp → P σ Unit
  | _, [] => return ()
  | i, op :: ops => do
      speedOp pkg i op
      speedOps pkg (i + 1) ops

/-- `eval_mm_speed`. -/
def evalMmSpeed (pkg : Package σ) (ops : List TraceOp) : P σ Unit := do
  if (← plain (call pkg.mmInit)) < 0 then
    appError "mm_init failed in eval_mm_speed"
  speedOps pkg 0 ops

/-- The loop of `ftimer_gettod`: `f`, and then `g`, `n` times over. -/
def ftimerGettod (f g : P σ Unit) : Nat → P σ Unit
  | 0 => return ()
  | n + 1 => do
      f
      g
      ftimerGettod f g n

-- ==================================================================== main

/-- What `main` uses of a trace `read_trace` returned. -/
structure Script where
  numIds : Nat
  ops : List TraceOp

/-- `stats_t`, without the seconds. -/
structure Stats where
  ops : Nat
  valid : Int
  util : ℚ
deriving DecidableEq

/-- The two arrays of a trace, as `read_trace` allocates them. -/
def newArrays : D σ Unit :=
  modify fun w => { w with
    blocks := fun _ => 0
    blockSizes := fun _ => 0 }

/-- What `main` does with a trace. -/
def evalTrace (pkg : Package σ) (tracenum : Int) (trace : Script) :
    P σ Stats := do
  plain newArrays
  let valid ← plain (evalMmValid pkg trace.ops tracenum)
  if valid ≠ 0 then
    plain (cleanUp trace.numIds)
    let util ← evalMmUtil pkg trace.ops tracenum
    plain (cleanUp trace.numIds)
    ftimerGettod (evalMmSpeed pkg trace.ops)
      (plain (cleanUp trace.numIds)) 10
    return ⟨trace.ops.length, valid, util⟩
  else
    return ⟨trace.ops.length, valid, 0⟩

/-- The loop of `main` over traces that are read, from the `i`-th on. -/
def evalTraces (pkg : Package σ) : Nat → List Script → P σ (List Stats)
  | _, [] => return []
  | i, trace :: traces => do
      let stats ← evalTrace pkg i trace
      return stats :: (← evalTraces pkg (i + 1) traces)

/-- A trace file that was opened: its path and its text, the memory
there is for its arrays, and what the variables `read_trace` reads into
held before. -/
structure Opened where
  path : String
  text : List Char
  calloc : Calloc
  old : Trace
  size : Nat

/-- An entry of `trace->ops`, as the passes use it. -/
def StoredOp.op (x : StoredOp) : TraceOp where
  type := x.type
  index := x.index.toNat
  size := cutInt x.size
  int := by
    unfold cutInt
    rw [Int.bmod_def]
    omega

/-- The trace of a file, as the passes use it. -/
def Trace.script (t : Trace) : Script :=
  ⟨t.numIds.toNat, t.ops.map StoredOp.op⟩

/-- `read_trace`, called by `main`. -/
def readFile (file : Opened) : P σ Script :=
  match readTrace file.calloc file.path file.old file.size file.text with
  | .ok t => return t.script
  | .error e => throw (.quit e)

/-- The loop of `main` over the trace files, from the `i`-th on. -/
def evalFiles (pkg : Package σ) : Nat → List Opened → P σ (List Stats)
  | _, [] => return []
  | i, file :: files => do
      let trace ← readFile file
      let stats ← evalTrace pkg i trace
      return stats :: (← evalFiles pkg (i + 1) files)

/-- `numcorrect`. -/
def numcorrect (stats : List Stats) : Nat :=
  stats.countP fun x => x.valid ≠ 0

/-- `errors`, which `malloc_error` and `realloc_error` count up. -/
def World.errors (w : World σ) : Nat := w.output.length

end MallocLab.Model
