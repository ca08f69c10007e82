/-
mdriver.c's `read_trace`, from the open trace file on: the four numbers
of the header, the arrays they size, and the loop over the request
lines, character by character as `fscanf` reads them.

A variable that no number was found for keeps what it held. For `size`
and the fields of the record that is at first what the memory held, so
both are given from outside. Numbers too large for their variable are
cut to its width; `fscanf` does so up to 64 bits, and gives the largest
number past them.

The loop is given more rounds than the text has characters; each round
takes at least one. A store past the end of `trace->ops`, or of a word
past the end of `type`, has no meaning in C, and the model stops there.
-/
import MallocLab.Lib.Scan
import MallocLab.Model.Driver

namespace MallocLab.Model

open Scan

-- ================================================================ the data

/-- `MAXLINE`. -/
def maxLine : Nat := 1024

/-- An entry of `trace->ops`. The index is an `int`; the driver's checks
take it as a position (`TraceOp`). -/
structure StoredOp where
  type : OpType
  index : Int
  size : Int
deriving DecidableEq, Repr

/-- An entry as `calloc` leaves it. -/
def StoredOp.zero : StoredOp := ⟨.alloc, 0, 0⟩

/-- `trace_t`, without the two arrays `read_trace` only allocates. -/
structure Trace where
  suggHeapsize : Int
  numIds : Int
  numOps : Int
  weight : Int
  ops : List StoredOp
deriving DecidableEq, Repr

/-- Why `read_trace` did not return. -/
inductive Quit
  /-- `exit(1)`, with this text printed; `unix_error` adds what
  `strerror` says and a new line. -/
  | exit (text : String)
  /-- An assertion failed. -/
  | abort
  /-- A store to `trace->ops` at a position it does not have. -/
  | overrun (i : Nat)
  /-- A word too long for `type`. -/
  | smash
  /-- A loop that never ends. -/
  | spin
deriving DecidableEq, Repr

/-- Does the `k`-th `calloc` of `read_trace` find room for `n` objects
of `size` bytes? It finds none for a size that no `size_t` holds. -/
structure Calloc where
  grants : Nat → Nat → Nat → Bool
  overflow : ∀ k n size, 2 ^ 64 ≤ n * size → grants k n size = false

-- ============================================================== the scanning

/-- Conversion of a number to `int`. -/
def cutInt (n : Int) : Int := Int.bmod n (2 ^ 32)

/-- A number that is an `int` is not cut. -/
theorem cutInt_of_lt {n : Nat} (h : n < 2 ^ 31) : cutInt n = n := by
  unfold cutInt
  exact Int.bmod_eq_of_le (by omega) (by omega)

/-- Conversion of a number to `unsigned`. -/
def cutUnsigned (n : Int) : Nat := (n % 2 ^ 32).toNat

theorem cutUnsigned_of_lt {n : Nat} (h : n < 2 ^ 32) :
    cutUnsigned n = n := by
  unfold cutUnsigned
  omega

/-- `fscanf("%d", &x)` for an `x` that holds `old`. -/
def scanInt (old : Int) (text : List Char) : Int × List Char :=
  let (n, text) := decimal text
  (cutInt (n.getD old), text)

/-- `fscanf("%u %u", &index, &size)`: without the first number the
second is not looked for. -/
def scanTwo (index size : Nat) (text : List Char) :
    Nat × Nat × List Char :=
  match decimal text with
  | (none, text) => (index, size, text)
  | (some i, text) =>
      let (n, text) := decimal (skip text)
      (cutUnsigned i, (n.map cutUnsigned).getD size, text)

/-- `fscanf("%ud", &index)`: a `d` right behind the number is taken. -/
def scanOne (index : Nat) (text : List Char) : Nat × List Char :=
  match decimal text with
  | (none, text) => (index, text)
  | (some i, text) => (cutUnsigned i, literal 'd' text)

/-- A request line: its type, and what `index` and `size` hold once it
is read. -/
structure Line where
  type : OpType
  index : Nat
  size : Nat
deriving DecidableEq, Repr

/-- What the three branches of the switch read, by the type character;
there is no branch for another. -/
def scanLine (type : Char) (index size : Nat) (text : List Char) :
    Option (Line × List Char) :=
  match type with
  | 'a' =>
      let (index, size, text) := scanTwo index size text
      some (⟨.alloc, index, size⟩, text)
  | 'r' =>
      let (index, size, text) := scanTwo index size text
      some (⟨.realloc, index, size⟩, text)
  | 'f' =>
      let (index, text) := scanOne index text
      some (⟨.free, index, size⟩, text)
  | _ => none

-- ============================================================== read_trace

/-- The variables of the loop, and the text it has not read yet. -/
structure Reader where
  text : List Char
  index : Nat
  size : Nat
  maxIndex : Nat
  opIndex : Nat
  ops : List StoredOp

/-- The stores of a branch: to the `i`-th entry of `trace->ops`. -/
def storeOp (ops : List StoredOp) (i : Nat) (op : StoredOp) :
    Except Quit (List StoredOp) :=
  if i < ops.length then .ok (ops.set i op) else .error (.overrun i)

/-- The entry a request line is stored as: a free has no size, and its
entry keeps `calloc`'s zero. -/
def Line.stored (q : Line) : StoredOp :=
  ⟨q.type, toInt q.index, if q.type = .free then 0 else toInt q.size⟩

/-- `max_index` after a request line: the branch of a free leaves it
alone. -/
def Line.maxIndex (q : Line) (maxIndex : Nat) : Nat :=
  if q.type = .free then maxIndex
  else if q.index > maxIndex then q.index else maxIndex

/-- The switch, at a word that starts with `type`. -/
def Reader.turn (path : String) (r : Reader) (type : Char) :
    Except Quit Reader :=
  match scanLine type r.index r.size r.text with
  | none => .error (.exit ("Bogus type character (" ++ type.toString ++
      ") in tracefile " ++ path ++ "\n"))
  | some (q, text) => do
      let ops ← storeOp r.ops r.opIndex q.stored
      return {
        text := text
        index := q.index
        size := q.size
        maxIndex := q.maxIndex r.maxIndex
        opIndex := u32 (r.opIndex + 1)
        ops := ops }

/-- The while loop. -/
def Reader.loop (path : String) : Nat → Reader → Except Quit Reader
  | 0, _ => .error .spin
  | fuel + 1, r =>
      match word r.text with
      | none => .ok r
      | some (type, w, text) =>
          if w.length + 1 ≥ maxLine then .error .smash
          else do
            let r ← { r with text := text }.turn path type
            r.loop path fuel

/-- The header, read into a record that holds `old`. -/
def scanHeader (old : Trace) (text : List Char) : Trace × List Char :=
  let (suggHeapsize, text) := scanInt old.suggHeapsize text
  let (numIds, text) := scanInt old.numIds text
  let (numOps, text) := scanInt old.numOps text
  let (weight, text) := scanInt old.weight text
  (⟨suggHeapsize, numIds, numOps, weight, []⟩, text)

/-- `read_trace` on a record that holds `old` and a `size` variable that
holds `size`. An entry of `trace->ops` has 12 bytes, those of the other
arrays 8. -/
def readTrace (calloc : Calloc) (path : String) (old : Trace) (size : Nat)
    (text : List Char) : Except Quit Trace := do
  let (trace, text) := scanHeader old text
  if calloc.grants 0 (sizeT trace.numOps) 12 = false then
    throw (.exit "malloc 2 failed in read_trace")
  if calloc.grants 1 (sizeT trace.numIds) 8 = false then
    throw (.exit "malloc 3 failed in read_trace")
  if calloc.grants 2 (sizeT trace.numIds) 8 = false then
    throw (.exit "malloc 4 failed in read_trace")
  let ops := List.replicate (sizeT trace.numOps) StoredOp.zero
  let r ← Reader.loop path (text.length + 1) ⟨text, 0, size, 0, 0, ops⟩
  if r.maxIndex ≠ cutUnsigned (trace.numIds - 1) then throw .abort
  if cutUnsigned trace.numOps ≠ r.opIndex then throw .abort
  return { trace with ops := r.ops }

end MallocLab.Model
