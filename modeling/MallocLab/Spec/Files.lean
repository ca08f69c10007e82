/-
What the trace files of the driver look like: a row of words, of which
the first four are the header, and then two or three make a request.

A file says a trace (`Says`) if its words spell it and its header counts
it right. How the words are laid out does not matter, nor do the two
numbers of the header that nothing uses; a word names a type of request
by its first character.

`render` writes a trace the way the files under traces/ are written.
-/
import MallocLab.Model.Passes
import MallocLab.Spec.Trace

namespace MallocLab.Spec.Trace

open Scan Model

-- ================================================================= the words

/-- The character a type of request goes by. -/
def letter : OpType → Char
  | .alloc => 'a'
  | .free => 'f'
  | .realloc => 'r'

/-- A word for a type of request. -/
def Names (type : OpType) (w : List Char) : Prop :=
  ∃ cs, w = letter type :: cs ∧ cs.length + 1 < maxLine

/-- The words of a row of requests. A free is written without a size. -/
inductive Asked : List TraceOp → List (List Char) → Prop
  | nil : Asked [] []
  | sized {op ops v i n ws} : op.type ≠ .free → Names op.type v →
      Numeral op.index i → Numeral op.size.toNat n → 0 ≤ op.size →
      Asked ops ws → Asked (op :: ops) (v :: i :: n :: ws)
  | free {op ops v i ws} : op.type = .free → Names op.type v →
      Numeral op.index i → op.size = 0 →
      Asked ops ws → Asked (op :: ops) (v :: i :: ws)

-- ================================================================= the files

/-- The largest id that is allocated or reallocated, zero if none is. -/
def top : List TraceOp → Nat
  | [] => 0
  | op :: ops => if op.type = .free then top ops else max op.index (top ops)

/-- The header counts the requests and the ids, and both are `int`s. -/
structure Headed (trace : Script) : Prop where
  ops : trace.ops.length < 2 ^ 31
  ids : trace.numIds < 2 ^ 31
  top : trace.numIds = top trace.ops + 1
  named : ∀ op ∈ trace.ops, op.index < trace.numIds

/-- The file says the trace. -/
structure Says (text : List Char) (trace : Script) : Prop where
  headed : Headed trace
  words : ∃ a i n b ws, words text = a :: i :: n :: b :: ws ∧
    (∃ k, Numeral k a) ∧ Numeral trace.numIds i ∧
    Numeral trace.ops.length n ∧ (∃ k, Numeral k b) ∧ Asked trace.ops ws

/-- There is memory for the arrays of the trace. -/
def Room (calloc : Calloc) (trace : Script) : Prop :=
  calloc.grants 0 trace.ops.length 12 = true ∧
    calloc.grants 1 trace.numIds 8 = true ∧
    calloc.grants 2 trace.numIds 8 = true

/-- An opened file that says the trace, with the memory to read it. -/
def Readable (file : Opened) (trace : Script) : Prop :=
  Says file.text trace ∧ Room file.calloc trace

-- ================================================================ the writing

/-- A request that can be written: a free has no size. -/
def Plain (op : TraceOp) : Prop :=
  0 ≤ op.size ∧ (op.type = .free → op.size = 0)

/-- A request, as a line of a file. -/
def line (op : TraceOp) : List Char :=
  let id := letter op.type :: ' ' :: Nat.toDigits 10 op.index
  if op.type = .free then id ++ ['\n']
  else id ++ ' ' :: Nat.toDigits 10 op.size.toNat ++ ['\n']

/-- A trace, as a file. -/
def render (trace : Script) : List Char :=
  ['0', '\n'] ++ Nat.toDigits 10 trace.numIds ++
    '\n' :: Nat.toDigits 10 trace.ops.length ++
    '\n' :: '1' :: '\n' :: trace.ops.flatMap line

end MallocLab.Spec.Trace
