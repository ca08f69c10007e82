/-
What a trace file says, apart from the reading of it into an array: its
body is a row of request lines that ends with the text, or at a word
that is no request. The header counts the lines and the ids; nothing
makes it agree with them.

`Orderly` is when it agrees enough for `read_trace` to stay inside the
arrays the header sized.
-/
import MallocLab.Model.Trace

namespace MallocLab.Spec.Trace

open Scan Model

/-- Where the request lines of a body end. -/
inductive Ending
  /-- At the end of the text. -/
  | eof
  /-- At a word that starts with no type character. -/
  | bogus (type : Char)
  /-- At a word no buffer of `MAXLINE` characters holds. -/
  | long
deriving DecidableEq, Repr

theorem scanTwo_length (index size : Nat) (text : List Char) :
    (scanTwo index size text).2.2.length ≤ text.length := by
  have hfirst := decimal_length text
  unfold scanTwo
  split
  · rename_i rest hrest
    rw [hrest] at hfirst
    exact hfirst
  · rename_i i rest hrest
    rw [hrest] at hfirst
    have hskip := skip_length rest
    have hsecond := decimal_length (skip rest)
    exact Nat.le_trans hsecond (Nat.le_trans hskip hfirst)

theorem scanOne_length (index : Nat) (text : List Char) :
    (scanOne index text).2.length ≤ text.length := by
  have hfirst := decimal_length text
  unfold scanOne
  split
  · rename_i rest hrest
    rw [hrest] at hfirst
    exact hfirst
  · rename_i i rest hrest
    rw [hrest] at hfirst
    exact Nat.le_trans (literal_length 'd' rest) hfirst

/-- A request line puts no character back. -/
theorem scanLine_length {type : Char} {index size : Nat}
    {text rest : List Char} {q : Line}
    (h : scanLine type index size text = some (q, rest)) :
    rest.length ≤ text.length := by
  unfold scanLine at h
  split at h
  · cases h
    exact scanTwo_length index size text
  · cases h
    exact scanTwo_length index size text
  · cases h
    exact scanOne_length index text
  · cases h

/-- The request lines of a body, read with `index` and `size` as they
stand, and where they end. -/
def body (index size : Nat) (text : List Char) : List Line × Ending :=
  match _hw : word text with
  | none => ([], .eof)
  | some (type, w, rest) =>
      if w.length + 1 ≥ maxLine then ([], .long)
      else
        match _hq : scanLine type index size rest with
        | none => ([], .bogus type)
        | some (q, rest') =>
            (q :: (body q.index q.size rest').1,
              (body q.index q.size rest').2)
termination_by text.length
decreasing_by
  all_goals
    have := word_length _hw
    have := scanLine_length _hq
    omega

/-- The largest id that is allocated or reallocated, zero if none is. -/
def highest : List Line → Nat
  | [] => 0
  | q :: qs => if q.type = .free then highest qs else max q.index (highest qs)

/-- The three arrays the header asks for are there. -/
def Granted (calloc : Calloc) (trace : Trace) : Prop :=
  calloc.grants 0 (sizeT trace.numOps) 12 = true ∧
    calloc.grants 1 (sizeT trace.numIds) 8 = true ∧
    calloc.grants 2 (sizeT trace.numIds) 8 = true

/-- The header is as large as the body needs. -/
structure Orderly (trace : Trace) (b : List Line × Ending) : Prop where
  /-- There are no more lines than the header counts. -/
  fits : (b.1.length : Int) ≤ trace.numOps
  /-- If the text ends with them, there are as many, and the largest id
  allocated is the last the header has, then there are ids, and a free
  names none larger. -/
  freed : b.2 = .eof → (b.1.length : Int) = trace.numOps →
    highest b.1 = cutUnsigned (trace.numIds - 1) →
    trace.numIds ≠ 0 ∧ ∀ q ∈ b.1, q.type = .free → q.index ≤ highest b.1

/-- What the driver relies on: no store to `trace->ops` was past its
end, and a trace that is returned names positions of its arrays only. -/
structure Stays (r : Except Quit Trace) : Prop where
  stores : ∀ i, r ≠ .error (.overrun i)
  indices : ∀ trace, r = .ok trace → ∀ op ∈ trace.ops,
    0 ≤ op.index ∧ op.index < trace.numIds

end MallocLab.Spec.Trace
