/-
A malloc package with everything taken away that its client cannot see:
a function of the heap and the request. A `Store` answers a request with
the offset of a block, or refuses it; a `Ledger` is the client's side,
which offset each id of a trace was answered with last.

Following a trace through a store (`Store.follow`) needs no memory, no
pointers and no driver. A package that serves a store (`Serves`,
Proofs/Driver/Serves.lean) answers as the store does in every pass of
the driver, whatever the passes write to the blocks.

`peak` is about a trace alone: the most bytes it asks for at one time.
-/
import MallocLab.Model.Passes
import MallocLab.Spec.Driver

namespace MallocLab.Spec

open Model Driver

-- ================================================================ the store

/-- An allocator with heaps in `H`: what each request comes to, and how
far the heap reaches. A block, or a null pointer; a resize that the
allocator does not survive has no answer. -/
structure Store (H : Type) where
  init : H
  malloc : H → Nat → Option (Nat × H)
  realloc : H → Nat → Nat → Option (Option (Nat × H))
  free : H → Nat → H
  extent : H → Nat

/-- Why a trace was not followed to its end. -/
inductive Refusal
  /-- An allocation that returned a null pointer. -/
  | malloc
  /-- A resize that returned one. -/
  | realloc
  /-- A resize that did not return. -/
  | death
deriving DecidableEq, Repr

variable {H : Type}

/-- A heap, and the offset of the block each id names. -/
structure Ledger (H : Type) where
  heap : H
  place : Nat → Nat

/-- Before the first request. -/
def Store.blank (S : Store H) : Ledger H := ⟨S.init, fun _ => 0⟩

/-- The answer of a request enters the ledger. -/
def Ledger.enter (l : Ledger H) (id : Nat) (x : Nat × H) : Ledger H :=
  ⟨x.2, Function.update l.place id x.1⟩

theorem Ledger.enter_self (l : Ledger H) (id : Nat) (x : Nat × H) :
    (l.enter id x).place id = x.1 := by
  unfold Ledger.enter
  exact Function.update_self ..

theorem Ledger.enter_of_ne (l : Ledger H) {id i : Nat} (h : i ≠ id)
    (x : Nat × H) : (l.enter id x).place i = l.place i := by
  unfold Ledger.enter
  exact Function.update_of_ne h ..

/-- The next page of the ledger, or why there is none. -/
def Store.step (S : Store H) (l : Ledger H) (op : TraceOp) :
    Except Refusal (Ledger H) :=
  match op.type with
  | .alloc =>
      match S.malloc l.heap op.size.toNat with
      | some x => .ok (l.enter op.index x)
      | none => .error .malloc
  | .realloc =>
      match S.realloc l.heap (l.place op.index) op.size.toNat with
      | some (some x) => .ok (l.enter op.index x)
      | some none => .error .realloc
      | none => .error .death
  | .free => .ok ⟨S.free l.heap (l.place op.index), l.place⟩

/-- The requests of a trace, one after the other from the `i`-th on: the
ledger at the end, or the number of the first request that is refused,
and how. -/
def Store.follow (S : Store H) :
    Nat → Ledger H → List TraceOp → Except (Nat × Refusal) (Ledger H)
  | _, l, [] => .ok l
  | i, l, op :: ops =>
      match S.step l op with
      | .ok l => S.follow (i + 1) l ops
      | .error e => .error (i, e)

-- ============================================================== the traces

/-- Sizes that are served: blocks of `lo` bytes or more are allocated, and
resized to one byte or more, up to `hi` bytes. -/
def Sizes (lo hi : Nat) (op : TraceOp) : Prop :=
  (op.type = .alloc → lo ≤ op.size.toNat) ∧
    (op.type ≠ .free → 1 ≤ op.size ∧ op.size.toNat ≤ hi)

/-- A trace the driver can judge an allocator by: ids name live blocks,
sizes are served, and no reallocated id has a low byte that is negative
as a `char`. -/
structure Playable (lo hi : Nat) (held : List Nat) (ops : List TraceOp) :
    Prop where
  lawful : Lawful held ops
  sizes : ∀ op ∈ ops, Sizes lo hi op
  bytes : ∀ op ∈ ops, op.type = .realloc → op.index % 256 < 128

-- ================================================================ the peak

/-- The bytes asked for of the live blocks. -/
def demand (live : List Block) : Nat := (live.map Block.size).sum

/-- The most bytes asked for at one time, from the live blocks on. Where
they are does not matter. -/
def peak : List Block → List TraceOp → Nat
  | live, [] => demand live
  | live, op :: ops => max (demand live) (peak (liveNext live op 0) ops)

/-- The bytes a trace takes if nothing it frees is used again: the whole
size of a block for each block it asks for. -/
def footprint : List TraceOp → Nat
  | [] => 0
  | op :: ops =>
      (if op.type = .free then 0 else need op.size.toNat) + footprint ops

/-- What `main` has to say of a trace. -/
def Store.stats (S : Store H) (ops : List TraceOp) : Stats :=
  match S.follow 0 S.blank ops with
  | .ok l => ⟨ops.length, 1, (peak [] ops : ℚ) / (S.extent l.heap : ℚ)⟩
  | .error _ => ⟨ops.length, 0, 0⟩

/-- Following the trace ends in a resize the allocator does not
survive. -/
def Store.Dies (S : Store H) (ops : List TraceOp) : Prop :=
  ∃ k, S.follow 0 S.blank ops = .error (k, .death)

/-- The line printed about request `k` of a trace. -/
def errorLine (tracenum : Int) (opnum : Nat) (msg : String) : String :=
  "ERROR [trace " ++ toString tracenum ++ ", line " ++
    toString (opnum + 5) ++ "]: " ++ msg

/-- What is printed while a trace is checked. -/
def Store.lines (S : Store H) (tracenum : Int) (ops : List TraceOp) :
    List String :=
  match S.follow 0 S.blank ops with
  | .error (k, .malloc) => [errorLine tracenum k "mm_malloc failed."]
  | .error (k, .realloc) => [errorLine tracenum k "mm_realloc failed."]
  | _ => []

/-- What is printed while the traces are, from the `i`-th on. -/
def Store.report (S : Store H) : Nat → List Script → List String
  | _, [] => []
  | i, trace :: traces =>
      S.lines i trace.ops ++ S.report (i + 1) traces

end MallocLab.Spec
