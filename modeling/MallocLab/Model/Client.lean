/-
The calls of mm.c and a client that makes them, as the driver does: it
keeps the live allocations with the sizes it asked for, and asks for
blocks, gives them back, resizes them and writes into them.

A request names an allocation by its place in the list of live ones, so
that the same requests can be put to two heaps at different addresses. A
request that names no live allocation, and a write outside what was
asked for, does nothing: the client only uses what it owns.
-/
import MallocLab.Model.Implicit
import MallocLab.Model.Segregate

namespace MallocLab.Model

open Mem Implicit Segregate

-- ================================================================ mm.c

/-- What mm.c is compiled to: `USE_IMPLICIT` with a strategy, or
`USE_SEGREGATE_FIT`. -/
inductive Mode
  | implicit (fit : Fit)
  | segregate
deriving DecidableEq, Repr

/-- `mm_init`. -/
def mmInit : Mode → M Nat
  | .implicit fit => implicitMmInit fit
  | .segregate => segregateMmInit

/-- `mm_malloc`. -/
def mmMalloc : Mode → Nat → M Nat
  | .implicit fit, size => implicitMmMalloc fit size
  | .segregate, size => segregateMmMalloc size

/-- `mm_free`. -/
def mmFree : Mode → Nat → M Unit
  | .implicit fit, ptr => implicitMmFree fit ptr
  | .segregate, ptr => segregateMmFree ptr

/-- `mm_realloc`. -/
def mmRealloc : Mode → Nat → Nat → M Nat
  | .implicit fit, ptr, size => implicitMmRealloc fit ptr size
  | .segregate, ptr, size => segregateMmRealloc ptr size

-- ============================================================= the client

/-- A live allocation: its address and the size asked for last. -/
structure Alloc where
  ptr : Nat
  size : Nat
deriving DecidableEq, Repr

/-- What a client can ask for. Allocations are named by their place in
the list of live ones. -/
inductive Req
  | malloc (size : Nat)
  | free (i : Nat)
  | realloc (i size : Nat)
  /-- `realloc` of a null pointer. -/
  | reallocNull (size : Nat)
  /-- The client writes a byte into its own allocation. -/
  | write (i off : Nat) (v : UInt8)
deriving DecidableEq, Repr

/-- A new allocation joins the live ones, a null pointer does not. -/
def enrol (live : List Alloc) (p size : Nat) : List Alloc :=
  if p = 0 then live else live ++ [⟨p, size⟩]

theorem enrol_pos {live : List Alloc} {p size : Nat} (hp : p ≠ 0) :
    enrol live p size = live ++ [⟨p, size⟩] :=
  if_neg hp

/-- The live allocations after a resize of the `i`-th returned `p`: a
zero size ends its life, a null pointer leaves it as it was. -/
def resized (live : List Alloc) (i p size : Nat) : List Alloc :=
  if size = 0 then live.eraseIdx i
  else if p = 0 then live
  else live.set i ⟨p, size⟩

theorem resized_null {live : List Alloc} {i size : Nat} (h : size ≠ 0) :
    resized live i 0 size = live :=
  (if_neg h).trans (if_pos rfl)

theorem resized_pos {live : List Alloc} {i p size : Nat} (h : size ≠ 0)
    (hp : p ≠ 0) : resized live i p size = live.set i ⟨p, size⟩ :=
  (if_neg h).trans (if_neg hp)

/-- Serve one request: the pointer returned (null for the requests that
return none) and the live allocations afterwards. -/
def serve (mode : Mode) (live : List Alloc) : Req → M (Nat × List Alloc)
  | .malloc size => do
      let p ← mmMalloc mode size
      return (p, enrol live p size)
  | .free i =>
      match live[i]? with
      | none => return (0, live)
      | some a => do
          mmFree mode a.ptr
          return (0, live.eraseIdx i)
  | .realloc i size =>
      match live[i]? with
      | none => return (0, live)
      | some a => do
          let p ← mmRealloc mode a.ptr size
          return (p, resized live i p size)
  | .reallocNull size => do
      let p ← mmRealloc mode 0 size
      return (p, enrol live p size)
  | .write i off v =>
      match live[i]? with
      | none => return (0, live)
      | some a => do
          if off < a.size then
            modify fun s =>
              { s with mem := Function.update s.mem (a.ptr + off) v }
          return (0, live)

/-- Serve a list of requests: the pointers returned, in order, and the
live allocations at the end. -/
def serveAll (mode : Mode) :
    List Alloc → List Req → M (List Nat × List Alloc)
  | live, [] => return ([], live)
  | live, r :: rs => do
      let (p, live) ← serve mode live r
      let (ps, live) ← serveAll mode live rs
      return (p :: ps, live)

/-- A run: initialise, then serve the requests. -/
def run (mode : Mode) (reqs : List Req) : M (List Nat × List Alloc) := do
  let _ ← mmInit mode
  serveAll mode [] reqs

/-- Every request of the run meets `C`, which sees the live allocations
and the machine it is made in. -/
def Along (mode : Mode) (C : List Alloc → Machine → Req → Prop) :
    List Alloc → Machine → List Req → Prop
  | _, _, [] => True
  | live, s, r :: rs => C live s r ∧
      ∀ p live' s', (serve mode live r).run s = .ok (p, live') s' →
        Along mode C live' s' rs

end MallocLab.Model
