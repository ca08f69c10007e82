/-
Client programs: what they ask for next may depend on what they were
given and on what they read. A program makes the requests of
Model/Client.lean and learns whether it got a pointer; and it reads the
bytes of its own allocations.
-/
import MallocLab.Lib.Interact
import MallocLab.Model.Client

namespace MallocLab.Model

open Interact

/-- What a client program does. -/
inductive Query
  /-- A call, or a write. -/
  | call (r : Req)
  /-- Byte `off` of the `i`-th live allocation. -/
  | read (i off : Nat)

/-- What it learns: whether a pointer came back, or the byte. -/
def Reply : Query → Type
  | .call _ => Bool
  | .read _ _ => UInt8

/-- A client program that ends in an `α`. -/
abbrev Client (α : Type) := Prog Query Reply α

/-- Read a byte. As a request that names no live allocation does nothing,
a read of what the client does not own reads zero. -/
def readByte (live : List Alloc) (i off : Nat) : M UInt8 :=
  match live[i]? with
  | none => return 0
  | some a => do
      if off < a.size then
        let s ← get
        return s.mem (a.ptr + off)
      return 0

/-- Do one thing. -/
def handle (mode : Mode) (live : List Alloc) :
    (q : Query) → M (Reply q × List Alloc)
  | .call r => do
      let (p, live) ← serve mode live r
      return (decide (p ≠ 0), live)
  | .read i off => do
      let v ← readByte live i off
      return (v, live)

/-- Initialise, then run the program. -/
def runClient {α : Type} (mode : Mode) (c : Client α) : M α := do
  let _ ← mmInit mode
  c.play (handle mode) []

end MallocLab.Model
