/-
What a malloc package is to its client: private arrays. Each allocation
is an array of its own, as long as was asked for. Its bytes are what the
client wrote there, and open where it wrote nothing; a resize keeps what
fits in both sizes. There are no addresses and no heap.

The package may refuse any request for room. That is the one thing the
rules leave to it, besides the bytes that are open. Under `grantingRule`
they do not.
-/
import MallocLab.Model.Programs

namespace MallocLab.Spec

open Model

/-- An array, and what is known of its bytes. -/
structure Cells where
  size : Nat
  byte : Nat → Option UInt8

/-- A new one: nothing is known. -/
def Cells.fresh (n : Nat) : Cells := ⟨n, fun _ => none⟩

/-- What is known after a resize: the bytes inside both sizes. -/
def Cells.resize (n : Nat) (c : Cells) : Cells :=
  ⟨n, fun off => if off < c.size then c.byte off else none⟩

/-- A byte is written. -/
def Cells.put (off : Nat) (v : UInt8) (c : Cells) : Cells :=
  if off < c.size then ⟨c.size, Function.update c.byte off (some v)⟩ else c

/-- The arrays after a request, which the package granted or refused. -/
def arraysNext (cs : List Cells) (granted : Bool) : Req → List Cells
  | .malloc n => if granted then cs ++ [.fresh n] else cs
  | .reallocNull n => if granted then cs ++ [.fresh n] else cs
  | .free i => cs.eraseIdx i
  | .realloc i n =>
      if n = 0 then cs.eraseIdx i
      else if granted then cs.modify i (Cells.resize n) else cs
  | .write i off v => cs.modify i (Cells.put off v)

/-- What may be read: the byte that is known, any if it is open, and zero
outside. -/
def MayRead (cs : List Cells) (i off : Nat) (v : UInt8) : Prop :=
  match cs[i]? with
  | none => v = 0
  | some c =>
      if off < c.size then ∀ w, c.byte off = some w → v = w else v = 0

/-- The rules of private arrays. -/
def arraysRule (cs : List Cells) : (q : Query) → Reply q → List Cells → Prop
  | .call r, granted, cs' => cs' = arraysNext cs granted r
  | .read i off, v, cs' => cs' = cs ∧ MayRead cs i off v

/-- A request for room is granted. A resize of what is not live asks for
none. -/
def Grants (cs : List Cells) (granted : Bool) : Req → Prop
  | .malloc _ => granted
  | .reallocNull _ => granted
  | .realloc i n => n ≠ 0 → i < cs.length → granted
  | .free _ => True
  | .write _ _ _ => True

/-- The rules, where nothing is refused. -/
def grantingRule (cs : List Cells) :
    (q : Query) → Reply q → List Cells → Prop
  | .call r, granted, cs' =>
      cs' = arraysNext cs granted r ∧ Grants cs granted r
  | .read i off, v, cs' => cs' = cs ∧ MayRead cs i off v

/-- The room a query asks for: the whole block of what it may need. -/
def bill : Query → Nat
  | .call (.malloc n) => need n
  | .call (.reallocNull n) => need n
  | .call (.realloc _ n) => if n = 0 then 0 else need n
  | .call (.free _) => 0
  | .call (.write _ _ _) => 0
  | .read _ _ => 0

/-- The requests among what a program does. -/
def Calls (P : Req → Prop) : Query → Prop
  | .call r => P r
  | .read _ _ => True

/-- What may come of a client program that starts with no arrays. -/
def Allowed {α : Type} (c : Client α) (a : α) : Prop :=
  c.Behaves arraysRule [] a

/-- What may come of one that is refused nothing. -/
def Granting {α : Type} (c : Client α) (a : α) : Prop :=
  c.Behaves grantingRule [] a

/-- It may come of it in any case. -/
theorem granting_allowed {α : Type} {c : Client α} {a : α}
    (h : Granting c a) : Allowed c a := by
  refine h.mono fun cs q x cs' hrule => ?_
  cases q with
  | call r => exact hrule.1
  | read i off => exact hrule

end MallocLab.Spec
