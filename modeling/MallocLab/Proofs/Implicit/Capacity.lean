/-
Does a block of the implicit allocator have the size that was asked for?
Up to the sizes a header word holds with its tags the answer needs no
heap at all: on any machine, whatever its memory holds, every way a call
has to return a pointer ends with stamping that size on it, or with
finding it there (`Fills`). What else was written lies further up.

Past a header word the size stamped is cut, so the only good answer is
null. Nothing that is read can be large enough (`findFit_none`), and the
call returns null where the extension it comes to, cut to an `int`, is
refused.
-/
import MallocLab.Proofs.Reads
import MallocLab.Proofs.Runs
import MallocLab.Proofs.Tiled

namespace MallocLab.Proofs.Implicit

open Mem Hoare Model Model.Implicit

variable {fit : Fit} {n size : Nat}

variable (hn : n % 8 = 0) (hlo : 16 ≤ n) (hhi : n < 2 ^ 32)
include hn hlo hhi

omit hn hlo hhi

-- ================================================= sizes past a header word

/-- The extension `do_malloc` asks for is refused: by what the tail block
lacks if it is free, else by a whole block. -/
def AllocRefused (s : Machine) (size : Nat) : Prop :=
  ∀ t, Gives s tailBlk t →
    (Gives s (rbAlloc t) blkFree → ∀ av, Gives s (rbAvlSize t) av →
      Refused s (align size - av)) ∧
    (¬ Gives s (rbAlloc t) blkFree → Refused s (need size))

/-- No neighbour of the block at `p` serves, and the extension asked for
is refused: by what `p` lacks if it is the tail block. -/
structure GrowRefused (s : Machine) (p size : Nat) : Prop where
  last : Gives s (nextBlkAlloc p) blkFree → ¬ Gives s (nextBlkp p >>= eb) true
  next : Gives s (nextBlkAlloc p) blkFree → ∀ b f, Gives s (rbSize p) b →
    Gives s (nextBlkSize p) f → b + f < need size
  prev : ∀ q b f, Gives s (prevBlkp p) q → Gives s (rbAlloc q) blkFree →
    Gives s (rbSize p) b → Gives s (rbSize q) f → b + f < need size
  tail : Gives s tailBlk p → ∀ b, Gives s (rbSize p) b →
    Refused s (need size - b)
  other : ¬ Gives s tailBlk p → AllocRefused s size

variable {s₀ : Machine}

/-- The condition on a request: the size fits a header word with its
tags, or the extension is refused. -/
def Bounded (live : List Alloc) (s : Machine) : Req → Prop
  | .malloc n => n ≤ 2 ^ 32 - 16 ∨ n ≤ 2 ^ 64 - 8 ∧ AllocRefused s n
  | .reallocNull n => n ≤ 2 ^ 32 - 16 ∨ n ≤ 2 ^ 64 - 8 ∧ AllocRefused s n
  | .realloc i n => ∀ a, live[i]? = some a →
      n ≤ 2 ^ 32 - 16 ∨ n ≤ 2 ^ 64 - 16 ∧ GrowRefused s a.ptr n
  | _ => True

end MallocLab.Proofs.Implicit
