/-
Is a block that is returned big enough? The size asked for passes through
`ALIGN`, which can wrap, the `int` that `extend_heap` takes, and the
32-bit word of the header. A size that fits a header word with its tags
comes out of all of them unharmed; a larger one is cut, and the call
hands out a block of what is left of it, unless that extension is refused
(`Bounded`).

Both allocators, every strategy, from any storage: the results come from
the two modules of this name, the segregated allocator's about the states
it reaches, the implicit one's about any machine at all.
-/
import MallocLab.Proofs.Segregate.Capacity
import MallocLab.Proofs.Implicit.Capacity

namespace MallocLab.Proofs

open Hoare Model

/-- The condition on a request, by allocator. -/
def Bounded : Mode → List Alloc → Machine → Req → Prop
  | .implicit _ => Implicit.Bounded
  | .segregate => Segregate.Bounded

end MallocLab.Proofs
