/-
What can be seen of a heap by reading it: the blocks a walk by
`NEXT_BLKP` comes past, as the `dump` of both allocators prints them,
and the nodes of a free list. Statements about reachable states are
made in these terms, so that they speak of the words in memory and the
macros that read them, not of how the proofs represent a heap.

A reading is the run of a macro that leaves the machine as it is: in
particular it touches nothing outside the heap, since that would be
recorded.
-/
import MallocLab.Model.Client

namespace MallocLab.Model

open Segregate

/-- What `dump` prints of one block. -/
structure Seen where
  addr : Nat
  size : Nat
  state : Nat
  hdr : Nat
  ftr : Nat
deriving DecidableEq, Repr

/-- The macros read the block `x` at its address. -/
structure Shows (s : Machine) (x : Seen) : Prop where
  size : (blkSize x.addr).run s = .ok x.size s
  state : (blkState x.addr).run s = .ok x.state s
  hdr : (getWord (blkHdrp x.addr)).run s = .ok x.hdr s
  ftr : (blkFtrp x.addr >>= getWord).run s = .ok x.ftr s

/-- Stepping by `NEXT_BLKP` from `p` comes past the blocks `xs` and on
to `q`. -/
inductive Walk (s : Machine) : Nat → List Seen → Nat → Prop
  | stop {p : Nat} : Walk s p [] p
  | step {x : Seen} {p q : Nat} {xs : List Seen} (hx : Shows s x)
      (hsize : x.size ≠ 0) (hnext : (nextBlkp x.addr).run s = .ok p s)
      (hrest : Walk s p xs q) : Walk s x.addr (x :: xs) q

/-- The blocks after the prologue, which tile the heap up to the break. -/
def BlockList (s : Machine) (xs : List Seen) : Prop :=
  ∃ p, (nextBlkp s.heapListp).run s = .ok p s ∧ Walk s p xs s.memBrk

/-- The heap list: the blocks, closed by a word of size zero just below
the break. -/
structure HeapList (s : Machine) (xs : List Seen) : Prop where
  blocks : BlockList s xs
  closed : (blkSize s.memBrk).run s = .ok 0 s

/-- The walk from `p` to the break, computed. -/
def walkFrom : Nat → Nat → M (List Seen)
  | 0, _ => throw .spin
  | fuel + 1, p => do
      if p = (← get).memBrk then return []
      let size ← blkSize p
      let state ← blkState p
      let hdr ← getWord (blkHdrp p)
      let ftr ← blkFtrp p >>= getWord
      let xs ← walkFrom fuel (← nextBlkp p)
      return ⟨p, size, state, hdr, ftr⟩ :: xs

/-- The blocks after the prologue, computed. -/
def blocks? (s : Machine) : Option (List Seen) :=
  result? ((do
    let p ← nextBlkp s.heapListp
    walkFrom loopFuel p : M (List Seen)).run s)

/-- Following `NEXT_FREE_BLKP` from `a` comes past the nodes `ns` and
then to null, and each node's `PREV_FREE_BLKP` is where it was reached
from. -/
inductive FreeList (s : Machine) : Nat → List Nat → Prop
  | stop {a : Nat} (hend : (nextFreeBlkp a).run s = .ok 0 s) :
      FreeList s a []
  | step {a n : Nat} {ns : List Nat} (hpos : n ≠ 0)
      (hnext : (nextFreeBlkp a).run s = .ok n s)
      (hprev : (prevFreeBlkp n).run s = .ok a s)
      (hrest : FreeList s n ns) : FreeList s a (n :: ns)

/-- Following `NEXT_FREE_BLKP` from `a` comes past the nodes `ns` and
then to null, whatever the back pointers say. -/
inductive NextList (s : Machine) : Nat → List Nat → Prop
  | stop {a : Nat} (hend : (nextFreeBlkp a).run s = .ok 0 s) :
      NextList s a []
  | step {a n : Nat} {ns : List Nat} (hpos : n ≠ 0)
      (hnext : (nextFreeBlkp a).run s = .ok n s)
      (hrest : NextList s n ns) : NextList s a (n :: ns)

/-- Looking for `size` bytes, `next_fit` examines the places `vs` one
after the other from `p` on, takes none of them, and goes on at `q`. -/
inductive Passes (s : Machine) (size : Nat) : Nat → List Nat → Nat → Prop
  | stop {p : Nat} : Passes s size p [] p
  | step {p p' q : Nat} {vs : List Nat}
      (hturn : (Implicit.nextFitTurn size p).run s = .ok (.inr p') s)
      (hrest : Passes s size p' vs q) : Passes s size p (p :: vs) q

/-- Two allocations that share no byte. -/
def Alloc.Apart (a b : Alloc) : Prop :=
  a.ptr + a.size ≤ b.ptr ∨ b.ptr + b.size ≤ a.ptr

-- ============================================== two heaps side by side

/-- The same place in the heaps of two regions. -/
def SamePlace (R₁ R₂ : Region) (p q : Nat) : Prop :=
  p + R₂.base = q + R₁.base

/-- The same answer of a call: both null, or the same place. -/
def SameAnswer (R₁ R₂ : Region) (p q : Nat) : Prop :=
  (p = 0 ∧ q = 0) ∨ (p ≠ 0 ∧ q ≠ 0 ∧ SamePlace R₁ R₂ p q)

/-- The same block, tags and all, at the same place. -/
structure SameSeen (R₁ R₂ : Region) (x y : Seen) : Prop where
  addr : SamePlace R₁ R₂ x.addr y.addr
  size : x.size = y.size
  state : x.state = y.state
  hdr : x.hdr = y.hdr
  ftr : x.ftr = y.ftr

/-- `NEXT_BLKP` of a block with a size is further on. -/
theorem Shows.next {s : Machine} {x : Seen} {p : Nat} (h : Shows s x)
    (hnext : (nextBlkp x.addr).run s = .ok p s) : p = x.addr + x.size := by
  unfold nextBlkp at hnext
  rw [bind_ok h.size, run_pure] at hnext
  injection hnext with he _
  exact he.symm

/-- A walk only goes up. -/
theorem Walk.le {s : Machine} {p q : Nat} {xs : List Seen}
    (h : Walk s p xs q) : p ≤ q := by
  induction h with
  | stop => exact Nat.le_refl _
  | step hx _ hnext _ ih =>
      have := hx.next hnext
      omega

/-- Two walks to one place come past the same blocks. -/
theorem Walk.unique {s : Machine} {p q : Nat} {xs ys : List Seen}
    (h : Walk s p xs q) (h' : Walk s p ys q) : xs = ys := by
  induction h generalizing ys with
  | stop =>
      cases h' with
      | stop => rfl
      | step hx hsize hnext hrest =>
          have := hx.next hnext
          have := hrest.le
          omega
  | @step x p q xs hx hsize hnext hrest ih =>
      generalize ha : x.addr = a at h'
      cases h' with
      | stop =>
          have := hx.next hnext
          have := hrest.le
          omega
      | @step y p' _ ys hy _ hnext' hrest' =>
          have h1 := hx.size
          have h2 := hx.state
          have h3 := hx.hdr
          have h4 := hx.ftr
          rw [ha] at h1 h2 h3 h4 hnext
          injection h1.symm.trans hy.size with h1' _
          injection h2.symm.trans hy.state with h2' _
          injection h3.symm.trans hy.hdr with h3' _
          injection h4.symm.trans hy.ftr with h4' _
          injection hnext.symm.trans hnext' with hp _
          subst hp
          have hxy : x = y := by
            cases x
            cases y
            simp_all
          rw [hxy, ih hrest']

/-- A walk to the break comes past the blocks computed. -/
theorem Walk.computed {s s' : Machine} {p q : Nat} {xs ys : List Seen}
    (h : Walk s p xs q) (hq : q = s.memBrk) {fuel : Nat}
    (hys : (walkFrom fuel p).run s = .ok ys s') : xs = ys := by
  induction h generalizing fuel ys with
  | stop =>
      cases fuel with
      | zero => cases hys
      | succ fuel =>
          rw [walkFrom, bind_ok (run_get s), if_pos hq] at hys
          cases hys
          rfl
  | @step x p q xs hx hsize hnext hrest ih =>
      cases fuel with
      | zero => cases hys
      | succ fuel =>
          have hgo : x.addr ≠ s.memBrk := by
            have := hx.next hnext
            have := hrest.le
            omega
          rw [walkFrom, bind_ok (run_get s), if_neg hgo, bind_ok hx.size,
            bind_ok hx.state, bind_ok hx.hdr, bind_ok hx.ftr,
            bind_ok hnext] at hys
          obtain ⟨zs, t, hzs, hret⟩ := bind_returns hys
          cases hret
          rw [ih hq hzs]

/-- A cell has one list. -/
theorem NextList.unique {s : Machine} {a : Nat} {ns ks : List Nat}
    (h : NextList s a ns) (h' : NextList s a ks) : ns = ks := by
  induction h generalizing ks with
  | stop hend =>
      cases h' with
      | stop => rfl
      | step hpos hnext =>
          injection hend.symm.trans hnext with hnull _
          exact absurd hnull.symm hpos
  | step hpos hnext _ ih =>
      cases h' with
      | stop hend =>
          injection hend.symm.trans hnext with hnull _
          exact absurd hnull.symm hpos
      | step _ hnext' hrest' =>
          injection hnext.symm.trans hnext' with hn _
          subst hn
          rw [ih hrest']

/-- A heap has one list of blocks. -/
theorem BlockList.unique {s : Machine} {xs ys : List Seen}
    (h : BlockList s xs) (h' : BlockList s ys) : xs = ys := by
  obtain ⟨p, hp, hw⟩ := h
  obtain ⟨q, hq, hw'⟩ := h'
  injection hp.symm.trans hq with he _
  subst he
  exact hw.unique hw'

/-- It is the list computed. -/
theorem BlockList.computed {s : Machine} {xs ys : List Seen}
    (h : BlockList s xs) (hys : blocks? s = some ys) : xs = ys := by
  obtain ⟨p, hp, hw⟩ := h
  obtain ⟨s', hrun⟩ := of_result? hys
  rw [bind_ok hp] at hrun
  exact hw.computed rfl hrun

end MallocLab.Model
