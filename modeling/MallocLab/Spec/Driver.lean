/-
What the driver's verdict is about: the payloads a trace has live, what
makes them sound, and what a malloc package owes its client.

A block is live from the call that returned it to the call that frees or
reallocates it. An id names the block of its last `alloc` or `realloc`;
allocating for an id again leaves its block live, without an owner.

Nothing here looks at the driver's range list. The pointers come from
the package (`request`), and the runs are followed by the rounds of the
loop that go on (`Before`, `After`).
-/
import MallocLab.Model.Driver

namespace MallocLab.Spec.Driver

open Model

variable {σ : Type}

/-- A machine as `mem_init` and `mem_sbrk` leave it: the heap lies in the
storage of `MAX_HEAP` bytes. -/
structure Backed (s : Machine) : Prop where
  pos : 0 < s.memStartBrk
  max : s.memMaxAddr = s.memStartBrk + maxHeap
  fits : s.memMaxAddr < 2 ^ 64
  limit : s.memBrk ≤ s.memMaxAddr

theorem Backed.sbrks {s s' : Machine} (h : Backed s) (h' : Sbrks s s') :
    Backed s' where
  pos := by
    rw [h'.start]
    exact h.pos
  max := by
    rw [h'.max, h'.start]
    exact h.max
  fits := by
    rw [h'.max]
    exact h.fits
  limit := by
    rw [h'.max]
    exact h'.limit h.limit

theorem backed_memInit (R : Region) (m : Mem.Bytes) :
    Backed (memInit R m) :=
  ⟨R.pos, rfl, R.fits, Nat.le_add_right _ _⟩

-- ========================================================= the live blocks

/-- A live block: the id that names it, its payload's address, and the
size asked for. -/
structure Block where
  owner : Option Nat
  ptr : Nat
  size : Nat
deriving DecidableEq, Repr

/-- Two payloads do not meet. -/
def Separate (a b : Block) : Prop :=
  a.ptr + a.size ≤ b.ptr ∨ b.ptr + b.size ≤ a.ptr

/-- `a` starts before `b` and ends after it. -/
def Encloses (a b : Block) : Prop :=
  a.ptr < b.ptr ∧ b.ptr + b.size < a.ptr + a.size

/-- A payload at an aligned address inside the heap. -/
structure Placed (s : Machine) (b : Block) : Prop where
  aligned : b.ptr % 8 = 0
  lo : s.memStartBrk ≤ b.ptr
  hi : b.ptr + b.size ≤ s.memBrk

/-- A payload stays where it may be while the break does not fall. -/
theorem Placed.sbrks {s s' : Machine} {b : Block} (h : Placed s b)
    (h' : Sbrks s s') : Placed s' b where
  aligned := h.aligned
  lo := by
    rw [h'.start]
    exact h.lo
  hi := Nat.le_trans h.hi h'.grows

/-- A payload may be accessed, whole or in part. -/
theorem Placed.access {s : Machine} (hs : Backed s) {b : Block}
    (h : Placed s b) {off n : Nat} (hn : off + n ≤ b.size) :
    Access s (b.ptr + off) n where
  lo := Nat.le_trans h.lo (Nat.le_add_right _ _)
  hi := by
    have := h.hi
    omega
  brk := hs.limit

/-- The payloads are where they may be, and apart. -/
structure Sound (live : List Block) (s : Machine) : Prop where
  placed : ∀ b ∈ live, Placed s b
  apart : live.Pairwise Separate

/-- The block that loses its owner when the id is allocated again. -/
def Block.disown (id : Nat) (b : Block) : Block :=
  if b.owner = some id then { b with owner := none } else b

/-- The live blocks a request is not about. -/
def others (live : List Block) (op : TraceOp) : List Block :=
  match op.type with
  | .alloc => live.map (Block.disown op.index)
  | _ => live.filter fun b => b.owner ≠ some op.index

/-- The block a request asks for, at the address returned. -/
def wanted (op : TraceOp) (p : Nat) : Block :=
  ⟨some op.index, p, op.size.toNat⟩

/-- The live blocks after a request that returned `p`. -/
def liveNext (live : List Block) (op : TraceOp) (p : Nat) : List Block :=
  match op.type with
  | .free => others live op
  | _ => wanted op p :: others live op

-- ============================================================ the requests

/-- The call a request makes; null for one that returns nothing. -/
def request (pkg : Package σ) (op : TraceOp) : D σ Nat := do
  let p := (← get).blocks op.index
  match op.type with
  | .alloc => call (pkg.mmMalloc (sizeT op.size))
  | .realloc => call (pkg.mmRealloc p (sizeT op.size))
  | .free =>
      call (pkg.mmFree p)
      return 0

/-- What a call that returned `p` owes the client: it leaves the payloads
of the other live blocks alone, and if it hands out a block, that block
is placed and apart from them, and begins with what the old one held. -/
structure Honoured (live : List Block) (op : TraceOp) (p : Nat)
    (s s' : Machine) : Prop where
  keeps : ∀ b ∈ others live op, ∀ off < b.size,
    s'.mem (b.ptr + off) = s.mem (b.ptr + off)
  pos : op.type ≠ .free → p ≠ 0
  placed : op.type ≠ .free → Placed s' (wanted op p)
  apart : op.type ≠ .free → ∀ b ∈ others live op, Separate (wanted op p) b
  moved : op.type = .realloc → ∀ b ∈ live, b.owner = some op.index →
    ∀ off < min b.size op.size.toNat,
      s'.mem (p + off) = s.mem (b.ptr + off)

-- ============================================================== the traces

/-- Each id is allocated before it is used and freed at most once, and
blocks are of positive size. `known` have been allocated, `freed`
freed. -/
def WellFormed : List Nat → List Nat → List TraceOp → Prop
  | _, _, [] => True
  | known, freed, op :: ops =>
      match op.type with
      | .alloc => 1 ≤ op.size ∧ WellFormed (op.index :: known) freed ops
      | .realloc => 1 ≤ op.size ∧ op.index ∈ known ∧
          WellFormed known freed ops
      | .free => op.index ∈ known ∧ op.index ∉ freed ∧
          WellFormed known (op.index :: freed) ops

/-- Each id that is reallocated or freed names a live block, and blocks
are of positive size. `held` are the ids that name one. -/
def Lawful : List Nat → List TraceOp → Prop
  | _, [] => True
  | held, op :: ops =>
      match op.type with
      | .alloc => 1 ≤ op.size ∧ Lawful (op.index :: held) ops
      | .realloc => 1 ≤ op.size ∧ op.index ∈ held ∧ Lawful held ops
      | .free => op.index ∈ held ∧
          Lawful (held.filter (· ≠ op.index)) ops

-- ================================================================ the runs

section
variable (pkg : Package σ) (tracenum : Int)

/-- `C` of every round, before it runs. A round that goes on remembers
the pointer it got. -/
def Before (C : List Block → World σ → TraceOp → Prop) :
    Nat → List Block → World σ → List TraceOp → Prop
  | _, _, _, [] => True
  | i, live, w, op :: ops => C live w op ∧
      ∀ w', (evalOp pkg tracenum i op).run w = .ok true w' →
        Before C (i + 1) (liveNext live op (w'.blocks op.index)) w' ops

/-- `P` of the live blocks and the state after every round. -/
def After (P : List Block → World σ → Prop) :
    Nat → List Block → World σ → List TraceOp → Prop
  | _, _, _, [] => True
  | i, live, w, op :: ops =>
      ∀ w', (evalOp pkg tracenum i op).run w = .ok true w' →
        P (liveNext live op (w'.blocks op.index)) w' ∧
        After P (i + 1) (liveNext live op (w'.blocks op.index)) w' ops

/-- `C` of every round of `eval_mm_valid`. -/
def AlwaysBefore (C : List Block → World σ → TraceOp → Prop) (w : World σ)
    (ops : List TraceOp) : Prop :=
  ∀ r w₀, (evalInit pkg).run w = .ok r w₀ →
    Before pkg tracenum C 0 [] w₀ ops

/-- `P` after every round of `eval_mm_valid`. -/
def AlwaysAfter (P : List Block → World σ → Prop) (w : World σ)
    (ops : List TraceOp) : Prop :=
  ∀ r w₀, (evalInit pkg).run w = .ok r w₀ →
    After pkg tracenum P 0 [] w₀ ops

end

/-- No block the package returns encloses another live one. -/
def NoEnclosure (pkg : Package σ) (live : List Block) (w : World σ)
    (op : TraceOp) : Prop :=
  op.type ≠ .free → ∀ p w', (request pkg op).run w = .ok p w' →
    ∀ b ∈ others live op, ¬ Encloses (wanted op p) b

/-- The address a request passes for an id that names no live block is
not that of a live one. -/
def NotStale (live : List Block) (w : World σ) (op : TraceOp) : Prop :=
  op.type = .realloc → (∀ b ∈ live, b.owner ≠ some op.index) →
    ∀ b ∈ live, b.ptr ≠ w.blocks op.index

/-- The package meets its contract on the trace. -/
def Honours (pkg : Package σ) (live : List Block) (w : World σ)
    (op : TraceOp) : Prop :=
  ∃ p w', (request pkg op).run w = .ok p w' ∧
    Honoured live op p w.machine w'.machine

/-- A request about eight bytes. -/
def eight (type : OpType) (id : Nat) : TraceOp := ⟨type, id, 8, by decide⟩

/-- A package that takes its answers from a list, in a heap of 64
bytes. -/
def scripted : Package (List Nat) where
  mmInit st := do
    let _ ← memSbrk 64
    return (0, st)
  mmMalloc _ st := return (st.headD 0, st.tail)
  mmFree _ st := return ((), st)
  mmRealloc _ _ st := return (st.headD 0, st.tail)
  init_sbrks := by
    intro st s r s' h
    obtain ⟨p, s₁, hsbrk, hret⟩ := bind_returns h
    cases hret
    exact memSbrk_sbrks hsbrk
  malloc_sbrks := by
    intro n st s r s' h
    cases h
    exact Sbrks.refl s
  free_sbrks := by
    intro p st s r s' h
    cases h
    exact Sbrks.refl s
  realloc_sbrks := by
    intro p n st s r s' h
    cases h
    exact Sbrks.refl s

end MallocLab.Spec.Driver
