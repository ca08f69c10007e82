/-
The machine the allocators run on: memlib.c's simulated heap, the
allocators' static variables, and the memory accesses of C.

# The state

`Machine` holds memlib.c's three pointers, `errno`, the bytes of memory
and the static variables of segregate.c and implicit.c (one of the two
is compiled in; each leaves the other's statics alone). `strays` is the
one ghost field: it records every word or block of bytes the allocator
touched that did not lie between `mem_start_brk` and the break, so that
"the allocator stays inside its heap" is a statement about a run.

# What a call can do

Calls run in `M`, state passing with a stop. C gives no meaning to an
access outside the storage that backs the heap: the model stops there
with `Stop.fault`. The storage is the `MAX_HEAP` bytes `mem_init` takes
from malloc and the word just before them, which implicit.c reads and
writes when it initialises. A loop that never ends stops with
`Stop.spin`; the loops are given `loopFuel` rounds, more than there are
addresses to visit, so a loop that runs out has come back to a place it
has been before. The state a call stopped in is kept with the stop.

Pointers are natural numbers. A pointer computed below zero or past the
end of the address space is no object's address, and using it faults.
-/
import MallocLab.Lib.Bytes
import MallocLab.Lib.Triple
import Mathlib.Data.Int.Init

namespace MallocLab.Model

open Mem

-- ============================================================= the machine

/-- Why a call did not return. -/
inductive Stop
  /-- An access outside the storage the heap lives in. -/
  | fault
  /-- A loop that never ends. -/
  | spin
deriving DecidableEq, Repr

/-- memlib.c's variables, the memory, and the allocators' statics. -/
structure Machine where
  /-- First byte of the heap. -/
  memStartBrk : Nat
  /-- The break: one past the last byte of the heap. -/
  memBrk : Nat
  /-- One past the largest legal heap address. -/
  memMaxAddr : Nat
  errno : Nat
  mem : Bytes
  /-- segregate.c: the table of free-list heads. -/
  freelistTable : Nat
  /-- segregate.c and implicit.c: the prologue's payload address. -/
  heapListp : Nat
  /-- implicit.c: the current block of the next-fit strategy. -/
  heapCurp : Nat
  /-- Ghost: the accesses outside the heap so far, address and length,
  latest first. -/
  strays : List (Nat × Nat)

/-- A call: from a machine to a result and a machine, or to a stop. -/
abbrev M := EStateM Stop Machine

/-- The machine a call leaves behind, returned or stopped. -/
def final {α : Type} : EStateM.Result Stop Machine α → Machine
  | .ok _ s => s
  | .error _ s => s

/-- What a call returned, if it did. -/
def result? {α : Type} : EStateM.Result Stop Machine α → Option α
  | .ok a _ => some a
  | .error _ _ => none

/-- `MAX_HEAP`, config.h: 20 MB. -/
def maxHeap : Nat := 20 * 2 ^ 20

/-- No block fills an `int`. -/
theorem maxHeap_lt : maxHeap < 2 ^ 31 := by decide

/-- `ENOMEM`, errno.h. -/
def enomem : Nat := 12

/-- The rounds a loop is run for: one more than the addresses a walk can
visit. -/
def loopFuel : Nat := maxHeap + 8

/-- The storage of a heap: an 8-aligned block of `MAX_HEAP` bytes in the
64-bit address space, as `mem_init` gets it from malloc. -/
structure Region where
  base : Nat
  aligned : base % 8 = 0
  pos : 0 < base
  fits : base + maxHeap < 2 ^ 64

/-- A region at a small address. -/
def Region.sample : Region := ⟨8, rfl, by decide, by decide⟩

/-- `mem_init`: an empty heap over the storage `R` with contents `m`;
all statics are zero when the program starts. -/
def memInit (R : Region) (m : Bytes) : Machine where
  memStartBrk := R.base
  memBrk := R.base
  memMaxAddr := R.base + maxHeap
  errno := 0
  mem := m
  freelistTable := 0
  heapListp := 0
  heapCurp := 0
  strays := []

-- ====================================================== machine integers

/-- Conversion to `unsigned int`. -/
def u32 (n : Nat) : Nat := n % 2 ^ 32

/-- Conversion to `size_t`. -/
def u64 (n : Nat) : Nat := n % 2 ^ 64

/-- Conversion to `int`. -/
def toInt (n : Nat) : Int := Int.bmod n (2 ^ 32)

/-- `ALIGN`, utils.h, on a `size_t`. -/
def align (size : Nat) : Nat := u64 (size + 7) &&& (2 ^ 64 - 8)

/-- Clearing the `j` low bits of a `k`-bit number. -/
theorem land_high {j k w : Nat} (hj : j ≤ k) (hw : w < 2 ^ k) :
    w &&& (2 ^ k - 2 ^ j) = w / 2 ^ j * 2 ^ j := by
  have hmask : 2 ^ k - 2 ^ j = (2 ^ (k - j) - 1) <<< j := by
    rw [Nat.shiftLeft_eq, Nat.sub_mul, ← Nat.pow_add,
      Nat.sub_add_cancel hj, Nat.one_mul]
  have hdiv : w / 2 ^ j * 2 ^ j = (w >>> j) <<< j := by
    rw [Nat.shiftLeft_eq, Nat.shiftRight_eq_div_pow]
  rw [hmask, hdiv]
  refine Nat.eq_of_testBit_eq fun i => ?_
  rw [Nat.testBit_and, Nat.testBit_shiftLeft, Nat.testBit_shiftLeft,
    Nat.testBit_two_pow_sub_one, Nat.testBit_shiftRight]
  by_cases hi : j ≤ i
  · by_cases hik : i < k
    · simp [hi, show i - j < k - j by omega, show j + (i - j) = i by omega]
    · have hbit : w.testBit i = false := Nat.testBit_lt_two_pow
        (Nat.lt_of_lt_of_le hw (Nat.pow_le_pow_right (by decide) (by omega)))
      simp [hi, hbit, show j + (i - j) = i by omega]
  · simp [hi]

/-- Clearing the three low bits. -/
theorem land_mask {k w : Nat} (hk : 3 ≤ k) (hw : w < 2 ^ k) :
    w &&& (2 ^ k - 8) = w / 8 * 8 := land_high hk hw

/-- A size that does not wrap is rounded up to the next multiple of
eight. -/
theorem align_eq {size : Nat} (h : size + 7 < 2 ^ 64) :
    align size = (size + 7) / 8 * 8 := by
  unfold align u64
  rw [Nat.mod_eq_of_lt h]
  exact land_mask (by decide) h

/-- The whole size of the block that serves a request. -/
def need (size : Nat) : Nat := align size + 8

/-- Rounded sizes are multiples of eight, even the ones that wrap. -/
theorem align_mod (size : Nat) :
    align size % 8 = 0 ∧ align size < 2 ^ 64 := by
  have hlt : u64 (size + 7) < 2 ^ 64 := Nat.mod_lt _ (by decide)
  unfold align
  rw [land_mask (by decide) hlt]
  omega

theorem need_mod (size : Nat) : need size % 8 = 0 := by
  have := align_mod size
  unfold need
  omega

/-- Sizes of served blocks. -/
theorem need_size {size : Nat} (h : 1 ≤ size) (h' : size ≤ 2 ^ 32) :
    need size % 8 = 0 ∧ 16 ≤ need size ∧ need size < size + 16 ∧
      size ≤ align size ∧ align size % 8 = 0 ∧ align size < size + 8 := by
  unfold need
  rw [align_eq (by omega)]
  omega

/-- Rounding a rounded size changes nothing. -/
theorem align_align (size : Nat) : align (align size) = align size := by
  have hmod := align_mod size
  rw [align_eq (show align size + 7 < 2 ^ 64 by omega)]
  omega

theorem need_align (size : Nat) : need (align size) = need size := by
  unfold need
  rw [align_align]

/-- A small number is its own `int`. -/
theorem toInt_of_lt {n : Nat} (h : n < 2 ^ 31) : toInt n = n := by
  unfold toInt
  exact Int.bmod_eq_of_le (by omega) (by omega)

/-- A number with the sign bit set converts to a negative `int`. -/
theorem toInt_neg {n : Nat} (h : 2 ^ 31 ≤ n) (h' : n < 2 ^ 32) :
    toInt n < 0 := by
  unfold toInt
  rw [Int.bmod_def]
  omega

-- ============================================================ the accesses

/-- The storage an access must stay in. -/
def Mapped (s : Machine) (a n : Nat) : Prop :=
  s.memStartBrk - 4 ≤ a ∧ a + n ≤ s.memMaxAddr

/-- The heap proper. -/
def Within (s : Machine) (a n : Nat) : Prop :=
  s.memStartBrk ≤ a ∧ a + n ≤ s.memBrk

instance (s : Machine) (a n : Nat) : Decidable (Mapped s a n) :=
  inferInstanceAs (Decidable (_ ∧ _))

instance (s : Machine) (a n : Nat) : Decidable (Within s a n) :=
  inferInstanceAs (Decidable (_ ∧ _))

/-- Touch `n` bytes at `a`. -/
def touch (a n : Nat) : M Unit := fun s =>
  if Mapped s a n then
    .ok () (if Within s a n then s
      else { s with strays := (a, n) :: s.strays })
  else .error .fault s

/-- Read the `w`-byte word at `a`. -/
def load (w a : Nat) : M Nat := do
  touch a w
  return rd w (← get).mem a

/-- Write the `w`-byte word at `a`. -/
def store (w a v : Nat) : M Unit := do
  touch a w
  modify fun s => { s with mem := wr w s.mem a v }

/-- `memset`. -/
def memset (a : Nat) (v : UInt8) (n : Nat) : M Unit := do
  touch a n
  modify fun s => { s with mem := fill s.mem a n v }

/-- `memcpy`: the bytes copied are the ones the source held before the
call. A copy of no bytes still touches both addresses, where libc's
returns whatever they are. -/
def memcpy (d s n : Nat) : M Unit := do
  touch s n
  touch d n
  modify fun σ => { σ with mem := copy σ.mem d s n }

-- =============================================================== memlib.c

/-- `(void *) -1`. -/
def minusOne : Nat := 2 ^ 64 - 1

/-- `mem_sbrk`: extend the heap by `incr` bytes and return the start of
the new area. -/
def memSbrk (incr : Int) : M Nat := fun s =>
  if incr < 0 ∨ (s.memMaxAddr : Int) < s.memBrk + incr then
    .ok minusOne { s with errno := enomem }
  else .ok s.memBrk { s with memBrk := (s.memBrk + incr).toNat }

/-- `mem_reset_brk`: the heap is empty again. -/
def memResetBrk : M Unit :=
  modify fun s => { s with memBrk := s.memStartBrk }

/-- `mem_heap_lo`. -/
def memHeapLo : M Nat := return (← get).memStartBrk

/-- `mem_heap_hi`. -/
def memHeapHi : M Nat := return (← get).memBrk - 1

-- ============================================ running calls, step by step

export Hoare (run_bind bind_ok bind_error bind_returns)

theorem run_pure {α : Type} (a : α) (s : Machine) :
    (pure a : M α).run s = .ok a s := rfl

theorem run_ite {α : Type} (c : Prop) [Decidable c] (x y : M α)
    (s : Machine) :
    (if c then x else y).run s = if c then x.run s else y.run s := by
  split <;> rfl

theorem run_get (s : Machine) : (get : M Machine).run s = .ok s s := rfl

theorem run_modify (f : Machine → Machine) (s : Machine) :
    (modify f : M PUnit).run s = .ok ⟨⟩ (f s) := rfl

theorem of_result? {α : Type} {r : EStateM.Result Stop Machine α} {a : α}
    (h : result? r = some a) : ∃ s, r = .ok a s := by
  cases r with
  | ok b s =>
      cases h
      exact ⟨s, rfl⟩
  | error e s => cases h

/-- A call's result and what is read of the machine it leaves. -/
theorem of_reading {α β : Type} {x : M α} {s : Machine} {a : α} {b : β}
    (f : Machine → β) (h : result? ((do
      let a ← x
      return (a, f (← get)) : M (α × β)).run s) = some (a, b)) :
    ∃ s', x.run s = .ok a s' ∧ f s' = b := by
  obtain ⟨s', hs'⟩ := of_result? h
  obtain ⟨b, s₁, hx, hrest⟩ := bind_returns hs'
  cases hrest
  exact ⟨_, hx, rfl⟩

/-- A heap access the machine allows and does not record: inside the
heap, whose break is within the storage. -/
structure Access (s : Machine) (a n : Nat) : Prop where
  lo : s.memStartBrk ≤ a
  hi : a + n ≤ s.memBrk
  brk : s.memBrk ≤ s.memMaxAddr

/-- What may be accessed does not depend on what memory holds. -/
theorem Access.withMem {s : Machine} {a n : Nat} (h : Access s a n)
    (m : Bytes) : Access { s with mem := m } a n := ⟨h.lo, h.hi, h.brk⟩

theorem touch_ok {s : Machine} {a n : Nat} (h : Access s a n) :
    (touch a n).run s = .ok () s := by
  have ⟨hlo, hhi, hbrk⟩ := h
  show (if Mapped s a n then _ else _) = _
  rw [if_pos ⟨by omega, by omega⟩, if_pos ⟨hlo, hhi⟩]

theorem load_ok {s : Machine} {w a : Nat} (h : Access s a w) :
    (load w a).run s = .ok (rd w s.mem a) s := by
  unfold load
  rw [bind_ok (touch_ok h)]
  rfl

theorem store_ok {s : Machine} {w a : Nat} (v : Nat) (h : Access s a w) :
    (store w a v).run s = .ok () { s with mem := wr w s.mem a v } := by
  unfold store
  rw [bind_ok (touch_ok h)]
  rfl

theorem memset_ok {s : Machine} {a n : Nat} (v : UInt8)
    (h : Access s a n) :
    (memset a v n).run s = .ok () { s with mem := fill s.mem a n v } := by
  unfold memset
  rw [bind_ok (touch_ok h)]
  rfl

theorem memcpy_ok {s : Machine} {d a n : Nat} (hd : Access s d n)
    (ha : Access s a n) :
    (memcpy d a n).run s = .ok () { s with mem := copy s.mem d a n } := by
  unfold memcpy
  rw [bind_ok (touch_ok ha), bind_ok (touch_ok hd)]
  rfl

/-- Outside the heap, but in the storage, an access is recorded. -/
theorem load_stray {s : Machine} {w a : Nat} (h : Mapped s a w)
    (h' : ¬ Within s a w) :
    (load w a).run s
      = .ok (rd w s.mem a) { s with strays := (a, w) :: s.strays } := by
  have htouch : (touch a w).run s
      = .ok () { s with strays := (a, w) :: s.strays } := by
    show (if Mapped s a w then _ else _) = _
    rw [if_pos h, if_neg h']
  unfold load
  rw [bind_ok htouch]
  rfl

theorem store_stray {s : Machine} {w a : Nat} (v : Nat)
    (h : Mapped s a w) (h' : ¬ Within s a w) :
    (store w a v).run s
      = .ok () { s with
        mem := wr w s.mem a v
        strays := (a, w) :: s.strays } := by
  have htouch : (touch a w).run s
      = .ok () { s with strays := (a, w) :: s.strays } := by
    show (if Mapped s a w then _ else _) = _
    rw [if_pos h, if_neg h']
  unfold store
  rw [bind_ok htouch]
  rfl

/-- An access outside the storage faults. -/
theorem touch_fault {s : Machine} {a n : Nat} (h : ¬ Mapped s a n) :
    (touch a n).run s = .error .fault s := if_neg h

theorem load_fault {s : Machine} {w a : Nat} (h : ¬ Mapped s a w) :
    (load w a).run s = .error .fault s := bind_error (touch_fault h)

theorem store_fault {s : Machine} {w a v : Nat} (h : ¬ Mapped s a w) :
    (store w a v).run s = .error .fault s := bind_error (touch_fault h)

/-- The break moves when there is room for the increment. -/
theorem memSbrk_ok {s : Machine} {n : Nat}
    (h : s.memBrk + n ≤ s.memMaxAddr) :
    (memSbrk n).run s
      = .ok s.memBrk { s with memBrk := s.memBrk + n } :=
  (if_neg (by omega)).trans rfl

/-- Otherwise nothing moves and `errno` says so. -/
theorem memSbrk_fail {s : Machine} {i : Int}
    (h : i < 0 ∨ (s.memMaxAddr : Int) < s.memBrk + i) :
    (memSbrk i).run s = .ok minusOne { s with errno := enomem } := if_pos h

end MallocLab.Model
