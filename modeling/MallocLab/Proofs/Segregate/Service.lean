/-
The segregated allocator is a service of the driver's: linked, it answers
as the abstract heap does (`segregateStore`), for the sizes above eight
that the driver asks it for.

There is no exhausting it: whatever calls were made, clearing the storage
makes it ready for another run.
-/
import MallocLab.Proofs.Driver.Linked
import MallocLab.Proofs.Segregate.SlotZero

namespace MallocLab.Proofs.Segregate

open Mem Blocks Model Model.Segregate Spec Spec.Segregated
open Proofs.Driver Spec.Driver

-- ================================================================ the store

/-- The abstract heap, to a client that asks for more than eight bytes. A
resize gets a block or does not survive. -/
def segregateStore : Store Segregated.Heap where
  init := Heap.init
  malloc := fun A n => A.malloc none n
  realloc := fun A o n => (A.realloc o n).map some
  free := fun A o => A.free o
  extent := fun A => Segregated.lead + total A.blocks

variable {R : Region} {s : Machine} {A A' : Segregated.Heap}
  {xs : List (Nat × Nat)} {n o q i : Nat} {x : Nat × Nat}

/-- An empty heap over `R`, and no access outside it so far. -/
def Ready (R : Region) (s : Machine) : Prop :=
  s.strays = [] ∧ ∃ s₀, s = emptied R s₀

/-- The machine stands for the heap `A` with the live blocks `xs`. -/
def Standing (R : Region) (A : Segregated.Heap) (xs : List (Nat × Nat))
    (s : Machine) : Prop :=
  Sim R (located (addr R) xs) s ⟨A, xs⟩

theorem Ready.backed (h : Ready R s) : Backed s := by
  obtain ⟨-, s₀, rfl⟩ := h
  have hfits := R.fits
  have hpos := R.pos
  refine ⟨hpos, rfl, hfits, ?_⟩
  show R.base ≤ R.base + maxHeap
  omega

-- ============================================================= the requests

theorem init_standing (h : Ready R s) : ∃ r s',
    (mmInit .segregate).run s = .ok r s' ∧ Standing R Heap.init [] s' := by
  obtain ⟨hs, s₀, rfl⟩ := h
  obtain ⟨s', hrun, hrep, -⟩ := segregateMmInit_emptied R hs
  exact ⟨0, s', hrun, hrep, State.init_ok, rfl⟩

/-- A request the state answers, as `serve_as` has it. -/
theorem Standing.served (h : Standing R A xs s) {r : Req}
    (hr : Sized 9 maxSize r) {a : Option Nat} {ys : List (Nat × Nat)}
    (hS : State.serve none ⟨A, xs⟩ r = some (a, ⟨A', ys⟩)) :
    ∃ live' s', (serve .segregate (located (addr R) xs) r).run s
        = .ok (ptrOf R a, live') s' ∧ Standing R A' ys s' ∧
      Preserved (located (addr R) xs) r (ptrOf R a) s.mem s'.mem := by
  obtain ⟨live', s', hrun, hsim, hkeep⟩ := serve_as h hr hS
  have hlive : live' = located (addr R) ys := hsim.live
  subst hlive
  exact ⟨_, s', hrun, hsim, hkeep⟩

/-- The answer to a resize is the abstract heap's. -/
theorem serve_resize (hx : xs[i]? = some x) (hn : 1 ≤ n) :
    State.serve none ⟨A, xs⟩ (.realloc i n) = (A.realloc x.1 n).map
      fun y => (some y.1, ⟨y.2, xs.set i (y.1, n)⟩) := by
  simp only [State.serve, hx, if_neg (show ¬ n = 0 by omega)]

/-- A resize that finds no room faults. -/
theorem Standing.stuck (h : Standing R A xs s) (hx : xs[i]? = some x)
    (hn : 1 ≤ n) (hn' : n ≤ maxSize) (hr : A.realloc x.1 n = none) :
    ∃ s', (serve .segregate (located (addr R) xs) (.realloc i n)).run s
      = .error .fault s' := by
  have hans := serve_realloc h none i hn'
  rw [serve_resize hx hn, hr] at hans
  exact hans

-- ================================================================ the heap

/-- The block of a live allocation. -/
theorem Standing.block (h : Standing R A xs s) (hx : x ∈ xs) :
    ∃ b, (x.1, b) ∈ marked true 0 A.blocks ∧ x.2 ≤ b.room := by
  obtain ⟨b, hb, hfit, -⟩ := h.ok.owned.block x hx
  exact ⟨b, hb, hfit⟩

/-- A client writing in its own block changes nothing of it. -/
theorem Standing.write (h : Standing R A xs s) (hx : x ∈ xs) {m : Bytes}
    (hm : ∀ y, y < addr R x.1 ∨ addr R x.1 + x.2 ≤ y → m y = s.mem y) :
    Standing R A xs { s with mem := m } := by
  obtain ⟨b, hb, hfit⟩ := h.block hx
  exact ⟨h.rep.write hb fun y hy => hm y (by omega), h.ok, rfl⟩

theorem Standing.extent (h : Standing R A xs s) :
    s.memBrk = s.memStartBrk + (Segregated.lead + total A.blocks) := by
  have hbrk : s.memBrk = R.base + 96 + 8 + total A.blocks :=
    h.rep.shape.tiled.brk
  rw [hbrk, h.rep.shape.start]
  unfold Segregated.lead
  omega

/-- Where a live block is. -/
theorem Standing.placed (h : Standing R A xs s) (hx : x ∈ xs) :
    addr R x.1 ≠ 0 ∧ addr R x.1 % 8 = 0 ∧ s.memStartBrk ≤ addr R x.1 ∧
      addr R x.1 + x.2 ≤ s.memBrk := by
  obtain ⟨b, hb, hfit⟩ := h.block hx
  have hbd := placed_bounds hb.1
  have hroom := b.room_add
  have hal := R.aligned
  have hbrk := h.extent
  have hstart := h.rep.shape.start
  unfold Segregated.lead at hbrk
  unfold addr
  omega

theorem Standing.clear (h : Standing R A xs s) : Ready R (wiped s) := by
  have hshape := h.rep.shape
  refine ⟨hshape.strays, wiped s, ?_⟩
  unfold emptied wiped
  rw [← hshape.max, ← hshape.start]

-- =============================================================== the service

/-- The segregated allocator over the storage `R`. -/
def segregateRefinement (R : Region) :
    Refinement .segregate segregateStore where
  lo := 9
  hi := maxSize
  addr := addr R
  Ready := Ready R
  Sim := Standing R
  pos := by decide
  inj := fun h => by
    unfold addr at h
    omega
  backed := fun h => h.backed
  init := fun h => init_standing h
  malloc := fun {A xs s n o A'} h hn hn' hS => by
    have hm : A.malloc none n = some (o, A') := hS
    refine h.served (r := .malloc n) (a := some o) ⟨hn, hn'⟩ ?_
    simp only [State.serve, State.enrol, hm]
  full := fun {A xs s n} h hn hn' hS => by
    have hm : A.malloc none n = none := hS
    have hserved := segregateMmMalloc_large h.rep hn hn'
    rw [hm] at hserved
    exact ⟨_, hserved⟩
  realloc := fun {A xs s i x n q A'} h hx hn hn' hS => by
    obtain ⟨y, hr, hy⟩ := Option.map_eq_some_iff.1 hS
    cases hy
    refine h.served (r := .realloc i n) (a := some q) hn' ?_
    rw [serve_resize hx hn, hr, Option.map_some]
  null := fun {A xs s i x n} h hx hn hn' hS => by
    obtain ⟨y, -, hy⟩ := Option.map_eq_some_iff.1 hS
    cases hy
  stuck := fun h hx hn hn' hS =>
    h.stuck hx hn hn' (Option.map_eq_none_iff.1 hS)
  free := fun {A xs s i x} h hx => by
    refine ⟨0, h.served (r := .free i) (a := none) trivial ?_⟩
    simp only [State.serve, hx]
    rfl
  write := fun h hx hm => h.write hx hm
  placed := fun h hx => h.placed hx
  apart := fun h => h.houses.apart
  extent := fun h => h.extent
  clear := fun h => h.clear

/-- As a service. -/
def segregateService (R : Region) :
    Service (linked .segregate) segregateStore :=
  (segregateRefinement R).service

end MallocLab.Proofs.Segregate
