/-
The implicit allocator is a service of the driver's, under each of its
strategies: linked, it answers as the abstract heap does
(`implicitStore`), for every size the driver asks it for.

It needs more of its storage than the other allocator: zero, and before
it a word that reads as size zero. `mem_clear` gives it the one; the
other is its own, and since no request leaves the heap, no request
changes it.

# The rover

Between answered requests the rover is at the prologue or at a block; a
refused allocation loses it. So a store that stops at the first refusal
never sees it lost, whatever `errno` says.
-/
import MallocLab.Proofs.Driver.Linked
import MallocLab.Proofs.Implicit.Runs

namespace MallocLab.Proofs.Implicit

open Mem Blocks Model Model.Implicit Spec Spec.Implicit
open Proofs.Driver Spec.Driver

variable {fit : Fit} {R : Region} {s s' : Machine} {A A' : Implicit.Heap}
  {xs : List (Nat × Nat)} {n o q i : Nat} {x : Nat × Nat} {z : Zip}

-- ================================================================ the store

/-- An answer with a block is one. -/
def obtained : Option (Option Nat × Implicit.Heap) →
    Option (Nat × Implicit.Heap)
  | some (some o, A) => some (o, A)
  | _ => none

theorem obtained_some {y : Option (Option Nat × Implicit.Heap)} :
    obtained y = some (o, A) ↔ y = some (some o, A) := by
  match y with
  | none => simp [obtained]
  | some (none, A) => simp [obtained]
  | some (some o, A) => simp [obtained]

/-- The abstract heap. -/
def implicitStore (fit : Fit) : Store Implicit.Heap where
  init := Heap.init fit
  malloc := fun A n => obtained (A.malloc fit n)
  realloc := fun A o n => (A.realloc fit o n).map fun x => obtained (some x)
  free := fun A o => A.free fit o
  extent := fun A => Implicit.lead + total A.blocks

-- ================================================================ the rover

/-- The rover is somewhere, under the strategy that needs it. -/
def Roving (fit : Fit) (A : Implicit.Heap) : Prop :=
  fit = .next → A.rover ≠ none

theorem roving_rove {r : Nat} : Roving fit (A.rove fit (some r)) := by
  intro hf
  rw [Heap.rove_rover _ hf]
  exact Option.some_ne_none r

theorem roving_settle {bs : List Blk} : Roving fit (A.settle fit bs o) :=
  roving_rove

/-- An allocation that got a block. -/
theorem malloc_roving (h : A.malloc fit n = some (some o, A')) :
    Roving fit A' := by
  unfold Heap.malloc at h
  split at h
  · cases h
  · split at h
    · cases h
    · split at h
      · cases h
        exact roving_settle
      · split at h
        · cases h
          exact roving_settle
        · cases h

theorem free_roving (h : Roving fit A) : Roving fit (A.free fit o) := by
  unfold Heap.free
  split
  · exact roving_settle
  · exact h

/-- A resize that got a block. -/
theorem resize_roving (h : A.resize fit z n = some (some q, A')) :
    Roving fit A' := by
  unfold Heap.resize at h
  split at h
  · cases h
    exact roving_settle
  · split at h
    · cases h
      exact roving_settle
    · split at h
      · split at h
        · cases h
          exact roving_settle
        · cases h
      · split at h
        · cases h
          exact roving_settle
        · split at h
          · cases h
          · cases h
            exact roving_rove

theorem realloc_roving (h : A.realloc fit o n = some (some q, A')) :
    Roving fit A' := by
  unfold Heap.realloc at h
  split at h
  · cases h
  · exact resize_roving h

-- ============================================================== the standing

/-- An empty heap over `R`, on blank storage. -/
structure Ready (fit : Fit) (R : Region) (s : Machine) : Prop where
  empty : ∃ s₀, s = emptied R s₀
  blank : Blank R s.mem
  idle : fit ≠ .next → s.heapCurp = 0

/-- The machine stands for the heap `A` with the live blocks `xs`, and
the storage and the rover are as the next request needs them. -/
structure Standing (fit : Fit) (R : Region) (A : Implicit.Heap)
    (xs : List (Nat × Nat)) (s : Machine) : Prop where
  sim : Sim fit R (located (addr R) xs) s ⟨A, xs⟩
  fresh : Fresh R s
  word : rd 4 s.mem (R.base - 4) / 8 = 0
  rover : Roving fit A

theorem Ready.backed (h : Ready fit R s) : Backed s := by
  obtain ⟨s₀, rfl⟩ := h.empty
  have hfits := R.fits
  have hpos := R.pos
  refine ⟨hpos, rfl, hfits, ?_⟩
  show R.base ≤ R.base + maxHeap
  omega

/-- Without the next-fit strategy the rover is a null pointer. -/
theorem Standing.idle (h : Standing fit R A xs s) (hf : fit ≠ .next) :
    s.heapCurp = 0 := by
  have hnone : A.rover = none := h.sim.ok.heap.idle hf
  have hcur : s.heapCurp = curp R A.rover := h.sim.rep.cur
  rw [hcur, hnone]
  rfl

/-- A request that stayed inside the heap left the word before it. -/
theorem word_kept {α : Type} {f : M α} {a : α} (hf : Contains f)
    (hstart : s.memStartBrk = R.base) (hrun : f.run s = .ok a s')
    (hstrays : s'.strays = s.strays)
    (hword : rd 4 s.mem (R.base - 4) / 8 = 0) :
    rd 4 s'.mem (R.base - 4) / 8 = 0 := by
  have hpos := R.pos
  have hal := R.aligned
  have hframe := (hf.returned hrun).frame hstrays
  rw [rd_congr fun y hy => hframe y (Or.inl ?_)]
  · exact hword
  · have := hy.2
    omega

-- ============================================================= the requests

theorem init_standing (h : Ready fit R s) : ∃ r s',
    (mmInit (.implicit fit)).run s = .ok r s' ∧
      Standing fit R (Heap.init fit) [] s' := by
  obtain ⟨s₀, rfl⟩ := h.empty
  have hrun := implicitMmInit_emptied R s₀ fit h.blank.word
  have hmem := roved_mem fit (R.base + 8)
    (started R s₀ (R.base + 8) (initMem R s₀.mem))
  refine ⟨0, _, hrun, ⟨started_rep R s₀ fit h.idle, State.init_ok fit, rfl⟩,
    Fresh.init h.blank hmem (roved_memBrk fit _ _), ?_, roving_rove⟩
  -- what it wrote there itself
  have hword : rd 4 (initMem R s₀.mem) (R.base - 4) = 1 := by
    have hpos := R.pos
    have hal := R.aligned
    unfold initMem
    rw [rd_wr_ne (by omega), rd_wr_ne (by omega), rd_wr_ne (by omega),
      rd_wr_ne (by omega)]
    exact rd_wr_of_lt (by decide)
  rw [hmem]
  show rd 4 (initMem R s₀.mem) (R.base - 4) / 8 = 0
  rw [hword]

/-- A call the state answers, as `serve_fresh` has it. -/
theorem Standing.served (h : Standing fit R A xs s) {r : Req}
    (hr : Sized 0 intMax r) (hcall : ∀ i off v, r ≠ .write i off v)
    {a : Option Nat} {ys : List (Nat × Nat)}
    (hS : State.serve fit ⟨A, xs⟩ r = some (a, ⟨A', ys⟩))
    (hrov : Roving fit A') :
    ∃ live' s', (serve (.implicit fit) (located (addr R) xs) r).run s
        = .ok (ptrOf R a, live') s' ∧ Standing fit R A' ys s' ∧
      Preserved (located (addr R) xs) r (ptrOf R a) s.mem s'.mem := by
  have hans := serve_fresh h.sim h.fresh hr
  rw [hS] at hans
  obtain ⟨live', s', hrun, hleft⟩ := hans
  have hlive : live' = located (addr R) ys := hleft.sim.live
  subst hlive
  exact ⟨_, s', hrun, ⟨hleft.sim, hleft.fresh h.sim h.fresh,
    word_kept (serve_contains hcall) h.sim.rep.start hrun hleft.grew.strays
      h.word, hrov⟩, hleft.kept⟩

/-- An allocation the heap has no block for returns null. -/
theorem Standing.full (h : Standing fit R A xs s) (hn : n ≤ intMax)
    (hm : obtained (A.malloc fit n) = none) :
    ∃ s', (implicitMmMalloc fit n).run s = .ok 0 s' := by
  have hserved := implicitMmMalloc_ok h.sim.rep (fun _ => h.fresh.closed)
    h.sim.ok.heap (Nat.le_trans hn (by decide))
  have hsome : A.malloc fit n ≠ none := by
    unfold Heap.malloc
    split
    · exact Option.some_ne_none _
    · split
      · rename_i hlost
        exact absurd hlost.2 (h.rover hlost.1)
      · split
        · exact Option.some_ne_none _
        · split <;> exact Option.some_ne_none _
  cases hy : A.malloc fit n with
  | none => exact absurd hy hsome
  | some y =>
      obtain ⟨a, A'⟩ := y
      rw [hy] at hserved hm
      cases a with
      | some o => cases hm
      | none =>
          obtain ⟨s', hok, -⟩ := hserved
          exact ⟨s', hok⟩

/-- The answer to a resize is the abstract heap's. -/
theorem serve_resize (hx : xs[i]? = some x) (hn : 1 ≤ n) :
    State.serve fit ⟨A, xs⟩ (.realloc i n)
      = (A.realloc fit x.1 n).map (State.resized ⟨A, xs⟩ i n) := by
  simp only [State.serve, hx, if_neg (show ¬ n = 0 by omega)]

/-- A resize the heap has no block for returns null. -/
theorem Standing.null (h : Standing fit R A xs s) (hx : xs[i]? = some x)
    (hn : 1 ≤ n) (hn' : n ≤ intMax)
    (hr : A.realloc fit x.1 n = some (none, A')) :
    ∃ live' s', (serve (.implicit fit) (located (addr R) xs)
      (.realloc i n)).run s = .ok (0, live') s' := by
  have hans := serve_fresh h.sim h.fresh (r := .realloc i n) hn'
  rw [serve_resize hx hn, hr] at hans
  obtain ⟨live', s', hok, -⟩ := hans
  exact ⟨live', s', hok⟩

/-- One that the heap has no answer for faults. -/
theorem Standing.stuck (h : Standing fit R A xs s) (hx : xs[i]? = some x)
    (hn : 1 ≤ n) (hn' : n ≤ intMax) (hr : A.realloc fit x.1 n = none) :
    ∃ s', (serve (.implicit fit) (located (addr R) xs)
      (.realloc i n)).run s = .error .fault s' := by
  have hans := serve_fresh h.sim h.fresh (r := .realloc i n) hn'
  rw [serve_resize hx hn, hr] at hans
  obtain ⟨s', hdied, -⟩ := hans
  exact ⟨s', hdied⟩

-- ================================================================ the heap

/-- The block of a live allocation. -/
theorem Standing.block (h : Standing fit R A xs s) (hx : x ∈ xs) :
    ∃ b, (x.1, b) ∈ placed 0 A.blocks ∧ x.2 ≤ b.room := by
  obtain ⟨b, hb, hexact⟩ := h.sim.ok.owned.block x hx
  exact ⟨b, hb.1, exact_room _ _ hexact⟩

theorem Standing.extent (h : Standing fit R A xs s) :
    s.memBrk = s.memStartBrk + (Implicit.lead + total A.blocks) := by
  obtain ⟨e, ht⟩ := h.sim.rep.tiled
  have hbrk : s.memBrk = R.base + 8 + 8 + total A.blocks := ht.brk
  rw [hbrk, h.sim.rep.start]
  unfold Implicit.lead
  omega

/-- Where a live block is. The word that closes the heap is behind it. -/
theorem Standing.placed (h : Standing fit R A xs s) (hx : x ∈ xs) :
    addr R x.1 ≠ 0 ∧ addr R x.1 % 8 = 0 ∧ s.memStartBrk ≤ addr R x.1 ∧
      addr R x.1 + x.2 ≤ s.memBrk - 8 := by
  obtain ⟨b, hb, hfit⟩ := h.block hx
  have hbd := placed_bounds hb
  have hroom := b.room_add
  have hal := R.aligned
  have hbrk := h.extent
  have hstart := h.sim.rep.start
  unfold Implicit.lead at hbrk
  unfold addr
  omega

/-- A client writing in its own block changes nothing of it. -/
theorem Standing.write (h : Standing fit R A xs s) (hx : x ∈ xs)
    {m : Bytes}
    (hm : ∀ y, y < addr R x.1 ∨ addr R x.1 + x.2 ≤ y → m y = s.mem y) :
    Standing fit R A xs { s with mem := m } := by
  obtain ⟨b, hb, hfit⟩ := h.block hx
  obtain ⟨e, ht⟩ := h.sim.rep.tiled
  obtain ⟨-, -, hlo, hhi⟩ := h.placed hx
  have hstart := h.sim.rep.start
  have hpos := R.pos
  have hal := R.aligned
  have hbrk := ht.brk
  -- the words the allocator reads outside its blocks
  have hword : ∀ a, a + 4 ≤ addr R x.1 ∨ addr R x.1 + x.2 ≤ a →
      rd 4 m a = rd 4 s.mem a := fun a ha =>
    rd_congr fun y hy => hm y (by
      have h1 : a ≤ y := hy.1
      have h2 : y < a + 4 := hy.2
      omega)
  have hrep : Rep R { s with mem := m } A :=
    ⟨h.sim.rep.start, h.sim.rep.max, h.sim.rep.listp,
      ⟨e, ht.write hb fun y hy => hm y (by
        show y < addr R x.1 ∨ addr R x.1 + x.2 ≤ y
        unfold addr
        omega)⟩, h.sim.rep.cur⟩
  refine ⟨⟨hrep, h.sim.ok, rfl⟩, ⟨fun y hy hy' => ?_, ?_⟩, ?_, h.rover⟩
  · exact (hm y (Or.inr (by
      have hy : s.memBrk ≤ y := hy
      omega))).trans (h.fresh.zero y hy hy')
  · show rd 4 m (s.memBrk - 4) = 0 ∨
      (rd 4 m (s.memBrk - 4) = 1 ∧ s.memBrk = R.base + 16)
    rw [hword _ (Or.inr (by omega))]
    exact h.fresh.word
  · show rd 4 m (R.base - 4) / 8 = 0
    rw [hword _ (Or.inl (by omega))]
    exact h.word

/-- Clearing the storage leaves the word before it alone. -/
theorem Standing.clear (h : Standing fit R A xs s) :
    Ready fit R (wiped s) := by
  have hpos := R.pos
  have hal := R.aligned
  have hstart := h.sim.rep.start
  refine ⟨⟨wiped s, ?_⟩, ⟨fun y hy hy' => ?_, ?_⟩, h.idle⟩
  · unfold emptied wiped
    rw [← h.sim.rep.max, ← hstart]
  · unfold wiped
    exact fill_of_in ⟨by omega, by omega⟩
  · show rd 4 (fill s.mem s.memStartBrk maxHeap 0) (R.base - 4) / 8 = 0
    rw [rd_congr fun y hy => fill_of_out (Or.inl ?_)]
    · exact h.word
    · have := hy.2
      omega

-- =============================================================== the service

/-- The implicit allocator over the storage `R`. -/
def implicitRefinement (fit : Fit) (R : Region) :
    Refinement (.implicit fit) (implicitStore fit) where
  lo := 1
  hi := intMax
  addr := addr R
  Ready := Ready fit R
  Sim := Standing fit R
  pos := by decide
  inj := fun h => by
    unfold addr at h
    omega
  backed := fun h => h.backed
  init := fun h => init_standing h
  malloc := fun {A xs s n o A'} h hn hn' hS => by
    have hm : A.malloc fit n = some (some o, A') := obtained_some.1 hS
    refine h.served (r := .malloc n) (a := some o) ⟨Nat.zero_le n, hn'⟩
      nofun ?_ (malloc_roving hm)
    simp only [State.serve, State.enrol, hm, Option.map_some]
  full := fun h _ hn' hS => h.full hn' hS
  realloc := fun {A xs s i x n q A'} h hx hn hn' hS => by
    obtain ⟨y, hr, hy⟩ := Option.map_eq_some_iff.1 hS
    cases obtained_some.1 hy
    refine h.served (r := .realloc i n) (a := some q) hn' nofun ?_
      (realloc_roving hr)
    rw [serve_resize hx hn, hr]
    rfl
  null := fun {A xs s i x n} h hx hn hn' hS => by
    obtain ⟨⟨a, A'⟩, hr, hy⟩ := Option.map_eq_some_iff.1 hS
    cases a with
    | some q => cases hy
    | none => exact h.null hx hn hn' hr
  stuck := fun h hx hn hn' hS =>
    h.stuck hx hn hn' (Option.map_eq_none_iff.1 hS)
  free := fun {A xs s i x} h hx => by
    refine ⟨0, h.served (r := .free i) (a := none) trivial nofun ?_
      (free_roving h.rover)⟩
    simp only [State.serve, hx]
    rfl
  write := fun h hx hm => h.write hx hm
  placed := fun {A xs s x} h hx => by
    obtain ⟨hne, hmod, hlo, hhi⟩ := h.placed hx
    exact ⟨hne, hmod, hlo, by omega⟩
  apart := fun h => h.sim.houses.apart
  extent := fun h => h.extent
  clear := fun h => h.clear

/-- As a service. -/
def implicitService (fit : Fit) (R : Region) :
    Service (linked (.implicit fit)) (implicitStore fit) :=
  (implicitRefinement fit R).service

end MallocLab.Proofs.Implicit
