/-
The segregated allocator over whole runs: from initialisation on any
storage, through any requests, the heap list is well-formed, the free
lists hold exactly the free blocks, no call disturbs an allocation it is
not about, and nothing depends on what the storage held.

All of it is the refinement of Serve.lean carried along the run. The
results are stated in the terms of Model/Walk.lean; `heapOk_of` and
`freeLists_of` are where a represented heap is turned into them.

# The one way out

A growing `realloc` copies before it looks whether it got a block. `Grows`
is the condition that it got one: the results are about the runs in which
no growing `realloc` has its inner allocation fail.
-/
import MallocLab.Proofs.Walk
import MallocLab.Proofs.Segregate.Serve

namespace MallocLab.Proofs.Segregate

open Mem Blocks Model Model.Segregate Spec.Segregated

-- ========================================================== the conditions

/-- No growing `realloc` has its inner allocation fail. -/
def Grows (live : List Alloc) (s : Machine) : Req → Prop
  | .realloc i n => ∀ a av s₁ s₂, live[i]? = some a →
      (blkAvalSize a.ptr).run s = .ok av s₁ → av < align n →
      (segregateMmMalloc (align n)).run s₁ ≠ .ok 0 s₂
  | _ => True

/-- Whether none has. -/
def checkGrows (live : List Alloc) (s : Machine) : Req → Bool
  | .realloc i n => (live[i]?).all fun a =>
      match (blkAvalSize a.ptr).run s with
      | .ok av s₁ => decide (av < align n →
          result? ((segregateMmMalloc (align n)).run s₁) ≠ some 0)
      | .error _ _ => true
  | _ => true

theorem grows_of_check (live : List Alloc) (s : Machine) (r : Req)
    (h : checkGrows live s r = true) : Grows live s r := by
  cases r with
  | realloc i n =>
      intro a av s₁ s₂ ha hav hless hnull
      have hall := (Option.all_eq_true _ _).1 h a ha
      simp only [hav] at hall
      exact of_decide_eq_true hall hless (by rw [hnull]; rfl)
  | malloc n => trivial
  | reallocNull n => trivial
  | free i => trivial
  | write i off v => trivial

variable {R : Region} {live : List Alloc} {s : Machine} {S : State}

/-- Under it, the state has an answer. -/
theorem serve_answer (h : Sim R live s S) {r : Req} (hr : Sized 1 maxSize r)
    (hg : Grows live s r) (pick : Option Zip) :
    ∃ o S', S.serve pick r = some (o, S') := by
  cases r with
  | malloc n => exact ⟨_, _, rfl⟩
  | reallocNull n => exact ⟨_, _, rfl⟩
  | write i off v => exact ⟨_, _, rfl⟩
  | free i =>
      cases hx : S.live[i]? with
      | none => exact ⟨_, _, by simp only [State.serve, hx]; rfl⟩
      | some x => exact ⟨_, _, by simp only [State.serve, hx]; rfl⟩
  | realloc i n =>
      cases hx : S.live[i]? with
      | none => exact ⟨_, _, by simp only [State.serve, hx]; rfl⟩
      | some x =>
          by_cases hn : n = 0
          · exact ⟨_, _, by simp only [State.serve, hx, if_pos hn]; rfl⟩
          obtain ⟨z, hzb, hzo, hu, -⟩ := h.ok.cursor hx
          have hn' : n ≤ 2 ^ 31 - 16 := hr
          have hsz := need_size (show 1 ≤ n by omega) (by omega)
          have hget := h.live_get i
          rw [hx] at hget
          have haval : (blkAvalSize (addr R x.1)).run s
              = .ok z.mid.room s := by
            rw [← hzo]
            exact blkAvalSize_ok (h.rep.at hzb hu).tiled
          have hheap : ∃ y, S.heap.realloc x.1 n = some y := by
            rw [Heap.realloc_at hzb hzo]
            by_cases hroom : align n ≤ z.mid.room
            · exact ⟨_, if_pos hroom⟩
            · rw [if_neg hroom]
              cases hm : S.heap.malloc none (align n) with
              | some y => exact ⟨_, rfl⟩
              | none =>
                  -- the inner allocation would fail
                  have hmin := h.ok.heap.min z.mid
                    (by rw [← hzb]; simp [Zip.blocks])
                  have hr := z.mid.room_add
                  have hserved := segregateMmMalloc_large h.rep
                    (show 9 ≤ align n by omega)
                    (by unfold need at hsz; omega)
                  rw [hm] at hserved
                  exact absurd hserved (hg _ _ _ _ hget haval (by omega))
          obtain ⟨y, hy⟩ := hheap
          exact ⟨_, _, by
            simp only [State.serve, hx, if_neg hn, hy, Option.map_some]; rfl⟩

-- ================================================================ the runs

/-- One request the state answers: the machine gives the same answer and
stands for the new state. -/
theorem serve_as (h : Sim R live s S) {r : Req} (hr : Sized 9 maxSize r)
    {o : Option Nat} {S' : State} (hS : S.serve none r = some (o, S')) :
    ∃ live' s', (serve .segregate live r).run s = .ok (ptrOf R o, live') s' ∧
      Sim R live' s' S' ∧ Preserved live r (ptrOf R o) s.mem s'.mem := by
  have hans := serve_ok h (hr.mono (by decide) (Nat.le_refl _))
    (zeroFor_of_sized hr)
  rw [hS] at hans
  obtain ⟨live', s', hrun, hsim, hkeep, -⟩ := hans
  exact ⟨live', s', hrun, hsim, hkeep⟩

/-- If it takes no block of the smallest size off a list, the list at
slot zero is kept up. -/
theorem serve_zero (h : Sim R live s S) (hzero : AtZero R s.mem S.heap.bins)
    {r : Req} (hr : Sized 1 maxSize r) (hz : ZeroFor R s S.heap none r)
    (hsp : Spares S r) {o : Option Nat} {S' : State}
    (hS : S.serve none r = some (o, S')) :
    ∃ live' s', (serve .segregate live r).run s = .ok (ptrOf R o, live') s' ∧
      Sim R live' s' S' ∧ AtZero R s'.mem S'.heap.bins := by
  have hans := serve_ok h hr hz
  rw [hS] at hans
  obtain ⟨live', s', hrun, hsim, -, hkeep⟩ := hans
  exact ⟨live', s', hrun, hsim, hkeep hsp hzero⟩

/-- One request that does not fail to grow: it is answered. -/
theorem serve_step (h : Sim R live s S) {r : Req} (hr : Sized 9 maxSize r)
    (hg : Grows live s r) :
    ∃ o S' live' s', S.serve none r = some (o, S') ∧
      (serve .segregate live r).run s = .ok (ptrOf R o, live') s' ∧
      Sim R live' s' S' ∧ Preserved live r (ptrOf R o) s.mem s'.mem := by
  obtain ⟨o, S', hS⟩ :=
    serve_answer h (hr.mono (by decide) (Nat.le_refl _)) hg none
  obtain ⟨live', s', hans⟩ := serve_as h hr hS
  exact ⟨o, S', live', s', hS, hans⟩

/-- Initialisation, whatever the storage holds: all lists are empty, the
one at slot zero too. -/
theorem init_zero (R : Region) (m : Bytes) :
    ∃ s, (mmInit .segregate).run (memInit R m) = .ok 0 s ∧
      Sim R [] s ⟨Heap.init, []⟩ ∧ AtZero R s.mem Heap.init.bins := by
  obtain ⟨s, hrun, hrep, hzero, -⟩ := segregateMmInit_ok R m
  exact ⟨s, hrun, ⟨hrep, State.init_ok, rfl⟩, hzero⟩

/-- Initialisation stands for the empty heap. -/
theorem init_sim (R : Region) (m : Bytes) :
    ∃ s, (mmInit .segregate).run (memInit R m) = .ok 0 s ∧
      Sim R [] s ⟨Heap.init, []⟩ := by
  obtain ⟨s, hrun, hsim, -⟩ := init_zero R m
  exact ⟨s, hrun, hsim⟩

/-- Every run returns, and leaves a machine that stands for a
well-formed state. -/
theorem run_sim (R : Region) (m : Bytes) {reqs : List Req}
    (hsize : ∀ r ∈ reqs, Sized 9 maxSize r)
    (hgrow : Throughout .segregate Grows (memInit R m) reqs) :
    ∃ ps live s S, (run .segregate reqs).run (memInit R m)
        = .ok (ps, live) s ∧ Sim R live s S := by
  obtain ⟨s₀, hinit, hsim⟩ := init_sim R m
  have hC := along_and_all (hgrow 0 s₀ hinit) hsize
  obtain ⟨ps, live, s, hrun, S, hS⟩ := serveAll_inv
    (I := fun live s => ∃ S, Sim R live s S)
    (fun live s r ⟨S, hS⟩ ⟨hg, hr⟩ => by
      obtain ⟨o, S', live', s', -, hrun, hsim', -⟩ := serve_step hS hr hg
      exact ⟨_, live', s', hrun, S', hsim'⟩) ⟨_, hsim⟩ hC
  refine ⟨ps, live, s, S, ?_, hS⟩
  unfold run
  rw [bind_ok hinit]
  exact hrun

-- ===================================================== what the heap shows

/-- The boundary tags of a reachable heap and the live allocations. -/
structure HeapOk (live : List Alloc) (s : Machine) (xs : List Seen) :
    Prop where
  list : HeapList s xs
  epilogue : (getWord (s.memBrk - 4)).run s = .ok (pack 0 1) s
  tags : ∀ x ∈ xs, x.size % 8 = 0 ∧ 16 ≤ x.size ∧ x.hdr = x.ftr
  coalesced : xs.IsChain fun x y => ¬ (x.state = blkFree ∧ y.state = blkFree)
  alloc : ∀ p, (∃ x ∈ xs, x.addr = p ∧ x.state = blkAlloc) ↔
    p ∈ live.map Alloc.ptr
  distinct : (live.map Alloc.ptr).Nodup
  fits : ∀ a ∈ live, a.ptr % 8 = 0 ∧ ∃ av,
    (blkAvalSize a.ptr).run s = .ok av s ∧
      (av = align a.size ∨ av = align a.size + 8)
  inside : s.strays = []

/-- The heap list of a represented heap. -/
theorem Rep.heapList {A : Heap} (h : Rep R s A) :
    HeapList s (seen (R.base + 104) A.blocks) :=
  h.shape.tiled.heapList rfl h.shape.listp

/-- The heap list of a machine that stands for a state. -/
theorem Sim.heapList (h : Sim R live s S) :
    HeapList s (seen (R.base + 104) S.heap.blocks) := h.rep.heapList

/-- The place of an offset. -/
theorem addr_at (R : Region) (o : Nat) : addr R o = o + (R.base + 104) := by
  unfold addr
  omega

/-- A placed block, as it is seen. -/
theorem mem_seen_addr {bs : List Blk} {x : Seen} :
    x ∈ seen (R.base + 104) bs ↔
      ∃ o b, (o, b) ∈ placed 0 bs ∧ x = seenAt (addr R o, b) :=
  mem_seen_at (addr_at R)

theorem heapOk_of (h : Sim R live s S) :
    HeapOk live s (seen (R.base + 104) S.heap.blocks) where
  list := h.heapList
  epilogue := by
    have ht := h.rep.shape.tiled
    have hstart := ht.start
    have hbrk := ht.brk
    have := load_ok (w := 4) (ht.access (a := s.memBrk - 4) (n := 4)
      (by omega) (by omega))
    rw [ht.last] at this
    exact this
  tags := fun x hx => by
    obtain ⟨o, b, hb, rfl⟩ := mem_seen_addr.1 hx
    exact ⟨b.aligned, h.ok.heap.min b (placed_mem hb), rfl⟩
  coalesced := seen_coalesced h.ok.heap.coalesced _
  alloc := fun p => by
    rw [h.live, List.map_map]
    exact seen_owned h.ok.owned (addr_at R) p
  distinct := by
    rw [h.live, List.map_map]
    exact owned_addrs h.ok.owned (addr_at R)
  fits := fun a ha => by
    rw [h.live] at ha
    obtain ⟨y, hy, rfl⟩ := List.mem_map.1 ha
    obtain ⟨i, hi⟩ := List.mem_iff_getElem?.1 hy
    obtain ⟨z, hzb, hzo, hu, hfit, hmem⟩ := h.ok.cursor hi
    have hal := (placed_bounds hmem.1).2.2
    have hR := R.aligned
    refine ⟨?_, z.mid.room, ?_, hfit.2⟩
    · show addr R y.1 % 8 = 0
      unfold addr
      omega
    · show (blkAvalSize (addr R y.1)).run s = _
      rw [← hzo]
      exact blkAvalSize_ok (h.rep.at hzb hu).tiled
  inside := h.rep.shape.strays

/-- A list in memory can be followed, if its words may be read. -/
theorem freeList_of {a : Nat} {ns : List Nat} (h : Linked s.mem a ns)
    (ha : Access s a 8)
    (hns : ∀ n ∈ ns, n ≠ 0 ∧ Access s n 8 ∧ Access s (n + 8) 8) :
    FreeList s a ns := by
  induction ns generalizing a with
  | nil =>
      have := load_ok ha
      rw [show rd 8 s.mem a = 0 from h] at this
      exact FreeList.stop this
  | cons n ns ih =>
      obtain ⟨hnext, hprev, hrest⟩ := h
      obtain ⟨hn, hacc, hacc'⟩ := hns n List.mem_cons_self
      have hn₁ := load_ok ha
      have hp₁ := load_ok hacc'
      rw [hnext] at hn₁
      rw [hprev] at hp₁
      exact FreeList.step hn hn₁ hp₁
        (ih hrest hacc fun k hk => hns k (List.mem_cons_of_mem n hk))

/-- A list read forward can be followed likewise. -/
theorem nextList_of {a : Nat} {ns : List Nat} (h : Strung s.mem a ns)
    (ha : Access s a 8) (hns : ∀ n ∈ ns, n ≠ 0 ∧ Access s n 8) :
    NextList s a ns := by
  induction ns generalizing a with
  | nil =>
      have := load_ok ha
      rw [show rd 8 s.mem a = 0 from h] at this
      exact NextList.stop this
  | cons n ns ih =>
      obtain ⟨hnext, hrest⟩ := h
      obtain ⟨hn, hacc⟩ := hns n List.mem_cons_self
      have hn₁ := load_ok ha
      rw [hnext] at hn₁
      exact NextList.step hn hn₁
        (ih hrest hacc fun k hk => hns k (List.mem_cons_of_mem n hk))

/-- Following a list both ways is following it forward. -/
theorem nextList_of_freeList {a : Nat} {ns : List Nat}
    (h : FreeList s a ns) : NextList s a ns := by
  induction h with
  | stop hend => exact NextList.stop hend
  | step hpos hnext _ _ ih => exact NextList.step hpos hnext ih

/-- The free list of class `k`. -/
theorem Shape.freeList {bs : List Blk} {B : Bins} {F : Set (Nat × Blk)}
    (h : Shape R s bs B F) {k : Nat} (hk : 1 ≤ k) (hk' : k ≤ 10) :
    FreeList s (s.freelistTable + 8 * k) ((B k).map (addr R)) := by
  rw [h.table]
  refine freeList_of (h.filed.links k hk hk')
    (h.access (by omega) (by omega)) fun n hn => ?_
  obtain ⟨o, ho, rfl⟩ := List.mem_map.1 hn
  obtain ⟨b, hb, -, hr⟩ := h.filed.node hk ho
  have hpl := (h.filed.sub hb).1
  exact ⟨addr_pos R o, h.block_access hpl (by omega) (by omega),
    h.block_access hpl (by omega) (by omega)⟩

/-- What may be read of the list at slot zero. -/
theorem Shape.zero_access {bs : List Blk} {B : Bins}
    {F : Set (Nat × Blk)} (h : Shape R s bs B F) :
    Access s R.base 8 ∧
      ∀ n ∈ (B 0).map (addr R), n ≠ 0 ∧ Access s n 8 := by
  refine ⟨h.access (Nat.le_refl _) (by omega), fun n hn => ?_⟩
  obtain ⟨o, ho, rfl⟩ := List.mem_map.1 hn
  obtain ⟨b, hb, hsz⟩ := h.filed.small ho
  have hr := b.room_add
  exact ⟨addr_pos R o,
    h.block_access (h.filed.sub hb).1 (Nat.le_refl _) (by omega)⟩

/-- The free list of class `k` of a machine that stands for a state. -/
theorem Sim.freeList (h : Sim R live s S) {k : Nat} (hk : 1 ≤ k)
    (hk' : k ≤ 10) :
    FreeList s (s.freelistTable + 8 * k) ((S.heap.bins k).map (addr R)) :=
  h.rep.shape.freeList hk hk'

/-- The nodes of the list of class `k`: each once, and exactly the free
blocks of the heap list of that class. -/
theorem freeLists_of (h : Sim R live s S) {k : Nat} :
    ((S.heap.bins k).map (addr R)).Nodup ∧
      ∀ p, p ∈ (S.heap.bins k).map (addr R) ↔
        ∃ x ∈ seen (R.base + 104) S.heap.blocks,
          x.addr = p ∧ x.state = blkFree ∧ ∃ av,
            (blkAvalSize p).run s = .ok av s ∧ fltIndexOf av = k := by
  refine ⟨?_, fun p => ⟨fun hp => ?_, ?_⟩⟩
  · refine (h.ok.heap.files.nodup k).map fun o o' he => ?_
    unfold addr at he
    omega
  · obtain ⟨o, ho, rfl⟩ := List.mem_map.1 hp
    obtain ⟨b, hb, hcls⟩ := (h.ok.heap.files.mem k o).1 ho
    obtain ⟨z, hzb, hzo, hzm⟩ := Zip.of_placed hb.1
    have ht := h.rep.shape.tiled
    rw [← hzb] at ht
    refine ⟨seenAt (addr R o, b), mem_seen_addr.2 ⟨o, b, hb.1, rfl⟩, rfl,
      ?_, b.room, ?_, hcls⟩
    · show b.used.toNat = 0
      rw [show b.used = false from hb.2]
      rfl
    · rw [← hzo, ← hzm]
      exact blkAvalSize_ok ht
  · rintro ⟨x, hx, rfl, hst, av, hav, hk⟩
    obtain ⟨o, b, hb, rfl⟩ := mem_seen_addr.1 hx
    obtain ⟨z, hzb, hzo, hzm⟩ := Zip.of_placed hb
    have ht := h.rep.shape.tiled
    rw [← hzb] at ht
    have hav' : (blkAvalSize (addr R o)).run s = .ok b.room s := by
      rw [← hzo, ← hzm]
      exact blkAvalSize_ok ht
    injection hav.symm.trans hav' with he _
    refine List.mem_map.2 ⟨o, (h.ok.heap.files.mem k o).2
      ⟨b, ⟨hb, seen_free.1 hst⟩, ?_⟩, rfl⟩
    rw [← hk, he]
    rfl

/-- The free lists of a reachable heap whose heap list is `xs`: the list
of class `k` has each of its nodes once, and they are the free blocks of
that class. -/
def ListOk (s : Machine) (xs : List Seen) (k : Nat) : Prop :=
  ∃ ns, FreeList s (s.freelistTable + 8 * k) ns ∧ ns.Nodup ∧
    ∀ p, p ∈ ns ↔ ∃ x ∈ xs, x.addr = p ∧ x.state = blkFree ∧ ∃ av,
      (blkAvalSize p).run s = .ok av s ∧ fltIndexOf av = k

/-- Two heaps that differ in where they are and in what their payloads
hold, and in nothing else that is read. -/
structure SameHeap (R₁ R₂ : Region) (s₁ s₂ : Machine) : Prop where
  brk : SamePlace R₁ R₂ s₁.memBrk s₂.memBrk
  list : ∃ xs₁ xs₂, HeapList s₁ xs₁ ∧ HeapList s₂ xs₂ ∧
    List.Forall₂ (SameSeen R₁ R₂) xs₁ xs₂
  slots : ∀ k, 1 ≤ k → k ≤ 10 → ∃ ns₁ ns₂,
    FreeList s₁ (s₁.freelistTable + 8 * k) ns₁ ∧
    FreeList s₂ (s₂.freelistTable + 8 * k) ns₂ ∧
    List.Forall₂ (SamePlace R₁ R₂) ns₁ ns₂

theorem same_place (R₁ R₂ : Region) (o : Nat) :
    SamePlace R₁ R₂ (addr R₁ o) (addr R₂ o) := by
  unfold SamePlace addr
  omega

theorem same_answer (R₁ R₂ : Region) (o : Option Nat) :
    SameAnswer R₁ R₂ (ptrOf R₁ o) (ptrOf R₂ o) := by
  cases o with
  | none => exact Or.inl ⟨rfl, rfl⟩
  | some o =>
      exact Or.inr ⟨addr_pos R₁ o, addr_pos R₂ o, same_place R₁ R₂ o⟩

theorem same_nodes (R₁ R₂ : Region) (os : List Nat) :
    List.Forall₂ (SamePlace R₁ R₂) (os.map (addr R₁))
      (os.map (addr R₂)) := by
  induction os with
  | nil => exact List.Forall₂.nil
  | cons o os ih => exact List.Forall₂.cons (same_place R₁ R₂ o) ih

/-- Two machines that stand for one state are the same heap. -/
theorem sameHeap_of {R₁ R₂ : Region} {live₁ live₂ : List Alloc}
    {s₁ s₂ : Machine} (h₁ : Sim R₁ live₁ s₁ S) (h₂ : Sim R₂ live₂ s₂ S) :
    SameHeap R₁ R₂ s₁ s₂ where
  brk := by
    have hb₁ := h₁.rep.shape.tiled.brk
    have hb₂ := h₂.rep.shape.tiled.brk
    unfold SamePlace
    omega
  list := ⟨_, _, h₁.heapList, h₂.heapList, seen_same R₁ R₂ 104 _⟩
  slots := fun _ hk hk' => ⟨_, _, h₁.freeList hk hk', h₂.freeList hk hk',
    same_nodes R₁ R₂ _⟩

-- ===================================================== every reachable state

/-- Every run returns, with the boundary tags in order. -/
theorem segregate_heapOk (R : Region) (m : Bytes) {reqs : List Req}
    (hsize : ∀ r ∈ reqs, Sized 9 maxSize r)
    (hgrow : Throughout .segregate Grows (memInit R m) reqs) :
    ∃ ps live s xs, (run .segregate reqs).run (memInit R m)
      = .ok (ps, live) s ∧ HeapOk live s xs := by
  obtain ⟨ps, live, s, S, hrun, hS⟩ := run_sim R m hsize hgrow
  exact ⟨ps, live, s, _, hrun, heapOk_of hS⟩

/-- Four blocks, written into: one is cut in place, one freed, one moved
to the end, and what was freed is used again. -/
def sampleReqs : List Req :=
  [.malloc 40, .malloc 24, .malloc 24, .malloc 40, .write 1 3 7,
    .write 3 0 5, .realloc 0 24, .free 2, .realloc 2 100, .malloc 16]

theorem sample_sized : ∀ r ∈ sampleReqs, Sized 9 maxSize r := by
  simp [sampleReqs, Sized, maxSize]

theorem sample_grows : Throughout .segregate Grows
    (memInit Region.sample fun _ => 0) sampleReqs :=
  throughout_of_check grows_of_check (by decide +kernel)

theorem segregate_heapOk_sample : ∃ ps live s xs,
    (run .segregate sampleReqs).run (memInit Region.sample fun _ => 0)
      = .ok (ps, live) s ∧ HeapOk live s xs :=
  segregate_heapOk _ _ sample_sized sample_grows

/-- Every run returns, with the free lists in order. -/
theorem segregate_listOk (R : Region) (m : Bytes) {reqs : List Req}
    (hsize : ∀ r ∈ reqs, Sized 9 maxSize r)
    (hgrow : Throughout .segregate Grows (memInit R m) reqs) :
    ∃ ps live s xs, (run .segregate reqs).run (memInit R m)
      = .ok (ps, live) s ∧ HeapList s xs ∧
        ∀ k, 1 ≤ k → k ≤ 10 → ListOk s xs k := by
  obtain ⟨ps, live, s, S, hrun, hS⟩ := run_sim R m hsize hgrow
  refine ⟨ps, live, s, _, hrun, hS.heapList, fun k hk hk' => ?_⟩
  exact ⟨_, hS.freeList hk hk', freeLists_of hS⟩

theorem segregate_listOk_sample : ∃ ps live s xs,
    (run .segregate sampleReqs).run (memInit Region.sample fun _ => 0)
      = .ok (ps, live) s ∧ HeapList s xs ∧
        ∀ k, 1 ≤ k → k ≤ 10 → ListOk s xs k :=
  segregate_listOk _ _ sample_sized sample_grows

/-- After every run the next call returns, and keeps what the client
has in its allocations; a `realloc` to something returns something. -/
theorem segregate_preserved (R : Region) (m : Bytes) {reqs : List Req} {r : Req}
    (hsize : ∀ x ∈ reqs ++ [r], Sized 9 maxSize x)
    (hgrow : Throughout .segregate Grows (memInit R m) (reqs ++ [r])) :
    ∃ ps live s p live' s', (run .segregate reqs).run (memInit R m)
        = .ok (ps, live) s ∧
      (serve .segregate live r).run s = .ok (p, live') s' ∧
      Preserved live r p s.mem s'.mem ∧
      ∀ i n a, r = .realloc i n → 1 ≤ n → live[i]? = some a → p ≠ 0 := by
  have hr := hsize r (by simp)
  obtain ⟨s₀, hinit, -⟩ := init_sim R m
  obtain ⟨ps, live, s, S, hrun, hS⟩ := run_sim R m
    (fun x hx => hsize x (List.mem_append_left _ hx))
    fun q s₁ h => (along_snoc (hgrow q s₁ h)).1
  have hall : (serveAll .segregate [] reqs).run s₀ = .ok (ps, live) s := by
    unfold run at hrun
    rwa [bind_ok hinit] at hrun
  have hg := (along_snoc (hgrow 0 s₀ hinit)).2 ps live s hall
  obtain ⟨o, S', live', s', hans, hserve, -, hkeep⟩ := serve_step hS hr hg
  refine ⟨ps, live, s, _, live', s', hrun, hserve, hkeep, ?_⟩
  rintro i n a rfl hn ha
  -- a resize that is not to nothing is answered with a place
  have hget := hS.live_get i
  rw [ha] at hget
  obtain ⟨x, hx, -⟩ := Option.map_eq_some_iff.1 hget.symm
  simp only [State.serve, hx, if_neg (show ¬ n = 0 by omega)] at hans
  obtain ⟨y, -, he⟩ := Option.map_eq_some_iff.1 hans
  cases he
  exact addr_pos R _

/-- The second block, written into, is moved to the end. -/
theorem segregate_preserved_sample : ∃ ps live s p live' s',
    (run .segregate sampleReqs).run (memInit Region.sample fun _ => 0)
      = .ok (ps, live) s ∧
      (serve .segregate live (.realloc 1 60)).run s = .ok (p, live') s' ∧
      Preserved live (.realloc 1 60) p s.mem s'.mem ∧
      ∀ i n a, Req.realloc 1 60 = .realloc i n → 1 ≤ n →
        live[i]? = some a → p ≠ 0 :=
  segregate_preserved _ _ (by simp [sampleReqs, Sized, maxSize])
    (throughout_of_check grows_of_check (by decide +kernel))

/-- The same requests on two regions, whatever they hold: the same
answers and the same heap. -/
theorem segregate_same (R₁ R₂ : Region) (m₁ m₂ : Bytes) {reqs : List Req}
    (hsize : ∀ r ∈ reqs, Sized 9 maxSize r)
    (hgrow : Throughout .segregate Grows (memInit R₁ m₁) reqs) :
    ∃ ps₁ live₁ s₁ ps₂ live₂ s₂,
      (run .segregate reqs).run (memInit R₁ m₁) = .ok (ps₁, live₁) s₁ ∧
      (run .segregate reqs).run (memInit R₂ m₂) = .ok (ps₂, live₂) s₂ ∧
      List.Forall₂ (SameAnswer R₁ R₂) ps₁ ps₂ ∧
      SameHeap R₁ R₂ s₁ s₂ := by
  obtain ⟨t₁, hinit₁, hsim₁⟩ := init_sim R₁ m₁
  obtain ⟨t₂, hinit₂, hsim₂⟩ := init_sim R₂ m₂
  have hC := along_and_all (hgrow 0 t₁ hinit₁) hsize
  obtain ⟨ps₁, live₁, s₁, ps₂, live₂, s₂, h₁, h₂, hQ, S, hS₁, hS₂⟩ :=
    serveAll_pair (Q := SameAnswer R₁ R₂)
      (J := fun live₁ s₁ live₂ s₂ =>
        ∃ S, Sim R₁ live₁ s₁ S ∧ Sim R₂ live₂ s₂ S)
      (fun live₁ s₁ live₂ s₂ r ⟨S, hS₁, hS₂⟩ ⟨hg, hr⟩ _ => by
        obtain ⟨o, S', live₁', s₁', hans, hrun₁, hsim₁', -⟩ :=
          serve_step hS₁ hr hg
        obtain ⟨live₂', s₂', hrun₂, hsim₂', -⟩ := serve_as hS₂ hr hans
        exact ⟨_, live₁', s₁', _, live₂', s₂', hrun₁, hrun₂,
          same_answer R₁ R₂ o, S', hsim₁', hsim₂'⟩)
      ⟨_, hsim₁, hsim₂⟩ hC (along_trivial [] t₂ reqs)
  refine ⟨ps₁, live₁, s₁, ps₂, live₂, s₂, ?_, ?_, hQ, sameHeap_of hS₁ hS₂⟩
  · unfold run
    rw [bind_ok hinit₁]
    exact h₁
  · unfold run
    rw [bind_ok hinit₂]
    exact h₂

theorem segregate_same_sample : ∃ ps₁ live₁ s₁ ps₂ live₂ s₂,
    (run .segregate sampleReqs).run (memInit Region.sample fun _ => 0)
      = .ok (ps₁, live₁) s₁ ∧
    (run .segregate sampleReqs).run (memInit Region.sample fun _ => 255)
      = .ok (ps₂, live₂) s₂ ∧
    List.Forall₂ (SameAnswer Region.sample Region.sample) ps₁ ps₂ ∧
    SameHeap Region.sample Region.sample s₁ s₂ :=
  segregate_same _ _ _ _ sample_sized sample_grows

end MallocLab.Proofs.Segregate
