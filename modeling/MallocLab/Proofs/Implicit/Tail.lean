/-
Does `implicit_mm_realloc` find room while there is room? When no
neighbour of the block serves and the block is not the last one, it asks
`do_malloc` directly, without a search. `do_malloc` takes a free last
block to be too small for what is asked: it extends the heap by the
difference, and the difference is unsigned. If the last block is large
enough, nothing is extended and the call returns null.

With storage left for a whole new block, that is the only way it returns
null (`implicit_room`). The run at the end of the file takes it.
-/
import MallocLab.Proofs.Implicit.Runs

namespace MallocLab.Proofs.Implicit

open Mem Blocks Model Model.Implicit Spec.Implicit

-- ============================================================ the condition

/-- The block at `p` is to have `n` bytes. It has fewer, also with the
free block behind it or the one before it, and the last block of the heap
is free and has as many. -/
def TailServes (xs : List Seen) (p n : Nat) : Prop :=
  ∃ x ∈ xs, x.addr = p ∧ x.size < n ∧
    (∀ y ∈ xs, y.addr = p + x.size → y.state = blkFree →
      x.size + y.size < n) ∧
    (∀ w ∈ xs, w.addr + w.size = p → w.state = blkFree →
      w.size + x.size < n) ∧
    ∃ t ∈ xs.getLast?, t.state = blkFree ∧ n ≤ t.size

/-- The same at a cursor. -/
structure Stuck (z : Zip) (n : Nat) : Prop where
  mid : z.mid.size < n
  next : z.absorbNext.mid.size < n
  prev : z.absorbPrev.mid.size < n
  last : ∃ t ∈ z.blocks.getLast?, t.used = false ∧ n ≤ t.size

variable {fit : Fit} {R : Region} {live : List Alloc} {s : Machine}
  {S : State} {A : Heap} {z : Zip} {n p : Nat} {bs : List Blk}

-- ============================================================== on the heap

/-- With room for a whole new block, the heap does not grow only if the
last block is free and large enough. -/
theorem grow_room (hn : 1 ≤ n) (hroom : lead + total bs + n ≤ maxHeap) :
    grow bs n = none ↔ ∃ t ∈ bs.getLast?, t.used = false ∧ n ≤ t.size := by
  unfold grow
  rcases stem_cases bs with ⟨hused, hstem⟩ | ⟨l, t, rfl, hfree, hstem⟩
  · rw [hstem, if_pos (by omega)]
    constructor
    · intro h
      cases h
    · rintro ⟨t, ht, hfree, -⟩
      rw [hused t ht] at hfree
      cases hfree
  · rw [hstem]
    rw [total_append, total_cons, total_nil] at hroom ⊢
    have hlast : ∀ c, c ∈ (l ++ [t]).getLast? ↔ c = t := by
      intro c
      simp [eq_comm]
    by_cases hless : t.size < n
    · rw [if_pos (by omega)]
      constructor
      · intro h
        cases h
      · rintro ⟨c, hc, -, hle⟩
        rw [(hlast c).1 hc] at hle
        omega
    · rw [if_neg (by omega)]
      constructor
      · intro _
        exact ⟨t, (hlast t).2 rfl, hfree, by omega⟩
      · intro _
        rfl

/-- With that room a resize has an answer, and null is the answer exactly
where the resize is stuck. -/
theorem resize_room (hz : z.blocks = A.blocks) (hu : z.mid.used = true)
    (hroom : lead + total A.blocks + n ≤ maxHeap) :
    ∃ a A', A.resize fit z n = some (a, A') ∧ (a = none ↔ Stuck z n) := by
  -- an answer that is a block, where the resize is not stuck
  have hyes : ∀ (q : Nat) (B : Heap), ¬ Stuck z n → ∃ a A',
      some (some q, B) = some (a, A') ∧ (a = none ↔ Stuck z n) := by
    intro q B hno
    refine ⟨some q, B, rfl, ?_⟩
    constructor
    · intro h
      cases h
    · intro h
      exact absurd h hno
  unfold Heap.resize
  by_cases hmid : n ≤ z.mid.size
  · rw [if_pos hmid]
    apply hyes
    intro h
    have := h.mid
    omega
  rw [if_neg hmid]
  by_cases hnext : n ≤ z.absorbNext.mid.size
  · rw [if_pos hnext]
    apply hyes
    intro h
    have := h.next
    omega
  rw [if_neg hnext]
  by_cases hlast : z.right = []
  · -- the last block is the one in use
    have htotal : total A.blocks = z.off + z.mid.size := by
      rw [← hz]
      unfold Zip.blocks Zip.off
      simp [hlast]
    rw [if_pos hlast, if_pos (by omega)]
    apply hyes
    intro h
    obtain ⟨t, ht, hfree, -⟩ := h.last
    have hmt : z.mid = t := by
      simpa [Zip.blocks, hlast] using ht
    rw [← hmt, hu] at hfree
    cases hfree
  rw [if_neg hlast]
  by_cases hprev : n ≤ z.absorbPrev.mid.size
  · rw [if_pos hprev]
    apply hyes
    intro h
    have := h.prev
    omega
  rw [if_neg hprev]
  have hgrow := grow_room (n := n) (by omega) hroom
  rw [← hz] at hgrow ⊢
  cases hg : grow z.blocks n with
  | none =>
      refine ⟨_, _, rfl, ?_⟩
      constructor
      · intro _
        exact ⟨by omega, by omega, by omega, hgrow.1 hg⟩
      · intro _
        rfl
  | some y =>
      apply hyes
      intro h
      rw [hgrow.2 h.last] at hg
      cases hg

-- ======================================================== seen from outside

/-- The last block seen is the last block. -/
theorem seen_last (p : Nat) (bs : List Blk) :
    (∃ t ∈ (seen p bs).getLast?, t.state = blkFree ∧ n ≤ t.size) ↔
      ∃ t ∈ bs.getLast?, t.used = false ∧ n ≤ t.size := by
  rcases bs.eq_nil_or_concat with rfl | ⟨l, b, rfl⟩
  · simp [seen]
  · rw [List.concat_eq_append]
    have hlast : (seen p (l ++ [b])).getLast?
        = some (seenAt (p + total l, b)) := by
      unfold seen
      simp
    rw [hlast, List.getLast?_concat]
    constructor
    · rintro ⟨t, ht, hfree, hle⟩
      cases ht
      exact ⟨b, rfl, seen_free.1 hfree, hle⟩
    · rintro ⟨t, ht, hfree, hle⟩
      cases ht
      exact ⟨_, rfl, seen_free.2 hfree, hle⟩

/-- Whether the next block, if free, leaves it short. -/
theorem seen_nextShort (hless : z.mid.size < n) :
    (∀ y ∈ seen p z.blocks, y.addr = p + z.off + z.mid.size →
      y.state = blkFree → z.mid.size + y.size < n) ↔
      z.absorbNext.mid.size < n := by
  constructor
  · intro h
    rcases z.absorbNext_cases with ⟨-, hw⟩ | ⟨c, r, hr, hfree, hw⟩
    · rw [hw]
      exact hless
    · rw [hw]
      obtain ⟨hy, haddr⟩ := (seen_next (p := p)).2 ⟨c, r, hr, rfl⟩
      exact h _ hy haddr (seen_free.2 hfree)
  · intro h y hy haddr hfree
    obtain ⟨c, r, hr, rfl⟩ := seen_next.1 ⟨hy, haddr⟩
    exact next_short hr (seen_free.1 hfree) h

/-- A free previous block is taken in. -/
theorem prev_join {l : List Blk} {c : Blk} (hl : z.left = l ++ [c])
    (hfree : c.used = false) :
    z.absorbPrev.mid.size = c.size + z.mid.size := by
  unfold Zip.absorbPrev
  simp [hl, hfree]

/-- Whether the previous block, if free, leaves it short. -/
theorem seen_prevShort (hless : z.mid.size < n) :
    (∀ w ∈ seen p z.blocks, w.addr + w.size = p + z.off →
      w.state = blkFree → w.size + z.mid.size < n) ↔
      z.absorbPrev.mid.size < n := by
  constructor
  · intro h
    rcases z.absorbPrev_cases with ⟨-, hw⟩ | ⟨l, c, hl, hfree, hw⟩
    · rw [hw]
      exact hless
    · rw [hw]
      obtain ⟨hx, haddr⟩ := (seen_prev (p := p)).2 ⟨l, c, hl, rfl⟩
      exact h _ hx haddr (seen_free.2 hfree)
  · intro h w hw haddr hfree
    obtain ⟨l, c, hl, rfl⟩ := seen_prev.1 ⟨hw, haddr⟩
    rw [prev_join hl (seen_free.1 hfree)] at h
    exact h

/-- A walk over the heap sees whether a resize is stuck. -/
theorem tailServes_iff : TailServes (seen p z.blocks) (p + z.off) n ↔
    Stuck z n := by
  constructor
  · rintro ⟨x, hx, haddr, hless, hnext, hprev, hlast⟩
    rw [seen_mid.1 ⟨hx, haddr⟩] at hless hnext hprev
    exact ⟨hless, (seen_nextShort hless).1 hnext,
      (seen_prevShort hless).1 hprev, (seen_last p z.blocks).1 hlast⟩
  · intro h
    obtain ⟨hx, haddr⟩ := (seen_mid (p := p) (z := z)).2 rfl
    exact ⟨_, hx, haddr, h.mid, (seen_nextShort h.mid).2 h.next,
      (seen_prevShort h.mid).2 h.prev, (seen_last p z.blocks).2 h.last⟩

-- ================================================================ the runs

/-- In every state reached, and with storage left for a whole new block,
a resize returns a block exactly where it is not stuck. -/
theorem implicit_room (fit : Fit) (R : Region) {m : Bytes} (hm : Blank R m)
    {reqs : List Req} (hsize : ∀ r ∈ reqs, Sized 0 maxSize r)
    {ps : List Nat} (hrun : (run (.implicit fit) reqs).run (memInit R m)
      = .ok (ps, live) s) {a : Alloc} (ha : a ∈ live) {size : Nat}
    (hpos : 1 ≤ size) (hroom : s.memBrk + align size + 8 ≤ s.memMaxAddr) :
    ∃ xs, HeapList s xs ∧
      ((∃ q s', (implicitMmRealloc fit a.ptr size).run s = .ok q s' ∧
          q ≠ 0) ↔
        ¬ TailServes xs a.ptr (need size)) := by
  obtain ⟨S, hS, hfresh⟩ :=
    run_returned fit R hm (fun r hr => Sized.int (hsize r hr)) hrun
  obtain ⟨i, hi⟩ := List.mem_iff_getElem?.1 ha
  rw [hS.live_get] at hi
  obtain ⟨x, hx, rfl⟩ := Option.map_eq_some_iff.1 hi
  obtain ⟨z, hzb, hzo, hu, ⟨hold, hold', hex⟩, -⟩ := hS.ok.cursor hx
  obtain ⟨e, ht⟩ := hS.rep.tiled
  have hbrk := ht.brk
  have hmax := hS.rep.max
  have hmaxHeap := maxHeap_lt
  have hbig : 8 < z.mid.size := by
    have := z.mid.room_add
    have := need_size hold hold'
    omega
  have hserved := implicitMmRealloc_ok fit hS.rep hzb
    (fun _ => hfresh.closed) hu hbig (show size ≠ 0 by omega)
    (by unfold wordMax; omega) fun _ _ => hfresh.bit hS hzb
  obtain ⟨o, A', hres, hnull⟩ : ∃ o A', S.heap.resize fit z (need size)
      = some (o, A') ∧ (o = none ↔ Stuck z (need size)) :=
    resize_room hzb hu
      (show lead + total S.heap.blocks + need size ≤ maxHeap by
        unfold lead need
        omega)
  rw [hres] at hserved
  obtain ⟨s', hok, -⟩ := hserved
  have hptr : (own R x).ptr = R.base + 16 + z.off := by
    rw [hzo]
    show R.base + 8 + 8 + x.1 = _
    omega
  refine ⟨_, hS.heapList hfresh.closed, ?_⟩
  rw [hptr, ← hzb, tailServes_iff, ← hnull]
  rw [show addr R z.off = R.base + 16 + z.off by unfold addr; omega] at hok
  constructor
  · rintro ⟨q, t, hq, hne⟩ rfl
    injection hq.symm.trans hok with hq0 _
    exact hne hq0
  · intro hne
    cases o with
    | none => exact absurd rfl hne
    | some q => exact ⟨_, s', hok, (addr_pos R q)⟩

theorem implicit_room_sample : ∃ ps live s a,
    (run (.implicit .next) sampleReqs).run (memInit Region.sample fun _ => 0)
      = .ok (ps, live) s ∧ a ∈ live ∧
    s.memBrk + align 100 + 8 ≤ s.memMaxAddr ∧
    ∃ xs, HeapList s xs ∧
      ((∃ q s', (implicitMmRealloc .next a.ptr 100).run s = .ok q s' ∧
          q ≠ 0) ↔
        ¬ TailServes xs a.ptr (need 100)) := by
  obtain ⟨s, hs, hroom⟩ := of_reading
    (fun s => decide (s.memBrk + align 100 + 8 ≤ s.memMaxAddr))
    (show result? ((do
      let x ← run (.implicit .next) sampleReqs
      let s ← get
      return (x, decide (s.memBrk + align 100 + 8 ≤ s.memMaxAddr))
        : M _).run (memInit Region.sample fun _ => 0))
      = some (([24, 72, 104, 152, 0, 0, 0, 24, 176, 24, 176, 104],
        [⟨24, 70⟩, ⟨176, 120⟩, ⟨152, 16⟩, ⟨104, 8⟩]), true)
      by decide +kernel)
  have hroom' := of_decide_eq_true hroom
  exact ⟨_, _, s, _, hs, List.mem_cons_self, hroom',
    implicit_room .next _ sample_blank
      (fun r hr => (sample_sized r hr).mono (by decide) (Nat.le_refl _)) hs
      List.mem_cons_self (by decide) hroom'⟩

/-- The last block has the room, the storage too, and the resize returns
null. -/
theorem implicit_room_tail : ∃ ps live s a,
    Throughout (.implicit .first) (Granted .first)
      (memInit Region.sample fun _ => 0)
      [.malloc 8, .malloc 8, .malloc 40, .free 2] ∧
    (run (.implicit .first) [.malloc 8, .malloc 8, .malloc 40, .free 2]).run
      (memInit Region.sample fun _ => 0) = .ok (ps, live) s ∧ a ∈ live ∧
    s.memBrk + align 32 + 8 ≤ s.memMaxAddr ∧
    ∃ s', (implicitMmRealloc .first a.ptr 32).run s = .ok 0 s' := by
  obtain ⟨s, hs, hread⟩ := of_reading
    (fun s => (s.errno, decide (s.memBrk + align 32 + 8 ≤ s.memMaxAddr),
      result? ((implicitMmRealloc .first 24 32).run s)))
    (show result? ((do
      let x ← run (.implicit .first)
        [.malloc 8, .malloc 8, .malloc 40, .free 2]
      let s ← get
      return (x, s.errno, decide (s.memBrk + align 32 + 8 ≤ s.memMaxAddr),
        result? ((implicitMmRealloc .first 24 32).run s)) : M _).run
          (memInit Region.sample fun _ => 0))
      = some (([24, 40, 56, 0], [⟨24, 8⟩, ⟨40, 8⟩]), 0, true, some 0)
      by decide +kernel)
  obtain ⟨herr, hrest⟩ := Prod.mk.inj hread
  obtain ⟨hroom, hnull⟩ := Prod.mk.inj hrest
  refine ⟨_, _, s, _, ?_, hs, List.mem_cons_self, of_decide_eq_true hroom,
    of_result? hnull⟩
  exact granted_run .first Region.sample sample_blank
    (by simp [Sized, intMax]) hs (by rw [herr]; decide)

end MallocLab.Proofs.Implicit
