/-
A growing `segregate_mm_realloc` whose larger block cannot be had. The
inner `segregate_mm_malloc` does its part: it returns null and changes
nothing. The call does not look at what it got, and copies the old
payload to null: it never returns null itself, in any reachable state.
-/
import MallocLab.Proofs.Segregate.Complete
import MallocLab.Proofs.Segregate.SlotZero

namespace MallocLab.Proofs.Segregate

open Mem Blocks Model Model.Segregate Spec.Segregated

/-- The larger block a resize of `p` to `size` bytes needs is not there:
no block seen is free and large enough, and the heap cannot be extended
by it. -/
structure Wanting (s : Machine) (xs : List Seen) (p size : Nat) :
    Prop where
  list : HeapList s xs
  grows : ∃ av, (blkAvalSize p).run s = .ok av s ∧ av < align size
  none : ¬ HasFree xs (need size)
  full : s.memMaxAddr < s.memBrk + need size

/-- The request returns null and its allocation stays live; the break,
the tags, the free lists and the live payloads are as they were. -/
def FailsCleanly (live : List Alloc) (s : Machine) (r : Req) : Prop :=
  ∃ s', (serve .segregate live r).run s = .ok (0, live) s' ∧
    s'.memBrk = s.memBrk ∧
    (∀ xs, HeapList s xs → HeapList s' xs) ∧
    (∀ k ≤ 10, ∀ ns, FreeList s (s.freelistTable + 8 * k) ns →
      FreeList s' (s'.freelistTable + 8 * k) ns) ∧
    ∀ a ∈ live, ∀ off < a.size, s'.mem (a.ptr + off) = s.mem (a.ptr + off)

variable {R : Region} {live : List Alloc} {s : Machine} {S : State}

/-- A resize that wants its block faults. -/
theorem realloc_wanting (h : Sim R live s S) {i size : Nat} {a : Alloc}
    (ha : live[i]? = some a) (hsz : 1 ≤ size) (hsz' : size ≤ maxSize)
    {xs : List Seen} (hw : Wanting s xs a.ptr size) :
    ∃ s', (serve .segregate live (.realloc i size)).run s
      = .error .fault s' := by
  have hget := h.live_get i
  rw [ha] at hget
  obtain ⟨x, hx, hown⟩ := Option.map_eq_some_iff.1 hget.symm
  subst hown
  obtain ⟨z, hzb, hzo, hu, -⟩ := h.ok.cursor hx
  unfold maxSize at hsz'
  have hptr : (own R x).ptr = addr R z.off := by
    rw [hzo]
    rfl
  obtain ⟨av, hav, hless⟩ := hw.grows
  rw [hptr] at hav
  injection hav.symm.trans (blkAvalSize_ok (h.rep.at hzb hu).tiled) with he _
  obtain ⟨-, -, hlt, hle, hal, -⟩ := need_size hsz (by omega)
  have hr := z.mid.room_add
  have hmin := h.ok.heap.min z.mid (by rw [← hzb]; simp [Zip.blocks])
  have hmax := h.rep.shape.max
  have hbrk := h.rep.brk
  have htotal := h.rep.shape.tiled.total_lt
  have hmaxHeap := maxHeap_lt
  have hmalloc : S.heap.malloc none (align size) = none := by
    rcases malloc_complete h.ok.heap (show 9 ≤ align size by omega)
        (by unfold need at hlt; omega) (by omega) with
      ⟨w, hfit, -⟩ | ⟨-, hans⟩
    · -- a free block would be seen
      have hb : (w.off, w.mid) ∈ placed 0 S.heap.blocks := by
        have := w.mid_placed
        rwa [hfit.blocks] at this
      have hsize := hfit.size
      rw [need_align] at hsize
      apply absurd _ hw.none
      rw [hw.list.blocks.unique h.heapList.blocks]
      exact ⟨_, mem_seen_addr.2 ⟨_, _, hb, rfl⟩, seen_free.2 hfit.free,
        hsize⟩
    · have hfull := hw.full
      unfold addr at hbrk
      rw [hans, need_align]
      unfold Heap.grow lead
      rw [if_neg (by omega)]
  obtain ⟨s', hfault⟩ := segregateMmRealloc_fault h.rep hzb hu hsz hsz'
    (by omega) hmalloc
  rw [← hptr] at hfault
  refine ⟨s', ?_⟩
  simp only [serve, ha]
  exact bind_error hfault

/-- A run that returned, without the smallest sizes, leaves a machine that
stands for a well-formed state. -/
theorem run_returned (R : Region) (m : Bytes) {reqs : List Req}
    (hsize : ∀ r ∈ reqs, Sized 9 maxSize r) {ps : List Nat}
    (hrun : (run .segregate reqs).run (memInit R m) = .ok (ps, live) s) :
    ∃ S, Sim R live s S := by
  obtain ⟨s₀, hinit, hsim⟩ := init_sim R m
  unfold run at hrun
  rw [bind_ok hinit] at hrun
  refine serveAll_returned (C := fun _ _ r => Sized 9 maxSize r)
    (I := fun live s => ∃ S, Sim R live s S) ?_ ⟨_, hsim⟩
    (along_mono (along_and_all (along_trivial [] s₀ reqs) hsize)
      fun _ _ _ h => h.2) hrun
  rintro live s r p live' s' ⟨S, hS⟩ hr hserve
  refine serve_honest hS (hr.mono (by decide) (Nat.le_refl _)) ?_ hserve
  -- no size looks at slot zero
  cases r with
  | malloc n =>
      intro hn
      have := hr.1
      omega
  | reallocNull n =>
      intro hn
      have := hr.1
      omega
  | free i => trivial
  | realloc i n => trivial
  | write i off v => trivial

/-- In no reachable state does a resize that wants its block fail
cleanly. -/
theorem segregate_unclean (R : Region) (m : Bytes) {reqs : List Req}
    (hsize : ∀ r ∈ reqs, Sized 9 maxSize r) {ps : List Nat}
    (hrun : (run .segregate reqs).run (memInit R m) = .ok (ps, live) s)
    {i size : Nat} {a : Alloc} (ha : live[i]? = some a) (hsz : 1 ≤ size)
    (hsz' : size ≤ maxSize) {xs : List Seen}
    (hw : Wanting s xs a.ptr size) :
    ¬ FailsCleanly live s (.realloc i size) := by
  obtain ⟨S, hS⟩ := run_returned R m hsize hrun
  obtain ⟨s', hfault⟩ := realloc_wanting hS ha hsz hsz' hw
  rintro ⟨s'', hok, -⟩
  cases hfault.symm.trans hok

/-- No heap has a block of that size. -/
private theorem sample_wanting : ∃ s xs,
    (run .segregate [.malloc 16]).run (memInit Region.sample fun _ => 0)
      = .ok ([112], [⟨112, 16⟩]) s ∧ Wanting s xs 112 maxSize := by
  obtain ⟨s, hs⟩ := of_result? (show result? ((run .segregate
      [.malloc 16]).run (memInit Region.sample fun _ => 0))
      = some ([112], [⟨112, 16⟩]) by decide +kernel)
  obtain ⟨S, hS⟩ := run_returned _ _ (by simp [Sized, maxSize]) hs
  have hneed : need maxSize = 2 ^ 31 - 8 := by decide
  have hmaxHeap : maxHeap < 2 ^ 31 - 8 := by decide
  have htotal := hS.rep.shape.tiled.total_lt
  have hmax := hS.rep.shape.max
  have hbrk := hS.rep.brk
  refine ⟨s, _, hs, hS.heapList, ?_, ?_, ?_⟩
  · obtain ⟨-, av, hav, hsize⟩ :=
      (heapOk_of hS).fits ⟨112, 16⟩ List.mem_cons_self
    have halign : align 16 = 16 ∧ align maxSize = 2 ^ 31 - 16 := by decide
    simp only at hsize
    exact ⟨av, hav, by omega⟩
  · rintro ⟨x, hx, -, hle⟩
    obtain ⟨o, b, hb, rfl⟩ := mem_seen_addr.1 hx
    have hbd := placed_bounds hb
    have hle' : need maxSize ≤ b.size := hle
    omega
  · unfold addr at hbrk
    omega

theorem segregate_unclean_sample : ∃ s xs,
    (run .segregate [.malloc 16]).run (memInit Region.sample fun _ => 0)
      = .ok ([112], [⟨112, 16⟩]) s ∧ Wanting s xs 112 maxSize ∧
    ¬ FailsCleanly [⟨112, 16⟩] s (.realloc 0 maxSize) := by
  obtain ⟨s, xs, hs, hw⟩ := sample_wanting
  exact ⟨s, xs, hs, hw, segregate_unclean _ _ (by simp [Sized, maxSize]) hs
    rfl (by decide) (Nat.le_refl _) hw⟩

/-- Allocate sixteen bytes and ask for more than the storage has: the
resize faults. -/
theorem segregate_null_copy : ∃ s xs s',
    (run .segregate [.malloc 16]).run (memInit Region.sample fun _ => 0)
      = .ok ([112], [⟨112, 16⟩]) s ∧ Wanting s xs 112 maxSize ∧
    (serve .segregate [⟨112, 16⟩] (.realloc 0 maxSize)).run s
      = .error .fault s' ∧
    ¬ FailsCleanly [⟨112, 16⟩] s (.realloc 0 maxSize) := by
  obtain ⟨s, xs, hs, hw⟩ := sample_wanting
  obtain ⟨S, hS⟩ := run_returned _ _ (by simp [Sized, maxSize]) hs
  obtain ⟨s', hfault⟩ := realloc_wanting hS (i := 0) rfl (by decide)
    (Nat.le_refl _) hw
  refine ⟨s, xs, s', hs, hw, hfault, ?_⟩
  rintro ⟨s'', hok, -⟩
  cases hfault.symm.trans hok

end MallocLab.Proofs.Segregate
