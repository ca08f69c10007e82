/-
The segregated heap has no memory. Since free neighbours never stay
apart, what lies between the blocks in use is one free block each time,
and the lists hold what their classes say: so the heap list and the
members of the lists are a function of the blocks in use and the break,
whatever run led there (`segregate_canonical`).

Two things follow. An allocation taken out of a free block and given back
leaves no trace (`segregate_restores`), and a run that has freed all it
allocated leaves one free block at most (`segregate_drained`).

What remains open is the order of a list: a block that was taken off and
filed again is at its head.
-/
import MallocLab.Proofs.Segregate.FreeOrder

namespace MallocLab.Proofs.Segregate

open Mem Blocks Model Model.Segregate Spec.Segregated

variable {R : Region} {live live₁ live₂ : List Alloc}
  {s s₁ s₂ : Machine} {A B : Heap} {m m₁ m₂ : Bytes}
  {reqs reqs₁ reqs₂ : List Req} {ps ps₁ ps₂ : List Nat}

-- ============================================================ on the heap

/-- The lists of two heaps have the same members, class by class. -/
def SameLists (s₁ s₂ : Machine) : Prop :=
  ∀ k, 1 ≤ k → k ≤ 10 → ∃ ns ks,
    FreeList s₁ (s₁.freelistTable + 8 * k) ns ∧
    FreeList s₂ (s₂.freelistTable + 8 * k) ks ∧ ns.Perm ks

/-- Equal blocks are on the same lists. -/
theorem sameLists_of (h₁ : Rep R s₁ A) (h₂ : Rep R s₂ B)
    (he : A.blocks = B.blocks) : SameLists s₁ s₂ := fun k hk hk' =>
  ⟨_, _, h₁.shape.freeList hk hk', h₂.shape.freeList hk hk',
    (bins_perm h₁.ok h₂.ok he k).map _⟩

/-- Heaps that end at one break are as long as each other. -/
theorem Rep.total_eq (h₁ : Rep R s₁ A) (h₂ : Rep R s₂ B)
    (hbrk : s₁.memBrk = s₂.memBrk) : total A.blocks = total B.blocks := by
  have hb₁ := h₁.shape.tiled.brk
  have hb₂ := h₂.shape.tiled.brk
  omega

/-- The state a run came to. -/
theorem run_stands (hsize : ∀ r ∈ reqs, Sized 9 maxSize r)
    (hgrow : Throughout .segregate Grows (memInit R m) reqs)
    (hrun : (run .segregate reqs).run (memInit R m) = .ok (ps, live) s) :
    ∃ S, Sim R live s S := by
  obtain ⟨ps', live', s', S, hrun', hS⟩ := run_sim R m hsize hgrow
  injection hrun.symm.trans hrun' with hp hs
  injection hp with _ hl
  subst hl hs
  exact ⟨S, hS⟩

/-- With nothing live the heap is vacant. -/
theorem Sim.drained {S : State} (h : Sim R [] s S) :
    ∃ xs, HeapList s xs ∧ Vacant (R.base + 104) s xs := by
  have hlive : S.live = [] := List.map_eq_nil_iff.1 h.live.symm
  refine ⟨_, h.heapList, seen_vacant h.rep.coalesced ?_
    h.rep.shape.tiled.brk⟩
  refine Set.eq_empty_iff_forall_notMem.2 fun x hx => ?_
  have hin := h.ok.owned.alloc x hx
  rw [hlive] at hin
  cases hin

-- ================================================================ the runs

/-- Two runs, on any storages, that came to the same break with the same
blocks in use came to the same heap list and to the same lists, but for
the order of their nodes. -/
theorem segregate_canonical
    (hsize₁ : ∀ r ∈ reqs₁, Sized 9 maxSize r)
    (hgrow₁ : Throughout .segregate Grows (memInit R m₁) reqs₁)
    (hrun₁ : (run .segregate reqs₁).run (memInit R m₁)
      = .ok (ps₁, live₁) s₁)
    (hsize₂ : ∀ r ∈ reqs₂, Sized 9 maxSize r)
    (hgrow₂ : Throughout .segregate Grows (memInit R m₂) reqs₂)
    (hrun₂ : (run .segregate reqs₂).run (memInit R m₂)
      = .ok (ps₂, live₂) s₂)
    {xs ys : List Seen} (hxs : HeapList s₁ xs) (hys : HeapList s₂ ys)
    (hbrk : s₁.memBrk = s₂.memBrk) (huse : SameUsed xs ys) :
    xs = ys ∧ SameLists s₁ s₂ := by
  obtain ⟨S₁, h₁⟩ := run_stands hsize₁ hgrow₁ hrun₁
  obtain ⟨S₂, h₂⟩ := run_stands hsize₂ hgrow₂ hrun₂
  have hx := hxs.blocks.unique h₁.heapList.blocks
  have hy := hys.blocks.unique h₂.heapList.blocks
  subst hx hy
  have he := seen_canonical h₁.rep.coalesced h₂.rep.coalesced
    (h₁.rep.total_eq h₂.rep hbrk) huse
  exact ⟨by rw [he], sameLists_of h₁.rep h₂.rep he⟩

/-- Four blocks, of which the first and the third are freed. -/
def canonicalReqs : List Req :=
  [.malloc 16, .malloc 40, .malloc 24, .malloc 16, .free 0, .free 1]

/-- The same two stay, after some more was put into the others. -/
def canonicalReqs' : List Req :=
  [.malloc 12, .malloc 36, .malloc 20, .malloc 16, .free 2, .malloc 10,
    .free 0, .free 2]

theorem segregate_canonical_sample : ∃ ps₁ ps₂ s₁ s₂,
    (run .segregate canonicalReqs).run (memInit Region.sample fun _ => 0)
      = .ok (ps₁, [⟨136, 40⟩, ⟨216, 16⟩]) s₁ ∧
    (run .segregate canonicalReqs').run (memInit Region.sample fun _ => 7)
      = .ok (ps₂, [⟨136, 36⟩, ⟨216, 16⟩]) s₂ ∧
    ∃ xs ys, HeapList s₁ xs ∧ HeapList s₂ ys ∧ xs = ys ∧
      SameLists s₁ s₂ := by
  obtain ⟨s₁, hs₁, hr₁⟩ := of_reading (fun s => (s.memBrk, used? s))
    (show result? ((do
      let x ← run .segregate canonicalReqs
      return (x, (fun s => (s.memBrk, used? s)) (← get)) : M _).run
        (memInit Region.sample fun _ => 0))
      = some (([112, 136, 184, 216, 0, 0], [⟨136, 40⟩, ⟨216, 16⟩]), 240,
        some [⟨136, 48, 1, 49, 49⟩, ⟨216, 24, 1, 25, 25⟩]) by decide +kernel)
  obtain ⟨s₂, hs₂, hr₂⟩ := of_reading (fun s => (s.memBrk, used? s))
    (show result? ((do
      let x ← run .segregate canonicalReqs'
      return (x, (fun s => (s.memBrk, used? s)) (← get)) : M _).run
        (memInit Region.sample fun _ => 7))
      = some (([112, 136, 184, 216, 0, 184, 0, 0],
          [⟨136, 36⟩, ⟨216, 16⟩]), 240,
        some [⟨136, 48, 1, 49, 49⟩, ⟨216, 24, 1, 25, 25⟩]) by decide +kernel)
  injection hr₁ with hb₁ hu₁
  injection hr₂ with hb₂ hu₂
  have hsize₁ : ∀ r ∈ canonicalReqs, Sized 9 maxSize r := by
    simp [canonicalReqs, Sized, maxSize]
  have hsize₂ : ∀ r ∈ canonicalReqs', Sized 9 maxSize r := by
    simp [canonicalReqs', Sized, maxSize]
  have hgrow₁ : Throughout .segregate Grows
      (memInit Region.sample fun _ => 0) canonicalReqs :=
    throughout_of_check grows_of_check (by decide +kernel)
  have hgrow₂ : Throughout .segregate Grows
      (memInit Region.sample fun _ => 7) canonicalReqs' :=
    throughout_of_check grows_of_check (by decide +kernel)
  obtain ⟨S₁, hS₁⟩ := run_stands hsize₁ hgrow₁ hs₁
  obtain ⟨S₂, hS₂⟩ := run_stands hsize₂ hgrow₂ hs₂
  have hxs := hS₁.heapList
  have hys := hS₂.heapList
  exact ⟨_, _, s₁, s₂, hs₁, hs₂, _, _, hxs, hys,
    segregate_canonical hsize₁ hgrow₁ hs₁ hsize₂ hgrow₂ hs₂ hxs hys
      (hb₁.trans hb₂.symm) (sameUsed_of_used? hxs.blocks hys.blocks hu₁ hu₂)⟩

/-- After every run: what an allocation gets can be given back, and then
the heap list and the lists are as they were, if the allocation did not
extend the heap. -/
theorem segregate_restores (hsize : ∀ r ∈ reqs, Sized 9 maxSize r)
    (hgrow : Throughout .segregate Grows (memInit R m) reqs)
    (hrun : (run .segregate reqs).run (memInit R m) = .ok (ps, live) s)
    {size p : Nat} (hsz : 9 ≤ size) (hsz' : size ≤ maxSize)
    (hmalloc : (segregateMmMalloc size).run s = .ok p s₁) (hp : p ≠ 0) :
    ∃ s₂, (segregateMmFree p).run s₁ = .ok () s₂ ∧
      s₂.memBrk = s₁.memBrk ∧ (s₁.memBrk = s.memBrk →
        (∃ xs, HeapList s xs ∧ HeapList s₂ xs) ∧ SameLists s s₂) := by
  obtain ⟨S, hS⟩ := run_stands hsize hgrow hrun
  unfold maxSize at hsz'
  have hserved := segregateMmMalloc_large hS.rep hsz hsz'
  rw [hmalloc] at hserved
  cases hans : S.heap.malloc none size with
  | none =>
      rw [hans] at hserved
      injection hserved with hnull
      exact absurd hnull hp
  | some x =>
      obtain ⟨o, A'⟩ := x
      rw [hans] at hserved
      obtain ⟨s', hok, hrep, -⟩ := hserved
      injection hok with hpo hs'
      subst hpo hs'
      obtain ⟨-, b, hb, -, hfresh, huse⟩ := malloc_spec hS.ok.heap
        (by omega) hsz' (by simp) hans
      -- the block is in use where the pointer says
      have hmem : (o, b) ∈ marked true 0 A'.blocks := by
        rw [huse]
        exact Set.mem_insert _ _
      obtain ⟨z, hz, rfl, rfl⟩ := Zip.of_placed hmem.1
      obtain ⟨m', hfree, hrep', -⟩ := segregateMmFree_ok hrep hz hb
      refine ⟨_, hfree, rfl, fun hbrk => ?_⟩
      have huse' : marked true 0 (release z A'.bins).blocks
          = marked true 0 S.heap.blocks := by
        rw [(free_spec hrep.ok hz hb).2.2, huse,
          Set.insert_sdiff_self_of_notMem (hfresh _)]
      have he := coalesced_unique hrep'.coalesced hS.rep.coalesced
        (hrep'.total_eq hS.rep hbrk) huse'
      refine ⟨⟨_, hS.heapList, ?_⟩, sameLists_of hS.rep hrep' he.symm⟩
      rw [← he]
      exact hrep'.heapList

/-- Sixteen bytes out of a free block of forty, and back. -/
theorem segregate_restores_sample : ∃ ps s s₁,
    (run .segregate [.malloc 40, .free 0]).run
      (memInit Region.sample fun _ => 0) = .ok (ps, []) s ∧
    (segregateMmMalloc 16).run s = .ok 112 s₁ ∧
    ∃ s₂, (segregateMmFree 112).run s₁ = .ok () s₂ ∧
      s₂.memBrk = s₁.memBrk ∧ (s₁.memBrk = s.memBrk →
        (∃ xs, HeapList s xs ∧ HeapList s₂ xs) ∧ SameLists s s₂) := by
  obtain ⟨s₁, hs₁⟩ := of_result? (show result? ((do
      let x ← run .segregate [.malloc 40, .free 0]
      let p ← segregateMmMalloc 16
      return (x, p) : M _).run (memInit Region.sample fun _ => 0))
      = some (([112, 0], []), 112) by decide +kernel)
  obtain ⟨x, s, hs, hrest⟩ := bind_returns hs₁
  obtain ⟨p, s', hmalloc, hret⟩ := bind_returns hrest
  cases hret
  have hgrow : Throughout .segregate Grows
      (memInit Region.sample fun _ => 0) [.malloc 40, .free 0] :=
    fun _ _ _ => ⟨trivial, fun _ _ _ _ => ⟨trivial, fun _ _ _ _ => trivial⟩⟩
  exact ⟨_, s, s₁, hs, hmalloc, segregate_restores (by simp [Sized, maxSize])
    hgrow hs (by decide) (by decide) hmalloc (by decide)⟩

/-- After every run that has freed all it allocated, the heap is
vacant. -/
theorem segregate_drained (hsize : ∀ r ∈ reqs, Sized 9 maxSize r)
    (hgrow : Throughout .segregate Grows (memInit R m) reqs)
    (hrun : (run .segregate reqs).run (memInit R m) = .ok (ps, []) s) :
    ∃ xs, HeapList s xs ∧ Vacant (R.base + 104) s xs := by
  obtain ⟨S, hS⟩ := run_stands hsize hgrow hrun
  exact hS.drained

/-- Two blocks, the first freed before the second. -/
theorem segregate_drained_sample : ∃ ps s,
    (run .segregate [.malloc 16, .malloc 40, .free 0, .free 0]).run
      (memInit Region.sample fun _ => 0) = .ok (ps, []) s ∧
    ∃ xs, HeapList s xs ∧ Vacant 112 s xs := by
  obtain ⟨s, hs⟩ := of_result? (show result? ((run .segregate
    [.malloc 16, .malloc 40, .free 0, .free 0]).run
      (memInit Region.sample fun _ => 0))
    = some ([112, 136, 0, 0], []) by decide +kernel)
  have hgrow : Throughout .segregate Grows
      (memInit Region.sample fun _ => 0)
      [.malloc 16, .malloc 40, .free 0, .free 0] :=
    fun _ _ _ => ⟨trivial, fun _ _ _ _ => ⟨trivial, fun _ _ _ _ =>
      ⟨trivial, fun _ _ _ _ => ⟨trivial, fun _ _ _ _ => trivial⟩⟩⟩⟩
  exact ⟨_, s, hs, segregate_drained (by simp [Sized, maxSize]) hgrow hs⟩

end MallocLab.Proofs.Segregate
