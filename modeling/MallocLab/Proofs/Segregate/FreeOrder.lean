/-
The order of frees does not matter. Freeing takes blocks out of use and
keeps the heap coalesced and as large as it was, and a coalesced heap has
no more to it than its extent and its blocks in use (`coalesced_unique`):
whichever neighbours were merged on the way, and however often a merged
block changed its class, the blocks at the end are the same
(`Freed.blocks_eq`). Which blocks a list holds follows from the blocks.

The order of the nodes on a list does depend on the order of the frees,
and so does slot zero, whose blocks are never taken off.
-/
import MallocLab.Proofs.Segregate.Runs

namespace MallocLab.Proofs.Segregate

open Mem Blocks Model Model.Segregate Spec.Segregated

variable {R : Region} {live : List Alloc} {s : Machine} {S : State}
  {A B C : Heap}

-- ============================================================ on the heap

/-- The heap `B` is `A` with the blocks at the offsets `os` given back. -/
structure Freed (A B : Heap) (os : List Nat) : Prop where
  ok : B.Ok
  total : total B.blocks = total A.blocks
  useds : ∀ x, x ∈ marked true 0 B.blocks ↔
    x ∈ marked true 0 A.blocks ∧ x.1 ∉ os

theorem Freed.refl (h : A.Ok) : Freed A A [] :=
  ⟨h, rfl, fun _ => ⟨fun hx => ⟨hx, List.not_mem_nil⟩, fun hx => hx.1⟩⟩

/-- Freeing one block, then more. -/
theorem Freed.cons (h : A.Ok) {z : Zip} (hz : z.blocks = A.blocks)
    (hu : z.mid.used = true) {os : List Nat}
    (hB : Freed (release z A.bins) B os) : Freed A B (z.off :: os) where
  ok := hB.ok
  total := by
    rw [hB.total, ← hz]
    exact z.merge_total
  useds := fun x => by
    obtain ⟨-, -, huse⟩ := free_spec h hz hu
    rw [hB.useds, huse, List.mem_cons, not_or]
    constructor
    · rintro ⟨⟨hx, hne⟩, hout⟩
      refine ⟨hx, fun ho => hne ?_, hout⟩
      -- only one block in use is at the offset
      have hmid := z.mid_placed
      rw [hz] at hmid
      obtain ⟨o, b⟩ := x
      have ho' : o = z.off := ho
      subst ho'
      rw [placed_unique hx.1 hmid]
      rfl
    · rintro ⟨hx, hne, hout⟩
      exact ⟨⟨hx, fun he => hne (congrArg Prod.fst he)⟩, hout⟩

/-- However the same blocks were freed, the blocks are the same. -/
theorem Freed.blocks_eq {os ps : List Nat} (hB : Freed A B os)
    (hC : Freed A C ps) (hsame : ∀ o, o ∈ os ↔ o ∈ ps) :
    B.blocks = C.blocks := by
  apply coalesced_unique hB.ok.coalesced hC.ok.coalesced
    (hB.total.trans hC.total.symm)
  ext x
  rw [hB.useds, hC.useds, hsame]

/-- Equal blocks are filed under equal classes. -/
theorem bins_perm (hB : B.Ok) (hC : C.Ok) (he : B.blocks = C.blocks)
    (k : Nat) : (B.bins k).Perm (C.bins k) := by
  apply (List.perm_ext_iff_of_nodup (hB.files.nodup k)
    (hC.files.nodup k)).2
  intro o
  rw [hB.files.mem, hC.files.mem, he]

-- ========================================================= on the machine

/-- `segregate_mm_free` of each of the pointers, in order. -/
def freeEach : List Nat → M Unit
  | [] => pure ()
  | p :: ps => do
      segregateMmFree p
      freeEach ps

/-- Blocks in use can be freed in any order, each once. -/
theorem freeEach_ok {os : List Nat} (h : Rep R s A)
    (huse : ∀ o ∈ os, ∃ b, (o, b) ∈ marked true 0 A.blocks)
    (hnd : os.Nodup) :
    ∃ m B, (freeEach (os.map (addr R))).run s = .ok () { s with mem := m } ∧
      Rep R { s with mem := m } B ∧ Freed A B os := by
  induction os generalizing s A with
  | nil => exact ⟨s.mem, A, rfl, h, Freed.refl h.ok⟩
  | cons o os ih =>
      obtain ⟨b, hb⟩ := huse o List.mem_cons_self
      obtain ⟨z, hzb, rfl, rfl⟩ := Zip.of_placed hb.1
      obtain ⟨m₁, hrun₁, hrep₁, -⟩ := segregateMmFree_ok h hzb hb.2
      obtain ⟨-, -, hrest⟩ := free_spec h.ok hzb hb.2
      obtain ⟨hout, hnd'⟩ := List.nodup_cons.1 hnd
      -- the others are still in use
      have huse' : ∀ q ∈ os, ∃ c,
          (q, c) ∈ marked true 0 (release z A.bins).blocks := by
        intro q hq
        obtain ⟨c, hc⟩ := huse q (List.mem_cons_of_mem _ hq)
        refine ⟨c, ?_⟩
        rw [hrest]
        refine ⟨hc, fun he => hout ?_⟩
        rwa [← show q = z.off from congrArg Prod.fst he]
      obtain ⟨m, B, hrun, hrep, hB⟩ := ih hrep₁ huse' hnd'
      refine ⟨m, B, ?_, hrep, Freed.cons h.ok hzb hb.2 hB⟩
      exact (bind_ok hrun₁).trans hrun

/-- Pointers to live allocations are offsets of blocks in use. -/
theorem Sim.offsets (h : Sim R live s S) {xs : List Nat}
    (hlive : ∀ p ∈ xs, p ∈ live.map Alloc.ptr) :
    ∃ os : List Nat, xs = os.map (addr R) ∧
      ∀ o ∈ os, ∃ b, (o, b) ∈ marked true 0 S.heap.blocks := by
  induction xs with
  | nil => exact ⟨[], rfl, fun o ho => absurd ho List.not_mem_nil⟩
  | cons p xs ih =>
      obtain ⟨os, rfl, huse⟩ :=
        ih fun q hq => hlive q (List.mem_cons_of_mem _ hq)
      have hp := hlive p List.mem_cons_self
      rw [h.live, List.map_map] at hp
      obtain ⟨x, hx, rfl⟩ := List.mem_map.1 hp
      obtain ⟨b, hb, -⟩ := h.ok.owned.block x hx
      refine ⟨x.1 :: os, rfl, fun o ho => ?_⟩
      rcases List.mem_cons.1 ho with rfl | ho
      · exact ⟨b, hb⟩
      · exact huse o ho

-- ================================================================ the runs

/-- After every run, live allocations are freed in any two orders with
the same end: the same break, the same blocks, and on the list of every
class above zero the same nodes. -/
theorem segregate_anyOrder (R : Region) (m : Bytes) {reqs : List Req}
    (hsize : ∀ r ∈ reqs, Sized 9 maxSize r)
    (hgrow : Throughout .segregate Grows (memInit R m) reqs)
    {ps : List Nat} (hrun : (run .segregate reqs).run (memInit R m)
      = .ok (ps, live) s) {xs ys : List Nat} (hperm : xs.Perm ys)
    (hnd : xs.Nodup) (hlive : ∀ p ∈ xs, p ∈ live.map Alloc.ptr) :
    ∃ s₁ s₂, (freeEach xs).run s = .ok () s₁ ∧
      (freeEach ys).run s = .ok () s₂ ∧ s₁.memBrk = s₂.memBrk ∧
      (∃ bs, HeapList s₁ bs ∧ HeapList s₂ bs) ∧
      ∀ k, 1 ≤ k → k ≤ 10 → ∃ ns ks,
        FreeList s₁ (s₁.freelistTable + 8 * k) ns ∧
        FreeList s₂ (s₂.freelistTable + 8 * k) ks ∧
        ∀ p, p ∈ ns ↔ p ∈ ks := by
  obtain ⟨ps', live', s', S, hrun', hS⟩ := run_sim R m hsize hgrow
  injection hrun.symm.trans hrun' with hp hs
  injection hp with _ hl
  subst hl hs
  obtain ⟨os, rfl, huse⟩ := hS.offsets hlive
  obtain ⟨qs, hqs, huse'⟩ := hS.offsets fun p hp => hlive p (hperm.mem_iff.2 hp)
  subst hqs
  have hinj : Function.Injective (addr R) := fun o q he => by
    unfold addr at he
    omega
  have hsame : ∀ o, o ∈ os ↔ o ∈ qs := by
    intro o
    rw [← List.mem_map_of_injective hinj, hperm.mem_iff,
      List.mem_map_of_injective hinj]
  obtain ⟨m₁, B, hrun₁, hB, hfB⟩ := freeEach_ok hS.rep huse (hnd.of_map _)
  obtain ⟨m₂, C, hrun₂, hC, hfC⟩ :=
    freeEach_ok hS.rep huse' ((hperm.nodup_iff.1 hnd).of_map _)
  have hblocks := hfB.blocks_eq hfC hsame
  refine ⟨_, _, hrun₁, hrun₂, rfl, ⟨_, hB.heapList, ?_⟩,
    fun k hk hk' => ⟨_, _, hB.shape.freeList hk hk',
      hC.shape.freeList hk hk', ?_⟩⟩
  · rw [hblocks]
    exact hC.heapList
  · intro p
    exact ((bins_perm hfB.ok hfC.ok hblocks k).map (addr R)).mem_iff

/-- Three blocks in a row, freed from the first to the last, and the one
in the middle last. -/
theorem segregate_anyOrder_sample : ∃ ps live s,
    (run .segregate [.malloc 16, .malloc 16, .malloc 16]).run
      (memInit Region.sample fun _ => 0) = .ok (ps, live) s ∧
    ∃ s₁ s₂, (freeEach [112, 136, 160]).run s = .ok () s₁ ∧
      (freeEach [160, 112, 136]).run s = .ok () s₂ ∧ s₁.memBrk = s₂.memBrk ∧
      (∃ bs, HeapList s₁ bs ∧ HeapList s₂ bs) ∧
      ∀ k, 1 ≤ k → k ≤ 10 → ∃ ns ks,
        FreeList s₁ (s₁.freelistTable + 8 * k) ns ∧
        FreeList s₂ (s₂.freelistTable + 8 * k) ks ∧
        ∀ p, p ∈ ns ↔ p ∈ ks := by
  obtain ⟨s, hs⟩ := of_result? (show result? ((run .segregate
    [.malloc 16, .malloc 16, .malloc 16]).run
      (memInit Region.sample fun _ => 0))
    = some ([112, 136, 160], [⟨112, 16⟩, ⟨136, 16⟩, ⟨160, 16⟩])
    by decide +kernel)
  have hgrow : Throughout .segregate Grows
      (memInit Region.sample fun _ => 0)
      [.malloc 16, .malloc 16, .malloc 16] :=
    fun _ _ _ => ⟨trivial, fun _ _ _ _ => ⟨trivial, fun _ _ _ _ =>
      ⟨trivial, fun _ _ _ _ => trivial⟩⟩⟩
  exact ⟨_, _, s, hs, segregate_anyOrder _ _ (by simp [Sized, maxSize])
    hgrow hs (by decide) (by decide) (by decide)⟩

end MallocLab.Proofs.Segregate
