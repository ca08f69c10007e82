/-
How well does a found block fit? The search takes the first block that
fits of the first class that has one, so no block that fits is of a
smaller class (`search_least`). Up to eight kilobytes a class reaches
from more than half its largest size on: there the block found is less
than twice the size of the best one.
-/
import MallocLab.Proofs.Segregate.Canonical
import MallocLab.Proofs.Segregate.Complete

namespace MallocLab.Proofs.Segregate

open Mem Blocks Model Model.Segregate Spec.Segregated

variable {R : Region} {live : List Alloc} {s s' : Machine} {A : Heap}
  {z : Zip} {m : Bytes} {reqs : List Req} {ps : List Nat} {size p o : Nat}
  {b : Blk}

-- ========================================================= the abstract heap

/-- A block that was found is of a class of its own or below the class of
each free block that fits. -/
theorem search_least (h : A.Ok) (hsize : 9 ≤ size)
    (hsize' : size ≤ 2 ^ 31 - 16) (htotal : total A.blocks < 2 ^ 31)
    (hz : search A (need size) (slots size) = some z)
    (hb : (o, b) ∈ marked false 0 A.blocks) (hfit : need size ≤ b.size) :
    cls z.mid ≤ cls b := by
  have hbd := placed_bounds hb.1
  have hk := cls_slots hsize hsize' hfit (by omega)
  -- the classes before the one it was found in, that one, and those after
  obtain ⟨l, r, os, os', hslots, hbefore, -⟩ := search_first h hz
  have hup : (l ++ cls z.mid :: r).Pairwise (· < ·) := by
    rw [← hslots]
    exact List.pairwise_lt_range'
  rw [hslots] at hk
  rcases List.mem_append.1 hk with hl | hr
  · -- there the search would have come past it
    obtain ⟨w, hwb, rfl, rfl⟩ := Zip.of_placed hb.1
    have hshort := hbefore _ hl w hwb ((h.files.mem _ _).2 ⟨w.mid, hb, rfl⟩)
    omega
  · rcases List.mem_cons.1 hr with he | hr
    · exact Nat.le_of_eq he.symm
    · exact Nat.le_of_lt ((List.pairwise_cons.1
        (List.pairwise_append.1 hup).2.1).1 _ hr)

/-- Up to eight kilobytes, the larger of two sizes is less than twice the
smaller, if it is in no higher class. -/
theorem class_double {a c : Nat} (ha : 9 ≤ a) (ha' : a ≤ 2 ^ 13)
    (hc : 9 ≤ c) (hc' : c < 2 ^ 31) (h : fltIndexOf a ≤ fltIndexOf c) :
    a < 2 * c := by
  by_cases hlast : fltIndexOf a < 10
  · have hne : fltIndexOf a ≠ 0 := by
      rw [Ne, fltIndexOf_eq_zero (by omega) (by omega)]
      omega
    obtain ⟨k, hk⟩ : ∃ k, fltIndexOf a = k + 1 :=
      ⟨fltIndexOf a - 1, by omega⟩
    have hhi := (fltIndexOf_le_iff (k := k + 1) (by omega) (by omega)
      (by omega)).1 (Nat.le_of_eq hk)
    have hlo := mt (fltIndexOf_le_iff (k := k) (show 0 < c by omega) hc'
      (by omega)).2 (by omega)
    rw [show k + 1 + 3 = (k + 3) + 1 by omega, Nat.pow_succ] at hhi
    omega
  · have hten := fltIndexOf_le c
    have := (fltIndexOf_eq_ten (show 0 < c by omega) hc').1 (by omega)
    omega

-- ================================================================ the runs

/-- In every reachable state: a free block an allocation is put in is of
no higher class than any free block that fits; and up to eight kilobytes
it has less than twice the capacity of each. -/
theorem segregate_goodFit (hsize : ∀ r ∈ reqs, Sized 9 maxSize r)
    (hgrow : Throughout .segregate Grows (memInit R m) reqs)
    (hrun : (run .segregate reqs).run (memInit R m) = .ok (ps, live) s)
    (hsz : 9 ≤ size) (hsz' : size ≤ maxSize)
    (hmalloc : (segregateMmMalloc size).run s = .ok p s')
    {xs : List Seen} (hxs : HeapList s xs) {x y : Seen} (hx : x ∈ xs)
    (haddr : x.addr = p) (hxfree : x.state = blkFree)
    (hy : y ∈ xs) (hyfree : y.state = blkFree) (hfit : need size ≤ y.size) :
    need size ≤ x.size ∧
      fltIndexOf (x.size - 8) ≤ fltIndexOf (y.size - 8) ∧
      (x.size - 8 ≤ 2 ^ 13 → x.size - 8 < 2 * (y.size - 8)) := by
  obtain ⟨S, hS⟩ := run_stands hsize hgrow hrun
  unfold maxSize at hsz'
  have htotal : total S.heap.blocks < 2 ^ 31 :=
    hS.rep.shape.tiled.total_lt.trans maxHeap_lt
  have hxs' := hxs.blocks.unique hS.heapList.blocks
  subst hxs'
  obtain ⟨q, b, hb, rfl⟩ := mem_seen_addr.1 hy
  have hbfree : (q, b) ∈ marked false 0 S.heap.blocks :=
    ⟨hb, seen_free.1 hyfree⟩
  have hserved := segregateMmMalloc_large hS.rep hsz hsz'
  rw [hmalloc] at hserved
  cases hs : search S.heap (need size) (slots size) with
  | none =>
      have hshort := search_complete hS.ok.heap hsz hsz' htotal hs hbfree
      exact absurd hfit (Nat.not_le.2 hshort)
  | some z =>
      have hans : S.heap.malloc none size
          = some (z.off, take z (need size) S.heap.bins) := by
        unfold Heap.malloc
        rw [Option.none_or, hs]
      rw [hans] at hserved
      obtain ⟨s'', hok, -⟩ := hserved
      injection hok with hp
      obtain ⟨hzb, hzfree, hzfit⟩ := search_fit hS.ok.heap hs
      -- what is seen there is the block found
      obtain ⟨o, c, hc, rfl⟩ := mem_seen_addr.1 hx
      have ho : o = z.off := by
        have haddr' : addr R o = addr R z.off := haddr.trans hp
        unfold addr at haddr'
        omega
      have hmid := z.mid_placed
      rw [hzb] at hmid
      rw [ho] at hc ⊢
      rw [placed_unique hc hmid]
      have hleast := search_least hS.ok.heap hsz hsz' htotal hs hbfree hfit
      obtain ⟨-, -, -, hle, -⟩ := need_size (show 1 ≤ size by omega) (by omega)
      have hbd := placed_bounds hb
      have hr := z.mid.room_add
      have hr' := b.room_add
      have hbig : size + 8 ≤ need size := by
        unfold need
        omega
      show need size ≤ z.mid.size ∧ fltIndexOf (z.mid.size - 8)
          ≤ fltIndexOf (b.size - 8) ∧
        (z.mid.size - 8 ≤ 2 ^ 13 → z.mid.size - 8 < 2 * (b.size - 8))
      have hfit' : need size ≤ b.size := hfit
      rw [show z.mid.size - 8 = z.mid.room by omega,
        show b.size - 8 = b.room by omega]
      exact ⟨hzfit, hleast, fun hroom =>
        class_double (by omega) hroom (by omega) (by omega) hleast⟩

/-- Three free blocks between blocks in use, of 208, 112 and 48 bytes. -/
def goodFitReqs : List Req :=
  [.malloc 200, .malloc 16, .malloc 100, .malloc 16, .malloc 40,
    .malloc 16, .free 0, .free 1, .free 2]

/-- Sixty bytes are put in the second, which is the better fit. -/
theorem segregate_goodFit_sample : ∃ ps live s s' xs,
    (run .segregate goodFitReqs).run (memInit Region.sample fun _ => 0)
      = .ok (ps, live) s ∧
    (segregateMmMalloc 60).run s = .ok 344 s' ∧ HeapList s xs ∧
    ∃ x ∈ xs, ∃ y ∈ xs, x = ⟨344, 112, 0, 112, 112⟩ ∧
      y = ⟨112, 208, 0, 208, 208⟩ ∧ need 60 ≤ x.size ∧
      fltIndexOf (x.size - 8) ≤ fltIndexOf (y.size - 8) ∧
      (x.size - 8 ≤ 2 ^ 13 → x.size - 8 < 2 * (y.size - 8)) := by
  obtain ⟨s', hs'⟩ := of_result? (show result? ((do
      let x ← run .segregate goodFitReqs
      let t ← get
      let p ← segregateMmMalloc 60
      return (x, checkBlocks t fun xs => ⟨344, 112, 0, 112, 112⟩ ∈ xs ∧
        ⟨112, 208, 0, 208, 208⟩ ∈ xs, p) : M _).run
        (memInit Region.sample fun _ => 0))
      = some (([112, 320, 344, 456, 480, 528, 0, 0, 0],
          [⟨320, 16⟩, ⟨456, 16⟩, ⟨528, 16⟩]), true, 344) by decide +kernel)
  obtain ⟨x, s, hs, hrest⟩ := bind_returns hs'
  obtain ⟨t, s₂, hget, hrest⟩ := bind_returns hrest
  cases hget
  obtain ⟨p, s₂, hmalloc, hret⟩ := bind_returns hrest
  injection hret with hval hst
  injection hval with hx hval
  injection hval with hblocks hp
  subst hx hp hst
  have hgrow : Throughout .segregate Grows
      (memInit Region.sample fun _ => 0) goodFitReqs :=
    throughout_of_check grows_of_check (by decide +kernel)
  have hsize : ∀ r ∈ goodFitReqs, Sized 9 maxSize r := by
    simp [goodFitReqs, Sized, maxSize]
  obtain ⟨S, hS⟩ := run_stands hsize hgrow hs
  obtain ⟨hxin, hyin⟩ := of_checkBlocks hblocks hS.heapList.blocks
  exact ⟨_, _, s, _, _, hs, hmalloc, hS.heapList, _, hxin, _, hyin, rfl, rfl,
    segregate_goodFit hsize hgrow hs (by decide) (by decide) hmalloc
      hS.heapList hxin rfl rfl hyin rfl (by decide)⟩

end MallocLab.Proofs.Segregate
