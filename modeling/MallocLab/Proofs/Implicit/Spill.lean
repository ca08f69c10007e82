/-
A move of the implicit allocator into a block that is too small for it.
The size of a new block is what a header word keeps of the size asked
for, and that may be less than the block to be moved has. The payload is
copied all the same: over the new block's footer, and past the break, if
there is storage left.

The blocks below the new one are still in order. Cut off where it starts,
the heap is tiled (`Tiled.below`), and the old block is freed as ever. So
what the new block's header says in the end is what it was made for
(`reallocNew_spill`).
-/
import MallocLab.Proofs.Raised
import MallocLab.Proofs.Implicit.Resize

namespace MallocLab.Proofs.Implicit

open Mem Blocks Model Model.Implicit Spec.Implicit

variable {R : Region} {s t : Machine} {A : Heap} {z : Zip}
  {n hp e size : Nat} {bs l r : List Blk} {c : Blk} {fit : Fit}

/-- A copy whose target may lie outside the heap stops, or is made. -/
theorem memcpy_past {d a : Nat} (ha : Access s a n) :
    (memcpy d a n).run s = .error .fault s ∨
    ∃ st, (memcpy d a n).run s = .ok () { s with
      mem := copy s.mem d a n
      strays := st } := by
  unfold memcpy
  rw [bind_ok (touch_ok ha)]
  by_cases hm : Mapped s d n
  · refine Or.inr ?_
    have htouch : (touch d n).run s = .ok () (if Within s d n then s
        else { s with strays := (d, n) :: s.strays }) := if_pos hm
    rw [bind_ok htouch]
    split
    · exact ⟨s.strays, rfl⟩
    · exact ⟨(d, n) :: s.strays, rfl⟩
  · exact Or.inl (bind_error (touch_fault hm))

/-- A block is freed as ever on a machine that is in order only up to a
block in use further on. -/
theorem free_below (h : Tiled hp e s (l ++ c :: r)) (hc : c.used = true)
    {o : Nat} {b : Blk} (hb : (o, b) ∈ placed 0 l)
    (hstart : t.memStartBrk = s.memStartBrk)
    (hmax : t.memMaxAddr = s.memMaxAddr) (hbrk : t.memBrk = s.memBrk)
    (hm : ∀ x < hp + 8 + total l, t.mem x = s.mem x) (fit : Fit) :
    ∃ p m, (implicitMmFree fit (hp + 8 + o)).run t
      = .ok () (roved fit p { t with mem := m }) := by
  have hend := h.brk
  rw [total_append, total_cons] at hend
  have hlow := h.below (t := { t with memBrk := hp + 8 + total l }) hstart
    hmax rfl hm
  obtain ⟨w, rfl, rfl, -⟩ := Zip.of_placed hb
  have hbit : c.tag % 2 = 1 := by
    rw [c.tag_mod, hc]
    rfl
  obtain ⟨m, hfree, -⟩ := implicitMmFree_ok hlow (fun _ => Or.inr hbit) fit
  have hraised := ((implicitMmFree_raisable fit _).raised _ _ _ hfree
    (roved_strays fit _ _)).2 t.memBrk (by
      show hp + 8 + total w.blocks ≤ t.memBrk
      omega)
  rw [roved_withBrk] at hraised
  exact ⟨_, m, hraised⟩

/-- The tags of a block, and then its room. -/
theorem stamped_room {p q : Nat} (b : Blk) (hp : 4 ≤ p)
    (hlo : s.memStartBrk ≤ p - 4) (hhi : p + b.size - 4 ≤ s.memBrk)
    (hmax : s.memBrk ≤ s.memMaxAddr) (hb : b.size < 2 ^ 32 - 1) (fit : Fit) :
    ∃ t, (do
        setBlk p b.size b.used.toNat
        reallocDone fit p : M Nat).run (roved fit q s) = .ok p t ∧
      (blkAvalSize p).run t = .ok b.room t := by
  have hpos := b.pos
  have hset := setBlk_ok (s := roved fit q s) b hp (by
    rwa [roved_memStartBrk]) (by rwa [roved_memBrk]) (by
    rwa [roved_memBrk, roved_memMaxAddr]) hb
  rw [roved_mem, roved_withMem] at hset
  refine ⟨_, (bind_ok hset).trans (reallocDone_ok fit p q _),
    blkAvalSize_hdr ⟨?_, ?_, ?_⟩ ?_ (by omega)⟩
  · rwa [roved_memStartBrk]
  · rw [roved_memBrk]
    show p - 4 + 4 ≤ s.memBrk
    omega
  · rwa [roved_memBrk, roved_memMaxAddr]
  · rw [roved_mem]
    exact (tagged_cons.1 (stamp_tagged hp hb)).1.1

/-- The move after the new block is there, where that is smaller than the
old one: however it ends, the new block's header is as it was. -/
private theorem spill_run (h : Tiled hp e s z.blocks)
    (hnew : z.blocks = l ++ [Blk.of n true])
    (hclear : z.off + z.mid.size ≤ total l) (hn : n % 8 = 0) (hn' : 8 ≤ n)
    (hless : n < 2 ^ 31) (fit : Fit) :
    ∃ res, (do
        memcpy (hp + 8 + total l) (hp + 8 + z.off)
          (← rbAvlSize (hp + 8 + z.off))
        implicitMmFree fit (hp + 8 + z.off)
        setBlk (hp + 8 + total l) n blkAlloc
        reallocDone fit (hp + 8 + total l) : M Nat).run s = res ∧
      (blkAvalSize (hp + 8 + total l)).run (final res)
        = .ok (Blk.of n true).room (final res) := by
  have hb := Blk.of_size true hn hn'
  have hstart := h.start
  have hend := h.brk_eq
  have hpos := z.mid.pos
  have hr := z.mid.room_add
  have hall := h
  rw [hnew] at hall
  have hbrk := hall.brk
  rw [total_append, total_cons, total_nil, hb] at hbrk
  have havl := blkAvalSize_ok h
  rcases memcpy_past (n := z.mid.room) (d := hp + 8 + total l)
    (h.access (a := hp + 8 + z.off) (by omega) (by omega)) with
    hstop | ⟨st, hcopy⟩
  · -- past the storage
    refine ⟨.error .fault s, ?_,
      blkAvalSize_ok (z := ⟨l, Blk.of n true, []⟩) hall⟩
    refine (bind_ok havl).trans ?_
    exact bind_error hstop
  have hpl : (z.off, z.mid) ∈ placed 0 l := by
    have hmem := z.mid_placed
    rw [hnew, placed_append] at hmem
    refine (List.mem_append.1 hmem).resolve_right fun hlast => ?_
    have := (placed_bounds hlast).1
    omega
  obtain ⟨p, m, hfree⟩ := free_below hall rfl hpl (t := { s with
    mem := copy s.mem (hp + 8 + total l) (hp + 8 + z.off) z.mid.room
    strays := st }) rfl rfl rfl (fun x hx => copy_of_out (Or.inl hx)) fit
  obtain ⟨t, hset, hroom⟩ := stamped_room (q := p) (s := { s with
    mem := m
    strays := st }) (p := hp + 8 + total l) (Blk.of n true) (by omega)
    (show s.memStartBrk ≤ _ by omega) (show _ ≤ s.memBrk by omega) h.max
    (by omega) fit
  rw [hb] at hset
  refine ⟨.ok (hp + 8 + total l) t, ?_, hroom⟩
  refine (bind_ok havl).trans ?_
  refine (bind_ok hcopy).trans ?_
  exact (bind_ok hfree).trans hset

/-- A block that is not the last and needs a new place gets a block of
the size a header word keeps of the one asked for. -/
theorem reallocNew_spill (h : Rep R s A) (hz : z.blocks = A.blocks)
    (hcl : Closed s) (hu : z.mid.used = true) (hne : z.right ≠ []) {q : Nat}
    (hg : grow A.blocks (u32 (need size)) = some (q, bs)) (fit : Fit) :
    ∃ res, (reallocNew fit (addr R z.off) size (need size)
        z.mid.size).run s = res ∧
      (blkAvalSize (addr R q)).run (final res)
        = .ok (Blk.of (u32 (need size)) true).room (final res) := by
  obtain ⟨e, ht⟩ := h.tiled
  have he : e / 8 = 0 := ht.last ▸ hcl
  have hn := u32_need_mod size
  have hmax := maxHeap_lt
  obtain ⟨⟨-, hfit⟩, hq, hbs⟩ := grow_some hg
  have hn' := grow_least hn hg
  have hlt : s.memMaxAddr < 2 ^ 64 := by
    rw [h.max]
    exact R.fits
  obtain ⟨k, m, hrun, ⟨e', ht'⟩, -, -⟩ :=
    doMalloc_ok ht he hlt (by rw [h.max]; omega) (align size)
      (by rw [need_align]; exact hg) fit
  obtain ⟨w, hwb, hwo, hwm, -, habove⟩ := grow_cursor (hz ▸ hg) hu
  rw [← hwb] at ht'
  obtain ⟨res, hres, hroom⟩ := spill_run (Tiled.roved ht' fit (addr R q))
    (hwb.trans hbs) (by rw [hwo, hwm, ← hq]; exact habove) hn hn' (by omega)
    fit
  refine ⟨res, ?_, ?_⟩
  · rw [← hres, reallocNew_open (by rw [hz]; exact ht) hne fit size]
    refine (bind_ok hrun).trans ?_
    rw [show R.base + 8 + 8 + q = addr R q from rfl, if_neg (addr_pos R q),
      ← hq, hwo]
    rfl
  · rw [← hq] at hroom
    exact hroom

end MallocLab.Proofs.Implicit
