/-
The copies of `implicit_mm_realloc`, and whether `memcpy` may make them:
the C library asks for ranges that do not overlap, and the block copied
to must have the bytes.

A resize copies when it slides into the previous block and when it moves
to a new one, once each (`copies_slide`, `copies_move`). The new block
lies behind every block there was. The slide goes down by the size of the
previous block, whatever that is: if that is less than the payload, the
ranges overlap. The new block has the size that its header word keeps of
the one asked for: if that is less than the old block has, the payload
does not fit. There is no other way to go wrong (`implicit_copies`).
-/
import MallocLab.Model.Copies
import MallocLab.Proofs.Implicit.Spill
import MallocLab.Proofs.Implicit.Tail

namespace MallocLab.Proofs.Implicit

open Mem Blocks Tracing Model Model.Implicit Spec.Implicit

-- ============================================================ the condition

/-- The block at `p` is to have `n` bytes, and slides for them into the
previous block, which is smaller than its payload: it has fewer, also
with the free block behind it; it is not the last; and with the block
before it, which is free, it has as many. -/
def SlidesShort (xs : List Seen) (p n : Nat) : Prop :=
  ∃ x ∈ xs, x.addr = p ∧ x.size < n ∧
    (∀ y ∈ xs, y.addr = p + x.size → y.state = blkFree →
      x.size + y.size < n) ∧
    (∃ y ∈ xs, y.addr = p + x.size) ∧
    ∃ w ∈ xs, w.addr + w.size = p ∧ w.state = blkFree ∧
      n ≤ w.size + x.size ∧ w.size + 8 < x.size

/-- The size of the last block, if that is free. -/
def freeTail (xs : List Seen) : Nat :=
  match xs.getLast? with
  | none => 0
  | some y => if y.state = blkFree then y.size else 0

/-- The block at `p` is to have `n` bytes, and moves to a new one that has
fewer than it has itself. No neighbour serves; it is not the last; what a
header word keeps of `n` is less than its size, and more than the last
block has, if that is free; and the heap can be extended by what is
missing there. -/
def CutShort (s : Machine) (xs : List Seen) (p n : Nat) : Prop :=
  ∃ x ∈ xs, x.addr = p ∧ x.size < n ∧
    (∀ y ∈ xs, y.addr = p + x.size → y.state = blkFree →
      x.size + y.size < n) ∧
    (∃ y ∈ xs, y.addr = p + x.size) ∧
    (∀ w ∈ xs, w.addr + w.size = p → w.state = blkFree →
      w.size + x.size < n) ∧
    u32 n < x.size ∧ freeTail xs < u32 n ∧
    s.memBrk + (u32 n - freeTail xs) ≤ s.memMaxAddr

/-- A slide at a cursor. -/
structure Slides (z : Zip) (n : Nat) : Prop where
  mid : z.mid.size < n
  next : z.absorbNext.mid.size < n
  inner : z.right ≠ []
  prev : n ≤ z.absorbPrev.mid.size

/-- The slide goes down by less than the payload. -/
structure Overlaps (z : Zip) (n : Nat) : Prop extends Slides z n where
  short : z.absorbPrev.mid.size + 8 < 2 * z.mid.size

/-- A move at a cursor. -/
structure Moves (z : Zip) (n : Nat) : Prop where
  word : n < 2 ^ 64
  mid : z.mid.size < n
  next : z.absorbNext.mid.size < n
  inner : z.right ≠ []
  prev : z.absorbPrev.mid.size < n

/-- The move goes to a block that is too small. -/
structure Cuts (z : Zip) (n : Nat) : Prop extends Moves z n where
  short : u32 n < z.mid.size
  grows : grow z.blocks (u32 n) ≠ none

variable {fit : Fit} {R : Region} {live : List Alloc} {s : Machine}
  {S : State} {A : Heap} {z : Zip} {n p hp e size : Nat} {bs : List Blk}

-- =============================================================== the copies

/-- The checks copy nothing, nor does a block that shrinks. -/
theorem copies_checks (h : Tiled hp e s z.blocks) (hu : z.mid.used = true)
    (hbig : 8 < z.mid.size) (hsize : size ≠ 0)
    (hu64 : u64 (align size + blkHdrSize + blkFtrSize) = n) (fit : Fit) :
    events (Copies.implicitMmRealloc fit (hp + 8 + z.off) size) s
      = if n ≤ z.mid.size then [] else
        events (Copies.reallocGrow fit (hp + 8 + z.off) size n z.mid.size)
          s := by
  have hstart := h.start
  have hread := checked h
  have hok := checks_pass (z := z) hu hbig
  have hhdrp : ¬ rbHdrp (hp + 8 + z.off) = 0 := by
    unfold rbHdrp blkHdrp blkHdrSize
    omega
  unfold Copies.implicitMmRealloc
  rw [if_neg (by omega), if_neg hsize]
  simp only [hu64]
  rw [if_neg hhdrp]
  refine (events_step hread.ftrp _).trans ?_
  rw [if_neg (by omega)]
  refine (events_step hread.size _).trans ?_
  refine (events_step hread.alloc _).trans ?_
  rw [if_neg hok]
  refine (events_step hread.hdr _).trans ?_
  refine (events_step hread.ftr _).trans ?_
  rw [if_neg (by simp)]
  by_cases he : n = z.mid.size
  · rw [if_pos he, if_pos (by omega)]
    rfl
  rw [if_neg he]
  by_cases hlt : n < z.mid.size
  · rw [if_pos hlt, if_pos (show n ≤ z.mid.size by omega)]
    apply events_nil
    apply all_ite
    · intro _
      exact all_step fun _ _ _ => all_step fun _ _ _ =>
        all_step fun _ _ _ => all_silent _ _
    · intro _
      exact all_silent _ _
  · rw [if_neg hlt, if_neg (by omega)]

/-- Taking in the next block copies nothing. -/
theorem copies_next (h : Tiled hp e s z.blocks) (hmore : z.mid.size < n)
    (hfit : n ≤ z.absorbNext.mid.size) (fit : Fit) (size : Nat) :
    events (Copies.reallocGrow fit (hp + 8 + z.off) size n z.mid.size) s
      = [] := by
  rcases z.absorbNext_cases with ⟨-, hw⟩ | ⟨c, r, hr, hfree, hw⟩
  · rw [hw] at hfit
    omega
  rw [hw, Blk.join_size] at hfit
  have hread := nextRead h hr
  unfold Copies.reallocGrow
  refine (events_step hread.alloc _).trans ?_
  rw [if_pos (by rw [hfree]; rfl)]
  refine (events_step hread.size _).trans ?_
  rw [if_pos hfit]
  apply events_nil
  refine all_step fun _ _ _ => ?_
  apply all_ite
  · intro _
    exact all_step fun _ _ _ => all_step fun _ _ _ => all_silent _ _
  · intro _
    exact all_silent _ _

/-- Nor does extending the last block. -/
theorem copies_last (h : Tiled hp e s z.blocks) (he : e / 8 = 0)
    (hbit : e % 2 = 0) (hlast : z.right = []) (hmore : z.mid.size < n)
    (fit : Fit) (size : Nat) :
    events (Copies.reallocGrow fit (hp + 8 + z.off) size n z.mid.size) s
      = [] := by
  have hread := lastRead h he hbit hlast
  unfold Copies.reallocGrow
  refine (events_step hread.alloc _).trans ?_
  rw [if_pos (by rfl)]
  refine (events_step hread.size _).trans ?_
  rw [if_neg (by omega)]
  refine (events_step hread.next _).trans ?_
  refine (events_step hread.eb _).trans ?_
  rw [if_pos rfl]
  exact events_nil (all_step fun _ _ _ => all_step fun _ _ _ =>
    all_silent _ _)

/-- No next block, free and large enough, and not the last block: the
previous one is looked at. -/
theorem copies_on (h : Tiled hp e s z.blocks) (hne : z.right ≠ [])
    (hmore : z.absorbNext.mid.size < n) (fit : Fit) (size : Nat) :
    events (Copies.reallocGrow fit (hp + 8 + z.off) size n z.mid.size) s
      = events (Copies.reallocPrev fit (hp + 8 + z.off) size n z.mid.size)
          s := by
  obtain ⟨c, r, hr⟩ := List.exists_cons_of_ne_nil hne
  have hread := nextRead h hr
  unfold Copies.reallocGrow
  refine (events_step hread.alloc _).trans ?_
  by_cases hc : c.used = true
  · rw [hc, if_neg (by decide)]
  · have hfree : c.used = false := Bool.eq_false_of_not_eq_true hc
    have hless := next_short hr hfree hmore
    rw [hfree, if_pos (by rfl)]
    refine (events_step hread.size _).trans ?_
    rw [if_neg (by omega)]
    refine (events_step hread.next _).trans ?_
    refine (events_step hread.eb _).trans ?_
    rw [if_neg (by decide)]

/-- The slide copies the payload to the previous block. -/
theorem copies_slide (h : Tiled hp e s z.blocks) (hmore : z.mid.size < n)
    (hfit : n ≤ z.absorbPrev.mid.size) (fit : Fit) (size : Nat) :
    events (Copies.reallocPrev fit (hp + 8 + z.off) size n z.mid.size) s
      = [⟨hp + 8 + z.absorbPrev.off, hp + 8 + z.off, z.mid.room⟩] := by
  rcases z.absorbPrev_cases with ⟨-, hw⟩ | ⟨l, c, hl, hfree, hw⟩
  · rw [hw] at hfit
    omega
  rw [hw] at hfit ⊢
  rw [Blk.join_size] at hfit
  have hread := prevRead h hl
  unfold Copies.reallocPrev
  refine (events_step hread.prev _).trans ?_
  refine (events_step hread.size _).trans ?_
  refine (events_step hread.alloc _).trans ?_
  rw [if_pos ⟨by rw [hfree]; rfl, by omega⟩]
  refine (events_step (blkAvalSize_ok h) _).trans ?_
  refine events_only fun _ _ => all_step fun _ _ _ => ?_
  apply all_ite
  · intro _
    exact all_step fun _ _ _ => all_step fun _ _ _ => all_silent _ _
  · intro _
    exact all_silent _ _

/-- No previous block, free and large enough: a new place is needed. -/
theorem copies_off (h : Tiled hp e s z.blocks)
    (hmore : z.absorbPrev.mid.size < n) (fit : Fit) (size : Nat) :
    events (Copies.reallocPrev fit (hp + 8 + z.off) size n z.mid.size) s
      = events (Copies.reallocNew fit (hp + 8 + z.off) size n z.mid.size)
          s := by
  obtain ⟨q, c, hread, hnot⟩ := prevRead_on h hmore
  unfold Copies.reallocPrev
  refine (events_step hread.prev _).trans ?_
  refine (events_step hread.size _).trans ?_
  refine (events_step hread.alloc _).trans ?_
  rw [if_neg hnot]

/-- Where there is no new place nothing is copied. -/
theorem copies_none (h : Tiled hp e s z.blocks) (hne : z.right ≠ [])
    {s' : Machine} (hrun : (doMalloc fit (align size)).run s = .ok 0 s') :
    events (Copies.reallocNew fit (hp + 8 + z.off) size n z.mid.size) s
      = [] := by
  obtain ⟨p, htail, hnp⟩ := not_tail h hne
  unfold Copies.reallocNew
  refine (events_step htail _).trans ?_
  rw [if_neg hnp]
  refine (events_step hrun _).trans ?_
  rw [if_pos rfl]
  rfl

/-- The move copies the payload to the new place. -/
theorem copies_move (h : Tiled hp e s z.blocks) (hne : z.right ≠ [])
    {q : Nat} {s' : Machine} (hq : q ≠ 0)
    (hrun : (doMalloc fit (align size)).run s = .ok q s')
    (havl : (rbAvlSize (hp + 8 + z.off)).run s' = .ok z.mid.room s') :
    events (Copies.reallocNew fit (hp + 8 + z.off) size n z.mid.size) s
      = [⟨q, hp + 8 + z.off, z.mid.room⟩] := by
  obtain ⟨p, htail, hnp⟩ := not_tail h hne
  unfold Copies.reallocNew
  refine (events_step htail _).trans ?_
  rw [if_neg hnp]
  refine (events_step hrun _).trans ?_
  rw [if_neg hq]
  refine (events_step havl _).trans ?_
  exact events_only fun _ _ => all_step fun _ _ _ =>
    all_step fun _ _ _ => all_silent _ _

-- ================================================================ the call

/-- A slide's ranges share bytes if the previous block is smaller than
the payload. -/
theorem slide_apart (hmore : z.mid.size < n)
    (hfit : n ≤ z.absorbPrev.mid.size) :
    Copies.Copy.Apart ⟨hp + 8 + z.absorbPrev.off, hp + 8 + z.off, z.mid.room⟩
      ↔ ¬ z.absorbPrev.mid.size + 8 < 2 * z.mid.size := by
  have hr := z.mid.room_add
  rcases z.absorbPrev_cases with ⟨-, hw⟩ | ⟨l, c, hl, hfree, hw⟩
  · rw [hw] at hfit
    omega
  have hoff : z.off = total l + c.size := by
    unfold Zip.off
    simp [hl]
  rw [hw]
  unfold Copies.Copy.Apart
  simp only [Zip.off, Blk.join_size] at hoff ⊢
  omega

/-- If the heap does not grow, a move copies nothing. -/
theorem copies_lost (h : Rep R s A) (hz : z.blocks = A.blocks)
    (hne : z.right ≠ []) (hg : grow A.blocks (u32 (need size)) = none)
    (fit : Fit) :
    events (Copies.reallocNew fit (addr R z.off) size n z.mid.size) s
      = [] := by
  obtain ⟨e, ht⟩ := h.tiled
  have hz' := ht
  rw [← hz] at hz'
  rcases doMalloc_none ht (by rw [h.max]; omega) (align size)
    (by rw [need_align]; exact hg) fit with ⟨hrun, -⟩ | hrun
  · exact copies_none hz' hne hrun
  · exact copies_none hz' hne hrun

/-- If it does, a move copies to the block it has grown by, above all
others. -/
theorem copies_new (h : Rep R s A) (hz : z.blocks = A.blocks)
    (hcl : Closed s) (hu : z.mid.used = true) (hne : z.right ≠ []) {q : Nat}
    (hg : grow A.blocks (u32 (need size)) = some (q, bs)) (fit : Fit) :
    events (Copies.reallocNew fit (addr R z.off) size n z.mid.size) s
      = [⟨addr R q, addr R z.off, z.mid.room⟩] ∧
      Copies.Copy.Apart ⟨addr R q, addr R z.off, z.mid.room⟩ := by
  obtain ⟨e, ht⟩ := h.tiled
  have he : e / 8 = 0 := ht.last ▸ hcl
  have hz' := ht
  rw [← hz] at hz'
  have hlt : s.memMaxAddr < 2 ^ 64 := by
    rw [h.max]
    exact R.fits
  obtain ⟨k, m, hrun, ⟨e', ht'⟩, -, -⟩ :=
    doMalloc_ok ht he hlt (by rw [h.max]; omega) (align size)
      (by rw [need_align]; exact hg) fit
  -- the old block is where it was, and its size is read after the call
  obtain ⟨w, hwb, hwo, hwm, -, habove⟩ := grow_cursor (hz ▸ hg) hu
  rw [← hwb] at ht'
  have havl := blkAvalSize_ok (Tiled.roved ht' fit (R.base + 8 + 8 + q))
  rw [hwo, hwm] at havl
  refine ⟨copies_move hz' hne (addr_pos R q) hrun havl, Or.inr ?_⟩
  have hr := z.mid.room_add
  simp only [addr]
  omega

/-- Where a resize neither slides nor moves, it copies nothing. -/
theorem copies_stay (ht : Tiled hp e s z.blocks) (he : e / 8 = 0)
    (hbit : e % 2 = 0) (hu : z.mid.used = true) (hbig : 8 < z.mid.size)
    (hsize : size ≠ 0) (hslide : ¬ Slides z (need size))
    (hmove : ¬ Moves z (need size)) (fit : Fit) :
    events (Copies.implicitMmRealloc fit (hp + 8 + z.off) size) s = [] := by
  rw [copies_checks ht hu hbig hsize rfl fit]
  split
  · rfl
  rename_i hin
  have hal := align_mod size
  have hword : need size < 2 ^ 64 := by
    unfold need
    unfold u64 blkHdrSize blkFtrSize at hin
    omega
  have hu64 := u64_need hword
  rw [hu64] at hin ⊢
  by_cases hnext : need size ≤ z.absorbNext.mid.size
  · exact copies_next ht (by omega) hnext fit size
  by_cases hlast : z.right = []
  · exact copies_last ht he hbit hlast (by omega) fit size
  by_cases hprev : need size ≤ z.absorbPrev.mid.size
  · exact absurd ⟨by omega, by omega, hlast, hprev⟩ hslide
  · exact absurd ⟨hword, by omega, by omega, hlast, by omega⟩ hmove

/-- A slide is the one copy of the call. -/
theorem copies_slides (ht : Tiled hp e s z.blocks)
    (hu : z.mid.used = true) (hbig : 8 < z.mid.size) (hsize : size ≠ 0)
    (hword : need size < 2 ^ 64) (hs : Slides z (need size)) (fit : Fit) :
    events (Copies.implicitMmRealloc fit (hp + 8 + z.off) size) s
      = [⟨hp + 8 + z.absorbPrev.off, hp + 8 + z.off, z.mid.room⟩] := by
  rw [copies_checks ht hu hbig hsize (u64_need hword) fit,
    if_neg (Nat.not_le_of_lt hs.mid), copies_on ht hs.inner hs.next,
    copies_slide ht hs.mid hs.prev]

/-- A move is the end of the call. -/
theorem copies_moves (ht : Tiled (R.base + 8) e s z.blocks)
    (hu : z.mid.used = true) (hbig : 8 < z.mid.size) (hsize : size ≠ 0)
    (hm : Moves z (need size)) (fit : Fit) :
    events (Copies.implicitMmRealloc fit (addr R z.off) size) s
        = events (Copies.reallocNew fit (addr R z.off) size (need size)
          z.mid.size) s ∧
      (implicitMmRealloc fit (addr R z.off) size).run s
        = (reallocNew fit (addr R z.off) size (need size) z.mid.size).run
          s := by
  have hmid := hm.mid
  have hu64 := u64_need hm.word
  rw [show addr R z.off = R.base + 8 + 8 + z.off from rfl]
  constructor
  · rw [copies_checks ht hu hbig hsize hu64 fit,
      if_neg (Nat.not_le_of_lt hmid), copies_on ht hm.inner hm.next,
      copies_off ht hm.prev]
  · have hopen := realloc_checks ht hu hbig hsize fit
    rw [hu64, if_neg (by omega), if_neg (by omega)] at hopen
    rw [hopen, reallocGrow_on ht hm.inner hm.next,
      reallocPrev_on ht hm.prev]

/-- The block that is answered with has the bytes of the old one. -/
theorem copy_held (hA : A.Ok fit) (hz : z.blocks = A.blocks)
    (hu : z.mid.used = true) (hmore : z.mid.size < need size) {q : Nat}
    {A' : Heap} (hres : A.resize fit z (need size) = some (some q, A'))
    {s' : Machine} (h' : Rep R s' A') :
    Copies.Copy.Held ⟨addr R q, addr R z.off, z.mid.room⟩ s' := by
  have hpos := z.mid.pos
  have hr := z.mid.room_add
  have hn := need_mod size
  obtain ⟨-, -, huse⟩ := Heap.resize_spec hA hz hu hn (by omega) hres
  have hmem : (q, Blk.of (need size) true) ∈ marked true 0 A'.blocks := by
    rw [huse]
    exact Set.mem_insert _ _
  obtain ⟨w, hwb, hwo, hwm⟩ := Zip.of_placed hmem.1
  obtain ⟨e', ht'⟩ := h'.tiled
  rw [← hwb] at ht'
  have havl := blkAvalSize_ok ht'
  have hwr := w.mid.room_add
  have hsize : w.mid.size = need size := by
    rw [hwm]
    exact Blk.of_size true hn (by omega)
  rw [hwo] at havl
  exact ⟨w.mid.room, havl, by simp only; omega⟩

/-- A previous block that serves is of the heap. -/
theorem Slides.small (hs : Slides z n) (ht : Tiled hp e s z.blocks) :
    n < maxHeap := by
  have hlt := ht.size_lt
  have hfit := hs.prev
  have hmid := hs.mid
  rcases z.absorbPrev_cases with ⟨-, hw⟩ | ⟨l, c, hl, -, hw⟩
  · rw [hw] at hfit
    omega
  · have hoff : z.off = total l + c.size := by
      unfold Zip.off
      simp [hl]
    rw [hw, Blk.join_size] at hfit
    omega

/-- A slide is a copy as it should be, unless it goes down by too little:
the block it comes to has more bytes. -/
theorem slides_iff (h : Rep R s A) (hz : z.blocks = A.blocks)
    (hA : A.Ok fit) (hcl : Closed s) (hu : z.mid.used = true)
    (hbig : 8 < z.mid.size) (hsize : size ≠ 0)
    (hs : Slides z (need size)) :
    (∀ c ∈ events (Copies.implicitMmRealloc fit (addr R z.off) size) s,
      c.Apart ∧ c.Held
        (final ((implicitMmRealloc fit (addr R z.off) size).run s))) ↔
      ¬ Overlaps z (need size) := by
  obtain ⟨e, ht⟩ := h.tiled
  rw [← hz] at ht
  have hsmall := hs.small ht
  have hmax := maxHeap_lt
  have hone := copies_slides ht hu hbig hsize (by omega) hs fit
  rw [show R.base + 8 + 8 + z.off = addr R z.off from rfl] at hone
  rw [hone]
  have hapart : Copies.Copy.Apart ⟨R.base + 8 + 8 + z.absorbPrev.off,
      addr R z.off, z.mid.room⟩
        ↔ ¬ z.absorbPrev.mid.size + 8 < 2 * z.mid.size :=
    slide_apart hs.mid hs.prev
  constructor
  · intro hall ho
    exact hapart.1 (hall _ List.mem_cons_self).1 ho.short
  · intro hno c hc
    rw [List.mem_singleton.1 hc]
    refine ⟨hapart.2 fun hshort => hno ⟨hs, hshort⟩, ?_⟩
    have hserved := implicitMmRealloc_ok fit h hz (fun _ => hcl) hu hbig hsize
      (by unfold need at hsmall; unfold wordMax; omega)
      fun hlast => absurd hlast hs.inner
    have hres : A.resize fit z (need size) = some (some z.absorbPrev.off,
        A.settle fit (z.absorbPrev.fill (need size)) z.absorbPrev.off) := by
      unfold Heap.resize
      rw [if_neg (Nat.not_le_of_lt hs.mid),
        if_neg (Nat.not_le_of_lt hs.next), if_neg hs.inner, if_pos hs.prev]
    rw [hres] at hserved
    obtain ⟨s', hok, hheld, -⟩ := hserved
    rw [hok]
    exact copy_held hA hz hu hs.mid hres hheld.rep

/-- So is a move, unless it goes to a block that is too small. -/
theorem moves_iff (h : Rep R s A) (hz : z.blocks = A.blocks)
    (hcl : Closed s) (hu : z.mid.used = true) (hbig : 8 < z.mid.size)
    (hsize : size ≠ 0) (hm : Moves z (need size)) :
    (∀ c ∈ events (Copies.implicitMmRealloc fit (addr R z.off) size) s,
      c.Apart ∧ c.Held
        (final ((implicitMmRealloc fit (addr R z.off) size).run s))) ↔
      ¬ Cuts z (need size) := by
  obtain ⟨e, ht⟩ := h.tiled
  rw [← hz] at ht
  obtain ⟨hevents, hrun⟩ := copies_moves ht hu hbig hsize hm fit
  rw [hevents, hrun]
  cases hg : grow A.blocks (u32 (need size)) with
  | none =>
      rw [copies_lost h hz hm.inner hg]
      refine ⟨fun _ hc => hc.grows (hz ▸ hg), fun _ c hc => ?_⟩
      cases hc
  | some y =>
      obtain ⟨q, bs⟩ := y
      obtain ⟨hone, hap⟩ := copies_new (n := need size) h hz hcl hu hm.inner
        hg fit
      obtain ⟨res, hres, hroom⟩ := reallocNew_spill h hz hcl hu hm.inner hg
        fit
      have hn' := grow_least (u32_need_mod size) hg
      have hb := Blk.of_size true (u32_need_mod size) hn'
      have hr := z.mid.room_add
      have hr' := (Blk.of (u32 (need size)) true).room_add
      rw [hone, hres]
      constructor
      · intro hall hc
        have hshort := hc.short
        obtain ⟨-, k, hk, hle⟩ := hall _ List.mem_cons_self
        injection hk.symm.trans hroom with hk' _
        simp only at hle
        omega
      · intro hno c hc
        rw [List.mem_singleton.1 hc]
        refine ⟨hap, _, hroom, ?_⟩
        by_contra hle
        simp only at hle
        refine hno ⟨hm, by omega, ?_⟩
        rw [hz, hg]
        exact Option.some_ne_none _

/-- All copies of a call are as they should be exactly if it makes no such
slide and no such move. -/
theorem copies_iff (h : Rep R s A) (hz : z.blocks = A.blocks)
    (hA : A.Ok fit) (hcl : Closed s) (hu : z.mid.used = true)
    (hbig : 8 < z.mid.size) (hsize : size ≠ 0)
    (hbit : rd 4 s.mem (s.memBrk - 4) % 2 = 0) :
    (∀ c ∈ events (Copies.implicitMmRealloc fit (addr R z.off) size) s,
      c.Apart ∧ c.Held
        (final ((implicitMmRealloc fit (addr R z.off) size).run s))) ↔
      ¬ Overlaps z (need size) ∧ ¬ Cuts z (need size) := by
  by_cases hs : Slides z (need size)
  · rw [slides_iff h hz hA hcl hu hbig hsize hs]
    exact (and_iff_left fun hc => Nat.not_le_of_lt hc.prev hs.prev).symm
  have hno : ¬ Overlaps z (need size) := fun ho => hs ho.toSlides
  rw [and_iff_right hno]
  by_cases hm : Moves z (need size)
  · exact moves_iff h hz hcl hu hbig hsize hm
  obtain ⟨e, ht⟩ := h.tiled
  have he : e / 8 = 0 := ht.last ▸ hcl
  rw [ht.last] at hbit
  rw [← hz] at ht
  have hnone := copies_stay ht he hbit hu hbig hsize hs hm fit
  rw [show R.base + 8 + 8 + z.off = addr R z.off from rfl] at hnone
  rw [hnone]
  refine ⟨fun _ hc => hm hc.toMoves, fun _ c hc => ?_⟩
  cases hc

-- ======================================================== seen from outside

/-- A walk over the heap sees such a slide. -/
theorem slidesShort_iff : SlidesShort (seen p z.blocks) (p + z.off) n ↔
    Overlaps z n := by
  constructor
  · rintro ⟨x, hx, haddr, hless, hnext, ⟨y, hy, hya⟩, w, hw, hwa, hfree,
      hfit, hshort⟩
    rw [seen_mid.1 ⟨hx, haddr⟩] at hless hnext hya hfit hshort
    obtain ⟨c, r, hr, -⟩ := seen_next.1 ⟨hy, hya⟩
    obtain ⟨l, d, hl, rfl⟩ := seen_prev.1 ⟨hw, hwa⟩
    have hprev := prev_join hl (seen_free.1 hfree)
    have hfit' : n ≤ d.size + z.mid.size := hfit
    have hshort' : d.size + 8 < z.mid.size := hshort
    exact ⟨⟨hless, (seen_nextShort hless).1 hnext, by simp [hr], by omega⟩,
      by omega⟩
  · intro h
    obtain ⟨hx, haddr⟩ := (seen_mid (p := p) (z := z)).2 rfl
    obtain ⟨c, r, hr⟩ := List.exists_cons_of_ne_nil h.inner
    obtain ⟨hy, hya⟩ := (seen_next (p := p)).2 ⟨c, r, hr, rfl⟩
    have hmid := h.mid
    have hfit := h.prev
    have hshort := h.short
    rcases z.absorbPrev_cases with ⟨-, hw⟩ | ⟨l, d, hl, hfree, hw⟩
    · rw [hw] at hfit
      omega
    obtain ⟨hd, hda⟩ := (seen_prev (p := p)).2 ⟨l, d, hl, rfl⟩
    rw [hw, Blk.join_size] at hfit hshort
    refine ⟨_, hx, haddr, hmid, (seen_nextShort hmid).2 h.next, ⟨_, hy, hya⟩,
      _, hd, hda, seen_free.2 hfree, hfit, ?_⟩
    show d.size + 8 < z.mid.size
    omega

/-- The blocks before a free last one, and that. -/
theorem stem_freeTail (p : Nat) (bs : List Blk) :
    total (stem bs) + freeTail (seen p bs) = total bs := by
  rcases bs.eq_nil_or_concat with rfl | ⟨l, b, rfl⟩
  · rfl
  · rw [List.concat_eq_append]
    have hlast : (seen p (l ++ [b])).getLast?
        = some (seenAt (p + total l, b)) := by
      unfold seen
      simp
    have hstem : stem (l ++ [b]) = if b.used then l ++ [b] else l := by
      unfold stem
      rw [List.getLast?_concat, List.dropLast_concat]
    have hfree := seen_free (q := p + total l) (b := b)
    unfold freeTail
    rw [hlast, hstem]
    cases hu : b.used with
    | true =>
        have hnot : ¬ (seenAt (p + total l, b)).state = blkFree := by
          rw [hfree, hu]
          decide
        simp only [if_neg hnot, if_true, Nat.add_zero]
    | false =>
        have hyes : (seenAt (p + total l, b)).state = blkFree :=
          hfree.2 hu
        simp only [if_pos hyes, Bool.false_eq_true, if_false, total_append,
          total_cons, total_nil, Nat.add_zero]
        rfl

/-- A walk over the heap sees a move into a block that is too small. -/
theorem cutShort_iff (h : Rep R s A) (hz : z.blocks = A.blocks)
    (hn : n ≤ 2 ^ 64) :
    CutShort s (seen (R.base + 16) z.blocks) (R.base + 16 + z.off) n ↔
      Cuts z n := by
  obtain ⟨e, ht⟩ := h.tiled
  rw [← hz] at ht
  have hbrk := ht.brk
  have hmax := h.max
  have htail := stem_freeTail (R.base + 16) z.blocks
  have hgrows : grow z.blocks (u32 n) ≠ none ↔
      freeTail (seen (R.base + 16) z.blocks) < u32 n ∧
      s.memBrk + (u32 n - freeTail (seen (R.base + 16) z.blocks))
        ≤ s.memMaxAddr := by
    unfold grow lead
    split
    · rename_i hc
      exact iff_of_true (Option.some_ne_none _) ⟨by omega, by omega⟩
    · rename_i hc
      exact iff_of_false (fun hne => hne rfl) fun hc' => hc
        ⟨by omega, by omega⟩
  constructor
  · rintro ⟨x, hx, haddr, hless, hnext, ⟨y, hy, hya⟩, hprev, hshort, hgrow⟩
    rw [seen_mid.1 ⟨hx, haddr⟩] at hless hnext hya hprev hshort
    obtain ⟨c, r, hr, -⟩ := seen_next.1 ⟨hy, hya⟩
    refine ⟨⟨?_, hless, (seen_nextShort hless).1 hnext, by simp [hr],
      (seen_prevShort hless).1 hprev⟩, hshort, hgrows.2 hgrow⟩
    -- a size of 2 ^ 64 is cut to nothing
    have hpos := hgrow.1
    unfold u32 at hpos
    omega
  · intro hc
    have hmid := hc.mid
    obtain ⟨hx, haddr⟩ := (seen_mid (p := R.base + 16) (z := z)).2 rfl
    obtain ⟨c, r, hr⟩ := List.exists_cons_of_ne_nil hc.inner
    obtain ⟨hy, hya⟩ := (seen_next (p := R.base + 16)).2 ⟨c, r, hr, rfl⟩
    exact ⟨_, hx, haddr, hmid, (seen_nextShort hmid).2 hc.next,
      ⟨_, hy, hya⟩, (seen_prevShort hmid).2 hc.prev, hc.short,
      hgrows.1 hc.grows⟩

-- ================================================================ the runs

/-- After every run, the copies of a resize to any size have disjoint
ranges and fit in the block they go to, exactly if it does not slide by
less than the payload, nor move to a block that is too small. -/
theorem implicit_copies (fit : Fit) (R : Region) {m : Bytes}
    (hm : Blank R m) {reqs : List Req}
    (hsize : ∀ r ∈ reqs, Sized 0 maxSize r) {ps : List Nat}
    (hrun : (run (.implicit fit) reqs).run (memInit R m)
      = .ok (ps, live) s) {a : Alloc} (ha : a ∈ live) (size : Nat) :
    ∃ xs, HeapList s xs ∧
      ((∀ c ∈ events (Copies.implicitMmRealloc fit a.ptr size) s,
          c.Apart ∧
            c.Held (final ((implicitMmRealloc fit a.ptr size).run s))) ↔
        ¬ SlidesShort xs a.ptr (need size) ∧
          ¬ CutShort s xs a.ptr (need size)) := by
  obtain ⟨S, hS, hf⟩ :=
    run_returned fit R hm (fun r hr => Sized.int (hsize r hr)) hrun
  obtain ⟨i, hi⟩ := List.mem_iff_getElem?.1 ha
  rw [hS.live_get] at hi
  obtain ⟨x, hx, rfl⟩ := Option.map_eq_some_iff.1 hi
  obtain ⟨z, hzb, hzo, hu, ⟨hold, hold', hex⟩, -⟩ := hS.ok.cursor hx
  have hbit := hf.bit hS hzb
  have hbig : 8 < z.mid.size := by
    have := z.mid.room_add
    have := need_size hold hold'
    omega
  have hneed : need size ≤ 2 ^ 64 := by
    have := align_mod size
    unfold need
    omega
  have hptr : (own R x).ptr = addr R z.off := by
    rw [hzo]
    rfl
  have hplace : addr R z.off = R.base + 16 + z.off := rfl
  refine ⟨_, hS.heapList hf.closed, ?_⟩
  rw [hptr, ← hzb, hplace, slidesShort_iff,
    cutShort_iff hS.rep hzb hneed, ← hplace]
  by_cases hsize0 : size = 0
  · -- the block is freed
    subst hsize0
    have hnone : events (Copies.implicitMmRealloc fit (addr R z.off) 0) s
        = [] := by
      unfold Copies.implicitMmRealloc
      rw [if_neg (addr_pos R z.off), if_pos rfl]
      exact events_nil (all_step fun _ _ _ => all_pure _ _)
    have hzero : need 0 = 8 := rfl
    rw [hnone, hzero]
    refine iff_of_true (fun c hc => by cases hc) ⟨fun ho => ?_, fun hc => ?_⟩
    · have hmid := ho.mid
      omega
    · have hmid := hc.mid
      omega
  exact copies_iff hS.rep hzb hS.ok.heap hf.closed hu hbig hsize0 hbit

/-- A block of 24 bytes behind a free one of 104: to sixty bytes it slides
there, and to two hundred it moves to the end. -/
theorem implicit_copies_sample : ∃ ps live s a,
    (run (.implicit .next)
      [.malloc 96, .malloc 16, .malloc 8, .write 1 3 7, .free 0]).run
      (memInit Region.sample fun _ => 0) = .ok (ps, live) s ∧ a ∈ live ∧
    events (Copies.implicitMmRealloc .next a.ptr 60) s = [⟨24, 128, 16⟩] ∧
    events (Copies.implicitMmRealloc .next a.ptr 200) s = [⟨168, 128, 16⟩] ∧
    ∀ size, ∃ xs, HeapList s xs ∧
      ((∀ c ∈ events (Copies.implicitMmRealloc .next a.ptr size) s,
          c.Apart ∧
            c.Held (final ((implicitMmRealloc .next a.ptr size).run s))) ↔
        ¬ SlidesShort xs a.ptr (need size) ∧
          ¬ CutShort s xs a.ptr (need size)) := by
  obtain ⟨s, hs, hcopies⟩ := of_reading (fun s =>
      (events (Copies.implicitMmRealloc .next 128 60) s,
        events (Copies.implicitMmRealloc .next 128 200) s))
    (show result? ((do
      let x ← run (.implicit .next)
        [.malloc 96, .malloc 16, .malloc 8, .write 1 3 7, .free 0]
      let s ← get
      return (x, events (Copies.implicitMmRealloc .next 128 60) s,
        events (Copies.implicitMmRealloc .next 128 200) s) : M _).run
        (memInit Region.sample fun _ => 0))
      = some (([24, 128, 152, 0, 0], [⟨128, 16⟩, ⟨152, 8⟩]),
        [⟨24, 128, 16⟩], [⟨168, 128, 16⟩]) by decide +kernel)
  injection hcopies with hslide hmove
  exact ⟨_, _, s, _, hs, List.mem_cons_self, hslide, hmove, fun size =>
    implicit_copies .next _ sample_blank (by simp [Sized, maxSize]) hs
      List.mem_cons_self size⟩

/-- A size past a header word: forty bytes are copied to a block that has
eight. -/
example : result? ((do
    let _ ← run (.implicit .first) [.malloc 40, .malloc 8]
    let s ← get
    return events (Copies.implicitMmRealloc .first 24 (2 ^ 32 + 8)) s
      : M _).run (memInit Region.sample fun _ => 0))
    = some [⟨88, 24, 40⟩] := by decide +kernel

/-- A block of 16 bytes is freed before one of 48, and that is resized to
48 bytes of payload: 40 bytes are copied from 40 to 24. -/
theorem implicit_copies_astray : ∃ ps live s a,
    (∀ r ∈ ([.malloc 8, .malloc 40, .malloc 8, .free 0] : List Req),
      Sized 1 maxSize r) ∧
    (run (.implicit .first) [.malloc 8, .malloc 40, .malloc 8, .free 0]).run
      (memInit Region.sample fun _ => 0) = .ok (ps, live) s ∧ a ∈ live ∧
    ∃ c ∈ events (Copies.implicitMmRealloc .first a.ptr 48) s,
      ¬ c.Apart := by
  obtain ⟨s, hs, hcopies⟩ := of_reading
    (fun s => events (Copies.implicitMmRealloc .first 40 48) s)
    (show result? ((do
      let x ← run (.implicit .first)
        [.malloc 8, .malloc 40, .malloc 8, .free 0]
      let s ← get
      return (x, events (Copies.implicitMmRealloc .first 40 48) s)
        : M _).run (memInit Region.sample fun _ => 0))
      = some (([24, 40, 88, 0], [⟨40, 40⟩, ⟨88, 8⟩]), [⟨24, 40, 40⟩])
      by decide +kernel)
  refine ⟨_, _, s, _, by simp [Sized, maxSize], hs, List.mem_cons_self,
    ⟨24, 40, 40⟩, ?_, ?_⟩
  · rw [hcopies]
    exact List.mem_singleton.2 rfl
  · unfold Copies.Copy.Apart
    decide

end MallocLab.Proofs.Implicit
