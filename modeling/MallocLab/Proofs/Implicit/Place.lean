/-
The helpers of implicit.c refine the operations on a cursor: `place`
hands out the front of a free block, `coalesce` merges, `do_malloc`
grows the heap.

# The closing word

`extend_heap` writes a closing word where the old one was, not at the
new break. What closes the heap afterwards is whatever the storage held
there: the tiling goes on with that word, whatever it is, and the lemmas
here take only that the word before the extension reads as size zero.
`Grew` records that the bytes from the new closing word on are the old
ones.
-/
import MallocLab.Proofs.Implicit.Search

namespace MallocLab.Proofs.Implicit

open Mem Blocks Model Model.Implicit Spec.Implicit

/-- The payload address of the block at offset `o`. -/
def addr (R : Region) (o : Nat) : Nat := R.base + 8 + 8 + o

/-- Where the rover points. -/
def curp (R : Region) : Option Nat → Nat
  | none => 0
  | some r => R.base + 8 + r

/-- The machine `s` represents the heap `A`. -/
structure Rep (R : Region) (s : Machine) (A : Heap) : Prop where
  start : s.memStartBrk = R.base
  max : s.memMaxAddr = R.base + maxHeap
  listp : s.heapListp = R.base + 8
  tiled : ∃ e, Tiled (R.base + 8) e s A.blocks
  cur : s.heapCurp = curp R A.rover

/-- The word below the break closes the heap. -/
def Closed (s : Machine) : Prop := rd 4 s.mem (s.memBrk - 4) / 8 = 0

/-- The heap got no smaller, the storage from its closing word on is as
it was, and nothing outside the heap was touched. -/
structure Grew (s s' : Machine) : Prop where
  le : s.memBrk = s'.memBrk ∨ s.memBrk + 8 ≤ s'.memBrk
  tail : Set.EqOn s'.mem s.mem (Set.Ici (s'.memBrk - 4))
  strays : s'.strays = s.strays

variable {R : Region} {s s' : Machine} {A : Heap} {z : Zip} {n hp e : Nat}
  {bs : List Blk} {fit : Fit} {m : Bytes}

theorem Grew.refl (s : Machine) : Grew s s :=
  ⟨Or.inl rfl, fun _ _ => rfl, rfl⟩

theorem Grew.trans {s'' : Machine} (h : Grew s s') (h' : Grew s' s'') :
    Grew s s'' where
  le := by
    have := h.le
    have := h'.le
    omega
  tail := fun x hx => by
    refine (h'.tail hx).trans (h.tail ?_)
    have hle := h'.le
    have hx' : s''.memBrk - 4 ≤ x := hx
    show s'.memBrk - 4 ≤ x
    omega
  strays := h'.strays.trans h.strays

-- ================================================================ the rover

/-- The machine with the rover moved, under the strategy that has one. -/
def roved (fit : Fit) (p : Nat) (s : Machine) : Machine :=
  if fit = .next then { s with heapCurp := p } else s

theorem roverTo_ok (fit : Fit) (p : Nat) (s : Machine) :
    (roverTo fit p).run s = .ok () (roved fit p s) := by
  unfold roverTo roved
  split <;> rfl

@[simp] theorem roved_mem (fit : Fit) (p : Nat) (s : Machine) :
    (roved fit p s).mem = s.mem := by
  unfold roved
  split <;> rfl

@[simp] theorem roved_memStartBrk (fit : Fit) (p : Nat) (s : Machine) :
    (roved fit p s).memStartBrk = s.memStartBrk := by
  unfold roved
  split <;> rfl

@[simp] theorem roved_memMaxAddr (fit : Fit) (p : Nat) (s : Machine) :
    (roved fit p s).memMaxAddr = s.memMaxAddr := by
  unfold roved
  split <;> rfl

@[simp] theorem roved_memBrk (fit : Fit) (p : Nat) (s : Machine) :
    (roved fit p s).memBrk = s.memBrk := by
  unfold roved
  split <;> rfl

@[simp] theorem roved_errno (fit : Fit) (p : Nat) (s : Machine) :
    (roved fit p s).errno = s.errno := by
  unfold roved
  split <;> rfl

@[simp] theorem roved_strays (fit : Fit) (p : Nat) (s : Machine) :
    (roved fit p s).strays = s.strays := by
  unfold roved
  split <;> rfl

theorem roved_withMem (fit : Fit) (p : Nat) (s : Machine) (m : Bytes) :
    { roved fit p s with mem := m } = roved fit p { s with mem := m } := by
  unfold roved
  split <;> rfl

theorem roved_withBrk (fit : Fit) (p : Nat) (s : Machine) (k : Nat) :
    { roved fit p s with memBrk := k }
      = roved fit p { s with memBrk := k } := by
  unfold roved
  split <;> rfl

/-- Moving it twice to one place is moving it once. -/
theorem roved_roved (fit : Fit) (p : Nat) (s : Machine) :
    roved fit p (roved fit p s) = roved fit p s := by
  unfold roved
  split <;> rfl

theorem Tiled.roved (h : Tiled hp e s bs) (fit : Fit) (p : Nat) :
    Tiled hp e (roved fit p s) bs := by
  unfold Implicit.roved
  split
  · exact ⟨h.start, h.aligned, h.brk, h.max, h.small, h.tags, h.last⟩
  · exact h

/-- Nor does what a call kept. -/
theorem Grew.roved (h : Grew s s') (fit : Fit) (p : Nat) :
    Grew s (roved fit p s') := by
  unfold Implicit.roved
  split
  · exact ⟨h.le, h.tail, h.strays⟩
  · exact h

/-- No tiling depends on the rover. -/
theorem tiled_of_roved {p : Nat} (h : Tiled hp e (Implicit.roved fit p s) bs) :
    Tiled hp e s bs := by
  unfold Implicit.roved at h
  split at h
  · exact ⟨h.start, h.aligned, h.brk, h.max, h.small, h.tags, h.last⟩
  · exact h

/-- `errno` says nothing about the heap. -/
theorem Rep.withErrno (h : Rep R s A) (e : Nat) :
    Rep R { s with errno := e } A := by
  obtain ⟨t, ht⟩ := h.tiled
  exact ⟨h.start, h.max, h.listp, ⟨t, ht.start, ht.aligned, ht.brk, ht.max,
    ht.small, ht.tags, ht.last⟩, h.cur⟩

/-- The rover where the abstract one is. -/
theorem Rep.roved (h : Rep R s A) (r : Option Nat) :
    Rep R (roved fit (curp R r) s) (A.rove fit r) := by
  obtain ⟨e, ht⟩ := h.tiled
  unfold Implicit.roved Heap.rove
  split
  · exact ⟨h.start, h.max, h.listp, ⟨e, ht.start, ht.aligned, ht.brk, ht.max,
      ht.small, ht.tags, ht.last⟩, rfl⟩
  · exact h

/-- New blocks, with the rover at one of them. -/
theorem Rep.settle (h : Rep R s A) {k o : Nat}
    (ht : Tiled (R.base + 8) e { s with memBrk := k, mem := m } bs) :
    Rep R (Implicit.roved fit (addr R o)
        { s with memBrk := k, mem := m }) (A.settle fit bs o) := by
  have hrep : Rep R { s with memBrk := k, mem := m }
      { A with blocks := bs } := ⟨h.start, h.max, h.listp, ⟨e, ht⟩, h.cur⟩
  have haddr : addr R o = curp R (some (o + 8)) := by
    show R.base + 8 + 8 + o = R.base + 8 + (o + 8)
    omega
  rw [haddr]
  exact hrep.roved (some (o + 8))

-- ============================================================ what is kept

/-- The payloads of the blocks of `U`. -/
abbrev payload (R : Region) : Set (Nat × Blk) → Set Nat :=
  payloadAt (R.base + 8 + 8)

/-- The payloads of the blocks in use. -/
def kept (R : Region) (A : Heap) : Set Nat :=
  payload R (marked true 0 A.blocks)

/-- The payloads beside a cursor are out of the extent of its block. -/
theorem sides_out {u : Bool} {x : Nat} (hx : x ∈ payload R (z.sides u)) :
    x < addr R z.off - 8 ∨ addr R z.off + z.mid.size ≤ x := by
  obtain ⟨⟨o, b⟩, hy, h1, h2⟩ := hx
  have hd := (Zip.mem_sides hy).2.2
  have hr := b.room_add
  simp only [addr] at *
  omega

/-- A cut keeps the payloads beside it. -/
theorem stampCut_sides {u : Bool} (hn : n % 8 = 0) (hn' : 8 ≤ n)
    (hfit : n ≤ z.mid.size) :
    Set.EqOn (stampCut m (addr R z.off) n z.mid.size) m
      (payload R (z.sides u)) := by
  intro x hx
  have hout := sides_out hx
  have hal := z.mid.aligned
  have hpos := z.mid.pos
  exact stampCut_of_out (by unfold addr; omega) hn hn' hal hfit (by omega)
    (by omega) (by omega)

/-- A cut keeps everything from the closing word on. -/
theorem stampCut_tail {k x : Nat} (hn : n % 8 = 0) (hn' : 8 ≤ n)
    (hfit : n ≤ z.mid.size) (hk : addr R z.off + z.mid.size ≤ k)
    (hx : k - 4 ≤ x) :
    stampCut m (addr R z.off) n z.mid.size x = m x := by
  have hal := z.mid.aligned
  have hpos := z.mid.pos
  exact stampCut_of_out (by unfold addr; omega) hn hn' hal hfit (by omega)
    (by omega) (by omega)

-- ==================================================================== place

/-- A block that suits has the room for the rounded size and the tags. -/
theorem suits_need {x : Nat × Blk} (hs : suits n x = true)
    (hlt : x.2.size < maxHeap) :
    x.2.used = false ∧ need n ≤ x.2.size := by
  obtain ⟨hu, hle⟩ := suits_iff.1 hs
  have hr := x.2.room_add
  have hal := x.2.aligned
  have hmax := maxHeap_lt
  refine ⟨hu, ?_⟩
  unfold need
  rw [align_eq (by omega)]
  omega

/-- `place` hands out the front of a free block. -/
theorem place_ok (h : Tiled hp e s z.blocks) (hfree : z.mid.used = false)
    (size : Nat) (hfit : need size ≤ z.mid.size) :
    (place (hp + 8 + z.off) size).run s = .ok (hp + 8 + z.off)
      { s with
        mem := stampCut s.mem (hp + 8 + z.off) (need size)
          z.mid.size } := by
  have hn := need_mod size
  have hn' : 8 ≤ need size := Nat.le_add_left 8 _
  have hal := z.mid.aligned
  have hlt := h.size_lt
  have hmax := maxHeap_lt
  have htot : z.off + z.mid.size ≤ total z.blocks := by
    have := placed_bounds (z.mem_placed 0)
    omega
  obtain ⟨s₁, hset, hwhole, hcut⟩ :=
    h.cut_ok s.mem hn hn' hal hfit htot
  have halloc : (rbAlloc (hp + 8 + z.off)).run s = .ok 0 s := by
    have := blkState_ok h
    rwa [hfree] at this
  unfold place
  rw [bind_ok halloc, if_neg (by decide), bind_ok (blkSize_ok h)]
  simp only
  rw [u64_need (by omega), if_neg (by omega)]
  by_cases he : z.mid.size = need size
  · have hlt : z.mid.size - need size < minBlkSize := by
      unfold minBlkSize blkHdrSize blkFtrSize
      omega
    rw [hwhole he] at hset
    have hsame : setRb (hp + 8 + z.off) z.mid.size blkAlloc
        = setBlk (hp + 8 + z.off) (need size) blkAlloc := by rw [he]
    rw [if_pos hlt, hsame]
    exact bind_ok hset
  · have hge : ¬ z.mid.size - need size < minBlkSize := by
      unfold minBlkSize blkHdrSize blkFtrSize
      omega
    obtain ⟨hnext, hrest⟩ := hcut he
    rw [if_neg hge]
    refine (bind_ok hset).trans ?_
    rw [bind_ok hnext]
    exact bind_ok hrest

-- ================================================================= coalesce

/-- The next block's size is added if it is free. The closing word adds
nothing: it reads as size zero, or as in use. -/
theorem coalesceNext_ok (h : Tiled hp e s z.blocks)
    (he : z.right = [] → e / 8 = 0 ∨ e % 2 = 1) :
    (coalesceNext (hp + 8 + z.off) z.mid.size).run s
      = .ok z.absorbNext.mid.size s := by
  have hlt := h.size_lt
  have hmax := maxHeap_lt
  have hsize := nextBlkSize_ok h
  unfold coalesceNext
  rw [bind_ok (nextBlkAlloc_ok h)]
  obtain ⟨l, b, r⟩ := z
  cases r with
  | nil =>
      have hadd : u32 (b.size + 0) = b.size := by
        simp only at hlt
        unfold u32
        omega
      show (if _ then _ else _ : M Nat).run s = .ok b.size s
      split
      · rename_i hfree
        have hzero : nextTag e ⟨l, b, []⟩ / 8 * 8 = 0 := by
          have hbit : e % 2 = 0 := hfree
          have hword := (he rfl).resolve_right (by omega)
          show e / 8 * 8 = 0
          rw [hword]
        rw [bind_ok hsize, hzero, hadd]
        rfl
      · rfl
  | cons c r =>
      have hstate : nextTag e ⟨l, b, c :: r⟩ % 2 = c.used.toNat := c.tag_mod
      have hsz : nextTag e ⟨l, b, c :: r⟩ / 8 * 8 = c.size := c.tag_div
      rw [hsz] at hsize
      rw [hstate]
      cases hc : c.used with
      | true =>
          simp only [Zip.absorbNext, hc, if_true]
          rfl
      | false =>
          have hadd : u32 (b.size + c.size) = b.size + c.size := by
            simp only [total_cons] at hlt
            unfold u32
            omega
          have hjoin : (Zip.absorbNext ⟨l, b, c :: r⟩).mid.size
              = b.size + c.size := by simp [Zip.absorbNext, hc]
          rw [if_pos (by rfl), bind_ok hsize, hadd, hjoin]
          rfl

/-- The previous block's size is added if it is free, and the block
starts there. -/
theorem coalescePrev_ok {w : Zip} (h : Tiled hp e s z.blocks)
    (hw : w.left = z.left) (hlt : z.off + w.mid.size < maxHeap) :
    (coalescePrev (hp + 8 + z.off) w.mid.size).run s
      = .ok (w.absorbPrev.mid.size, hp + 8 + w.absorbPrev.off) s := by
  have hmax := maxHeap_lt
  have hsize := prevBlkSize_ok h
  have hprev := prevBlkp_ok h
  unfold coalescePrev
  rw [bind_ok (prevBlkAlloc_ok h)]
  obtain ⟨l, b, r⟩ := z
  obtain ⟨l', b', r'⟩ := w
  simp only at hw
  subst hw
  rcases l'.eq_nil_or_concat with rfl | ⟨l, c, rfl⟩
  · have htag : prevTag ⟨[], b, r⟩ % 2 = 1 := pro.tag_mod
    rw [htag, if_neg (by decide)]
    rfl
  · rw [List.concat_eq_append] at *
    have htag : prevTag ⟨l ++ [c], b, r⟩ = c.tag := by
      simp [prevTag, lastTag]
    have hoff : Zip.off ⟨l ++ [c], b, r⟩ = total l + c.size := by
      simp [Zip.off]
    rw [htag, c.tag_div] at hsize hprev
    rw [htag, c.tag_mod]
    cases hc : c.used with
    | true =>
        have hkeep : Zip.absorbPrev ⟨l ++ [c], b', r'⟩
            = ⟨l ++ [c], b', r'⟩ := by simp [Zip.absorbPrev, hc]
        rw [hkeep, if_neg (by decide)]
        rfl
    | false =>
        have hjoin : Zip.absorbPrev ⟨l ++ [c], b', r'⟩
            = ⟨l, c.join b', r'⟩ := by simp [Zip.absorbPrev, hc]
        have hadd : u32 (b'.size + c.size) = (c.join b').size := by
          rw [Blk.join_size]
          simp only at hlt
          unfold u32
          omega
        have hback : hp + 8 + Zip.off ⟨l ++ [c], b, r⟩ - c.size
            = hp + 8 + total l := by omega
        rw [hjoin, if_pos (by rfl), bind_ok hsize]
        simp only
        rw [bind_ok hprev, hadd, hback]
        rfl

/-- `coalesce` merges a free block with its free neighbours. -/
theorem coalesce_ok (h : Tiled hp e s z.blocks)
    (he : z.right = [] → e / 8 = 0 ∨ e % 2 = 1)
    (hfree : z.mid.used = false)
    (fit : Fit) :
    (coalesce fit (hp + 8 + z.off)).run s = .ok (hp + 8 + z.merge.off)
      (roved fit (hp + 8 + z.merge.off)
        { s with mem := stamp s.mem (hp + 8 + z.merge.off) z.merge.mid }) := by
  have hmark : { z with mid := z.mid.mark false } = z := by
    obtain ⟨l, b, r⟩ := z
    have : b.mark false = b := Blk.ext rfl hfree.symm
    rw [this]
  have hmerge : z.merge = z.absorbNext.absorbPrev := by
    unfold Zip.merge
    rw [hmark]
  have htot := z.merge_total
  have hbd := placed_bounds (z.merge.mem_placed 0)
  have hset := h.setBlk_ok s.mem (o := z.merge.off) z.merge.mid (by omega)
  rw [z.merge_mid_used] at hset
  have hnext := coalesceNext_ok h he
  have hprev := coalescePrev_ok (w := z.absorbNext) h z.absorbNext_left (by
    have hlt := h.size_lt
    rcases z.absorbNext_cases with ⟨-, hw⟩ | ⟨c, r, hr, -, hw⟩
    · rw [hw]
      omega
    · rw [hr, total_cons] at hlt
      rw [hw, Blk.join_size]
      omega)
  unfold coalesce
  rw [bind_ok (blkSize_ok h), bind_ok hnext, bind_ok hprev, ← hmerge]
  simp only
  refine (bind_ok hset).trans ?_
  rw [bind_ok (roverTo_ok fit _ _)]
  rfl

/-- `implicit_mm_free` merges a block in use. -/
theorem implicitMmFree_ok (h : Tiled hp e s z.blocks)
    (he : z.right = [] → e / 8 = 0 ∨ e % 2 = 1) (fit : Fit) :
    ∃ m, (implicitMmFree fit (hp + 8 + z.off)).run s
        = .ok () (roved fit (hp + 8 + z.merge.off) { s with mem := m }) ∧
      Tiled hp e { s with mem := m } z.merge.blocks ∧
      (∀ x, x < s.memStartBrk ∨ s.memBrk - 4 ≤ x → m x = s.mem x) ∧
      Set.EqOn m s.mem (payloadAt (hp + 8) (z.sides true)) := by
  have htot := z.merge_total
  have hpl := placed_bounds (z.mem_placed 0)
  have hbd := placed_bounds (z.merge.mem_placed 0)
  have hstart := h.start
  have hbrk := h.brk
  have hpos := z.mid.pos
  have hpos' := z.merge.mid.pos
  -- the block marked free, then merged
  have hset := h.setBlk_ok s.mem (o := z.off) (z.mid.mark false)
    (by rw [Blk.mark_size]; omega)
  have hsplit : z.blocks = z.left ++ [z.mid] ++ z.right := by
    simp [Zip.blocks]
  have hmark : Zip.blocks { z with mid := z.mid.mark false }
      = z.left ++ [z.mid.mark false] ++ z.right := by simp [Zip.blocks]
  have ht : Tiled hp e
      { s with mem := stamp s.mem (hp + 8 + z.off) (z.mid.mark false) }
      (Zip.blocks { z with mid := z.mid.mark false }) := by
    rw [hmark]
    rw [hsplit] at h
    exact h.restamp (by simp)
  have hco := coalesce_ok ht he rfl fit
  have hmerged := ht.merge
  have hsides : z.merge.sides true = z.sides true := by
    unfold Zip.merge
    rw [Zip.absorbPrev_useds, Zip.absorbNext_useds]
    rfl
  have hsize : (z.mid.mark false).size = z.mid.size := rfl
  refine ⟨stamp (stamp s.mem (hp + 8 + z.off) (z.mid.mark false))
    (hp + 8 + z.merge.off) z.merge.mid, ?_, hmerged, fun x hx => ?_,
    fun x hx => ?_⟩
  · unfold implicitMmFree
    rw [bind_ok (blkSize_ok h)]
    refine (bind_ok hset).trans ?_
    exact bind_ok hco
  · rw [stamp_of_out (by omega) ?_, stamp_of_out (by omega) ?_]
    · rintro (hc | hc) <;> omega
    · rintro (hc | hc) <;> omega
  · have hx' := hx
    rw [← hsides] at hx'
    obtain ⟨⟨o, b⟩, hy, h1, h2⟩ := hx
    obtain ⟨⟨o', b'⟩, hy', h1', h2'⟩ := hx'
    have hd := (Zip.mem_sides hy).2.2
    have hd' := (Zip.mem_sides hy').2.2
    have hr := b.room_add
    have hr' := b'.room_add
    simp only at h1 h2 h1' h2'
    rw [stamp_of_out (by omega) ?_, stamp_of_out (by omega) ?_]
    · rintro (hc | hc) <;> omega
    · rintro (hc | hc) <;> omega

end MallocLab.Proofs.Implicit
