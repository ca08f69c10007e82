/-
A heap tiled by boundary-tagged blocks, as both allocators keep it: a
prologue, the blocks, and a word at the very end of the heap that closes
the list. `Tiled` is the invariant; the rest of the file is what the tag
macros of Model/Tags.lean compute in a tiled heap, one lemma a macro,
and what `SET_BLK` leaves behind.

The macros are read at a cursor `z` on the block list. The tag after the
block under the cursor is the next block's header or the closing word
(`nextTag`), the tag before it the previous block's footer or the
prologue's (`prevTag`): with these two the four coalescing cases, and
the two ends of the heap, are one case.
-/
import MallocLab.Lib.Blocks
import MallocLab.Model.Tags

namespace MallocLab.Proofs

open Mem Blocks Model

-- ============================================================ the invariant

theorem pro_aligned : 8 % 8 = 0 := rfl

/-- The prologue: a block of two tags and no payload, always in use. -/
def pro : Blk := ⟨8, true, pro_aligned, Nat.le_refl 8⟩

/-- The heap of `s` is tiled by `bs`: the prologue placed at `hp`, the
blocks after it up to the break, the word `e` in the last four bytes. -/
structure Tiled (hp e : Nat) (s : Machine) (bs : List Blk) : Prop where
  start : s.memStartBrk + 4 ≤ hp
  aligned : hp % 8 = 0
  brk : s.memBrk = hp + 8 + total bs
  max : s.memBrk ≤ s.memMaxAddr
  small : s.memMaxAddr ≤ s.memStartBrk + maxHeap
  tags : Tagged s.mem (placed hp (pro :: bs))
  last : rd 4 s.mem (s.memBrk - 4) = e

/-- The machine with an empty heap over `R`. `memInit` is such a machine;
so is any machine with the break reset. -/
def emptied (R : Region) (s : Machine) : Machine :=
  { s with
    memStartBrk := R.base
    memBrk := R.base
    memMaxAddr := R.base + maxHeap }

/-- The tag after the block under the cursor. -/
def nextTag (e : Nat) (z : Zip) : Nat :=
  match z.right with
  | [] => e
  | c :: _ => c.tag

/-- The tag at the end of a stretch of blocks after the prologue. -/
def lastTag (bs : List Blk) : Nat :=
  match bs.getLast? with
  | none => pro.tag
  | some c => c.tag

/-- The tag before the block under the cursor. -/
def prevTag (z : Zip) : Nat := lastTag z.left

variable {hp e : Nat} {s : Machine} {bs : List Blk} {z : Zip}

-- ====================================================== reading the tags

/-- Blocks are far smaller than their header words allow. -/
theorem Tiled.total_lt (h : Tiled hp e s bs) : total bs < maxHeap := by
  have := h.start
  have := h.brk
  have := h.max
  have := h.small
  omega

theorem Tiled.size_lt (h : Tiled hp e s z.blocks) :
    z.off + z.mid.size + total z.right < maxHeap := by
  have := h.total_lt
  simp only [Zip.blocks, total_append, total_cons] at this
  unfold Zip.off
  omega

/-- The break in cursor terms. -/
theorem Tiled.brk_eq (h : Tiled hp e s z.blocks) :
    s.memBrk = hp + 8 + z.off + z.mid.size + total z.right := by
  have := h.brk
  simp only [Zip.blocks, total_append, total_cons] at this
  unfold Zip.off
  omega

/-- The block under the cursor shows its tag at both ends. -/
theorem Tiled.mid_tags (h : Tiled hp e s z.blocks) :
    rd 4 s.mem (hp + 8 + z.off - 4) = z.mid.tag ∧
      rd 4 s.mem (hp + 8 + z.off + z.mid.size - 8) = z.mid.tag :=
  h.tags (hp + 8 + z.off, z.mid)
    (List.mem_cons_of_mem _ (z.mem_placed (hp + pro.size)))

theorem Tiled.next_tag (h : Tiled hp e s z.blocks) :
    rd 4 s.mem (hp + 8 + z.off + z.mid.size - 4) = nextTag e z := by
  obtain ⟨l, b, r⟩ := z
  have hbrk := h.brk_eq
  have hlast := h.last
  cases r with
  | nil =>
      rw [hbrk] at hlast
      exact hlast
  | cons c r =>
      have hc := h.tags (hp + 8 + total l + b.size, c) (by
        refine List.mem_cons_of_mem _ ?_
        simp [Zip.blocks, pro])
      exact hc.1

/-- The footer before any place between two blocks. -/
theorem Tiled.last_tag {l r : List Blk} (h : Tiled hp e s (l ++ r)) :
    rd 4 s.mem (hp + 8 + total l - 8) = lastTag l := by
  rcases l.eq_nil_or_concat with rfl | ⟨l, c, rfl⟩
  · exact (h.tags (hp, pro) List.mem_cons_self).2
  · have hc := h.tags (hp + 8 + total l, c) (by
      refine List.mem_cons_of_mem _ ?_
      simp [pro])
    have hpos := c.pos
    have haddr : hp + 8 + total (l ++ [c]) - 8
        = hp + 8 + total l + c.size - 8 := by
      simp only [total_append, total_cons, total_nil]
      omega
    simp only [lastTag, List.concat_eq_append, List.getLast?_concat, haddr]
    exact hc.2

theorem Tiled.prev_tag (h : Tiled hp e s z.blocks) :
    rd 4 s.mem (hp + 8 + z.off - 8) = prevTag z := h.last_tag

-- ========================================================= the accesses

/-- A word between the heap's start and the break. -/
theorem Tiled.access (h : Tiled hp e s bs) {a n : Nat}
    (hlo : s.memStartBrk ≤ a) (hhi : a + n ≤ s.memBrk) : Access s a n :=
  ⟨hlo, hhi, h.max⟩

/-- The size half of a tag word. -/
theorem getSize_ok {p w : Nat} (hacc : Access s p 4)
    (hw : rd 4 s.mem p = w) :
    (getSize p).run s = .ok (w / 8 * 8) s := by
  have hlt : w < 2 ^ 32 := hw ▸ rd_lt 4 s.mem p
  unfold getSize getWord
  rw [bind_ok (load_ok hacc), hw]
  rw [run_pure, land_mask (by decide) hlt]

/-- The used bit of a tag word. -/
theorem getAlloc_ok {p w : Nat} (hacc : Access s p 4)
    (hw : rd 4 s.mem p = w) : (getAlloc p).run s = .ok (w % 2) s := by
  unfold getAlloc getWord
  rw [bind_ok (load_ok hacc), hw]
  rw [run_pure, Nat.and_one_is_mod]

/-- The room of a block, by its header alone. -/
theorem blkAvalSize_hdr {p : Nat} {b : Blk} (hacc : Access s (p - 4) 4)
    (hw : rd 4 s.mem (p - 4) = b.tag) (hlt : b.size < 2 ^ 32) :
    (blkAvalSize p).run s = .ok b.room s := by
  have hpos := b.pos
  have hsize : (blkSize p).run s = .ok b.size s := by
    rw [← b.tag_div]
    exact getSize_ok hacc hw
  have hval : u32 (b.size + 2 ^ 32 - blkHdrSize - blkFtrSize) = b.room := by
    unfold u32 Blk.room blkHdrSize blkFtrSize
    omega
  unfold blkAvalSize
  rw [bind_ok hsize, run_pure, hval]

/-- The prologue shows its size. -/
theorem Tiled.proSize_ok (h : Tiled hp e s bs) :
    (blkSize hp).run s = .ok 8 s := by
  have hstart := h.start
  have hbrk := h.brk
  have := getSize_ok (h.access (a := hp - 4) (n := 4) (by omega) (by omega))
    (h.tags (hp, pro) List.mem_cons_self).1
  rwa [pro.tag_div] at this

/-- The prologue is in use. -/
theorem Tiled.proState_ok (h : Tiled hp e s bs) :
    (blkState hp).run s = .ok 1 s := by
  have hstart := h.start
  have hbrk := h.brk
  have := getAlloc_ok (h.access (a := hp - 4) (n := 4) (by omega) (by omega))
    (h.tags (hp, pro) List.mem_cons_self).1
  rwa [pro.tag_mod] at this

/-- The word that closes the heap. -/
theorem Tiled.endSize_ok (h : Tiled hp e s bs) :
    (blkSize s.memBrk).run s = .ok (e / 8 * 8) s := by
  have hstart := h.start
  have hbrk := h.brk
  exact getSize_ok (h.access (a := s.memBrk - 4) (n := 4) (by omega)
    (by omega)) h.last

/-- Its used bit. -/
theorem Tiled.endState_ok (h : Tiled hp e s bs) :
    (blkState s.memBrk).run s = .ok (e % 2) s := by
  have hstart := h.start
  have hbrk := h.brk
  exact getAlloc_ok (h.access (a := s.memBrk - 4) (n := 4) (by omega)
    (by omega)) h.last

-- ==================================================== the macros, in place

variable (h : Tiled hp e s z.blocks)
include h

private theorem hdr_access : Access s (hp + 8 + z.off - 4) 4 := by
  have := h.start
  have := h.brk_eq
  have := z.mid.pos
  exact h.access (by omega) (by omega)

private theorem next_access :
    Access s (hp + 8 + z.off + z.mid.size - 4) 4 := by
  have := h.start
  have := h.brk_eq
  have := z.mid.pos
  exact h.access (by omega) (by omega)

private theorem prev_access : Access s (hp + 8 + z.off - 8) 4 := by
  have := h.start
  have := h.brk_eq
  have := z.mid.pos
  exact h.access (by omega) (by omega)

theorem blkSize_ok : (blkSize (hp + 8 + z.off)).run s = .ok z.mid.size s := by
  rw [← z.mid.tag_div]
  exact getSize_ok (hdr_access h) h.mid_tags.1

theorem blkState_ok :
    (blkState (hp + 8 + z.off)).run s = .ok z.mid.used.toNat s := by
  rw [← z.mid.tag_mod]
  exact getAlloc_ok (hdr_access h) h.mid_tags.1

theorem blkAvalSize_ok :
    (blkAvalSize (hp + 8 + z.off)).run s = .ok z.mid.room s := by
  have hlt := h.size_lt
  have hmax := maxHeap_lt
  exact blkAvalSize_hdr (hdr_access h) h.mid_tags.1 (by omega)

theorem nextBlkp_ok :
    (nextBlkp (hp + 8 + z.off)).run s
      = .ok (hp + 8 + z.off + z.mid.size) s := by
  unfold nextBlkp
  rw [bind_ok (blkSize_ok h)]
  rfl

theorem nextHdrp_ok :
    (nextHdrp (hp + 8 + z.off)).run s
      = .ok (hp + 8 + z.off + z.mid.size - 4) s := by
  unfold nextHdrp
  rw [bind_ok (blkSize_ok h)]
  rfl

theorem nextBlkAlloc_ok :
    (nextBlkAlloc (hp + 8 + z.off)).run s = .ok (nextTag e z % 2) s := by
  unfold nextBlkAlloc
  rw [bind_ok (nextHdrp_ok h)]
  exact getAlloc_ok (next_access h) h.next_tag

theorem nextBlkSize_ok :
    (nextBlkSize (hp + 8 + z.off)).run s = .ok (nextTag e z / 8 * 8) s := by
  unfold nextBlkSize
  rw [bind_ok (nextHdrp_ok h)]
  exact getSize_ok (next_access h) h.next_tag

theorem prevBlkAlloc_ok :
    (prevBlkAlloc (hp + 8 + z.off)).run s = .ok (prevTag z % 2) s := by
  unfold prevBlkAlloc prevFtrp blkHdrSize blkFtrSize
  rw [Nat.sub_sub]
  exact getAlloc_ok (prev_access h) h.prev_tag

theorem prevBlkSize_ok :
    (prevBlkSize (hp + 8 + z.off)).run s = .ok (prevTag z / 8 * 8) s := by
  unfold prevBlkSize prevFtrp blkHdrSize blkFtrSize
  rw [Nat.sub_sub]
  exact getSize_ok (prev_access h) h.prev_tag

theorem prevBlkp_ok :
    (prevBlkp (hp + 8 + z.off)).run s
      = .ok (hp + 8 + z.off - prevTag z / 8 * 8) s := by
  unfold prevBlkp
  rw [bind_ok (prevBlkSize_ok h)]
  rfl

omit h

/-- The whole size of a block, as the calls compute it. -/
theorem u64_need {size : Nat} (h : need size < 2 ^ 64) :
    u64 (align size + blkHdrSize + blkFtrSize) = need size := by
  unfold need at h
  unfold u64 need blkHdrSize blkFtrSize
  omega

theorem need_u64 {size : Nat} (h : 1 ≤ size) (h' : size ≤ 2 ^ 32) :
    u64 (align size + blkHdrSize + blkFtrSize) = need size :=
  u64_need (by
    have := need_size h h'
    omega)

-- ============================================================== SET_BLK

/-- The packed word of a block is its tag. -/
theorem pack_eq_tag (b : Blk) : pack b.size b.used.toNat = b.tag := by
  have ha := b.aligned
  have hlt : b.used.toNat < 2 ^ 3 := by cases b.used <;> decide
  have := Nat.two_pow_add_eq_or_of_lt hlt (b.size / 8)
  unfold pack Blk.tag
  rw [show 2 ^ 3 * (b.size / 8) = b.size by omega] at this
  exact this.symm

/-- A word is cut as it is written. -/
theorem setWord_u32 (p v : Nat) : setWord p (u32 v) = setWord p v := by
  have hwr : ∀ m : Bytes, wr 4 m p (u32 v) = wr 4 m p v := fun _ => wr_mod
  unfold setWord store
  simp only [hwr]

/-- So is the size of a block. -/
theorem setBlk_u32 (p k : Nat) :
    setBlk p (u32 k) blkAlloc = setBlk p k blkAlloc := by
  have hpack : pack (u32 k) blkAlloc = u32 (pack k blkAlloc) := by
    unfold pack u32 blkAlloc
    rw [Nat.or_mod_two_pow]
  unfold setBlk
  rw [hpack]
  simp only [setWord_u32]

/-- The header `SET_BLK` writes first sends the footer to the block's
end. -/
private theorem setBlk_front {p : Nat} (b : Blk) (hp : 4 ≤ p)
    (hlo : s.memStartBrk ≤ p - 4) (hhi : p ≤ s.memBrk)
    (hmax : s.memBrk ≤ s.memMaxAddr) (hb : b.size < 2 ^ 32 - 1) :
    (setBlk p b.size b.used.toNat).run s
      = (setWord (p + b.size - 8) b.tag).run
        { s with mem := wr 4 s.mem (p - 4) b.tag } := by
  have hpos := b.pos
  have htag : b.tag < 256 ^ 4 := by
    have := b.tag_le
    omega
  have hhdr : Access s (p - 4) 4 := ⟨hlo, by omega, hmax⟩
  have hset : (setWord (blkHdrp p) (pack b.size b.used.toNat)).run s
      = .ok () { s with mem := wr 4 s.mem (p - 4) b.tag } := by
    rw [pack_eq_tag]
    exact store_ok _ hhdr
  -- the footer's place is read back from the header just written
  have hftr : (blkFtrp p).run { s with mem := wr 4 s.mem (p - 4) b.tag }
      = .ok (p + b.size - 8)
        { s with mem := wr 4 s.mem (p - 4) b.tag } := by
    have hsize : (blkSize p).run { s with mem := wr 4 s.mem (p - 4) b.tag }
        = .ok b.size { s with mem := wr 4 s.mem (p - 4) b.tag } := by
      rw [← b.tag_div]
      exact getSize_ok ⟨hlo, show p - 4 + 4 ≤ s.memBrk by omega, hmax⟩
        (rd_wr_of_lt htag)
    have hval : p + u32 (b.size + 2 ^ 32 - blkHdrSize - blkFtrSize)
        = p + b.size - 8 := by
      unfold u32 blkHdrSize blkFtrSize
      omega
    unfold blkFtrp blkAvalSize
    simp only [run_bind, hsize, run_pure, hval]
  unfold setBlk
  rw [bind_ok hset, bind_ok hftr, pack_eq_tag]

/-- `SET_BLK` stamps the block. -/
theorem setBlk_ok {p : Nat} (b : Blk) (hp : 4 ≤ p)
    (hlo : s.memStartBrk ≤ p - 4) (hhi : p + b.size - 4 ≤ s.memBrk)
    (hmax : s.memBrk ≤ s.memMaxAddr) (hb : b.size < 2 ^ 32 - 1) :
    (setBlk p b.size b.used.toNat).run s
      = .ok () { s with mem := stamp s.mem p b } := by
  have hpos := b.pos
  rw [setBlk_front b hp hlo (by omega) hmax hb]
  exact store_ok _ ⟨by simp only; omega, by simp only; omega, hmax⟩

/-- A block that ends past the storage gets its header, and no
footer. -/
theorem setBlk_past {p : Nat} (b : Blk) (hp : 4 ≤ p)
    (hlo : s.memStartBrk ≤ p - 4) (hhi : p ≤ s.memBrk)
    (hmax : s.memBrk ≤ s.memMaxAddr) (hb : b.size < 2 ^ 32 - 1)
    (hout : s.memMaxAddr < p + b.size - 4) :
    (setBlk p b.size b.used.toNat).run s
      = .error .fault { s with mem := wr 4 s.mem (p - 4) b.tag } := by
  rw [setBlk_front b hp hlo hhi hmax hb]
  refine store_fault fun hc => ?_
  have hend := hc.2
  simp only at hend
  omega

/-- `SET_BLK` within the blocks' extent. -/
theorem Tiled.setBlk_ok (h : Tiled hp e s bs) (m : Bytes) {o : Nat}
    (b : Blk) (hhi : o + b.size ≤ total bs) :
    (setBlk (hp + 8 + o) b.size b.used.toNat).run { s with mem := m }
      = .ok () { s with mem := stamp m (hp + 8 + o) b } := by
  have hstart := h.start
  have hbrk := h.brk
  have hlt := h.total_lt
  have hmax := maxHeap_lt
  exact Proofs.setBlk_ok (s := { s with mem := m }) b (by omega)
    (by simp only; omega) (by simp only; omega) h.max (by omega)

/-- `NEXT_BLKP` of a block just stamped. -/
theorem Tiled.nextBlkp_stamped (h : Tiled hp e s bs) (m : Bytes) {o : Nat}
    (b : Blk) (hhi : o + b.size ≤ total bs) :
    (nextBlkp (hp + 8 + o)).run { s with mem := stamp m (hp + 8 + o) b }
      = .ok (hp + 8 + o + b.size)
        { s with mem := stamp m (hp + 8 + o) b } := by
  have hstart := h.start
  have hbrk := h.brk
  have hlt := h.total_lt
  have hmax := maxHeap_lt
  have hpos := b.pos
  have hstamp := stamp_tagged (m := m) (p := hp + 8 + o) (b := b)
    (by omega) (by omega)
  have hacc : Access s (hp + 8 + o - 4) 4 := h.access (by omega) (by omega)
  have hsize : (blkSize (hp + 8 + o)).run
      { s with mem := stamp m (hp + 8 + o) b }
      = .ok b.size { s with mem := stamp m (hp + 8 + o) b } := by
    rw [← b.tag_div]
    exact getSize_ok (hacc.withMem _) (tagged_cons.1 hstamp).1.1
  unfold nextBlkp
  rw [bind_ok hsize]
  rfl

/-- `SET_BLK` for the front of a stretch of `t` bytes and, if the front
is not all of it, for the rest. -/
theorem Tiled.cut_ok (h : Tiled hp e s bs) (m : Bytes) {o n t : Nat}
    (hn : n % 8 = 0) (hn' : 8 ≤ n) (ht : t % 8 = 0) (hnt : n ≤ t)
    (hhi : o + t ≤ total bs) :
    ∃ s₁, (setBlk (hp + 8 + o) n blkAlloc).run { s with mem := m }
        = .ok () s₁ ∧
      (t = n → s₁ = { s with mem := stampCut m (hp + 8 + o) n t }) ∧
      (t ≠ n → (nextBlkp (hp + 8 + o)).run s₁ = .ok (hp + 8 + o + n) s₁ ∧
        (setBlk (hp + 8 + o + n) (t - n) blkFree).run s₁
          = .ok () { s with mem := stampCut m (hp + 8 + o) n t }) := by
  have hb := Blk.of_size true hn hn'
  have hset := h.setBlk_ok m (o := o) (Blk.of n true) (by omega)
  have hnext := h.nextBlkp_stamped m (o := o) (Blk.of n true) (by omega)
  rw [hb] at hset hnext
  refine ⟨_, hset, fun he => ?_, fun hne => ⟨hnext, ?_⟩⟩
  · unfold stampCut
    rw [if_pos he]
  · have hc := Blk.of_size (n := t - n) false (by omega) (by omega)
    have hset' := h.setBlk_ok (stamp m (hp + 8 + o) (Blk.of n true))
      (o := o + n) (Blk.of (t - n) false) (by omega)
    rw [hc, ← Nat.add_assoc] at hset'
    unfold stampCut stampPair
    rw [if_neg hne, hb]
    exact hset'

-- ============================================================= the frames

/-- Tilings are kept by a change off the tags and the closing word. -/
theorem Tiled.frame {m : Bytes} (h : Tiled hp e s bs)
    (hm : ∀ x ∈ placed hp (pro :: bs), Set.EqOn m s.mem (tagBytes x.1 x.2))
    (hl : Set.EqOn m s.mem (Set.Ico (s.memBrk - 4) s.memBrk)) :
    Tiled hp e { s with mem := m } bs where
  start := h.start
  aligned := h.aligned
  brk := h.brk
  max := h.max
  small := h.small
  tags := h.tags.frame (fun x hx => by
    have := (placed_bounds (b := x.2) hx).1
    have := h.start
    omega) hm
  last := by
    have hbrk := h.brk
    rw [← h.last]
    exact rd_congr fun x hx => hl ⟨hx.1, by
      have := hx.2
      simp only at this
      omega⟩

/-- The blocks before one of them tile the heap that ends where it starts.
Its header is the word below the break. -/
theorem Tiled.below {t : Machine} {l r : List Blk} {c : Blk}
    (h : Tiled hp e s (l ++ c :: r))
    (hstart : t.memStartBrk = s.memStartBrk)
    (hmax : t.memMaxAddr = s.memMaxAddr)
    (hbrk : t.memBrk = hp + 8 + total l)
    (hm : ∀ x < hp + 8 + total l, t.mem x = s.mem x) :
    Tiled hp c.tag t l := by
  have hs := h.start
  have hend := h.brk
  have hlim := h.max
  rw [total_append, total_cons] at hend
  refine ⟨by omega, h.aligned, hbrk, by omega, ?_, fun x hx => ?_, ?_⟩
  · rw [hstart, hmax]
    exact h.small
  · have hbd := placed_bounds hx
    rw [total_cons] at hbd
    have hpos := x.2.pos
    have htags := h.tags x (by
      rw [← List.cons_append, placed_append]
      exact List.mem_append_left _ hx)
    have hpro : pro.size = 8 := rfl
    constructor
    · rw [← htags.1]
      exact rd_congr fun y hy => hm y (by have := hy.2; omega)
    · rw [← htags.2]
      exact rd_congr fun y hy => hm y (by have := hy.2; omega)
  · have htags := h.tags (hp + 8 + total l, c) (by
      rw [← List.cons_append, placed_append]
      refine List.mem_append_right _ ?_
      rw [total_cons, ← Nat.add_assoc]
      exact List.mem_cons_self)
    rw [hbrk, ← htags.1]
    exact rd_congr fun y hy => hm y (by have := hy.2; omega)

/-- Replacing a stretch of blocks by another of the same extent keeps
the heap tiled, if the new stretch is tagged. -/
theorem Tiled.replace {m : Bytes} {l xs ys r : List Blk}
    (h : Tiled hp e s (l ++ xs ++ r)) (hlen : total ys = total xs)
    (hm : Set.EqOn m s.mem (Set.Ico (hp + 8 + total l - 4)
      (hp + 8 + total l + total xs - 4))ᶜ)
    (hys : Tagged m (placed (hp + 8 + total l) ys)) :
    Tiled hp e { s with mem := m } (l ++ ys ++ r) where
  start := h.start
  aligned := h.aligned
  brk := by
    rw [h.brk]
    simp only [total_append, hlen]
  max := h.max
  small := h.small
  tags := by
    have hstart := h.start
    have hpro : total (pro :: l) = 8 + total l := by simp [pro]
    have : Tagged m (placed hp (pro :: l ++ ys ++ r)) := Tagged.replace h.tags
      (by omega) hlen (by
        rw [hpro]
        intro x hx
        refine hm fun hc => hx ⟨?_, ?_⟩
        · have := hc.1
          omega
        · have := hc.2
          omega) (by
        rw [hpro, ← Nat.add_assoc]
        exact hys)
    exact this
  last := by
    have hbrk := h.brk
    rw [← h.last]
    refine rd_congr fun x hx => hm fun hc => ?_
    have h1 := hx.1
    have h2 := hc.2
    simp only [total_append] at hbrk h1
    omega

/-- The blocks lie behind the prologue. -/
theorem placed_behind {o : Nat} {b : Blk} (h : (o, b) ∈ placed 0 bs) :
    (hp + 8 + o, b) ∈ placed hp (pro :: bs) := by
  refine List.mem_cons_of_mem _ (mem_placed_at.2 ⟨o, ?_, h⟩)
  show hp + 8 + o = o + (hp + 8)
  omega

/-- The bytes of a payload may change freely. -/
theorem Tiled.write {o : Nat} {b : Blk} {m : Bytes} (h : Tiled hp e s bs)
    (hb : (o, b) ∈ placed 0 bs)
    (hm : ∀ x, x < hp + 8 + o ∨ hp + 8 + o + b.room ≤ x →
      m x = s.mem x) : Tiled hp e { s with mem := m } bs := by
  have hstart := h.start
  have hbrk := h.brk
  have hbd := placed_bounds hb
  have hr := b.room_add
  refine h.frame (fun y hy x hx => hm x ?_) fun x hx => hm x (Or.inr ?_)
  · exact tagBytes_not_payload (by omega) (b := y.2) hy (placed_behind hb) hx
  · have hlo := hx.1
    omega

/-- Stamping one block over a stretch of the same extent. -/
theorem Tiled.restamp {l xs r : List Blk} {b : Blk}
    (h : Tiled hp e s (l ++ xs ++ r)) (hb : b.size = total xs) :
    Tiled hp e { s with mem := stamp s.mem (hp + 8 + total l) b }
      (l ++ [b] ++ r) := by
  have hpos := b.pos
  have hlt := h.total_lt
  have hmax := maxHeap_lt
  simp only [total_append] at hlt
  refine h.replace (by simp [hb]) (fun x hx => ?_)
    (stamp_tagged (by omega) (by omega))
  refine stamp_of_out (by omega) fun hc => hx ?_
  rcases hc with hc | hc
  · exact ⟨by omega, by omega⟩
  · exact ⟨by omega, by omega⟩

/-- Stamping a block over itself. -/
theorem Tiled.restamp_same {o : Nat} {b : Blk} (h : Tiled hp e s bs)
    (hb : (o, b) ∈ placed 0 bs) :
    Tiled hp e { s with mem := stamp s.mem (hp + 8 + o) b } bs := by
  obtain ⟨z, rfl, rfl, rfl⟩ := Zip.of_placed hb
  have hsplit : z.blocks = z.left ++ [z.mid] ++ z.right := by
    simp [Zip.blocks]
  rw [hsplit] at h ⊢
  exact h.restamp (by simp)

/-- Stamping two blocks over a stretch of the same extent. -/
theorem Tiled.restampPair {l xs r : List Blk} {b c : Blk}
    (h : Tiled hp e s (l ++ xs ++ r)) (hbc : b.size + c.size = total xs) :
    Tiled hp e { s with mem := stampPair s.mem (hp + 8 + total l) b c }
      (l ++ [b, c] ++ r) := by
  have hbpos := b.pos
  have hcpos := c.pos
  have hlt := h.total_lt
  have hmax := maxHeap_lt
  simp only [total_append] at hlt
  refine h.replace (by simp [hbc]) (fun x hx => ?_)
    (stampPair_tagged (by omega) (by omega) (by omega))
  have hout : ∀ q d, hp + 8 + total l ≤ q →
      q + d.size ≤ hp + 8 + total l + total xs → x ∉ tagBytes q d := by
    intro q d hlo hhi hc
    have := d.pos
    refine hx ?_
    rcases hc with hc | hc
    · exact ⟨by omega, by omega⟩
    · exact ⟨by omega, by omega⟩
  unfold stampPair
  rw [stamp_of_out (by omega) (hout _ _ (by omega) (by omega)),
    stamp_of_out (by omega) (hout _ _ (by omega) (by omega))]

/-- Cutting a stretch of blocks in two, whatever it held. -/
theorem Tiled.recut {m : Bytes} {l xs r : List Blk} {n t : Nat}
    (h : Tiled hp e s (l ++ xs ++ r)) (ht : total xs = t) (hn : n % 8 = 0)
    (hn' : 8 ≤ n) (hnt : n ≤ t)
    (hm : Set.EqOn m s.mem
      (Set.Ico (hp + 8 + total l - 4) (hp + 8 + total l + t - 4))ᶜ) :
    Tiled hp e { s with mem := stampCut m (hp + 8 + total l) n t }
      (l ++ cut n t ++ r) := by
  have hal := total_aligned xs
  have hlt := h.total_lt
  have hmax := maxHeap_lt
  simp only [total_append] at hlt
  subst ht
  refine h.replace (total_cut hn hn' hal hnt) (fun x hx => ?_)
    (stampCut_tagged (by omega) hn hn' hal hnt (by omega))
  refine (stampCut_of_out (by omega) hn hn' hal hnt ?_ ?_ ?_).trans (hm hx)
  all_goals
    have hx' : ¬ (hp + 8 + total l - 4 ≤ x
      ∧ x < hp + 8 + total l + total xs - 4) := hx
    omega

/-- Moving the break up to the end of a block that takes the place of the
last blocks. -/
theorem Tiled.regrow {e' : Nat} {m : Bytes} {b : Blk} {l xs : List Blk}
    (h : Tiled hp e s (l ++ xs))
    (hfit : hp + 8 + total l + b.size ≤ s.memMaxAddr)
    (hm : Set.EqOn m s.mem (Set.Iio (hp + 8 + total l - 4)))
    (hb : Tagged m [(hp + 8 + total l, b)])
    (hl : rd 4 m (hp + 8 + total l + b.size - 4) = e') :
    Tiled hp e' { s with memBrk := hp + 8 + total l + b.size, mem := m }
      (l ++ [b]) where
  start := h.start
  aligned := h.aligned
  brk := by
    simp only [total_append, total_cons, total_nil]
    omega
  max := hfit
  small := h.small
  tags := by
    have hstart := h.start
    have hsplit : ∀ ys, placed hp (pro :: (l ++ ys))
        = placed hp (pro :: l) ++ placed (hp + 8 + total l) ys := by
      intro ys
      simp [pro]
    have htags := h.tags
    rw [hsplit, tagged_append] at htags
    rw [hsplit, tagged_append]
    refine ⟨htags.1.frame (fun x hx => ?_) (fun x hx y hy => hm ?_), hb⟩
    · have := (placed_bounds (b := x.2) hx).1
      omega
    · have hbd := placed_bounds (b := x.2) hx
      have hpos := x.2.pos
      have hpro : total (pro :: l) = 8 + total l := by simp [pro]
      show y < hp + 8 + total l - 4
      rcases hy with hy | hy <;> omega
  last := hl

/-- Moving the break up over a new block, whose tags and closing word
are in place. -/
theorem Tiled.extend {e' : Nat} {m : Bytes} {b : Blk}
    (h : Tiled hp e s bs) (hfit : s.memBrk + b.size ≤ s.memMaxAddr)
    (hm : Set.EqOn m s.mem (Set.Iio (s.memBrk - 4)))
    (hb : Tagged m [(s.memBrk, b)])
    (hl : rd 4 m (s.memBrk + b.size - 4) = e') :
    Tiled hp e' { s with memBrk := s.memBrk + b.size, mem := m }
      (bs ++ [b]) := by
  have hbrk := h.brk
  rw [hbrk] at hfit hm hb hl ⊢
  rw [← bs.append_nil] at h
  exact h.regrow hfit hm hb hl

/-- A merge, once stamped. -/
theorem Tiled.merge (h : Tiled hp e s z.blocks) :
    Tiled hp e { s with
        mem := stamp s.mem (hp + 8 + z.merge.off) z.merge.mid }
      z.merge.blocks := by
  obtain ⟨l, xs, ys, r, hzl, hzr, -, hml, hmr, -, hsize⟩ := z.merge_shape
  have hsplit : z.blocks = l ++ (xs ++ z.mid :: ys) ++ r := by
    simp [Zip.blocks, hzl, hzr]
  have hmerge : z.merge.blocks = l ++ [z.merge.mid] ++ r := by
    simp [Zip.blocks, hml, hmr]
  rw [hsplit] at h
  rw [hmerge, Zip.off, hml]
  exact h.restamp hsize

end MallocLab.Proofs
