/-
Freeing in memory: unlinking, coalescing and filing, up to
`freelist_insert`, refine the abstract `release`.

`Shape R s bs B F` is the heap between two steps of a call: tiled by
`bs`, with the free blocks of `F` filed in `B`. In the middle of a call
`F` is smaller than the free blocks of `bs`, because the block in hand
is filed nowhere.

Every lemma here has the same three parts: the call returns, the shape
it leaves, and the bytes it kept. The bytes kept are stated over the
payloads of the blocks in use beside the block in hand, which no step
touches: links go into the scratch, tags into tag bytes.
-/
import MallocLab.Proofs.Tiled
import MallocLab.Proofs.Segregate.Filed

namespace MallocLab.Proofs.Segregate

open Mem Blocks Model Model.Segregate Spec.Segregated

/-- The heap of `s` between two steps of a call. -/
structure Shape (R : Region) (s : Machine) (bs : List Blk) (B : Bins)
    (F : Set (Nat × Blk)) : Prop where
  start : s.memStartBrk = R.base
  max : s.memMaxAddr = R.base + maxHeap
  table : s.freelistTable = R.base
  listp : s.heapListp = R.base + 96
  strays : s.strays = []
  tiled : Tiled (R.base + 96) 1 s bs
  filed : Filed R s.mem bs B F

/-- The payload bytes of the blocks of `U`. -/
abbrev payload (R : Region) : Set (Nat × Blk) → Set Nat :=
  payloadAt (R.base + 96 + 8)

variable {R : Region} {s : Machine} {bs : List Blk} {B : Bins}
  {F : Set (Nat × Blk)} {m : Bytes} {z : Zip}

-- ===================================================== what writes keep

/-- An offset's block is placed at its address. -/
theorem placed_addr {o : Nat} {b : Blk} (h : (o, b) ∈ placed 0 bs) :
    (addr R o, b) ∈ placed (R.base + 96) (pro :: bs) := by
  refine List.mem_cons_of_mem _ (mem_placed_at.2 ⟨o, ?_, h⟩)
  show addr R o = o + (R.base + 96 + 8)
  unfold addr
  omega

/-- The payloads of blocks in use are off the scratch. -/
theorem payload_off_scratch (hsub : F ⊆ marked false 0 bs) :
    payload R (marked true 0 bs) ⊆ (scratch R F)ᶜ := by
  rintro x hx (⟨h1, h2⟩ | ⟨⟨o, b⟩, hb, h1, h2⟩)
  · obtain ⟨y, -, h3, -⟩ := hx
    omega
  · have ⟨hpl, hfree⟩ := hsub hb
    have hne : b.used ≠ true := by
      rw [show b.used = false from hfree]
      decide
    have := payloadAt_disjoint hpl hne hx
    simp only [addr] at h1 h2
    omega

/-- Writes in the scratch keep the tiling. -/
theorem tiled_scribble (h : Tiled (R.base + 96) 1 s bs)
    (hsub : F ⊆ marked false 0 bs)
    (hm : Set.EqOn m s.mem (scratch R F)ᶜ) :
    Tiled (R.base + 96) 1 { s with mem := m } bs := by
  have hbrk := h.brk
  refine h.frame ?_ ?_
  · rintro ⟨q, b⟩ hq x hx
    refine hm ?_
    rintro (⟨h1, h2⟩ | ⟨⟨o, c⟩, hc, h1, h2⟩)
    · have := placed_bounds hq
      have := b.pos
      rcases hx with hx | hx <;> simp only at hx this <;> omega
    · have := tagBytes_not_payload (by omega) hq
        (placed_addr (hsub hc).1) hx
      simp only at h1 h2
      omega
  · intro x hx
    refine hm ?_
    rintro (⟨h1, h2⟩ | ⟨⟨o, c⟩, hc, h1, h2⟩)
    · have := hx.1
      omega
    · have := (placed_bounds (hsub hc).1).2.1
      have := c.room_add
      have := hx.1
      unfold addr at *
      simp only at h1 h2 this
      omega

/-- What is kept off the lists one to ten is kept off the scratch. -/
theorem off_scratch {m' : Bytes} (hm : Set.EqOn m m' (listed R F)ᶜ) :
    Set.EqOn m m' (scratch R F)ᶜ :=
  hm.mono (Set.compl_subset_compl.2 listed_sub)

/-- A link of a filed block is written in the scratch. -/
theorem wr_node {m' : Bytes} {o a v : Nat} {b : Blk} (hb : (o, b) ∈ F)
    (hlo : addr R o ≤ a)
    (hhi : a + 8 ≤ addr R o + b.room)
    (hm : Set.EqOn m m' (scratch R F)ᶜ) :
    Set.EqOn (wr 8 m a v) m' (scratch R F)ᶜ := by
  intro x hx
  have hout : x < a ∨ a + 8 ≤ x := by
    by_contra hc
    exact hx (Or.inr ⟨_, hb, by simp only; omega, by simp only; omega⟩)
  rw [wr_of_out hout]
  exact hm hx

/-- So is a cell of the table. -/
theorem wr_slot {m' : Bytes} {k v : Nat} (hk : k ≤ 10)
    (hm : Set.EqOn m m' (scratch R F)ᶜ) :
    Set.EqOn (wr 8 m (slot R k) v) m' (scratch R F)ᶜ := by
  intro x hx
  have hout : x < slot R k ∨ slot R k + 8 ≤ x := by
    by_contra hc
    unfold slot at hc
    exact hx (Or.inl (by omega))
  rw [wr_of_out hout]
  exact hm hx

/-- A new memory with its tiling and its lists. -/
theorem Shape.withMem {bs' : List Blk} {B' : Bins} {F' : Set (Nat × Blk)}
    (h : Shape R s bs B F)
    (ht : Tiled (R.base + 96) 1 { s with mem := m } bs')
    (hf : Filed R m bs' B' F') :
    Shape R { s with mem := m } bs' B' F' where
  start := h.start
  max := h.max
  table := h.table
  listp := h.listp
  strays := h.strays
  tiled := ht
  filed := hf

/-- The heap proper may be accessed. -/
theorem Shape.access (h : Shape R s bs B F) {a n : Nat}
    (hlo : R.base ≤ a) (hhi : a + n ≤ R.base + 104 + total bs) :
    Access s a n := by
  have := h.start
  have := h.tiled.brk
  exact h.tiled.access (by omega) (by omega)

/-- Both link words of a filed block may be accessed, if it has them. -/
theorem Shape.block_access (h : Shape R s bs B F) {o a n : Nat} {b : Blk}
    (hb : (o, b) ∈ placed 0 bs) (hlo : addr R o ≤ a)
    (hhi : a + n ≤ addr R o + b.room) : Access s a n := by
  have := (placed_bounds hb).2.1
  have := b.room_add
  unfold addr at *
  exact h.access (by omega) (by omega)

/-- `SET_BLK` within the blocks' extent. -/
theorem Shape.setBlk_ok (h : Shape R s bs B F) (m : Bytes) {o : Nat}
    (b : Blk) (hhi : o + b.size ≤ total bs) :
    (setBlk (addr R o) b.size b.used.toNat).run { s with mem := m }
      = .ok () { s with mem := stamp m (addr R o) b } :=
  h.tiled.setBlk_ok m b hhi

/-- `NEXT_BLKP` of a block just stamped. -/
theorem Shape.nextBlkp_ok (h : Shape R s bs B F) (m : Bytes) {o : Nat}
    (b : Blk) (hhi : o + b.size ≤ total bs) :
    (nextBlkp (addr R o)).run { s with mem := stamp m (addr R o) b }
      = .ok (addr R (o + b.size))
        { s with mem := stamp m (addr R o) b } := by
  have := h.tiled.nextBlkp_stamped m b hhi
  rwa [Nat.add_assoc (R.base + 96 + 8)] at this

-- =========================================================== unlinking

/-- A list node, as the words at it show. -/
theorem Shape.links_at (h : Shape R s bs B F) {o : Nat} {b : Blk}
    (hb : (o, b) ∈ F) (hsz : 16 < b.size) :
    (rd 8 s.mem (addr R o + 8) = slot R (cls b) ∨
      ∃ o' b', (o', b') ∈ F ∧ 16 ≤ b'.room ∧
        rd 8 s.mem (addr R o + 8) = addr R o') ∧
    (rd 8 s.mem (addr R o) = 0 ∨
      ∃ o' b', (o', b') ∈ F ∧ 16 ≤ b'.room ∧
        rd 8 s.mem (addr R o) = addr R o') := by
  have hcls := h.filed.cls_range (h.filed.sub hb).1 hsz
  have hmem : o ∈ B (cls b) := (h.filed.files.mem _ _).2 ⟨b, hb, rfl⟩
  obtain ⟨xs, ys, hsplit⟩ := List.append_of_mem hmem
  have hlinked := h.filed.links _ hcls.1 hcls.2
  have hnode : ∀ o' ∈ B (cls b), ∃ b', (o', b') ∈ F ∧ 16 ≤ b'.room := by
    intro o' ho'
    obtain ⟨b', hb', -, hr⟩ := h.filed.node hcls.1 ho'
    exact ⟨b', hb', hr⟩
  rw [hsplit] at hnode
  rw [hsplit, List.map_append, List.map_cons] at hlinked
  constructor
  · rw [hlinked.prev_eq]
    rcases xs.eq_nil_or_concat with rfl | ⟨xs, o', rfl⟩
    · exact Or.inl rfl
    · obtain ⟨b', hb', hr⟩ := hnode o' (by simp)
      exact Or.inr ⟨o', b', hb', hr, by simp⟩
  · rw [hlinked.next_eq]
    cases ys with
    | nil => exact Or.inl rfl
    | cons o' ys =>
        obtain ⟨b', hb', hr⟩ := hnode o' (by simp)
        exact Or.inr ⟨o', b', hb', hr, rfl⟩

/-- `FREELIST_DEL_BLK` unfiles the block under the cursor. -/
theorem freelistDelBlk_ok (h : Shape R s z.blocks B F)
    (hz : (z.off, z.mid) ∈ F) :
    ∃ m, (freelistDelBlk (addr R z.off)).run s
        = .ok () { s with mem := m } ∧
      Shape R { s with mem := m } z.blocks (B.drop cls z.off z.mid)
        (F \ {(z.off, z.mid)}) ∧
      Set.EqOn m s.mem (listed R F)ᶜ := by
  have hbd := h.filed.bounds hz
  have hpl := (h.filed.sub hz).1
  have hal := z.mid.aligned
  have hr := z.mid.room_add
  have hsize : (blkSize (addr R z.off)).run s = .ok z.mid.size s :=
    blkSize_ok h.tiled
  unfold freelistDelBlk
  rw [bind_ok hsize]
  by_cases hsz : z.mid.size = 16
  · refine ⟨s.mem, ?_, ?_, fun x _ => rfl⟩
    · rw [if_neg (by rw [hsz]; decide)]
      rfl
    · exact h.withMem h.tiled (h.filed.skip hz hsz)
  · have hgt : z.mid.size > blkMinSize := by
      unfold blkMinSize blkHdrSize alignment blkFtrSize
      omega
    obtain ⟨hfiled, hoff⟩ := h.filed.unlink hz (by omega)
    have hlo : Access s (addr R z.off) 8 :=
      h.block_access hpl (by omega) (by omega)
    have hhi : Access s (addr R z.off + 8) 8 :=
      h.block_access hpl (by omega) (by omega)
    obtain ⟨hprev, hnext⟩ := h.links_at hz (by omega)
    refine ⟨Mem.unlink s.mem (addr R z.off), ?_,
      h.withMem (tiled_scribble h.tiled h.filed.sub (off_scratch hoff))
        hfiled, hoff⟩
    rw [if_pos hgt]
    unfold Mem.unlink
    generalize hp : rd 8 s.mem (addr R z.off + 8) = prevp at hprev ⊢
    generalize hn : rd 8 s.mem (addr R z.off) = nextp at hnext ⊢
    have hprevp : (prevFreeBlkp (addr R z.off)).run s = .ok prevp s := by
      rw [← hp]
      exact load_ok hhi
    have hnextp : (nextFreeBlkp (addr R z.off)).run s = .ok nextp s := by
      rw [← hn]
      exact load_ok hlo
    have haccp : Access s prevp 8 := by
      rcases hprev with rfl | ⟨o', b', hb', hr', rfl⟩
      · have := fltIndexOf_le z.mid.room
        unfold slot cls
        exact h.access (by omega) (by omega)
      · exact h.block_access (h.filed.sub hb').1 (by omega) (by omega)
    have hset : (setNextFreeBlk prevp nextp).run s
        = .ok () { s with mem := wr 8 s.mem prevp nextp } :=
      store_ok _ haccp
    rw [bind_ok hprevp, bind_ok hnextp, bind_ok hset]
    rcases hnext with rfl | ⟨o', b', hb', hr', rfl⟩
    · rfl
    · have hpos : 0 < addr R o' := by
        unfold addr
        omega
      have hacc : Access s (addr R o' + 8) 8 :=
        h.block_access (h.filed.sub hb').1 (by omega) (by omega)
      rw [if_pos (by omega), pointBack_pos hpos]
      exact store_ok _ ⟨hacc.lo, hacc.hi, hacc.brk⟩

-- ========================================================== the tag writes

/-- Tag bytes are past the table and in nobody's payload. -/
theorem tagBytes_out {o x : Nat} {b : Blk} (hb : (o, b) ∈ placed 0 bs)
    (hx : x ∈ tagBytes (addr R o) b) :
    R.base + 88 ≤ x ∧ ∀ y ∈ placed 0 bs,
      x < addr R y.1 ∨ addr R y.1 + y.2.room ≤ x := by
  refine ⟨?_, fun y hy => ?_⟩
  · have := b.pos
    unfold addr at hx
    rcases hx with hx | hx <;> omega
  · exact tagBytes_not_payload (p := R.base + 96) (by have := R.pos; omega)
      (placed_addr hb) (placed_addr hy) hx

/-- Stamping a placed block keeps the free lists' bytes. -/
theorem stamp_scratch {o : Nat} {b : Blk} (hb : (o, b) ∈ placed 0 bs)
    (hsub : F ⊆ marked false 0 bs) :
    Set.EqOn (stamp m (addr R o) b) m (scratch R F) := by
  intro x hx
  refine stamp_of_out (by unfold addr; omega) fun hc => ?_
  obtain ⟨hlo, hpay⟩ := tagBytes_out hb hc
  rcases hx with ⟨h1, h2⟩ | ⟨y, hy, h1, h2⟩
  · omega
  · have := hpay y (hsub hy).1
    omega

/-- Stamping a placed block keeps every payload. -/
theorem stamp_payload {u : Bool} {o : Nat} {b : Blk}
    (hb : (o, b) ∈ placed 0 bs) :
    Set.EqOn (stamp m (addr R o) b) m (payload R (marked u 0 bs)) := by
  intro x hx
  refine stamp_of_out (by unfold addr; omega) fun hc => ?_
  obtain ⟨y, hy, h1, h2⟩ := hx
  have := (tagBytes_out hb hc).2 y hy.1
  unfold addr at this
  omega

-- ========================================================== coalescing

/-- The next block, if free, is unfiled and its size added. -/
theorem coalesceNext_ok (h : Shape R s z.blocks B (z.sides false)) :
    ∃ m, (coalesceNext (addr R z.off) z.mid.size).run s
        = .ok z.absorbNext.mid.size { s with mem := m } ∧
      Shape R { s with mem := m } z.blocks (B.dropNext cls z)
        (z.absorbNext.sides false) ∧
      Set.EqOn m s.mem (listed R (z.sides false))ᶜ := by
  have halloc : (nextBlkAlloc (addr R z.off)).run s
      = .ok (nextTag 1 z % 2) s := nextBlkAlloc_ok h.tiled
  unfold coalesceNext
  rw [bind_ok halloc]
  obtain ⟨l, b, r⟩ := z
  cases r with
  | nil => exact ⟨s.mem, rfl, h, fun x _ => rfl⟩
  | cons c r =>
      have hstate : nextTag 1 ⟨l, b, c :: r⟩ % 2 = c.used.toNat := c.tag_mod
      rw [hstate]
      cases hc : c.used with
      | true =>
          refine ⟨s.mem, ?_, ?_, fun x _ => rfl⟩
          · simp only [Zip.absorbNext, hc, if_true]
            rfl
          · simp only [Zip.absorbNext, Bins.dropNext, hc, if_true]
            exact h
      | false =>
          -- the cursor on the next block
          have hblocks : Zip.blocks ⟨l, b, c :: r⟩
              = Zip.blocks ⟨l ++ [b], c, r⟩ := by simp [Zip.blocks]
          have hoff : Zip.off ⟨l ++ [b], c, r⟩ = total l + b.size := by
            simp [Zip.off]
          have hmem : (total l + b.size, c)
              ∈ Zip.sides false ⟨l, b, c :: r⟩ :=
            Or.inr ⟨by simp [Zip.off], hc⟩
          have hnext : (nextBlkp (addr R (total l))).run s
              = .ok (addr R (Zip.off ⟨l ++ [b], c, r⟩)) s := by
            rw [hoff]
            have := nextBlkp_ok h.tiled
            simp only [Zip.off] at this
            simpa only [addr, Nat.add_assoc] using this
          have hc' := h
          rw [hblocks] at hc'
          obtain ⟨m, hdel, hshape, hm⟩ := freelistDelBlk_ok hc' (by
            rw [hoff]
            exact hmem)
          rw [hoff, Zip.sides_next hc, ← hblocks] at hshape
          refine ⟨m, ?_, ?_, hm⟩
          · have hsize : (nextBlkSize (addr R (total l))).run
                { s with mem := m } = .ok c.size { s with mem := m } := by
              have := nextBlkSize_ok (z := ⟨l, b, c :: r⟩) hshape.tiled
              simp only [nextTag, c.tag_div] at this
              exact this
            have hlt := Tiled.size_lt (z := ⟨l, b, c :: r⟩) hshape.tiled
            have hmax := maxHeap_lt
            simp only [total_cons] at hlt
            have hjoin : (Zip.absorbNext ⟨l, b, c :: r⟩).mid.size
                = u32 (b.size + c.size) := by
              unfold u32
              rw [Nat.mod_eq_of_lt (by omega)]
              simp [Zip.absorbNext, hc]
            rw [hjoin]
            show EStateM.run (do
              freelistDelBlk (← nextBlkp (addr R (total l)))
              pure (u32 (b.size + (← nextBlkSize (addr R (total l))))))
              s = _
            rw [bind_ok hnext, bind_ok hdel, bind_ok hsize, run_pure]
          · simp only [Zip.absorbNext, Bins.dropNext, hc,
              Bool.false_eq_true, if_false]
            exact hshape

/-- A free previous block is taken in, and off its list. -/
private theorem coalescePrev_free {l r r' : List Blk} {b b' c : Blk}
    (hlt : total l + c.size + b'.size < maxHeap) (hc : c.used = false)
    (h : Shape R s (Zip.blocks ⟨l ++ [c], b, r⟩) B
      (Zip.sides false ⟨l ++ [c], b', r'⟩)) :
    ∃ m, (coalescePrev (addr R (total l + c.size)) b'.size).run s
        = .ok ((c.join b').size, addr R (total l)) { s with mem := m } ∧
      Shape R { s with mem := m } (Zip.blocks ⟨l ++ [c], b, r⟩)
        (B.drop cls (total l) c) (Zip.sides false ⟨l, c.join b', r'⟩) ∧
      Set.EqOn m s.mem
        (listed R (Zip.sides false ⟨l ++ [c], b', r'⟩))ᶜ := by
  have htag : prevTag ⟨l ++ [c], b, r⟩ = c.tag := by simp [prevTag, lastTag]
  have hoff : Zip.off ⟨l ++ [c], b, r⟩ = total l + c.size := by
    simp [Zip.off]
  -- the cursor on the previous block
  have hblocks : Zip.blocks ⟨l ++ [c], b, r⟩
      = Zip.blocks ⟨l, c, b :: r⟩ := by simp [Zip.blocks]
  have hmem : (total l, c) ∈ Zip.sides false ⟨l ++ [c], b', r'⟩ :=
    Or.inl ⟨by simp, hc⟩
  have hstate : (prevBlkAlloc (addr R (total l + c.size))).run s
      = .ok 0 s := by
    have hread := prevBlkAlloc_ok h.tiled
    rw [htag, c.tag_mod, hc, hoff] at hread
    exact hread
  have hprev : ∀ {t : Machine}, Tiled (R.base + 96) 1 t
      (Zip.blocks ⟨l ++ [c], b, r⟩) →
      (prevBlkp (addr R (total l + c.size))).run t
        = .ok (addr R (total l)) t := by
    intro t ht
    have hread := prevBlkp_ok ht
    rw [htag, c.tag_div, hoff] at hread
    rw [show addr R (total l)
      = R.base + 96 + 8 + (total l + c.size) - c.size by
        unfold addr
        omega]
    exact hread
  have hc' := h
  rw [hblocks] at hc'
  obtain ⟨m, hdel, hshape, hm⟩ := freelistDelBlk_ok hc' hmem
  rw [show Zip.off ⟨l, c, b :: r⟩ = total l from rfl] at hdel hshape
  rw [Zip.sides_prev hc, ← hblocks] at hshape
  refine ⟨m, ?_, hshape, hm⟩
  have hsize : (prevBlkSize (addr R (total l + c.size))).run
      { s with mem := m } = .ok c.size { s with mem := m } := by
    have hread := prevBlkSize_ok hshape.tiled
    rw [htag, c.tag_div, hoff] at hread
    exact hread
  have hmax := maxHeap_lt
  have hval : (c.join b').size = u32 (b'.size + c.size) := by
    unfold u32
    rw [Blk.join_size]
    omega
  rw [hval]
  unfold coalescePrev
  rw [bind_ok hstate]
  show EStateM.run (do
    freelistDelBlk (← prevBlkp (addr R (total l + c.size)))
    let size := u32 (b'.size
      + (← prevBlkSize (addr R (total l + c.size))))
    pure (size, ← prevBlkp (addr R (total l + c.size)))) s = _
  rw [bind_ok (hprev h.tiled), bind_ok hdel, bind_ok hsize,
    bind_ok (hprev hshape.tiled)]
  rfl

/-- The previous block likewise. The tags still show the blocks as they
were; `w` is the cursor with the next block taken in. -/
theorem coalescePrev_ok {w : Zip} (hw : w.left = z.left)
    (hlt : z.off + w.mid.size < maxHeap)
    (h : Shape R s z.blocks B (w.sides false)) :
    ∃ m, (coalescePrev (addr R z.off) w.mid.size).run s
        = .ok (w.absorbPrev.mid.size, addr R w.absorbPrev.off)
          { s with mem := m } ∧
      Shape R { s with mem := m } z.blocks (B.dropPrev cls z)
        (w.absorbPrev.sides false) ∧
      Set.EqOn m s.mem (listed R (w.sides false))ᶜ := by
  have halloc : (prevBlkAlloc (addr R z.off)).run s
      = .ok (prevTag z % 2) s := prevBlkAlloc_ok h.tiled
  obtain ⟨l, b, r⟩ := z
  obtain ⟨l', b', r'⟩ := w
  cases hw
  rcases l.eq_nil_or_concat with rfl | ⟨l, c, rfl⟩
  · have htag : prevTag ⟨[], b, r⟩ % 2 = 1 := pro.tag_mod
    rw [htag] at halloc
    exact ⟨s.mem, bind_ok halloc, h, fun x _ => rfl⟩
  · rw [List.concat_eq_append] at *
    have hoff : ∀ d q, Zip.off ⟨l ++ [c], d, q⟩ = total l + c.size := by
      intro d q
      simp [Zip.off]
    rw [hoff] at hlt halloc ⊢
    cases hc : c.used with
    | true =>
        have hkeep : Zip.absorbPrev ⟨l ++ [c], b', r'⟩
            = ⟨l ++ [c], b', r'⟩ := by
          simp [Zip.absorbPrev, hc]
        have htag : prevTag ⟨l ++ [c], b, r⟩ = c.tag := by
          simp [prevTag, lastTag]
        rw [htag, c.tag_mod, hc] at halloc
        rw [hkeep, hoff]
        refine ⟨s.mem, bind_ok halloc, ?_, fun x _ => rfl⟩
        simpa [Bins.dropPrev, hc] using h
    | false =>
        have hjoin : Zip.absorbPrev ⟨l ++ [c], b', r'⟩
            = ⟨l, c.join b', r'⟩ := by
          simp [Zip.absorbPrev, hc]
        have hdrop : B.dropPrev cls ⟨l ++ [c], b, r⟩
            = B.drop cls (total l) c := by
          simp [Bins.dropPrev, Zip.off, hc]
        rw [hjoin, hdrop]
        exact coalescePrev_free hlt hc h

/-- The tags of a merged block are tags of blocks it is made of. -/
theorem merge_tags {x : Nat}
    (hx : x ∈ tagBytes (addr R z.merge.off) z.merge.mid) :
    ∃ o b, (o, b) ∈ placed 0 z.blocks ∧ x ∈ tagBytes (addr R o) b := by
  obtain ⟨l, xs, ys, r, hzl, hzr, -, hml, -, -, hsize⟩ := z.merge_shape
  have hoff : z.merge.off = total l := by
    unfold Zip.off
    rw [hml]
  have hblocks : z.blocks = l ++ (xs ++ z.mid :: ys) ++ r := by
    unfold Zip.blocks
    rw [hzl, hzr]
    simp
  rw [hoff] at hx
  rw [hblocks]
  rcases hx with hx | hx
  · -- the header is that of the first block
    cases hcs : xs ++ z.mid :: ys with
    | nil => simp at hcs
    | cons c cs => exact ⟨total l, c, by simp, Or.inl hx⟩
  · -- the footer is that of the last
    rcases (xs ++ z.mid :: ys).eq_nil_or_concat with hcs | ⟨cs, t, hcs⟩
    · simp at hcs
    · rw [List.concat_eq_append] at hcs
      rw [hsize, hcs, total_append, total_cons, total_nil] at hx
      rw [hcs]
      refine ⟨total l + total cs, t, by simp, Or.inr ?_⟩
      unfold addr at hx ⊢
      omega

/-- `coalesce` makes one free block of the block under the cursor and
its free neighbours, with all of them filed nowhere. The list at slot
zero it leaves alone, whether or not one of them is on it. -/
theorem coalesce_ok (h : Shape R s z.blocks B (z.sides false)) :
    ∃ m, (coalesce (addr R z.off)).run s
        = .ok (addr R z.merge.off) { s with mem := m } ∧
      Shape R { s with mem := m } z.merge.blocks
        ((B.dropNext cls z).dropPrev cls z) (z.merge.sides false) ∧
      Set.EqOn m s.mem
        (payload R (z.sides true) ∪ smalls R (z.sides false)) := by
  have hsize : (blkSize (addr R z.off)).run s = .ok z.mid.size s :=
    blkSize_ok h.tiled
  have hwlt := h.tiled.size_lt
  have hnextlt : z.off + z.absorbNext.mid.size < maxHeap := by
    rcases z.absorbNext_cases with ⟨-, he⟩ | ⟨c, r, hr, -, he⟩ <;> rw [he]
    · omega
    · rw [hr, total_cons] at hwlt
      rw [Blk.join_size]
      omega
  obtain ⟨m₁, hrun₁, hs₁, hm₁⟩ := coalesceNext_ok h
  obtain ⟨m₂, hrun₂, hs₂, hm₂⟩ :=
    coalescePrev_ok z.absorbNext_left hnextlt hs₁
  -- what is left is to stamp the merged block over the old ones
  obtain ⟨hml, hmr, hms⟩ := z.merge_eq
  have hoff : z.absorbNext.absorbPrev.off = z.merge.off := by
    unfold Zip.off
    rw [hml]
  have hsides : z.absorbNext.absorbPrev.sides false
      = z.merge.sides false := by
    unfold Zip.sides
    rw [hoff, hml, hmr, hms]
  rw [hoff, ← hms] at hrun₂
  rw [hsides] at hs₂
  have htotal := z.merge_total
  have hpl := z.merge.mid_placed
  have hbd := placed_bounds hpl
  have hroom := hs₂.filed.room
  have hmin : ∀ b ∈ z.merge.blocks, 16 ≤ b.size :=
    merge_min hs₂.filed.min
  have hsub : z.merge.sides false ⊆ marked false 0 z.merge.blocks :=
    fun x hx => ⟨(Zip.mem_sides hx).1, (Zip.mem_sides hx).2.1⟩
  have hset := h.setBlk_ok m₂ (o := z.merge.off) z.merge.mid (by omega)
  rw [z.merge_mid_used] at hset
  refine ⟨stamp m₂ (addr R z.merge.off) z.merge.mid, ?_,
    h.withMem ?_ ?_, ?_⟩
  · unfold coalesce
    rw [bind_ok hsize, bind_ok hrun₁, bind_ok hrun₂]
    exact bind_ok hset
  · exact Tiled.merge hs₂.tiled
  · exact ((hs₂.filed.retile hmin (by omega) hsub).frame
      (stamp_scratch hpl hsub))
  · -- the payloads in use are off both scratches and off the tag bytes
    rintro x (hx | hx)
    · have hin := payloadAt_mono z.sides_sub hx
      rw [← z.merge_useds] at hx
      exact (stamp_payload hpl hx).trans
        ((off_scratch hm₂ (payload_off_scratch hs₁.filed.sub hin)).trans
          (off_scratch hm₁ (payload_off_scratch h.filed.sub hin)))
    · refine (stamp_of_out (by unfold addr; omega) fun hc => ?_).trans
        ((hm₂ (smalls_off_listed h.filed.sub hs₁.filed.sub hx)).trans
          (hm₁ (smalls_off_listed h.filed.sub h.filed.sub hx)))
      obtain ⟨o, b, hb, hc⟩ := merge_tags hc
      obtain ⟨hlo, hpay⟩ := tagBytes_out hb hc
      rcases hx with hx | ⟨y, hy, -, hx⟩
      · omega
      · have := hpay y (h.filed.sub hy).1
        omega

-- ============================================================== filing

/-- What `freelist_insert2` comes to: the block under the cursor is filed,
at slot zero as well, and only the scratch was written. -/
def PutIn (R : Region) (s : Machine) (z : Zip) (B : Bins)
    (r : EStateM.Result Stop Machine Unit) : Prop :=
  ∃ m, r = .ok () { s with mem := m } ∧
    Shape R { s with mem := m } z.blocks (B.put cls z.off z.mid)
      (marked false 0 z.blocks) ∧
    Set.EqOn m s.mem (scratch R (marked false 0 z.blocks))ᶜ ∧
    (AtZero R s.mem B → AtZero R m (B.put cls z.off z.mid))

/-- The reads of `freelist_insert2`, and its first link. -/
theorem insert2_reads (h : Shape R s z.blocks B (z.sides false))
    {nextp : Nat} (hn : rd 8 s.mem (slot R (cls z.mid)) = nextp) :
    Access s (slot R (cls z.mid)) 8 ∧
      (nextFreeBlkp (slot R (cls z.mid))).run s = .ok nextp s ∧
      (blkSize (addr R z.off)).run s = .ok z.mid.size s ∧
      (setNextFreeBlk (addr R z.off) nextp).run s
        = .ok () { s with mem := wr 8 s.mem (addr R z.off) nextp } := by
  have hpl := z.mid_placed
  have hmin := h.filed.min z.mid (placed_mem hpl)
  have hr := z.mid.room_add
  have hle : cls z.mid ≤ 10 := fltIndexOf_le z.mid.room
  have hslot : Access s (slot R (cls z.mid)) 8 := by
    unfold slot
    exact h.access (by omega) (by omega)
  rw [← hn]
  exact ⟨hslot, load_ok hslot, blkSize_ok h.tiled,
    store_ok _ (h.block_access hpl (Nat.le_refl _) (by omega))⟩

/-- A block of the smallest size is pushed with one link. -/
theorem insert2_small (h : Shape R s z.blocks B (z.sides false))
    (hfree : z.mid.used = false) (hsz : z.mid.size = 16) :
    PutIn R s z B ((freelistInsert2 (slot R (cls z.mid))
      (addr R z.off)).run s) := by
  have hpl := z.mid_placed
  have hin : (z.off, z.mid) ∈ marked false 0 z.blocks := ⟨hpl, hfree⟩
  have hr := z.mid.room_add
  have hfresh : ∀ c, (z.off, c) ∉ z.sides false :=
    fun c => z.off_not_sides c
  have hcls : cls z.mid = 0 := (h.filed.cls_eq_zero hpl).2 hsz
  obtain ⟨hslot, hnextp, hsize, hset₁⟩ := insert2_reads h rfl
  rw [hcls] at hslot hnextp hset₁ ⊢
  generalize hn : rd 8 s.mem (slot R 0) = nextp at hnextp hset₁
  have hset₂ := store_ok (w := 8) (addr R z.off)
    (hslot.withMem (wr 8 s.mem (addr R z.off) nextp))
  have hoff : ∀ x, R.base + 8 ≤ x →
      (x < addr R z.off ∨ addr R z.off + z.mid.room ≤ x) →
      wr 8 (wr 8 s.mem (addr R z.off) nextp) (slot R 0) (addr R z.off) x
        = s.mem x := by
    intro x hx hx'
    unfold slot
    rw [wr_of_out (by omega), wr_of_out (by omega)]
  have hscr : Set.EqOn (wr 8 (wr 8 s.mem (addr R z.off) nextp) (slot R 0)
      (addr R z.off)) s.mem (scratch R (marked false 0 z.blocks))ᶜ :=
    wr_slot (Nat.zero_le _)
      (wr_node hin (Nat.le_refl _) (by omega) fun _ _ => rfl)
  have hfiled := h.filed.push hin hfresh hsz hoff
  rw [Zip.sides_eq hfree] at hfiled
  refine ⟨_, ?_, h.withMem (tiled_scribble h.tiled hfiled.sub hscr) hfiled,
    hscr, fun hzero => ?_⟩
  · unfold freelistInsert2
    rw [bind_ok hnextp, bind_ok hsize, if_pos (by rw [hsz]; rfl),
      bind_ok hset₁]
    exact hset₂
  · have hpush := h.filed.zero_push hzero hin hfresh hsz
    rwa [hn] at hpush

/-- A larger one is linked in both ways. -/
theorem insert2_large (h : Shape R s z.blocks B (z.sides false))
    (hfree : z.mid.used = false) (hsz : 16 < z.mid.size) :
    PutIn R s z B ((freelistInsert2 (slot R (cls z.mid))
      (addr R z.off)).run s) := by
  have hpl := z.mid_placed
  have hin : (z.off, z.mid) ∈ marked false 0 z.blocks := ⟨hpl, hfree⟩
  have hal := z.mid.aligned
  have hr := z.mid.room_add
  have hcls := h.filed.cls_range hpl hsz
  have hcls₀ : cls z.mid ≠ 0 := by omega
  obtain ⟨hslot, hnextp, hsize, hset₁⟩ := insert2_reads h rfl
  obtain ⟨hfiled, hoff⟩ :=
    h.filed.link hin (fun c => z.off_not_sides c) hsz
  rw [Zip.sides_eq hfree] at hfiled hoff
  refine ⟨_, ?_, h.withMem (tiled_scribble h.tiled hfiled.sub
    (off_scratch hoff)) hfiled, off_scratch hoff, fun hzero => ?_⟩
  swap
  · have hkeep := h.filed.zero_frame hzero fun x hx =>
      hoff (smalls_off_listed h.filed.sub hfiled.sub hx)
    unfold AtZero at hkeep ⊢
    rwa [put_zero hcls₀]
  -- the old head of the list, if there is one, is a filed block
  have hhead : rd 8 s.mem (slot R (cls z.mid)) = 0 ∨
      Access s (rd 8 s.mem (slot R (cls z.mid)) + 8) 8 := by
    rcases h.filed.head hcls.1 hcls.2 with hnil | ⟨o, b, hb, hr', ho⟩
    · exact Or.inl hnil
    · rw [ho]
      exact Or.inr (h.block_access (h.filed.sub hb).1 (by omega) (by omega))
  unfold Mem.link
  generalize rd 8 s.mem (slot R (cls z.mid)) = nextp
    at hnextp hset₁ hhead ⊢
  have hacc : Access s (addr R z.off + 8) 8 :=
    h.block_access hpl (by omega) (by omega)
  have hset₂ := store_ok (w := 8) (slot R (cls z.mid))
    (hacc.withMem (wr 8 s.mem (addr R z.off) nextp))
  have hset₃ := store_ok (w := 8) (addr R z.off)
    (hslot.withMem (wr 8 (wr 8 s.mem (addr R z.off) nextp)
      (addr R z.off + 8) (slot R (cls z.mid))))
  have hne : ¬ z.mid.size = blkMinSize := Nat.ne_of_gt hsz
  unfold freelistInsert2
  rw [bind_ok hnextp, bind_ok hsize, if_neg hne, bind_ok hnextp,
    bind_ok hset₁]
  unfold setPrevFreeBlk
  rw [bind_ok hset₂]
  unfold setNextFreeBlk
  rw [bind_ok hset₃]
  by_cases hz : nextp = 0
  · subst hz
    rfl
  · rw [if_pos hz, pointBack_pos (by omega)]
    exact store_ok _ ((hhead.resolve_left hz).withMem _)

/-- `freelist_insert2` at the list of the block's class files it. -/
theorem freelistInsert2_ok (h : Shape R s z.blocks B (z.sides false))
    (hfree : z.mid.used = false) :
    PutIn R s z B ((freelistInsert2 (slot R (cls z.mid))
      (addr R z.off)).run s) := by
  have hpl := z.mid_placed
  have hmin := h.filed.min z.mid (placed_mem hpl)
  by_cases hsz : z.mid.size = 16
  · exact insert2_small h hfree hsz
  · exact insert2_large h hfree (by omega)

/-- No free neighbour of the block under the cursor is of the smallest
size. -/
structure Spared (z : Zip) : Prop where
  next : ∀ c ∈ z.right.head?, c.used = false → c.size ≠ 16
  prev : ∀ c ∈ z.left.getLast?, c.used = false → c.size ≠ 16

/-- The same of the blocks by their places. -/
theorem spared_of {z : Zip} (h : ∀ q c, (q, c) ∈ marked false 0 z.blocks →
    q = z.off + z.mid.size ∨ q + c.size = z.off → c.size ≠ 16) :
    Spared z := by
  constructor
  · intro c hc hfree
    obtain ⟨r, hr⟩ := List.head?_eq_some_iff.1 hc
    refine h (z.off + z.mid.size) c ⟨?_, hfree⟩ (Or.inl rfl)
    unfold Zip.blocks Zip.off
    simp [hr]
  · intro c hc hfree
    obtain ⟨l, hl⟩ := List.getLast?_eq_some_iff.1 hc
    refine h (total l) c ⟨?_, hfree⟩ (Or.inr ?_)
    · unfold Zip.blocks
      simp [hl]
    · unfold Zip.off
      simp [hl]

/-- And back. -/
theorem Spared.size (h : Spared z) {q : Nat} {c : Blk}
    (hq : (q, c) ∈ marked false 0 z.blocks)
    (hbeside : q = z.off + z.mid.size ∨ q + c.size = z.off) :
    c.size ≠ 16 := by
  rcases hbeside with rfl | ho
  · obtain ⟨r, hr⟩ := Zip.next_of_placed hq.1
    exact h.next c (by simp [hr]) hq.2
  · obtain ⟨l, hl⟩ := Zip.prev_of_placed hq.1 ho
    exact h.prev c (by simp [hl]) hq.2

/-- Then taking them in drops nothing from class zero. -/
theorem Spared.bins (h : Spared z) (hf : Filed R m z.blocks B F) :
    ((B.dropNext cls z).dropPrev cls z) 0 = B 0 := by
  have hnext : (B.dropNext cls z) 0 = B 0 := by
    unfold Bins.dropNext
    cases hr : z.right with
    | nil => rfl
    | cons c r =>
        cases hc : c.used with
        | true => simp [hc]
        | false =>
            have hpl : (total (z.left ++ [z.mid]), c)
                ∈ placed 0 z.blocks := by
              simp [Zip.blocks, hr]
            have hsz := h.next c (by simp [hr]) hc
            simp only [hc, Bool.false_eq_true, if_false]
            exact drop_zero fun h0 => hsz ((hf.cls_eq_zero hpl).1 h0)
  rw [← hnext]
  unfold Bins.dropPrev
  cases hl : z.left.getLast? with
  | none => rfl
  | some c =>
      cases hc : c.used with
      | true => simp [hc]
      | false =>
          obtain ⟨l, hl'⟩ := List.getLast?_eq_some_iff.1 hl
          have hpl : (total l, c) ∈ placed 0 z.blocks := by
            simp [Zip.blocks, hl']
          have hsz := h.prev c hl hc
          simp only [hc, Bool.false_eq_true, if_false]
          exact drop_zero fun h0 => hsz ((hf.cls_eq_zero hpl).1 h0)

/-- `freelist_insert` releases the block under the cursor. -/
theorem freelistInsert_ok (h : Shape R s z.blocks B (z.sides false)) :
    ∃ m, (freelistInsert (addr R z.off)).run s
        = .ok () { s with mem := m } ∧
      Shape R { s with mem := m } (release z B).blocks (release z B).bins
        (marked false 0 (release z B).blocks) ∧
      Set.EqOn m s.mem (payload R (z.sides true)) ∧
      (Spared z → AtZero R s.mem B → AtZero R m (release z B).bins) := by
  obtain ⟨m₁, hrun₁, hs₁, hm₁⟩ := coalesce_ok h
  obtain ⟨m₂, hrun₂, hs₂, hm₂, hzero₂⟩ :=
    freelistInsert2_ok hs₁ z.merge_mid_used
  have haval : (blkAvalSize (addr R z.merge.off)).run { s with mem := m₁ }
      = .ok z.merge.mid.room { s with mem := m₁ } :=
    blkAvalSize_ok hs₁.tiled
  refine ⟨m₂, ?_, hs₂, fun x hx => ?_, fun hsp hzero => hzero₂ ?_⟩
  · unfold freelistInsert
    rw [bind_ok hrun₁, bind_ok haval, bind_ok (run_get _)]
    have hslot : s.freelistTable + 8 * fltIndexOf z.merge.mid.room
        = R.base + 8 * cls z.merge.mid := by
      rw [h.table]
      rfl
    simp only [hslot]
    exact hrun₂
  · have hin := hx
    rw [← z.merge_useds] at hin
    exact (hm₂ (payload_off_scratch (fun _ hy => hy) hin)).trans
      (hm₁ (Or.inl hx))
  · have hkeep := h.filed.zero_frame hzero fun x hx => hm₁ (Or.inr hx)
    unfold AtZero at hkeep ⊢
    rwa [hsp.bins h.filed]

end MallocLab.Proofs.Segregate
