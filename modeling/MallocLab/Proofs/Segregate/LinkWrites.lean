/-
The links that `freelist_insert2` writes, and whether they stay inside
their blocks: in the payload of a free block of the heap list, off every
tag and every other block.

A block that is filed under one of the classes one to ten has room for
two links, and a back link is only ever written to such a block: a block
of the smallest size gets the one link it has room for, and the block it
is put in front of gets none.

# What goes wrong

An allocation of no bytes makes a block of eight bytes, all of them tags.
Nothing keeps it from being freed: it then gets both links at slot zero,
over its own footer and what is behind it, and the block it is put in
front of gets a back link it has no room for. `RoomFor` leaves out these
allocations, and with them the walks at slot zero that are not honest
(SlotZero.lean): a block handed out twice need not be one any more when
it is freed.
-/
import MallocLab.Model.LinkWrites
import MallocLab.Proofs.Segregate.SlotZero

namespace MallocLab.Proofs.Segregate

open Mem Blocks Tracing Model Model.Segregate Spec.Segregated

-- ============================================================ the property

/-- The eight bytes of a link lie in the payload of their block, which is
a free block of the heap list `xs`, between the prologue and the word
that closes the heap, and off all other blocks. -/
structure Within (w : LinkWrites.LinkWrite) (xs : List Seen) : Prop where
  free : ∃ x ∈ xs, x.addr = w.block ∧ x.state = blkFree
  payload : ∃ k, (blkAvalSize w.block).run w.machine = .ok k w.machine ∧
    w.block ≤ w.addr ∧ w.addr + 8 ≤ w.block + k
  others : ∀ x ∈ xs, x.addr ≠ w.block →
    w.addr + 8 ≤ x.addr - 4 ∨ x.addr + x.size - 4 ≤ w.addr
  inner : w.machine.heapListp + 4 ≤ w.addr ∧
    w.addr + 8 ≤ w.machine.memBrk - 4

/-- The link stays inside its block, as the machine it is written in has
it. -/
def Inside (w : LinkWrites.LinkWrite) : Prop :=
  ∃ xs, HeapList w.machine xs ∧ Within w xs

/-- The condition on a request: an allocation asks for at least a byte,
and if it looks at slot zero, the walk there is honest. -/
def RoomFor (_ : List Alloc) (s : Machine) : Req → Prop
  | .malloc n => n ≠ 0 ∧ (n ≤ 8 → SlotHonest s)
  | .reallocNull n => n ≠ 0 ∧ (n ≤ 8 → SlotHonest s)
  | _ => True

variable {R : Region} {live : List Alloc} {s : Machine} {S : State}
  {A : Heap} {bs : List Blk} {B : Bins} {F : Set (Nat × Blk)} {z : Zip}
  {n p o a : Nat} {b : Blk} {m : Bytes}

-- ======================================================= the links written

/-- While a free list is being written, a link in the payload of a free
block stays inside it. -/
theorem Shape.inside (h : Shape R s bs B F)
    (hm : Set.EqOn m s.mem (scratch R (marked false 0 bs))ᶜ)
    (hb : (o, b) ∈ marked false 0 bs) (hlo : addr R o ≤ a)
    (hhi : a + 8 ≤ addr R o + b.room) :
    Inside ⟨{ s with mem := m }, addr R o, a⟩ := by
  have ht := tiled_scribble h.tiled (fun _ hx => hx) hm
  have hbrk := h.tiled.brk
  have hlistp := h.listp
  have hr := b.room_add
  have hbd := placed_bounds hb.1
  refine ⟨_, Tiled.heapList ht rfl h.listp, ?_, ?_, ?_, ?_⟩
  · exact ⟨_, mem_seen_addr.2 ⟨o, b, hb.1, rfl⟩, rfl, seen_free.2 hb.2⟩
  · obtain ⟨z, rfl, rfl, rfl⟩ := Zip.of_placed hb.1
    exact ⟨z.mid.room, blkAvalSize_ok ht, hlo, hhi⟩
  · intro x hx hne
    obtain ⟨q, c, hc, rfl⟩ := mem_seen_addr.1 hx
    have hne' : addr R q ≠ addr R o := hne
    show a + 8 ≤ addr R q - 4 ∨ addr R q + c.size - 4 ≤ a
    rcases placed_disjoint hc hb.1 with ⟨he, -⟩ | hd
    · exact absurd (by rw [he]) hne'
    · unfold addr at *
      omega
  · unfold addr at *
    constructor
    · show s.heapListp + 4 ≤ a
      omega
    · show a + 8 ≤ s.memBrk - 4
      omega

/-- `SET_NEXT_FREE_BLK` leaves the link at the block's address. -/
theorem setNext_inside (h : Inside ⟨s, p, p⟩) (next : Nat) :
    All Inside (LinkWrites.setNextFreeBlk p next) s := by
  unfold LinkWrites.setNextFreeBlk
  apply all_mark
  exact h

/-- `SET_PREV_FREE_BLK` leaves the one behind it. -/
theorem setPrev_inside (h : Inside ⟨s, p, p + 8⟩) (prev : Nat) :
    All Inside (LinkWrites.setPrevFreeBlk p prev) s := by
  unfold LinkWrites.setPrevFreeBlk
  apply all_mark
  exact h

/-- `freelist_insert2`: one link for a block of the smallest size, else
the block's two and the old head's back link. -/
theorem insert2_inside (h : Shape R s z.blocks B (z.sides false))
    (hfree : z.mid.used = false) :
    All Inside (LinkWrites.freelistInsert2 (slot R (cls z.mid))
      (addr R z.off)) s := by
  have hpl := z.mid_placed
  have hin : (z.off, z.mid) ∈ marked false 0 z.blocks := ⟨hpl, hfree⟩
  have hmin := h.filed.min z.mid (placed_mem hpl)
  have hal := z.mid.aligned
  have hr := z.mid.room_add
  have hle : cls z.mid ≤ 10 := fltIndexOf_le z.mid.room
  have hsub : z.sides false ⊆ marked false 0 z.blocks := Zip.sides_sub _
  have hsize : (blkSize (addr R z.off)).run s = .ok z.mid.size s :=
    blkSize_ok h.tiled
  have hslot : Access s (slot R (cls z.mid)) 8 := by
    unfold slot
    exact h.access (by omega) (by omega)
  have hnextp : (nextFreeBlkp (slot R (cls z.mid))).run s
      = .ok (rd 8 s.mem (slot R (cls z.mid))) s := load_ok hslot
  have hrefl : Set.EqOn s.mem s.mem (scratch R (marked false 0 z.blocks))ᶜ :=
    fun _ _ => rfl
  have hhead := h.filed.head (k := cls z.mid)
  generalize rd 8 s.mem (slot R (cls z.mid)) = nextp at hnextp hhead
  have hfirst : All Inside (LinkWrites.setNextFreeBlk (addr R z.off) nextp) s :=
    setNext_inside (h.inside hrefl hin (Nat.le_refl _) (by omega)) _
  unfold LinkWrites.freelistInsert2
  refine all_after hnextp (all_after hsize (all_ite ?_ ?_))
  · intro _
    exact all_bind hfirst fun _ _ _ => all_silent _ _
  intro hne
  have hsz : 16 < z.mid.size := by
    have hne' : z.mid.size ≠ 16 := hne
    omega
  have hcls := h.filed.cls_range hpl hsz
  have hnext : Access s (addr R z.off) 8 :=
    h.block_access hpl (Nat.le_refl _) (by omega)
  have hprev : Access s (addr R z.off + 8) 8 :=
    h.block_access hpl (by omega) (by omega)
  -- the memories between the writes differ from the first in the scratch
  have hm₁ := wr_node (v := nextp) hin (Nat.le_refl _) (by omega) hrefl
  have hm₂ := wr_node (a := addr R z.off + 8) (v := slot R (cls z.mid)) hin
    (by omega) (by omega) hm₁
  have hm₃ := wr_slot (v := addr R z.off) hle hm₂
  refine all_after hnextp (all_next hfirst (store_ok _ hnext) ?_)
  refine all_next (setPrev_inside (h.inside hm₁ hin (by omega) (by omega)) _)
    (store_ok _ (hprev.withMem _)) ?_
  refine all_after (store_ok _ (hslot.withMem _)) (all_ite ?_ ?_)
  · intro hpos
    rcases hhead hcls.1 hcls.2 with hnil | ⟨q, c, hc, hroom, hq⟩
    · exact absurd hnil hpos
    · subst hq
      exact setPrev_inside (h.inside hm₃ (hsub hc) (by omega) (by omega)) _
  · intro _
    exact all_pure _ _

/-- `freelist_insert` of the block under the cursor. -/
theorem insert_inside (h : Shape R s z.blocks B (z.sides false)) :
    All Inside (LinkWrites.freelistInsert (addr R z.off)) s := by
  obtain ⟨m, hrun, hs, -⟩ := coalesce_ok h
  have haval : (blkAvalSize (addr R z.merge.off)).run { s with mem := m }
      = .ok z.merge.mid.room { s with mem := m } := blkAvalSize_ok hs.tiled
  have hslot : s.freelistTable + 8 * fltIndexOf z.merge.mid.room
      = slot R (cls z.merge.mid) := by
    rw [h.table]
    rfl
  unfold LinkWrites.freelistInsert
  refine all_after hrun (all_after haval (all_after (run_get _) ?_))
  simp only [hslot]
  exact insert2_inside hs z.merge_mid_used

-- ============================================================= allocating

/-- `freelist_insert` of what is left of a block that was split. -/
theorem Split.inside {s₁ s₂ : Machine} (h : Split R s s₁ s₂ z n B)
    (hn : n % 8 = 0) (hn' : 8 ≤ n) :
    All Inside (LinkWrites.freelistInsert (addr R (z.off + n))) s₂ := by
  rw [← rest_off hn hn']
  exact insert_inside h.shape

/-- `freelist_alloc`'s way with a block that fits. -/
theorem take_inside (h : Rep R s A) (hn : n % 8 = 0) (hn' : 16 ≤ n)
    (hz : Fit A n z) :
    All Inside (LinkWrites.freelistTake (addr R z.off) z.mid.size n) s := by
  have hs := h.shape
  rw [← hz.blocks] at hs
  have hpl := z.mid_placed
  obtain ⟨m, hdel, hs₁, -⟩ := freelistDelBlk_ok hs ⟨hpl, hz.free⟩
  rw [Zip.sides_diff hz.free] at hs₁
  unfold LinkWrites.freelistTake
  refine all_after hdel (all_ite ?_ ?_)
  · intro hge
    have hfit : n + 16 ≤ z.mid.size := by
      have := hz.size
      unfold blkMinSize blkHdrSize alignment blkFtrSize at hge
      omega
    obtain ⟨s₁, m₁, hsplit, -⟩ := split_ready hs₁ hn hn' hfit
    refine all_after hsplit.front (all_after hsplit.rest₁ ?_)
    refine all_after hsplit.back (all_after hsplit.rest₂ ?_)
    exact all_bind (hsplit.inside hn (by omega)) fun _ _ _ => all_pure _ _
  · intro _
    exact all_step fun _ _ _ => all_step fun _ _ _ => all_pure _ _

/-- The walk along a list, as long as it leads somewhere. -/
theorem walk_inside (h : Rep R s A) (hn : n % 8 = 0) (hn' : 16 ≤ n)
    (hp : Leads R s A n p) (fuel : Nat) :
    All Inside (LinkWrites.freelistWalk n fuel p) s := by
  induction hp generalizing fuel with
  | stop =>
      cases fuel with
      | zero => exact all_silent _ _
      | succ fuel =>
          unfold LinkWrites.freelistWalk
          exact all_ite (fun _ => all_pure _ _) fun hne => absurd rfl hne
  | @found z hz =>
      cases fuel with
      | zero => exact all_silent _ _
      | succ fuel =>
          have htiled := h.shape.tiled
          rw [← hz.blocks] at htiled
          have hsize : (blkSize (addr R z.off)).run s = .ok z.mid.size s :=
            blkSize_ok htiled
          unfold LinkWrites.freelistWalk
          rw [if_neg (addr_pos R z.off)]
          refine all_after hsize ?_
          rw [if_pos hz.size]
          exact take_inside h hn hn' hz
  | @skip p q k hp hsize hsmall hnext _ ih =>
      cases fuel with
      | zero => exact all_silent _ _
      | succ fuel =>
          unfold LinkWrites.freelistWalk
          rw [if_neg hp]
          refine all_after hsize ?_
          rw [if_neg (Nat.not_le.2 hsmall)]
          exact all_after hnext (ih fuel)

/-- A list whose nodes are free blocks of the heap leads somewhere. -/
theorem leads_strung (h : Rep R s A) {os : List Nat}
    (hos : ∀ o ∈ os, ∃ b, (o, b) ∈ marked false 0 A.blocks)
    (hlink : Strung s.mem a (os.map (addr R))) :
    Leads R s A n ((os.map (addr R)).headD 0) := by
  induction os generalizing a with
  | nil => exact Leads.stop
  | cons o os ih =>
      obtain ⟨b, hb⟩ := hos o List.mem_cons_self
      obtain ⟨z, hzb, rfl, rfl⟩ := Zip.of_placed hb.1
      obtain ⟨-, hrest⟩ := hlink
      have hroom := z.mid.room_add
      have hmin := h.shape.filed.min z.mid (placed_mem hb.1)
      have htiled := h.shape.tiled
      rw [← hzb] at htiled
      by_cases hfit : n ≤ z.mid.size
      · exact Leads.found ⟨hzb, hb.2, hfit⟩
      · have hnext : (nextFreeBlkp (addr R z.off)).run s
            = .ok ((os.map (addr R)).headD 0) s := by
          rw [← hrest.cell_eq]
          exact load_ok (h.shape.block_access hb.1 (Nat.le_refl _) (by omega))
        exact Leads.skip (addr_pos R z.off) (blkSize_ok htiled)
          (Nat.not_le.1 hfit) hnext
          (ih (fun q hq => hos q (List.mem_cons_of_mem _ hq)) hrest)

/-- So do the lists one to ten. -/
theorem leads_slot (h : Rep R s A) {k : Nat} (hk : 1 ≤ k) (hk' : k ≤ 10)
    (n : Nat) : ∃ p, (nextFreeBlkp (R.base + 8 * k)).run s = .ok p s ∧
      Leads R s A n p := by
  have hlink := (h.shape.filed.links k hk hk').strung
  refine ⟨_, ?_, leads_strung h (fun o ho => ?_) hlink⟩
  · rw [← hlink.cell_eq]
    exact load_ok (h.shape.access (by omega) (by omega))
  · obtain ⟨b, hb, -⟩ := (h.ok.files.mem k o).1 ho
    exact ⟨b, hb⟩

/-- `freelist_alloc` on a list that leads somewhere. -/
theorem alloc_inside (h : Rep R s A) {size : Nat}
    (hsize : u64 (align size + blkHdrSize + blkFtrSize) = n)
    (hn : n % 8 = 0) (hn' : 16 ≤ n) (hp : (nextFreeBlkp a).run s = .ok p s)
    (hw : Leads R s A n p) :
    All Inside (LinkWrites.freelistAlloc a size) s := by
  unfold LinkWrites.freelistAlloc
  rw [hsize]
  exact all_after hp (all_ite (fun _ => all_pure _ _) fun _ =>
    walk_inside h hn hn' hw _)

/-- The loop over slots that all lead somewhere: it is at the heap it
started from until it takes a block, and then it ends. -/
theorem scan_inside (h : Rep R s A) {size : Nat}
    (hsize : u64 (align size + blkHdrSize + blkFtrSize) = n)
    (hn : n % 8 = 0) (hn' : 16 ≤ n) {ks : List Nat}
    (hks : ∀ k ∈ ks, ∃ p,
      (nextFreeBlkp (R.base + 8 * k)).run s = .ok p s ∧ Leads R s A n p) :
    All Inside (LinkWrites.scanSlots size ks) s := by
  induction ks with
  | nil => exact all_pure _ _
  | cons k ks ih =>
      obtain ⟨p, hp, hw⟩ := hks k List.mem_cons_self
      unfold LinkWrites.scanSlots
      refine all_after (run_get s) ?_
      simp only [h.shape.table]
      refine all_bind (alloc_inside h hsize hn hn' hp hw) fun bp s' hrun => ?_
      rw [LinkWrites.erase_freelistAlloc] at hrun
      rcases freelistAlloc_leads h hsize hn hn' hp hw with
        ⟨s'', hspin⟩ | ⟨pick, -, hgot⟩
      · exact absurd (hrun.symm.trans hspin) (by simp)
      cases pick with
      | none =>
          injection hrun.symm.trans hgot with hbp hs
          subst hbp hs
          rw [if_neg (by simp)]
          exact ih fun j hj => hks j (List.mem_cons_of_mem k hj)
      | some z =>
          obtain ⟨m, hok, -⟩ := hgot
          injection hrun.symm.trans hok with hbp hs
          rw [hbp, if_pos (addr_pos R z.off)]
          exact all_pure _ _

/-- `segregate_mm_malloc`, if it is honest where it looks. -/
theorem malloc_inside (h : Rep R s A) (hn : 1 ≤ n) (hn' : n ≤ maxSize)
    (hslot : n ≤ 8 → SlotHonest s) :
    All Inside (LinkWrites.segregateMmMalloc n) s := by
  unfold maxSize at hn'
  obtain ⟨hmod, hmin, -⟩ := need_size hn (by omega)
  have hscan : All Inside (LinkWrites.scanSlots n
      (List.range' (fltIndexOf n) (fltSlotNum - fltIndexOf n))) s := by
    refine scan_inside h (need_u64 hn (by omega)) hmod hmin fun k hk => ?_
    have hle := fltIndexOf_le n
    have hrange := List.mem_range'_1.1 hk
    unfold fltSlotNum at hrange
    by_cases hk0 : k = 0
    · have hsmall : n ≤ 8 :=
        (fltIndexOf_eq_zero hn (by omega)).1 (by omega)
      rw [hk0, (small_need hn hsmall).2.1]
      exact (hslot hsmall).leads h
    · exact leads_slot h (by omega) (by omega) (need n)
  unfold LinkWrites.segregateMmMalloc
  refine all_bind hscan fun bp s' _ => all_ite (fun _ => all_pure _ _) ?_
  intro _
  exact all_step fun _ _ _ => all_ite (fun _ => all_pure _ _) fun _ =>
    all_step fun _ _ _ => all_pure _ _

-- ===================================================== free and realloc

/-- `segregate_mm_free` of a block in use. -/
theorem free_inside (h : Rep R s A) (hz : z.blocks = A.blocks)
    (hu : z.mid.used = true) :
    All Inside (LinkWrites.segregateMmFree (addr R z.off)) s :=
  insert_inside (h.at hz hu)

/-- The move of a growing `segregate_mm_realloc`: the larger block, then
the old one's release. Without a larger block the copy ends the run. -/
theorem move_inside (h : Rep R s A) (hz : z.blocks = A.blocks)
    (hu : z.mid.used = true) {size : Nat} (hsz : 1 ≤ size)
    (hsz' : size ≤ maxSize) (hfit : ¬ align size ≤ z.mid.room) :
    All Inside (do
      let np ← LinkWrites.segregateMmMalloc (align size)
      memcpy np (addr R z.off) (← blkAvalSize (addr R z.off))
      LinkWrites.segregateMmFree (addr R z.off)
      return np : LinkWrites.L Nat) s := by
  have hle : size ≤ 2 ^ 31 - 16 := hsz'
  obtain ⟨-, -, hlt, -, halign, -⟩ := need_size hsz (by omega)
  unfold need at hlt
  have hmin := h.ok.min z.mid (by rw [← hz]; simp [Zip.blocks])
  have hr := z.mid.room_add
  have hlarge : 9 ≤ align size := by omega
  have hmax : align size ≤ maxSize := by
    unfold maxSize
    omega
  have hserved := segregateMmMalloc_large h hlarge hmax
  refine all_bind (malloc_inside h (by omega) hmax fun hsmall => ?_) ?_
  · omega
  intro np s₁ hrun
  rw [LinkWrites.erase_segregateMmMalloc] at hrun
  cases hm : A.malloc none (align size) with
  | none =>
      rw [hm] at hserved
      injection hrun.symm.trans hserved with hnp hs
      subst hnp hs
      obtain ⟨haval, hcpy⟩ := null_copy (h.at hz hu) enomem
      refine all_after haval (all_step fun _ _ hcopied => ?_)
      exact absurd (hcopied.symm.trans hcpy) (by simp)
  | some y =>
      obtain ⟨o, C⟩ := y
      rw [hm] at hserved
      obtain ⟨s', hok, hrep, -⟩ := hserved
      injection hrun.symm.trans hok with hnp hs
      subst hnp hs
      obtain ⟨w, b, hmove⟩ := moving_ok h.ok hz hu hsz hsz' hfit hm hrep
      have hfree := free_inside hmove.rep hmove.blocks (by
        rw [hmove.mid]
        exact hu)
      rw [hmove.off] at hfree
      refine all_after hmove.aval (all_after hmove.copies ?_)
      exact all_bind hfree fun _ _ _ => all_pure _ _

/-- `segregate_mm_realloc` of a block in use. -/
theorem realloc_inside (h : Rep R s A) (hz : z.blocks = A.blocks)
    (hu : z.mid.used = true) {size : Nat} (hsz' : size ≤ maxSize) :
    All Inside (LinkWrites.segregateMmRealloc (addr R z.off) size) s := by
  have hle : size ≤ 2 ^ 31 - 16 := hsz'
  have hs := h.at hz hu
  have haval : (blkAvalSize (addr R z.off)).run s = .ok z.mid.room s :=
    blkAvalSize_ok hs.tiled
  have hr := z.mid.room_add
  have hal := z.mid.aligned
  unfold LinkWrites.segregateMmRealloc
  rw [if_neg (addr_pos R z.off)]
  refine all_ite (fun _ => ?_) fun hne => all_after haval ?_
  · exact all_bind (free_inside h hz hu) fun _ _ _ => all_pure _ _
  have hsz : 1 ≤ size := by omega
  obtain ⟨hn, hn', -, -, halign, -⟩ := need_size hsz (by omega)
  refine all_ite (fun hgt => ?_) fun hin => ?_
  · exact move_inside h hz hu hsz hsz' (Nat.not_le.2 hgt)
  · refine all_ite (fun hlt => ?_) fun _ => all_pure _ _
    refine all_ite (fun hge => ?_) fun _ => all_pure _ _
    -- what is cut off is a block of its own
    have hsplit : need size + 16 ≤ z.mid.size := by
      unfold blkMinSize blkHdrSize alignment blkFtrSize at hge
      unfold need
      omega
    have hrest : z.mid.room - align size = z.mid.size - need size := by
      unfold need
      omega
    obtain ⟨s₁, m₁, hcut, -⟩ := split_ready hs hn hn' hsplit
    rw [need_u64 hsz (by omega), hrest]
    refine all_after hcut.front (all_after hcut.rest₁ ?_)
    refine all_after hcut.back (all_after hcut.rest₂ ?_)
    exact all_bind (hcut.inside hn (by omega)) fun _ _ _ => all_pure _ _

-- ================================================================ the runs

/-- One request with room for what it asks. -/
theorem serve_inside (h : Sim R live s S) {r : Req} (hr : Sized 0 maxSize r)
    (hroom : RoomFor live s r) : All Inside (LinkWrites.serve live r) s := by
  cases r with
  | malloc n =>
      have hn := hroom.1
      refine all_bind (malloc_inside h.rep (by omega) hr.2 hroom.2) ?_
      exact fun _ _ _ => all_pure _ _
  | reallocNull n =>
      have hn := hroom.1
      have hnull : LinkWrites.segregateMmRealloc 0 n
          = LinkWrites.segregateMmMalloc n := if_pos rfl
      unfold LinkWrites.serve
      simp only [hnull]
      refine all_bind (malloc_inside h.rep (by omega) hr.2 hroom.2) ?_
      exact fun _ _ _ => all_pure _ _
  | free i =>
      have hget := h.live_get i
      cases hx : S.live[i]? with
      | none =>
          rw [hx] at hget
          simp only [LinkWrites.serve, hget, Option.map_none]
          exact all_pure _ _
      | some x =>
          rw [hx] at hget
          obtain ⟨z, hzb, hzo, hu, -⟩ := h.ok.cursor hx
          have hfree := free_inside h.rep hzb hu
          rw [hzo] at hfree
          simp only [LinkWrites.serve, hget, Option.map_some]
          exact all_bind hfree fun _ _ _ => all_pure _ _
  | realloc i n =>
      have hget := h.live_get i
      cases hx : S.live[i]? with
      | none =>
          rw [hx] at hget
          simp only [LinkWrites.serve, hget, Option.map_none]
          exact all_pure _ _
      | some x =>
          rw [hx] at hget
          obtain ⟨z, hzb, hzo, hu, -⟩ := h.ok.cursor hx
          have hle : n ≤ maxSize := hr
          have hresize := realloc_inside h.rep hzb hu hle
          rw [hzo] at hresize
          simp only [LinkWrites.serve, hget, Option.map_some]
          exact all_bind hresize fun _ _ _ => all_pure _ _
  | write i off v => exact all_silent _ _

/-- A request with room for what it asks is one of at least a byte, and
honest. -/
theorem RoomFor.sized {r : Req} (h : RoomFor live s r)
    (hr : Sized 0 maxSize r) : Sized 1 maxSize r ∧ HonestFor live s r := by
  cases r with
  | malloc n => exact ⟨⟨Nat.one_le_iff_ne_zero.2 h.1, hr.2⟩, h.2⟩
  | reallocNull n => exact ⟨⟨Nat.one_le_iff_ne_zero.2 h.1, hr.2⟩, h.2⟩
  | free i => exact ⟨trivial, trivial⟩
  | realloc i n => exact ⟨hr, trivial⟩
  | write i off v => exact ⟨trivial, trivial⟩

/-- And back. -/
theorem RoomFor.of_sized {r : Req} (hr : Sized 1 maxSize r)
    (h : HonestFor live s r) : RoomFor live s r := by
  cases r with
  | malloc n => exact ⟨Nat.one_le_iff_ne_zero.1 hr.1, h⟩
  | reallocNull n => exact ⟨Nat.one_le_iff_ne_zero.1 hr.1, h⟩
  | free i => trivial
  | realloc i n => trivial
  | write i off v => trivial

/-- Any number of them. -/
theorem serveAll_inside (h : Sim R live s S) {reqs : List Req}
    (hsize : ∀ r ∈ reqs, Sized 0 maxSize r)
    (hroom : Along .segregate RoomFor live s reqs) :
    All Inside (LinkWrites.serveAll live reqs) s := by
  induction reqs generalizing live s S with
  | nil => exact all_pure _ _
  | cons r rs ih =>
      obtain ⟨hr, hrest⟩ := hroom
      have hsz := hsize r List.mem_cons_self
      unfold LinkWrites.serveAll
      refine all_bind (serve_inside h hsz hr) fun x s' hrun => ?_
      obtain ⟨p, live'⟩ := x
      rw [LinkWrites.erase_serve] at hrun
      obtain ⟨hsz', hhonest⟩ := hr.sized hsz
      obtain ⟨S', hsim⟩ := serve_honest h hsz' hhonest hrun
      refine all_bind (ih hsim (fun x hx => hsize x
        (List.mem_cons_of_mem r hx)) (hrest p live' s' hrun)) ?_
      exact fun _ _ _ => all_pure _ _

/-- In every run in which each allocation asks for at least a byte and
comes to a free block first at slot zero, every link that is written into
a block stays inside it. -/
theorem segregate_links (R : Region) (m : Bytes) {reqs : List Req}
    (hsize : ∀ r ∈ reqs, Sized 0 maxSize r)
    (hroom : Throughout .segregate RoomFor (memInit R m) reqs) :
    All Inside (LinkWrites.run reqs) (memInit R m) := by
  obtain ⟨s₀, hinit, hsim⟩ := init_sim R m
  unfold LinkWrites.run
  exact all_after hinit (serveAll_inside hsim hsize (hroom 0 s₀ hinit))

theorem segregate_links_sample :
    All Inside (LinkWrites.run smallReqs)
      (memInit Region.sample fun _ => 0) :=
  segregate_links _ _
    (fun r hr => (small_sized r hr).mono (by decide) (Nat.le_refl _))
    fun q s₀ hinit => along_mono
      (along_and_all (small_honest q s₀ hinit) small_sized)
      fun live s r ⟨hslot, hr⟩ => RoomFor.of_sized hr hslot

/-- Allocate nothing and free it: both links of the block at 112 are
written where it has no payload. -/
theorem segregate_links_astray :
    (∀ r ∈ ([.malloc 0, .free 0] : List Req), Sized 0 maxSize r) ∧
    ∃ w ∈ events (LinkWrites.run [.malloc 0, .free 0])
      (memInit Region.sample fun _ => 0), ¬ Inside w := by
  have hevents : (events (LinkWrites.run [.malloc 0, .free 0])
      (memInit Region.sample fun _ => 0)).map
        (fun w => (w.block, w.addr, result?
          ((blkAvalSize w.block).run w.machine)))
      = [(112, 112, some 0), (112, 120, some 0)] := by decide +kernel
  obtain ⟨w, ws, hws, hw, -⟩ := List.map_eq_cons_iff.1 hevents
  injection hw with hblock hrest
  injection hrest with haddr hroom
  refine ⟨by simp [Sized, maxSize], w, by simp [hws], ?_⟩
  rintro ⟨xs, -, hin⟩
  obtain ⟨k, hk, -, hhi⟩ := hin.payload
  rw [hk] at hroom
  have hzero : k = 0 := by simpa [result?] using hroom
  omega

end MallocLab.Proofs.Segregate
