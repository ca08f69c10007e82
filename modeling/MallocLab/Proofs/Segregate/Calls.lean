/-
The calls of segregate.c refine the abstract heap: from a machine that
represents `A`, `malloc`, `free` and `realloc` return and leave a
machine that represents what `Heap.malloc`, `Heap.free` and
`Heap.realloc` make of `A`.

`Handed` is the common shape of everything that looks for a block: the
walk along one list, one list, the lists from a slot on. Where the
abstract search finds nothing the call returns null and has changed
nothing; where it finds a block the call has handed that block out.

As in Release.lean, each lemma also says which payloads were kept: for
an allocation all of them, for a release all but the one released.
-/
import MallocLab.Proofs.Segregate.Release
import Mathlib.Data.List.Perm.Subperm
import Mathlib.Data.List.Nodup

namespace MallocLab.Proofs.Segregate

open Mem Blocks Model Model.Segregate Spec.Segregated

/-- The machine `s` represents the heap `A`. -/
structure Rep (R : Region) (s : Machine) (A : Heap) : Prop where
  shape : Shape R s A.blocks A.bins (marked false 0 A.blocks)
  coalesced : Coalesced A.blocks

variable {R : Region} {s : Machine} {A : Heap} {z : Zip} {n : Nat}

theorem Rep.ok (h : Rep R s A) : A.Ok where
  min := h.shape.filed.min
  coalesced := h.coalesced
  files := h.shape.filed.files

/-- The payloads of the blocks in use. -/
def kept (R : Region) (A : Heap) : Set Nat :=
  payload R (marked true 0 A.blocks)

-- ============================================================= carving

/-- A split of the block under the cursor, from `s` over `s₁` to `s₂`:
both parts have their tags, and the rest is filed nowhere. -/
structure Split (R : Region) (s s₁ s₂ : Machine) (z : Zip) (n : Nat)
    (B : Bins) : Prop where
  front : (setBlk (addr R z.off) n blkAlloc).run s = .ok () s₁
  rest₁ : (nextBlkp (addr R z.off)).run s₁ = .ok (addr R (z.off + n)) s₁
  back : (setBlk (addr R (z.off + n)) (z.mid.size - n) blkFree).run s₁
    = .ok () s₂
  rest₂ : (nextBlkp (addr R z.off)).run s₂ = .ok (addr R (z.off + n)) s₂
  shape : Shape R s₂ (rest z n).blocks B ((rest z n).sides false)

/-- The sizes at which a split is made: both parts are blocks. -/
structure Splits (z : Zip) (n : Nat) : Prop where
  aligned : n % 8 = 0
  front : 16 ≤ n
  fits : n + 16 ≤ z.mid.size

theorem Splits.size_front (h : Splits z n) : (Blk.of n true).size = n :=
  Blk.of_size true h.aligned (by have := h.front; omega)

theorem Splits.size_back (h : Splits z n) :
    (Blk.of (z.mid.size - n) false).size = z.mid.size - n := by
  obtain ⟨hn, hn', hfit⟩ := h
  have hal := z.mid.aligned
  exact Blk.of_size false (by omega) (by omega)

/-- The memory after both `SET_BLK`s. -/
def splitMem (R : Region) (m : Bytes) (z : Zip) (n : Nat) : Bytes :=
  stamp (stamp m (addr R z.off) (Blk.of n true)) (addr R (z.off + n))
    (Blk.of (z.mid.size - n) false)

/-- The machine after both. -/
def splitAt (R : Region) (s : Machine) (z : Zip) (n : Nat) : Machine :=
  { s with mem := splitMem R s.mem z n }

/-- Both parts are blocks of the heap after the split. -/
theorem Splits.placed (h : Splits z n) :
    (z.off, Blk.of n true) ∈ Blocks.placed 0 (rest z n).blocks ∧
      (z.off + n, Blk.of (z.mid.size - n) false)
        ∈ Blocks.placed 0 (rest z n).blocks := by
  have hfront := h.front
  refine ⟨?_, ?_⟩
  · rw [rest_blocks]
    simp [Zip.off]
  · have hmem := (rest z n).mid_placed
    rwa [rest_off h.aligned (by omega)] at hmem

/-- A split writes no link of a free block. -/
theorem Splits.scratch (h : Splits z n) (m : Bytes) :
    Set.EqOn (splitMem R m z n) m
      (scratch R ((rest z n).sides false)) := by
  intro x hx
  unfold splitMem
  rw [stamp_scratch h.placed.2 (Zip.sides_sub _) hx,
    stamp_scratch h.placed.1 (Zip.sides_sub _) hx]

/-- A split writes no payload beside the part it leaves free. -/
theorem Splits.payload (h : Splits z n) (m : Bytes) :
    Set.EqOn (splitMem R m z n) m
      (payload R (insert (z.off, Blk.of n true) (z.sides true))) := by
  have hfront := h.front
  have hfit := h.fits
  intro x hx
  rw [← rest_sides_used h.aligned (by omega) (by omega)] at hx
  have hin := payloadAt_mono (Zip.sides_sub (u := true) _) hx
  unfold splitMem
  rw [stamp_payload h.placed.2 hin, stamp_payload h.placed.1 hin]

/-- The tags after a split tile the heap. -/
theorem Splits.tiled {e : Nat} (h : Splits z n)
    (ht : Tiled (R.base + 96) e s z.blocks) :
    Tiled (R.base + 96) e (splitAt R s z n) (rest z n).blocks := by
  have hfit := h.fits
  have hsplit : z.blocks = z.left ++ [z.mid] ++ z.right := by
    simp [Zip.blocks]
  rw [hsplit] at ht
  have hpair := ht.restampPair (b := Blk.of n true)
    (c := Blk.of (z.mid.size - n) false) (by
      rw [h.size_front, h.size_back, total_cons, total_nil]
      omega)
  rw [← rest_blocks] at hpair
  unfold stampPair at hpair
  rw [h.size_front, show R.base + 96 + 8 + total z.left + n
    = addr R (z.off + n) from Nat.add_assoc _ _ _] at hpair
  exact hpair

/-- The heap after a split, with the rest filed nowhere. -/
theorem Splits.shape {B : Bins} (h : Splits z n)
    (hs : Shape R s z.blocks B (z.sides false)) :
    Shape R (splitAt R s z n) (rest z n).blocks B
      ((rest z n).sides false) := by
  have hfront := h.size_front
  have hback := h.size_back
  have hn' := h.front
  have hfit := h.fits
  refine hs.withMem (h.tiled hs.tiled) ?_
  have hf := hs.filed
  rw [← rest_sides h.aligned (by omega)
    (show n + 8 ≤ z.mid.size by omega)] at hf
  refine (hf.retile ?_ ?_ (Zip.sides_sub _)).frame (h.scratch s.mem)
  · intro b hb
    rw [rest_blocks] at hb
    simp only [List.mem_append, List.mem_cons, List.not_mem_nil,
      or_false] at hb
    rcases hb with (hb | rfl | rfl) | hb
    · exact hs.filed.min b (by simp [Zip.blocks, hb])
    · rw [hfront]
      exact hn'
    · rw [hback]
      omega
    · exact hs.filed.min b (by simp [Zip.blocks, hb])
  · have hroom := hs.filed.room
    rw [rest_blocks]
    simp only [Zip.blocks, total_append, total_cons, total_nil, hfront,
      hback] at hroom ⊢
    omega

/-- The two `SET_BLK`s of a split. -/
theorem split_ready {B : Bins} (h : Shape R s z.blocks B (z.sides false))
    (hn : n % 8 = 0) (hn' : 16 ≤ n) (hfit : n + 16 ≤ z.mid.size) :
    ∃ s₁ m, Split R s s₁ { s with mem := m } z n B ∧
      Set.EqOn m s.mem
        (payload R (insert (z.off, Blk.of n true) (z.sides true))) ∧
      (AtZero R s.mem B → AtZero R m B) := by
  have hs : Splits z n := ⟨hn, hn', hfit⟩
  have hlt := h.tiled.size_lt
  have hmax := maxHeap_lt
  have hpl := z.mid_placed
  have hbd := placed_bounds hpl
  have hset₁ := h.setBlk_ok s.mem (o := z.off) (Blk.of n true) (by
    rw [hs.size_front]
    omega)
  have hnext₁ := h.nextBlkp_ok s.mem (o := z.off) (Blk.of n true) (by
    rw [hs.size_front]
    omega)
  have hset₂ := h.setBlk_ok (stamp s.mem (addr R z.off) (Blk.of n true))
    (o := z.off + n) (Blk.of (z.mid.size - n) false) (by
      rw [hs.size_back]
      omega)
  rw [hs.size_front] at hset₁ hnext₁
  rw [hs.size_back] at hset₂
  have hnext₂ : (nextBlkp (addr R z.off)).run (splitAt R s z n)
      = .ok (addr R (z.off + n)) (splitAt R s z n) := by
    have hzip : (rest z n).blocks = Zip.blocks ⟨z.left, Blk.of n true,
        Blk.of (z.mid.size - n) false :: z.right⟩ := by
      rw [rest_blocks]
      simp [Zip.blocks]
    have ht := hs.tiled h.tiled
    rw [hzip] at ht
    have hnext := Proofs.nextBlkp_ok ht
    simp only [hs.size_front] at hnext
    rw [show addr R (z.off + n) = addr R z.off + n from
      (Nat.add_assoc _ _ _).symm]
    exact hnext
  refine ⟨_, _, ⟨hset₁, hnext₁, hset₂, hnext₂, hs.shape h⟩,
    hs.payload s.mem, fun hzero => ?_⟩
  refine h.filed.zero_frame hzero fun x hx => hs.scratch s.mem ?_
  rw [rest_sides hn (by omega) (by omega)]
  exact smalls_sub hx

/-- The two `SET_BLK`s of a split, and the insertion of the rest. -/
theorem split_ok {B : Bins} (h : Shape R s z.blocks B (z.sides false))
    (hn : n % 8 = 0) (hn' : 16 ≤ n) (hfit : n + 16 ≤ z.mid.size) :
    ∃ s₁ s₂ m, Split R s s₁ s₂ z n B ∧
      (freelistInsert (addr R (z.off + n))).run s₂
        = .ok () { s with mem := m } ∧
      Shape R { s with mem := m } (release (rest z n) B).blocks
        (release (rest z n) B).bins
        (marked false 0 (release (rest z n) B).blocks) ∧
      Set.EqOn m s.mem
        (payload R (insert (z.off, Blk.of n true) (z.sides true))) ∧
      (Spared (rest z n) → AtZero R s.mem B →
        AtZero R m (release (rest z n) B).bins) := by
  obtain ⟨s₁, m₁, hsplit, hkeep, hzero₁⟩ := split_ready h hn hn' hfit
  obtain ⟨m, hrun, hs, hm, hz⟩ := freelistInsert_ok hsplit.shape
  rw [rest_off hn (by omega)] at hrun
  refine ⟨s₁, _, m, hsplit, hrun, hs, fun x hx => ?_,
    fun hsp hzero => hz hsp (hzero₁ hzero)⟩
  rw [← rest_sides_used hn (by omega) (by omega)] at hx
  refine (hm hx).trans (hkeep ?_)
  rwa [← rest_sides_used hn (by omega) (by omega)]

/-- Marking the block under the cursor as handed out whole. -/
theorem mark_ok {B : Bins} (h : Shape R s z.blocks B (z.sides false)) :
    (setBlk (addr R z.off) z.mid.size blkAlloc).run s = .ok ()
        { s with mem := stamp s.mem (addr R z.off) (z.mid.mark true) } ∧
      Shape R { s with
          mem := stamp s.mem (addr R z.off) (z.mid.mark true) }
        (Zip.blocks { z with mid := z.mid.mark true }) B
        (marked false 0 (Zip.blocks { z with mid := z.mid.mark true })) ∧
      Set.EqOn (stamp s.mem (addr R z.off) (z.mid.mark true)) s.mem
        (payload R (insert (z.off, z.mid.mark true) (z.sides true))) ∧
      (AtZero R s.mem B →
        AtZero R (stamp s.mem (addr R z.off) (z.mid.mark true)) B) := by
  have hpl := z.mid_placed
  have hbd := placed_bounds hpl
  have hplm : (z.off, z.mid.mark true)
      ∈ placed 0 (Zip.blocks { z with mid := z.mid.mark true }) := by
    have := Zip.mem_placed { z with mid := z.mid.mark true } 0
    rw [Nat.zero_add] at this
    exact this
  have hfree : z.sides false
      = marked false 0 (Zip.blocks { z with mid := z.mid.mark true }) :=
    Zip.sides_ne (z := { z with mid := z.mid.mark true }) (by simp)
  have hused : insert (z.off, z.mid.mark true) (z.sides true)
      = marked true 0 (Zip.blocks { z with mid := z.mid.mark true }) :=
    Zip.sides_eq (z := { z with mid := z.mid.mark true }) rfl
  have hset := h.setBlk_ok s.mem (o := z.off) (z.mid.mark true)
    (by rw [Blk.mark_size]; omega)
  refine ⟨hset, h.withMem ?_ ?_, ?_, fun hzero => h.filed.zero_frame hzero
    fun x hx => stamp_scratch hplm (hfree.subset) (smalls_sub hx)⟩
  · have hsplit : z.blocks = z.left ++ [z.mid] ++ z.right := by
      simp [Zip.blocks]
    have hmark : Zip.blocks { z with mid := z.mid.mark true }
        = z.left ++ [z.mid.mark true] ++ z.right := by simp [Zip.blocks]
    have ht := h.tiled
    rw [hsplit] at ht
    rw [hmark]
    exact ht.restamp (by simp)
  · rw [← hfree]
    refine (h.filed.retile (fun b hb => ?_) ?_ ?_).frame
      (stamp_scratch hplm ?_)
    · have hmin := h.filed.min
      simp only [Zip.blocks, List.mem_append, List.mem_cons] at hb hmin
      rcases hb with hb | rfl | hb
      · exact hmin b (Or.inl hb)
      · exact hmin z.mid (Or.inr (Or.inl rfl))
      · exact hmin b (Or.inr (Or.inr hb))
    · have hroom := h.filed.room
      simpa [Zip.blocks] using hroom
    · exact hfree.subset
    · exact hfree.subset
  · rw [hused]
    exact stamp_payload hplm

/-- What is left of a free block has no free neighbour. -/
theorem rest_spared (h : Rep R s A) (hz : z.blocks = A.blocks)
    (hfree : z.mid.used = false) : Spared (rest z n) := by
  have hco := h.coalesced
  rw [← hz] at hco
  refine ⟨?_, ?_⟩
  · intro c hc hu
    have hused := (hco.free_alone hfree).2 c hc
    rw [hu] at hused
    cases hused
  · intro c hc hu
    have hfront : Blk.of n true = c := by
      simpa [rest] using hc
    rw [← hfront] at hu
    cases hu

/-- `freelist_alloc`'s way with a block that fits refines `take`. -/
theorem freelistTake_ok (h : Rep R s A) (hn : n % 8 = 0) (hn' : 16 ≤ n)
    (hz : Fit A n z) :
    ∃ m, (freelistTake (addr R z.off) z.mid.size n).run s
        = .ok (addr R z.off) { s with mem := m } ∧
      Rep R { s with mem := m } (take z n A.bins) ∧
      Set.EqOn m s.mem (kept R A) ∧
      (z.mid.size ≠ 16 → AtZero R s.mem A.bins →
        AtZero R m (take z n A.bins).bins) := by
  have hs := h.shape
  rw [← hz.blocks] at hs
  have hpl := z.mid_placed
  obtain ⟨m₁, hdel, hs₁, hm₁⟩ := freelistDelBlk_ok hs ⟨hpl, hz.free⟩
  have hco := (take_ok h.ok hz.blocks hz.free hn hn').coalesced
  rw [Zip.sides_diff hz.free] at hs₁
  have hkept : kept R A = payload R (z.sides true) := by
    unfold kept
    rw [← hz.blocks, ← Zip.sides_ne (by simp [hz.free])]
  have hkeep₁ : Set.EqOn m₁ s.mem (payload R (z.sides true)) :=
    (off_scratch hm₁).mono ((payloadAt_mono z.sides_sub).trans
      (payload_off_scratch fun _ hx => hx))
  -- a block larger than the smallest comes off another list
  have hzero₁ : z.mid.size ≠ 16 → AtZero R s.mem A.bins →
      AtZero R m₁ (A.bins.drop cls z.off z.mid) := by
    intro hsz hzero
    have hcls : cls z.mid ≠ 0 := fun h0 =>
      hsz ((hs.filed.cls_eq_zero hpl).1 h0)
    have hkeep := hs.filed.zero_frame hzero fun x hx =>
      hm₁ (smalls_off_listed hs.filed.sub hs.filed.sub hx)
    unfold AtZero at hkeep ⊢
    rwa [drop_zero hcls]
  unfold freelistTake
  rw [bind_ok hdel, hkept]
  unfold take carve at hco ⊢
  by_cases hfit : n + 16 ≤ z.mid.size
  · obtain ⟨s₁, s₂, m, hsplit, hins, hs₂, hm₂, hz₂⟩ :=
      split_ok hs₁ hn hn' hfit
    rw [if_pos hfit] at hco ⊢
    refine ⟨m, ?_, ⟨hs₂, hco⟩, fun x hx => ?_, fun hsz hzero =>
      hz₂ (rest_spared h hz.blocks hz.free) (hzero₁ hsz hzero)⟩
    · have hge : z.mid.size - n ≥ blkMinSize := by
        unfold blkMinSize blkHdrSize alignment blkFtrSize
        omega
      simp only [if_pos hge]
      rw [bind_ok hsplit.front, bind_ok hsplit.rest₁, bind_ok hsplit.back,
        bind_ok hsplit.rest₂, bind_ok hins]
      rfl
    · exact (hm₂ (payloadAt_mono (Set.subset_insert _ _) hx)).trans
        (hkeep₁ hx)
  · obtain ⟨hset, hs₂, hm₂, hz₂⟩ := mark_ok hs₁
    rw [if_neg hfit] at hco ⊢
    refine ⟨_, ?_, ⟨hs₂, hco⟩, fun x hx => ?_, fun hsz hzero =>
      hz₂ (hzero₁ hsz hzero)⟩
    · have hge : ¬ z.mid.size - n ≥ blkMinSize := by
        have := hz.size
        unfold blkMinSize blkHdrSize alignment blkFtrSize
        omega
      have hsize : (blkSize (addr R z.off)).run { s with mem := m₁ }
          = .ok z.mid.size { s with mem := m₁ } := blkSize_ok hs₁.tiled
      simp only [if_neg hge]
      rw [bind_ok hsize, bind_ok hset]
      rfl
    · exact (hm₂ (payloadAt_mono (Set.subset_insert _ _) hx)).trans
        (hkeep₁ hx)

-- ======================================================== looking for one

/-- What a search for `n` bytes comes to: null and nothing changed, or
the block found handed out. One of the smallest size stays at slot
zero. -/
def Handed (R : Region) (s : Machine) (A : Heap) (n : Nat) (o : Option Zip)
    (r : EStateM.Result Stop Machine Nat) : Prop :=
  match o with
  | none => r = .ok 0 s
  | some z => ∃ m, r = .ok (addr R z.off) { s with mem := m } ∧
      Rep R { s with mem := m } (take z n A.bins) ∧
      Set.EqOn m s.mem (kept R A) ∧
      (z.mid.size ≠ 16 → AtZero R s.mem A.bins →
        AtZero R m (take z n A.bins).bins)

/-- The walk along what is left of a list. -/
theorem freelistWalk_ok (h : Rep R s A) (hn : n % 8 = 0) (hn' : 16 ≤ n)
    {k : Nat}
    (hlink : Strung s.mem (slot R k) ((A.bins k).map (addr R)))
    {ys : List Nat} :
    ∀ (xs : List Nat) {fuel : Nat}, A.bins k = xs ++ ys →
      ys.length < fuel →
      Handed R s A n (firstFit A.blocks n ys)
        ((freelistWalk n fuel ((ys.map (addr R)).headD 0)).run s) := by
  induction ys with
  | nil =>
      intro xs fuel hB hf
      obtain ⟨fuel, rfl⟩ : ∃ f, fuel = f + 1 := ⟨fuel - 1, by omega⟩
      rfl
  | cons o os ih =>
      intro xs fuel hB hf
      obtain ⟨fuel, rfl⟩ : ∃ f, fuel = f + 1 := ⟨fuel - 1, by
        simp only [List.length_cons] at hf
        omega⟩
      have hmem : o ∈ A.bins k := by
        rw [hB]
        simp
      obtain ⟨b, hb, -⟩ := (h.shape.filed.files.mem k o).1 hmem
      have hbig := (h.shape.filed.bounds hb).1
      have hr := b.room_add
      obtain ⟨z, hzb, hzo, hzm⟩ := Zip.of_placed hb.1
      have hfind : Zip.find? o A.blocks = some z := by
        rw [← hzb, ← hzo]
        exact z.find?_blocks
      have htiled := h.shape.tiled
      rw [← hzb] at htiled
      have hsize : (blkSize (addr R o)).run s = .ok z.mid.size s := by
        rw [← hzo]
        exact blkSize_ok htiled
      have hpos := addr_pos R o
      simp only [firstFit, List.findSome?_cons, hfind, List.map_cons,
        List.headD_cons]
      unfold freelistWalk
      rw [if_neg hpos, bind_ok hsize]
      by_cases hfit : n ≤ z.mid.size
      · -- the node fits
        have hz : Fit A n z := ⟨hzb, by rw [hzm]; exact hb.2, hfit⟩
        have htake := freelistTake_ok h hn hn' hz
        rw [if_pos hfit]
        simp only [Option.filter, hfit, decide_true, if_true]
        rw [hzo] at htake
        show ∃ m, _
        rw [hzo]
        exact htake
      · -- the walk goes on
        rw [hB, List.map_append, List.map_cons] at hlink
        have hnext : (nextFreeBlkp (addr R o)).run s
            = .ok ((os.map (addr R)).headD 0) s := by
          have hacc := h.shape.block_access hb.1 (a := addr R o) (n := 8)
            (by omega) (by omega)
          rw [← hlink.next_eq]
          exact load_ok hacc
        rw [if_neg hfit]
        simp only [Option.filter, hfit, decide_false, Bool.false_eq_true,
          if_false]
        rw [bind_ok hnext]
        have hsplit : A.bins k = (xs ++ [o]) ++ os := by rw [hB]; simp
        exact ih _ hsplit (by simp only [List.length_cons] at hf; omega)

/-- A list is shorter than the loops are run for. -/
theorem bin_length (h : Rep R s A) (k : Nat) :
    (A.bins k).length < loopFuel := by
  have hsub : A.bins k ⊆ List.range maxHeap := by
    intro o ho
    obtain ⟨b, hb, -⟩ := (h.ok.files.mem k o).1 ho
    have hbd := placed_bounds hb.1
    have hroom := h.shape.filed.room
    have hpos := b.pos
    exact List.mem_range.2 (by omega)
  have hlen := (List.subperm_of_subset (h.ok.files.nodup k) hsub).length_le
  rw [List.length_range] at hlen
  unfold loopFuel
  omega

/-- `freelist_alloc` on the list of class `k` is the first fit there. -/
theorem freelistAlloc_ok (h : Rep R s A) {size k : Nat}
    (hlo : 16 ≤ need size) (hlt : need size < 2 ^ 64) (hk : k ≤ 10)
    (hlink : Strung s.mem (slot R k) ((A.bins k).map (addr R))) :
    Handed R s A (need size) (firstFit A.blocks (need size) (A.bins k))
      ((freelistAlloc (R.base + 8 * k) size).run s) := by
  have hnext : (nextFreeBlkp (R.base + 8 * k)).run s
      = .ok (((A.bins k).map (addr R)).headD 0) s := by
    rw [← hlink.cell_eq]
    exact load_ok (h.shape.access (by omega) (by omega))
  have hwalk := freelistWalk_ok h (need_mod size) hlo hlink []
    (List.nil_append _).symm (bin_length h k)
  unfold freelistAlloc
  rw [bind_ok hnext, u64_need hlt]
  cases hB : A.bins k with
  | nil =>
      rw [if_pos (by rfl)]
      rfl
  | cons o os =>
      have hpos := addr_pos R o
      rw [hB] at hwalk
      rw [if_neg (by exact hpos)]
      exact hwalk

/-- The loop over the slots is the search. -/
theorem scanSlots_ok (h : Rep R s A) {size : Nat} (hsz : 1 ≤ size)
    (hsz' : size ≤ 2 ^ 31 - 16) {ks : List Nat}
    (hks : ∀ k ∈ ks, 1 ≤ k ∧ k ≤ 10) :
    Handed R s A (need size) (search A (need size) ks)
      ((scanSlots size ks).run s) := by
  induction ks with
  | nil => rfl
  | cons k ks ih =>
      obtain ⟨hk, hk'⟩ := hks k List.mem_cons_self
      have hneed := need_size hsz (by omega)
      have halloc := freelistAlloc_ok h hneed.2.1 (by omega) hk'
        (h.shape.filed.links k hk hk').strung
      have hrest := ih fun j hj => hks j (List.mem_cons_of_mem k hj)
      unfold scanSlots
      rw [bind_ok (run_get s)]
      have htab : s.freelistTable + 8 * k = R.base + 8 * k := by
        rw [h.shape.table]
      rw [htab]
      simp only [search, List.findSome?_cons]
      cases hf : firstFit A.blocks (need size) (A.bins k) with
      | none =>
          rw [hf] at halloc
          have hnone : (freelistAlloc (R.base + 8 * k) size).run s
              = .ok 0 s := halloc
          rw [bind_ok hnone]
          exact hrest
      | some z =>
          rw [hf] at halloc
          obtain ⟨m, hrun, hrep, hm⟩ := halloc
          have hpos := addr_pos R z.off
          refine ⟨m, ?_, hrep, hm⟩
          rw [bind_ok hrun, if_pos hpos]
          rfl

-- ========================================================= more memory

/-- A multiple of eight passes the check of `extend_heap`. -/
theorem tmod_aligned {i : Int} (h : i % 8 = 0) : ¬ i.tmod alignment ≠ 0 :=
  not_not.2 (Int.tmod_eq_zero_of_dvd (Int.dvd_of_emod_eq_zero h))

/-- `extend_heap`, when there is room: the break moves, and the word
below the new break closes the heap. -/
theorem extendHeap_ok (hbrk : s.memStartBrk ≤ s.memBrk)
    (hlt : s.memMaxAddr < 2 ^ 64) (hn : n % 8 = 0) (hn' : 8 ≤ n)
    (hfit : s.memBrk + n ≤ s.memMaxAddr) :
    (extendHeap (n : Int)).run s = .ok s.memBrk { s with
      memBrk := s.memBrk + n
      mem := wr 4 s.mem (s.memBrk + n - 4) 1 } := by
  have hmod := tmod_aligned (i := (n : Int)) (by omega)
  have hbrk' : (memSbrk 0).run { s with memBrk := s.memBrk + n }
      = .ok (s.memBrk + n) { s with memBrk := s.memBrk + n } :=
    memSbrk_ok (n := 0) (s := { s with memBrk := s.memBrk + n }) hfit
  have hset : (setEb (s.memBrk + n)).run { s with memBrk := s.memBrk + n }
      = .ok () { s with
        memBrk := s.memBrk + n
        mem := wr 4 s.mem (s.memBrk + n - 4) 1 } := by
    refine store_ok _ ⟨?_, ?_, hfit⟩
    · show s.memStartBrk ≤ s.memBrk + n - 4
      omega
    · show s.memBrk + n - 4 + 4 ≤ s.memBrk + n
      omega
  unfold extendHeap
  rw [if_neg (by omega), if_neg hmod, bind_ok (memSbrk_ok hfit),
    if_neg (by unfold minusOne; omega), bind_ok hbrk', bind_ok hset]
  rfl

/-- Without room it returns null and sets `errno`. -/
theorem extendHeap_fail (hn : n % 8 = 0) (hn' : 8 ≤ n)
    (hfit : s.memMaxAddr < s.memBrk + n) :
    (extendHeap (n : Int)).run s = .ok 0 { s with errno := enomem } := by
  have hmod := tmod_aligned (i := (n : Int)) (by omega)
  unfold extendHeap
  rw [if_neg (by omega), if_neg hmod,
    bind_ok (memSbrk_fail (Or.inr (by omega))), if_pos rfl]
  rfl

/-- What an allocation comes to: null with `errno` set and nothing else
changed, or the new heap with every payload kept. -/
def Served (R : Region) (s : Machine) (A : Heap)
    (x : Option (Nat × Heap)) (r : EStateM.Result Stop Machine Nat) : Prop :=
  match x with
  | none => r = .ok 0 { s with errno := enomem }
  | some (o, A') => ∃ s', r = .ok (addr R o) s' ∧ Rep R s' A' ∧
      Set.EqOn s'.mem s.mem (kept R A) ∧
      ((∀ b, (o, b) ∈ marked false 0 A.blocks → b.size ≠ 16) →
        AtZero R s.mem A.bins → AtZero R s'.mem A'.bins)

/-- The payloads and the lists lie below the closing word. -/
theorem below_brk (h : Rep R s A) {x : Nat}
    (hx : x ∈ scratch R (marked false 0 A.blocks) ∨ x ∈ kept R A) :
    x < s.memBrk - 4 := by
  have hbrk := h.shape.tiled.brk
  have hpay : ∀ {y : Nat × Blk}, y ∈ placed 0 A.blocks →
      x < addr R y.1 + y.2.room → x < s.memBrk - 4 := by
    intro y hy hlt
    have hbd := placed_bounds (b := y.2) hy
    have hr := y.2.room_add
    unfold addr at hlt
    omega
  rcases hx with (⟨h1, h2⟩ | ⟨y, hy, h1, h2⟩) | ⟨y, hy, h1, h2⟩
  · omega
  · exact hpay hy.1 h2
  · exact hpay hy.1 h2

/-- The memory after the heap has grown by a block of `n` bytes: the
header replaces the old closing word, the footer is new. -/
def grownMem (s : Machine) (n : Nat) : Bytes :=
  stamp (wr 4 s.mem (s.memBrk + n - 4) 1) s.memBrk (Blk.of n true)

/-- Below the old closing word nothing changes. -/
theorem grownMem_below (hbrk : 4 ≤ s.memBrk) (hn : n % 8 = 0)
    (hn' : 8 ≤ n) :
    Set.EqOn (grownMem s n) s.mem (Set.Iio (s.memBrk - 4)) := by
  have hb : (Blk.of n true).size = n := Blk.of_size true hn hn'
  intro x hx
  have hx' : x < s.memBrk - 4 := hx
  unfold grownMem
  rw [stamp_of_out (by omega) ?_, wr_of_out (by omega)]
  intro hc
  rcases hc with hc | hc
  · omega
  · omega

/-- The new closing word is behind the block. -/
theorem grownMem_last (hbrk : 4 ≤ s.memBrk) (hn : n % 8 = 0)
    (hn' : 8 ≤ n) :
    rd 4 (grownMem s n) (s.memBrk + (Blk.of n true).size - 4) = 1 := by
  have hb : (Blk.of n true).size = n := Blk.of_size true hn hn'
  unfold grownMem stamp
  rw [hb, rd_wr_ne (by omega), rd_wr_ne (by omega)]
  exact rd_wr_of_lt (by decide)

/-- The grown heap, its new block in use. -/
theorem Rep.grown (h : Rep R s A) (hn : n % 8 = 0) (hn' : 16 ≤ n)
    (hroom : 104 + total A.blocks + n ≤ maxHeap) :
    Rep R { s with memBrk := s.memBrk + n, mem := grownMem s n }
      ⟨A.blocks ++ [Blk.of n true], A.bins⟩ := by
  have hbrk := h.shape.tiled.brk
  have hmax := h.shape.max
  have hsmall := maxHeap_lt
  have hb : (Blk.of n true).size = n := Blk.of_size true hn (by omega)
  have hoff := grownMem_below (s := s) (n := n) (by omega) hn (by omega)
  have hlast := grownMem_last (s := s) (n := n) (by omega) hn (by omega)
  refine ⟨?_, ?_⟩
  · have ht := h.shape.tiled.extend (b := Blk.of n true)
      (by omega) hoff (stamp_tagged (by omega) (by omega)) hlast
    rw [hb] at ht
    refine ⟨h.shape.start, h.shape.max, h.shape.table, h.shape.listp,
      h.shape.strays, ht, ?_⟩
    have hsub : marked false 0 (A.blocks ++ [Blk.of n true])
        = marked false 0 A.blocks := by
      rw [marked_append, marked_cons_ne [] (by simp), marked_nil,
        Set.union_empty]
    simp only
    rw [hsub]
    refine (h.shape.filed.retile ?_ ?_ hsub.symm.subset).frame
      fun x hx => hoff (below_brk h (Or.inl hx))
    · intro c hc
      rcases List.mem_append.1 hc with hc | hc
      · exact h.shape.filed.min c hc
      · rw [List.mem_singleton.1 hc, hb]
        exact hn'
    · rw [total_append, total_cons, total_nil, hb]
      omega
  · refine List.isChain_append.2 ⟨h.coalesced, List.isChain_singleton _,
      fun c _ d hd => ?_⟩
    cases hd
    exact Or.inr rfl

/-- A new block at the end, when no list has one. -/
theorem grow_served (h : Rep R s A) (hn : n % 8 = 0) (hn' : 16 ≤ n)
    (hlt : n < 2 ^ 31) :
    Served R s A (A.grow n) ((do
      let bp ← extendHeap (toInt n)
      if bp = 0 then return 0
      setBlk bp n blkAlloc
      return bp : M Nat).run s) := by
  have hbrk := h.shape.tiled.brk
  have hstart := h.shape.start
  have hmax := h.shape.max
  have hfits := R.fits
  have hsmall := maxHeap_lt
  have hb : (Blk.of n true).size = n := Blk.of_size true hn (by omega)
  rw [toInt_of_lt hlt]
  unfold Heap.grow lead
  by_cases hroom : 104 + total A.blocks + n ≤ maxHeap
  · rw [if_pos hroom]
    have hext := extendHeap_ok (s := s) (n := n) (by omega) (by omega) hn
      (by omega) (by omega)
    have hset := Proofs.setBlk_ok (s := { s with
        memBrk := s.memBrk + n
        mem := wr 4 s.mem (s.memBrk + n - 4) 1 }) (p := s.memBrk)
      (Blk.of n true) (by omega)
      (by show s.memStartBrk ≤ s.memBrk - 4; omega)
      (by show s.memBrk + (Blk.of n true).size - 4 ≤ s.memBrk + n; omega)
      (by show s.memBrk + n ≤ s.memMaxAddr; omega) (by omega)
    have haddr : s.memBrk = addr R (total A.blocks) := by
      unfold addr
      omega
    have hoff := grownMem_below (s := s) (n := n) (by omega) hn (by omega)
    refine ⟨_, ?_, h.grown hn hn' hroom,
      fun x hx => hoff (below_brk h (Or.inr hx)), fun _ hzero =>
        h.shape.filed.zero_frame hzero fun x hx =>
          hoff (below_brk h (Or.inl (smalls_sub hx)))⟩
    rw [bind_ok hext, if_neg (by omega), ← haddr]
    rw [hb] at hset
    exact bind_ok hset
  · rw [if_neg hroom]
    have hext := extendHeap_fail (s := s) (n := n) hn (by omega) (by omega)
    rw [show Served R s A none = fun r =>
      r = .ok 0 { s with errno := enomem } from rfl]
    simp only
    rw [bind_ok hext]
    rfl

/-- The loop over the slots from the first that could serve: slot zero, if
it is looked at, and then the search. -/
theorem scanAll_ok (h : Rep R s A) {size : Nat} {pick : Option Zip}
    (hsz : 1 ≤ size) (hsz' : size ≤ 2 ^ 31 - 16)
    (hzero : if fltIndexOf size = 0
      then Handed R s A (need size) pick ((freelistAlloc R.base size).run s)
      else pick = none) :
    Handed R s A (need size)
      (pick.or (search A (need size) (slots size)))
      ((scanSlots size (List.range' (fltIndexOf size)
        (fltSlotNum - fltIndexOf size))).run s) := by
  have hle := fltIndexOf_le size
  have hslots : ∀ k ∈ slots size, 1 ≤ k ∧ k ≤ 10 := by
    intro k hk
    have := List.mem_range'_1.1 hk
    omega
  have hscan := scanSlots_ok h hsz hsz' hslots
  by_cases hidx : fltIndexOf size = 0
  · have hrange : List.range' (fltIndexOf size)
        (fltSlotNum - fltIndexOf size) = 0 :: slots size := by
      unfold slots fltSlotNum
      rw [hidx]
      rfl
    rw [if_pos hidx] at hzero
    rw [hrange]
    unfold scanSlots
    have htab : s.freelistTable + 8 * 0 = R.base := by
      rw [h.shape.table]
      rfl
    rw [bind_ok (run_get s), htab]
    cases pick with
    | none =>
        have hnone : (freelistAlloc R.base size).run s = .ok 0 s := hzero
        rw [bind_ok hnone, Option.none_or]
        exact hscan
    | some z =>
        obtain ⟨m, hrun, hrep, hm⟩ := hzero
        refine ⟨m, ?_, hrep, hm⟩
        have hpos := addr_pos R z.off
        rw [bind_ok hrun, if_pos hpos]
        rfl
  · rw [if_neg hidx] at hzero
    have hrange : List.range' (fltIndexOf size)
        (fltSlotNum - fltIndexOf size) = slots size := by
      unfold slots fltSlotNum
      rw [Nat.max_eq_left (by omega)]
    rw [hzero, hrange, Option.none_or]
    exact hscan

/-- `segregate_mm_malloc` refines `Heap.malloc`: at a size that looks at
slot zero, with whatever block was found there. -/
theorem segregateMmMalloc_ok (h : Rep R s A) (size : Nat)
    (pick : Option Zip) (hsz : 1 ≤ size) (hsz' : size ≤ 2 ^ 31 - 16)
    (hpick : ∀ z ∈ pick, Fit A (need size) z)
    (hzero : if fltIndexOf size = 0
      then Handed R s A (need size) pick ((freelistAlloc R.base size).run s)
      else pick = none) :
    Served R s A (A.malloc pick size) ((segregateMmMalloc size).run s) := by
  obtain ⟨hn, hn', hlt, -⟩ := need_size hsz (by omega)
  have hgrow := grow_served h hn hn' (by omega)
  have hall := scanAll_ok h hsz hsz' hzero
  unfold segregateMmMalloc Heap.malloc
  simp only [need_u64 hsz (by omega)]
  cases hfound : pick.or (search A (need size) (slots size)) with
  | none =>
      rw [hfound] at hall
      have hnone : (scanSlots size (List.range' (fltIndexOf size)
        (fltSlotNum - fltIndexOf size))).run s = .ok 0 s := hall
      rw [bind_ok hnone]
      exact hgrow
  | some z =>
      rw [hfound] at hall
      obtain ⟨m, hrun, hrep, hm, hz₀⟩ := hall
      have hpos := addr_pos R z.off
      have hfit : Fit A (need size) z := by
        cases pick with
        | some w =>
            rw [Option.some_or] at hfound
            exact hpick z (by rw [hfound]; rfl)
        | none =>
            rw [Option.none_or] at hfound
            exact search_fit h.ok hfound
      have hfree : (z.off, z.mid) ∈ marked false 0 A.blocks := by
        have := z.mid_placed
        rw [hfit.blocks] at this
        exact ⟨this, hfit.free⟩
      refine ⟨_, ?_, hrep, hm, fun hlarge => hz₀ (hlarge _ hfree)⟩
      rw [bind_ok hrun, if_pos hpos]
      rfl

/-- Above eight bytes slot zero is not looked at. -/
theorem segregateMmMalloc_large (h : Rep R s A) {size : Nat}
    (hsz : 9 ≤ size) (hsz' : size ≤ 2 ^ 31 - 16) :
    Served R s A (A.malloc none size) ((segregateMmMalloc size).run s) := by
  have hidx : ¬ fltIndexOf size = 0 := by
    rw [fltIndexOf_eq_zero (by omega) (by omega)]
    omega
  exact segregateMmMalloc_ok h size none (by omega) hsz' (by simp)
    (by rw [if_neg hidx])

-- ===================================================== free and realloc

/-- With a block in use under it, the cursor has all free blocks beside
it. -/
theorem Rep.at (h : Rep R s A) (hz : z.blocks = A.blocks)
    (hu : z.mid.used = true) :
    Shape R s z.blocks A.bins (z.sides false) := by
  have hs := h.shape
  rw [← hz] at hs
  rwa [Zip.sides_ne (by simp [hu])]

/-- `segregate_mm_free` refines `release`. -/
theorem segregateMmFree_ok (h : Rep R s A) (hz : z.blocks = A.blocks)
    (hu : z.mid.used = true) :
    ∃ m, (segregateMmFree (addr R z.off)).run s
        = .ok () { s with mem := m } ∧
      Rep R { s with mem := m } (release z A.bins) ∧
      Set.EqOn m s.mem (payload R (z.sides true)) ∧
      (Spared z → AtZero R s.mem A.bins →
        AtZero R m (release z A.bins).bins) := by
  obtain ⟨m, hrun, hs, hm⟩ := freelistInsert_ok (h.at hz hu)
  exact ⟨m, hrun, ⟨hs, (free_spec h.ok hz hu).2.1.coalesced⟩, hm⟩

/-- The scratch is off the payload of a block in use. -/
theorem scratch_out {bs : List Blk} {o x : Nat} {b : Blk}
    (hb : (o, b) ∈ marked true 0 bs)
    (hx : x ∈ scratch R (marked false 0 bs)) :
    x < addr R o ∨ addr R o + b.room ≤ x := by
  by_contra hc
  have hin : x ∈ payload R (marked true 0 bs) :=
    ⟨(o, b), hb, show addr R o ≤ x by omega,
      show x < addr R o + b.room by omega⟩
  exact payload_off_scratch (fun _ hy => hy) hin hx

/-- Bytes of a payload in use may change freely. -/
theorem Rep.write (h : Rep R s A) {o : Nat} {b : Blk}
    (hb : (o, b) ∈ marked true 0 A.blocks) {m : Bytes}
    (hm : ∀ x, x < addr R o ∨ addr R o + b.room ≤ x → m x = s.mem x) :
    Rep R { s with mem := m } A :=
  ⟨h.shape.withMem (h.shape.tiled.write hb.1 hm)
    (h.shape.filed.frame fun x hx => hm x (scratch_out hb hx)), h.coalesced⟩

/-- The list at slot zero is off them. -/
theorem Rep.write_zero (h : Rep R s A) {o : Nat} {b : Blk}
    (hb : (o, b) ∈ marked true 0 A.blocks) {m : Bytes}
    (hzero : AtZero R s.mem A.bins)
    (hm : ∀ x, x < addr R o ∨ addr R o + b.room ≤ x → m x = s.mem x) :
    AtZero R m A.bins :=
  h.shape.filed.zero_frame hzero fun x hx =>
    hm x (scratch_out hb (smalls_sub hx))

/-- `segregate_mm_realloc` of a block that is big enough stays in place
and carves it. -/
theorem segregateMmRealloc_stay (h : Rep R s A) (hz : z.blocks = A.blocks)
    (hu : z.mid.used = true) {size : Nat} (hsz : 1 ≤ size)
    (hsz' : size ≤ 2 ^ 31 - 16) (hfit : align size ≤ z.mid.room) :
    ∃ m, (segregateMmRealloc (addr R z.off) size).run s
        = .ok (addr R z.off) { s with mem := m } ∧
      Rep R { s with mem := m } (carve z (need size) A.bins) ∧
      Set.EqOn m s.mem (payload R
        (insert (z.off, granted z (need size)) (z.sides true))) ∧
      ((need size + 16 ≤ z.mid.size → Spared (rest z (need size))) →
        AtZero R s.mem A.bins →
        AtZero R m (carve z (need size) A.bins).bins) := by
  obtain ⟨hn, hn', -, -, halign, -⟩ := need_size hsz (by omega)
  have hr := z.mid.room_add
  have hal := z.mid.aligned
  have hs := h.at hz hu
  have hpos := addr_pos R z.off
  have haval : (blkAvalSize (addr R z.off)).run s = .ok z.mid.room s :=
    blkAvalSize_ok hs.tiled
  have hre : A.realloc z.off size
      = some (z.off, carve z (need size) A.bins) := by
    rw [Heap.realloc_at hz rfl, if_pos hfit]
  have hco := (realloc_spec h.ok hz hu hsz hsz' hre).1.coalesced
  unfold segregateMmRealloc
  rw [if_neg hpos, if_neg (by omega)]
  simp only
  rw [bind_ok haval, if_neg (by omega)]
  unfold carve granted at *
  by_cases hsplit : need size + 16 ≤ z.mid.size
  · obtain ⟨s₁, s₂, m, hcut, hins, hs₂, hm₂, hz₂⟩ :=
      split_ok hs hn hn' hsplit
    rw [if_pos hsplit] at hco ⊢
    have hlt : align size < z.mid.room := by
      unfold need at hsplit
      omega
    have hge : z.mid.room - align size ≥ blkMinSize := by
      unfold need at hsplit
      unfold blkMinSize blkHdrSize alignment blkFtrSize
      omega
    have hrest : z.mid.room - align size = z.mid.size - need size := by
      unfold need
      omega
    rw [if_pos hsplit]
    refine ⟨m, ?_, ⟨hs₂, hco⟩, hm₂, fun hsp => hz₂ (hsp hsplit)⟩
    rw [if_pos hlt, if_pos hge, need_u64 hsz (by omega), hrest,
      bind_ok hcut.front, bind_ok hcut.rest₁, bind_ok hcut.back,
      bind_ok hcut.rest₂]
    exact bind_ok hins
  · have hmark : z.mid.mark true = z.mid := Blk.ext rfl hu.symm
    rw [if_neg hsplit] at hco ⊢
    rw [if_neg hsplit, hmark]
    refine ⟨s.mem, ?_, ?_, fun x _ => rfl, fun _ hzero => hzero⟩
    · by_cases hlt : align size < z.mid.room
      · have hge : ¬ z.mid.room - align size ≥ blkMinSize := by
          unfold need at hsplit
          unfold blkMinSize blkHdrSize alignment blkFtrSize
          omega
        rw [if_pos hlt, if_neg hge]
        rfl
      · rw [if_neg hlt]
        rfl
    · have hsame : (⟨z.blocks, A.bins⟩ : Heap) = A := by rw [hz]
      exact hsame ▸ h

/-- The block under the cursor is being moved: the larger block `b` is
there at `o`, in the heap `C`, and the contents can be copied to it. The
cursor `w` is the old block in that heap. -/
structure Moving (R : Region) (s : Machine) (C : Heap) (z w : Zip)
    (o : Nat) (b : Blk) : Prop where
  blocks : w.blocks = C.blocks
  off : w.off = z.off
  mid : w.mid = z.mid
  new : (o, b) ∈ marked true 0 C.blocks
  fresh : ∀ c, (o, c) ∉ z.sides true
  sides : w.sides true = insert (o, b) (z.sides true)
  apart : o + b.size ≤ z.off ∨ z.off + z.mid.size ≤ o
  larger : z.mid.room ≤ b.room
  aval : (blkAvalSize (addr R z.off)).run s = .ok z.mid.room s
  copies : (memcpy (addr R o) (addr R z.off) z.mid.room).run s
    = .ok () { s with mem := copy s.mem (addr R o) (addr R z.off) z.mid.room }
  rep : Rep R
    { s with mem := copy s.mem (addr R o) (addr R z.off) z.mid.room } C

/-- Once the larger block is there. -/
theorem moving_ok (hA : A.Ok) (hz : z.blocks = A.blocks)
    (hu : z.mid.used = true) {size : Nat} (hsz : 1 ≤ size)
    (hsz' : size ≤ 2 ^ 31 - 16) (hfit : ¬ align size ≤ z.mid.room)
    {o : Nat} {C : Heap} (hm : A.malloc none (align size) = some (o, C))
    {s : Machine} (h : Rep R s C) : ∃ w b, Moving R s C z w o b := by
  obtain ⟨-, -, hlt, hle, halign, -⟩ := need_size hsz (by omega)
  unfold need at hlt
  have hr := z.mid.room_add
  obtain ⟨hC, b, hb, hbr, hfresh, huse⟩ := malloc_spec hA (by omega)
    (by omega) (by simp) hm
  rw [align_align] at hbr
  rw [← hz] at hfresh huse
  rw [← Zip.sides_eq hu] at hfresh
  have hfresh' : ∀ c, (o, c) ∉ z.sides true :=
    fun c hc => hfresh c (Or.inr hc)
  have hold : (z.off, z.mid) ∈ marked true 0 C.blocks := by
    rw [huse, ← Zip.sides_eq hu]
    exact Or.inr (Or.inl rfl)
  have hnew : (o, b) ∈ marked true 0 C.blocks := by
    rw [huse]
    exact Or.inl rfl
  have hne : (o, b) ≠ (z.off, z.mid) := by
    intro he
    exact hfresh b (Or.inl he)
  obtain ⟨w, hwb, hwo, hwm⟩ := Zip.of_placed hold.1
  have hwu : w.mid.used = true := by rw [hwm]; exact hu
  have hsep : o + b.size ≤ z.off ∨ z.off + z.mid.size ≤ o := by
    rcases placed_disjoint hnew.1 hold.1 with ⟨he, hbz⟩ | hd
    · exact absurd (Prod.ext he hbz) hne
    · exact hd
  have hbr' := b.room_add
  have hroom : z.mid.room ≤ b.room := by omega
  refine ⟨w, b, hwb, hwo, hwm, hnew, hfresh', ?_, hsep, hroom, ?_, ?_, ?_⟩
  · rw [← Zip.sides_diff hwu, hwb, huse, hwo, hwm,
      Set.insert_sdiff_of_notMem _ (by simpa using hne), Zip.sides_diff hu]
  · rw [← hwo, ← hwm]
    exact blkAvalSize_ok (h.at hwb hwu).tiled
  · exact memcpy_ok
      (h.shape.block_access hnew.1 (a := addr R o) (n := z.mid.room)
        (Nat.le_refl _) (by omega))
      (h.shape.block_access hold.1 (a := addr R z.off)
        (n := z.mid.room) (Nat.le_refl _) (Nat.le_refl _))
  · exact h.write hnew fun x hx => copy_of_out (by omega)

/-- A growing `segregate_mm_realloc` whose inner allocation succeeds
moves the block, contents and all. -/
theorem segregateMmRealloc_move (h : Rep R s A) (hz : z.blocks = A.blocks)
    (hu : z.mid.used = true) {size : Nat} (hsz : 1 ≤ size)
    (hsz' : size ≤ 2 ^ 31 - 16) (hfit : ¬ align size ≤ z.mid.room)
    {o : Nat} {C : Heap} (hm : A.malloc none (align size) = some (o, C)) :
    ∃ s', (segregateMmRealloc (addr R z.off) size).run s
        = .ok (addr R o) s' ∧
      Rep R s' (C.free z.off) ∧
      Set.EqOn s'.mem s.mem (payload R (z.sides true)) ∧
      (∀ i < z.mid.room,
        s'.mem (addr R o + i) = s.mem (addr R z.off + i)) ∧
      ((∀ w : Zip, w.blocks = C.blocks → w.off = z.off → Spared w) →
        AtZero R s.mem A.bins → AtZero R s'.mem (C.free z.off).bins) := by
  obtain ⟨-, -, hlt, hle, halign, -⟩ := need_size hsz (by omega)
  unfold need at hlt
  have hr := z.mid.room_add
  have hmin := h.ok.min z.mid (by rw [← hz]; simp [Zip.blocks])
  have hpos := addr_pos R z.off
  have haval : (blkAvalSize (addr R z.off)).run s = .ok z.mid.room s :=
    blkAvalSize_ok (h.at hz hu).tiled
  have hserved := segregateMmMalloc_large h
    (show 9 ≤ align size by omega) (by omega)
  rw [hm] at hserved
  obtain ⟨s₁, hrun₁, hrep₁, hm₁, hz₁⟩ := hserved
  obtain ⟨w, b, hmove⟩ := moving_ok h.ok hz hu hsz hsz' hfit hm hrep₁
  have hwu : w.mid.used = true := by rw [hmove.mid]; exact hu
  have hbr := b.room_add
  have hlarger := hmove.larger
  have hapart := hmove.apart
  obtain ⟨m, hfree, hrep₃, hm₃, hz₃⟩ :=
    segregateMmFree_ok hmove.rep hmove.blocks hwu
  have hCfree := (free_spec hrep₁.ok hmove.blocks hwu).1
  rw [hmove.off] at hfree hCfree
  rw [hmove.sides] at hm₃
  refine ⟨_, ?_, hCfree ▸ hrep₃, fun x hx => ?_, fun i hi => ?_,
    fun hsp hzero => ?_⟩
  · unfold segregateMmRealloc
    rw [if_neg hpos, if_neg (by omega)]
    simp only
    rw [bind_ok haval, if_pos (by omega), bind_ok hrun₁, bind_ok hmove.aval,
      bind_ok hmove.copies, bind_ok hfree]
    rfl
  · -- the other payloads: kept by the allocation, clear of the copy
    have hin : x ∈ kept R A := by
      unfold kept
      rw [← hz]
      exact payloadAt_mono z.sides_sub hx
    refine (hm₃ ?_).trans ((copy_of_out ?_).trans (hm₁ hin))
    · exact payloadAt_mono (Set.subset_insert _ _) hx
    · obtain ⟨y, hy, h1, h2⟩ := hx
      have hyC : y ∈ marked true 0 C.blocks := by
        rw [← hmove.blocks]
        apply w.sides_sub
        rw [hmove.sides]
        exact Or.inr hy
      have hyr := y.2.room_add
      rcases placed_disjoint (b := y.2) hyC.1 hmove.new.1 with ⟨he, -⟩ | hd
      · refine absurd hy ?_
        have := hmove.fresh y.2
        rwa [← he] at this
      · unfold addr at *
        omega
  · refine (hm₃ ?_).trans ((copy_of_in hi).trans (hm₁ ?_))
    · exact ⟨(o, b), Or.inl rfl, by simp only [addr]; omega,
        by simp only [addr]; omega⟩
    · refine ⟨(z.off, z.mid), ?_, by simp only [addr]; omega,
        by simp only [addr]; omega⟩
      rw [← hz, ← Zip.sides_eq hu]
      exact Or.inl rfl
  · rw [hCfree]
    refine hz₃ (hsp w hmove.blocks hmove.off) (hrep₁.write_zero hmove.new ?_
      fun x hx => copy_of_out (by omega))
    exact hz₁ (fun c hc => malloc_large h.ok (by omega) (by omega) hm hc)
      hzero

/-- After a failed allocation the block is still there to be read, and
copying it to null faults. -/
theorem null_copy {B : Bins} {F : Set (Nat × Blk)}
    (h : Shape R s z.blocks B F) (e : Nat) :
    (blkAvalSize (addr R z.off)).run { s with errno := e }
        = .ok z.mid.room { s with errno := e } ∧
      (memcpy 0 (addr R z.off) z.mid.room).run { s with errno := e }
        = .error .fault { s with errno := e } := by
  have ht : Tiled (R.base + 96) 1 { s with errno := e } z.blocks :=
    ⟨h.tiled.start, h.tiled.aligned, h.tiled.brk, h.tiled.max,
      h.tiled.small, h.tiled.tags, h.tiled.last⟩
  have hr := z.mid.room_add
  have hpl := z.mid_placed
  have hsrc := h.block_access hpl (a := addr R z.off) (n := z.mid.room)
    (Nat.le_refl _) (Nat.le_refl _)
  have hdst : ¬ Mapped { s with errno := e } 0 z.mid.room := by
    rintro ⟨h1, -⟩
    have hstart := h.start
    have hRpos := R.pos
    have hRal := R.aligned
    simp only at h1
    omega
  refine ⟨blkAvalSize_ok ht, ?_⟩
  unfold memcpy
  rw [bind_ok (touch_ok (s := { s with errno := e })
    ⟨hsrc.lo, hsrc.hi, hsrc.brk⟩)]
  exact bind_error (touch_fault hdst)

/-- A growing `segregate_mm_realloc` whose inner allocation returns null
copies to null, and that is the end of the run. -/
theorem segregateMmRealloc_refused (h : Rep R s A) (hz : z.blocks = A.blocks)
    (hu : z.mid.used = true) {size : Nat} (hsz : 1 ≤ size)
    (hfit : ¬ align size ≤ z.mid.room) {e : Nat}
    (hnull : (segregateMmMalloc (align size)).run s
      = .ok 0 { s with errno := e }) :
    (segregateMmRealloc (addr R z.off) size).run s
      = .error .fault { s with errno := e } := by
  have hmin := h.ok.min z.mid (by rw [← hz]; simp [Zip.blocks])
  have hr := z.mid.room_add
  have hs := h.at hz hu
  have hpos := addr_pos R z.off
  have haval : (blkAvalSize (addr R z.off)).run s = .ok z.mid.room s :=
    blkAvalSize_ok hs.tiled
  obtain ⟨haval', hcpy⟩ := null_copy hs e
  unfold segregateMmRealloc
  rw [if_neg hpos, if_neg (by omega)]
  simp only
  rw [bind_ok haval, if_pos (by omega), bind_ok hnull, bind_ok haval']
  exact bind_error hcpy

theorem segregateMmRealloc_null (h : Rep R s A) (hz : z.blocks = A.blocks)
    (hu : z.mid.used = true) {size : Nat} (hsz : 1 ≤ size)
    (hfit : ¬ align size ≤ z.mid.room) {e : Nat}
    (hnull : (segregateMmMalloc (align size)).run s
      = .ok 0 { s with errno := e }) :
    ∃ s', (segregateMmRealloc (addr R z.off) size).run s
      = .error .fault s' :=
  ⟨_, segregateMmRealloc_refused h hz hu hsz hfit hnull⟩

/-- That is how it goes wherever the heap has no larger block to give. -/
theorem segregateMmRealloc_fault (h : Rep R s A) (hz : z.blocks = A.blocks)
    (hu : z.mid.used = true) {size : Nat} (hsz : 1 ≤ size)
    (hsz' : size ≤ 2 ^ 31 - 16) (hfit : ¬ align size ≤ z.mid.room)
    (hm : A.malloc none (align size) = none) :
    ∃ s', (segregateMmRealloc (addr R z.off) size).run s
      = .error .fault s' := by
  obtain ⟨-, -, hlt, -, halign, -⟩ := need_size hsz (by omega)
  unfold need at hlt
  have hmin := h.ok.min z.mid (by rw [← hz]; simp [Zip.blocks])
  have hr := z.mid.room_add
  have hserved := segregateMmMalloc_large h
    (show 9 ≤ align size by omega) (by omega)
  rw [hm] at hserved
  exact segregateMmRealloc_null h hz hu hsz hfit hserved

-- ============================================================ starting up

/-- The memory `segregate_mm_init` leaves: an empty table, the padding,
the prologue and the epilogue. -/
def initMem (R : Region) (m : Bytes) : Bytes :=
  wr 4 (wr 4 (wr 4 (wr 4 (fill (wr 4 m (R.base + 104 - 4) 1) R.base 88 0)
    (R.base + 88) 0xDEADBEEF) (R.base + 92) 9) (R.base + 96) 9)
    (R.base + 100) 1

/-- The machine while `segregate_mm_init` writes: the break has moved. -/
private def started (R : Region) (s : Machine) (table : Nat) (m : Bytes) :
    Machine :=
  { emptied R s with
    memBrk := R.base + 104
    freelistTable := table
    mem := m }

private theorem started_access {R : Region} {s : Machine} (table : Nat)
    {a n : Nat} {m : Bytes}
    (hlo : R.base ≤ a) (hhi : a + n ≤ R.base + 104) :
    Access (started R s table m) a n := by
  refine ⟨hlo, hhi, ?_⟩
  show R.base + 104 ≤ R.base + maxHeap
  unfold maxHeap
  omega

/-- `segregate_mm_init` on an empty heap, whatever its storage holds,
leaves the heap without blocks. -/
theorem segregateMmInit_emptied (R : Region) {s : Machine}
    (hs : s.strays = []) :
    ∃ s', (segregateMmInit).run (emptied R s) = .ok 0 s' ∧
      Rep R s' Heap.init ∧ AtZero R s'.mem Heap.init.bins ∧
      s'.errno = s.errno := by
  have hfits := R.fits
  have hpos := R.pos
  have hal := R.aligned
  have hmax : 104 ≤ maxHeap := by decide
  obtain ⟨m, hm⟩ : ∃ m, m = s.mem := ⟨_, rfl⟩
  have hnull : ∀ k, k ≤ 10 → rd 8 (initMem R m) (slot R k) = 0 := by
    intro k hk
    refine rd_of_zero fun x h1 h2 => ?_
    unfold slot at h1 h2
    show initMem R m x = 0
    unfold initMem
    rw [wr_of_out (by omega), wr_of_out (by omega), wr_of_out (by omega),
      wr_of_out (by omega)]
    exact fill_of_in ⟨by omega, by omega⟩
  refine ⟨{ started R s R.base (initMem R m) with heapListp := R.base + 96 },
    ?_, ⟨⟨rfl, rfl, rfl, rfl, hs, ?_, ?_⟩, ?_⟩, ?_, rfl⟩
  · have hext : (extendHeap (fltSize + paddingBlkSize + pbHdrSize
        + pbFtrSize + ebHdrSize : Nat)).run (emptied R s) = .ok R.base
          (started R s s.freelistTable (wr 4 m (R.base + 104 - 4) 1)) := by
      rw [hm]
      exact extendHeap_ok (s := emptied R s) (n := 104) (Nat.le_refl _)
        hfits (by decide) (by decide) (by
          show R.base + 104 ≤ R.base + maxHeap
          omega)
    have hne : ¬ R.base = 0 := by omega
    unfold segregateMmInit initMem
    rw [bind_ok hext, bind_ok (run_modify _ _), if_neg hne]
    refine (bind_ok (memset_ok 0 (started_access R.base
      (Nat.le_refl _) (by unfold fltSize fltSlotNum; omega)))).trans ?_
    have hset : ∀ (d v : Nat) (m' : Bytes), d + 4 ≤ 104 →
        (setWord (R.base + d) v).run (started R s R.base m')
          = .ok () (started R s R.base (wr 4 m' (R.base + d) v)) :=
      fun d v m' hd => store_ok v (started_access _ (by omega) (by omega))
    refine (bind_ok (hset 88 _ _ (by decide))).trans ?_
    refine (bind_ok (hset 92 _ _ (by decide))).trans ?_
    refine (bind_ok (hset 96 _ _ (by decide))).trans ?_
    refine (bind_ok (hset 100 _ _ (by decide))).trans ?_
    rfl
  · refine ⟨?_, by omega, rfl, ?_, Nat.le_refl _, ?_, ?_⟩
    · show R.base + 4 ≤ R.base + 96
      omega
    · show R.base + 104 ≤ R.base + maxHeap
      omega
    · refine tagged_cons.2 ⟨⟨?_, ?_⟩, tagged_nil _⟩
      · show rd 4 (initMem R m) (R.base + 92) = 9
        unfold initMem
        rw [rd_wr_ne (by omega), rd_wr_ne (by omega)]
        exact rd_wr_of_lt (by decide)
      · show rd 4 (initMem R m) (R.base + 96) = 9
        unfold initMem
        rw [rd_wr_ne (by omega)]
        exact rd_wr_of_lt (by decide)
    · show rd 4 (initMem R m) (R.base + 100) = 1
      exact rd_wr_of_lt (by decide)
  · exact ⟨Heap.init_ok.min, hmax, fun _ hx => hx, Heap.init_ok.files,
      fun k _ hk' => hnull k hk'⟩
  · exact List.isChain_nil
  · exact hnull 0 (by decide)

theorem segregateMmInit_ok (R : Region) (m : Bytes) :
    ∃ s, (segregateMmInit).run (memInit R m) = .ok 0 s ∧
      Rep R s Heap.init ∧ AtZero R s.mem Heap.init.bins ∧
      s.errno = 0 :=
  segregateMmInit_emptied R (s := memInit R m) rfl

end MallocLab.Proofs.Segregate
