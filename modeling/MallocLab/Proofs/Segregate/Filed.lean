/-
The free lists in memory. `Filed R m bs B F` says that the bins `B` file
the free blocks `F` of the heap `bs`, and that the lists hanging off the
table slots one to ten are the bins of these classes, node for node.

# Where the lists live

A list's bytes are a table slot and the first sixteen payload bytes of
its nodes. `scratch R F` is the table and the payloads of the filed
blocks: every write to a list stays in it (`Filed.unlink`,
`Filed.link`), and nothing else can disturb a list (`Filed.frame`). The
tags of all blocks and the payloads of the blocks in use are outside of
it, which is the whole frame argument for the free lists.

# Slot zero

Blocks of the smallest size are filed under class zero like the others,
but the list hanging off slot zero is left open: the code keeps stale
entries there. Filing and unfiling a smallest block is therefore
bookkeeping without a list (`Filed.skip`, `Filed.push`).
-/
import MallocLab.Lib.Links
import MallocLab.Spec.Segregated
import MallocLab.Proofs.Segregate.SizeClass

namespace MallocLab.Proofs.Segregate

open Mem Blocks Model Model.Segregate Spec.Segregated

/-- The payload address of the block at offset `o`. -/
def addr (R : Region) (o : Nat) : Nat := R.base + 96 + 8 + o

theorem addr_pos (R : Region) (o : Nat) : addr R o ≠ 0 := by
  unfold addr
  omega

/-- The table slot of class `k`. -/
def slot (R : Region) (k : Nat) : Nat := R.base + 8 * k

/-- The table, and the payloads of the blocks of `F`. -/
def scratch (R : Region) (F : Set (Nat × Blk)) : Set Nat :=
  {x | (R.base ≤ x ∧ x < R.base + 88) ∨
    ∃ y ∈ F, addr R y.1 ≤ x ∧ x < addr R y.1 + y.2.room}

/-- The part of it the lists one to ten live in: their slots, and the
payloads of the blocks larger than the smallest. -/
def listed (R : Region) (F : Set (Nat × Blk)) : Set Nat :=
  {x | (R.base + 8 ≤ x ∧ x < R.base + 88) ∨
    ∃ y ∈ F, 16 < y.2.size ∧ addr R y.1 ≤ x ∧ x < addr R y.1 + y.2.room}

/-- The part the list at slot zero lives in. -/
def smalls (R : Region) (F : Set (Nat × Blk)) : Set Nat :=
  {x | (R.base ≤ x ∧ x < R.base + 8) ∨
    ∃ y ∈ F, y.2.size = 16 ∧ addr R y.1 ≤ x ∧ x < addr R y.1 + y.2.room}

/-- The bins `B` file the free blocks `F` of the heap `bs`, in the
memory `m`. -/
structure Filed (R : Region) (m : Bytes) (bs : List Blk) (B : Bins)
    (F : Set (Nat × Blk)) : Prop where
  min : ∀ b ∈ bs, 16 ≤ b.size
  room : 104 + total bs ≤ maxHeap
  sub : F ⊆ marked false 0 bs
  files : Files cls B F
  links : ∀ k, 1 ≤ k → k ≤ 10 →
    Linked m (slot R k) ((B k).map (addr R))

variable {R : Region} {m m' : Bytes} {bs : List Blk} {B : Bins}
  {F : Set (Nat × Blk)}

theorem listed_sub : listed R F ⊆ scratch R F := by
  rintro x (hx | ⟨y, hy, -, hx⟩)
  · exact Or.inl (by omega)
  · exact Or.inr ⟨y, hy, hx⟩

theorem smalls_sub : smalls R F ⊆ scratch R F := by
  rintro x (hx | ⟨y, hy, -, hx⟩)
  · exact Or.inl (by omega)
  · exact Or.inr ⟨y, hy, hx⟩

theorem listed_mono {G : Set (Nat × Blk)} (h : F ⊆ G) :
    listed R F ⊆ listed R G := by
  rintro x (hx | ⟨y, hy, hx⟩)
  · exact Or.inl hx
  · exact Or.inr ⟨y, h hy, hx⟩

/-- The two parts do not meet. -/
theorem smalls_off_listed {G : Set (Nat × Blk)}
    (hF : F ⊆ marked false 0 bs) (hG : G ⊆ marked false 0 bs) :
    smalls R F ⊆ (listed R G)ᶜ := by
  rintro x hx hc
  have hlow : ∀ o : Nat, R.base + 104 ≤ addr R o := by
    intro o
    unfold addr
    omega
  rcases hx with hx | ⟨y, hy, hsz, hx⟩
  · rcases hc with hc | ⟨w, -, -, hc⟩
    · omega
    · have := hlow w.1
      omega
  · rcases hc with hc | ⟨w, hw, hsz', hc⟩
    · have := hlow y.1
      omega
    · have := y.2.room_add
      have := w.2.room_add
      rcases placed_disjoint (hF hy).1 (hG hw).1 with ⟨-, he⟩ | hd
      · rw [he] at hsz
        omega
      · unfold addr at hx hc
        omega

-- ========================================================== the nodes

/-- Where a filed block lies. -/
theorem Filed.bounds (h : Filed R m bs B F) {o : Nat} {b : Blk}
    (hb : (o, b) ∈ F) :
    16 ≤ b.size ∧ o + b.size ≤ total bs ∧ o % 8 = 0 := by
  have hpl := (h.sub hb).1
  have hbd := placed_bounds hpl
  have := h.min b (placed_mem hpl)
  omega

/-- An offset is filed with one block at most. -/
theorem Filed.unique (h : Filed R m bs B F) {o : Nat} {b c : Blk}
    (hb : (o, b) ∈ F) (hc : (o, c) ∈ F) : c = b :=
  placed_unique (h.sub hc).1 (h.sub hb).1

/-- The class of a block is zero exactly for the smallest size. -/
theorem Filed.cls_eq_zero (h : Filed R m bs B F) {o : Nat} {b : Blk}
    (hb : (o, b) ∈ placed 0 bs) : cls b = 0 ↔ b.size = 16 := by
  have hbd := placed_bounds hb
  have hmin := h.min b (placed_mem hb)
  have hroom := h.room
  have hmax := maxHeap_lt
  have hr := b.room_add
  have hal := b.aligned
  rw [cls, fltIndexOf_eq_zero (by omega) (by omega)]
  omega

/-- A block of another size is filed under one of the listed classes. -/
theorem Filed.cls_range (h : Filed R m bs B F) {o : Nat} {b : Blk}
    (hb : (o, b) ∈ placed 0 bs) (hsz : 16 < b.size) :
    1 ≤ cls b ∧ cls b ≤ 10 := by
  have hz := h.cls_eq_zero hb
  exact ⟨by omega, fltIndexOf_le b.room⟩

/-- The nodes of the lists have room for both links. -/
theorem Filed.node (h : Filed R m bs B F) {k o : Nat} (hk : 1 ≤ k)
    (ho : o ∈ B k) : ∃ b, (o, b) ∈ F ∧ cls b = k ∧ 16 ≤ b.room := by
  obtain ⟨b, hb, hcls⟩ := (h.files.mem k o).1 ho
  refine ⟨b, hb, hcls, ?_⟩
  have hz := h.cls_eq_zero (h.sub hb).1
  have hbd := h.bounds hb
  have hr := b.room_add
  have hal := b.aligned
  omega

/-- The cell of a list holds null or its first node. -/
theorem Filed.head (h : Filed R m bs B F) {k : Nat} (hk : 1 ≤ k)
    (hk' : k ≤ 10) : rd 8 m (slot R k) = 0 ∨
      ∃ o b, (o, b) ∈ F ∧ 16 ≤ b.room ∧ rd 8 m (slot R k) = addr R o := by
  rw [(h.links k hk hk').cell_eq]
  cases hB : B k with
  | nil => exact Or.inl rfl
  | cons o os =>
      obtain ⟨b, hb, -, hr⟩ := h.node (o := o) hk (by simp [hB])
      exact Or.inr ⟨o, b, hb, hr, rfl⟩

/-- Two filed blocks do not overlap. -/
theorem Filed.disjoint (h : Filed R m bs B F) {x y : Nat × Blk}
    (hx : x ∈ F) (hy : y ∈ F) (hne : x.1 ≠ y.1) :
    x.1 + x.2.size ≤ y.1 ∨ y.1 + y.2.size ≤ x.1 := by
  rcases placed_disjoint (h.sub hx).1 (h.sub hy).1 with ⟨he, -⟩ | hd
  · exact absurd he hne
  · exact hd

/-- Cells and nodes of a list are apart. -/
theorem Filed.apart (h : Filed R m bs B F) {k : Nat} (hk : 1 ≤ k)
    (hk' : k ≤ 10) : Apart (slot R k) ((B k).map (addr R)) where
  cell := fun n hn => by
    obtain ⟨o, -, rfl⟩ := List.mem_map.1 hn
    unfold slot addr
    omega
  nodes := by
    refine List.pairwise_map.2 ((h.files.nodup k).imp_of_mem ?_)
    intro o o' ho ho' hne
    obtain ⟨b, hb, -, hr⟩ := h.node hk ho
    obtain ⟨b', hb', -, hr'⟩ := h.node hk ho'
    have hd := h.disjoint hb hb' hne
    have := b.room_add
    have := b'.room_add
    unfold addr
    simp only at hd
    omega
  pos := fun n hn => by
    obtain ⟨o, -, rfl⟩ := List.mem_map.1 hn
    unfold addr
    omega
  cell_lt := by
    have := R.fits
    unfold slot maxHeap at *
    omega
  node_lt := fun n hn => by
    obtain ⟨o, ho, rfl⟩ := List.mem_map.1 hn
    obtain ⟨b, hb, -⟩ := h.node hk ho
    have := (h.bounds hb).2.1
    have := h.room
    have := R.fits
    unfold addr
    omega

/-- A list's feet are where the lists live. -/
theorem Filed.feet_sub (h : Filed R m bs B F) {k : Nat} (hk : 1 ≤ k)
    (hk' : k ≤ 10) :
    feet (slot R k) ((B k).map (addr R)) ⊆ listed R F := by
  rintro x (⟨h1, h2⟩ | ⟨n, hn, h1, h2⟩)
  · unfold slot at h1 h2
    exact Or.inl ⟨by omega, by omega⟩
  · obtain ⟨o, ho, rfl⟩ := List.mem_map.1 hn
    obtain ⟨b, hb, -, hr⟩ := h.node hk ho
    have := b.room_add
    exact Or.inr ⟨(o, b), hb, by simp only; omega, h1, by simp only; omega⟩

/-- The feet of two lists do not meet. -/
theorem Filed.feet_disjoint (h : Filed R m bs B F) {k k' x : Nat}
    (hk : 1 ≤ k ∧ k ≤ 10) (hk' : 1 ≤ k' ∧ k' ≤ 10) (hne : k ≠ k')
    (hx : x ∈ feet (slot R k) ((B k).map (addr R))) :
    x ∉ feet (slot R k') ((B k').map (addr R)) := by
  rintro (⟨h1, h2⟩ | ⟨n, hn, h1, h2⟩)
  · rcases hx with ⟨h3, h4⟩ | ⟨n, hn, h3, h4⟩
    · unfold slot at h1 h2 h3 h4
      omega
    · obtain ⟨o, -, rfl⟩ := List.mem_map.1 hn
      unfold slot addr at *
      omega
  · obtain ⟨o, ho, rfl⟩ := List.mem_map.1 hn
    rcases hx with ⟨h3, h4⟩ | ⟨n', hn', h3, h4⟩
    · unfold slot addr at *
      omega
    · obtain ⟨o', ho', rfl⟩ := List.mem_map.1 hn'
      obtain ⟨b, hb, hcls, hr⟩ := h.node hk'.1 ho
      obtain ⟨b', hb', hcls', hr'⟩ := h.node hk.1 ho'
      have hoo : o ≠ o' := by
        rintro rfl
        rw [h.unique hb' hb] at hcls
        exact hne (hcls'.symm.trans hcls)
      have hd := h.disjoint hb hb' hoo
      have := b.room_add
      have := b'.room_add
      unfold addr at *
      simp only at hd
      omega

-- ========================================================= the frame

/-- Writes off the scratch leave the lists alone. -/
theorem Filed.frame (h : Filed R m bs B F)
    (hm : Set.EqOn m' m (scratch R F)) : Filed R m' bs B F where
  min := h.min
  room := h.room
  sub := h.sub
  files := h.files
  links := fun k hk hk' =>
    (h.links k hk hk').frame
      (hm.mono ((h.feet_sub hk hk').trans listed_sub))

/-- The lists do not care how the other blocks are cut. -/
theorem Filed.retile (h : Filed R m bs B F) {bs' : List Blk}
    (hmin : ∀ b ∈ bs', 16 ≤ b.size) (hroom : 104 + total bs' ≤ maxHeap)
    (hsub : F ⊆ marked false 0 bs') : Filed R m bs' B F where
  min := hmin
  room := hroom
  sub := hsub
  files := h.files
  links := h.links

-- ==================================================== taking a block out

/-- Unfiling a block of the smallest size. -/
theorem Filed.skip (h : Filed R m bs B F) {o : Nat} {b : Blk}
    (hb : (o, b) ∈ F) (hsz : b.size = 16) :
    Filed R m bs (B.drop cls o b) (F \ {(o, b)}) where
  min := h.min
  room := h.room
  sub := fun _ hx => h.sub hx.1
  files := h.files.drop hb fun _ hc => h.unique hb hc
  links := fun k hk hk' => by
    unfold Bins.drop
    rw [(h.cls_eq_zero (h.sub hb).1).2 hsz, Function.update_of_ne (by omega)]
    exact h.links k hk hk'

/-- Taking a block off its list. -/
theorem Filed.unlink (h : Filed R m bs B F) {o : Nat} {b : Blk}
    (hb : (o, b) ∈ F) (hsz : 16 < b.size) :
    Filed R (Mem.unlink m (addr R o)) bs (B.drop cls o b) (F \ {(o, b)})
      ∧ Set.EqOn (Mem.unlink m (addr R o)) m (listed R F)ᶜ := by
  have hcls := h.cls_range (h.sub hb).1 hsz
  have hmem : o ∈ B (cls b) := (h.files.mem _ _).2 ⟨b, hb, rfl⟩
  obtain ⟨xs, ys, hsplit⟩ := List.append_of_mem hmem
  have hlinked := h.links _ hcls.1 hcls.2
  have hapart := h.apart hcls.1 hcls.2
  have hfeet := h.feet_sub hcls.1 hcls.2
  have hoff : Set.EqOn (Mem.unlink m (addr R o)) m
      (feet (slot R (cls b)) ((B (cls b)).map (addr R)))ᶜ := by
    rw [hsplit, List.map_append, List.map_cons] at hlinked ⊢
    exact unlink_eqOn hlinked
  refine ⟨⟨h.min, h.room, fun _ hx => h.sub hx.1,
    h.files.drop hb fun _ hc => h.unique hb hc, fun k hk hk' => ?_⟩,
    hoff.mono (Set.compl_subset_compl.2 hfeet)⟩
  unfold Bins.drop
  by_cases he : k = cls b
  · subst he
    have hnot : o ∉ xs := by
      have hnd := h.files.nodup (cls b)
      rw [hsplit] at hnd
      intro hc
      exact (List.nodup_append.1 hnd).2.2 o hc o List.mem_cons_self rfl
    rw [Function.update_self, hsplit, List.erase_append_right _ hnot,
      List.erase_cons_head, List.map_append]
    rw [hsplit, List.map_append, List.map_cons] at hlinked hapart
    exact unlink_linked hlinked hapart
  · rw [Function.update_of_ne he]
    exact (h.links k hk hk').frame fun x hx => hoff
      (h.feet_disjoint ⟨hk, hk'⟩ hcls he hx)

-- ====================================================== putting one in

/-- Filing a block of the smallest size: its payload and slot zero are
nobody's list. -/
theorem Filed.push (h : Filed R m bs B F) {o : Nat} {b : Blk}
    (hb : (o, b) ∈ marked false 0 bs) (hfresh : ∀ c, (o, c) ∉ F)
    (hsz : b.size = 16)
    (hm : ∀ x, R.base + 8 ≤ x →
      (x < addr R o ∨ addr R o + b.room ≤ x) → m' x = m x) :
    Filed R m' bs (B.put cls o b) (insert (o, b) F) where
  min := h.min
  room := h.room
  sub := Set.insert_subset hb h.sub
  files := h.files.put hfresh
  links := fun k hk hk' => by
    have hput : (B.put cls o b) k = B k := by
      have hcls : cls b = 0 := (h.cls_eq_zero hb.1).2 hsz
      unfold Bins.put
      rw [hcls, Function.update_of_ne (by omega)]
    rw [hput]
    refine (h.links k hk hk').frame fun x hx => ?_
    rcases hx with ⟨h1, h2⟩ | ⟨n, hn, h1, h2⟩
    · unfold slot at h1 h2
      refine hm x (by omega) (Or.inl ?_)
      unfold addr
      omega
    · obtain ⟨o', ho', rfl⟩ := List.mem_map.1 hn
      obtain ⟨b', hb', -, hr'⟩ := h.node hk ho'
      have hne : o' ≠ o := by
        rintro rfl
        exact hfresh b' hb'
      rcases placed_disjoint (h.sub hb').1 hb.1 with ⟨he, -⟩ | hd
      · exact absurd he hne
      · have := b.room_add
        have := b'.room_add
        unfold addr at *
        refine hm x (by omega) (by omega)

/-- The nodes of a list are blocks beside one that is not filed yet. -/
theorem Filed.beside (h : Filed R m bs B F) {o : Nat} {b : Blk}
    (hb : (o, b) ∈ placed 0 bs) (hfresh : ∀ c, (o, c) ∉ F) {k o' : Nat}
    (hk : 1 ≤ k) (ho' : o' ∈ B k) :
    ∃ b' : Blk, 16 ≤ b'.room ∧ (o' + b'.size ≤ o ∨ o + b.size ≤ o') := by
  obtain ⟨b', hb', -, hr'⟩ := h.node hk ho'
  have hne : o' ≠ o := fun he => hfresh b' (he ▸ hb')
  rcases placed_disjoint (h.sub hb').1 hb with ⟨he, -⟩ | hd
  · exact absurd he hne
  · exact ⟨b', hr', hd⟩

/-- A list has no bytes in the payload of such a block. -/
theorem Filed.off_payload (h : Filed R m bs B F) {o : Nat} {b : Blk}
    (hb : (o, b) ∈ placed 0 bs) (hfresh : ∀ c, (o, c) ∉ F) {k x : Nat}
    (hk : 1 ≤ k) (hk' : k ≤ 10)
    (hx : x ∈ feet (slot R k) ((B k).map (addr R))) :
    ¬ (addr R o ≤ x ∧ x < addr R o + b.room) := by
  intro ⟨h1, h2⟩
  have hr := b.room_add
  rcases hx with ⟨h3, h4⟩ | ⟨n, hn, h3, h4⟩
  · unfold slot addr at *
    omega
  · obtain ⟨o', ho', rfl⟩ := List.mem_map.1 hn
    obtain ⟨b', hr', hd⟩ := h.beside hb hfresh hk ho'
    have := b'.room_add
    unfold addr at *
    omega

/-- The list a block joins keeps its cells and nodes apart. -/
theorem Filed.apart_cons (h : Filed R m bs B F) {o : Nat} {b : Blk}
    (hb : (o, b) ∈ placed 0 bs) (hfresh : ∀ c, (o, c) ∉ F)
    (hsz : 16 < b.size) {k : Nat} (hk : 1 ≤ k) (hk' : k ≤ 10) :
    Apart (slot R k) (addr R o :: (B k).map (addr R)) := by
  have hpl := placed_bounds hb
  have hal := b.aligned
  have hr := b.room_add
  have hroom := h.room
  have hold := h.apart hk hk'
  refine ⟨?_, List.pairwise_cons.2 ⟨?_, hold.nodes⟩, ?_, hold.cell_lt, ?_⟩
  · refine List.forall_mem_cons.2 ⟨?_, hold.cell⟩
    unfold slot addr
    omega
  · intro n hn
    obtain ⟨o', ho', rfl⟩ := List.mem_map.1 hn
    obtain ⟨b', hr', hd⟩ := h.beside hb hfresh hk ho'
    have := b'.room_add
    unfold addr
    omega
  · refine List.forall_mem_cons.2 ⟨?_, hold.pos⟩
    unfold addr
    omega
  · refine List.forall_mem_cons.2 ⟨?_, hold.node_lt⟩
    have := R.fits
    unfold addr
    omega

/-- Putting a block on the front of its list. -/
theorem Filed.link (h : Filed R m bs B F) {o : Nat} {b : Blk}
    (hb : (o, b) ∈ marked false 0 bs) (hfresh : ∀ c, (o, c) ∉ F)
    (hsz : 16 < b.size) :
    Filed R (Mem.link m (slot R (cls b)) (addr R o)) bs (B.put cls o b)
        (insert (o, b) F)
      ∧ Set.EqOn (Mem.link m (slot R (cls b)) (addr R o)) m
        (listed R (insert (o, b) F))ᶜ := by
  have hal := b.aligned
  have hr := b.room_add
  obtain ⟨hlo, hhi⟩ := h.cls_range hb.1 hsz
  have hlinked := h.links _ hlo hhi
  have hputk : (B.put cls o b) (cls b) = o :: B (cls b) :=
    Function.update_self ..
  have hapart := h.apart_cons hb.1 hfresh hsz hlo hhi
  have hoff := link_eqOn (n := addr R o) hlinked
  -- the feet of the new list are the old ones and the block's payload
  have hfeet : ∀ x ∈ feet (slot R (cls b))
      (addr R o :: (B (cls b)).map (addr R)),
      x ∈ feet (slot R (cls b)) ((B (cls b)).map (addr R)) ∨
        (addr R o ≤ x ∧ x < addr R o + b.room) := by
    intro x hx
    rcases hx with hx | ⟨n, hn, hx⟩
    · exact Or.inl (Or.inl hx)
    · rcases List.mem_cons.1 hn with rfl | hn
      · exact Or.inr ⟨hx.1, by omega⟩
      · exact Or.inl (Or.inr ⟨n, hn, hx⟩)
  refine ⟨⟨h.min, h.room, Set.insert_subset hb h.sub,
    h.files.put (b := b) hfresh, fun k hk hk' => ?_⟩, ?_⟩
  · by_cases he : k = cls b
    · subst he
      rw [hputk, List.map_cons]
      exact link_linked hlinked hapart
    · have hkeep : (B.put cls o b) k = B k := Function.update_of_ne he _ _
      rw [hkeep]
      refine (h.links k hk hk').frame fun x hx => hoff fun hc => ?_
      rcases hfeet x hc with hc | hc
      · exact h.feet_disjoint ⟨hk, hk'⟩ ⟨hlo, hhi⟩ he hx hc
      · exact h.off_payload hb.1 hfresh hk hk' hx hc
  · refine hoff.mono (Set.compl_subset_compl.2 fun x hx => ?_)
    rcases hfeet x hx with hx | hx
    · exact listed_mono (Set.subset_insert _ _) (h.feet_sub hlo hhi hx)
    · exact Or.inr ⟨(o, b), Or.inl rfl, hsz, hx⟩

-- ============================================================== slot zero

/-- The list hanging off slot zero is the bin of class zero. -/
def AtZero (R : Region) (m : Bytes) (B : Bins) : Prop :=
  Strung m (slot R 0) ((B 0).map (addr R))

/-- Dropping a block of another class leaves class zero alone. -/
theorem drop_zero {o : Nat} {b : Blk} (h : cls b ≠ 0) :
    (B.drop cls o b) 0 = B 0 := Function.update_of_ne h.symm _ _

/-- So does filing one. -/
theorem put_zero {o : Nat} {b : Blk} (h : cls b ≠ 0) :
    (B.put cls o b) 0 = B 0 := Function.update_of_ne h.symm _ _

/-- The nodes at slot zero are blocks of the smallest size. -/
theorem Filed.small (h : Filed R m bs B F) {o : Nat} (ho : o ∈ B 0) :
    ∃ b, (o, b) ∈ F ∧ b.size = 16 := by
  obtain ⟨b, hb, hcls⟩ := (h.files.mem 0 o).1 ho
  exact ⟨b, hb, (h.cls_eq_zero (h.sub hb).1).1 hcls⟩

/-- Writes off the list at slot zero keep it. -/
theorem Filed.zero_frame (h : Filed R m bs B F) (hz : AtZero R m B)
    (hm : Set.EqOn m' m (smalls R F)) : AtZero R m' B := by
  refine Strung.frame hz ?_
  intro n hn x hx hx'
  rcases List.mem_cons.1 hn with rfl | hn
  · unfold slot at hx hx'
    exact hm (Or.inl ⟨by omega, by omega⟩)
  · obtain ⟨o, ho, rfl⟩ := List.mem_map.1 hn
    obtain ⟨b, hb, hsz⟩ := h.small ho
    have hr := b.room_add
    exact hm (Or.inr ⟨(o, b), hb, hsz, hx, by simp only; omega⟩)

/-- Pushing a block of the smallest size at slot zero. -/
theorem Filed.zero_push (h : Filed R m bs B F) (hz : AtZero R m B)
    {o : Nat} {b : Blk} (hb : (o, b) ∈ marked false 0 bs)
    (hfresh : ∀ c, (o, c) ∉ F) (hsz : b.size = 16) :
    AtZero R (wr 8 (wr 8 m (addr R o) (rd 8 m (slot R 0))) (slot R 0)
      (addr R o)) (B.put cls o b) := by
  have hcls : cls b = 0 := (h.cls_eq_zero hb.1).2 hsz
  have hput : (B.put cls o b) 0 = o :: B 0 := by
    unfold Bins.put
    rw [hcls, Function.update_self]
  have hbd := placed_bounds hb.1
  have hroom := h.room
  have hfits := R.fits
  have hslot : slot R 0 + 104 = R.base + 104 := rfl
  have haddr : ∀ q, addr R q = R.base + 104 + q := by
    intro q
    unfold addr
    omega
  unfold AtZero
  rw [hput, List.map_cons]
  refine Strung.push hz ?_ ?_ ?_
  · rw [haddr]
    omega
  · intro k hk
    rw [haddr]
    rcases List.mem_cons.1 hk with rfl | hk
    · omega
    · obtain ⟨q, hq, rfl⟩ := List.mem_map.1 hk
      obtain ⟨c, hc, hcsz⟩ := h.small hq
      rw [haddr]
      rcases placed_disjoint (h.sub hc).1 hb.1 with ⟨he, -⟩ | hd
      · rw [he] at hc
        exact absurd hc (hfresh c)
      · omega
  · intro k hk
    obtain ⟨q, -, rfl⟩ := List.mem_map.1 hk
    rw [haddr]
    omega

end MallocLab.Proofs.Segregate
