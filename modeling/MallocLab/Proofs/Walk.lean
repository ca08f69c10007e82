/-
A tiled heap, seen from outside: stepping by `NEXT_BLKP` comes past
exactly the blocks of the tiling, in order, and stops at the break.
What holds of the heap list in every reachable state is read off `seen`.
-/
import MallocLab.Lib.Owned
import MallocLab.Model.Walk
import MallocLab.Proofs.Tiled
import Mathlib.Data.List.Forall2

namespace MallocLab.Proofs

open Mem Blocks Model

/-- A placed block, as a walk sees it. -/
def seenAt (x : Nat × Blk) : Seen :=
  ⟨x.1, x.2.size, x.2.used.toNat, x.2.tag, x.2.tag⟩

/-- The blocks of a list placed at `p`, as a walk sees them. -/
def seen (p : Nat) (bs : List Blk) : List Seen := (placed p bs).map seenAt

variable {hp e : Nat} {s : Machine} {bs : List Blk} {z : Zip}

/-- What is seen of a block that is in use or not. -/
theorem seen_free {q : Nat} {b : Blk} :
    (seenAt (q, b)).state = blkFree ↔ b.used = false := by
  show b.used.toNat = 0 ↔ b.used = false
  cases b.used <;> decide

theorem seen_cons (p : Nat) (b : Blk) (bs : List Blk) :
    seen p (b :: bs) = seenAt (p, b) :: seen (p + b.size) bs := rfl

theorem mem_seen {p : Nat} {x : Seen} :
    x ∈ seen p bs ↔ ∃ y ∈ placed p bs, x = seenAt y := by
  unfold seen
  rw [List.mem_map]
  constructor
  · rintro ⟨y, hy, rfl⟩
    exact ⟨y, hy, rfl⟩
  · rintro ⟨y, hy, rfl⟩
    exact ⟨y, hy, rfl⟩

theorem seen_used {q : Nat} {b : Blk} :
    (seenAt (q, b)).state = blkAlloc ↔ b.used = true := by
  show b.used.toNat = 1 ↔ b.used = true
  cases b.used <;> decide

/-- A walk tells blocks apart. -/
theorem seenAt_inj {x y : Nat × Blk} (h : seenAt x = seenAt y) : x = y := by
  obtain ⟨p, b⟩ := x
  obtain ⟨q, c⟩ := y
  injection h with haddr hsize hstate
  have hused : b.used = c.used := by
    have htoNat : b.used.toNat = c.used.toNat := hstate
    revert htoNat
    cases b.used <;> cases c.used <;> simp
  have hblk : b = c := Blk.ext hsize hused
  have hplace : p = q := haddr
  rw [hplace, hblk]

/-- What is seen of the blocks at their offsets from `p`. -/
theorem mem_seen_at {p : Nat} {f : Nat → Nat} (hf : ∀ o, f o = o + p)
    {x : Seen} : x ∈ seen p bs ↔
      ∃ o b, (o, b) ∈ placed 0 bs ∧ x = seenAt (f o, b) := by
  rw [mem_seen]
  constructor
  · intro ⟨⟨q, b⟩, hq, hx⟩
    obtain ⟨o, rfl, ho⟩ := mem_placed_at.1 hq
    exact ⟨o, b, ho, by rw [hx, hf]⟩
  · intro ⟨o, b, hb, hx⟩
    exact ⟨(f o, b), mem_placed_at.2 ⟨o, hf o, hb⟩, hx⟩

/-- The blocks seen in use are those of the live allocations. -/
theorem seen_owned {fit : Nat → Blk → Prop} {lv : List (Nat × Nat)}
    (h : Owned fit lv (marked true 0 bs)) {p : Nat} {f : Nat → Nat}
    (hf : ∀ o, f o = o + p) (q : Nat) :
    (∃ x ∈ seen p bs, x.addr = q ∧ x.state = blkAlloc) ↔
      q ∈ lv.map fun y => f y.1 := by
  constructor
  · intro ⟨x, hx, haddr, hst⟩
    obtain ⟨o, b, hb, rfl⟩ := (mem_seen_at hf).1 hx
    obtain ⟨y, hy, hyo⟩ :=
      List.mem_map.1 (h.alloc (o, b) ⟨hb, seen_used.1 hst⟩)
    refine List.mem_map.2 ⟨y, hy, ?_⟩
    rw [hyo]
    exact haddr
  · intro hq
    obtain ⟨y, hy, rfl⟩ := List.mem_map.1 hq
    obtain ⟨b, hb, -⟩ := h.block y hy
    exact ⟨_, (mem_seen_at hf).2 ⟨y.1, b, hb.1, rfl⟩, rfl,
      seen_used.2 hb.2⟩

/-- They have addresses of their own. -/
theorem owned_addrs {fit : Nat → Blk → Prop} {lv : List (Nat × Nat)}
    {U : Set (Nat × Blk)} (h : Owned fit lv U) {p : Nat} {f : Nat → Nat}
    (hf : ∀ o, f o = o + p) : (lv.map fun y => f y.1).Nodup := by
  have hnodup := h.nodup.map (f := f) fun o o' he => by
    rw [hf, hf] at he
    omega
  rwa [List.map_map] at hnodup

/-- What is seen at the cursor is its block. -/
theorem seen_mid {p : Nat} {x : Seen} :
    (x ∈ seen p z.blocks ∧ x.addr = p + z.off) ↔
      x = seenAt (p + z.off, z.mid) := by
  constructor
  · rintro ⟨hx, haddr⟩
    obtain ⟨⟨q, b⟩, hq, rfl⟩ := mem_seen.1 hx
    rw [show q = p + z.off from haddr] at hq ⊢
    rw [placed_unique hq (z.mem_placed p)]
  · rintro rfl
    exact ⟨mem_seen.2 ⟨_, z.mem_placed p, rfl⟩, rfl⟩

/-- What is seen where its block ends is the next one. -/
theorem seen_next {p : Nat} {y : Seen} :
    (y ∈ seen p z.blocks ∧ y.addr = p + z.off + z.mid.size) ↔
      ∃ c r, z.right = c :: r ∧
        y = seenAt (p + z.off + z.mid.size, c) := by
  constructor
  · rintro ⟨hy, haddr⟩
    obtain ⟨⟨q, c⟩, hq, rfl⟩ := mem_seen.1 hy
    have hq' : q = p + z.off + z.mid.size := haddr
    obtain ⟨o, ho, hpl⟩ := mem_placed_at.1 hq
    rw [show o = z.off + z.mid.size by omega] at hpl
    obtain ⟨r, hr⟩ := Zip.next_of_placed hpl
    exact ⟨c, r, hr, by rw [hq']⟩
  · rintro ⟨c, r, hr, rfl⟩
    refine ⟨mem_seen.2 ⟨_, ?_, rfl⟩, rfl⟩
    unfold Zip.blocks Zip.off
    simp [hr, Nat.add_assoc]

/-- What is seen to end where its block starts is the previous one. -/
theorem seen_prev {p : Nat} {w : Seen} :
    (w ∈ seen p z.blocks ∧ w.addr + w.size = p + z.off) ↔
      ∃ l c, z.left = l ++ [c] ∧ w = seenAt (p + total l, c) := by
  constructor
  · rintro ⟨hw, haddr⟩
    obtain ⟨⟨q, c⟩, hq, rfl⟩ := mem_seen.1 hw
    obtain ⟨o, ho, hpl⟩ := mem_placed_at.1 hq
    have hq' : q + c.size = p + z.off := haddr
    obtain ⟨l, hl⟩ := Zip.prev_of_placed hpl (by omega)
    refine ⟨l, c, hl, ?_⟩
    have hoff : z.off = total l + c.size := by
      unfold Zip.off
      simp [hl]
    rw [show q = p + total l by omega]
  · rintro ⟨l, c, hl, rfl⟩
    refine ⟨mem_seen.2 ⟨(p + total l, c), ?_, rfl⟩, ?_⟩
    · unfold Zip.blocks
      simp [hl]
    · show p + total l + c.size = p + z.off
      unfold Zip.off
      simp [hl, Nat.add_assoc]

/-- Two walks see the same blocks in use. -/
def SameUsed (xs ys : List Seen) : Prop :=
  ∀ x : Seen, x.state = blkAlloc → (x ∈ xs ↔ x ∈ ys)

/-- The blocks in use, computed. -/
def used? (s : Machine) : Option (List Seen) :=
  (blocks? s).map fun xs => xs.filter (·.state = blkAlloc)

/-- Walks that are computed to see them do. -/
theorem sameUsed_of_used? {s₁ s₂ : Machine} {xs ys us : List Seen}
    (hxs : BlockList s₁ xs) (hys : BlockList s₂ ys)
    (h₁ : used? s₁ = some us) (h₂ : used? s₂ = some us) :
    SameUsed xs ys := by
  obtain ⟨xs', hxs', hu⟩ := Option.map_eq_some_iff.1 h₁
  obtain ⟨ys', hys', hu'⟩ := Option.map_eq_some_iff.1 h₂
  have hmem : ∀ x, x ∈ xs ∧ x.state = blkAlloc ↔ x ∈ us := fun x => by
    rw [hxs.computed hxs', ← hu, List.mem_filter, decide_eq_true_iff]
  have hmem' : ∀ x, x ∈ ys ∧ x.state = blkAlloc ↔ x ∈ us := fun x => by
    rw [hys.computed hys', ← hu', List.mem_filter, decide_eq_true_iff]
  intro x hx
  have hxus : x ∈ xs ↔ x ∈ us := by
    rw [← hmem, and_iff_left hx]
  have hyus : x ∈ ys ↔ x ∈ us := by
    rw [← hmem', and_iff_left hx]
  exact hxus.trans hyus.symm

/-- Two heaps without free neighbours, as long as each other and with the
same blocks seen in use, are the same. -/
theorem seen_canonical {cs : List Blk} {p : Nat} (hb : Coalesced bs)
    (hc : Coalesced cs) (htotal : total bs = total cs)
    (huse : SameUsed (seen p bs) (seen p cs)) : bs = cs := by
  have hsub : ∀ {ds es : List Blk}, SameUsed (seen p ds) (seen p es) →
      marked true p ds ⊆ marked true p es := by
    rintro ds es h ⟨q, b⟩ ⟨hq, hu⟩
    have hseen : seenAt (q, b) ∈ seen p ds := mem_seen.2 ⟨_, hq, rfl⟩
    obtain ⟨y, hy, he⟩ := mem_seen.1 ((h _ (seen_used.2 hu)).1 hseen)
    rw [seenAt_inj he]
    exact ⟨hy, by rw [← seenAt_inj he]; exact hu⟩
  exact coalesced_unique hb hc htotal (Set.Subset.antisymm (hsub huse)
    (hsub fun x hx => (huse x hx).symm))

/-- A heap without free neighbours and with nothing in use is empty, or
one free block. -/
theorem coalesced_unused (hb : Coalesced bs)
    (hnone : marked true 0 bs = ∅) :
    bs = [] ∨ ∃ b, bs = [b] ∧ b.used = false := by
  have hfree : ∀ x ∈ placed 0 bs, x.2.used = false := by
    intro x hx
    cases hu : x.2.used with
    | false => rfl
    | true =>
        have hin : x ∈ marked true 0 bs := ⟨hx, hu⟩
        rw [hnone] at hin
        cases hin
  cases bs with
  | nil => exact Or.inl rfl
  | cons b cs =>
      have hb₁ : b.used = false := hfree (0, b) (by simp)
      refine Or.inr ⟨b, ?_, hb₁⟩
      cases cs with
      | nil => rfl
      | cons c cs =>
          -- the neighbour would be free too
          have hc : c.used = false := hfree (0 + b.size, c) (by simp)
          rcases (List.isChain_cons_cons.1 hb).1 with h | h
          · rw [hb₁] at h
            cases h
          · rw [hc] at h
            cases h

/-- The heap list `xs` from `p` on has no blocks, or one that is free and
reaches to the break. -/
def Vacant (p : Nat) (s : Machine) (xs : List Seen) : Prop :=
  (xs = [] ∧ s.memBrk = p) ∨
    ∃ x, xs = [x] ∧ x.state = blkFree ∧ x.addr = p ∧
      x.addr + x.size = s.memBrk

theorem seen_vacant {p : Nat} (hb : Coalesced bs)
    (hnone : marked true 0 bs = ∅) (hbrk : s.memBrk = p + total bs) :
    Vacant p s (seen p bs) := by
  rcases coalesced_unused hb hnone with rfl | ⟨b, rfl, hfree⟩
  · exact Or.inl ⟨rfl, hbrk⟩
  · refine Or.inr ⟨_, rfl, seen_free.2 hfree, rfl, ?_⟩
    rw [total_cons, total_nil] at hbrk
    show p + b.size = s.memBrk
    omega

/-- Vacant heaps see the same blocks in use. -/
theorem Vacant.sameUsed {p q : Nat} {s₁ s₂ : Machine} {xs ys : List Seen}
    (hxs : Vacant p s₁ xs) (hys : Vacant q s₂ ys) : SameUsed xs ys := by
  have hnot : ∀ {p : Nat} {t : Machine} {zs : List Seen}, Vacant p t zs →
      ∀ x : Seen, x.state = blkAlloc → x ∉ zs := by
    rintro p t zs (⟨rfl, -⟩ | ⟨z, rfl, hz, -⟩) x hx hin
    · cases hin
    · rw [List.mem_singleton.1 hin, hz] at hx
      cases hx
  exact fun x hx => ⟨fun h => absurd h (hnot hxs x hx),
    fun h => absurd h (hnot hys x hx)⟩

/-- The block under the cursor shows its size, state and tags. -/
theorem Tiled.shows (h : Tiled hp e s z.blocks) :
    Shows s (seenAt (hp + 8 + z.off, z.mid)) where
  size := blkSize_ok h
  state := blkState_ok h
  hdr := by
    have hstart := h.start
    have hbrk := h.brk_eq
    have hpos := z.mid.pos
    have := load_ok (w := 4) (h.access (a := hp + 8 + z.off - 4)
      (n := 4) (by omega) (by omega))
    rw [h.mid_tags.1] at this
    exact this
  ftr := by
    have hstart := h.start
    have hbrk := h.brk_eq
    have hr := z.mid.room_add
    have haddr : hp + 8 + z.off + z.mid.room
        = hp + 8 + z.off + z.mid.size - 8 := by omega
    have hftr : (blkFtrp (hp + 8 + z.off)).run s
        = .ok (hp + 8 + z.off + z.mid.size - 8) s := by
      unfold blkFtrp
      rw [bind_ok (blkAvalSize_ok h), run_pure, haddr]
    have := load_ok (w := 4) (h.access
      (a := hp + 8 + z.off + z.mid.size - 8) (n := 4) (by omega) (by omega))
    rw [h.mid_tags.2] at this
    exact (bind_ok hftr).trans this

/-- From any block on, the walk comes past the rest of the tiling. -/
theorem Tiled.walk_from {l r : List Blk} (h : Tiled hp e s (l ++ r)) :
    Walk s (hp + 8 + total l) (seen (hp + 8 + total l) r) s.memBrk := by
  induction r generalizing l with
  | nil =>
      have hbrk := h.brk
      rw [List.append_nil] at hbrk
      rw [← hbrk]
      exact Walk.stop
  | cons b r ih =>
      have hz : Tiled hp e s (Zip.blocks ⟨l, b, r⟩) := h
      have hsplit : l ++ b :: r = (l ++ [b]) ++ r := by simp
      rw [hsplit] at h
      have hrest := ih h
      have htotal : hp + 8 + total (l ++ [b])
          = hp + 8 + total l + b.size := by
        rw [total_append, total_cons, total_nil]
        omega
      rw [htotal] at hrest
      have hpos := b.pos
      exact Walk.step hz.shows (show b.size ≠ 0 by omega)
        (nextBlkp_ok hz) hrest

/-- The blocks of a tiled heap. -/
theorem Tiled.blockList (h : Tiled hp e s bs) (hl : s.heapListp = hp) :
    BlockList s (seen (hp + 8) bs) := by
  refine ⟨hp + 8, ?_, ?_⟩
  · unfold nextBlkp
    rw [hl, bind_ok h.proSize_ok]
    rfl
  · have := Tiled.walk_from (l := []) (r := bs) h
    rwa [total_nil] at this

/-- The heap list of a tiled heap. -/
theorem Tiled.heapList (h : Tiled hp e s bs) (he : e / 8 = 0)
    (hl : s.heapListp = hp) : HeapList s (seen (hp + 8) bs) where
  blocks := h.blockList hl
  closed := by
    have := h.endSize_ok
    rwa [he] at this

/-- Neighbours in a coalesced list are seen so. -/
theorem seen_coalesced {bs : List Blk} (h : Coalesced bs) (p : Nat) :
    (seen p bs).IsChain
      fun x y => ¬ (x.state = blkFree ∧ y.state = blkFree) := by
  induction bs generalizing p with
  | nil => exact List.isChain_nil
  | cons b bs ih =>
      cases bs with
      | nil => exact List.isChain_singleton _
      | cons c bs =>
          have hbc := List.isChain_cons_cons.1 h
          refine List.isChain_cons_cons.2 ⟨?_, ih hbc.2 _⟩
          rintro ⟨hb, hc⟩
          have hb' : b.used.toNat = 0 := hb
          have hc' : c.used.toNat = 0 := hc
          rcases hbc.1 with hu | hu
          · rw [hu] at hb'
            cases hb'
          · rw [hu] at hc'
            cases hc'

/-- The same blocks placed in two regions look the same. -/
theorem seen_same (R₁ R₂ : Region) (d : Nat) (bs : List Blk) :
    List.Forall₂ (SameSeen R₁ R₂) (seen (R₁.base + d) bs)
      (seen (R₂.base + d) bs) := by
  induction bs generalizing d with
  | nil => exact List.Forall₂.nil
  | cons b bs ih =>
      rw [seen_cons, seen_cons, Nat.add_assoc, Nat.add_assoc]
      refine List.Forall₂.cons ⟨?_, rfl, rfl, rfl, rfl⟩ (ih (d + b.size))
      show R₁.base + d + R₂.base = R₂.base + d + R₁.base
      omega

end MallocLab.Proofs
