/-
Free blocks filed by class: the bookkeeping half of a segregated
allocator, with no memory in it. `Bins` maps a class to the offsets of
the free blocks filed under it, newest first; `Files cls B F` says the
bins hold the blocks of `F`, each once, each under its own class.

The free blocks an allocator must have filed while the block under a
cursor is in its hands are the ones to the left and to the right of it
(`sides`). Taking a neighbour in means taking it out of its bin, and
`Files` moves along: `Files.dropNext` and `Files.dropPrev` step with
`absorbNext` and `absorbPrev`, `Files.put` closes the hole.
-/
import MallocLab.Lib.Blocks
import Mathlib.Logic.Function.Basic
import Mathlib.Data.Set.Insert

namespace MallocLab.Blocks

/-- The offsets filed under each class, newest first. -/
abbrev Bins := Nat → List Nat

/-- The blocks of a list whose used bit is `u`, with where they are
placed. -/
def marked (u : Bool) (p : Nat) (bs : List Blk) : Set (Nat × Blk) :=
  {x | x ∈ placed p bs ∧ x.2.used = u}

/-- The blocks marked `u` beside the block under the cursor. -/
def Zip.sides (u : Bool) (z : Zip) : Set (Nat × Blk) :=
  marked u 0 z.left ∪ marked u (z.off + z.mid.size) z.right

variable (cls : Blk → Nat)

/-- Take the block `b` at offset `o` out of its bin. -/
def Bins.drop (B : Bins) (o : Nat) (b : Blk) : Bins :=
  Function.update B (cls b) ((B (cls b)).erase o)

/-- File the block `b` at offset `o`. -/
def Bins.put (B : Bins) (o : Nat) (b : Blk) : Bins :=
  Function.update B (cls b) (o :: B (cls b))

/-- Take the next block out of its bin if it is free. -/
def Bins.dropNext (B : Bins) (z : Zip) : Bins :=
  match z.right with
  | [] => B
  | c :: _ => if c.used then B else B.drop cls (z.off + z.mid.size) c

/-- Take the previous block out of its bin if it is free. -/
def Bins.dropPrev (B : Bins) (z : Zip) : Bins :=
  match z.left.getLast? with
  | none => B
  | some c => if c.used then B else B.drop cls (z.off - c.size) c

/-- A free block starts at `o`, right behind the one under the cursor. -/
def Zip.FreeNext (z : Zip) (o : Nat) : Prop :=
  ∃ c ∈ z.right.head?, c.used = false ∧ o = z.off + z.mid.size

/-- A free block starts at `o`, right before the one under the cursor. -/
def Zip.FreePrev (z : Zip) (o : Nat) : Prop :=
  ∃ c ∈ z.left.getLast?, c.used = false ∧ o = z.off - c.size

instance (z : Zip) (o : Nat) : Decidable (z.FreeNext o) := by
  unfold Zip.FreeNext
  infer_instance

instance (z : Zip) (o : Nat) : Decidable (z.FreePrev o) := by
  unfold Zip.FreePrev
  infer_instance

/-- The bins hold the blocks of `F`, each once and under its class. -/
structure Files (B : Bins) (F : Set (Nat × Blk)) : Prop where
  mem : ∀ k o, o ∈ B k ↔ ∃ b, (o, b) ∈ F ∧ cls b = k
  nodup : ∀ k, (B k).Nodup

-- ====================================================== the marked blocks

variable {u : Bool}

@[simp] theorem mem_marked {p o : Nat} {b : Blk} {bs : List Blk} :
    (o, b) ∈ marked u p bs ↔ (o, b) ∈ placed p bs ∧ b.used = u := Iff.rfl

@[simp] theorem marked_nil (p : Nat) : marked u p [] = ∅ :=
  Set.eq_empty_of_forall_notMem fun _ h => List.not_mem_nil h.1

theorem marked_append (p : Nat) (l r : List Blk) :
    marked u p (l ++ r) = marked u p l ∪ marked u (p + total l) r := by
  ext ⟨o, b⟩
  simp only [mem_marked, Set.mem_union, placed_append, List.mem_append]
  tauto

theorem marked_cons_ne {p : Nat} {c : Blk} (r : List Blk)
    (hc : c.used ≠ u) : marked u p (c :: r) = marked u (p + c.size) r := by
  ext ⟨o, b⟩
  simp only [mem_marked, placed_cons, List.mem_cons]
  constructor
  · rintro ⟨he | h, hb⟩
    · cases he
      exact absurd hb hc
    · exact ⟨h, hb⟩
  · rintro ⟨h, hb⟩
    exact ⟨Or.inr h, hb⟩

theorem marked_cons_eq {p : Nat} {c : Blk} (r : List Blk)
    (hc : c.used = u) :
    marked u p (c :: r) = insert (p, c) (marked u (p + c.size) r) := by
  ext ⟨o, b⟩
  simp only [mem_marked, placed_cons, List.mem_cons, Set.mem_insert_iff]
  constructor
  · rintro ⟨he | h, hb⟩
    · exact Or.inl he
    · exact Or.inr ⟨h, hb⟩
  · rintro (he | ⟨h, hb⟩)
    · cases he
      exact ⟨Or.inl rfl, hc⟩
    · exact ⟨Or.inr h, hb⟩

/-- With a block marked otherwise under it, the cursor sees all the
blocks marked `u`. -/
theorem Zip.sides_ne {z : Zip} (h : z.mid.used ≠ u) :
    z.sides u = marked u 0 z.blocks := by
  unfold sides blocks off
  rw [marked_append, Nat.zero_add, marked_cons_ne _ h]

/-- With a block marked `u` under it, it sees all the others. -/
theorem Zip.sides_eq {z : Zip} (h : z.mid.used = u) :
    insert (z.off, z.mid) (z.sides u) = marked u 0 z.blocks := by
  unfold sides blocks off
  rw [marked_append, Nat.zero_add, marked_cons_eq _ h, Set.union_insert]

/-- A block beside the cursor is a placed block of the list, clear of
the one under the cursor. -/
theorem Zip.mem_sides {z : Zip} {o : Nat} {b : Blk}
    (h : (o, b) ∈ z.sides u) :
    (o, b) ∈ placed 0 z.blocks ∧ b.used = u ∧
      (o + b.size ≤ z.off ∨ z.off + z.mid.size ≤ o) := by
  rcases h with ⟨h, hb⟩ | ⟨h, hb⟩
  · have := placed_bounds h
    refine ⟨by simp [blocks, h], hb, Or.inl ?_⟩
    unfold off
    omega
  · have := placed_bounds h
    refine ⟨?_, hb, Or.inr this.1⟩
    simp only [blocks, placed_append, placed_cons, List.mem_append,
      List.mem_cons, Nat.zero_add]
    exact Or.inr (Or.inr h)

theorem Zip.sides_sub (z : Zip) : z.sides u ⊆ marked u 0 z.blocks :=
  fun _ hx => ⟨(mem_sides hx).1, (mem_sides hx).2.1⟩

/-- Nothing beside the cursor sits at the cursor. -/
theorem Zip.off_not_sides (z : Zip) (b : Blk) : (z.off, b) ∉ z.sides u := by
  intro h
  have hb := b.pos
  have hm := z.mid.pos
  have := (mem_sides h).2.2
  omega

/-- The blocks beside the cursor are all but the one under it. -/
theorem Zip.sides_diff {z : Zip} (h : z.mid.used = u) :
    marked u 0 z.blocks \ {(z.off, z.mid)} = z.sides u := by
  rw [← sides_eq h, Set.insert_sdiff_self_of_notMem (z.off_not_sides z.mid)]

/-- The blocks in use after a merge are the ones beside the cursor
before. -/
theorem Zip.merge_useds (z : Zip) :
    marked true 0 z.merge.blocks = z.sides true := by
  ext ⟨o, b⟩
  simp only [mem_marked, sides, Set.mem_union]
  constructor
  · rintro ⟨h, hb⟩
    rcases (z.merge_used_placed hb).1 h with h | h
    · exact Or.inl ⟨h, hb⟩
    · rw [Nat.zero_add] at h
      exact Or.inr ⟨h, hb⟩
  · rintro (⟨h, hb⟩ | ⟨h, hb⟩)
    · exact ⟨(z.merge_used_placed hb).2 (Or.inl h), hb⟩
    · rw [← Nat.zero_add z.off] at h
      exact ⟨(z.merge_used_placed hb).2 (Or.inr h), hb⟩

/-- A neighbour taken in was free: the blocks in use beside the cursor
stay. -/
theorem Zip.absorbNext_useds (z : Zip) :
    z.absorbNext.sides true = z.sides true := by
  rcases z.absorbNext_cases with ⟨-, h⟩ | ⟨c, r, hr, hc, h⟩
  · rw [h]
  · rw [h]
    obtain ⟨l, b, r'⟩ := z
    cases hr
    simp only [sides, off, Blk.join_size]
    rw [marked_cons_ne (u := true) r (by simp [hc]), Nat.add_assoc]

theorem Zip.absorbPrev_useds (z : Zip) :
    z.absorbPrev.sides true = z.sides true := by
  rcases z.absorbPrev_cases with ⟨-, h⟩ | ⟨l, c, hl, hc, h⟩
  · rw [h]
  · rw [h]
    obtain ⟨l', b, r⟩ := z
    simp only at hl
    subst hl
    simp only [sides, off, Blk.join_size, total_append, total_cons,
      total_nil, Nat.add_zero]
    rw [marked_append, Nat.zero_add,
      marked_cons_ne (u := true) [] (by simp [hc]), marked_nil,
      Set.union_empty, Nat.add_assoc]

/-- With its first bytes handed out, the block under the cursor is in
use, and the others as before. -/
theorem Zip.fill_useds {z : Zip} {n : Nat} (hn : n % 8 = 0) (hn' : 8 ≤ n)
    (h : n ≤ z.mid.size) : marked true 0 (z.fill n)
      = insert (z.off, Blk.of n true) (z.sides true) := by
  have hz := z.mid.aligned
  have hcut : marked true z.off (cut n z.mid.size)
      = {(z.off, Blk.of n true)} := by
    unfold cut
    rw [marked_cons_eq _ (by simp)]
    split
    · rw [marked_nil, insert_empty_eq]
    · rw [marked_cons_ne [] (by simp), marked_nil, insert_empty_eq]
  unfold fill sides
  rw [List.append_assoc, marked_append, marked_append, Nat.zero_add,
    total_cut hn hn' hz h]
  show _ ∪ (marked true z.off _ ∪ marked true (z.off + _) _) = _
  rw [hcut, Set.singleton_union, Set.union_insert]

-- ===================================================== coalesced lists

/-- A block placed first in a list that has a block at its start. -/
theorem placed_head {p : Nat} {b c : Blk} {cs : List Blk}
    (h : (p, b) ∈ placed p (c :: cs)) : b = c :=
  placed_unique h (by simp)

/-- The first block in use behind a free one is not before its end. -/
theorem marked_behind {p q : Nat} {b c : Blk} {bs : List Blk}
    (hb : b.used = false) (h : (q, c) ∈ marked true p (b :: bs)) :
    p + b.size ≤ q := by
  rw [marked_cons_ne bs (by simp [hb])] at h
  exact (placed_bounds h.1).1

/-- A free block of a coalesced list ends at a block in use or with the
list. -/
theorem Coalesced.behind {p : Nat} {b : Blk} {bs : List Blk}
    (h : Coalesced (b :: bs)) (hb : b.used = false) :
    bs = [] ∨ ∃ c, (p + b.size, c) ∈ marked true p (b :: bs) := by
  cases bs with
  | nil => exact Or.inl rfl
  | cons c bs =>
      have hc : c.used = true := by
        rcases (List.isChain_cons_cons.1 h).1 with hu | hu
        · rw [hb] at hu
          cases hu
        · exact hu
      exact Or.inr ⟨c, by simp [placed_cons], hc⟩

/-- So its end is fixed by the blocks in use and the extent. -/
theorem Coalesced.head_le {p : Nat} {b c : Blk} {bs cs : List Blk}
    (hb : Coalesced (b :: bs)) (hbf : b.used = false)
    (hcf : c.used = false) (htotal : total (b :: bs) = total (c :: cs))
    (huse : marked true p (b :: bs) = marked true p (c :: cs)) :
    c.size ≤ b.size := by
  rcases hb.behind (p := p) hbf with hnil | ⟨d, hd⟩
  · rw [hnil, total_cons, total_cons, total_nil] at htotal
    omega
  · rw [huse] at hd
    have := marked_behind hcf hd
    omega

/-- A coalesced list is determined by its extent and its blocks in use:
what lies between them is one free block each time. -/
theorem coalesced_unique {p : Nat} {bs cs : List Blk} (hb : Coalesced bs)
    (hc : Coalesced cs) (htotal : total bs = total cs)
    (huse : marked true p bs = marked true p cs) : bs = cs := by
  induction bs generalizing p cs with
  | nil =>
      cases cs with
      | nil => rfl
      | cons c cs =>
          rw [total_nil, total_cons] at htotal
          have := c.pos
          omega
  | cons b bs ih =>
      cases cs with
      | nil =>
          rw [total_nil, total_cons] at htotal
          have := b.pos
          omega
      | cons c cs =>
          have hbc : b = c := by
            by_cases hbu : b.used = true
            · have hmem : (p, b) ∈ marked true p (c :: cs) := by
                rw [← huse]
                exact ⟨by simp, hbu⟩
              exact placed_head hmem.1
            by_cases hcu : c.used = true
            · have hmem : (p, c) ∈ marked true p (b :: bs) := by
                rw [huse]
                exact ⟨by simp, hcu⟩
              exact (placed_head hmem.1).symm
            have hbf := Bool.eq_false_of_not_eq_true hbu
            have hcf := Bool.eq_false_of_not_eq_true hcu
            have hle := hb.head_le hbf hcf htotal huse
            have hge := hc.head_le hcf hbf htotal.symm huse.symm
            exact Blk.ext (Nat.le_antisymm hge hle) (hbf.trans hcf.symm)
          subst hbc
          have hrest : marked true (p + b.size) bs
              = marked true (p + b.size) cs := by
            by_cases hbu : b.used = true
            · have hout : ∀ ds, (p, b) ∉ marked true (p + b.size) ds := by
                intro ds hd
                have := (placed_bounds hd.1).1
                have := b.pos
                omega
              rw [marked_cons_eq bs hbu, marked_cons_eq cs hbu] at huse
              rw [← Set.insert_sdiff_self_of_notMem (hout bs), huse,
                Set.insert_sdiff_self_of_notMem (hout cs)]
            · rwa [marked_cons_ne bs hbu, marked_cons_ne cs hbu] at huse
          rw [total_cons, total_cons] at htotal
          have hcs : Coalesced cs := List.IsChain.tail hc
          rw [ih (List.IsChain.tail hb) hcs (by omega) hrest]
-- ======================================================== their payloads

/-- The payload bytes of the blocks of `U`, with offset zero at `a`. -/
def payloadAt (a : Nat) (U : Set (Nat × Blk)) : Set Nat :=
  {x | ∃ y ∈ U, a + y.1 ≤ x ∧ x < a + y.1 + y.2.room}

theorem payloadAt_mono {a : Nat} {U V : Set (Nat × Blk)} (h : U ⊆ V) :
    payloadAt a U ⊆ payloadAt a V := by
  rintro x ⟨y, hy, hx⟩
  exact ⟨y, h hy, hx⟩

/-- The payload of a block is off the payloads of the blocks marked
otherwise. -/
theorem payloadAt_disjoint {a x o : Nat} {b : Blk} {bs : List Blk}
    (hb : (o, b) ∈ placed 0 bs) (hu : b.used ≠ u)
    (hx : x ∈ payloadAt a (marked u 0 bs)) :
    x < a + o ∨ a + o + b.room ≤ x := by
  obtain ⟨⟨o', b'⟩, ⟨hpl, hu'⟩, h1, h2⟩ := hx
  have := b.room_add
  have := b'.room_add
  simp only at h1 h2 hu'
  rcases placed_disjoint hpl hb with ⟨-, rfl⟩ | hd
  · exact absurd hu' hu
  · omega

-- ============================================================ the filing

variable {cls} {B : Bins} {F : Set (Nat × Blk)}

/-- Taking a filed block out leaves the others filed. -/
theorem Files.drop (h : Files cls B F) {o : Nat} {b : Blk}
    (hb : (o, b) ∈ F) (huniq : ∀ c, (o, c) ∈ F → c = b) :
    Files cls (B.drop cls o b) (F \ {(o, b)}) where
  mem := fun k o' => by
    unfold Bins.drop
    by_cases hk : k = cls b
    · subst hk
      rw [Function.update_self, (h.nodup _).mem_erase_iff, h.mem]
      constructor
      · rintro ⟨hne, c, hc, hcls⟩
        exact ⟨c, ⟨hc, fun he => hne (congrArg Prod.fst he)⟩, hcls⟩
      · rintro ⟨c, ⟨hc, hne⟩, hcls⟩
        refine ⟨fun he => hne ?_, c, hc, hcls⟩
        subst he
        rw [huniq c hc]
        rfl
    · rw [Function.update_of_ne hk, h.mem]
      constructor
      · rintro ⟨c, hc, rfl⟩
        exact ⟨c, ⟨hc, fun he => hk (congrArg (cls ·.2) he)⟩, rfl⟩
      · rintro ⟨c, ⟨hc, -⟩, hcls⟩
        exact ⟨c, hc, hcls⟩
  nodup := fun k => by
    unfold Bins.drop
    by_cases hk : k = cls b
    · subst hk
      rw [Function.update_self]
      exact (h.nodup _).erase o
    · rw [Function.update_of_ne hk]
      exact h.nodup k

/-- The bins without a block are the bins, its offset struck out. -/
theorem Files.drop_eq (h : Files cls B F) {o : Nat} {b : Blk}
    (hb : (o, b) ∈ F) (huniq : ∀ c, (o, c) ∈ F → c = b) (k : Nat) :
    (B.drop cls o b) k = (B k).filter (· ≠ o) := by
  unfold Bins.drop
  by_cases hk : k = cls b
  · subst hk
    rw [Function.update_self, (h.nodup _).erase_eq_filter]
    apply List.filter_congr
    intro q _
    by_cases he : q = o <;> simp [he]
  · rw [Function.update_of_ne hk, eq_comm, List.filter_eq_self]
    intro q hq
    obtain ⟨c, hc, hcls⟩ := (h.mem k q).1 hq
    have hne : q ≠ o := by
      intro he
      subst he
      rw [huniq c hc] at hcls
      exact hk hcls.symm
    simpa using hne

/-- Filing a block at a fresh offset. -/
theorem Files.put (h : Files cls B F) {o : Nat} {b : Blk}
    (hfresh : ∀ c, (o, c) ∉ F) :
    Files cls (B.put cls o b) (insert (o, b) F) where
  mem := fun k o' => by
    unfold Bins.put
    by_cases hk : k = cls b
    · subst hk
      rw [Function.update_self, List.mem_cons, h.mem]
      constructor
      · rintro (rfl | ⟨c, hc, hcls⟩)
        · exact ⟨b, Or.inl rfl, rfl⟩
        · exact ⟨c, Or.inr hc, hcls⟩
      · rintro ⟨c, he | hc, hcls⟩
        · exact Or.inl (congrArg Prod.fst he)
        · exact Or.inr ⟨c, hc, hcls⟩
    · rw [Function.update_of_ne hk, h.mem]
      constructor
      · rintro ⟨c, hc, rfl⟩
        exact ⟨c, Or.inr hc, rfl⟩
      · rintro ⟨c, he | hc, rfl⟩
        · exact absurd (congrArg (cls ·.2) he) hk
        · exact ⟨c, hc, rfl⟩
  nodup := fun k => by
    unfold Bins.put
    by_cases hk : k = cls b
    · subst hk
      rw [Function.update_self, List.nodup_cons]
      refine ⟨fun hmem => ?_, h.nodup _⟩
      obtain ⟨c, hc, -⟩ := (h.mem _ _).1 hmem
      exact hfresh c hc
    · rw [Function.update_of_ne hk]
      exact h.nodup k

private theorem insert_diff_self {x : Nat × Blk} {G : Set (Nat × Blk)}
    (hx : x ∉ G) : insert x G \ {x} = G :=
  Set.insert_sdiff_self_of_notMem hx

/-- The free blocks beside the cursor, once the next one is taken in. -/
theorem Zip.sides_next {l r : List Blk} {b c : Blk}
    (hc : c.used = false) :
    Zip.sides false ⟨l, b, c :: r⟩ \ {(total l + b.size, c)}
      = Zip.sides false ⟨l, b.join c, r⟩ := by
  have hsplit : Zip.sides false ⟨l, b, c :: r⟩
      = insert (total l + b.size, c) (Zip.sides false ⟨l, b.join c, r⟩) := by
    simp only [Zip.sides, Zip.off, Blk.join_size]
    rw [marked_cons_eq _ hc, Set.union_insert, Nat.add_assoc]
  have hout : (total l + b.size, c) ∉ Zip.sides false ⟨l, b.join c, r⟩ := by
    intro hd
    have hbpos := b.pos
    have hcpos := c.pos
    have := (Zip.mem_sides hd).2.2
    simp only [Zip.off, Blk.join_size] at this
    omega
  rw [hsplit]
  exact insert_diff_self hout

/-- Likewise the previous one. -/
theorem Zip.sides_prev {l r : List Blk} {b c : Blk}
    (hc : c.used = false) :
    Zip.sides false ⟨l ++ [c], b, r⟩ \ {(total l, c)}
      = Zip.sides false ⟨l, c.join b, r⟩ := by
  have hsplit : Zip.sides false ⟨l ++ [c], b, r⟩
      = insert (total l, c) (Zip.sides false ⟨l, c.join b, r⟩) := by
    simp only [Zip.sides, Zip.off, Blk.join_size, total_append,
      total_cons, total_nil, Nat.add_zero]
    rw [marked_append, Nat.zero_add, marked_cons_eq _ hc, marked_nil,
      Set.union_insert, Set.union_empty, Set.insert_union, Nat.add_assoc]
  rw [hsplit]
  exact insert_diff_self (Zip.off_not_sides ⟨l, c.join b, r⟩ c)

/-- The next block leaves its bin as it is taken in. -/
theorem Files.dropNext {z : Zip} (h : Files cls B (z.sides false)) :
    Files cls (B.dropNext cls z) (z.absorbNext.sides false) := by
  obtain ⟨l, b, r⟩ := z
  cases r with
  | nil => exact h
  | cons c r =>
      cases hc : c.used with
      | true => simpa [Bins.dropNext, Zip.absorbNext, hc] using h
      | false =>
          have hmem : (total l + b.size, c) ∈ Zip.sides false ⟨l, b, c :: r⟩ :=
            Or.inr ⟨by simp [Zip.off], hc⟩
          have hd := h.drop hmem fun d hd => placed_unique
            (Zip.mem_sides hd).1 (Zip.mem_sides hmem).1
          rw [Zip.sides_next hc] at hd
          simpa [Bins.dropNext, Zip.absorbNext, Zip.off, hc] using hd

/-- The previous block leaves its bin as it is taken in. -/
theorem Files.dropPrev {z : Zip} (h : Files cls B (z.sides false)) :
    Files cls (B.dropPrev cls z) (z.absorbPrev.sides false) := by
  obtain ⟨l, b, r⟩ := z
  rcases l.eq_nil_or_concat with rfl | ⟨l, c, rfl⟩
  · exact h
  · rw [List.concat_eq_append] at h ⊢
    cases hc : c.used with
    | true => simpa [Bins.dropPrev, Zip.absorbPrev, hc] using h
    | false =>
        have hmem : (total l, c) ∈ Zip.sides false ⟨l ++ [c], b, r⟩ :=
          Or.inl ⟨by simp, hc⟩
        have hd := h.drop hmem fun d hd => placed_unique
          (Zip.mem_sides hd).1 (Zip.mem_sides hmem).1
        rw [Zip.sides_prev hc] at hd
        simpa [Bins.dropPrev, Zip.absorbPrev, Zip.off, hc] using hd

/-- Only the offset of a free next block is struck out. -/
theorem Files.dropNext_eq {z : Zip} (h : Files cls B (z.sides false))
    (k : Nat) : (B.dropNext cls z) k
      = (B k).filter fun o => ¬ z.FreeNext o := by
  obtain ⟨l, b, r⟩ := z
  cases r with
  | nil => simp [Bins.dropNext, Zip.FreeNext]
  | cons c r =>
      cases hc : c.used with
      | true => simp [Bins.dropNext, Zip.FreeNext, hc]
      | false =>
          have hmem : (total l + b.size, c) ∈ Zip.sides false ⟨l, b, c :: r⟩ :=
            Or.inr ⟨by simp [Zip.off], hc⟩
          have hd := h.drop_eq hmem (fun d hd => placed_unique
            (Zip.mem_sides hd).1 (Zip.mem_sides hmem).1) k
          simpa [Bins.dropNext, Zip.FreeNext, Zip.off, hc] using hd

/-- Likewise the offset of a free previous one. -/
theorem Files.dropPrev_eq {z : Zip} (h : Files cls B (z.sides false))
    (k : Nat) : (B.dropPrev cls z) k
      = (B k).filter fun o => ¬ z.FreePrev o := by
  obtain ⟨l, b, r⟩ := z
  rcases l.eq_nil_or_concat with rfl | ⟨l, c, rfl⟩
  · simp [Bins.dropPrev, Zip.FreePrev]
  · rw [List.concat_eq_append] at h ⊢
    cases hc : c.used with
    | true => simp [Bins.dropPrev, Zip.FreePrev, hc]
    | false =>
        have hmem : (total l, c) ∈ Zip.sides false ⟨l ++ [c], b, r⟩ :=
          Or.inl ⟨by simp, hc⟩
        have hd := h.drop_eq hmem (fun d hd => placed_unique
          (Zip.mem_sides hd).1 (Zip.mem_sides hmem).1) k
        simpa [Bins.dropPrev, Zip.FreePrev, Zip.off, hc] using hd

/-- Taking the next block in does not move the cursor. -/
theorem Zip.absorbNext_left (z : Zip) : z.absorbNext.left = z.left := by
  rcases z.absorbNext_cases with ⟨-, h⟩ | ⟨c, r, -, -, h⟩ <;> rw [h]

theorem Zip.absorbNext_off (z : Zip) : z.absorbNext.off = z.off := by
  unfold off
  rw [absorbNext_left]

/-- The previous block is the same once the next one is taken in. -/
theorem Bins.dropPrev_absorbNext (z : Zip) (C : Bins) :
    C.dropPrev cls z
      = C.dropPrev cls (Zip.absorbNext { z with mid := z.mid.mark false }) := by
  unfold Bins.dropPrev
  rw [Zip.absorbNext_left, Zip.absorbNext_off]
  rfl

/-- The bins around a merged block: both neighbours out. -/
theorem Files.merge {z : Zip} (h : Files cls B (z.sides false)) :
    Files cls ((B.dropNext cls z).dropPrev cls z) (z.merge.sides false) := by
  rw [Bins.dropPrev_absorbNext]
  exact (Files.dropNext (z := { z with mid := z.mid.mark false }) h).dropPrev

/-- They are the bins with both struck out. -/
theorem Files.merge_eq {z : Zip} (h : Files cls B (z.sides false))
    (k : Nat) : ((B.dropNext cls z).dropPrev cls z) k
      = (B k).filter fun o => ¬ (z.FreeNext o ∨ z.FreePrev o) := by
  have hnext := Files.dropNext (z := { z with mid := z.mid.mark false }) h
  have hprev : ∀ o,
      (Zip.absorbNext { z with mid := z.mid.mark false }).FreePrev o
        ↔ z.FreePrev o := by
    intro o
    unfold Zip.FreePrev
    rw [Zip.absorbNext_left, Zip.absorbNext_off]
    rfl
  have heq := hnext.dropPrev_eq k
  rw [← Bins.dropPrev_absorbNext] at heq
  rw [show (B.dropNext cls z).dropPrev cls z
    = (B.dropNext cls { z with mid := z.mid.mark false }).dropPrev cls z
      from rfl, heq]
  rw [show (B.dropNext cls { z with mid := z.mid.mark false }) k
    = (B.dropNext cls z) k from rfl, h.dropNext_eq k, List.filter_filter]
  apply List.filter_congr
  intro o _
  simp only [hprev, not_or, decide_not, Bool.decide_and]
  exact Bool.and_comm _ _

end MallocLab.Blocks
