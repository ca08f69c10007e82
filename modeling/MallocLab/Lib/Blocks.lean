/-
Boundary-tag block lists: what a heap tiled by tagged blocks is, before
any allocator is in sight. A block is a size and a used bit; a heap is a
list of blocks laid end to end from some address. Each block owns the
four bytes before its payload address (its header) and the last four
bytes of its extent (its footer), both holding the block's tag.

# Layout

The block placed at payload address `p` with size `n` owns
`[p - 4, p + n - 4)`: header `[p - 4, p)`, payload `[p, p + n - 8)`,
footer `[p + n - 8, p + n - 4)`; the next block is placed at `p + n`.
`placed p bs` lists the blocks of `bs` with their addresses, and every
statement about memory is pointwise over it (`Tagged`), so a frame
argument never walks the list: it takes two placed blocks and splits on
`placed_disjoint`.

# Editing

`Zip` is a cursor on one block of a list. The edits of an allocator are
edits at the cursor: `absorbNext` and `absorbPrev` take in a free
neighbour, `merge` does both and frees the block. Their inversion lemmas
(`absorbNext_cases`, `absorbPrev_cases`) are the only place the shapes
of the neighbours are split; everything about a merge is derived from
them.
-/
import MallocLab.Lib.Bytes
import Mathlib.Data.List.Chain

namespace MallocLab.Blocks

open Mem

-- ============================================================== the blocks

/-- A block: its whole size in bytes, tags included, and whether it is
in use. Sizes are multiples of eight, with room for the two tags. -/
structure Blk where
  size : Nat
  used : Bool
  aligned : size % 8 = 0
  pos : 8 ≤ size
deriving DecidableEq, Repr

@[ext] theorem Blk.ext {b c : Blk} (hs : b.size = c.size)
    (hu : b.used = c.used) : b = c := by
  cases b
  cases c
  cases hs
  cases hu
  rfl

/-- The word a block's header and footer hold: the size, with the used
bit in the bit the alignment leaves free. -/
def Blk.tag (b : Blk) : Nat := b.size + b.used.toNat

/-- The payload capacity of a block. -/
def Blk.room (b : Blk) : Nat := b.size - 8

/-- The block with its used bit set to `u`. -/
def Blk.mark (b : Blk) (u : Bool) : Blk := { b with used := u }

/-- Two adjacent blocks as one free block. -/
def Blk.join (b c : Blk) : Blk where
  size := b.size + c.size
  used := false
  aligned := by have := b.aligned; have := c.aligned; omega
  pos := by have := b.pos; omega

@[simp] theorem Blk.mark_size (b : Blk) (u : Bool) :
    (b.mark u).size = b.size := rfl
@[simp] theorem Blk.mark_used (b : Blk) (u : Bool) :
    (b.mark u).used = u := rfl
@[simp] theorem Blk.join_size (b c : Blk) :
    (b.join c).size = b.size + c.size := rfl
@[simp] theorem Blk.join_used (b c : Blk) : (b.join c).used = false := rfl

/-- A block of `n` bytes, where `n` is a size. -/
def Blk.of (n : Nat) (u : Bool) : Blk where
  size := n / 8 * 8 + if n < 8 then 8 else 0
  used := u
  aligned := by split <;> omega
  pos := by split <;> omega

theorem Blk.of_size {n : Nat} (u : Bool) (h : n % 8 = 0) (h' : 8 ≤ n) :
    (Blk.of n u).size = n := by
  show n / 8 * 8 + (if n < 8 then 8 else 0) = n
  rw [if_neg (by omega)]
  omega

@[simp] theorem Blk.of_used (n : Nat) (u : Bool) :
    (Blk.of n u).used = u := rfl

theorem Blk.room_add (b : Blk) : b.room + 8 = b.size :=
  Nat.sub_add_cancel b.pos

/-- The tag's low bit is the used bit, the rest is the size. -/
theorem Blk.tag_div (b : Blk) : b.tag / 8 * 8 = b.size := by
  have := b.aligned
  unfold Blk.tag
  cases b.used <;> simp <;> omega

theorem Blk.tag_mod (b : Blk) : b.tag % 2 = b.used.toNat := by
  have := b.aligned
  unfold Blk.tag
  cases b.used <;> simp <;> omega

theorem Blk.tag_le (b : Blk) : b.tag ≤ b.size + 1 := by
  unfold Blk.tag
  cases b.used <;> simp

-- ========================================================== block lists

/-- The bytes a list of blocks covers. -/
def total (bs : List Blk) : Nat := (bs.map Blk.size).sum

/-- The blocks of a list with their payload addresses, the first one
placed at `p`. -/
def placed : Nat → List Blk → List (Nat × Blk)
  | _, [] => []
  | p, b :: bs => (p, b) :: placed (p + b.size) bs

@[simp] theorem total_nil : total [] = 0 := rfl

@[simp] theorem total_cons (b : Blk) (bs : List Blk) :
    total (b :: bs) = b.size + total bs := by
  simp [total]

@[simp] theorem total_append (l r : List Blk) :
    total (l ++ r) = total l + total r := by
  simp [total]

/-- A stretch of `t` bytes with its first `n` handed out: what is left,
if anything is, is a free block. -/
def cut (n t : Nat) : List Blk :=
  Blk.of n true :: if t = n then [] else [Blk.of (t - n) false]

theorem total_cut {n t : Nat} (hn : n % 8 = 0) (hn' : 8 ≤ n)
    (ht : t % 8 = 0) (h : n ≤ t) : total (cut n t) = t := by
  unfold cut
  rw [total_cons, Blk.of_size true hn hn']
  split
  · rw [total_nil]
    omega
  · rw [total_cons, total_nil, Blk.of_size false (by omega) (by omega)]
    omega

theorem total_aligned (bs : List Blk) : total bs % 8 = 0 := by
  induction bs with
  | nil => rfl
  | cons b bs ih =>
      have := b.aligned
      rw [total_cons]
      omega

@[simp] theorem placed_nil (p : Nat) : placed p [] = [] := rfl

@[simp] theorem placed_cons (p : Nat) (b : Blk) (bs : List Blk) :
    placed p (b :: bs) = (p, b) :: placed (p + b.size) bs := rfl

@[simp] theorem placed_append (p : Nat) (l r : List Blk) :
    placed p (l ++ r) = placed p l ++ placed (p + total l) r := by
  induction l generalizing p with
  | nil => simp
  | cons b l ih => simp [ih, Nat.add_assoc]

@[simp] theorem placed_length (p : Nat) (bs : List Blk) :
    (placed p bs).length = bs.length := by
  induction bs generalizing p with
  | nil => rfl
  | cons b bs ih => simp [ih]

/-- Placing further on shifts every address. -/
theorem placed_shift (p d : Nat) (bs : List Blk) :
    placed (p + d) bs = (placed p bs).map fun x => (x.1 + d, x.2) := by
  induction bs generalizing p with
  | nil => rfl
  | cons b bs ih =>
      rw [placed_cons, placed_cons, List.map_cons, ← ih,
        show p + d + b.size = p + b.size + d by omega]

theorem mem_placed_shift {p d q : Nat} {b : Blk} {bs : List Blk} :
    (q, b) ∈ placed (p + d) bs ↔ ∃ o, q = o + d ∧ (o, b) ∈ placed p bs := by
  rw [placed_shift]
  constructor
  · intro h
    obtain ⟨⟨o, c⟩, hmem, he⟩ := List.mem_map.1 h
    cases he
    exact ⟨o, rfl, hmem⟩
  · rintro ⟨o, rfl, hmem⟩
    exact List.mem_map.2 ⟨(o, b), hmem, rfl⟩

/-- Addresses are the start of the list plus an offset. -/
theorem mem_placed_at {p q : Nat} {b : Blk} {bs : List Blk} :
    (q, b) ∈ placed p bs ↔ ∃ o, q = o + p ∧ (o, b) ∈ placed 0 bs := by
  rw [← mem_placed_shift, Nat.zero_add]

/-- Where a placed block lies within its list's extent. -/
theorem placed_bounds {p q : Nat} {b : Blk} {bs : List Blk}
    (h : (q, b) ∈ placed p bs) :
    p ≤ q ∧ q + b.size ≤ p + total bs ∧ q % 8 = p % 8 := by
  induction bs generalizing p with
  | nil => cases h
  | cons c bs ih =>
      have := c.aligned
      rw [placed_cons] at h
      rw [total_cons]
      rcases List.mem_cons.1 h with he | h
      · cases he
        omega
      · have := ih h
        omega

/-- Every placed block splits its list. -/
theorem placed_split {p q : Nat} {b : Blk} {bs : List Blk}
    (h : (q, b) ∈ placed p bs) :
    ∃ l r, bs = l ++ b :: r ∧ q = p + total l := by
  induction bs generalizing p with
  | nil => cases h
  | cons c bs ih =>
      rw [placed_cons] at h
      rcases List.mem_cons.1 h with he | h
      · cases he
        exact ⟨[], bs, rfl, rfl⟩
      · obtain ⟨l, r, rfl, rfl⟩ := ih h
        exact ⟨c :: l, r, rfl, by rw [total_cons]; omega⟩

theorem placed_mem {p q : Nat} {b : Blk} {bs : List Blk}
    (h : (q, b) ∈ placed p bs) : b ∈ bs := by
  obtain ⟨l, r, rfl, -⟩ := placed_split h
  simp

/-- Placed blocks follow one another: an earlier one ends before a later
one starts. -/
theorem placed_pairwise (p : Nat) (bs : List Blk) :
    (placed p bs).Pairwise fun x y => x.1 + x.2.size ≤ y.1 := by
  induction bs generalizing p with
  | nil => exact List.Pairwise.nil
  | cons b bs ih =>
      refine List.Pairwise.cons (fun y hy => ?_) (ih (p + b.size))
      obtain ⟨q, c⟩ := y
      exact (placed_bounds hy).1

/-- Two placed blocks are the same one, or one ends before the other
starts. -/
theorem placed_disjoint {p q q' : Nat} {b b' : Blk} {bs : List Blk}
    (h : (q, b) ∈ placed p bs) (h' : (q', b') ∈ placed p bs) :
    (q = q' ∧ b = b') ∨ q + b.size ≤ q' ∨ q' + b'.size ≤ q := by
  induction bs generalizing p with
  | nil => cases h
  | cons c bs ih =>
      rw [placed_cons] at h h'
      rcases List.mem_cons.1 h with he | h
      · cases he
        rcases List.mem_cons.1 h' with he' | h'
        · cases he'
          exact Or.inl ⟨rfl, rfl⟩
        · exact Or.inr (Or.inl (placed_bounds h').1)
      · rcases List.mem_cons.1 h' with he' | h'
        · cases he'
          exact Or.inr (Or.inr (placed_bounds h).1)
        · exact ih h h'

/-- An address places one block at most. -/
theorem placed_unique {p q : Nat} {b b' : Blk} {bs : List Blk}
    (h : (q, b) ∈ placed p bs) (h' : (q, b') ∈ placed p bs) : b = b' := by
  have := b.pos
  have := b'.pos
  rcases placed_disjoint h h' with ⟨-, he⟩ | hd | hd
  · exact he
  · omega
  · omega

/-- The addresses of placed blocks are distinct. -/
theorem placed_nodup (p : Nat) (bs : List Blk) :
    ((placed p bs).map Prod.fst).Nodup := by
  refine List.pairwise_map.2 ((placed_pairwise p bs).imp fun {x y} h => ?_)
  have := x.2.pos
  omega

/-- A list covers at least eight bytes a block. -/
theorem length_le_total (bs : List Blk) : 8 * bs.length ≤ total bs := by
  induction bs with
  | nil => simp
  | cons b bs ih =>
      have := b.pos
      rw [total_cons, List.length_cons]
      omega

-- ============================================================== the tags

/-- The header and the footer of the block `b` placed at `p`. -/
def tagBytes (p : Nat) (b : Blk) : Set Nat :=
  {x | (p - 4 ≤ x ∧ x < p) ∨
    (p + b.size - 8 ≤ x ∧ x < p + b.size - 4)}

/-- Every placed block's header and footer hold its tag. -/
def Tagged (m : Bytes) (pl : List (Nat × Blk)) : Prop :=
  ∀ x ∈ pl, rd 4 m (x.1 - 4) = x.2.tag ∧
    rd 4 m (x.1 + x.2.size - 8) = x.2.tag

/-- Write the tags of the block `b` placed at `p`: header first. -/
def stamp (m : Bytes) (p : Nat) (b : Blk) : Bytes :=
  wr 4 (wr 4 m (p - 4) b.tag) (p + b.size - 8) b.tag

/-- Write the tags of two blocks, the second placed after the first. -/
def stampPair (m : Bytes) (p : Nat) (b c : Blk) : Bytes :=
  stamp (stamp m p b) (p + b.size) c

/-- Write the tags of a stretch of `t` bytes with its first `n` handed
out. -/
def stampCut (m : Bytes) (p n t : Nat) : Bytes :=
  if t = n then stamp m p (Blk.of n true)
  else stampPair m p (Blk.of n true) (Blk.of (t - n) false)

@[simp] theorem tagged_nil (m : Bytes) : Tagged m [] := by
  intro x hx
  cases hx

theorem tagged_cons {m : Bytes} {x : Nat × Blk} {pl : List (Nat × Blk)} :
    Tagged m (x :: pl) ↔ (rd 4 m (x.1 - 4) = x.2.tag ∧
      rd 4 m (x.1 + x.2.size - 8) = x.2.tag) ∧ Tagged m pl :=
  List.forall_mem_cons

theorem tagged_append {m : Bytes} {l r : List (Nat × Blk)} :
    Tagged m (l ++ r) ↔ Tagged m l ∧ Tagged m r :=
  List.forall_mem_append

/-- Tags are read off the tag bytes only. -/
theorem Tagged.frame {m m' : Bytes} {pl : List (Nat × Blk)}
    (h : Tagged m pl) (hpos : ∀ x ∈ pl, 4 ≤ x.1)
    (hm : ∀ x ∈ pl, Set.EqOn m' m (tagBytes x.1 x.2)) : Tagged m' pl := by
  intro x hx
  have hp := hpos x hx
  have hb := x.2.pos
  have ⟨hhdr, hftr⟩ := h x hx
  constructor
  · rw [← hhdr]
    exact rd_congr fun z hz => hm x hx (Or.inl ⟨hz.1, by
      have := hz.2
      omega⟩)
  · rw [← hftr]
    exact rd_congr fun z hz => hm x hx (Or.inr ⟨hz.1, by
      have := hz.2
      omega⟩)

/-- A stamped block shows its tag at both ends. -/
theorem stamp_tagged {m : Bytes} {p : Nat} {b : Blk} (hp : 4 ≤ p)
    (hb : b.size < 2 ^ 32 - 1) : Tagged (stamp m p b) [(p, b)] := by
  have hpos := b.pos
  have htag : b.tag < 256 ^ 4 := by
    have := b.tag_le
    omega
  refine tagged_cons.2 ⟨⟨?_, ?_⟩, tagged_nil _⟩
  · show rd 4 (stamp m p b) (p - 4) = b.tag
    unfold stamp
    rw [rd_wr_ne (by omega), rd_wr_of_lt htag]
  · show rd 4 (stamp m p b) (p + b.size - 8) = b.tag
    exact rd_wr_of_lt htag

/-- Stamping writes tag bytes only. -/
theorem stamp_of_out {m : Bytes} {p x : Nat} {b : Blk} (hp : 4 ≤ p)
    (h : x ∉ tagBytes p b) : stamp m p b x = m x := by
  have hpos := b.pos
  have hx : ¬((p - 4 ≤ x ∧ x < p) ∨
    (p + b.size - 8 ≤ x ∧ x < p + b.size - 4)) := h
  unfold stamp
  rw [wr_of_out (by omega), wr_of_out (by omega)]

/-- Two stamped blocks show their tags. -/
theorem stampPair_tagged {m : Bytes} {p : Nat} {b c : Blk} (hp : 4 ≤ p)
    (hb : b.size < 2 ^ 32 - 1) (hc : c.size < 2 ^ 32 - 1) :
    Tagged (stampPair m p b c) (placed p [b, c]) := by
  have hbpos := b.pos
  have hcpos := c.pos
  have hfront := stamp_tagged (m := m) hp hb
  refine tagged_cons.2 ⟨?_, stamp_tagged (by omega) hc⟩
  refine (tagged_cons.1 (hfront.frame (by simp; omega) ?_)).1
  intro y hy x hx
  cases List.mem_singleton.1 hy
  refine stamp_of_out (by omega) fun hcx => ?_
  simp only [tagBytes, Set.mem_ofPred_eq] at hx hcx
  omega

/-- A stretch that was cut shows the tags of its parts. -/
theorem stampCut_tagged {m : Bytes} {p n t : Nat} (hp : 4 ≤ p)
    (hn : n % 8 = 0) (hn' : 8 ≤ n) (ht : t % 8 = 0) (hnt : n ≤ t)
    (hlt : t < 2 ^ 32 - 1) :
    Tagged (stampCut m p n t) (placed p (cut n t)) := by
  have hb := Blk.of_size true hn hn'
  unfold stampCut cut
  split
  · exact stamp_tagged hp (by omega)
  · have hc := Blk.of_size (n := t - n) false (by omega) (by omega)
    exact stampPair_tagged hp (by omega) (by omega)

/-- Cutting a stretch writes its first and last tags, and the two at the
cut. -/
theorem stampCut_of_out {m : Bytes} {p n t x : Nat} (hp : 4 ≤ p)
    (hn : n % 8 = 0) (hn' : 8 ≤ n) (ht : t % 8 = 0) (hnt : n ≤ t)
    (hlo : x < p - 4 ∨ p ≤ x)
    (hmid : x < p + n - 8 ∨ p + n ≤ x ∨ p + t - 4 ≤ x)
    (hhi : x < p + t - 8 ∨ p + t - 4 ≤ x) :
    stampCut m p n t x = m x := by
  have hb := Blk.of_size true hn hn'
  unfold stampCut
  split
  · refine stamp_of_out hp ?_
    rintro (hc | hc) <;> omega
  · have hc := Blk.of_size (n := t - n) false (by omega) (by omega)
    unfold stampPair
    rw [stamp_of_out (by omega) ?_, stamp_of_out hp ?_]
    · rintro (hx | hx) <;> omega
    · rintro (hx | hx) <;> omega

/-- A placed block's tag bytes lie in no placed block's payload. -/
theorem tagBytes_not_payload {p q q' x : Nat} {b b' : Blk}
    {bs : List Blk} (hp : 4 ≤ p) (h : (q, b) ∈ placed p bs)
    (h' : (q', b') ∈ placed p bs) (hx : x ∈ tagBytes q b) :
    x < q' ∨ q' + b'.room ≤ x := by
  have hb := b.pos
  have hb' := b'.pos
  have hq := (placed_bounds h).1
  have hq' := (placed_bounds h').1
  unfold Blk.room
  rcases hx with hx | hx <;>
    rcases placed_disjoint h h' with ⟨rfl, rfl⟩ | hd | hd <;> omega

/-- Replacing a stretch of blocks by another of the same extent: the
tags of the blocks around it survive a change within the stretch. -/
theorem Tagged.replace {m m' : Bytes} {p : Nat} {l xs ys r : List Blk}
    (h : Tagged m (placed p (l ++ xs ++ r))) (hp : 4 ≤ p)
    (hlen : total ys = total xs)
    (hm : Set.EqOn m' m (Set.Ico (p + total l - 4)
      (p + total l + total xs - 4))ᶜ)
    (hys : Tagged m' (placed (p + total l) ys)) :
    Tagged m' (placed p (l ++ ys ++ r)) := by
  rw [placed_append, placed_append, tagged_append, tagged_append] at h ⊢
  obtain ⟨⟨hl, -⟩, hr⟩ := h
  refine ⟨⟨hl.frame ?_ ?_, hys⟩, ?_⟩
  · rintro ⟨q, b⟩ hq
    have := (placed_bounds hq).1
    omega
  · rintro ⟨q, b⟩ hq x hx
    have hb := placed_bounds hq
    have hpos := b.pos
    refine hm fun hc => ?_
    have h1 := hc.1
    rcases hx with hx | hx <;> simp only at hx hb <;> omega
  · rw [total_append, hlen, ← total_append]
    refine hr.frame ?_ ?_
    · rintro ⟨q, b⟩ hq
      have := (placed_bounds hq).1
      omega
    · rintro ⟨q, b⟩ hq x hx
      have hb := placed_bounds hq
      have hpos := b.pos
      rw [total_append] at hb
      refine hm fun hc => ?_
      have h2 := hc.2
      rcases hx with hx | hx <;> simp only at hx hb <;> omega

-- ============================================================= the cursor

/-- A block list with a cursor on one of its blocks. -/
structure Zip where
  left : List Blk
  mid : Blk
  right : List Blk
deriving DecidableEq, Repr

namespace Zip

/-- The whole list. -/
def blocks (z : Zip) : List Blk := z.left ++ z.mid :: z.right

/-- The offset of the block under the cursor from the first block. -/
def off (z : Zip) : Nat := total z.left

/-- Take in the next block if there is a free one. -/
def absorbNext (z : Zip) : Zip :=
  match z.right with
  | [] => z
  | c :: r => if c.used then z else ⟨z.left, z.mid.join c, r⟩

/-- Take in the previous block if there is a free one. -/
def absorbPrev (z : Zip) : Zip :=
  match z.left.getLast? with
  | none => z
  | some c => if c.used then z else ⟨z.left.dropLast, c.join z.mid, z.right⟩

/-- Free the block under the cursor and take in its free neighbours. -/
def merge (z : Zip) : Zip :=
  absorbPrev (absorbNext { z with mid := z.mid.mark false })

/-- The list with the first `n` bytes of the block under the cursor
handed out. -/
def fill (z : Zip) (n : Nat) : List Blk :=
  z.left ++ cut n z.mid.size ++ z.right

/-- The block at offset `o`, if a block starts there. -/
def find? : Nat → List Blk → Option Zip
  | _, [] => none
  | o, b :: bs =>
      if o = 0 then some ⟨[], b, bs⟩
      else if o < b.size then none
      else (find? (o - b.size) bs).map fun z => { z with left := b :: z.left }

end Zip

/-- What `absorbNext` can do: nothing, when the next block is in use or
missing, or join the free next block to the one under the cursor. -/
theorem Zip.absorbNext_cases (z : Zip) :
    ((∀ c ∈ z.right.head?, c.used = true) ∧ z.absorbNext = z) ∨
    ∃ c r, z.right = c :: r ∧ c.used = false ∧
      z.absorbNext = ⟨z.left, z.mid.join c, r⟩ := by
  obtain ⟨l, b, r⟩ := z
  cases r with
  | nil => exact Or.inl ⟨by simp, rfl⟩
  | cons c r =>
      cases hc : c.used with
      | true => exact Or.inl ⟨by simp [hc], by simp [absorbNext, hc]⟩
      | false => exact Or.inr ⟨c, r, rfl, hc, by simp [absorbNext, hc]⟩

/-- What `absorbPrev` can do, likewise. -/
theorem Zip.absorbPrev_cases (z : Zip) :
    ((∀ c ∈ z.left.getLast?, c.used = true) ∧ z.absorbPrev = z) ∨
    ∃ l c, z.left = l ++ [c] ∧ c.used = false ∧
      z.absorbPrev = ⟨l, c.join z.mid, z.right⟩ := by
  obtain ⟨l, b, r⟩ := z
  rcases l.eq_nil_or_concat with rfl | ⟨l, c, rfl⟩
  · exact Or.inl ⟨by simp, rfl⟩
  · cases hc : c.used with
    | true => exact Or.inl ⟨by simp [hc], by simp [absorbPrev, hc]⟩
    | false => exact Or.inr ⟨l, c, by simp, hc, by simp [absorbPrev, hc]⟩

theorem Zip.find?_blocks (z : Zip) : Zip.find? z.off z.blocks = some z := by
  obtain ⟨l, b, r⟩ := z
  induction l with
  | nil => simp [find?, off, blocks]
  | cons c l ih =>
      have hc := c.pos
      simp only [off, blocks] at ih
      simp only [off, blocks, List.cons_append, total_cons, find?]
      rw [if_neg (by omega), if_neg (by omega), Nat.add_sub_cancel_left, ih]
      rfl

/-- A found cursor is a cursor on the list, at the offset asked for. -/
theorem Zip.find?_some {o : Nat} {bs : List Blk} {z : Zip}
    (h : Zip.find? o bs = some z) : z.blocks = bs ∧ z.off = o := by
  induction bs generalizing o z with
  | nil => cases h
  | cons b bs ih =>
      simp only [find?] at h
      split at h
      · cases h
        exact ⟨rfl, by simp [off, *]⟩
      · split at h
        · cases h
        · obtain ⟨z', hz', rfl⟩ := Option.map_eq_some_iff.1 h
          obtain ⟨hb, ho⟩ := ih hz'
          refine ⟨by simp [blocks, ← hb], ?_⟩
          simp only [off] at ho
          simp only [off, total_cons]
          omega

/-- The block under the cursor is placed at its offset. -/
theorem Zip.mem_placed (z : Zip) (p : Nat) :
    (p + z.off, z.mid) ∈ placed p z.blocks := by
  simp [blocks, off]

theorem Zip.mid_placed (z : Zip) : (z.off, z.mid) ∈ placed 0 z.blocks := by
  have hmem := z.mem_placed 0
  rwa [Nat.zero_add] at hmem

/-- A placed block is a cursor. -/
theorem Zip.of_placed {o : Nat} {b : Blk} {bs : List Blk}
    (h : (o, b) ∈ placed 0 bs) :
    ∃ z : Zip, z.blocks = bs ∧ z.off = o ∧ z.mid = b := by
  obtain ⟨l, r, rfl, rfl⟩ := placed_split h
  exact ⟨⟨l, b, r⟩, rfl, by simp [off], rfl⟩

/-- The block right behind the cursor's. -/
theorem Zip.next_of_placed {z : Zip} {c : Blk}
    (h : (z.off + z.mid.size, c) ∈ placed 0 z.blocks) :
    ∃ r, z.right = c :: r := by
  have hc := c.pos
  have hbd := placed_bounds h
  have htotal : total z.blocks = z.off + z.mid.size + total z.right := by
    unfold Zip.blocks Zip.off
    simp [Nat.add_assoc]
  cases hr : z.right with
  | nil =>
      rw [hr, total_nil] at htotal
      omega
  | cons d r =>
      have hd : (z.off + z.mid.size, d) ∈ placed 0 z.blocks := by
        unfold Zip.blocks Zip.off
        simp [hr]
      rw [placed_unique h hd]
      exact ⟨r, rfl⟩

/-- The block right before it. -/
theorem Zip.prev_of_placed {z : Zip} {o : Nat} {c : Blk}
    (h : (o, c) ∈ placed 0 z.blocks) (ho : o + c.size = z.off) :
    ∃ l, z.left = l ++ [c] := by
  have hc := c.pos
  rcases z.left.eq_nil_or_concat with hl | ⟨l, d, hl⟩
  · unfold Zip.off at ho
    rw [hl, total_nil] at ho
    omega
  · rw [List.concat_eq_append] at hl
    have hoff : z.off = total l + d.size := by
      unfold Zip.off
      simp [hl]
    have hd : (total l, d) ∈ placed 0 z.blocks := by
      unfold Zip.blocks
      simp [hl]
    have hpos := d.pos
    rcases placed_disjoint h hd with ⟨-, hcd⟩ | hcd | hcd
    · rw [hcd]
      exact ⟨l, hl⟩
    · omega
    · omega

-- ============================================================ coalescing

/-- No two neighbouring blocks are both free. -/
def Coalesced (bs : List Blk) : Prop :=
  bs.IsChain fun b c => b.used = true ∨ c.used = true

/-- What a merge does: a stretch of blocks around the cursor, free but
for the one under it, becomes one free block of the same extent. -/
theorem Zip.merge_shape (z : Zip) :
    ∃ l xs ys r, z.left = l ++ xs ∧ z.right = ys ++ r ∧
      (∀ c ∈ xs ++ ys, c.used = false) ∧ z.merge.left = l ∧
      z.merge.right = r ∧ z.merge.mid.used = false ∧
      z.merge.mid.size = total (xs ++ z.mid :: ys) := by
  obtain ⟨l, b, r⟩ := z
  unfold merge
  rcases absorbNext_cases ⟨l, b.mark false, r⟩ with
    ⟨-, hn⟩ | ⟨c, r', hr, hc, hn⟩ <;> rw [hn]
  · rcases absorbPrev_cases ⟨l, b.mark false, r⟩ with
      ⟨-, hp⟩ | ⟨l', d, hl, hd, hp⟩ <;> rw [hp]
    · exact ⟨l, [], [], r, by simp, by simp, by simp, rfl, rfl, rfl, by simp⟩
    · exact ⟨l', [d], [], r, hl, by simp, by simp [hd], rfl, rfl, rfl,
        by simp⟩
  · rcases absorbPrev_cases ⟨l, (b.mark false).join c, r'⟩ with
      ⟨-, hp⟩ | ⟨l', d, hl, hd, hp⟩ <;> rw [hp]
    · exact ⟨l, [], [c], r', by simp, hr, by simp [hc], rfl, rfl, rfl,
        by simp⟩
    · exact ⟨l', [d], [c], r', hl, hr, by simp [hc, hd], rfl, rfl, rfl,
        by simp⟩

theorem Zip.merge_mid_used (z : Zip) : z.merge.mid.used = false := by
  obtain ⟨-, -, -, -, -, -, -, -, -, h, -⟩ := z.merge_shape
  exact h

/-- The used bit apart, a merge is the two absorptions. -/
theorem Zip.merge_eq (z : Zip) :
    z.merge.left = z.absorbNext.absorbPrev.left ∧
      z.merge.right = z.absorbNext.absorbPrev.right ∧
      z.merge.mid.size = z.absorbNext.absorbPrev.mid.size := by
  have hprev : ∀ {l r : List Blk} {b c : Blk}, b.size = c.size →
      (absorbPrev ⟨l, b, r⟩).left = (absorbPrev ⟨l, c, r⟩).left ∧
      (absorbPrev ⟨l, b, r⟩).right = (absorbPrev ⟨l, c, r⟩).right ∧
      (absorbPrev ⟨l, b, r⟩).mid.size
        = (absorbPrev ⟨l, c, r⟩).mid.size := by
    intro l r b c hs
    unfold absorbPrev
    cases l.getLast? with
    | none => exact ⟨rfl, rfl, hs⟩
    | some d => cases hd : d.used <;> simp [hd, hs]
  obtain ⟨l, b, r⟩ := z
  unfold merge absorbNext
  cases r with
  | nil => exact hprev rfl
  | cons c r =>
      cases hc : c.used with
      | true =>
          simp only [hc, if_true]
          exact hprev rfl
      | false =>
          simp only [hc, Bool.false_eq_true, if_false]
          exact hprev rfl

/-- The extent of the list does not change in a merge. -/
theorem Zip.merge_total (z : Zip) : total z.merge.blocks = total z.blocks := by
  obtain ⟨l, xs, ys, r, hl, hr, -, hml, hmr, -, hsize⟩ := z.merge_shape
  simp only [blocks, hml, hmr, hl, hr, total_append, total_cons, hsize]
  omega

/-- The blocks in use after a merge are the ones before, the merged one
excepted, at the same addresses. -/
theorem Zip.merge_used_placed (z : Zip) {p q : Nat} {b : Blk}
    (hb : b.used = true) :
    (q, b) ∈ placed p z.merge.blocks ↔
      (q, b) ∈ placed p z.left ∨
        (q, b) ∈ placed (p + z.off + z.mid.size) z.right := by
  obtain ⟨l, xs, ys, r, hl, hr, hfree, hml, hmr, hmu, hsize⟩ := z.merge_shape
  have hnot : ∀ (p : Nat) (zs : List Blk), (∀ c ∈ zs, c.used = false) →
      (q, b) ∉ placed p zs := fun p zs hzs hq => by
    have := hzs b (placed_mem hq)
    rw [hb] at this
    cases this
  have hxs := hnot (p + total l) xs fun c hc =>
    hfree c (List.mem_append_left _ hc)
  have hys := hnot (p + z.off + z.mid.size) ys fun c hc =>
    hfree c (List.mem_append_right _ hc)
  have hmid : (q, b) ≠ (p + total l, z.merge.mid) := fun he => by
    cases he
    rw [hb] at hmu
    cases hmu
  have haddr : p + total l + z.merge.mid.size
      = p + z.off + z.mid.size + total ys := by
    rw [hsize, off, hl]
    simp only [total_append, total_cons]
    omega
  rw [show z.merge.blocks = l ++ z.merge.mid :: r by
      rw [blocks, hml, hmr], hl, hr]
  simp only [placed_append, placed_cons, List.mem_append, List.mem_cons,
    haddr, hmid, hxs, hys, false_or, or_false]

/-- Between blocks in use a merge only frees the block. -/
theorem Zip.merge_alone {z : Zip}
    (hl : ∀ c ∈ z.left.getLast?, c.used = true)
    (hr : ∀ c ∈ z.right.head?, c.used = true) :
    z.merge = { z with mid := z.mid.mark false } := by
  unfold merge
  rcases absorbNext_cases { z with mid := z.mid.mark false } with
    ⟨-, hn⟩ | ⟨c, r, hright, hc, -⟩
  · rw [hn]
    rcases absorbPrev_cases { z with mid := z.mid.mark false } with
      ⟨-, hp⟩ | ⟨l, c, hleft, hc, -⟩
    · exact hp
    · rw [hl c (List.getLast?_eq_some_iff.2 ⟨l, hleft⟩)] at hc
      cases hc
  · rw [hr c (List.head?_eq_some_iff.2 ⟨r, hright⟩)] at hc
    cases hc

/-- The blocks beside the cursor on a coalesced list are coalesced. -/
theorem Coalesced.sides {z : Zip} (h : Coalesced z.blocks) :
    Coalesced z.left ∧ Coalesced z.right := by
  obtain ⟨hl, hr, -⟩ := List.isChain_append.1 h
  exact ⟨hl, hr.tail⟩

/-- A free block of a coalesced list has no free neighbour. -/
theorem Coalesced.free_alone {z : Zip} (h : Coalesced z.blocks)
    (hfree : z.mid.used = false) :
    (∀ c ∈ z.left.getLast?, c.used = true) ∧
      ∀ c ∈ z.right.head?, c.used = true := by
  obtain ⟨-, hr, hlast⟩ := List.isChain_append.1 h
  constructor
  · intro c hc
    have := hlast c hc z.mid rfl
    simpa [hfree] using this
  · intro c hc
    have := hr.rel_head? hc
    simpa [hfree] using this

/-- A used block between coalesced lists leaves the whole coalesced. -/
theorem coalesced_used {l r : List Blk} {b : Blk} (hl : Coalesced l)
    (hr : Coalesced r) (hb : b.used = true) : Coalesced (l ++ b :: r) :=
  List.isChain_append.2 ⟨hl, List.IsChain.cons hr fun _ _ => Or.inl hb,
    fun _ _ d hd => by
      cases hd
      exact Or.inr hb⟩

/-- Handing out the front of the block under the cursor leaves the list
coalesced, if what is left over is not followed by a free block. -/
theorem Zip.fill_coalesced {z : Zip} {n : Nat} (hl : Coalesced z.left)
    (hr : Coalesced z.right)
    (hrest : z.mid.size ≠ n → ∀ c ∈ z.right.head?, c.used = true) :
    Coalesced (z.fill n) := by
  unfold fill cut
  rw [List.append_assoc, List.cons_append]
  refine coalesced_used hl ?_ rfl
  split
  · exact hr
  · rename_i hne
    exact List.IsChain.cons hr fun c hc => Or.inr (hrest hne c hc)

/-- Merging between coalesced lists leaves the whole coalesced. -/
theorem Zip.merge_coalesced (z : Zip) (hl : Coalesced z.left)
    (hr : Coalesced z.right) : Coalesced z.merge.blocks := by
  -- it is enough that the neighbours of the merged block are in use
  have hclosed : ∀ w : Zip, Coalesced w.left → Coalesced w.right →
      (∀ c ∈ w.left.getLast?, c.used = true) →
      (∀ c ∈ w.right.head?, c.used = true) → Coalesced w.blocks := by
    intro w hwl hwr hlast hhead
    refine List.isChain_append.2 ⟨hwl, ?_, fun c hc d hd => ?_⟩
    · exact List.IsChain.cons hwr fun d hd => Or.inr (hhead d hd)
    · exact Or.inl (hlast c hc)
  obtain ⟨l, b, r⟩ := z
  have hnext : ∀ {c r'}, Coalesced (c :: r') → c.used = false →
      Coalesced r' ∧ ∀ d ∈ r'.head?, d.used = true := by
    intro c r' hcr hc
    refine ⟨List.IsChain.tail hcr, fun d hd => ?_⟩
    have := List.IsChain.rel_head? hcr hd
    simpa [hc] using this
  have hprev : ∀ {c l'}, Coalesced (l' ++ [c]) → c.used = false →
      Coalesced l' ∧ ∀ d ∈ l'.getLast?, d.used = true := by
    intro c l' hcl hc
    obtain ⟨hl', -, hlast⟩ := List.isChain_append.1 hcl
    refine ⟨hl', fun d hd => ?_⟩
    have := hlast d hd c rfl
    simpa [hc] using this
  simp only at hl hr
  unfold merge
  rcases absorbNext_cases ⟨l, b.mark false, r⟩ with
    ⟨hhead, hn⟩ | ⟨c, r', rfl, hc, hn⟩ <;> rw [hn]
  · rcases absorbPrev_cases ⟨l, b.mark false, r⟩ with
      ⟨hlast, hp⟩ | ⟨l', d, rfl, hd, hp⟩ <;> rw [hp]
    · exact hclosed _ hl hr hlast hhead
    · exact hclosed _ (hprev hl hd).1 hr (hprev hl hd).2 hhead
  · rcases absorbPrev_cases ⟨l, (b.mark false).join c, r'⟩ with
      ⟨hlast, hp⟩ | ⟨l', d, rfl, hd, hp⟩ <;> rw [hp]
    · exact hclosed _ hl (hnext hr hc).1 hlast (hnext hr hc).2
    · exact hclosed _ (hprev hl hd).1 (hnext hr hc).1 (hprev hl hd).2
        (hnext hr hc).2

end MallocLab.Blocks
