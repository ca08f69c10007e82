/-
What the segregated allocator is for, with no memory in it: a heap is a
list of blocks and a filing of the free ones by size class. Releasing a
block merges it with its free neighbours and files the result, carving a
block hands out its front and releases the rest, allocating takes the
first filed block that is big enough or puts a new block at the end.

Everything is a function of the heap and the request. That is the whole
content of "the results do not depend on what memory held before": the
code refines these functions (Proofs/Segregate), so two runs of it on
different memories go through the same heaps.

# The smallest class

segregate.c never takes a block of the smallest size out of its list,
so what the list at slot zero holds is not the filing of class zero. An
allocation that looks there is given its finding from outside, as a
`pick`; above eight bytes no allocation looks there, and the pick is
`none`.
-/
import MallocLab.Lib.Owned
import MallocLab.Model.Client
import MallocLab.Proofs.Segregate.SizeClass

namespace MallocLab.Spec.Segregated

open Blocks Model Model.Segregate

/-- A block's size class. -/
def cls (b : Blk) : Nat := fltIndexOf b.room

/-- The bytes before the first block: the table, the padding, the
prologue and the epilogue header. -/
def lead : Nat := 104

/-- The blocks of the heap, and where the free ones are filed. -/
structure Heap where
  blocks : List Blk
  bins : Bins

/-- Well-formedness: blocks are big enough to be freed, free blocks do
not touch, and every free block is filed. -/
structure Heap.Ok (A : Heap) : Prop where
  min : ∀ b ∈ A.blocks, 16 ≤ b.size
  coalesced : Coalesced A.blocks
  files : Files cls A.bins (marked false 0 A.blocks)

/-- The heap after initialisation. -/
def Heap.init : Heap := ⟨[], fun _ => []⟩

-- ========================================================= the operations

/-- Free the block under the cursor. -/
def release (z : Zip) (B : Bins) : Heap where
  blocks := z.merge.blocks
  bins := ((B.dropNext cls z).dropPrev cls z).put cls z.merge.off
    z.merge.mid

/-- The cursor on what is left of a block once its first `n` bytes are
handed out. -/
def rest (z : Zip) (n : Nat) : Zip :=
  ⟨z.left ++ [Blk.of n true], Blk.of (z.mid.size - n) false, z.right⟩

/-- Hand out the first `n` bytes of the block under the cursor, and
release the rest if it is big enough to be a block. -/
def carve (z : Zip) (n : Nat) (B : Bins) : Heap :=
  if n + 16 ≤ z.mid.size then release (rest z n) B
  else ⟨Zip.blocks { z with mid := z.mid.mark true }, B⟩

/-- Hand out a filed block. -/
def take (z : Zip) (n : Nat) (B : Bins) : Heap :=
  carve z n (B.drop cls z.off z.mid)

/-- The first block of a bin with `n` bytes. -/
def firstFit (bs : List Blk) (n : Nat) (bin : List Nat) : Option Zip :=
  bin.findSome? fun o =>
    (Zip.find? o bs).filter fun z => decide (n ≤ z.mid.size)

/-- The first fit over the classes `ks`. -/
def search (A : Heap) (n : Nat) (ks : List Nat) : Option Zip :=
  ks.findSome? fun k => firstFit A.blocks n (A.bins k)

/-- Put a block of `n` bytes at the end, if the storage has room. -/
def Heap.grow (A : Heap) (n : Nat) : Option (Nat × Heap) :=
  if lead + total A.blocks + n ≤ maxHeap then
    some (total A.blocks, ⟨A.blocks ++ [Blk.of n true], A.bins⟩)
  else none

/-- The classes an allocation goes through, slot zero left out. -/
def slots (size : Nat) : List Nat :=
  List.range' (max (fltIndexOf size) 1) (11 - max (fltIndexOf size) 1)

/-- Allocate: the block picked at slot zero, else the first fit, else a
new block. -/
def Heap.malloc (A : Heap) (pick : Option Zip) (size : Nat) :
    Option (Nat × Heap) :=
  match pick.or (search A (need size) (slots size)) with
  | some z => some (z.off, take z (need size) A.bins)
  | none => A.grow (need size)

/-- Free the block at offset `o`. -/
def Heap.free (A : Heap) (o : Nat) : Heap :=
  match Zip.find? o A.blocks with
  | some z => release z A.bins
  | none => A

/-- Resize the block at offset `o`: in place if it is big enough, else
by moving it. -/
def Heap.realloc (A : Heap) (o size : Nat) : Option (Nat × Heap) :=
  match Zip.find? o A.blocks with
  | none => none
  | some z =>
      if align size ≤ z.mid.room then some (o, carve z (need size) A.bins)
      else (A.malloc none (align size)).map fun x => (x.1, x.2.free o)

/-- That is the block under a cursor there. -/
theorem Heap.realloc_at {A : Heap} {z : Zip} {o size : Nat}
    (hz : z.blocks = A.blocks) (hzo : z.off = o) :
    A.realloc o size
      = if align size ≤ z.mid.room then some (o, carve z (need size) A.bins)
        else (A.malloc none (align size)).map
          fun x => (x.1, x.2.free o) := by
  unfold Heap.realloc
  rw [← hz, ← hzo, z.find?_blocks]

-- ======================================================= the invariants

theorem Heap.init_ok : Heap.init.Ok where
  min := fun b hb => by cases hb
  coalesced := List.isChain_nil
  files := ⟨fun k o => by simp [Heap.init], fun k => List.nodup_nil⟩

/-- A merge makes no block smaller. -/
theorem merge_min {z : Zip} (hmin : ∀ b ∈ z.blocks, 16 ≤ b.size) :
    ∀ b ∈ z.merge.blocks, 16 ≤ b.size := by
  obtain ⟨l, xs, ys, r, hzl, hzr, -, hml, hmr, -, hsize⟩ := z.merge_shape
  intro b hb
  simp only [Zip.blocks, hml, hmr, List.mem_append, List.mem_cons] at hb
  simp only [Zip.blocks, hzl, hzr, List.mem_append, List.mem_cons] at hmin
  rcases hb with hb | rfl | hb
  · exact hmin b (Or.inl (Or.inl hb))
  · have := hmin z.mid (Or.inr (Or.inl rfl))
    rw [hsize, total_append, total_cons]
    omega
  · exact hmin b (Or.inr (Or.inr (Or.inr hb)))

/-- Releasing a block that is filed nowhere, in a heap whose other free
blocks are filed, leaves the heap well-formed. -/
theorem release_ok {z : Zip} {B : Bins} (hmin : ∀ b ∈ z.blocks, 16 ≤ b.size)
    (hl : Coalesced z.left) (hr : Coalesced z.right)
    (hf : Files cls B (z.sides false)) : (release z B).Ok where
  min := merge_min hmin
  coalesced := z.merge_coalesced hl hr
  files := by
    obtain ⟨-, -, -, -, -, -, -, -, -, hfree, -⟩ := z.merge_shape
    have hput := hf.merge.put (b := z.merge.mid)
      fun c => Zip.off_not_sides z.merge c
    rwa [Zip.sides_eq hfree] at hput

/-- The blocks of a carved heap, before the rest is released. -/
theorem rest_blocks (z : Zip) (n : Nat) :
    (rest z n).blocks
      = z.left ++ [Blk.of n true, Blk.of (z.mid.size - n) false]
        ++ z.right := by
  simp [rest, Zip.blocks]

theorem rest_off {z : Zip} {n : Nat} (hn : n % 8 = 0) (hn' : 8 ≤ n) :
    (rest z n).off = z.off + n := by
  simp [rest, Zip.off, Blk.of_size true hn hn']

/-- The rest of a block has the neighbours the block had. -/
theorem rest_sides {z : Zip} {n : Nat} (hn : n % 8 = 0) (hn' : 8 ≤ n)
    (hfit : n + 8 ≤ z.mid.size) : (rest z n).sides false = z.sides false := by
  have hsz := z.mid.aligned
  have hback : (Blk.of (z.mid.size - n) false).size = z.mid.size - n :=
    Blk.of_size false (by omega) (by omega)
  unfold Zip.sides
  rw [rest_off hn hn']
  simp only [rest, hback]
  rw [marked_append, marked_cons_ne [] (by simp), marked_nil, Set.union_empty,
    show z.off + n + (z.mid.size - n) = z.off + z.mid.size by omega]

/-- Carving a block that is filed nowhere. -/
theorem carve_ok {z : Zip} {n : Nat} {B : Bins}
    (hmin : ∀ b ∈ z.blocks, 16 ≤ b.size) (hn : n % 8 = 0) (hn' : 16 ≤ n)
    (hco : Coalesced z.blocks) (hf : Files cls B (z.sides false)) :
    (carve z n B).Ok := by
  obtain ⟨hl, hr⟩ := Coalesced.sides hco
  have hsz := z.mid.aligned
  have hlu : Coalesced (z.left ++ [Blk.of n true]) :=
    List.isChain_append.2 ⟨hl, List.isChain_singleton _, fun c _ d hd => by
      cases hd
      exact Or.inr rfl⟩
  unfold carve
  split
  · refine release_ok (fun b hb => ?_) hlu hr ?_
    · rw [rest_blocks] at hb
      simp only [List.mem_append, List.mem_cons, List.not_mem_nil,
        or_false] at hb
      rcases hb with (hb | rfl | rfl) | hb
      · exact hmin b (by simp [Zip.blocks, hb])
      · rw [Blk.of_size true hn (by omega)]
        exact hn'
      · rw [Blk.of_size false (by omega) (by omega)]
        omega
      · exact hmin b (by simp [Zip.blocks, hb])
    · rw [rest_sides hn (by omega) (by omega)]
      exact hf
  · refine ⟨fun b hb => ?_, ?_, ?_⟩
    · simp only [Zip.blocks, List.mem_append, List.mem_cons] at hb hmin
      rcases hb with hb | rfl | hb
      · exact hmin b (Or.inl hb)
      · exact hmin z.mid (Or.inr (Or.inl rfl))
      · exact hmin b (Or.inr (Or.inr hb))
    · refine List.isChain_append.2 ⟨hl, ?_, fun c _ d hd => ?_⟩
      · exact List.IsChain.cons hr fun _ _ => Or.inl rfl
      · cases hd
        exact Or.inr rfl
    · rw [← Zip.sides_ne (z := { z with mid := z.mid.mark true }) (by simp)]
      exact hf

/-- A free block of a well-formed heap, taken out of its bin. -/
theorem Heap.Ok.drop {A : Heap} (h : A.Ok) {z : Zip}
    (hz : z.blocks = A.blocks) (hfree : z.mid.used = false) :
    Files cls (A.bins.drop cls z.off z.mid) (z.sides false) := by
  have hf := h.files
  rw [← hz] at hf
  have hmem : (z.off, z.mid) ∈ marked false 0 z.blocks := by
    rw [← Zip.sides_eq hfree]
    exact Set.mem_insert _ _
  have hd := hf.drop hmem fun c hc => placed_unique hc.1 hmem.1
  rwa [Zip.sides_diff hfree] at hd

theorem take_ok {A : Heap} (h : A.Ok) {z : Zip} {n : Nat}
    (hz : z.blocks = A.blocks) (hfree : z.mid.used = false)
    (hn : n % 8 = 0) (hn' : 16 ≤ n) : (take z n A.bins).Ok :=
  carve_ok (fun b hb => h.min b (hz ▸ hb)) hn hn' (hz ▸ h.coalesced)
    (h.drop hz hfree)

theorem grow_ok {A B : Heap} (h : A.Ok) {n o : Nat} (hn : n % 8 = 0)
    (hn' : 16 ≤ n) (hg : A.grow n = some (o, B)) : B.Ok := by
  unfold Heap.grow at hg
  split at hg
  · cases hg
    refine ⟨fun b hb => ?_, ?_, ?_⟩
    · rcases List.mem_append.1 hb with hb | hb
      · exact h.min b hb
      · cases List.mem_singleton.1 hb
        rw [Blk.of_size true hn (by omega)]
        exact hn'
    · refine List.isChain_append.2 ⟨h.coalesced, List.isChain_singleton _,
        fun c _ d hd => ?_⟩
      cases hd
      exact Or.inr rfl
    · show Files cls A.bins (marked false 0 (A.blocks ++ [Blk.of n true]))
      rw [marked_append, marked_cons_ne [] (by simp), marked_nil,
        Set.union_empty]
      exact h.files
  · cases hg

-- ======================================================== what is in use

/-- The block a carving hands out. -/
def granted (z : Zip) (n : Nat) : Blk :=
  if n + 16 ≤ z.mid.size then Blk.of n true else z.mid.mark true

theorem granted_used (z : Zip) (n : Nat) : (granted z n).used = true := by
  unfold granted
  split <;> rfl

/-- What is handed out is what was asked for, or one word pair more. -/
theorem granted_size {z : Zip} {n : Nat} (hn : n % 8 = 0) (hn' : 8 ≤ n)
    (hfit : n ≤ z.mid.size) :
    (granted z n).size = n ∨ (granted z n).size = n + 8 := by
  have hsz := z.mid.aligned
  unfold granted
  split
  · exact Or.inl (Blk.of_size true hn hn')
  · rw [Blk.mark_size]
    omega

/-- The rest of a block sees the block handed out in use. -/
theorem rest_sides_used {z : Zip} {n : Nat} (hn : n % 8 = 0) (hn' : 8 ≤ n)
    (hfit : n + 8 ≤ z.mid.size) :
    (rest z n).sides true
      = insert (z.off, Blk.of n true) (z.sides true) := by
  have hsz := z.mid.aligned
  have hback : (Blk.of (z.mid.size - n) false).size = z.mid.size - n :=
    Blk.of_size false (by omega) (by omega)
  unfold Zip.sides
  rw [rest_off hn hn']
  simp only [rest, hback]
  rw [marked_append, marked_cons_eq (u := true) [] rfl, marked_nil,
    show z.off + n + (z.mid.size - n) = z.off + z.mid.size by omega,
    Set.union_insert, Set.union_empty, Set.insert_union, Nat.zero_add]
  rfl

/-- After a carving the block handed out is in use, and the others as
before. -/
theorem carve_useds {z : Zip} {n : Nat} {B : Bins} (hn : n % 8 = 0)
    (hn' : 8 ≤ n) : marked true 0 (carve z n B).blocks
      = insert (z.off, granted z n) (z.sides true) := by
  unfold carve granted
  split
  · rw [← rest_sides_used hn hn' (by omega)]
    exact (rest z n).merge_useds
  · exact (Zip.sides_eq
      (z := { z with mid := z.mid.mark true }) rfl).symm

/-- A block a request can be served from. -/
structure Fit (A : Heap) (n : Nat) (z : Zip) : Prop where
  blocks : z.blocks = A.blocks
  free : z.mid.used = false
  size : n ≤ z.mid.size

theorem firstFit_fit {A : Heap} (h : A.Ok) {n k : Nat} {z : Zip}
    {bin : List Nat} (hbin : ∀ o ∈ bin, o ∈ A.bins k)
    (hz : firstFit A.blocks n bin = some z) : Fit A n z := by
  obtain ⟨o, ho, hf⟩ := List.exists_of_findSome?_eq_some hz
  obtain ⟨hfind, hsize⟩ := Option.filter_eq_some_iff.1 hf
  obtain ⟨hblocks, hoff⟩ := Zip.find?_some hfind
  obtain ⟨b, ⟨hpl, hfree⟩, -⟩ := (h.files.mem k o).1 (hbin o ho)
  have hmid := z.mid_placed
  rw [hblocks, hoff] at hmid
  rw [placed_unique hpl hmid] at hfree
  exact ⟨hblocks, hfree, of_decide_eq_true hsize⟩

theorem search_fit {A : Heap} (h : A.Ok) {n : Nat} {ks : List Nat} {z : Zip}
    (hz : search A n ks = some z) : Fit A n z := by
  obtain ⟨k, -, hf⟩ := List.exists_of_findSome?_eq_some hz
  exact firstFit_fit h (fun _ ho => ho) hf

/-- None of the blocks filed in `bin` has `n` bytes. -/
def Short (A : Heap) (n : Nat) (bin : List Nat) : Prop :=
  ∀ z : Zip, z.blocks = A.blocks → z.off ∈ bin → z.mid.size < n

/-- Where the first fit finds nothing, no block has so much. -/
theorem firstFit_none {A : Heap} {n : Nat} {bin : List Nat}
    (hnone : firstFit A.blocks n bin = none) : Short A n bin := by
  intro z hz hfiled
  have hone := List.findSome?_eq_none_iff.1 hnone z.off hfiled
  rw [← hz, z.find?_blocks] at hone
  by_contra hfit
  have hsome : Option.filter (fun z => decide (n ≤ z.mid.size)) (some z)
      = some z := by
    apply Option.filter_eq_some_iff.2
    exact ⟨rfl, decide_eq_true (by omega)⟩
  rw [hsome] at hone
  cases hone

/-- A search that finds nothing was through every bin it was given. -/
theorem search_none {A : Heap} {n k : Nat} {ks : List Nat}
    (hnone : search A n ks = none) (hk : k ∈ ks) : Short A n (A.bins k) :=
  firstFit_none (List.findSome?_eq_none_iff.1 hnone k hk)

/-- A search that finds a block was through the classes before its class,
and through the blocks before it in its bin. -/
theorem search_first {A : Heap} (h : A.Ok) {n : Nat} {ks : List Nat}
    {z : Zip} (hz : search A n ks = some z) : ∃ l r os os',
    ks = l ++ cls z.mid :: r ∧ (∀ k ∈ l, Short A n (A.bins k)) ∧
      A.bins (cls z.mid) = os ++ z.off :: os' ∧ Short A n os := by
  obtain ⟨l, k, r, hks, hfound, hbefore⟩ := List.findSome?_eq_some_iff.1 hz
  obtain ⟨os, o, os', hbin, hone, hpassed⟩ :=
    List.findSome?_eq_some_iff.1 hfound
  obtain ⟨hblocks, rfl⟩ :=
    Zip.find?_some (Option.filter_eq_some_iff.1 hone).1
  -- it is filed in the bin of its class, and in no other
  have hcls : cls z.mid = k := by
    have hfiled : z.off ∈ A.bins k := by
      rw [hbin]
      simp
    obtain ⟨c, ⟨hpl, -⟩, rfl⟩ := (h.files.mem k z.off).1 hfiled
    have hmid := z.mid_placed
    rw [hblocks] at hmid
    rw [placed_unique hmid hpl]
  subst hcls
  exact ⟨l, r, os, os', hks, fun j hj => firstFit_none (hbefore j hj), hbin,
    firstFit_none (List.findSome?_eq_none_iff.2 hpassed)⟩

/-- The free blocks after a carving of a free block are the others, and
what it left of that one. -/
theorem carve_frees {z : Zip} {n q : Nat} {B : Bins} {c : Blk}
    (hn : n % 8 = 0) (hn' : 8 ≤ n) (hco : Coalesced z.blocks)
    (hfree : z.mid.used = false)
    (hq : (q, c) ∈ marked false 0 (carve z n B).blocks) :
    (q, c) ∈ z.sides false ∨ q = z.off + n ∧ n + c.size = z.mid.size := by
  have hsz := z.mid.aligned
  unfold carve at hq
  split at hq
  · rename_i hcut
    have halone : (rest z n).merge
        = { rest z n with mid := (rest z n).mid.mark false } := by
      refine Zip.merge_alone (fun b hb => ?_)
        (hco.free_alone hfree).2
      have hfront : Blk.of n true = b := by
        simpa [rest] using hb
      rw [← hfront]
      rfl
    have hin : (q, c) ∈ marked false 0 (rest z n).blocks := by
      rw [show (release (rest z n) B).blocks = (rest z n).merge.blocks
        from rfl, halone] at hq
      exact hq
    rw [← Zip.sides_eq (show (rest z n).mid.used = false from rfl),
      rest_sides hn hn' (by omega), rest_off hn hn'] at hin
    rcases hin with he | hside
    · injection he with hoff hblk
      refine Or.inr ⟨hoff, ?_⟩
      rw [hblk, show (rest z n).mid = Blk.of (z.mid.size - n) false from rfl,
        Blk.of_size false (by omega) (by omega)]
      omega
    · exact Or.inl hside
  · rw [← Zip.sides_ne (z := { z with mid := z.mid.mark true })
      (by simp)] at hq
    exact Or.inl hq

/-- The free blocks after an allocation were free before, but for what is
left of the block it was found in. -/
theorem malloc_frees {A C : Heap} (h : A.Ok) {size o q : Nat} {c : Blk}
    (hsize : 1 ≤ size) (hsize' : size ≤ 2 ^ 31 - 16)
    (hm : A.malloc none size = some (o, C))
    (hq : (q, c) ∈ marked false 0 C.blocks) :
    (q, c) ∈ marked false 0 A.blocks ∨
      ∃ y, search A (need size) (slots size) = some y ∧
        q = y.off + need size ∧ need size + c.size = y.mid.size := by
  obtain ⟨hn, hn', -⟩ := need_size hsize (by omega)
  unfold Heap.malloc at hm
  rw [Option.none_or] at hm
  cases hs : search A (need size) (slots size) with
  | some y =>
      rw [hs] at hm
      cases hm
      obtain ⟨hyb, hyfree, -⟩ := search_fit h hs
      have hco := h.coalesced
      rw [← hyb] at hco
      rcases carve_frees hn (by omega) hco hyfree hq with hold | hrest
      · rw [← hyb]
        exact Or.inl (y.sides_sub hold)
      · exact Or.inr ⟨y, rfl, hrest⟩
  | none =>
      rw [hs] at hm
      simp only [Heap.grow] at hm
      split at hm
      · cases hm
        rw [marked_append, marked_cons_ne [] (by simp), marked_nil,
          Set.union_empty] at hq
        exact Or.inl hq
      · cases hm

/-- Above eight bytes no block of the smallest size is handed out. -/
theorem malloc_large {A A' : Heap} (h : A.Ok) {size o : Nat}
    (hsize : 9 ≤ size) (hsize' : size ≤ 2 ^ 31 - 16)
    (hm : A.malloc none size = some (o, A')) {b : Blk}
    (hb : (o, b) ∈ marked false 0 A.blocks) : b.size ≠ 16 := by
  obtain ⟨-, -, -, hle, -⟩ := need_size (show 1 ≤ size by omega) (by omega)
  unfold Heap.malloc at hm
  rw [Option.none_or] at hm
  cases hs : search A (need size) (slots size) with
  | some z =>
      rw [hs] at hm
      cases hm
      have hfit := search_fit h hs
      have hmid := z.mid_placed
      rw [hfit.blocks] at hmid
      have hbig := hfit.size
      rw [placed_unique hb.1 hmid]
      unfold need at hbig
      omega
  | none =>
      rw [hs] at hm
      simp only [Heap.grow] at hm
      split at hm
      · cases hm
        have hbd := placed_bounds hb.1
        have hpos := b.pos
        omega
      · cases hm

/-- An allocation keeps the heap well-formed, and puts one more block in
use: at a fresh offset, of the size asked for or one word pair more. -/
theorem malloc_spec {A A' : Heap} (h : A.Ok) {pick : Option Zip}
    {size o : Nat} (hsize : 1 ≤ size) (hsize' : size ≤ 2 ^ 31 - 16)
    (hpick : ∀ z ∈ pick, Fit A (need size) z)
    (hm : A.malloc pick size = some (o, A')) :
    A'.Ok ∧ ∃ b, b.used = true ∧
      (b.room = align size ∨ b.room = align size + 8) ∧
      (∀ c, (o, c) ∉ marked true 0 A.blocks) ∧
      marked true 0 A'.blocks = insert (o, b) (marked true 0 A.blocks) := by
  obtain ⟨hn, hn', -⟩ := need_size hsize (by omega)
  unfold Heap.malloc at hm
  split at hm
  · rename_i z hz
    cases hm
    have hfit : Fit A (need size) z := by
      cases pick with
      | none => exact search_fit h hz
      | some w =>
          cases hz
          exact hpick z rfl
    have hgr := granted_size hn (by omega) hfit.size
    have hroom := (granted z (need size)).room_add
    refine ⟨take_ok h hfit.blocks hfit.free hn hn',
      granted z (need size), granted_used _ _, ?_, fun c hc => ?_, ?_⟩
    · unfold need at hgr hroom ⊢
      omega
    · rw [← hfit.blocks, ← Zip.sides_ne (by simp [hfit.free])] at hc
      exact z.off_not_sides c hc
    · unfold take
      rw [carve_useds hn (by omega), ← hfit.blocks,
        Zip.sides_ne (by simp [hfit.free])]
  · refine ⟨grow_ok h hn hn' hm, Blk.of (need size) true, rfl, ?_, ?_, ?_⟩
    · have hroom := (Blk.of (need size) true).room_add
      rw [Blk.of_size true hn (by omega)] at hroom
      unfold need at hroom ⊢
      omega
    · unfold Heap.grow at hm
      split at hm
      · cases hm
        rintro c ⟨hc, -⟩
        have := placed_bounds hc
        have := c.pos
        omega
      · cases hm
    · unfold Heap.grow at hm
      split at hm
      · cases hm
        rw [marked_append, marked_cons_eq (u := true) [] rfl, marked_nil,
          Nat.zero_add, Set.union_insert, Set.union_empty]
      · cases hm

/-- Freeing a block in use keeps the heap well-formed, and the other
blocks in use. -/
theorem free_spec {A : Heap} (h : A.Ok) {z : Zip}
    (hz : z.blocks = A.blocks) (hu : z.mid.used = true) :
    A.free z.off = release z A.bins ∧ (release z A.bins).Ok ∧
      marked true 0 (release z A.bins).blocks
        = marked true 0 A.blocks \ {(z.off, z.mid)} := by
  have hco := h.coalesced
  have hmin := h.min
  rw [← hz] at hco hmin
  have hsides : z.sides false = marked false 0 A.blocks := by
    rw [← hz]
    exact Zip.sides_ne (by simp [hu])
  refine ⟨?_, release_ok hmin (Coalesced.sides hco).1
    (Coalesced.sides hco).2 (by rw [hsides]; exact h.files), ?_⟩
  · unfold Heap.free
    rw [← hz, z.find?_blocks]
  · rw [← hz, Zip.sides_diff hu]
    exact z.merge_useds

/-- Resizing keeps the heap well-formed and the other blocks in use, and
the block it returns is of the size asked for or one word pair more. -/
theorem realloc_spec {A A' : Heap} (h : A.Ok) {z : Zip} {size q : Nat}
    (hz : z.blocks = A.blocks) (hu : z.mid.used = true) (hsize : 1 ≤ size)
    (hsize' : size ≤ 2 ^ 31 - 16)
    (hr : A.realloc z.off size = some (q, A')) :
    A'.Ok ∧ ∃ b, b.used = true ∧
      (b.room = align size ∨ b.room = align size + 8) ∧
      (∀ c, (q, c) ∉ marked true 0 A.blocks \ {(z.off, z.mid)}) ∧
      marked true 0 A'.blocks
        = insert (q, b) (marked true 0 A.blocks \ {(z.off, z.mid)}) := by
  obtain ⟨hn, hn', -, hle, -, hlt⟩ := need_size hsize (by omega)
  have hfind : Zip.find? z.off A.blocks = some z := by
    rw [← hz]
    exact z.find?_blocks
  have hdiff : marked true 0 A.blocks \ {(z.off, z.mid)} = z.sides true := by
    rw [← hz]
    exact Zip.sides_diff hu
  unfold Heap.realloc at hr
  rw [hfind] at hr
  simp only at hr
  split at hr
  · rename_i hfit
    cases hr
    have hroom := z.mid.room_add
    have hgr := granted_size (z := z) hn (by omega) (by unfold need; omega)
    have hgroom := (granted z (need size)).room_add
    have hmin := h.min
    have hco := h.coalesced
    rw [← hz] at hmin hco
    have hfiles : Files cls A.bins (z.sides false) := by
      rw [Zip.sides_ne (by simp [hu]), hz]
      exact h.files
    refine ⟨carve_ok hmin hn hn' hco hfiles, granted z (need size),
      granted_used _ _, ?_, fun c => ?_, ?_⟩
    · unfold need at hgr hgroom ⊢
      omega
    · rw [hdiff]
      exact z.off_not_sides c
    · rw [hdiff]
      exact carve_useds hn (by omega)
  · rename_i hfit
    obtain ⟨⟨q', C⟩, hm, he⟩ := Option.map_eq_some_iff.1 hr
    cases he
    obtain ⟨hC, b, hb, hbr, hfresh, huse⟩ := malloc_spec h (by omega)
      (by have := need_size hsize (by omega); unfold need at this; omega)
      (by simp) hm
    rw [align_align] at hbr
    have hold : (z.off, z.mid) ∈ marked true 0 C.blocks := by
      rw [huse, ← hz, ← Zip.sides_eq hu]
      exact Or.inr (Or.inl rfl)
    obtain ⟨w, hwb, hwo, hwm⟩ := Zip.of_placed hold.1
    obtain ⟨hfree, hok, hrest⟩ := free_spec hC hwb (by rw [hwm]; exact hu)
    rw [hwo] at hfree
    rw [hwo, hwm, huse] at hrest
    have hne : (q', b) ≠ (z.off, z.mid) := fun he => hfresh z.mid (by
      rw [show q' = z.off from congrArg Prod.fst he, ← hz,
        ← Zip.sides_eq hu]
      exact Or.inl rfl)
    simp only
    rw [hfree]
    refine ⟨hok, b, hb, hbr, fun c hc => hfresh c hc.1, ?_⟩
    rw [hrest, Set.insert_sdiff_of_notMem _ (by simpa using hne)]

-- ========================================================== the client

/-- A block fits a size it has room for, one word pair more at most than
the size rounded up. -/
def fit (n : Nat) (b : Blk) : Prop :=
  n ≤ b.room ∧ (b.room = align n ∨ b.room = align n + 8)

/-- The heap and its live allocations: offset and size asked for. -/
structure State where
  heap : Heap
  live : List (Nat × Nat)

/-- Well-formed, and in use exactly what is owned. -/
structure State.Ok (S : State) : Prop where
  heap : S.heap.Ok
  owned : Owned fit S.live (marked true 0 S.heap.blocks)

/-- The state after an allocation of `n` bytes was answered. -/
def State.enrol (S : State) (n : Nat) :
    Option (Nat × Heap) → Option Nat × State
  | none => (none, S)
  | some (o, A) => (some o, ⟨A, S.live ++ [(o, n)]⟩)

/-- Serve a request: the offset returned, if any, and the new state.
There is no answer when a growing resize finds no room: the code does
not survive that. -/
def State.serve (pick : Option Zip) (S : State) :
    Req → Option (Option Nat × State)
  | .malloc n => some (S.enrol n (S.heap.malloc pick n))
  | .reallocNull n => some (S.enrol n (S.heap.malloc pick n))
  | .free i =>
      match S.live[i]? with
      | none => some (none, S)
      | some x => some (none, ⟨S.heap.free x.1, S.live.eraseIdx i⟩)
  | .realloc i n =>
      match S.live[i]? with
      | none => some (none, S)
      | some x =>
          if n = 0 then some (none, ⟨S.heap.free x.1, S.live.eraseIdx i⟩)
          else (S.heap.realloc x.1 n).map fun y =>
            (some y.1, ⟨y.2, S.live.set i (y.1, n)⟩)
  | .write _ _ _ => some (none, S)

theorem State.init_ok : State.Ok ⟨Heap.init, []⟩ where
  heap := Heap.init_ok
  owned := by
    have hnone : marked true 0 Heap.init.blocks = ∅ := marked_nil 0
    rw [hnone]
    exact Owned.nil

/-- The cursor on a live allocation's block. -/
theorem State.Ok.cursor {S : State} (h : S.Ok) {i : Nat} {x : Nat × Nat}
    (hx : S.live[i]? = some x) :
    ∃ z : Zip, z.blocks = S.heap.blocks ∧ z.off = x.1 ∧
      z.mid.used = true ∧ fit x.2 z.mid ∧
      (x.1, z.mid) ∈ marked true 0 S.heap.blocks := by
  obtain ⟨b, hb, hfit⟩ := h.owned.block x (List.mem_of_getElem? hx)
  obtain ⟨z, hzb, hzo, hzm⟩ := Zip.of_placed hb.1
  rw [← hzm] at hb hfit
  exact ⟨z, hzb, hzo, hb.2, hfit, hb⟩

/-- A fit by size. -/
theorem fit_of {n : Nat} {b : Blk} (h : 1 ≤ n) (h' : n ≤ 2 ^ 31 - 16)
    (hb : b.room = align n ∨ b.room = align n + 8) : fit n b := by
  have := need_size h (by omega)
  exact ⟨by omega, hb⟩

/-- An allocation keeps the state well-formed. -/
theorem State.Ok.malloc {S : State} (h : S.Ok) {pick : Option Zip}
    {n o : Nat} {A : Heap} (hn : 1 ≤ n) (hn' : n ≤ 2 ^ 31 - 16)
    (hpick : ∀ z ∈ pick, Fit S.heap (need n) z)
    (hm : S.heap.malloc pick n = some (o, A)) :
    State.Ok ⟨A, S.live ++ [(o, n)]⟩ := by
  obtain ⟨hA, b, -, hroom, hfresh, huse⟩ :=
    malloc_spec h.heap hn hn' hpick hm
  refine ⟨hA, ?_⟩
  show Owned fit (S.live ++ [(o, n)]) (marked true 0 A.blocks)
  rw [huse]
  exact h.owned.enrol hfresh (fit_of hn hn' hroom)

/-- The end of an allocation keeps it well-formed. -/
theorem State.Ok.free {S : State} (h : S.Ok) {i : Nat} {x : Nat × Nat}
    (hx : S.live[i]? = some x) :
    State.Ok ⟨S.heap.free x.1, S.live.eraseIdx i⟩ := by
  obtain ⟨z, hzb, hzo, hu, -, hmem⟩ := h.cursor hx
  obtain ⟨hfree, hok, huse⟩ := free_spec h.heap hzb hu
  rw [← hzo, hfree]
  refine ⟨hok, ?_⟩
  show Owned fit (S.live.eraseIdx i)
    (marked true 0 (release z S.heap.bins).blocks)
  rw [huse, hzo]
  exact h.owned.remove hx hmem

/-- So does a resize. -/
theorem State.Ok.realloc {S : State} (h : S.Ok) {i n q : Nat}
    {x : Nat × Nat} {A : Heap} (hx : S.live[i]? = some x) (hn : 1 ≤ n)
    (hn' : n ≤ 2 ^ 31 - 16) (hr : S.heap.realloc x.1 n = some (q, A)) :
    State.Ok ⟨A, S.live.set i (q, n)⟩ := by
  obtain ⟨z, hzb, hzo, hu, -, hmem⟩ := h.cursor hx
  rw [← hzo] at hr
  obtain ⟨hA, b, -, hroom, hfresh, huse⟩ :=
    realloc_spec h.heap hzb hu hn hn' hr
  refine ⟨hA, ?_⟩
  show Owned fit (S.live.set i (q, n)) (marked true 0 A.blocks)
  rw [hzo] at huse hfresh
  rw [huse]
  exact h.owned.move hx hmem hfresh (fit_of hn hn' hroom)

end MallocLab.Spec.Segregated
