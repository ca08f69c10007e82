/-
Who owns the blocks in use: a client's list of live allocations against
the blocks of a heap that are in use. `Owned fit lv U` says that the
live allocations `lv` (an offset and the size asked for) and the blocks
of `U` correspond one to one, each block being a fit for its size.

The correspondence moves along with the three things an allocator does
to it: a new block for a new allocation (`Owned.enrol`), a block given
back (`Owned.remove`), and an allocation that changes its block
(`Owned.move`). What a fit is stays open: it is the only thing two
allocators disagree about.
-/
import MallocLab.Lib.Bins
import Mathlib.Data.List.Nodup
import Mathlib.Data.List.Perm.Basic

namespace MallocLab.Blocks

/-- The live allocations are the blocks of `U`. -/
structure Owned (fit : Nat → Blk → Prop) (lv : List (Nat × Nat))
    (U : Set (Nat × Blk)) : Prop where
  nodup : (lv.map Prod.fst).Nodup
  block : ∀ x ∈ lv, ∃ b, (x.1, b) ∈ U ∧ fit x.2 b
  alloc : ∀ y ∈ U, y.1 ∈ lv.map Prod.fst
  unique : ∀ o b c, (o, b) ∈ U → (o, c) ∈ U → b = c

variable {fit : Nat → Blk → Prop} {lv : List (Nat × Nat)}
  {U : Set (Nat × Blk)}

/-- Nothing is owned of a heap with nothing in use. -/
theorem Owned.nil : Owned fit [] ∅ where
  nodup := List.nodup_nil
  block := fun x hx => by cases hx
  alloc := fun y hy => by cases hy
  unique := fun o b c h => by cases h

/-- Two entries of a live list at one offset are one entry. -/
theorem Owned.index_inj (h : Owned fit lv U) {i j : Nat} {x y : Nat × Nat}
    (hi : lv[i]? = some x) (hj : lv[j]? = some y) (he : x.1 = y.1) :
    i = j := by
  have hlt : i < (lv.map Prod.fst).length := by
    rw [List.length_map]
    exact (List.getElem?_eq_some_iff.1 hi).1
  refine (List.getElem?_inj hlt h.nodup).1 ?_
  rw [List.getElem?_map, List.getElem?_map, hi, hj]
  simp [he]

/-- Live allocations do not overlap: each lies in a block of its own. -/
theorem Owned.apart {bs : List Blk} (h : Owned fit lv (marked true 0 bs))
    (hfit : ∀ n b, fit n b → n ≤ b.size) :
    lv.Pairwise fun x y => x.1 + x.2 ≤ y.1 ∨ y.1 + y.2 ≤ x.1 := by
  have hne : lv.Pairwise fun x y => x.1 ≠ y.1 := List.pairwise_map.1 h.nodup
  refine hne.imp_of_mem fun {x y} hx hy hxy => ?_
  obtain ⟨b, hb, hbf⟩ := h.block x hx
  obtain ⟨c, hc, hcf⟩ := h.block y hy
  have := hfit _ _ hbf
  have := hfit _ _ hcf
  rcases placed_disjoint hb.1 hc.1 with ⟨he, -⟩ | hd | hd
  · exact absurd he hxy
  · exact Or.inl (by omega)
  · exact Or.inr (by omega)

/-- A live allocation is off the payload of another one's block. -/
theorem Owned.beside {bs : List Blk} (h : Owned fit lv (marked true 0 bs))
    (hfit : ∀ n b, fit n b → n ≤ b.room) {i j k : Nat} {x y : Nat × Nat}
    {b : Blk} (hi : lv[i]? = some x) (hj : lv[j]? = some y) (hne : i ≠ j)
    (hb : (x.1, b) ∈ marked true 0 bs) (hk : k < y.2) :
    y.1 + k < x.1 ∨ x.1 + b.room ≤ y.1 + k := by
  obtain ⟨c, hc, hcf⟩ := h.block y (List.mem_of_getElem? hj)
  have := hfit _ _ hcf
  have := b.room_add
  have := c.room_add
  rcases placed_disjoint hb.1 hc.1 with ⟨he, -⟩ | hd
  · exact absurd (h.index_inj hi hj he) hne
  · omega

/-- A new allocation owns a new block. -/
theorem Owned.enrol (h : Owned fit lv U) {o n : Nat} {b : Blk}
    (hfresh : ∀ c, (o, c) ∉ U) (hfit : fit n b) :
    Owned fit (lv ++ [(o, n)]) (insert (o, b) U) where
  nodup := by
    rw [List.map_append, List.map_cons, List.map_nil]
    refine List.nodup_append.2 ⟨h.nodup, List.nodup_singleton _, ?_⟩
    intro q hq q' hq' he
    obtain ⟨x, hx, rfl⟩ := List.mem_map.1 hq
    obtain ⟨c, hc, -⟩ := h.block x hx
    rw [he, List.mem_singleton.1 hq'] at hc
    exact hfresh c hc
  block := fun x hx => by
    rcases List.mem_append.1 hx with hx | hx
    · obtain ⟨c, hc, hf⟩ := h.block x hx
      exact ⟨c, Or.inr hc, hf⟩
    · cases List.mem_singleton.1 hx
      exact ⟨b, Or.inl rfl, hfit⟩
  alloc := fun y hy => by
    rw [List.map_append, List.mem_append]
    rcases hy with rfl | hy
    · exact Or.inr (by simp)
    · exact Or.inl (h.alloc y hy)
  unique := fun q c d hc hd => by
    rcases hc with hc | hc
    · rcases hd with hd | hd
      · exact (congrArg Prod.snd hc).trans (congrArg Prod.snd hd).symm
      · rw [show q = o from congrArg Prod.fst hc] at hd
        exact absurd hd (hfresh d)
    · rcases hd with hd | hd
      · rw [show q = o from congrArg Prod.fst hd] at hc
        exact absurd hc (hfresh c)
      · exact h.unique q c d hc hd

/-- An allocation that ends gives its block back. -/
theorem Owned.remove (h : Owned fit lv U) {i o n : Nat} {b : Blk}
    (hi : lv[i]? = some (o, n)) (hb : (o, b) ∈ U) :
    Owned fit (lv.eraseIdx i) (U \ {(o, b)}) where
  nodup := h.nodup.sublist ((List.eraseIdx_sublist lv i).map Prod.fst)
  block := fun x hx => by
    obtain ⟨j, hj, hjx⟩ := List.mem_eraseIdx_iff_getElem?.1 hx
    obtain ⟨c, hc, hf⟩ := h.block x (List.mem_of_getElem? hjx)
    refine ⟨c, ⟨hc, fun he => hj ?_⟩, hf⟩
    exact h.index_inj hjx hi (show x.1 = o from congrArg Prod.fst he)
  alloc := fun y hy => by
    obtain ⟨x, hx, hxy⟩ := List.mem_map.1 (h.alloc y hy.1)
    obtain ⟨j, hj⟩ := List.mem_iff_getElem?.1 hx
    refine List.mem_map.2 ⟨x, List.mem_eraseIdx_iff_getElem?.2
      ⟨j, fun he => hy.2 ?_, hj⟩, hxy⟩
    rw [he, hi] at hj
    cases hj
    simp only at hxy
    obtain ⟨q, c⟩ := y
    subst hxy
    exact congrArg (Prod.mk _) (h.unique _ c b hy.1 hb)
  unique := fun q c d hc hd => h.unique q c d hc.1 hd.1

private theorem mem_set_iff {α : Type} {l : List α} {i : Nat} {x y : α} :
    x ∈ l.set i y ↔ (i < l.length ∧ x = y) ∨ ∃ j, j ≠ i ∧ l[j]? = some x := by
  rw [List.mem_iff_getElem?]
  constructor
  · rintro ⟨j, hj⟩
    rw [List.getElem?_set] at hj
    split at hj
    · split at hj
      · cases hj
        exact Or.inl ⟨by assumption, rfl⟩
      · cases hj
    · rename_i hne
      exact Or.inr ⟨j, fun he => hne he.symm, hj⟩
  · rintro (⟨hlt, rfl⟩ | ⟨j, hne, hj⟩)
    · exact ⟨i, List.getElem?_set_self hlt⟩
    · exact ⟨j, by rw [List.getElem?_set_ne (Ne.symm hne)]; exact hj⟩

/-- An allocation that moves, or is resized in place, owns its new
block. -/
theorem Owned.move (h : Owned fit lv U) {i o n q n' : Nat} {b c : Blk}
    (hi : lv[i]? = some (o, n)) (hb : (o, b) ∈ U)
    (hfresh : ∀ d, (q, d) ∉ U \ {(o, b)}) (hfit : fit n' c) :
    Owned fit (lv.set i (q, n')) (insert (q, c) (U \ {(o, b)})) := by
  have hlt : i < lv.length := (List.getElem?_eq_some_iff.1 hi).1
  have hrest := h.remove hi hb
  have hnot : q ∉ (lv.eraseIdx i).map Prod.fst := by
    intro hq
    obtain ⟨x, hx, rfl⟩ := List.mem_map.1 hq
    obtain ⟨d, hd, -⟩ := hrest.block x hx
    exact hfresh d hd
  refine ⟨?_, fun x hx => ?_, fun y hy => ?_, ?_⟩
  · -- removing and inserting again is replacing
    have hperm : (lv.set i (q, n')).Perm ((q, n') :: lv.eraseIdx i) :=
      List.set_perm_cons_eraseIdx hlt _
    refine (hperm.map Prod.fst).nodup_iff.2 ?_
    exact List.nodup_cons.2 ⟨hnot, hrest.nodup⟩
  · rcases mem_set_iff.1 hx with ⟨-, rfl⟩ | ⟨j, hj, hjx⟩
    · exact ⟨c, Or.inl rfl, hfit⟩
    · obtain ⟨d, hd, hf⟩ := hrest.block x
        (List.mem_eraseIdx_iff_getElem?.2 ⟨j, hj, hjx⟩)
      exact ⟨d, Or.inr hd, hf⟩
  · rcases hy with rfl | hy
    · exact List.mem_map.2 ⟨_, mem_set_iff.2 (Or.inl ⟨hlt, rfl⟩), rfl⟩
    · obtain ⟨x, hx, hxy⟩ := List.mem_map.1 (hrest.alloc y hy)
      exact List.mem_map.2 ⟨x, mem_set_iff.2
        (Or.inr (List.mem_eraseIdx_iff_getElem?.1 hx)), hxy⟩
  · intro r d f hd hf
    rcases hd with hd | hd
    · rcases hf with hf | hf
      · exact (congrArg Prod.snd hd).trans (congrArg Prod.snd hf).symm
      · rw [show r = q from congrArg Prod.fst hd] at hf
        exact absurd hf (hfresh f)
    · rcases hf with hf | hf
      · rw [show r = q from congrArg Prod.fst hf] at hd
        exact absurd hd (hfresh d)
      · exact hrest.unique r d f hd hf

end MallocLab.Blocks
