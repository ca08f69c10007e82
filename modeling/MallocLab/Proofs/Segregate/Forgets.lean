/-
Does `coalesce` forget what it takes in? It joins the block to its free
neighbours and takes each of them off its list, with `FREELIST_DEL_BLK`.
The macro leaves a block of the smallest size where it is: such a block
has no room for a back pointer.

The lists of classes one to ten lose exactly the neighbours taken in,
however these are linked to each other. The list at slot zero loses
nothing, ever: so `coalesce` forgets what it takes in exactly where no
free neighbour is of the smallest size (`coalesce_forgets`).
-/
import MallocLab.Proofs.Segregate.Runs

namespace MallocLab.Proofs.Segregate

open Mem Blocks Model Model.Segregate Spec.Segregated

-- ============================================================ the statement

/-- A well-formed heap: blocks of at least sixteen bytes from the
prologue to the epilogue, and on the list at each slot exactly the free
blocks of its class, each once. -/
structure Formed (R : Region) (s : Machine) (bs : List Blk) (B : Bins) :
    Prop where
  shape : Shape R s bs B (marked false 0 bs)
  zero : AtZero R s.mem B

/-- A list without the free neighbours of the block under the cursor. -/
def spare (z : Zip) (os : List Nat) : List Nat :=
  os.filter fun o => ¬ (z.FreeNext o ∨ z.FreePrev o)

/-- What `coalesce` is to leave: one free block for the one under the
cursor and its free neighbours, and the lists without the neighbours, so
that every address on a list starts a free block. -/
structure Forgot (R : Region) (z : Zip) (B : Bins) (s : Machine) : Prop where
  blocks : HeapList s (seen (R.base + 104) z.merge.blocks)
  lists : ∀ k, 1 ≤ k → k ≤ 10 →
    FreeList s (s.freelistTable + 8 * k) ((spare z (B k)).map (addr R))
  zero : NextList s s.freelistTable ((spare z (B 0)).map (addr R))
  starts : ∀ k, k ≤ 10 → ∀ n ∈ (spare z (B k)).map (addr R),
    ∃ x ∈ seen (R.base + 104) z.merge.blocks,
      x.addr = n ∧ x.state = blkFree

/-- `coalesce` returns the joined block and forgets what it took in. -/
def Forgets (R : Region) (s : Machine) (z : Zip) (B : Bins) : Prop :=
  ∃ s', (coalesce (addr R z.off)).run s = .ok (addr R z.merge.off) s' ∧
    Forgot R z B s'

variable {R : Region} {s : Machine} {z : Zip} {B : Bins}

-- ================================================================ slot zero

/-- Striking the neighbours out of the smallest blocks changes nothing
exactly where none of them is one. -/
theorem spare_zero {m : Bytes} (hu : z.mid.used = true)
    (h : Filed R m z.blocks B (marked false 0 z.blocks)) :
    spare z (B 0) = B 0 ↔ Spared z := by
  have hmem : ∀ {o : Nat} {c : Blk}, (o, c) ∈ placed 0 z.blocks →
      c.used = false → c.size = 16 → o ∈ B 0 := by
    intro o c hc hfree hsz
    exact (h.files.mem 0 o).2
      ⟨c, ⟨hc, hfree⟩, (h.cls_eq_zero hc).2 hsz⟩
  constructor
  · intro hspare
    have hout : ∀ o ∈ B 0, ¬ (z.FreeNext o ∨ z.FreePrev o) := by
      intro o ho
      simpa using List.filter_eq_self.1 hspare o ho
    refine ⟨?_, ?_⟩
    · intro c hc hfree hsz
      apply hout (z.off + z.mid.size) (hmem ?_ hfree hsz)
      · exact Or.inl ⟨c, hc, hfree, rfl⟩
      · obtain ⟨r, hr⟩ : ∃ r, z.right = c :: r :=
          List.head?_eq_some_iff.1 hc
        unfold Zip.blocks Zip.off
        simp [hr]
    · intro c hc hfree hsz
      obtain ⟨l, hl⟩ := List.getLast?_eq_some_iff.1 hc
      have hoff : z.off - c.size = total l := by
        unfold Zip.off
        simp [hl]
      apply hout (z.off - c.size) (hmem ?_ hfree hsz)
      · exact Or.inr ⟨c, hc, hfree, rfl⟩
      · rw [hoff]
        unfold Zip.blocks
        simp [hl]
  · intro hsp
    have hfiles := h.files
    rw [← Zip.sides_ne (u := false) (by simp [hu])] at hfiles
    unfold spare
    rw [← hfiles.merge_eq 0]
    exact hsp.bins h

-- ============================================================ what it leaves

/-- On a well-formed heap `coalesce` joins the free neighbours to the
block and strikes them out of the lists one to ten. The list at slot zero
stays whole, whatever is taken in. -/
theorem coalesce_leaves (h : Formed R s z.blocks B)
    (hu : z.mid.used = true) :
    ∃ m B', (coalesce (addr R z.off)).run s
        = .ok (addr R z.merge.off) { s with mem := m } ∧
      Shape R { s with mem := m } z.merge.blocks B' (z.merge.sides false) ∧
      (∀ k, B' k = spare z (B k)) ∧
      NextList { s with mem := m } s.freelistTable
        ((B 0).map (addr R)) := by
  have hside : z.sides false = marked false 0 z.blocks :=
    Zip.sides_ne (by simp [hu])
  have hshape := h.shape
  rw [← hside] at hshape
  obtain ⟨m, hrun, hs, hm⟩ := coalesce_ok hshape
  refine ⟨m, _, hrun, hs, hshape.filed.files.merge_eq, ?_⟩
  obtain ⟨hacc, haccs⟩ := h.shape.zero_access
  have hstrung : AtZero R m B := hshape.filed.zero_frame h.zero
    fun x hx => hm (Or.inr hx)
  have hlist : NextList { s with mem := m } R.base
      ((B 0).map (addr R)) := by
    apply nextList_of (s := { s with mem := m }) hstrung (hacc.withMem m)
    intro n hn
    exact ⟨(haccs n hn).1, (haccs n hn).2.withMem m⟩
  rwa [← h.shape.table] at hlist

/-- Having forgotten what it took in, it took in no smallest block. -/
theorem Forgets.spared (h : Formed R s z.blocks B) (hu : z.mid.used = true)
    (hf : Forgets R s z B) : Spared z := by
  obtain ⟨m, B', hrun, -, -, hkept⟩ := coalesce_leaves h hu
  obtain ⟨s', hrun', hforgot⟩ := hf
  injection hrun.symm.trans hrun' with _ hmem
  subst hmem
  have hinj : Function.Injective (addr R) := by
    intro o q he
    unfold addr at he
    omega
  rw [← spare_zero hu h.shape.filed]
  exact hinj.list_map (hforgot.zero.unique hkept)

/-- `coalesce` forgets the free neighbours it takes in exactly where none
of them is of the smallest size. -/
theorem coalesce_forgets (h : Formed R s z.blocks B)
    (hu : z.mid.used = true) : Forgets R s z B ↔ Spared z := by
  constructor
  · exact Forgets.spared h hu
  intro hsp
  obtain ⟨m, B', hrun, hs, hbins, hkept⟩ := coalesce_leaves h hu
  refine ⟨_, hrun, ⟨?_, ?_, ?_, ?_⟩⟩
  · exact hs.tiled.heapList rfl hs.listp
  · intro k hk hk'
    have hlist := hs.freeList hk hk'
    rwa [hbins k] at hlist
  · rwa [(spare_zero hu h.shape.filed).2 hsp]
  · intro k _ n hn
    obtain ⟨o, ho, rfl⟩ := List.mem_map.1 hn
    rw [← hbins k] at ho
    obtain ⟨b, hb, -⟩ := (hs.filed.files.mem k o).1 ho
    obtain ⟨hpl, hfree⟩ := hs.filed.sub hb
    exact ⟨_, mem_seen_addr.2 ⟨o, b, hpl, rfl⟩, rfl, seen_free.2 hfree⟩

/-- The cursor on the last of three blocks, behind a free one of the
smallest size. -/
def behindSmall : Zip :=
  ⟨[Blk.of 16 true, Blk.of 16 false], Blk.of 24 true, []⟩

/-- Allocate twenty-four bytes and sixteen, and cut the first down to
eight: these are the blocks. -/
private theorem sample_formed :
    ∃ s B, Formed Region.sample s behindSmall.blocks B := by
  obtain ⟨s₀, -, h₀, hz₀⟩ := init_zero Region.sample fun _ => 0
  have hsized : ∀ n, n = 24 ∨ n = 16 → Sized 9 maxSize (.malloc n) := by
    rintro n (rfl | rfl) <;> exact ⟨by decide, by decide⟩
  have hfirst := hsized 24 (Or.inl rfl)
  have hsecond := hsized 16 (Or.inr rfl)
  obtain ⟨_, s₁, -, h₁, hz₁⟩ := serve_zero h₀ hz₀
    (hfirst.mono (by decide) (Nat.le_refl _)) (zeroFor_of_sized hfirst)
    (fun h => absurd h (by decide)) rfl
  obtain ⟨_, s₂, -, h₂, hz₂⟩ := serve_zero h₁ hz₁
    (hsecond.mono (by decide) (Nat.le_refl _)) (zeroFor_of_sized hsecond)
    (fun h => absurd h (by decide)) rfl
  have hthird := serve_zero (r := .realloc 0 8) h₂ hz₂
    (show 8 ≤ maxSize by decide) trivial ?_ rfl
  · obtain ⟨_, s₃, -, h₃, hz₃⟩ := hthird
    exact ⟨s₃, _, h₃.rep.shape, hz₃⟩
  -- the first block is split, and the second one is in use
  intro x z hx hzb hzo
  cases hx
  have hfind := z.find?_blocks
  rw [hzb, hzo] at hfind
  cases hfind
  refine ⟨fun h => absurd h (by decide), fun _ _ _ => ?_,
    fun h => absurd (by decide) h⟩
  refine ⟨?_, ?_⟩
  · intro c hc hfree
    cases hc
    cases hfree
  · intro c hc hfree
    cases hc
    cases hfree

theorem coalesce_forgets_sample : ∃ s B,
    Formed Region.sample s behindSmall.blocks B ∧
    behindSmall.mid.used = true ∧
    (Forgets Region.sample s behindSmall B ↔ Spared behindSmall) := by
  obtain ⟨s, B, h⟩ := sample_formed
  exact ⟨s, B, h, rfl, coalesce_forgets h rfl⟩

/-- There `coalesce` takes in the block of the smallest size and leaves
it on the list at slot zero. -/
theorem coalesce_remembers : ∃ s B,
    Formed Region.sample s behindSmall.blocks B ∧
    behindSmall.mid.used = true ∧
    ¬ Forgets Region.sample s behindSmall B := by
  obtain ⟨s, B, h⟩ := sample_formed
  refine ⟨s, B, h, rfl, fun hf => ?_⟩
  exact (hf.spared h rfl).prev (Blk.of 16 false) rfl rfl rfl

end MallocLab.Proofs.Segregate
