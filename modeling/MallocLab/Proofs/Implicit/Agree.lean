/-
The three fit strategies side by side, on any well-formed heap list and
with the rover on any of its blocks. They find a place on the same
inputs, each takes the block its rule names, and each leaves the list as
`place` does: that block in use, cut where there is a rest.
-/
import MallocLab.Proofs.Implicit.Runs

namespace MallocLab.Proofs.Implicit

open Mem Blocks Model Model.Implicit Spec.Implicit

variable {hp e size : Nat} {s : Machine} {bs : List Blk} {z : Zip}

/-- The list with `n` bytes of payload put in the block under the cursor:
the block is cut if what is left over is a block, and else taken
whole. -/
def taken (z : Zip) (n : Nat) : List Blk :=
  z.left ++ (if 8 ≤ z.mid.size - (n + 8) then
    [Blk.of (n + 8) true, Blk.of (z.mid.size - (n + 8)) false]
    else [z.mid.mark true]) ++ z.right

/-- That is the list with the front of the block handed out. -/
theorem fill_taken (hal : size % 8 = 0) (hfit : size + 8 ≤ z.mid.size) :
    z.fill (size + 8) = taken z size := by
  have hzal := z.mid.aligned
  unfold Zip.fill taken cut
  by_cases he : z.mid.size = size + 8
  · have hwhole : Blk.of (size + 8) true = z.mid.mark true :=
      Blk.ext ((Blk.of_size true (by omega) (by omega)).trans he.symm) rfl
    rw [if_pos he, if_neg (by omega), hwhole]
  · rw [if_neg he, if_pos (by omega)]

/-- Placing in a free block with the room. -/
theorem place_taken (h : Tiled hp e s z.blocks)
    (hs : suits size (z.off, z.mid) = true) (hal : size % 8 = 0)
    (hsize : 8 ≤ size) :
    ∃ m, (place (hp + 8 + z.off) size).run s
        = .ok (hp + 8 + z.off) { s with mem := m } ∧
      Tiled hp e { s with mem := m } (taken z size) ∧
      ∀ x, x < hp + 8 + z.off - 4 ∨
        hp + 8 + z.off + z.mid.size - 4 ≤ x → m x = s.mem x := by
  have hlt := h.size_lt
  obtain ⟨hu, hle⟩ := suits_need hs (by simp only; omega)
  have hroom := (suits_iff.1 hs).2
  have hzr := z.mid.room_add
  have hmax := maxHeap_lt
  have halign : need size = size + 8 := by
    simp only at hroom
    unfold need
    rw [align_eq (by omega)]
    omega
  have hzal := z.mid.aligned
  have hpos := z.mid.pos
  have hstart := h.start
  simp only at hu hle
  have hplace := place_ok h hu _ hle
  rw [halign] at hplace hle
  have hsplit : z.blocks = z.left ++ [z.mid] ++ z.right := by
    simp [Zip.blocks]
  have ht := h
  rw [hsplit] at ht
  have hcut := ht.recut (m := s.mem) (n := size + 8) (by simp)
    (by omega) (by omega) hle fun _ _ => rfl
  refine ⟨_, hplace, ?_, fun x hx => stampCut_of_out (by omega) (by omega)
    (by omega) hzal hle (by omega) (by omega) (by omega)⟩
  rw [← fill_taken hal hle]
  exact hcut

/-- The heap whose blocks are `bs`, with its rover where `heap_curp`
points, under the strategy that has one. -/
private theorem heap_over (fit : Fit)
    (hcur : s.heapCurp = hp ∨
      ∃ x ∈ placed (hp + 8) bs, s.heapCurp = x.1) :
    ∃ A : Heap, A.blocks = bs ∧ A.Ok fit ∧
      (∀ r ∈ A.rover, s.heapCurp = hp + r) ∧
      (fit = .next → A.rover ≠ none) := by
  obtain ⟨ρ, hρ, hlisted⟩ : ∃ ρ, s.heapCurp = hp + ρ ∧
      (ρ = 0 ∨ ∃ o b, ρ = o + 8 ∧ (o, b) ∈ placed 0 bs) := by
    rcases hcur with hc | ⟨⟨q, b⟩, hx, hc⟩
    · exact ⟨0, hc, Or.inl rfl⟩
    · obtain ⟨o, ho, hpl⟩ := mem_placed_at.1 hx
      simp only at hc ho
      exact ⟨o + 8, by omega, Or.inr ⟨o, b, rfl, hpl⟩⟩
  by_cases hf : fit = .next
  · refine ⟨⟨bs, some ρ⟩, rfl, ⟨fun r hr => ?_, fun hn => absurd hf hn⟩,
      fun r hr => ?_, fun _ => Option.some_ne_none _⟩
    · cases hr
      exact hlisted
    · cases hr
      exact hρ
  · exact ⟨⟨bs, none⟩, rfl, ⟨fun r hr => (nomatch hr), fun _ => rfl⟩,
      fun r hr => (nomatch hr), fun hn => absurd hn hf⟩

/-- The three strategies agree on any heap list: null if no free block
has the room, and else the strategy's choice among the free blocks that
do, put in use. -/
theorem findFit_agree (h : Tiled hp e s bs) (he : e / 8 = 0)
    (hl : s.heapListp = hp)
    (hcur : s.heapCurp = hp ∨
      ∃ x ∈ placed (hp + 8) bs, s.heapCurp = x.1)
    (hal : size % 8 = 0) (hsize : 8 ≤ size) (fit : Fit) :
    ((∀ x ∈ placed (hp + 8) bs, ¬ (x.2.used = false ∧
          size ≤ x.2.room)) ∧
        (findFit fit size).run s = .ok 0 s) ∨
      ∃ z m, z.blocks = bs ∧ z.mid.used = false ∧ size ≤ z.mid.room ∧
        Choice fit s.heapCurp ((placed (hp + 8) bs).filter (suits size))
          (hp + 8 + z.off, z.mid) ∧
        (findFit fit size).run s
          = .ok (hp + 8 + z.off) { s with mem := m } ∧
        Tiled hp e { s with mem := m } (taken z size) ∧
        ∀ x, x < hp + 8 + z.off - 4 ∨
          hp + 8 + z.off + z.mid.size - 4 ≤ x → m x = s.mem x := by
  obtain ⟨A, rfl, hA, hrov, hlost⟩ := heap_over fit hcur
  have hcomes := findFit_ok size h he hl hA hrov hlost
  cases hfind : A.find fit size with
  | none =>
      rw [hfind] at hcomes
      refine Or.inl ⟨fun x hx hc => ?_, hcomes⟩
      obtain ⟨o, -, hpl⟩ := mem_placed_at.1 hx
      have hnot := Heap.find_none hfind hlost hpl
      have hyes : suits size (o, x.2) = true := suits_iff.2 hc
      rw [hyes] at hnot
      cases hnot
  | some x =>
      rw [hfind] at hcomes
      obtain ⟨hpl, hu, hroom⟩ := Heap.find_spec hfind
      have hchoice := Heap.find_choice hp hrov hfind
      obtain ⟨o, b⟩ := x
      obtain ⟨z, hzb, rfl, rfl⟩ := Zip.of_placed hpl
      rw [← hzb] at h
      obtain ⟨m, hrun, htile, hkeep⟩ :=
        place_taken h (suits_iff.2 ⟨hu, hroom⟩) hal hsize
      exact Or.inr ⟨z, m, hzb, hu, hroom, hchoice, hcomes.trans hrun, htile,
        hkeep⟩

/-- Three free blocks between blocks in use, of 48, 24 and 32 bytes, and
the rover in front of the last of them: each strategy has a choice of its
own. -/
theorem findFit_agree_sample : ∃ hp e s bs, Tiled hp e s bs ∧
    bs = [Blk.of 48 false, Blk.of 16 true, Blk.of 24 false, Blk.of 16 true,
      Blk.of 32 false, Blk.of 16 true] ∧ s.heapCurp = hp + 8 + 88 ∧
    ∀ fit,
      ((∀ x ∈ placed (hp + 8) bs, ¬ (x.2.used = false ∧ 8 ≤ x.2.room)) ∧
          (findFit fit 8).run s = .ok 0 s) ∨
        ∃ z m, z.blocks = bs ∧ z.mid.used = false ∧ 8 ≤ z.mid.room ∧
          Choice fit s.heapCurp ((placed (hp + 8) bs).filter (suits 8))
            (hp + 8 + z.off, z.mid) ∧
          (findFit fit 8).run s
            = .ok (hp + 8 + z.off) { s with mem := m } ∧
          Tiled hp e { s with mem := m } (taken z 8) ∧
          ∀ x, x < hp + 8 + z.off - 4 ∨
            hp + 8 + z.off + z.mid.size - 4 ≤ x → m x = s.mem x := by
  obtain ⟨os, S, live, s, hans, -, hgo⟩ := run_going .next Region.sample
    sample_blank (show ∀ r ∈ [.malloc 40, .malloc 8, .malloc 16, .malloc 8,
      .malloc 24, .malloc 8, .free 0, .free 1, .free 2, .realloc 1 8],
      Sized 0 intMax r by simp [Sized, intMax])
    (throughout_of_decide (by decide +kernel))
  have hheap : S.heap = ⟨[Blk.of 48 false, Blk.of 16 true, Blk.of 24 false,
      Blk.of 16 true, Blk.of 32 false, Blk.of 16 true], some 96⟩ := by
    have hrun : (State.serveAll .next ⟨Heap.init .next, []⟩ [.malloc 40,
        .malloc 8, .malloc 16, .malloc 8, .malloc 24, .malloc 8, .free 0,
        .free 1, .free 2, .realloc 1 8]).map (fun x => x.2.heap)
        = some ⟨[Blk.of 48 false, Blk.of 16 true, Blk.of 24 false,
          Blk.of 16 true, Blk.of 32 false, Blk.of 16 true], some 96⟩ := by
      rfl
    rw [hans] at hrun
    exact Option.some.inj hrun
  obtain ⟨e, ht⟩ := hgo.sim.rep.tiled
  have hcur := hgo.sim.rep.cur
  rw [hheap] at ht hcur
  refine ⟨_, e, s, _, ht, rfl, hcur, fun fit => findFit_agree ht
    (ht.last ▸ hgo.fresh.closed) hgo.sim.rep.listp
    (Or.inr ⟨(_, Blk.of 16 true), ?_, hcur⟩) (by decide) (by decide) fit⟩
  exact List.mem_cons_of_mem _ (List.mem_cons_of_mem _
    (List.mem_cons_of_mem _ List.mem_cons_self))

end MallocLab.Proofs.Implicit
