/-
Are free neighbours always merged? Allocating and freeing see to it, and
so do the resizes that take a neighbour in whole. Two exits of
`implicit_mm_realloc` do not: cutting a block in place, and cutting the
previous block after sliding into it, free what is left over without
looking at the block behind it.

`Flush` is the condition under which they do no harm: no rest is left in
front of a free block. Under it no two neighbours are ever both free;
the run at the end of the file shows the first exit at work without it.
-/
import MallocLab.Proofs.Implicit.Runs

namespace MallocLab.Proofs.Implicit

open Mem Blocks Model Model.Implicit Spec.Implicit

-- ============================================================ the condition

/-- Resizing the block under the cursor to `n` bytes leaves no rest in
front of a free block. -/
def Flush (z : Zip) (n : Nat) : Prop :=
  ∀ c ∈ z.right.head?, c.used = false → ¬ n < z.mid.size ∧
    (z.absorbNext.mid.size < n → ¬ n < z.absorbPrev.mid.size)

/-- The same of a request to a state. -/
def FlushFor (S : State) (r : Req) : Prop :=
  ∀ (i n : Nat) (x : Nat × Nat) (z : Zip), r = .realloc i n → 1 ≤ n →
    S.live[i]? = some x → z.blocks = S.heap.blocks → z.off = x.1 →
    Flush z (need n)

/-- The same in what the client and a walk over the heap see: where the
block `x` resized is followed by the free block `y`, it is not cut in
place, and it is not slid into the block `w` before it with room to
spare. -/
def LeavesNoRest (live : List Alloc) (s : Machine) : Req → Prop
  | .realloc i n => ∀ (a : Alloc) (pre post : List Seen) (x y : Seen),
      1 ≤ n → live[i]? = some a → BlockList s (pre ++ x :: y :: post) →
      x.addr = a.ptr → y.state = blkFree → ¬ need n < x.size ∧
        ∀ w ∈ pre.getLast?, w.state = blkFree → x.size + y.size < need n →
          ¬ need n < w.size + x.size
  | _ => True

/-- Whether the block `x`, behind `pre` and in front of the free block
`y`, leaves no rest when it is resized to `n` bytes. -/
def noRest (n : Nat) (pre : List Seen) (x y : Seen) : Bool :=
  decide (¬ need n < x.size ∧ ∀ w ∈ pre.getLast?, w.state = blkFree →
    x.size + y.size < need n → ¬ need n < w.size + x.size)

/-- Whether the block of `xs` at `p` leaves none. -/
def ClearAt (p n : Nat) (xs : List Seen) : Prop :=
  ∀ k < xs.length, ∀ x ∈ xs[k]?, ∀ y ∈ xs[k + 1]?, x.addr = p →
    y.state = blkFree → noRest n (xs.take k) x y = true

instance (p n : Nat) : DecidablePred (ClearAt p n) := fun xs =>
  inferInstanceAs (Decidable (∀ k < xs.length, ∀ x ∈ xs[k]?,
    ∀ y ∈ xs[k + 1]?, x.addr = p → y.state = blkFree →
      noRest n (xs.take k) x y = true))

/-- Whether a request leaves none, by the blocks computed. -/
def checkRest (live : List Alloc) (s : Machine) : Req → Bool
  | .realloc i n =>
      (live[i]?).all fun a => checkBlocks s (ClearAt a.ptr n)
  | _ => true

theorem leavesNoRest_of_check (live : List Alloc) (s : Machine) (r : Req)
    (h : checkRest live s r = true) : LeavesNoRest live s r := by
  cases r with
  | realloc i n =>
      intro a pre post x y _ ha hxs
      have hblocks := of_checkBlocks ((Option.all_eq_true _ _).1 h a ha) hxs
      intro haddr hfree
      have hxy := hblocks pre.length (by simp) x (by simp) y (by simp) haddr
        hfree
      rw [List.take_left] at hxy
      exact of_decide_eq_true hxy
  | malloc n => trivial
  | reallocNull n => trivial
  | free i => trivial
  | write i off v => trivial

variable {fit : Fit} {R : Region} {live : List Alloc} {s : Machine}
  {S S' : State} {r : Req} {A A' : Heap} {z : Zip} {n : Nat}
  {a : Option Nat}

-- =========================================================== the operations

/-- Growing puts a used block at the end. -/
theorem grow_coalesced {bs bs' : List Blk} {o : Nat} (h : Coalesced bs)
    (hg : grow bs n = some (o, bs')) : Coalesced bs' := by
  have hstem : Coalesced (stem bs) := by
    rcases stem_cases bs with ⟨-, hs⟩ | ⟨l, t, rfl, -, hs⟩
    · rw [hs]
      exact h
    · rw [hs]
      exact (List.isChain_append.1 h).1
  obtain ⟨-, -, rfl⟩ := grow_some hg
  exact coalesced_used hstem List.isChain_nil rfl

/-- Allocating: what is left of a free block is followed by what followed
the block. -/
theorem malloc_coalesced (h : Coalesced A.blocks)
    (hm : A.malloc fit n = some (a, A')) : Coalesced A'.blocks := by
  unfold Heap.malloc at hm
  split at hm
  · cases hm
    exact h
  · split at hm
    · cases hm
    · split at hm
      · rename_i x hx
        cases hm
        obtain ⟨hpl, hfree, -⟩ := Heap.find_spec hx
        obtain ⟨o, b⟩ := x
        obtain ⟨z, hzb, rfl, rfl⟩ := Zip.of_placed hpl
        rw [← hzb] at h
        obtain ⟨hl, hr⟩ := h.sides
        rw [Heap.settle_blocks, ← hzb, fillAt_blocks]
        exact Zip.fill_coalesced hl hr fun _ => (h.free_alone hfree).2
      · split at hm
        · rename_i o bs hg
          cases hm
          rw [Heap.settle_blocks]
          exact grow_coalesced h hg
        · cases hm
          rw [Heap.rove_blocks]
          exact h

/-- Freeing merges. -/
theorem free_coalesced (h : Coalesced A.blocks) (o : Nat) :
    Coalesced (A.free fit o).blocks := by
  unfold Heap.free
  split
  · rename_i z hz
    rw [← (Zip.find?_some hz).1] at h
    obtain ⟨hl, hr⟩ := h.sides
    rw [Heap.settle_blocks]
    exact z.merge_coalesced hl hr
  · exact h

/-- Resizing, where no rest is left in front of a free block. -/
theorem resize_coalesced (hz : z.blocks = A.blocks) (h : Coalesced A.blocks)
    (hflush : Flush z n) (hr : A.resize fit z n = some (a, A')) :
    Coalesced A'.blocks := by
  have hcz := h
  rw [← hz] at hcz
  obtain ⟨hleft, hright⟩ := hcz.sides
  unfold Heap.resize at hr
  split at hr
  · -- cut in place
    rename_i hfit
    cases hr
    rw [Heap.settle_blocks]
    refine Zip.fill_coalesced hleft hright fun hne c hc => ?_
    cases hu : c.used with
    | true => rfl
    | false =>
        have hnot := (hflush c hc hu).1
        exact absurd (by omega) hnot
  · rename_i hmore
    split at hr
    · -- the next block taken in was free, so the one after it is not
      rename_i hfit
      cases hr
      rw [Heap.settle_blocks]
      rcases z.absorbNext_cases with ⟨-, hw⟩ | ⟨c, r, hzr, hfree, hw⟩
      · rw [hw] at hfit
        exact absurd hfit hmore
      · rw [hw]
        rw [hzr] at hright
        refine Zip.fill_coalesced hleft hright.tail fun _ d hd => ?_
        have := hright.rel_head? hd
        simpa [hfree] using this
    · rename_i hmore'
      split at hr
      · split at hr
        · cases hr
          rw [Heap.settle_blocks]
          exact coalesced_used hleft List.isChain_nil rfl
        · cases hr
      · split at hr
        · -- slid into the previous block
          rename_i hfit
          cases hr
          rw [Heap.settle_blocks]
          rcases z.absorbPrev_cases with ⟨-, hw⟩ | ⟨l, c, hzl, -, hw⟩
          · rw [hw] at hfit
            exact absurd hfit hmore
          · rw [hzl] at hleft
            refine Zip.fill_coalesced
              (by rw [hw]; exact (List.isChain_append.1 hleft).1)
              (by rw [hw]; exact hright) fun hne d hd => ?_
            rw [hw] at hd
            cases hu : d.used with
            | true => rfl
            | false =>
                have hnot := (hflush d hd hu).2 (by omega)
                exact absurd (by omega) hnot
        · split at hr
          · cases hr
            exact h
          · rename_i q bs hg
            cases hr
            rw [Heap.rove_blocks]
            exact free_coalesced (grow_coalesced h hg) _

/-- Serving a request keeps the list coalesced. -/
theorem serve_coalesced (hS : S.Ok fit) (h : Coalesced S.heap.blocks)
    (hflush : FlushFor S r) (hr : S.serve fit r = some (a, S')) :
    Coalesced S'.heap.blocks := by
  have henrol : ∀ k, (S.heap.malloc fit k).map (S.enrol k) = some (a, S') →
      Coalesced S'.heap.blocks := by
    intro k hk
    obtain ⟨⟨o, B⟩, hm, he⟩ := Option.map_eq_some_iff.1 hk
    have hB := malloc_coalesced h hm
    cases o <;> cases he <;> exact hB
  cases r with
  | malloc k => exact henrol k hr
  | reallocNull k => exact henrol k hr
  | write i off v =>
      cases hr
      exact h
  | free i =>
      cases hx : S.live[i]? with
      | none =>
          simp only [State.serve, hx] at hr
          cases hr
          exact h
      | some x =>
          simp only [State.serve, hx] at hr
          cases hr
          exact free_coalesced h x.1
  | realloc i k =>
      cases hx : S.live[i]? with
      | none =>
          simp only [State.serve, hx] at hr
          cases hr
          exact h
      | some x =>
          simp only [State.serve, hx] at hr
          split at hr
          · cases hr
            exact free_coalesced h x.1
          · rename_i hk
            obtain ⟨⟨o, B⟩, hm, he⟩ := Option.map_eq_some_iff.1 hr
            obtain ⟨z, hzb, hzo, -⟩ := hS.cursor hx
            rw [Heap.realloc_at hzb hzo] at hm
            have hB := resize_coalesced hzb h
              (hflush i k x z rfl (by omega) hx hzb hzo) hm
            cases o <;> cases he <;> exact hB

-- ================================================================ the runs

/-- What a walk sees before and after the block under the cursor. -/
theorem seen_split (p : Nat) (l r : List Blk) (b : Blk) :
    seen p (l ++ b :: r) = seen p l ++ seenAt (p + total l, b)
      :: seen (p + total l + b.size) r := by
  unfold seen
  rw [placed_append, placed_cons, List.map_append, List.map_cons]

/-- The condition seen from outside is the condition. -/
theorem flush_of (h : Sim fit R live s S) (hno : LeavesNoRest live s r) :
    FlushFor S r := by
  rintro i n x z rfl hn hx hzb hzo c hc hfree
  obtain ⟨e, ht⟩ := h.rep.tiled
  have hlist := ht.blockList h.rep.listp
  obtain ⟨l, b, r⟩ := z
  cases r with
  | nil => cases hc
  | cons d r =>
      have hcd : d = c := Option.some.inj hc
      subst hcd
      rw [← hzb] at hlist
      have hsplit : seen (R.base + 8 + 8) (Zip.blocks ⟨l, b, d :: r⟩)
          = seen (R.base + 8 + 8) l
            ++ seenAt (R.base + 8 + 8 + total l, b)
            :: seenAt (R.base + 8 + 8 + total l + b.size, d)
            :: seen (R.base + 8 + 8 + total l + b.size + d.size) r :=
        seen_split _ l (d :: r) b
      rw [hsplit] at hlist
      have hlive : live[i]? = some (own R x) := by
        rw [h.live_get, hx]
        rfl
      have haddr : (seenAt (R.base + 8 + 8 + total l, b)).addr
          = (own R x).ptr := by
        show R.base + 8 + 8 + total l = R.base + 8 + 8 + x.1
        rw [← hzo]
        rfl
      have hstate : (seenAt (R.base + 8 + 8 + total l + b.size, d)).state
          = blkFree := by
        show d.used.toNat = 0
        rw [hfree]
        rfl
      obtain ⟨hcut, hslide⟩ := hno (own R x) _ _ _ _ hn hlive hlist haddr
        hstate
      refine ⟨hcut, fun hmore hspare => ?_⟩
      have hjoin : (Zip.absorbNext ⟨l, b, d :: r⟩).mid.size
          = b.size + d.size := by simp [Zip.absorbNext, hfree]
      rcases Zip.absorbPrev_cases ⟨l, b, d :: r⟩ with
        ⟨-, hw⟩ | ⟨l', w, hl, hwfree, hw⟩
      · rw [hw] at hspare
        exact hcut hspare
      · rw [hw] at hspare
        simp only at hl
        subst hl
        have hlast : seenAt (R.base + 8 + 8 + total l', w)
            ∈ (seen (R.base + 8 + 8) (l' ++ [w])).getLast? := by
          rw [seen_split]
          simp [seen]
        refine hslide _ hlast ?_ (by rw [hjoin] at hmore; exact hmore) hspare
        show w.used.toNat = 0
        rw [hwfree]
        rfl

/-- In every run whose extensions are granted, and whose resizes leave no
rest in front of a free block, no two neighbours are both free. -/
theorem implicit_coalesced (fit : Fit) (R : Region) {m : Bytes}
    (hm : Blank R m) {reqs : List Req}
    (hsize : ∀ r ∈ reqs, Sized 1 maxSize r)
    (hg : Throughout (.implicit fit)
      (fun live s r => Granted fit live s r ∧ LeavesNoRest live s r)
      (memInit R m) reqs) :
    ∃ ps live s xs, (run (.implicit fit) reqs).run (memInit R m)
        = .ok (ps, live) s ∧ HeapList s xs ∧
      xs.IsChain fun x y => ¬ (x.state = blkFree ∧ y.state = blkFree) := by
  obtain ⟨s₀, hinit, hgo⟩ := init_going fit R hm
  have hC := along_and_all (hg 0 s₀ hinit) hsize
  have hnil : Coalesced (Heap.init fit).blocks := by
    unfold Heap.init
    rw [Heap.rove_blocks]
    exact List.isChain_nil
  obtain ⟨ps, live, s, hrun, S, hS, hcoal⟩ := serveAll_inv
    (I := fun live s => ∃ S, Going fit R live s S ∧ Coalesced S.heap.blocks)
    (fun live s r ⟨S, hS, hcoal⟩ ⟨⟨hgr, hno⟩, hr⟩ => by
      obtain ⟨o, S', live', s', hans, hrun, -, hgo'⟩ :=
        serve_step hS (Sized.int hr) hgr
      exact ⟨_, live', s', hrun, S', hgo',
        serve_coalesced hS.sim.ok hcoal (flush_of hS.sim hno) hans⟩)
    ⟨_, hgo, hnil⟩ hC
  refine ⟨ps, live, s, _, ?_, hS.sim.heapList hS.fresh.closed,
    seen_coalesced hcoal _⟩
  unfold run
  rw [bind_ok hinit]
  exact hrun

/-- Of the four resizes one grows into a free block behind it, and cuts
that. -/
theorem implicit_coalesced_sample : ∃ ps live s xs,
    (run (.implicit .next) sampleReqs).run (memInit Region.sample fun _ => 0)
      = .ok (ps, live) s ∧ HeapList s xs ∧
      xs.IsChain fun x y => ¬ (x.state = blkFree ∧ y.state = blkFree) :=
  implicit_coalesced .next _ sample_blank sample_sized fun q s₀ hinit =>
    along_and (sample_granted q s₀ hinit)
      (throughout_of_check leavesNoRest_of_check (by decide +kernel) q s₀
        hinit)

/-- A block cut in place in front of a free one: two free neighbours. -/
theorem implicit_rest : ∃ ps live s xs,
    (run (.implicit .first) [.malloc 32, .malloc 16, .malloc 16, .free 1,
      .realloc 0 8]).run (memInit Region.sample fun _ => 0)
        = .ok (ps, live) s ∧ HeapList s xs ∧
      ¬ xs.IsChain
        fun x y => ¬ (x.state = blkFree ∧ y.state = blkFree) := by
  obtain ⟨s₁, hs, herr⟩ := of_reading Machine.errno (show result? ((do
      let x ← run (.implicit .first) [.malloc 32, .malloc 16, .malloc 16,
        .free 1, .realloc 0 8]
      return (x, (← get).errno) : M _).run
        (memInit Region.sample fun _ => 0))
      = some (([24, 64, 88, 0, 24], [⟨24, 8⟩, ⟨88, 16⟩]), 0)
    by decide +kernel)
  have hsize : ∀ r ∈ ([.malloc 32, .malloc 16, .malloc 16, .free 1,
      .realloc 0 8] : List Req), Sized 0 intMax r := by
    simp [Sized, intMax]
  obtain ⟨os, S, live, s, hans, hrun, hend⟩ :=
    run_going .first Region.sample sample_blank hsize
      (granted_run .first Region.sample sample_blank hsize hs
        (by rw [herr]; decide))
  refine ⟨_, live, s, _, hrun, hend.sim.heapList hend.fresh.closed, ?_⟩
  have hblocks : S.heap.blocks = [⟨16, true, rfl, by decide⟩,
      ⟨24, false, rfl, by decide⟩, ⟨24, false, rfl, by decide⟩,
      ⟨24, true, rfl, by decide⟩] := by
    have hrun : (State.serveAll .first ⟨Heap.init .first, []⟩
        [.malloc 32, .malloc 16, .malloc 16, .free 1, .realloc 0 8]).map
        (fun x => x.2.heap.blocks) = some [⟨16, true, rfl, by decide⟩,
          ⟨24, false, rfl, by decide⟩, ⟨24, false, rfl, by decide⟩,
          ⟨24, true, rfl, by decide⟩] := by decide +kernel
    rw [hans] at hrun
    exact Option.some.inj hrun
  rw [hblocks]
  intro hchain
  have hmid := List.isChain_cons_cons.1 (List.isChain_cons_cons.1 hchain).2
  exact hmid.1 ⟨rfl, rfl⟩

end MallocLab.Proofs.Implicit
