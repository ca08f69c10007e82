/-
What a refused `mem_sbrk` leaves behind. It is seen in `errno`, cleared
before the call: nothing else in the allocator writes `errno` (`Quiet`),
so a call that sets it came to a refused extension, and everything after
that extension is quiet again.

Of the call sites of `extend_heap`, the two in `do_malloc` check the
result and return null at once. The one that grows the last block in
`implicit_mm_realloc` does not: it goes on to write the tags of the
block it did not get, and returns the pointer if it survives that. So a
refused call fails cleanly exactly if it is not a resize that grows the
last block (`implicit_refused`).
-/
import MallocLab.Proofs.Implicit.EndWord

namespace MallocLab.Proofs.Implicit

open Mem Blocks Model Model.Implicit Spec.Implicit

-- ================================================================== errno

/-- A call that leaves `errno` alone. -/
def Quiet {α : Type} (x : M α) : Prop :=
  ∀ s, (final (x.run s)).errno = s.errno

section
variable {α β : Type} {x : M α} {f : α → M β}

theorem quiet_pure (a : α) : Quiet (pure a : M α) := fun _ => rfl

theorem quiet_bind (hx : Quiet x) (hf : ∀ a, Quiet (f a)) :
    Quiet (x >>= f) := by
  intro s
  have hs := hx s
  rw [run_bind]
  cases hrun : x.run s with
  | ok a s' =>
      rw [hrun] at hs
      exact (hf a s').trans hs
  | error e s' =>
      rw [hrun] at hs
      exact hs

theorem quiet_ite {c : Prop} [Decidable c] {y : M α} (hx : Quiet x)
    (hy : Quiet y) : Quiet (if c then x else y) := by
  split
  · exact hx
  · exact hy

theorem quiet_touch (a n : Nat) : Quiet (touch a n) := by
  intro s
  show (final (if _ then _ else _)).errno = _
  split
  · show (if _ then s else _ : Machine).errno = _
    split <;> rfl
  · rfl

theorem quiet_load (w a : Nat) : Quiet (load w a) :=
  quiet_bind (quiet_touch a w) fun _ => quiet_bind (fun _ => rfl)
    fun _ => quiet_pure _

theorem quiet_store (w a v : Nat) : Quiet (store w a v) :=
  quiet_bind (quiet_touch a w) fun _ _ => rfl

theorem quiet_memcpy (d a n : Nat) : Quiet (memcpy d a n) :=
  quiet_bind (quiet_touch a n) fun _ => quiet_bind (quiet_touch d n)
    fun _ _ => rfl

end

section
variable (p n : Nat)

theorem quiet_getSize : Quiet (getSize p) :=
  quiet_bind (quiet_load 4 p) fun _ => quiet_pure _

theorem quiet_getAlloc : Quiet (getAlloc p) :=
  quiet_bind (quiet_load 4 p) fun _ => quiet_pure _

theorem quiet_blkAvalSize : Quiet (blkAvalSize p) :=
  quiet_bind (quiet_getSize _) fun _ => quiet_pure _

theorem quiet_nextBlkp : Quiet (nextBlkp p) :=
  quiet_bind (quiet_getSize _) fun _ => quiet_pure _

theorem quiet_nextHdrp : Quiet (nextHdrp p) :=
  quiet_bind (quiet_getSize _) fun _ => quiet_pure _

theorem quiet_setBlk (a : Nat) : Quiet (setBlk p n a) :=
  quiet_bind (quiet_store _ _ _) fun _ =>
    quiet_bind (quiet_bind (quiet_blkAvalSize p) fun _ => quiet_pure _)
      fun _ => quiet_store _ _ _

theorem quiet_roverTo (fit : Fit) : Quiet (roverTo fit p) :=
  quiet_ite (fun _ => rfl) (quiet_pure _)

theorem quiet_reallocDone (fit : Fit) : Quiet (reallocDone fit p) :=
  quiet_bind (quiet_roverTo p fit) fun _ => quiet_pure _

theorem quiet_doMallocAt (fit : Fit) : Quiet (doMallocAt fit p n) :=
  quiet_bind (quiet_setBlk _ _ _) fun _ =>
    quiet_bind (quiet_roverTo p fit) fun _ => quiet_pure _

theorem quiet_implicitMmFree (fit : Fit) : Quiet (implicitMmFree fit p) := by
  have hnext : ∀ k, Quiet (coalesceNext p k) := fun k =>
    quiet_bind (quiet_bind (quiet_nextHdrp p) fun _ => quiet_getAlloc _)
      fun _ => quiet_ite (quiet_bind (quiet_bind (quiet_nextHdrp p)
        fun _ => quiet_getSize _) fun _ => quiet_pure _) (quiet_pure _)
  have hprev : ∀ k, Quiet (coalescePrev p k) := fun k =>
    quiet_bind (quiet_getAlloc _) fun _ => quiet_ite
      (quiet_bind (quiet_getSize _) fun _ => quiet_bind
        (quiet_bind (quiet_getSize _) fun _ => quiet_pure _)
        fun _ => quiet_pure _) (quiet_pure _)
  refine quiet_bind (quiet_getSize _) fun _ =>
    quiet_bind (quiet_setBlk _ _ _) fun _ => quiet_bind ?_ fun _ =>
      quiet_pure _
  refine quiet_bind (quiet_getSize _) fun _ =>
    quiet_bind (hnext _) fun _ => quiet_bind (hprev _) fun _ => ?_
  exact quiet_bind (quiet_setBlk _ _ _) fun _ =>
    quiet_bind (quiet_roverTo _ fit) fun _ => quiet_pure _

end

-- ============================================================= extend_heap

variable {R : Region} {s : Machine} {A : Heap} {z : Zip}
  {n hp e size : Nat} {bs : List Blk} {fit : Fit} {live : List Alloc}
  {S : State} {r : Req}

/-- `extend_heap` was refused, and returned null, or it was not. -/
theorem extendHeap_cases (i : Int) (s : Machine) :
    (extendHeap i).run s = .ok 0 { s with errno := enomem } ∨
      (final ((extendHeap i).run s)).errno = s.errno := by
  by_cases h0 : i = 0
  · subst h0
    exact Or.inr rfl
  by_cases hfail : i < 0 ∨ (s.memMaxAddr : Int) < s.memBrk + i
  · exact Or.inl (extendHeap_fail h0 hfail)
  · have hbrk : (memSbrk i).run s = .ok s.memBrk
        { s with memBrk := (s.memBrk + i).toNat } := if_neg hfail
    refine Or.inr ?_
    unfold extendHeap
    rw [if_neg h0, bind_ok hbrk]
    refine quiet_ite (quiet_pure 0) ?_ _
    exact quiet_bind (quiet_nextBlkp _) fun _ =>
      quiet_bind (quiet_store _ _ _) fun _ => quiet_pure _

theorem extendHeap_refused {i : Int} (h0 : s.errno ≠ enomem)
    (href : (final ((extendHeap i).run s)).errno = enomem) :
    (extendHeap i).run s = .ok 0 { s with errno := enomem } :=
  (extendHeap_cases i s).resolve_right fun hsame =>
    h0 (hsame.symm.trans href)

/-- What a refused call goes on to, if all that follows it is quiet. -/
theorem refused_bind {x : M Nat} {f : Nat → M Nat}
    (hx : (final (x.run s)).errno = enomem →
      x.run s = .ok 0 { s with errno := enomem })
    (hf : ∀ a, Quiet (f a))
    (href : (final ((x >>= f).run s)).errno = enomem) :
    (x >>= f).run s = (f 0).run { s with errno := enomem } := by
  refine bind_ok (hx ?_)
  rw [run_bind] at href
  cases hrun : x.run s with
  | ok a s' =>
      rw [hrun] at href
      exact (hf a s').symm.trans href
  | error e s' =>
      rw [hrun] at href
      exact href

/-- A refused `do_malloc` returns null and changes nothing. -/
theorem doMalloc_refused (h : Tiled hp e s bs) (h0 : s.errno ≠ enomem)
    (href : (final ((doMalloc fit size).run s)).errno = enomem) :
    (doMalloc fit size).run s = .ok 0 { s with errno := enomem } := by
  rcases stem_cases bs with ⟨hused, -⟩ | ⟨l, t, rfl, hfree, -⟩
  · rw [doMalloc_behind h hused] at href ⊢
    exact refused_bind (extendHeap_refused h0)
      (fun a => quiet_ite (quiet_pure 0) (quiet_doMallocAt a _ fit)) href
  · rw [doMalloc_over h hfree] at href ⊢
    exact refused_bind (extendHeap_refused h0)
      (fun a => quiet_ite (quiet_pure 0) (quiet_doMallocAt _ _ fit)) href

-- ================================================================ the calls

/-- A refused `implicit_mm_malloc` returns null; only the rover has
moved. -/
theorem malloc_refused (h : Rep R s A) (hcl : Closed s) (hA : A.Ok fit)
    (h0 : s.errno ≠ enomem)
    (href : (final ((implicitMmMalloc fit size).run s)).errno = enomem) :
    (implicitMmMalloc fit size).run s
      = .ok 0 (roved fit 0 { s with errno := enomem }) := by
  obtain ⟨e, ht⟩ := h.tiled
  have he : e / 8 = 0 := ht.last ▸ hcl
  unfold implicitMmMalloc at href ⊢
  by_cases hz : size = 0
  · rw [if_pos hz] at href
    exact absurd href h0
  rw [if_neg hz] at href ⊢
  simp only at href ⊢
  by_cases hlost : fit = .next ∧ A.rover = none
  · obtain ⟨rfl, hr⟩ := hlost
    have hfind : (findFit .next (align size)).run s = .error .fault s :=
      nextFit_lost h hr _
    rw [bind_error hfind] at href
    exact absurd href h0
  have hcomes := findFit_ok (align size) ht he h.listp hA
    (fun ρ hρ => by rw [h.cur, hρ]; rfl) fun hf hr => hlost ⟨hf, hr⟩
  cases hx : A.find fit (align size) with
  | some x =>
      -- a block is found, and nothing is asked of `mem_sbrk`
      rw [hx] at hcomes
      obtain ⟨hpl, hfree, hroom⟩ := Heap.find_spec hx
      obtain ⟨o, b⟩ := x
      obtain ⟨w, hwb, rfl, rfl⟩ := Zip.of_placed hpl
      have hr := w.mid.room_add
      simp only at hfree hroom
      rw [← hwb] at ht
      have hplace := place_ok ht hfree (align size)
        (by rw [need_align]; unfold need; omega)
      have hne : R.base + 8 + 8 + w.off ≠ 0 := by omega
      rw [bind_ok (hcomes.trans hplace), if_pos hne] at href
      have hquiet := quiet_bind (quiet_pure (R.base + 8 + 8 + w.off))
        fun p => quiet_reallocDone p fit
      exact absurd ((hquiet _).symm.trans href) h0
  | none =>
      rw [hx] at hcomes
      rw [bind_ok hcomes, if_neg (by decide)] at href ⊢
      refine (refused_bind (doMalloc_refused ht h0)
        (fun p => quiet_reallocDone p fit) href).trans ?_
      exact bind_ok (roverTo_ok fit 0 _)

/-- Growing the last block returns its address, if it returns. -/
theorem growLast_returns {i : Int} {p n q : Nat} {s' : Machine}
    (hrun : (do
      let _ ← extendHeap i
      setRb p n blkAlloc
      reallocDone fit p : M Nat).run s = .ok q s') : q = p := by
  obtain ⟨_, s₁, -, hrest⟩ := bind_returns hrun
  obtain ⟨_, s₂, -, hrest⟩ := bind_returns hrest
  obtain ⟨_, s₃, -, hrest⟩ := bind_returns hrest
  cases hrest
  rfl

/-- A resize to nothing frees, and returns the pointer. -/
theorem realloc_zero {p : Nat} (hp : p ≠ 0) (fit : Fit) :
    implicitMmRealloc fit p 0 = (do
      implicitMmFree fit p
      return p) := by
  unfold implicitMmRealloc
  rw [if_neg hp, if_pos rfl]

/-- A refused `implicit_mm_realloc` of a live block: null and no change,
unless it is the last block. -/
theorem realloc_refused (h : Tiled hp e s z.blocks) (he : e / 8 = 0)
    (hu : z.mid.used = true) (hbig : 8 < z.mid.size)
    (h0 : s.errno ≠ enomem)
    (hbit : z.right = [] → e % 2 = 0)
    (href : (final ((implicitMmRealloc fit (hp + 8 + z.off) size).run
      s)).errno = enomem) :
    (z.right ≠ [] ∧ (implicitMmRealloc fit (hp + 8 + z.off) size).run s
        = .ok 0 { s with errno := enomem }) ∨
      (z.right = [] ∧ z.mid.size < need size ∧
        ∀ s', (implicitMmRealloc fit (hp + 8 + z.off) size).run s
          ≠ .ok 0 s') := by
  by_cases hsize : size = 0
  · -- giving back extends nothing
    subst hsize
    have hquiet := quiet_bind (quiet_implicitMmFree (hp + 8 + z.off) fit)
      (fun _ => quiet_pure (hp + 8 + z.off)) s
    rw [realloc_zero (by omega)] at href
    exact absurd (hquiet.symm.trans href) h0
  have hopen := realloc_checks h hu hbig hsize fit
  have hn := align_mod size
  generalize hnd : u64 (align size + blkHdrSize + blkFtrSize) = n at hopen
  have hle : n ≤ need size ∧ n % 8 = 0 := by
    subst hnd
    unfold u64 need blkHdrSize blkFtrSize
    omega
  rw [hopen] at href ⊢
  by_cases heq : n = z.mid.size
  · rw [if_pos heq] at href
    exact absurd ((quiet_reallocDone _ fit s).symm.trans href) h0
  rw [if_neg heq] at href ⊢
  by_cases hlt : n < z.mid.size
  · rw [if_pos hlt] at href
    refine absurd (Eq.trans (Eq.symm ?_) href) h0
    refine quiet_ite (quiet_bind (quiet_setBlk _ _ _) fun _ =>
      quiet_bind (quiet_nextBlkp _) fun _ =>
        quiet_bind (quiet_setBlk _ _ _) fun _ => ?_) ?_ s
    · exact quiet_reallocDone _ fit
    · exact quiet_reallocDone _ fit
  rw [if_neg hlt] at href ⊢
  have hmore : z.mid.size < n := by omega
  by_cases hlast : z.right = []
  · -- the result of the extension is not looked at
    refine Or.inr ⟨hlast, by omega, fun s' hrun => ?_⟩
    rw [reallocGrow_last h he (hbit hlast) hlast hmore fit size] at hrun
    have := growLast_returns hrun
    omega
  refine Or.inl ⟨hlast, ?_⟩
  by_cases hnext : n ≤ z.absorbNext.mid.size
  · exfalso
    rcases z.absorbNext_cases with ⟨-, hw⟩ | ⟨c, r, hr, hfree, hw⟩
    · rw [hw] at hnext
      omega
    · rw [hw, Blk.join_size] at hnext
      rw [reallocGrow_next_run h hr hfree hle.2 (by omega) hmore hnext]
        at href
      simp only [final, roved_errno] at href
      exact h0 href
  rw [reallocGrow_on h hlast (by omega)] at href ⊢
  by_cases hprev : n ≤ z.absorbPrev.mid.size
  · exfalso
    rcases z.absorbPrev_cases with ⟨-, hw⟩ | ⟨l, c, hl, hfree, hw⟩
    · rw [hw] at hprev
      omega
    · rw [hw, Blk.join_size] at hprev
      rw [reallocPrev_prev_run h hl hfree hle.2 (by omega) hmore hprev]
        at href
      simp only [final, roved_errno] at href
      exact h0 href
  rw [reallocPrev_on h (by omega)] at href ⊢
  -- a new block: `do_malloc` is all that is refused
  obtain ⟨p, htail, hnp⟩ := not_tail h hlast
  unfold reallocNew at href ⊢
  rw [bind_ok htail, if_neg hnp] at href ⊢
  exact refused_bind (doMalloc_refused h h0) (fun p =>
    quiet_ite (quiet_pure 0) (quiet_bind (quiet_blkAvalSize _) fun _ =>
      quiet_bind (quiet_memcpy _ _ _) fun _ =>
        quiet_bind (quiet_implicitMmFree _ fit) fun _ =>
          quiet_bind (quiet_setBlk _ _ _) fun _ =>
            quiet_reallocDone p fit)) href

-- ============================================================== the requests

/-- The machine with `errno` cleared. -/
def cleared (s : Machine) : Machine := { s with errno := 0 }

/-- A `mem_sbrk` call fails while the request is served. -/
def Refused (fit : Fit) (live : List Alloc) (s : Machine) (r : Req) : Prop :=
  (final ((serve (.implicit fit) live r).run (cleared s))).errno = enomem

/-- The request returns null. Memory is as it was, the break is where it
was, and the allocations, which are still live, lie below it. -/
def FailsCleanly (fit : Fit) (live : List Alloc) (s : Machine) (r : Req) :
    Prop :=
  ∃ s', (serve (.implicit fit) live r).run (cleared s) = .ok (0, live) s' ∧
    s'.mem = s.mem ∧ s'.memBrk = s.memBrk ∧
    ∀ a ∈ live, a.ptr + a.size ≤ s'.memBrk

/-- A machine stands for the same state whatever its `errno`. -/
theorem Sim.cleared (h : Sim fit R live s S) :
    Sim fit R live (cleared s) S := by
  obtain ⟨e, ht⟩ := h.rep.tiled
  exact ⟨⟨h.rep.start, h.rep.max, h.rep.listp, ⟨e, ht.start, ht.aligned,
    ht.brk, ht.max, ht.small, ht.tags, ht.last⟩, h.rep.cur⟩, h.ok, h.live⟩

/-- What a request grows does not depend on `errno`. -/
theorem Sim.growsLast_cleared (h : Sim fit R live s S) :
    GrowsLast live (Implicit.cleared s) r ↔ GrowsLast live s r := by
  have hboth : ∀ i n, live[i]? ≠ none →
      (GrowsLast live (Implicit.cleared s) (.realloc i n) ↔
        GrowsLast live s (.realloc i n)) := by
    intro i n hi
    cases hx : S.live[i]? with
    | none =>
        rw [h.live_get, hx] at hi
        exact absurd rfl hi
    | some x =>
        obtain ⟨z, hzb, hzo, -⟩ := h.ok.cursor hx
        rw [h.growsLast hx hzb hzo, h.cleared.growsLast hx hzb hzo]
  constructor
  · intro hg
    have hg' := hg
    obtain ⟨i, n, a, -, rfl, ha, -⟩ := hg'
    exact (hboth i n (by rw [ha]; exact Option.some_ne_none a)).1 hg
  · intro hg
    have hg' := hg
    obtain ⟨i, n, a, -, rfl, ha, -⟩ := hg'
    exact (hboth i n (by rw [ha]; exact Option.some_ne_none a)).2 hg

/-- Live allocations lie below the break. -/
theorem Sim.below (h : Sim fit R live s S) :
    ∀ a ∈ live, a.ptr + a.size ≤ s.memBrk := by
  intro a ha
  obtain ⟨e, ht⟩ := h.rep.tiled
  rw [h.live] at ha
  obtain ⟨x, hx, rfl⟩ := List.mem_map.1 ha
  obtain ⟨b, hb, hpos, hle, hroom⟩ := h.ok.owned.block x hx
  have hsz := need_size hpos hle
  have hbd := placed_bounds hb.1
  have hr := b.room_add
  have hbrk := ht.brk
  show addr R x.1 + x.2 ≤ s.memBrk
  unfold addr
  omega

/-- A request only adds to what its call returns. -/
theorem final_map {α β : Type} {x : M α} {f : α → β} :
    final ((do
      let a ← x
      return f a : M β).run s) = final (x.run s) := by
  rw [run_bind]
  cases x.run s <;> rfl

/-- A refused request, for a new allocation. -/
private theorem enrol_refused (h : Sim fit R live s S) (hcl : Closed s)
    (h0 : s.errno ≠ enomem) {n : Nat}
    (href : (final ((do
      let p ← implicitMmMalloc fit n
      return (p, enrol live p n) : M (Nat × List Alloc)).run s)).errno
        = enomem) :
    ∃ s', (do
      let p ← implicitMmMalloc fit n
      return (p, enrol live p n) : M (Nat × List Alloc)).run s
        = .ok (0, live) s' ∧ s'.mem = s.mem ∧ s'.memBrk = s.memBrk := by
  rw [final_map] at href
  have hrun := malloc_refused h.rep hcl h.ok.heap h0 href
  exact ⟨_, bind_ok hrun, roved_mem fit 0 _, roved_memBrk fit 0 _⟩

/-- A refused request that resizes nothing fails cleanly. -/
private theorem other_refused (h : Sim fit R live s S) (hcl : Closed s)
    (h0 : s.errno ≠ enomem) (hr : ∀ i n, r ≠ .realloc i n)
    (href : (final ((serve (.implicit fit) live r).run s)).errno = enomem) :
    ∃ s', (serve (.implicit fit) live r).run s = .ok (0, live) s' ∧
      s'.mem = s.mem ∧ s'.memBrk = s.memBrk := by
  cases r with
  | malloc n => exact enrol_refused h hcl h0 href
  | reallocNull n => exact enrol_refused h hcl h0 href
  | write i off v =>
      exfalso
      cases hl : live[i]? with
      | none =>
          simp only [serve, hl] at href
          exact h0 href
      | some a =>
          simp only [serve, hl] at href
          split at href <;> exact h0 href
  | free i =>
      exfalso
      cases hl : live[i]? with
      | none =>
          simp only [serve, hl] at href
          exact h0 href
      | some a =>
          simp only [serve, hl] at href
          have hquiet := quiet_bind (quiet_implicitMmFree a.ptr fit)
            (fun _ => quiet_pure ((0, live.eraseIdx i) :
              Nat × List Alloc)) s
          exact h0 (hquiet.symm.trans href)
  | realloc i n => exact absurd rfl (hr i n)

/-- A refused resize of a live allocation fails cleanly, unless it grows
the last block: then it does not return null. -/
private theorem resize_refused (h : Sim fit R live s S) (hf : Fresh R s)
    (h0 : s.errno ≠ enomem) {i n : Nat} {x : Nat × Nat}
    (hx : S.live[i]? = some x)
    (href : (final ((serve (.implicit fit) live (.realloc i n)).run
      s)).errno = enomem) :
    (¬ GrowsLast live s (.realloc i n) ∧ ∃ s',
        (serve (.implicit fit) live (.realloc i n)).run s
          = .ok (0, live) s' ∧ s'.mem = s.mem ∧ s'.memBrk = s.memBrk) ∨
      (GrowsLast live s (.realloc i n) ∧ ∀ s',
        (serve (.implicit fit) live (.realloc i n)).run s
          ≠ .ok (0, live) s') := by
  have hcall : (serve (.implicit fit) live (.realloc i n)).run s = (do
      let p ← implicitMmRealloc fit (addr R x.1) n
      return (p, resized live i p n) : M (Nat × List Alloc)).run s :=
    serve_realloc_call (h.houses.live_at hx) n
  obtain ⟨z, hzb, hzo, hu, ⟨hpos, hle, hroom⟩, -⟩ := h.ok.cursor hx
  have hgrows := h.growsLast (n := n) hx hzb hzo
  obtain ⟨e, ht⟩ := h.rep.tiled
  have hold := need_size hpos hle
  have hr := z.mid.room_add
  have hbit : e % 2 = 0 := ht.last ▸ hf.bit h hzb
  have hz := ht
  rw [← hzb] at hz
  rw [hcall, final_map, ← hzo] at href
  rw [← hzo] at hcall
  rcases realloc_refused hz (ht.last ▸ hf.closed) hu (by omega) h0
      (fun _ => hbit) href with
    ⟨hlast, hrun⟩ | ⟨hlast, hmore, hnull⟩
  · refine Or.inl ⟨fun hg => hlast (hgrows.1 hg).1,
      { s with errno := enomem }, ?_, rfl, rfl⟩
    have hn0 : n ≠ 0 := by
      intro hn0
      subst hn0
      rw [realloc_zero (by omega)] at hrun
      obtain ⟨_, _, -, hret⟩ := bind_returns hrun
      injection hret with hp _
      omega
    have hsame : resized live i 0 n = live := resized_null hn0
    exact hcall.trans ((bind_ok hrun).trans
      (congrArg (fun l => EStateM.Result.ok (0, l) _) hsame))
  · refine Or.inr ⟨hgrows.2 ⟨hlast, hmore⟩, fun s' hs' => ?_⟩
    obtain ⟨p, s₁, hp, hrest⟩ := bind_returns (hcall.symm.trans hs')
    injection hrest with he _
    injection he with hp0 _
    subst hp0
    exact hnull s₁ hp

/-- A refused request fails cleanly, unless it grows the last block: then
it does not return null. -/
theorem serve_refused (h : Sim fit R live s S) (hf : Fresh R s)
    (h0 : s.errno ≠ enomem)
    (href : (final ((serve (.implicit fit) live r).run s)).errno = enomem) :
    (¬ GrowsLast live s r ∧ ∃ s',
        (serve (.implicit fit) live r).run s = .ok (0, live) s' ∧
          s'.mem = s.mem ∧ s'.memBrk = s.memBrk) ∨
      (GrowsLast live s r ∧ ∀ s',
        (serve (.implicit fit) live r).run s ≠ .ok (0, live) s') := by
  by_cases hr : ∃ i n, r = .realloc i n
  · obtain ⟨i, n, rfl⟩ := hr
    cases hx : S.live[i]? with
    | none =>
        have hget := h.live_get i
        rw [hx] at hget
        simp only [serve, hget, Option.map_none] at href
        exact absurd href h0
    | some x => exact resize_refused h hf h0 hx href
  · have hne : ∀ i n, r ≠ .realloc i n := fun i n he => hr ⟨i, n, he⟩
    refine Or.inl ⟨fun hg => ?_, other_refused h hf.closed h0 hne href⟩
    obtain ⟨i, n, -, -, he, -⟩ := hg
    exact hne i n he

-- ================================================================ the runs

/-- After every run, a request during which a `mem_sbrk` call fails comes
to null and leaves everything as it was, exactly if it does not grow the
last block. -/
theorem implicit_refused (fit : Fit) (R : Region) {m : Bytes}
    (hm : Blank R m) {reqs : List Req}
    (hsize : ∀ r ∈ reqs, Sized 0 maxSize r) {ps : List Nat}
    (hrun : (run (.implicit fit) reqs).run (memInit R m)
      = .ok (ps, live) s) (href : Refused fit live s r) :
    FailsCleanly fit live s r ↔ ¬ GrowsLast live s r := by
  obtain ⟨S, hS, hf⟩ :=
    run_returned fit R hm (fun r hr => Sized.int (hsize r hr)) hrun
  have hgrows := hS.growsLast_cleared (r := r)
  rcases serve_refused hS.cleared (s := cleared s) ⟨hf.zero, hf.word⟩
      (show (0 : Nat) ≠ enomem by decide) href with
    ⟨hnot, s', hserve, hmem, hbrk⟩ | ⟨hgr, hne⟩
  · refine ⟨fun _ hc => hnot (hgrows.2 hc), fun _ => ⟨s', hserve, hmem,
      hbrk, fun a ha => ?_⟩⟩
    have := hS.below a ha
    rw [hbrk]
    exact this
  · refine ⟨fun ⟨s', hserve, _⟩ => absurd hserve (hne s'), fun hc =>
      absurd (hgrows.1 hgr) hc⟩

/-- A request served after a run, with `errno` cleared in between. -/
theorem serve_after {reqs : List Req} {s₀ : Machine} {ps : List Nat}
    (hrun : (run (.implicit fit) reqs).run s₀ = .ok (ps, live) s) :
    (do
      let x ← run (.implicit fit) reqs
      modify cleared
      serve (.implicit fit) x.2 r : M (Nat × List Alloc)).run s₀
      = (serve (.implicit fit) live r).run (cleared s) := by
  rw [bind_ok hrun]
  rfl

theorem implicit_refused_sample : ∃ ps live s,
    (run (.implicit .first) [.malloc 16]).run
      (memInit Region.sample fun _ => 0) = .ok (ps, live) s ∧
      Refused .first live s (.malloc maxSize) ∧
      (FailsCleanly .first live s (.malloc maxSize) ↔
        ¬ GrowsLast live s (.malloc maxSize)) := by
  obtain ⟨s, hrun⟩ := of_result? (show result? ((run (.implicit .first)
    [.malloc 16]).run (memInit Region.sample fun _ => 0))
      = some ([24], [⟨24, 16⟩]) by decide +kernel)
  have href : Refused .first [⟨24, 16⟩] s (.malloc maxSize) := by
    unfold Refused
    rw [← serve_after hrun]
    decide +kernel
  exact ⟨_, _, s, hrun, href, implicit_refused .first Region.sample
    sample_blank (by simp [Sized, maxSize]) hrun href⟩

/-- The last block cannot grow: the call writes past the storage. -/
theorem implicit_refused_last : ∃ ps live s,
    (run (.implicit .first) [.malloc 16]).run
      (memInit Region.sample fun _ => 0) = .ok (ps, live) s ∧
      Refused .first live s (.realloc 0 maxSize) ∧
      ¬ FailsCleanly .first live s (.realloc 0 maxSize) := by
  obtain ⟨s, hrun⟩ := of_result? (show result? ((run (.implicit .first)
    [.malloc 16]).run (memInit Region.sample fun _ => 0))
      = some ([24], [⟨24, 16⟩]) by decide +kernel)
  refine ⟨_, _, s, hrun, ?_, fun ⟨s', hserve, _⟩ => ?_⟩
  · unfold Refused
    rw [← serve_after hrun]
    decide +kernel
  · have hnone : result? ((serve (.implicit .first) [⟨24, 16⟩]
        (.realloc 0 maxSize)).run (cleared s)) = none := by
      rw [← serve_after hrun]
      decide +kernel
    rw [hserve] at hnone
    cases hnone

end MallocLab.Proofs.Implicit
