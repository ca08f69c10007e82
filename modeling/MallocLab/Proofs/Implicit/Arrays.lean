/-
To a client program the implicit allocator is private arrays, under each
strategy, and it comes to its end on every program, but for two ways out:
a resize of the last block past the storage, and a search with the rover
lost. Both come after a refused `mem_sbrk` (`implicit_arrays`). A program
that resizes nothing and whose blocks would fit side by side is refused
nothing (`implicit_granting`).

A resize can be refused without one: where the last block is free and as
large as the new block to the byte. So this needs more than that refused
requests set `errno`; a refused resize writes nothing
(`realloc_null`).
-/
import MallocLab.Proofs.Arrays
import MallocLab.Proofs.Driver.Linked
import MallocLab.Proofs.Implicit.Traces

namespace MallocLab.Proofs.Implicit

open Interact Mem Blocks Model Model.Implicit Spec Spec.Implicit

variable {fit : Fit} {R : Region} {live : List Alloc} {s : Machine}
  {S : State} {A A' : Heap} {z : Zip} {r : Req} {n size : Nat}

-- ========================================================= a refused resize

/-- A resize is refused where no way to stay is left, nor to make a new
block. -/
theorem resize_null (h : A.resize fit z n = some (none, A')) :
    z.mid.size < n ∧ z.absorbNext.mid.size < n ∧ z.right ≠ [] ∧
      z.absorbPrev.mid.size < n ∧ grow A.blocks n = none := by
  unfold Heap.resize at h
  split at h
  · cases h
  split at h
  · cases h
  split at h
  · split at h
    · cases h
    · cases h
  split at h
  · cases h
  split at h
  · rename_i hstay hnext hne hprev _ hgrow
    exact ⟨by omega, by omega, hne, by omega, hgrow⟩
  · cases h

/-- And then it writes nothing. -/
theorem realloc_null (h : Rep R s A) (hz : z.blocks = A.blocks)
    (hu : z.mid.used = true) (hbig : 8 < z.mid.size) (hsize : size ≠ 0)
    (hsize' : align size ≤ wordMax)
    (hnull : A.resize fit z (need size) = some (none, A')) :
    ∃ s', (implicitMmRealloc fit (addr R z.off) size).run s = .ok 0 s' ∧
      s'.mem = s.mem := by
  obtain ⟨hmore, hmore', hne, hmore'', hgrow⟩ := resize_null hnull
  obtain ⟨e, ht⟩ := h.tiled
  rw [← hz] at ht
  have hu64 : u64 (align size + blkHdrSize + blkFtrSize) = need size :=
    u64_need (by
      unfold wordMax at hsize'
      unfold need
      omega)
  have hopen := realloc_checks ht hu hbig hsize fit
  rw [hu64, if_neg (by omega), if_neg (by omega)] at hopen
  obtain ⟨s', hrun, hheld⟩ : ∃ s', (reallocNew fit (addr R z.off) size
      (need size) z.mid.size).run s = .ok 0 s' ∧ Held R s A Set.univ s' A :=
    reallocNew_none h hz hne ((u32_need hsize').symm ▸ hgrow) Set.univ
  refine ⟨s', ?_, funext fun x => hheld.keep (Set.mem_univ x)⟩
  rw [show addr R z.off = R.base + 8 + 8 + z.off from rfl, hopen,
    reallocGrow_on ht hne hmore', reallocPrev_on ht hmore'']
  exact hrun

/-- As the client has it: the allocation it could not resize is as it
was. -/
theorem serve_null (h : Sim fit R live s S) {i : Nat} {a : Alloc}
    (ha : live[i]? = some a) (hn : 1 ≤ n) (hn' : n ≤ intMax)
    {S' : State} (hS : S.serve fit (.realloc i n) = some (none, S')) :
    ∃ s', (serve (.implicit fit) live (.realloc i n)).run s
        = .ok (0, live) s' ∧ s'.mem = s.mem := by
  have hget := h.live_get i
  rw [ha] at hget
  obtain ⟨x, hx, -⟩ := Option.map_eq_some_iff.1 hget.symm
  obtain ⟨z, hzb, hzo, hu, ⟨hpos, hle, hroom⟩, -⟩ := h.ok.cursor hx
  obtain ⟨-, hmin, -, hle', -⟩ := need_size hpos hle
  have hr := z.mid.room_add
  have hn0 : ¬ n = 0 := by omega
  simp only [State.serve, hx, if_neg hn0, Heap.realloc_at hzb hzo] at hS
  obtain ⟨⟨o, A⟩, hres, he⟩ := Option.map_eq_some_iff.1 hS
  cases o with
  | some q => cases he
  | none =>
      obtain ⟨s', hrun, hmem⟩ := realloc_null h.rep hzb hu (by omega) hn0
        (align_word (Nat.le_trans hn' (by decide))) hres
      rw [hzo] at hrun
      refine ⟨s', (serve_realloc_call (h.houses.live_at hx) n).trans
        ((bind_ok hrun).trans ?_), hmem⟩
      exact congrArg (fun l => EStateM.Result.ok (0, l) s')
        (resized_null hn0)

-- =============================================================== the programs

/-- What every request keeps: where the rover is lost, a `mem_sbrk` was
refused. -/
structure Lasting (fit : Fit) (R : Region) (live : List Alloc) (s : Machine)
    (S : State) : Prop where
  sim : Sim fit R live s S
  fresh : Fresh R s
  rover : fit = .next → S.heap.rover = none → s.errno = enomem

/-- Serving a request: it returns and keeps what it has to keep, or faults
after a refused `mem_sbrk`. -/
theorem serve_keeps_or (h : Lasting fit R live s S)
    (hr : Sized 0 intMax r) :
    (∃ p live' s', (serve (.implicit fit) live r).run s
        = .ok (p, live') s' ∧ Retains live r p s.mem s'.mem ∧
      ∃ S', Lasting fit R live' s' S') ∨
    ∃ s', (serve (.implicit fit) live r).run s = .error .fault s' ∧
      s'.errno = enomem := by
  have hans := serve_fresh h.sim h.fresh hr
  cases hS : S.serve fit r with
  | none =>
      rw [hS] at hans
      obtain ⟨s', hfault, hwhy⟩ := hans
      refine Or.inr ⟨s', hfault, ?_⟩
      rcases hwhy with he | ⟨hf, hlost⟩
      · exact he
      -- nothing clears `errno`
      have hcall : ∀ i off v, r ≠ .write i off v := by
        intro i off v he
        subst he
        exact absurd hS (Option.some_ne_none _)
      have hserve : Contains (serve (.implicit fit) live r) :=
        Driver.serve_contains hcall
      have hcontained := hserve.final s
      rw [hfault] at hcontained
      rcases hcontained.errno with hsame | hset
      · exact hsame.trans (h.rover hf hlost)
      · exact hset
  | some y =>
      obtain ⟨o, S'⟩ := y
      rw [hS] at hans
      obtain ⟨live', s', hrun, hleft⟩ := hans
      refine Or.inl ⟨_, live', s', hrun, ⟨hleft.kept, ?_⟩, S', hleft.sim,
        hleft.fresh h.sim h.fresh, fun hf hlost => ?_⟩
      · intro i n a he hn hp ha off _
        subst he
        cases o with
        | some o => exact absurd hp (addr_pos R o)
        | none =>
            obtain ⟨s'', hnull, hmem⟩ := serve_null h.sim ha hn hr hS
            injection hnull.symm.trans hrun with _ hs
            rw [← hs, hmem]
      · rcases hleft.rover hlost with hold | hset
        · rcases hleft.errno with hsame | hset
          · exact hsame.trans (h.rover hf hold)
          · exact hset
        · exact hset

/-- Every client program, whatever sizes an `int` can hold it asks for,
ends in what private arrays allow, or faults after a refused
`mem_sbrk`. -/
theorem implicit_arrays (fit : Fit) (R : Region) {m : Bytes}
    (hm : Blank R m) {α : Type} {c : Client α}
    (hc : c.All (Calls (Sized 0 intMax))) :
    (∃ a s, (runClient (.implicit fit) c).run (memInit R m) = .ok a s ∧
      Allowed c a) ∨
    ∃ s, (runClient (.implicit fit) c).run (memInit R m)
        = .error .fault s ∧ s.errno = enomem := by
  obtain ⟨s, hinit, hgo⟩ := init_going fit R hm
  exact play_allowed (I := fun live s => ∃ S, Lasting fit R live s S)
    (fun live s r ⟨S, hS⟩ hr => serve_keeps_or hS hr) hinit
    ⟨_, hgo.sim, hgo.fresh, fun hf hlost => absurd hlost (hgo.rover hf)⟩ hc

theorem implicit_arrays_sample :
    (∃ a s, (runClient (.implicit .next) sampleClient).run
      (memInit Region.sample fun _ => 0) = .ok a s ∧
        Allowed sampleClient a) ∨
    ∃ s, (runClient (.implicit .next) sampleClient).run
      (memInit Region.sample fun _ => 0) = .error .fault s ∧
        s.errno = enomem :=
  implicit_arrays .next _ sample_blank
    (sampleClient_sized (by decide) (by decide))

-- ================================================================= the room

/-- A request for a new block, if there is room for one, is granted and
takes no more; and so is one for none. -/
theorem serve_room (hrov : Roving fit S.heap) (hr : Sized 1 intMax r)
    (hresize : ∀ i n, r ≠ .realloc i n)
    (hroom : lead + total S.heap.blocks + bill (.call r) ≤ maxHeap) :
    ∃ o S', S.serve fit r = some (o, S') ∧ Roving fit S'.heap ∧
      total S'.heap.blocks ≤ total S.heap.blocks + bill (.call r) ∧
      ∀ cs, Grants cs o.isSome r := by
  have halloc : ∀ n, 1 ≤ n → n ≤ intMax →
      lead + total S.heap.blocks + need n ≤ maxHeap →
      ∃ o S', (S.heap.malloc fit n).map (S.enrol n) = some (some o, S') ∧
        Roving fit S'.heap ∧
        total S'.heap.blocks ≤ total S.heap.blocks + need n := by
    intro n hn hn' hroom
    obtain ⟨o, A, hm, htotal⟩ := malloc_total hrov hn
      (Nat.le_trans hn' (show intMax ≤ 2 ^ 32 by decide)) hroom
    refine ⟨o, ⟨A, S.live ++ [(o, n)]⟩, ?_, malloc_roving hm, htotal⟩
    rw [hm]
    rfl
  cases r with
  | malloc n =>
      obtain ⟨o, S', hS, hrov', htotal⟩ := halloc n hr.1 hr.2 hroom
      exact ⟨some o, S', hS, hrov', htotal, fun _ => rfl⟩
  | reallocNull n =>
      obtain ⟨o, S', hS, hrov', htotal⟩ := halloc n hr.1 hr.2 hroom
      exact ⟨some o, S', hS, hrov', htotal, fun _ => rfl⟩
  | free i =>
      cases hx : S.live[i]? with
      | none =>
          refine ⟨none, S, ?_, hrov, Nat.le_add_right _ _, fun _ => trivial⟩
          simp only [State.serve, hx]
      | some x =>
          refine ⟨none, ⟨S.heap.free fit x.1, S.live.eraseIdx i⟩, ?_,
            free_roving hrov, ?_, fun _ => trivial⟩
          · simp only [State.serve, hx]
          · rw [Heap.free_total]
            exact Nat.le_add_right _ _
  | realloc i n => exact absurd rfl (hresize i n)
  | write i off v =>
      exact ⟨none, S, rfl, hrov, Nat.le_add_right _ _, fun _ => trivial⟩

/-- As the machine serves it. -/
theorem serve_granted (h : Sim fit R live s S) (hf : Fresh R s)
    (hrov : Roving fit S.heap) (hr : Sized 1 intMax r)
    (hresize : ∀ i n, r ≠ .realloc i n)
    (hroom : lead + total S.heap.blocks + bill (.call r) ≤ maxHeap) :
    ∃ p live' s', (serve (.implicit fit) live r).run s
        = .ok (p, live') s' ∧ Retains live r p s.mem s'.mem ∧
      (∀ cs : List Cells, Grants cs (decide (p ≠ 0)) r) ∧
      ∃ S', Sim fit R live' s' S' ∧ Fresh R s' ∧ Roving fit S'.heap ∧
        total S'.heap.blocks ≤ total S.heap.blocks + bill (.call r) := by
  obtain ⟨o, S', hS, hrov', htotal, hgrants⟩ :=
    serve_room hrov hr hresize hroom
  have hans := serve_fresh h hf (hr.mono (Nat.zero_le 1) (Nat.le_refl _))
  rw [hS] at hans
  obtain ⟨live', s', hrun, hleft⟩ := hans
  have hasked : decide (ptrOf R o ≠ 0) = o.isSome := by
    cases o with
    | none => rfl
    | some o => exact decide_eq_true (addr_pos R o)
  refine ⟨_, live', s', hrun, ⟨hleft.kept, ?_⟩, ?_, S', hleft.sim,
    hleft.fresh h hf, hrov', htotal⟩
  · intro i n a he
    exact absurd he (hresize i n)
  · rw [hasked]
    exact hgrants

/-- Every client program that resizes nothing and whose blocks would all
fit into the storage side by side ends in what private arrays allow that
are refused nothing. -/
theorem implicit_granting (fit : Fit) (R : Region) {m : Bytes}
    (hm : Blank R m) {α : Type} {c : Client α}
    (hc : c.All (Calls fun r =>
      Sized 1 intMax r ∧ ∀ i n, r ≠ .realloc i n))
    (hroom : c.Within bill (maxHeap - 16)) :
    ∃ a s, (runClient (.implicit fit) c).run (memInit R m) = .ok a s ∧
      Granting c a := by
  obtain ⟨s, hinit, hgo⟩ := init_going fit R hm
  refine play_granted (I := fun b live s => ∃ S, Sim fit R live s S ∧
    Fresh R s ∧ Roving fit S.heap ∧
    lead + total S.heap.blocks + b ≤ maxHeap) ?_ hinit
    ⟨_, hgo.sim, hgo.fresh, hgo.rover, ?_⟩ hc hroom
  · intro b live s r hinv hr hcost
    obtain ⟨S, hsim, hfresh, hrov, hb⟩ := hinv
    obtain ⟨p, live', s', hrun, hk, hg, S', hsim', hfresh', hrov', htotal⟩ :=
      serve_granted hsim hfresh hrov hr.1 hr.2 (by omega)
    exact ⟨p, live', s', hrun, hk, fun cs _ => hg cs, S', hsim', hfresh',
      hrov', by omega⟩
  · show lead + total (Heap.rove fit (some 0) ⟨[], none⟩).blocks
      + (maxHeap - 16) ≤ maxHeap
    rw [Heap.rove_blocks]
    decide

/-- Allocate, write and read back, and free. -/
def steadyClient : Client UInt8 :=
  .ask (.call (.malloc 16)) fun _ => .ask (.call (.write 0 3 42)) fun _ =>
    .ask (.read 0 3) fun v => .ask (.call (.free 0)) fun _ => .done v

theorem implicit_granting_sample : ∃ a s,
    (runClient (.implicit .next) steadyClient).run
      (memInit Region.sample fun _ => 0) = .ok a s ∧
        Granting steadyClient a := by
  refine implicit_granting .next _ sample_blank ?_ ?_
  · exact ⟨⟨⟨by decide, by decide⟩, nofun⟩, fun _ => ⟨⟨trivial, nofun⟩,
      fun _ => ⟨trivial, fun _ => ⟨⟨trivial, nofun⟩, fun _ => trivial⟩⟩⟩⟩
  · exact ⟨by decide, fun _ => ⟨Nat.zero_le _, fun _ => ⟨Nat.zero_le _,
      fun _ => ⟨Nat.zero_le _, fun _ => trivial⟩⟩⟩⟩

end MallocLab.Proofs.Implicit
