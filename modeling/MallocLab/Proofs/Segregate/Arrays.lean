/-
To a client program the segregated allocator is private arrays, and it
comes to its end on every program, but for one way out: a growing resize
that finds no room copies to null (`segregate_arrays`). A program whose
blocks would fit side by side comes to its end, and is refused nothing
(`segregate_granting`).
-/
import MallocLab.Proofs.Arrays
import MallocLab.Proofs.Segregate.Complete

namespace MallocLab.Proofs.Segregate

open Interact Mem Blocks Model Model.Segregate Spec Spec.Segregated

variable {R : Region} {live : List Alloc} {s : Machine} {S : State}
  {r : Req}

/-- What the state has no answer to is a growing resize without room. -/
theorem serve_died (h : Sim R live s S) (hr : Sized 9 maxSize r)
    (hS : S.serve none r = none) :
    ∃ s', (serve .segregate live r).run s = .error .fault s' ∧
      s'.errno = enomem := by
  cases r with
  | malloc n => exact absurd hS (Option.some_ne_none _)
  | reallocNull n => exact absurd hS (Option.some_ne_none _)
  | write i off v => exact absurd hS (Option.some_ne_none _)
  | free i =>
      unfold State.serve at hS
      simp only at hS
      split at hS
      · cases hS
      · cases hS
  | realloc i n =>
      cases hx : S.live[i]? with
      | none => simp only [State.serve, hx, reduceCtorEq] at hS
      | some x =>
          by_cases hn : n = 0
          · simp only [State.serve, hx, if_pos hn, reduceCtorEq] at hS
          simp only [State.serve, hx, if_neg hn, Option.map_eq_none_iff] at hS
          obtain ⟨z, hzb, hzo, hu, -⟩ := h.ok.cursor hx
          have hn' : n ≤ 2 ^ 31 - 16 := hr
          obtain ⟨-, -, hlt, -, hal, -⟩ := need_size (show 1 ≤ n by omega)
            (show n ≤ 2 ^ 32 by omega)
          unfold need at hlt
          rw [Heap.realloc_at hzb hzo] at hS
          split at hS
          · cases hS
          -- it has to move, and the inner allocation finds nothing
          rename_i hroom
          have hmalloc := Option.map_eq_none_iff.1 hS
          have hmin := h.ok.heap.min z.mid (by rw [← hzb]; simp [Zip.blocks])
          have hr := z.mid.room_add
          have hserved := segregateMmMalloc_large h.rep
            (show 9 ≤ align n by omega) (by omega)
          rw [hmalloc] at hserved
          have hfault := segregateMmRealloc_refused h.rep hzb hu
            (show 1 ≤ n by omega) hroom hserved
          rw [hzo] at hfault
          exact ⟨_, (serve_realloc_call (h.houses.live_at hx) n).trans
            (bind_error hfault), rfl⟩

/-- A resize that returns, returns a pointer, so that nothing is to be
shown of a refused one. -/
theorem serve_refused {o : Option Nat} {S' : State} {m m' : Bytes}
    (h : Sim R live s S) (hS : S.serve none r = some (o, S')) :
    ∀ i n a, r = .realloc i n → 1 ≤ n → ptrOf R o = 0 →
      live[i]? = some a →
      ∀ off < a.size, m' (a.ptr + off) = m (a.ptr + off) := by
  intro i n a he hn hp ha
  subst he
  have hget := h.live_get i
  rw [ha] at hget
  obtain ⟨x, hx, -⟩ := Option.map_eq_some_iff.1 hget.symm
  simp only [State.serve, hx, if_neg (show ¬ n = 0 by omega)] at hS
  obtain ⟨y, -, hy⟩ := Option.map_eq_some_iff.1 hS
  cases hy
  exact absurd hp (addr_pos R y.1)

/-- Serving a request: it returns and keeps what it has to keep, or faults
after a refused `mem_sbrk`. -/
theorem serve_keeps_or (h : Sim R live s S) (hr : Sized 9 maxSize r) :
    (∃ p live' s', (serve .segregate live r).run s = .ok (p, live') s' ∧
      Retains live r p s.mem s'.mem ∧ ∃ S', Sim R live' s' S') ∨
    ∃ s', (serve .segregate live r).run s = .error .fault s' ∧
      s'.errno = enomem := by
  cases hS : S.serve none r with
  | none => exact Or.inr (serve_died h hr hS)
  | some y =>
      obtain ⟨o, S'⟩ := y
      obtain ⟨live', s', hrun, hsim, hkept⟩ := serve_as h hr hS
      exact Or.inl ⟨_, live', s', hrun, ⟨hkept, serve_refused h hS⟩, S', hsim⟩

/-- Every client program whose fresh allocations are of nine bytes or more
ends in what private arrays allow, or faults after a refused
`mem_sbrk`. -/
theorem segregate_arrays (R : Region) (m : Bytes) {α : Type}
    {c : Client α} (hc : c.All (Calls (Sized 9 maxSize))) :
    (∃ a s, (runClient .segregate c).run (memInit R m) = .ok a s ∧
      Allowed c a) ∨
    ∃ s, (runClient .segregate c).run (memInit R m) = .error .fault s ∧
      s.errno = enomem := by
  obtain ⟨s, hinit, hsim⟩ := init_sim R m
  exact play_allowed (I := fun live s => ∃ S, Sim R live s S)
    (fun live s r ⟨S, hS⟩ hr => serve_keeps_or hS hr) hinit ⟨_, hsim⟩ hc

theorem segregate_arrays_sample :
    (∃ a s, (runClient .segregate sampleClient).run
      (memInit Region.sample fun _ => 7) = .ok a s ∧
        Allowed sampleClient a) ∨
    ∃ s, (runClient .segregate sampleClient).run
      (memInit Region.sample fun _ => 7) = .error .fault s ∧
        s.errno = enomem :=
  segregate_arrays _ _ (sampleClient_sized (by decide) (by decide))

-- ================================================================= the room

/-- A request there is room for is granted, and takes no more. -/
theorem serve_room (h : S.Ok) (hr : Sized 9 maxSize r)
    (hroom : lead + total S.heap.blocks + bill (.call r) ≤ maxHeap) :
    ∃ o S', S.serve none r = some (o, S') ∧
      total S'.heap.blocks ≤ total S.heap.blocks + bill (.call r) ∧
      ∀ cs : List Cells, S.live.length = cs.length → Grants cs o.isSome r := by
  have halloc : ∀ n, 9 ≤ n → n ≤ maxSize →
      lead + total S.heap.blocks + need n ≤ maxHeap →
      ∃ o S', S.enrol n (S.heap.malloc none n) = (some o, S') ∧
        total S'.heap.blocks ≤ total S.heap.blocks + need n := by
    intro n hn hn' hroom
    obtain ⟨o, A, hm, htotal⟩ :=
      malloc_total h.heap (show 1 ≤ n by omega) hn' hroom
    exact ⟨o, ⟨A, S.live ++ [(o, n)]⟩, by rw [hm]; rfl, htotal⟩
  cases r with
  | malloc n =>
      obtain ⟨o, S', hS, htotal⟩ := halloc n hr.1 hr.2 hroom
      exact ⟨some o, S', congrArg some hS, htotal, fun _ _ => rfl⟩
  | reallocNull n =>
      obtain ⟨o, S', hS, htotal⟩ := halloc n hr.1 hr.2 hroom
      exact ⟨some o, S', congrArg some hS, htotal, fun _ _ => rfl⟩
  | free i =>
      cases hx : S.live[i]? with
      | none =>
          refine ⟨none, S, ?_, Nat.le_add_right _ _, fun _ _ => trivial⟩
          simp only [State.serve, hx]
      | some x =>
          refine ⟨none, ⟨S.heap.free x.1, S.live.eraseIdx i⟩, ?_, ?_,
            fun _ _ => trivial⟩
          · simp only [State.serve, hx]
          · rw [free_total]
            exact Nat.le_add_right _ _
  | realloc i n =>
      cases hx : S.live[i]? with
      | none =>
          refine ⟨none, S, ?_, Nat.le_add_right _ _, fun cs hcs _ hi => ?_⟩
          · simp only [State.serve, hx]
          · rw [List.getElem?_eq_none_iff] at hx
            omega
      | some x =>
          by_cases hn : n = 0
          · refine ⟨none, ⟨S.heap.free x.1, S.live.eraseIdx i⟩, ?_, ?_,
              fun _ _ hne => absurd hn hne⟩
            · simp only [State.serve, hx, if_pos hn]
            · rw [free_total]
              exact Nat.le_add_right _ _
          have hbill : bill (.call (.realloc i n)) = need n := if_neg hn
          rw [hbill] at hroom ⊢
          obtain ⟨z, -, -, -, -, hmark⟩ := h.cursor hx
          obtain ⟨q, A, hm, htotal⟩ :=
            realloc_total h.heap hmark (show 1 ≤ n by omega) hr hroom
          refine ⟨some q, ⟨A, S.live.set i (q, n)⟩, ?_, htotal,
            fun _ _ _ _ => rfl⟩
          simp only [State.serve, hx, if_neg hn, hm, Option.map_some]
  | write i off v =>
      exact ⟨none, S, rfl, Nat.le_add_right _ _, fun _ _ => trivial⟩

/-- As the machine serves it. -/
theorem serve_granted (h : Sim R live s S) (hr : Sized 9 maxSize r)
    (hroom : lead + total S.heap.blocks + bill (.call r) ≤ maxHeap) :
    ∃ p live' s', (serve .segregate live r).run s = .ok (p, live') s' ∧
      Retains live r p s.mem s'.mem ∧
      (∀ cs : List Cells, live.length = cs.length →
        Grants cs (decide (p ≠ 0)) r) ∧
      ∃ S', Sim R live' s' S' ∧
        total S'.heap.blocks ≤ total S.heap.blocks + bill (.call r) := by
  obtain ⟨o, S', hS, htotal, hgrants⟩ := serve_room h.ok hr hroom
  obtain ⟨live', s', hrun, hsim, hkept⟩ := serve_as h hr hS
  have hasked : decide (ptrOf R o ≠ 0) = o.isSome := by
    cases o with
    | none => rfl
    | some o => exact decide_eq_true (addr_pos R o)
  refine ⟨_, live', s', hrun, ⟨hkept, serve_refused h hS⟩,
    fun cs hcs => ?_, S', hsim, htotal⟩
  rw [hasked]
  refine hgrants cs ?_
  rw [← hcs, h.live, List.length_map]

/-- Every client program whose fresh allocations are of nine bytes or more
and whose blocks would all fit into the storage side by side ends in what
private arrays allow that are refused nothing. -/
theorem segregate_granting (R : Region) (m : Bytes) {α : Type}
    {c : Client α} (hc : c.All (Calls (Sized 9 maxSize)))
    (hroom : c.Within bill (maxHeap - 104)) :
    ∃ a s, (runClient .segregate c).run (memInit R m) = .ok a s ∧
      Granting c a := by
  obtain ⟨s, hinit, hsim⟩ := init_sim R m
  refine play_granted (I := fun b live s => ∃ S, Sim R live s S ∧
    lead + total S.heap.blocks + b ≤ maxHeap) ?_ hinit
    ⟨_, hsim, by decide⟩ hc hroom
  intro b live s r hinv hr hcost
  obtain ⟨S, hsim, hb⟩ := hinv
  obtain ⟨p, live', s', hrun, hk, hg, S', hsim', htotal⟩ :=
    serve_granted hsim hr (by omega)
  exact ⟨p, live', s', hrun, hk, hg, S', hsim', by omega⟩

theorem segregate_granting_sample : ∃ a s,
    (runClient .segregate sampleClient).run
      (memInit Region.sample fun _ => 7) = .ok a s ∧
        Granting sampleClient a :=
  segregate_granting _ _ (sampleClient_sized (by decide) (by decide))
    (sampleClient_within (by decide))

end MallocLab.Proofs.Segregate
