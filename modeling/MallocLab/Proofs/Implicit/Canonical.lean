/-
The heap list of the implicit allocator has no memory: as long as no
resize leaves a rest in front of a free block, it is a function of the
live allocations and the break. Whatever run led there, and under
whichever strategy: the strategies disagree about where a block goes, and
about nothing else (`implicit_canonical`).

A block is as big as its size asks for, so the live allocations say what
is in use (`owned_useds`); what lies between is one free block each time.

# The rover

It is not part of the heap list, and it does remember: it is where the
last request left it.
-/
import MallocLab.Proofs.Implicit.Coalesced

namespace MallocLab.Proofs.Implicit

open Mem Blocks Model Model.Implicit Spec.Implicit

variable {fit fit₁ fit₂ : Fit} {R : Region} {live live₁ live₂ : List Alloc}
  {s s' s₁ s₂ : Machine} {A A' : Heap} {S S₁ S₂ : State} {m m₁ m₂ : Bytes}
  {reqs reqs₁ reqs₂ : List Req} {ps ps₁ ps₂ : List Nat} {n o p : Nat}

-- ============================================================ on the heap

/-- The blocks in use are as the live allocations ask for. -/
theorem owned_useds (h : State.Ok fit S) {b : Blk} :
    (o, b) ∈ marked true 0 S.heap.blocks ↔
      ∃ n, (o, n) ∈ S.live ∧ b = Blk.of (need n) true := by
  have hexact : ∀ {n : Nat} {c : Blk}, (o, c) ∈ marked true 0 S.heap.blocks →
      exact n c → c = Blk.of (need n) true := by
    rintro n c hc ⟨hpos, hle, hroom⟩
    obtain ⟨hmod, hmin, -⟩ := need_size hpos hle
    have hr := c.room_add
    refine Blk.ext ?_ hc.2
    rw [Blk.of_size true hmod (by omega)]
    unfold need
    omega
  constructor
  · intro hb
    obtain ⟨⟨q, n⟩, hq, rfl⟩ := List.mem_map.1 (h.owned.alloc _ hb)
    obtain ⟨c, hc, hfit⟩ := h.owned.block _ hq
    rw [h.owned.unique _ _ _ hb hc]
    exact ⟨n, hq, hexact hc hfit⟩
  · rintro ⟨n, hn, rfl⟩
    obtain ⟨c, hc, hfit⟩ := h.owned.block _ hn
    rw [← hexact hc hfit]
    exact hc

/-- Heaps that end at one break are as long as each other. -/
theorem Rep.total_eq (h₁ : Rep R s₁ A) (h₂ : Rep R s₂ A')
    (hbrk : s₁.memBrk = s₂.memBrk) : total A.blocks = total A'.blocks := by
  obtain ⟨e₁, ht₁⟩ := h₁.tiled
  obtain ⟨e₂, ht₂⟩ := h₂.tiled
  have hb₁ := ht₁.brk
  have hb₂ := ht₂.brk
  omega

/-- And the other way round. -/
theorem Rep.brk_eq (h₁ : Rep R s₁ A) (h₂ : Rep R s₂ A')
    (htotal : total A.blocks = total A'.blocks) :
    s₁.memBrk = s₂.memBrk := by
  obtain ⟨e₁, ht₁⟩ := h₁.tiled
  obtain ⟨e₂, ht₂⟩ := h₂.tiled
  have hb₁ := ht₁.brk
  have hb₂ := ht₂.brk
  omega

/-- The heap list of a represented heap that is closed. -/
theorem Rep.heapList (h : Rep R s A) (hcl : Closed s) :
    HeapList s (seen (R.base + 16) A.blocks) := by
  obtain ⟨e, ht⟩ := h.tiled
  exact ht.heapList (ht.last ▸ hcl) h.listp

/-- What a call leaves on fresh storage is fresh. -/
theorem Held.fresh {K : Set Nat} (hh : Held R s A K s' A') (h : Rep R s A)
    (hf : Fresh R s) : Fresh R s' := by
  obtain ⟨e, ht⟩ := h.tiled
  obtain ⟨e', ht'⟩ := hh.rep.tiled
  have hbrk := ht.brk
  have hmax := ht'.max
  rw [hh.rep.max] at hmax
  exact hf.step hh.grew hmax (by omega)

-- ================================================================ the runs

/-- Extensions are granted, and no resize leaves a rest. -/
def Steady (fit : Fit) (live : List Alloc) (s : Machine) (r : Req) : Prop :=
  Granted fit live s r ∧ LeavesNoRest live s r

/-- A run of such requests comes to a state without free neighbours. -/
theorem run_steady (hm : Blank R m) (hsize : ∀ r ∈ reqs, Sized 1 maxSize r)
    (hg : Throughout (.implicit fit) (Steady fit) (memInit R m) reqs)
    (hrun : (run (.implicit fit) reqs).run (memInit R m)
      = .ok (ps, live) s) :
    ∃ S, Going fit R live s S ∧ Coalesced S.heap.blocks := by
  obtain ⟨s₀, hinit, hgo⟩ := init_going fit R hm
  have hC := along_and_all (hg 0 s₀ hinit) hsize
  have hnil : Coalesced (Heap.init fit).blocks := by
    unfold Heap.init
    rw [Heap.rove_blocks]
    exact List.isChain_nil
  obtain ⟨ps', live', s', hrun', S, hS, hcoal⟩ := serveAll_inv
    (I := fun live s => ∃ S, Going fit R live s S ∧ Coalesced S.heap.blocks)
    (fun live s r ⟨S, hS, hcoal⟩ ⟨⟨hgr, hno⟩, hr⟩ => by
      obtain ⟨o, S', live', s', hans, hrun, -, hgo'⟩ :=
        serve_step hS (Sized.int hr) hgr
      exact ⟨_, live', s', hrun, S', hgo',
        serve_coalesced hS.sim.ok hcoal (flush_of hS.sim hno) hans⟩)
    ⟨_, hgo, hnil⟩ hC
  unfold run at hrun
  rw [bind_ok hinit] at hrun
  injection hrun.symm.trans hrun' with hp hs
  injection hp with _ hl
  subst hl hs
  exact ⟨S, hS, hcoal⟩

/-- A run without resizes that meets no failed extension is steady. -/
theorem steady_run (fit : Fit) (R : Region) (hm : Blank R m)
    (hsize : ∀ r ∈ reqs, Sized 1 maxSize r)
    (hno : ∀ r ∈ reqs, ∀ live s, LeavesNoRest live s r)
    (hrun : (run (.implicit fit) reqs).run (memInit R m)
      = .ok (ps, live) s) (herr : s.errno ≠ enomem) :
    Throughout (.implicit fit) (Steady fit) (memInit R m) reqs :=
  fun q s₀ hinit => along_mono (along_and_all
    (granted_run fit R hm (fun r hr => Sized.int (hsize r hr)) hrun herr
      q s₀ hinit) hno)
    fun live s _ h => ⟨h.1, h.2 live s⟩

/-- States with the same live allocations have the same blocks in use. -/
theorem useds_eq (h₁ : Sim fit₁ R live₁ s₁ S₁) (h₂ : Sim fit₂ R live₂ s₂ S₂)
    (hlive : ∀ a, a ∈ live₁ ↔ a ∈ live₂) :
    marked true 0 S₁.heap.blocks = marked true 0 S₂.heap.blocks := by
  have hinj : Function.Injective (own R) := by
    rintro ⟨o, n⟩ ⟨q, k⟩ he
    injection he with hptr hsize
    unfold addr at hptr
    have ho : o = q := by omega
    have hn : n = k := hsize
    rw [ho, hn]
  have hsame : ∀ x, x ∈ S₁.live ↔ x ∈ S₂.live := by
    intro x
    rw [← List.mem_map_of_injective hinj, ← h₁.live, hlive, h₂.live,
      List.mem_map_of_injective hinj]
  ext ⟨o, b⟩
  rw [owned_useds h₁.ok, owned_useds h₂.ok]
  simp only [hsame]

/-- Two runs, under any strategies, that came to the same break with the
same live allocations came to the same heap list. -/
theorem implicit_canonical (hm₁ : Blank R m₁)
    (hsize₁ : ∀ r ∈ reqs₁, Sized 1 maxSize r)
    (hg₁ : Throughout (.implicit fit₁) (Steady fit₁) (memInit R m₁) reqs₁)
    (hrun₁ : (run (.implicit fit₁) reqs₁).run (memInit R m₁)
      = .ok (ps₁, live₁) s₁)
    (hm₂ : Blank R m₂) (hsize₂ : ∀ r ∈ reqs₂, Sized 1 maxSize r)
    (hg₂ : Throughout (.implicit fit₂) (Steady fit₂) (memInit R m₂) reqs₂)
    (hrun₂ : (run (.implicit fit₂) reqs₂).run (memInit R m₂)
      = .ok (ps₂, live₂) s₂)
    (hlive : ∀ a, a ∈ live₁ ↔ a ∈ live₂) (hbrk : s₁.memBrk = s₂.memBrk) :
    ∃ xs, HeapList s₁ xs ∧ HeapList s₂ xs := by
  obtain ⟨S₁, h₁, hc₁⟩ := run_steady hm₁ hsize₁ hg₁ hrun₁
  obtain ⟨S₂, h₂, hc₂⟩ := run_steady hm₂ hsize₂ hg₂ hrun₂
  have he := coalesced_unique hc₁ hc₂
    (h₁.sim.rep.total_eq h₂.sim.rep hbrk) (useds_eq h₁.sim h₂.sim hlive)
  refine ⟨_, h₁.sim.heapList h₁.fresh.closed, ?_⟩
  rw [he]
  exact h₂.sim.heapList h₂.fresh.closed

/-- One block of forty bytes behind a free one, under two strategies. -/
theorem implicit_canonical_sample : ∃ ps₁ ps₂ s₁ s₂,
    (run (.implicit .first) [.malloc 16, .malloc 40, .free 0]).run
      (memInit Region.sample fun _ => 0) = .ok (ps₁, [⟨48, 40⟩]) s₁ ∧
    (run (.implicit .best)
      [.malloc 16, .malloc 8, .free 1, .malloc 40, .free 0]).run
      (memInit Region.sample fun _ => 0) = .ok (ps₂, [⟨48, 40⟩]) s₂ ∧
    ∃ xs, HeapList s₁ xs ∧ HeapList s₂ xs := by
  obtain ⟨s₁, hs₁, he₁⟩ := of_reading (fun s : Machine => (s.memBrk, s.errno))
    (show result? ((do
      let x ← run (.implicit .first) [.malloc 16, .malloc 40, .free 0]
      return (x, (fun s : Machine => (s.memBrk, s.errno)) (← get)) : M _).run
        (memInit Region.sample fun _ => 0))
      = some (([24, 48, 0], [⟨48, 40⟩]), 96, 0) by decide +kernel)
  obtain ⟨s₂, hs₂, he₂⟩ := of_reading (fun s : Machine => (s.memBrk, s.errno))
    (show result? ((do
      let x ← run (.implicit .best)
        [.malloc 16, .malloc 8, .free 1, .malloc 40, .free 0]
      return (x, (fun s : Machine => (s.memBrk, s.errno)) (← get)) : M _).run
        (memInit Region.sample fun _ => 0))
      = some (([24, 48, 0, 48, 0], [⟨48, 40⟩]), 96, 0) by decide +kernel)
  injection he₁ with hb₁ he₁
  injection he₂ with hb₂ he₂
  have hsize₁ : ∀ r ∈ ([.malloc 16, .malloc 40, .free 0] : List Req),
      Sized 1 maxSize r := by simp [Sized, maxSize]
  have hsize₂ : ∀ r ∈ ([.malloc 16, .malloc 8, .free 1, .malloc 40,
      .free 0] : List Req), Sized 1 maxSize r := by simp [Sized, maxSize]
  exact ⟨_, _, s₁, s₂, hs₁, hs₂, implicit_canonical sample_blank hsize₁
    (steady_run .first _ sample_blank hsize₁ (by simp [LeavesNoRest]) hs₁
      (by rw [he₁]; decide))
    hs₁ sample_blank hsize₂
    (steady_run .best _ sample_blank hsize₂ (by simp [LeavesNoRest]) hs₂
      (by rw [he₂]; decide))
    hs₂ (fun _ => Iff.rfl) (hb₁.trans hb₂.symm)⟩

/-- After every run: what an allocation gets can be given back, and then
the heap list is as it was, if the allocation did not extend the heap. -/
theorem implicit_restores (hm : Blank R m)
    (hsize : ∀ r ∈ reqs, Sized 1 maxSize r)
    (hg : Throughout (.implicit fit) (Steady fit) (memInit R m) reqs)
    (hrun : (run (.implicit fit) reqs).run (memInit R m) = .ok (ps, live) s)
    (hn : n ≤ maxSize) (hmalloc : (implicitMmMalloc fit n).run s = .ok p s₁)
    (hp : p ≠ 0) :
    ∃ s₂, (implicitMmFree fit p).run s₁ = .ok () s₂ ∧
      s₂.memBrk = s₁.memBrk ∧ (s₁.memBrk = s.memBrk →
        ∃ xs, HeapList s xs ∧ HeapList s₂ xs) := by
  obtain ⟨S, hS, hcoal⟩ := run_steady hm hsize hg hrun
  unfold maxSize at hn
  have hserved := implicitMmMalloc_ok hS.sim.rep (fun _ => hS.fresh.closed)
    hS.sim.ok.heap (Nat.le_trans hn (by decide))
  rw [hmalloc] at hserved
  cases hans : S.heap.malloc fit n with
  | none =>
      rw [hans] at hserved
      obtain ⟨s', hfault, -⟩ := hserved
      cases hfault
  | some y =>
      obtain ⟨a, A'⟩ := y
      rw [hans] at hserved
      obtain ⟨s', hok, hheld, -⟩ := hserved
      injection hok with hpa hs'
      subst hs'
      cases a with
      | none => exact absurd hpa hp
      | some o =>
          obtain ⟨-, hfresh, huse⟩ :=
            Heap.malloc_spec hS.sim.ok.heap (by omega) hans
          have hmem : (o, Blk.of (need n) true)
              ∈ marked true 0 A'.blocks := by
            rw [huse]
            exact Set.mem_insert _ _
          obtain ⟨z, hz, rfl, hmid⟩ := Zip.of_placed hmem.1
          have hu : z.mid.used = true := by
            rw [hmid]
            rfl
          have hf₁ := hheld.fresh hS.sim.rep hS.fresh
          obtain ⟨s₂, hfree, hheld'⟩ :=
            implicitMmFree_held fit hheld.rep hz fun _ => hf₁.closed
          have hpo : p = addr R z.off := hpa
          rw [hpo]
          refine ⟨s₂, hfree, hheld'.rep.brk_eq hheld.rep (Heap.free_total _),
            fun hbrk => ?_⟩
          have hA' := (Heap.malloc_spec hS.sim.ok.heap (by omega) hans).1
          have huse' : marked true 0 (A'.free fit z.off).blocks
              = marked true 0 S.heap.blocks := by
            rw [(Heap.free_spec hA' hz hu).2.2, huse, hmid,
              Set.insert_sdiff_self_of_notMem (hfresh _)]
          have he := coalesced_unique
            (free_coalesced (malloc_coalesced hcoal hans) _) hcoal
            ((Heap.free_total _).trans
              (hheld.rep.total_eq hS.sim.rep hbrk)) huse'
          refine ⟨_, hS.sim.heapList hS.fresh.closed, ?_⟩
          rw [← he]
          exact hheld'.rep.heapList
            (hheld'.fresh hheld.rep hf₁).closed

/-- Sixteen bytes out of a free block of forty, and back. -/
theorem implicit_restores_sample : ∃ ps s s₁,
    (run (.implicit .best) [.malloc 40, .free 0]).run
      (memInit Region.sample fun _ => 0) = .ok (ps, []) s ∧
    (implicitMmMalloc .best 16).run s = .ok 24 s₁ ∧
    ∃ s₂, (implicitMmFree .best 24).run s₁ = .ok () s₂ ∧
      s₂.memBrk = s₁.memBrk ∧ (s₁.memBrk = s.memBrk →
        ∃ xs, HeapList s xs ∧ HeapList s₂ xs) := by
  obtain ⟨s₁, hs₁⟩ := of_result? (show result? ((do
      let x ← run (.implicit .best) [.malloc 40, .free 0]
      let t ← get
      let p ← implicitMmMalloc .best 16
      return (x, t.errno, p) : M _).run (memInit Region.sample fun _ => 0))
      = some (([24, 0], []), 0, 24) by decide +kernel)
  obtain ⟨x, s, hs, hrest⟩ := bind_returns hs₁
  obtain ⟨t, s', hget, hrest⟩ := bind_returns hrest
  cases hget
  obtain ⟨p, s', hmalloc, hret⟩ := bind_returns hrest
  injection hret with hret hs'
  injection hret with hx hret
  injection hret with herr hp
  subst hx hp hs'
  have hsize : ∀ r ∈ ([.malloc 40, .free 0] : List Req),
      Sized 1 maxSize r := by simp [Sized, maxSize]
  have hn : 16 ≤ maxSize := by decide
  exact ⟨_, s, _, hs, hmalloc, implicit_restores sample_blank hsize
    (steady_run .best _ sample_blank hsize (by simp [LeavesNoRest]) hs
      (by rw [herr]; decide))
    hs hn hmalloc (by decide)⟩

/-- After every run that has freed all it allocated, the heap is
vacant. -/
theorem implicit_drained (hm : Blank R m)
    (hsize : ∀ r ∈ reqs, Sized 1 maxSize r)
    (hg : Throughout (.implicit fit) (Steady fit) (memInit R m) reqs)
    (hrun : (run (.implicit fit) reqs).run (memInit R m) = .ok (ps, []) s) :
    ∃ xs, HeapList s xs ∧ Vacant (R.base + 16) s xs := by
  obtain ⟨S, hS, hcoal⟩ := run_steady hm hsize hg hrun
  have hlive : S.live = [] := List.map_eq_nil_iff.1 hS.sim.live.symm
  obtain ⟨e, ht⟩ := hS.sim.rep.tiled
  refine ⟨_, hS.sim.heapList hS.fresh.closed, seen_vacant hcoal ?_ ht.brk⟩
  refine Set.eq_empty_iff_forall_notMem.2 fun x hx => ?_
  have hin := hS.sim.ok.owned.alloc x hx
  rw [hlive] at hin
  cases hin

/-- Two blocks, the first freed before the second. -/
theorem implicit_drained_sample : ∃ ps s,
    (run (.implicit .next) [.malloc 16, .malloc 40, .free 0, .free 0]).run
      (memInit Region.sample fun _ => 0) = .ok (ps, []) s ∧
    ∃ xs, HeapList s xs ∧ Vacant 24 s xs := by
  obtain ⟨s, hs, herr⟩ := of_reading Machine.errno (show result? ((do
      let x ← run (.implicit .next)
        [.malloc 16, .malloc 40, .free 0, .free 0]
      return (x, (← get).errno) : M _).run
        (memInit Region.sample fun _ => 0))
      = some (([24, 48, 0, 0], []), 0) by decide +kernel)
  have hsize : ∀ r ∈ ([.malloc 16, .malloc 40, .free 0, .free 0]
      : List Req), Sized 1 maxSize r := by simp [Sized, maxSize]
  exact ⟨_, s, hs, implicit_drained sample_blank hsize
    (steady_run .next _ sample_blank hsize (by simp [LeavesNoRest]) hs
      (by rw [herr]; decide)) hs⟩

end MallocLab.Proofs.Implicit
