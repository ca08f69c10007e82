/-
The driver on the implicit allocator, under each strategy: the verdict on
a trace (`implicit_verdict`), the numbers of a list of traces that can
all be served (`implicit_main`), and, for traces that resize nothing and
whose blocks would fit side by side, that the verdict is one
(`implicit_footprint`).

The allocator counts on storage that holds zero. A trace that is served
to its end leaves it so, for `clean_up` clears it; after one that is
refused nobody does. So the list of traces goes as far as the first
refusal. And a resize may be refused with any amount of room, where the
last block is free and in the way: that is why `implicit_footprint` is about
traces without one.
-/
import MallocLab.Proofs.Driver.Program
import MallocLab.Proofs.Driver.Room
import MallocLab.Proofs.Implicit.Agree
import MallocLab.Proofs.Implicit.Service
import MallocLab.Proofs.Implicit.Tail

namespace MallocLab.Proofs.Implicit

open Mem Blocks Model Model.Implicit Spec Spec.Implicit
open Proofs.Driver Spec.Driver Spec.Trace

variable {fit : Fit} {R : Region} {A : Implicit.Heap} {bs : List Blk}
  {n o : Nat} {x : Nat × Blk}

-- ================================================================= the start

/-- The driver before its first trace, on blank storage. -/
theorem start_standby (fit : Fit) {R : Region} {m : Bytes}
    (hm : Blank R m) :
    (implicitService fit R).Standby (World.start (memInit R m) ()) :=
  ⟨⟨memInit R m, rfl⟩, hm, fun _ => rfl⟩

-- ================================================================== the room

/-- Handing out a part of a free block makes the heap no larger. -/
theorem fillAt_total (hx : x ∈ placed 0 bs) (hn : 1 ≤ n)
    (hn' : n ≤ 2 ^ 32) (hfit : align n ≤ x.2.room) :
    total (fillAt bs x.1 (need n)) = total bs := by
  obtain ⟨hmod, hmin, -⟩ := need_size hn hn'
  obtain ⟨o, b⟩ := x
  obtain ⟨z, rfl, rfl, rfl⟩ := Zip.of_placed hx
  have hroom := z.mid.room_add
  have hle : need n ≤ z.mid.size := by
    unfold need
    simp only at hfit
    omega
  have hcut := total_cut hmod (by omega) z.mid.aligned hle
  rw [fillAt_blocks]
  unfold Zip.fill Zip.blocks
  simp only [total_append, total_cons, hcut]
  omega

/-- A new block at the end takes its own size at most. -/
theorem grow_total {bs' : List Blk} (hmod : n % 8 = 0) (hmin : 8 ≤ n)
    (h : grow bs n = some (o, bs')) : total bs' ≤ total bs + n := by
  obtain ⟨-, -, rfl⟩ := grow_some h
  rw [total_append, total_cons, total_nil, Blk.of_size true hmod hmin]
  rcases stem_cases bs with ⟨-, hs⟩ | ⟨l, t, rfl, -, hs⟩
  · rw [hs]
    omega
  · rw [hs, total_append]
    omega

/-- While there is room for a new block, an allocation gets one. -/
theorem malloc_total (hrov : Roving fit A) (hn : 1 ≤ n) (hn' : n ≤ 2 ^ 32)
    (hroom : Implicit.lead + total A.blocks + need n ≤ maxHeap) :
    ∃ o A', A.malloc fit n = some (some o, A') ∧
      total A'.blocks ≤ total A.blocks + need n := by
  obtain ⟨hmod, hmin, -⟩ := need_size hn hn'
  unfold Heap.malloc
  rw [if_neg (by omega), if_neg fun hlost => hrov hlost.1 hlost.2]
  cases hfind : A.find fit (align n) with
  | some x =>
      obtain ⟨hx, -, hfit⟩ := Heap.find_spec hfind
      refine ⟨_, _, rfl, ?_⟩
      rw [Heap.settle_blocks, fillAt_total hx hn hn' hfit]
      exact Nat.le_add_right _ _
  | none =>
      cases hgrow : grow A.blocks (need n) with
      | some y =>
          obtain ⟨o, bs⟩ := y
          refine ⟨_, _, rfl, ?_⟩
          rw [Heap.settle_blocks]
          exact grow_total hmod (by omega) hgrow
      | none =>
          -- a free last block in the way would have been found
          obtain ⟨t, ht, hfree, hle⟩ :=
            (grow_room (by omega) hroom).1 hgrow
          obtain ⟨l, hl⟩ := List.getLast?_eq_some_iff.1 ht
          have hlast : (total l, t) ∈ placed 0 A.blocks := by
            rw [hl]
            simp
          have hnot := Heap.find_none hfind hrov hlast
          have hsuits : suits (align n) (total l, t) = true := by
            refine suits_iff.2 ⟨hfree, ?_⟩
            have := t.room_add
            unfold need at hle
            show align n ≤ t.room
            omega
          rw [hsuits] at hnot
          cases hnot

theorem implicit_roomy (fit : Fit) (R : Region) :
    Roomy (implicitService fit R) where
  malloc := fun {A live st s n} hrep hn hn' hroom => by
    obtain ⟨xs, -, hsim⟩ := hrep
    have hstands : Standing fit R A xs s := hsim
    obtain ⟨o, A', hm, htotal⟩ :=
      malloc_total hstands.rover hn
        (Nat.le_trans hn' (show intMax ≤ 2 ^ 32 by decide)) hroom
    refine ⟨(o, A'), obtained_some.2 hm, ?_⟩
    show Implicit.lead + total A'.blocks
      ≤ Implicit.lead + total A.blocks + need n
    omega
  free := fun {A live st s o k} _ => by
    show Implicit.lead + total (A.free fit o).blocks
      ≤ Implicit.lead + total A.blocks
    rw [Heap.free_total]

-- ============================================================ the results

/-- The verdict on a trace, from a heap over blank storage. -/
theorem implicit_verdict (fit : Fit) (R : Region) {m : Bytes}
    (hm : Blank R m) {ops : List TraceOp}
    (htr : Playable 1 intMax [] ops) (tracenum : Int) :
    Verdict tracenum ((evalMmValid (linked (.implicit fit)) ops tracenum).run
        (World.start (memInit R m) ()))
      ((implicitStore fit).follow 0 (implicitStore fit).blank ops) :=
  (evalMmValid_judged (start_standby fit hm) htr).verdict rfl

theorem implicit_verdict_sample : Verdict 0
    ((evalMmValid (linked (.implicit .next)) sampleOps 0).run
      (World.start (memInit Region.sample fun _ => 0) ()))
    ((implicitStore .next).follow 0 (implicitStore .next).blank sampleOps) :=
  implicit_verdict .next _ sample_blank
    (sample_playable (by decide) (by decide)) 0

/-- The loop of `main` over files that say traces that can be served: all
are valid, at the utilization of the abstract heap, and nothing is
printed. -/
theorem implicit_main (fit : Fit) (R : Region) {m : Bytes}
    (hm : Blank R m) {files : List Opened} {traces : List Script}
    (hfiles : List.Forall₂ Readable files traces)
    (htr : ∀ trace ∈ traces, Playable 1 intMax [] trace.ops)
    (hend : ∀ trace ∈ traces, ∃ l, (implicitStore fit).follow 0
      (implicitStore fit).blank trace.ops = .ok l) :
    ∃ w, (evalFiles (linked (.implicit fit)) 0 files).run
        (World.start (memInit R m) ())
      = .ok (traces.map fun trace => (implicitStore fit).stats trace.ops) w ∧
      w.output = [] ∧ numcorrect
        (traces.map fun trace => (implicitStore fit).stats trace.ops)
        = traces.length := by
  rw [evalFiles_readable hfiles]
  have hpass : ∀ trace ∈ traces,
      Passing (implicitService fit R) trace := fun trace ht => by
    obtain ⟨l, hl⟩ := hend trace ht
    refine ⟨htr trace ht, fun k e hk => ?_⟩
    rw [hl] at hk
    cases hk
  obtain ⟨w, hrun, -, hout⟩ :=
    evalTraces_stats (i := 0) (start_standby fit hm) hpass
  have hlines := report_length (i := 0) hpass
  rw [report_nil hend] at hout hlines
  exact ⟨w, hrun, hout, (Nat.zero_add _).symm.trans hlines⟩

/-- A trace served once, and once more. -/
theorem implicit_main_sample : ∃ w,
    (evalFiles (linked (.implicit .best)) 0 (sampleScripts.map opened)).run
      (World.start (memInit Region.sample fun _ => 0) ())
      = .ok (sampleScripts.map
        fun trace => (implicitStore .best).stats trace.ops) w ∧
      w.output = [] ∧ numcorrect (sampleScripts.map
        fun trace => (implicitStore .best).stats trace.ops) = 2 :=
  implicit_main .best _ sample_blank sampleFiles_readable
    (sampleScripts_playable (by decide) (by decide))
    fun trace ht => by
      have hops : trace.ops = sampleOps := sampleScripts_ops ht
      rw [hops]
      have hok : ((implicitStore .best).follow 0
          (implicitStore .best).blank sampleOps).isOk = true := by
        decide +kernel
      cases hl : (implicitStore .best).follow 0
          (implicitStore .best).blank sampleOps with
      | ok l => exact ⟨l, rfl⟩
      | error e =>
          rw [hl] at hok
          cases hok

/-- A trace without resizes whose blocks would all fit into the storage
side by side is valid, and uses the heap to one at most. -/
theorem implicit_footprint (fit : Fit) (R : Region) {m : Bytes}
    (hm : Blank R m) (trace : Script)
    (htr : Playable 1 intMax [] trace.ops)
    (hresize : ∀ op ∈ trace.ops, op.type ≠ .realloc)
    (hroom : 16 + footprint trace.ops ≤ maxHeap) (tracenum : Int) :
    ∃ u w, (evalTrace (linked (.implicit fit)) tracenum trace).run
        (World.start (memInit R m) ()) = .ok ⟨trace.ops.length, 1, u⟩ w ∧
      (peak [] trace.ops : ℚ) / (16 + footprint trace.ops : Nat) ≤ u ∧
      u ≤ 1 ∧ w.output = [] := by
  have hextent : (implicitStore fit).extent (implicitStore fit).init
      = 16 := by
    show Implicit.lead + total (Heap.rove fit (some 0) ⟨[], none⟩).blocks
      = 16
    rw [Heap.rove_blocks]
    rfl
  rw [← hextent] at hroom ⊢
  exact evalTrace_room (implicit_roomy fit R) (start_standby fit hm) trace
    htr (fun op hop hre => absurd hre (hresize op hop)) hroom

/-- Two blocks, the first of them freed. -/
def sampleScript : Script :=
  ⟨2, [StoredOp.op ⟨.alloc, 0, 24⟩, StoredOp.op ⟨.alloc, 1, 100⟩,
    StoredOp.op ⟨.free, 0, 0⟩]⟩

theorem implicit_footprint_sample : ∃ u w,
    (evalTrace (linked (.implicit .next)) 0 sampleScript).run
      (World.start (memInit Region.sample fun _ => 0) ())
        = .ok ⟨3, 1, u⟩ w ∧
      (124 : Nat) / (160 : Nat) ≤ u ∧ u ≤ 1 ∧ w.output = [] := by
  refine implicit_footprint .next _ sample_blank sampleScript ⟨?_, ?_, ?_⟩
    (by decide) (by decide +kernel) 0
  · simp [sampleScript, Lawful, StoredOp.op, cutInt, Int.bmod]
  · intro op hop
    fin_cases hop
    · exact ⟨fun _ => by decide, fun _ => ⟨by decide, by decide⟩⟩
    · exact ⟨fun _ => by decide, fun _ => ⟨by decide, by decide⟩⟩
    · have hfree : ¬ OpType.free = .alloc := by decide
      exact ⟨fun h => absurd h hfree, fun h => absurd rfl h⟩
  · decide

end MallocLab.Proofs.Implicit
