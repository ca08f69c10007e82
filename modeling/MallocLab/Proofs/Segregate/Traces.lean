/-
The driver on the segregated allocator, from the trace to the numbers it
prints. What a trace comes to is said by the abstract heap alone: the
verdict (`segregate_verdict`), the numbers and the lines of a whole list
of traces (`segregate_main`), and, for traces whose blocks would fit side
by side, that the verdict is one (`segregate_footprint`).

An allocation that was refused leaves nothing behind that another trace
could see; a resize that was refused is the end of the driver.
-/
import MallocLab.Proofs.Driver.Program
import MallocLab.Proofs.Driver.Room
import MallocLab.Proofs.Segregate.Complete
import MallocLab.Proofs.Segregate.Service

namespace MallocLab.Proofs.Segregate

open Mem Blocks Model Model.Segregate Spec Spec.Segregated
open Proofs.Driver Spec.Driver Spec.Trace

variable {R : Region} {s : Machine} {A A' : Segregated.Heap}
  {xs : List (Nat × Nat)} {n o i : Nat} {x : Nat × Nat}

-- ================================================================= the start

/-- The driver before its first trace. -/
theorem start_standby (R : Region) (m : Bytes) :
    (segregateService R).Standby (World.start (memInit R m) ()) :=
  ⟨rfl, memInit R m, rfl⟩

/-- A refused allocation sets `errno`, and that is all. -/
theorem exhausted_standby {w : World Unit}
    (h : Exhausted (segregateService R) w) :
    (segregateService R).Standby w := by
  obtain ⟨A, live, st, s, n, hrep, hn, hn', hnone, hrun⟩ := h
  obtain ⟨xs, -, hsim⟩ := hrep
  have hstands : Standing R A xs s := hsim
  have hserved := segregateMmMalloc_large hstands.rep hn hn'
  rw [show A.malloc none n = none from hnone] at hserved
  have hcall : ((linked .segregate).mmMalloc n st).run s
      = .ok (0, ()) { s with errno := enomem } := bind_ok hserved
  rw [hcall] at hrun
  injection hrun with _ hmachine
  have hshape := hstands.rep.shape
  show Ready R { w.machine with memBrk := w.machine.memStartBrk }
  rw [← hmachine]
  refine ⟨hshape.strays, { s with errno := enomem }, ?_⟩
  unfold emptied
  rw [← hshape.max, ← hshape.start]

/-- A trace that does not die passes. -/
theorem passing {trace : Script} (htr : Playable 9 maxSize [] trace.ops)
    (hlive : ¬ segregateStore.Dies trace.ops) :
    Passing (segregateService R) trace := by
  refine ⟨htr, fun k e hk => ⟨?_, exhausted_standby⟩⟩
  cases e with
  | malloc => rfl
  | death => exact absurd ⟨k, hk⟩ hlive
  | realloc =>
      refine absurd hk (follow_ne_null fun A o n hnull => ?_)
      obtain ⟨y, -, hy⟩ := Option.map_eq_some_iff.1 hnull
      cases hy

-- ================================================================== the room

theorem segregate_roomy (R : Region) : Roomy (segregateService R) where
  malloc := fun {A live st s n} hrep hn hn' hroom => by
    obtain ⟨xs, -, hsim⟩ := hrep
    have hstands : Standing R A xs s := hsim
    have h9 : 9 ≤ n := hn
    obtain ⟨o, A', hm, htotal⟩ :=
      malloc_total (A := A) hstands.rep.ok (by omega) hn' hroom
    refine ⟨(o, A'), hm, ?_⟩
    show Segregated.lead + total A'.blocks
      ≤ Segregated.lead + total A.blocks + need n
    omega
  free := fun {A live st s o k} _ => by
    show Segregated.lead + total (A.free o).blocks
      ≤ Segregated.lead + total A.blocks
    rw [free_total]

theorem segregate_roomyResize (R : Region) :
    RoomyResize (segregateService R) := by
  intro A live st s o k n hrep hn hn' hroom
  obtain ⟨xs, i, hsim, hx, -⟩ :=
    Refinement.Stands.first (V := segregateRefinement R) hrep
  have hstands : Standing R A xs s := hsim
  obtain ⟨b, hb, -⟩ := hstands.block (List.mem_of_getElem? hx)
  obtain ⟨q, A', hr, htotal⟩ :=
    realloc_total (A := A) hstands.rep.ok hb hn hn' hroom
  refine ⟨(q, A'), congrArg (Option.map some) hr, ?_⟩
  show Segregated.lead + total A'.blocks
    ≤ Segregated.lead + total A.blocks + need n
  omega

-- ============================================================ the results

/-- The verdict on a trace, from a heap over any storage. -/
theorem segregate_verdict (R : Region) (m : Bytes) {ops : List TraceOp}
    (htr : Playable 9 maxSize [] ops) (tracenum : Int) :
    Verdict tracenum ((evalMmValid (linked .segregate) ops tracenum).run
        (World.start (memInit R m) ()))
      (segregateStore.follow 0 segregateStore.blank ops) :=
  (evalMmValid_judged (start_standby R m) htr).verdict rfl

theorem segregate_verdict_sample : Verdict 0
    ((evalMmValid (linked .segregate) sampleOps 0).run
      (World.start (memInit Region.sample fun _ => 0) ()))
    (segregateStore.follow 0 segregateStore.blank sampleOps) :=
  segregate_verdict _ _ (sample_playable (by decide) (by decide)) 0

/-- The loop of `main` over files that say such traces: it ends at the
first trace with a resize that finds no room, or it comes to the end,
with the numbers and the lines the abstract heap says, one line for each
trace that is not valid. -/
theorem segregate_main (R : Region) (m : Bytes) {files : List Opened}
    {traces : List Script} (hfiles : List.Forall₂ Readable files traces)
    (htr : ∀ trace ∈ traces, Playable 9 maxSize [] trace.ops) :
    ((∃ trace ∈ traces, segregateStore.Dies trace.ops) ∧
      ∃ w, (evalFiles (linked .segregate) 0 files).run
        (World.start (memInit R m) ()) = .error (.halt (.stop .fault)) w) ∨
    ((∀ trace ∈ traces, ¬ segregateStore.Dies trace.ops) ∧
      ∃ w, (evalFiles (linked .segregate) 0 files).run
          (World.start (memInit R m) ())
        = .ok (traces.map fun trace => segregateStore.stats trace.ops) w ∧
      w.output = segregateStore.report 0 traces ∧ w.errors + numcorrect
        (traces.map fun trace => segregateStore.stats trace.ops)
        = traces.length) := by
  rw [evalFiles_readable hfiles]
  exact evalTraces_ends (start_standby R m) rfl htr
    fun trace ht hlive => passing (htr trace ht) hlive

theorem segregate_main_sample :
    ((∃ trace ∈ sampleScripts, segregateStore.Dies trace.ops) ∧
      ∃ w, (evalFiles (linked .segregate) 0 (sampleScripts.map opened)).run
        (World.start (memInit Region.sample fun _ => 0) ())
          = .error (.halt (.stop .fault)) w) ∨
    ((∀ trace ∈ sampleScripts, ¬ segregateStore.Dies trace.ops) ∧
      ∃ w, (evalFiles (linked .segregate) 0 (sampleScripts.map opened)).run
          (World.start (memInit Region.sample fun _ => 0) ())
        = .ok (sampleScripts.map
          fun trace => segregateStore.stats trace.ops) w ∧
      w.output = segregateStore.report 0 sampleScripts ∧
      w.errors + numcorrect (sampleScripts.map
        fun trace => segregateStore.stats trace.ops) = 2) :=
  segregate_main _ _ sampleFiles_readable
    (sampleScripts_playable (by decide) (by decide))

/-- A trace whose blocks would all fit into the storage side by side is
valid, and uses the heap to one at most. -/
theorem segregate_footprint (R : Region) (m : Bytes) (trace : Script)
    (htr : Playable 9 maxSize [] trace.ops)
    (hroom : 104 + footprint trace.ops ≤ maxHeap) (tracenum : Int) :
    ∃ u w, (evalTrace (linked .segregate) tracenum trace).run
        (World.start (memInit R m) ()) = .ok ⟨trace.ops.length, 1, u⟩ w ∧
      (peak [] trace.ops : ℚ) / (104 + footprint trace.ops : Nat) ≤ u ∧
      u ≤ 1 ∧ w.output = [] :=
  evalTrace_room (segregate_roomy R) (start_standby R m) trace htr
    (fun _ _ _ => segregate_roomyResize R) hroom

theorem segregate_footprint_sample : ∃ u w,
    (evalTrace (linked .segregate) 0 ⟨2, sampleOps⟩).run
      (World.start (memInit Region.sample fun _ => 0) ())
        = .ok ⟨5, 1, u⟩ w ∧
      (peak [] sampleOps : ℚ) / (104 + footprint sampleOps : Nat) ≤ u ∧
      u ≤ 1 ∧ w.output = [] :=
  segregate_footprint _ _ ⟨2, sampleOps⟩
    (sample_playable (by decide) (by decide)) (by decide +kernel) 0

end MallocLab.Proofs.Segregate
