/-
The loop of `main` from the trace files on: over files that say traces it
is the loop over those traces. What follows a read sees nothing of it but
the trace, so two runs that agree on the rest of the files agree on all of
them.
-/
import MallocLab.Proofs.Driver.Passes
import MallocLab.Proofs.Files

namespace MallocLab.Proofs.Driver

open Hoare Model Spec Spec.Trace

variable {σ : Type} {pkg : Package σ} {trace : Script} {file : Opened}
  {files : List Opened} {traces : List Script} {i : Nat}

theorem readFile_readable (h : Readable file trace) (w : World σ) :
    (readFile file : P σ Script).run w = .ok trace w := by
  obtain ⟨t, hread, hscript, -⟩ := @Trace.reads_said trace file.text
    file.size file.calloc file.path file.old h.1 h.2
  unfold readFile
  rw [hread, ← hscript]
  rfl

/-- The loop of `main` over files is the loop over the traces they say. -/
theorem evalFiles_readable (h : List.Forall₂ Readable files traces)
    {w : World σ} :
    (evalFiles pkg i files).run w = (evalTraces pkg i traces).run w := by
  induction h generalizing i w with
  | nil => rfl
  | @cons file trace files traces hfile _ ih =>
      unfold evalFiles evalTraces
      rw [bind_ok (readFile_readable hfile w)]
      cases hone : (evalTrace pkg i trace).run w with
      | error e w₁ => rw [bind_error hone, bind_error hone]
      | ok stats w₁ =>
          rw [bind_ok hone, bind_ok hone]
          have hrest := @ih (i + 1) w₁
          cases hrun : (evalTraces pkg (i + 1) traces).run w₁ with
          | error e w₂ =>
              rw [bind_error hrun, bind_error (hrest.trans hrun)]
          | ok rest w₂ =>
              rw [bind_ok hrun, bind_ok (hrest.trans hrun)]

/-- The file a trace is written to, opened with memory to spare. -/
def opened (trace : Script) : Opened :=
  ⟨"", render trace, Trace.ample, ⟨0, 0, 0, 0, []⟩, 0⟩

/-- The sample traces, written to files. -/
theorem sampleFiles_readable :
    List.Forall₂ Readable (sampleScripts.map opened) sampleScripts := by
  have hsaid : Says (render ⟨2, sampleOps⟩) ⟨2, sampleOps⟩ := by
    refine Trace.says_render ⟨by decide, by decide, by decide, by decide⟩ ?_
    intro op hop
    fin_cases hop <;> exact ⟨by decide, by decide⟩
  have hone : Readable (opened ⟨2, sampleOps⟩) ⟨2, sampleOps⟩ :=
    ⟨hsaid, by decide, by decide, by decide⟩
  exact List.Forall₂.cons hone (List.Forall₂.cons hone List.Forall₂.nil)

end MallocLab.Proofs.Driver
