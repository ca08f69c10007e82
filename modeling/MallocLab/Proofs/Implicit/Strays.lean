/-
Where implicit.c leaves its heap: once, and in every run.

`extend_heap` closes the heap with `SET_EB(NEXT_BLKP(old_brkp))`. Between
calls there is a closing word below the old break and `NEXT_BLKP` reads
its size, zero. While `implicit_mm_init` runs there is no heap yet: what
is read, and then written as the closing word, are the four bytes below
`mem_start_brk`. segregate.c's `extend_heap` closes the heap with
`SET_EB(mem_sbrk(0))` and does not leave it.

Everything later stays inside (`serveAll_strays`), so that the accesses
outside the heap of a whole run are these two (`run_strays`).
-/
import MallocLab.Proofs.Implicit.Runs

namespace MallocLab.Proofs.Implicit

open Mem Blocks Model Model.Implicit Spec.Implicit

variable {fit : Fit} {R : Region} {live : List Alloc} {s : Machine}
  {S : State}

/-- Every access so far lay between `mem_start_brk` and the break of its
moment. -/
def Inside (s : Machine) : Prop := s.strays = []

/-- The accesses outside the heap of a run: `implicit_mm_init` reads and
writes the word before it. -/
def initStrays (R : Region) : List (Nat × Nat) :=
  [(R.base - 4, 4), (R.base - 4, 4)]

/-- Initialisation leaves the heap twice. -/
theorem init_strays (fit : Fit) (R : Region) {m : Bytes} (hm : Blank R m) :
    ∃ s, (mmInit (.implicit fit)).run (memInit R m) = .ok 0 s ∧
      Going fit R [] s ⟨Heap.init fit, []⟩ ∧ s.strays = initStrays R := by
  obtain ⟨s, hrun, hgo⟩ := init_going fit R hm
  injection hrun.symm.trans (implicitMmInit_run R m fit hm.word) with _ hs
  refine ⟨s, hrun, hgo, ?_⟩
  rw [hs]
  exact roved_strays fit _ _

/-- No request whose extensions are granted leaves the heap, and so no
list of them does. -/
theorem serveAll_strays {reqs : List Req} (h : Going fit R live s S)
    (hsize : ∀ r ∈ reqs, Sized 0 intMax r)
    (hg : Along (.implicit fit) (Granted fit) live s reqs) :
    ∃ ps live' s', (serveAll (.implicit fit) live reqs).run s
        = .ok (ps, live') s' ∧ s'.strays = s.strays := by
  -- the invariant: the machine goes on, and no access was added
  have hinv := serveAll_inv
    (I := fun live' s' => (∃ S', Going fit R live' s' S') ∧
      s'.strays = s.strays)
    (fun live₁ s₁ r hI hC => by
      obtain ⟨⟨S₁, h₁⟩, hs₁⟩ := hI
      obtain ⟨hgr, hr⟩ := hC
      obtain ⟨o, S₂, live₂, s₂, -, hrun, hleft, h₂⟩ := serve_step h₁ hr hgr
      exact ⟨_, live₂, s₂, hrun, ⟨S₂, h₂⟩, hleft.grew.strays.trans hs₁⟩)
    ⟨⟨S, h⟩, rfl⟩ (along_and_all hg hsize)
  obtain ⟨ps, live', s', hrun, -, hs'⟩ := hinv
  exact ⟨ps, live', s', hrun, hs'⟩

/-- Every run returns, and leaves the heap in its initialisation and
nowhere else. -/
theorem run_strays (fit : Fit) (R : Region) {m : Bytes} (hm : Blank R m)
    {reqs : List Req} (hsize : ∀ r ∈ reqs, Sized 0 intMax r)
    (hg : Throughout (.implicit fit) (Granted fit) (memInit R m) reqs) :
    ∃ ps live s, (run (.implicit fit) reqs).run (memInit R m)
      = .ok (ps, live) s ∧ s.strays = initStrays R := by
  obtain ⟨s₀, hinit, hgo, hs₀⟩ := init_strays fit R hm
  obtain ⟨ps, live, s, hrun, hs⟩ :=
    serveAll_strays hgo hsize (hg 0 s₀ hinit)
  refine ⟨ps, live, s, ?_, hs.trans hs₀⟩
  unfold run
  rw [bind_ok hinit]
  exact hrun

/-- No run stays inside the heap: each has touched the word before it
twice, and nothing else outside. -/
theorem implicit_outside (fit : Fit) (R : Region) {m : Bytes}
    (hm : Blank R m) {reqs : List Req}
    (hsize : ∀ r ∈ reqs, Sized 0 maxSize r)
    (hg : Throughout (.implicit fit) (Granted fit) (memInit R m) reqs) :
    ∃ ps live s, (run (.implicit fit) reqs).run (memInit R m)
      = .ok (ps, live) s ∧ ¬ Inside s ∧ s.strays = initStrays R := by
  obtain ⟨ps, live, s, hrun, hs⟩ :=
    run_strays fit R hm (fun r hr => Sized.int (hsize r hr)) hg
  refine ⟨ps, live, s, hrun, ?_, hs⟩
  intro hin
  unfold Inside at hin
  rw [hs] at hin
  exact absurd hin (List.cons_ne_nil _ _)

theorem implicit_outside_sample : ∃ ps live s,
    (run (.implicit .next) sampleReqs).run (memInit Region.sample fun _ => 0)
      = .ok (ps, live) s ∧ ¬ Inside s ∧
      s.strays = initStrays Region.sample :=
  implicit_outside .next _ sample_blank
    (fun r hr => (sample_sized r hr).mono (by decide) (Nat.le_refl _))
    sample_granted

/-- The shortest run, on a heap at address 8: it ends having read and
written the word at 4. -/
theorem implicit_outside_init :
    Blank Region.sample (fun _ => 0) ∧
    (∀ r ∈ ([] : List Req), Sized 0 maxSize r) ∧
    Throughout (.implicit .first) (Granted .first)
      (memInit Region.sample fun _ => 0) [] ∧
    ∃ s, (run (.implicit .first) []).run (memInit Region.sample fun _ => 0)
      = .ok ([], []) s ∧ ¬ Inside s ∧ s.strays = [(4, 4), (4, 4)] := by
  refine ⟨sample_blank, fun r hr => absurd hr List.not_mem_nil,
    fun _ _ _ => True.intro, ?_⟩
  obtain ⟨s, hrun, hs⟩ := of_reading Machine.strays (show result? ((do
      let x ← run (.implicit .first) []
      return (x, (← get).strays) : M _).run
        (memInit Region.sample fun _ => 0))
      = some (([], []), [(4, 4), (4, 4)]) by decide +kernel)
  refine ⟨s, hrun, fun hin => ?_, hs⟩
  exact absurd (hs.symm.trans hin) (List.cons_ne_nil _ _)

end MallocLab.Proofs.Implicit
