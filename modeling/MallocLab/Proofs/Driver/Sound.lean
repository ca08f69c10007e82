/-
Is a verdict of 1 worth anything? The range list is the list of live
payloads throughout, so alignment and the heap's bounds are what they
should be after every request. That the payloads are apart is another
matter: `add_range` asks whether an end of the new range lies in an old
one, and a new payload around an old one passes.

Along a run that comes to 1 the payloads stay apart exactly as long as
the package returns no such payload (`evalMmValid_sound`).
-/
import MallocLab.Proofs.Driver.Watch

namespace MallocLab.Proofs.Driver

open Mem Hoare Model Spec.Driver

variable {σ : Type} {pkg : Package σ} {w w' : World σ} {op : TraceOp}
  {ops : List TraceOp} {live : List Block} {known freed : List Nat}
  {tracenum : Int} {i p : Nat}

-- =============================================================== the traces

/-- The ids that were allocated and not freed name live blocks. -/
def Holds (live : List Block) (known freed : List Nat) : Prop :=
  ∀ id ∈ known, id ∉ freed → ∃ b ∈ live, b.owner = some id

theorem WellFormed.size (h : WellFormed known freed (op :: ops)) :
    op.type ≠ .free → 1 ≤ op.size := by
  unfold WellFormed at h
  cases ht : op.type with
  | alloc =>
      rw [ht] at h
      exact fun _ => h.1
  | realloc =>
      rw [ht] at h
      exact fun _ => h.1
  | free => exact fun hne => absurd rfl hne

/-- What a request names, in a well-formed trace. -/
theorem WellFormed.named (h : WellFormed known freed (op :: ops))
    (hheld : Holds live known freed) (hstale : NotStale live w op) :
    Named live w op := by
  intro hne
  unfold WellFormed at h
  cases ht : op.type with
  | alloc => exact absurd ht hne
  | realloc =>
      by_cases hown : ∃ b ∈ live, b.owner = some op.index
      · exact Or.inl hown
      · exact Or.inr (hstale ht fun b hb he => hown ⟨b, hb, he⟩)
  | free =>
      rw [ht] at h
      exact Or.inl (hheld _ h.1 h.2.1)

/-- The rest of a well-formed trace. -/
theorem WellFormed.rest (h : WellFormed known freed (op :: ops)) :
    ∃ known' freed', WellFormed known' freed' ops ∧ ∀ live p,
      Holds live known freed → Holds (liveNext live op p) known' freed' := by
  unfold WellFormed at h
  cases ht : op.type with
  | alloc =>
      rw [ht] at h
      refine ⟨_, _, h.2, fun live p hheld id hid hfree => ?_⟩
      by_cases he : id = op.index
      · rw [he]
        exact owner_next_self (by rw [ht]; decide)
      · have hid' := (List.mem_cons.1 hid).resolve_left he
        exact owner_next (hheld id hid' hfree) he
  | realloc =>
      rw [ht] at h
      refine ⟨_, _, h.2.2, fun live p hheld id hid hfree => ?_⟩
      by_cases he : id = op.index
      · rw [he]
        exact owner_next_self (by rw [ht]; decide)
      · exact owner_next (hheld id hid hfree) he
  | free =>
      rw [ht] at h
      refine ⟨_, _, h.2.2, fun live p hheld id hid hfree => ?_⟩
      have hne : id ≠ op.index := fun he =>
        hfree (he ▸ List.mem_cons_self)
      exact owner_next (hheld id hid fun hmem =>
        hfree (List.mem_cons_of_mem _ hmem)) hne

-- ============================================================== one request

/-- A payload that passes the checks is apart from every other it does
not enclose. -/
theorem Accepted.apart (h : Watch live w) (hn : Named live w op)
    (h1 : 1 ≤ op.size) (hp : Accepted w op p) {b : Block}
    (hb : b ∈ others live op) (hnot : ¬ Encloses (wanted op p) b) :
    Separate (wanted op p) b := by
  have hfalse := hp.clear (range b)
    (by rw [h.listed_others hn]; exact List.mem_map_of_mem hb)
  have hsize : 1 ≤ (wanted op p).size := by
    show 1 ≤ op.size.toNat
    omega
  have hb1 := ((h.others hn).sized b hb).1
  exact ((overlaps_false hsize hb1).1 hfalse).resolve_right hnot

/-- The payloads stay apart when the new one encloses none. -/
theorem apart_next (h : Watch live w) (hn : Named live w op)
    (h1 : op.type ≠ .free → 1 ≤ op.size)
    (hp : op.type ≠ .free → Accepted w op p) (hapart : live.Pairwise Separate)
    (hnot : op.type ≠ .free →
      ∀ b ∈ others live op, ¬ Encloses (wanted op p) b) :
    (liveNext live op p).Pairwise Separate := by
  have hnew : op.type ≠ .free →
      (wanted op p :: others live op).Pairwise Separate := fun hne =>
    List.pairwise_cons.2 ⟨fun b hb => Accepted.apart h hn (h1 hne) (hp hne) hb
      (hnot hne b hb), apart_others hapart⟩
  unfold liveNext
  cases ht : op.type with
  | alloc => exact hnew (by rw [ht]; decide)
  | realloc => exact hnew (by rw [ht]; decide)
  | free => exact apart_others hapart

-- ================================================================= the runs

/-- While no new payload encloses a live one, what is watched is sound. -/
theorem after_of_along (hw : Watch live w) (hapart : live.Pairwise Separate)
    (hheld : Holds live known freed) (hwf : WellFormed known freed ops)
    (hC : Before pkg tracenum (fun live w op =>
      NoEnclosure pkg live w op ∧ NotStale live w op) i live w ops) :
    After pkg tracenum (fun live w => Sound live w.machine) i live w
      ops := by
  induction ops generalizing i live w known freed with
  | nil => trivial
  | cons op ops ih =>
      intro w' hround
      have h1 := WellFormed.size hwf
      obtain ⟨⟨hnot, hstale⟩, hrest⟩ := hC
      have hrest := hrest w' hround
      obtain ⟨p, w₁, hreq, hpass, rfl⟩ := (evalOp_true hw.backed h1).1 hround
      have hcalled := request_called hreq
      have hw₁ := hw.called hcalled
      have hn : Named live w₁ op := by
        unfold Named
        rw [hcalled.blocks]
        exact WellFormed.named hwf hheld hstale
      obtain ⟨known', freed', hwf', hheld'⟩ := WellFormed.rest hwf
      have hw' := hw₁.outcome hn h1 hpass
      have hapart' := apart_next hw₁ hn h1 hpass hapart
        fun hne => hnot hne p w₁ hreq
      rw [outcome_next] at hrest ⊢
      exact ⟨⟨hw'.placed, hapart'⟩,
        ih hw' hapart' (hheld' live p hheld) hwf' hrest⟩

/-- A round keeps the heap in its storage. -/
theorem outcome_backed (hs : Backed w.machine) :
    Backed (outcome w op p).machine := by
  unfold outcome
  cases op.type with
  | alloc => exact hs.sbrks settled_sbrks
  | realloc => exact hs.sbrks settled_sbrks
  | free => exact hs

/-- In a run that comes to 1, payloads that are sound throughout enclose
none. -/
theorem along_of_after (hs : Backed w.machine)
    (hwf : WellFormed known freed ops)
    (hrun : (evalOps pkg tracenum i ops).run w = .ok 1 w')
    (h : After pkg tracenum (fun live w => Sound live w.machine) i live w
      ops) : Before pkg tracenum (NoEnclosure pkg) i live w ops := by
  induction ops generalizing i live w known freed with
  | nil => trivial
  | cons op ops ih =>
      have h1 := WellFormed.size hwf
      obtain ⟨known', freed', hwf', -⟩ := WellFormed.rest hwf
      obtain ⟨w₂, hround, hrest⟩ := evalOps_cons.1 hrun
      obtain ⟨hsound, hafter⟩ := h w₂ hround
      obtain ⟨p, w₁, hreq, hpass, rfl⟩ := (evalOp_true hs h1).1 hround
      have hs' : Backed (outcome w₁ op p).machine :=
        outcome_backed (hs.sbrks (request_called hreq).sbrks)
      refine ⟨fun hne q w₃ hreq' b hb => ?_, fun w₃ hround' => ?_⟩
      · cases hreq.symm.trans hreq'
        have hapart := hsound.apart
        rw [outcome_next] at hapart
        unfold liveNext at hapart
        cases ht : op.type with
        | free => exact absurd ht hne
        | alloc =>
            rw [ht] at hapart
            exact Separate.not_encloses ((List.pairwise_cons.1 hapart).1 b hb)
        | realloc =>
            rw [ht] at hapart
            exact Separate.not_encloses ((List.pairwise_cons.1 hapart).1 b hb)
      · cases hround.symm.trans hround'
        exact ih hs' hwf' hrest hafter

/-- After a verdict of 1 on a well-formed trace: if no payload returned
encloses a live one, and no freed id passes a live block's address, the
live payloads were sound after every request. If they were, no payload
returned encloses a live one. -/
theorem evalMmValid_sound (pkg : Package σ) (tracenum : Int)
    (hs : Backed w.machine) (hwf : WellFormed [] [] ops)
    (hrun : (evalMmValid pkg ops tracenum).run w = .ok 1 w') :
    (AlwaysBefore pkg tracenum (fun live w op =>
        NoEnclosure pkg live w op ∧ NotStale live w op) w ops →
      AlwaysAfter pkg tracenum (fun live w => Sound live w.machine) w ops) ∧
    (AlwaysAfter pkg tracenum (fun live w => Sound live w.machine) w ops →
      AlwaysBefore pkg tracenum (NoEnclosure pkg) w ops) := by
  obtain ⟨r, w₀, hinit, -, hloop⟩ := evalMmValid_one.1 hrun
  have hw := evalInit_watch hs hinit
  constructor
  · intro h r' w₁ hinit'
    cases hinit.symm.trans hinit'
    exact after_of_along hw List.Pairwise.nil
      (fun id hid => by cases hid) hwf (h r w₀ hinit)
  · intro h r' w₁ hinit'
    cases hinit.symm.trans hinit'
    exact along_of_after hw.backed hwf hloop (h r w₀ hinit)

/-- Eight bytes, and twenty-four. -/
def twoAllocs : List TraceOp :=
  [eight .alloc 0, ⟨.alloc, 1, 24, by decide⟩]

/-- Two payloads side by side. -/
theorem evalMmValid_sound_sample : ∃ w',
    (evalMmValid scripted twoAllocs 0).run
      (World.start (memInit Region.sample fun _ => 0) [16, 32])
      = .ok 1 w' ∧
    (AlwaysBefore scripted 0 (fun live w op =>
        NoEnclosure scripted live w op ∧ NotStale live w op)
      (World.start (memInit Region.sample fun _ => 0) [16, 32]) twoAllocs →
      AlwaysAfter scripted 0 (fun live w => Sound live w.machine)
        (World.start (memInit Region.sample fun _ => 0) [16, 32])
        twoAllocs) ∧
    (AlwaysAfter scripted 0 (fun live w => Sound live w.machine)
      (World.start (memInit Region.sample fun _ => 0) [16, 32]) twoAllocs →
      AlwaysBefore scripted 0 (NoEnclosure scripted)
        (World.start (memInit Region.sample fun _ => 0) [16, 32])
        twoAllocs) := by
  obtain ⟨w', hrun, -⟩ := of_reads (fun _ => ()) (show reads (fun _ => ())
    ((evalMmValid scripted twoAllocs 0).run
      (World.start (memInit Region.sample fun _ => 0) [16, 32]))
    = some (1, ()) by decide +kernel)
  exact ⟨w', hrun, evalMmValid_sound scripted 0 (backed_memInit _ _)
    ⟨by decide, by decide, trivial⟩ hrun⟩

/-- The second payload around the first: the verdict is 1. -/
theorem evalMmValid_unsound :
    WellFormed [] [] twoAllocs ∧
    (∃ w', (evalMmValid scripted twoAllocs 0).run
      (World.start (memInit Region.sample fun _ => 0) [16, 8])
      = .ok 1 w') ∧
    ¬ AlwaysAfter scripted 0 (fun live w => Sound live w.machine)
      (World.start (memInit Region.sample fun _ => 0) [16, 8])
      twoAllocs := by
  -- the state after initialising, and the pointers remembered from there
  have hinit : (evalInit scripted).run
      (World.start (memInit Region.sample fun _ => 0) [16, 8])
      = .ok 0 (World.start { memInit Region.sample fun _ => 0 with
          memBrk := 72 } [16, 8]) := rfl
  obtain ⟨w₁, h₁, hp⟩ := of_reads (fun w : World _ => w.blocks 0) (show reads
    (fun w => w.blocks 0) ((evalOp scripted 0 0
      (eight .alloc 0)).run (World.start
        { memInit Region.sample fun _ => 0 with memBrk := 72 } [16, 8]))
    = some (true, 16) by decide +kernel)
  obtain ⟨w', hrun, hq⟩ := of_reads (fun w : World _ => w.blocks 1) (show reads
    (fun w => w.blocks 1) ((evalMmValid scripted twoAllocs 0).run
      (World.start (memInit Region.sample fun _ => 0) [16, 8]))
    = some (1, 8) by decide +kernel)
  refine ⟨⟨by decide, by decide, trivial⟩, ⟨w', hrun⟩, fun h => ?_⟩
  obtain ⟨r, w₀, hinit', -, hloop⟩ := evalMmValid_one.1 hrun
  cases hinit.symm.trans hinit'
  obtain ⟨w₂, h₂, hloop⟩ := evalOps_cons.1 hloop
  cases h₁.symm.trans h₂
  obtain ⟨w₂, h₂, hloop⟩ := evalOps_cons.1 hloop
  cases hloop
  have hsound := (((h _ _ hinit w₁ h₁).2 w' h₂).1).apart
  rw [show w₁.blocks (eight .alloc 0).index = 16 from hp,
    show w'.blocks _ = 8 from hq] at hsound
  have hapart := (List.pairwise_cons.1 hsound).1 _ List.mem_cons_self
  revert hapart
  unfold Separate
  decide

end MallocLab.Proofs.Driver
