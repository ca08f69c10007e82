/-
The verdict of `eval_mm_valid` on a package that answers as a store does:
the trace followed through the store says it beforehand.

A trace all of whose requests find room gets a verdict of 1, and nothing
is printed. Otherwise the first request that finds none decides: a
refused `mm_malloc` is one line of output, under the number of its line
in the trace file, and a verdict of 0; a refused `mm_realloc` is the
like, if the package survives it.

The invariant is `Tinted`, which the checks of a round rest on, and
`Tallies`, which the package's answers do.
-/
import MallocLab.Proofs.Driver.Serves

namespace MallocLab.Proofs.Driver

open Mem Hoare Model Spec Spec.Driver

variable {σ H : Type} {pkg : Package σ} {S : Store H} {V : Service pkg S}
  {live : List Block} {held : List Nat} {w w' w₁ : World σ}
  {l l' : Ledger H} {op : TraceOp} {ops : List TraceOp} {tracenum : Int}
  {i p : Nat}

-- ====================================================== rounds that go on

theorem Served.output (h : Served V live w l op l' p w₁) :
    w₁.output = w.output := by
  rw [h.frame]

theorem outcome_output : (outcome w op p).output = w.output := by
  unfold outcome settled
  cases op.type <;> rfl

theorem outcome_statics : (outcome w op p).statics = w.statics := by
  unfold outcome settled
  cases op.type <;> rfl

theorem outcome_blocks : (outcome w op p).blocks = noted w op p := by
  unfold outcome settled noted
  cases op.type <;> rfl

/-- The round of a request that was served leaves the driver's pointers
and the package in agreement with the ledger's next page. -/
theorem Served.outcome (hs : Served V live w l op l' p w₁)
    (hl : Tallies V live w l) (hsize : Sizes V.lo V.hi op) :
    Tallies V (liveNext live op p) (Driver.outcome w₁ op p) l' := by
  by_cases hfree : op.type = .free
  · refine hs.tallies hl hsize ?_ outcome_statics outcome_blocks
    unfold Driver.outcome
    rw [hfree]
  -- the pointers are noted, and then the new block is filled
  have hmid : Tallies V (liveNext live op p)
      { Driver.outcome w₁ op p with machine := w₁.machine } l' :=
    hs.tallies hl hsize rfl outcome_statics outcome_blocks
  have hmem : wanted op p ∈ liveNext live op p := by
    unfold liveNext
    cases ht : op.type with
    | free => exact absurd ht hfree
    | alloc => exact List.mem_cons_self
    | realloc => exact List.mem_cons_self
  have hfill := hmid.write hmem
    (m := fill w₁.machine.mem p op.size.toNat (tint op.index))
    fun y hy => fill_of_out hy
  unfold Driver.outcome settled at hfill ⊢
  cases ht : op.type with
  | free => exact absurd ht hfree
  | alloc =>
      simp only [ht] at hfill ⊢
      exact hfill
  | realloc =>
      simp only [ht] at hfill ⊢
      exact hfill

/-- The round of a request that was served goes on. -/
theorem round_goes (tracenum : Int) (i : Nat) (hT : Tinted live w)
    (hheld : Held live held) (htr : Playable V.lo V.hi held (op :: ops))
    (hs : Served V live w l op l' p w₁) :
    (evalOp pkg tracenum i op).run w = .ok true (outcome w₁ op p) ∧
      Tinted (liveNext live op p) (outcome w₁ op p) := by
  have h1 := Lawful.size htr.lawful
  have hown := Lawful.owner htr.lawful hheld
  have hlow := htr.bytes op List.mem_cons_self
  have hc := request_called hs.run
  have hpass : op.type ≠ .free → Accepted w₁ op p := fun hne =>
    (passes_iff hT (h1 hne) hne hown hc hs.honoured).2 hlow
  exact ⟨(evalOp_true hT.watch.backed h1).2 ⟨p, w₁, hs.run, hpass, rfl⟩,
    hT.next hown h1 hc hs.honoured hpass⟩

/-- The rest of a trace the driver is given. -/
theorem Playable.rest {lo hi : Nat}
    (h : Playable lo hi held (op :: ops)) :
    ∃ held', Playable lo hi held' ops ∧ ∀ live p,
      Held live held → Held (liveNext live op p) held' := by
  obtain ⟨held', hlaw, hheld⟩ := Lawful.rest h.lawful
  exact ⟨held', ⟨hlaw, fun x hx => h.sizes x (List.mem_cons_of_mem _ hx),
    fun x hx => h.bytes x (List.mem_cons_of_mem _ hx)⟩, hheld⟩

-- ===================================================== rounds that do not

/-- A call prints nothing. -/
theorem request_output (h : (request pkg op).run w = .ok p w') :
    w'.output = w.output := by
  cases ht : op.type with
  | alloc =>
      rw [request_alloc ht] at h
      obtain ⟨st, s, -, rfl⟩ := call_returns.1 h
      rfl
  | realloc =>
      rw [request_realloc ht] at h
      obtain ⟨st, s, -, rfl⟩ := call_returns.1 h
      rfl
  | free =>
      obtain ⟨st, s, -, rfl⟩ := call_returns.1 ((request_free ht).1 h).2
      rfl

/-- The state with a line printed. -/
def World.said (w : World σ) (line : String) : World σ :=
  { w with output := w.output ++ [line] }

theorem alloc_refused (ht : op.type = .alloc)
    (h : (request pkg op).run w = .ok 0 w₁) :
    (evalOp pkg tracenum i op).run w = .ok false
      (World.said w₁ (errorLine tracenum i "mm_malloc failed.")) := by
  rw [request_alloc ht] at h
  unfold evalOp
  simp only [ht]
  rw [bind_ok h, if_pos rfl]
  rfl

theorem realloc_refused (ht : op.type = .realloc)
    (h : (request pkg op).run w = .ok 0 w₁) :
    (evalOp pkg tracenum i op).run w = .ok false
      (World.said w₁ (errorLine tracenum i "mm_realloc failed.")) := by
  rw [request_realloc ht] at h
  unfold evalOp
  simp only [ht]
  rw [bind_ok (rfl : (get : D σ _).run w = .ok w w), bind_ok h,
    if_pos rfl]
  rfl

theorem realloc_died (ht : op.type = .realloc) {e : Halt}
    (h : (request pkg op).run w = .error e w₁) :
    (evalOp pkg tracenum i op).run w = .error e w₁ := by
  rw [request_realloc ht] at h
  unfold evalOp
  simp only [ht]
  rw [bind_ok (rfl : (get : D σ _).run w = .ok w w)]
  exact bind_error h

-- ================================================================= the loop

/-- A verdict from the state `w`, by what following the trace through the
store comes to. -/
def Judged (V : Service pkg S) (w : World σ) (tracenum : Int)
    (x : EStateM.Result Halt (World σ) Int) :
    Except (Nat × Refusal) (Ledger H) → Prop
  | .ok l' => ∃ live w', x = .ok 1 w' ∧ Tallies V live w' l' ∧
      w'.output = w.output
  | .error (k, .malloc) => ∃ w', x = .ok 0 w' ∧ Exhausted V w' ∧
      w'.output = w.output ++ [errorLine tracenum k "mm_malloc failed."]
  | .error (k, .realloc) => ∃ w', x = .ok 0 w' ∧
      w'.output = w.output ++ [errorLine tracenum k "mm_realloc failed."]
  | .error (_, .death) => ∃ w', x = .error (.stop .fault) w'

/-- A verdict, and what was printed for it. -/
def Verdict (tracenum : Int) (x : EStateM.Result Halt (World σ) Int) :
    Except (Nat × Refusal) (Ledger H) → Prop
  | .ok _ => ∃ w, x = .ok 1 w ∧ w.output = []
  | .error (k, .malloc) => ∃ w, x = .ok 0 w ∧
      w.output = [errorLine tracenum k "mm_malloc failed."]
  | .error (k, .realloc) => ∃ w, x = .ok 0 w ∧
      w.output = [errorLine tracenum k "mm_realloc failed."]
  | .error (_, .death) => ∃ w, x = .error (.stop .fault) w

/-- Judged where nothing was printed before. -/
theorem Judged.verdict {x : EStateM.Result Halt (World σ) Int}
    {y : Except (Nat × Refusal) (Ledger H)} (h : Judged V w tracenum x y)
    (hout : w.output = []) : Verdict tracenum x y := by
  unfold Judged at h
  rw [hout] at h
  match y with
  | .ok l' =>
      obtain ⟨live, w', hx, -, hw'⟩ := h
      exact ⟨w', hx, hw'⟩
  | .error (k, .malloc) =>
      obtain ⟨w', hx, -, hw'⟩ := h
      exact ⟨w', hx, hw'⟩
  | .error (k, .realloc) => exact h
  | .error (k, .death) => exact h

/-- What is judged from a state is judged from any with the same
output. -/
theorem Judged.from {x : EStateM.Result Halt (World σ) Int}
    {y : Except (Nat × Refusal) (Ledger H)} (h : Judged V w tracenum x y)
    (hout : w.output = w'.output) : Judged V w' tracenum x y := by
  unfold Judged at h ⊢
  rw [← hout]
  exact h

/-- A request that is refused ends the loop. -/
theorem refused_judged {e : Refusal} (h : Refused V op w e) :
    Judged V w tracenum
      ((evalOps pkg tracenum i (op :: ops)).run w) (.error (i, e)) := by
  have hstop : ∀ w₂, (evalOp pkg tracenum i op).run w = .ok false w₂ →
      (evalOps pkg tracenum i (op :: ops)).run w = .ok 0 w₂ := by
    intro w₂ hround
    unfold evalOps
    rw [bind_ok hround, if_pos rfl]
    rfl
  cases e with
  | malloc =>
      obtain ⟨ht, w₁, hreq, hexhausted⟩ := h
      exact ⟨_, hstop _ (alloc_refused ht hreq), hexhausted,
        congrArg (· ++ _) (request_output hreq)⟩
  | realloc =>
      obtain ⟨ht, w₁, hreq⟩ := h
      exact ⟨_, hstop _ (realloc_refused ht hreq),
        congrArg (· ++ _) (request_output hreq)⟩
  | death =>
      obtain ⟨ht, w₁, hreq⟩ := h
      refine ⟨w₁, ?_⟩
      unfold evalOps
      exact bind_error (realloc_died ht hreq)

/-- The loop comes to what following the trace through the store says. -/
theorem evalOps_judged (hT : Tinted live w) (hl : Tallies V live w l)
    (hheld : Held live held) (htr : Playable V.lo V.hi held ops) :
    Judged V w tracenum ((evalOps pkg tracenum i ops).run w)
      (S.follow i l ops) := by
  induction ops generalizing i live w l held with
  | nil => exact ⟨live, w, rfl, hl, rfl⟩
  | cons op ops ih =>
      have hsize := htr.sizes op List.mem_cons_self
      have hown := Lawful.owner htr.lawful hheld
      have hcomes := request_serves hl hsize hown
      cases hS : S.step l op with
      | error e =>
          rw [hS] at hcomes
          have hfollow : S.follow i l (op :: ops) = .error (i, e) := by
            unfold Store.follow
            rw [hS]
          rw [hfollow]
          exact refused_judged hcomes
      | ok l' =>
          rw [hS] at hcomes
          obtain ⟨p, w₁, hs⟩ := hcomes
          obtain ⟨held', htr', hheld'⟩ := Playable.rest htr
          obtain ⟨hround, hT'⟩ := round_goes tracenum i hT hheld htr hs
          have hfollow : S.follow i l (op :: ops)
              = S.follow (i + 1) l' ops := by
            rw [Store.follow, hS]
          have hloop : (evalOps pkg tracenum i (op :: ops)).run w
              = (evalOps pkg tracenum (i + 1) ops).run (outcome w₁ op p) := by
            rw [evalOps, bind_ok hround]
            rfl
          rw [hfollow, hloop]
          exact (ih hT' (hs.outcome hl hsize) (hheld' live p hheld)
            htr').from (outcome_output.trans hs.output)

-- ================================================================ the verdict

/-- The machine is ready once the break is reset. -/
def Service.Standby (V : Service pkg S) (w : World σ) : Prop :=
  V.Ready w.statics { w.machine with memBrk := w.machine.memStartBrk }

/-- A ready package, initialised, stands for an empty ledger's heap. -/
theorem Service.starts (V : Service pkg S)
    (h : V.Ready w.statics w.machine) : ∃ r w₀,
    (call pkg.mmInit).run w = .ok r w₀ ∧ 0 ≤ r ∧ Backed w₀.machine ∧
      w₀.ranges = w.ranges ∧ Tallies V [] w₀ S.blank ∧
      w₀.output = w.output := by
  obtain ⟨r, st', s', hrun, hr, hrep⟩ := V.init h
  exact ⟨r, _, call_ok hrun, hr,
    (V.backed h).sbrks (pkg.init_sbrks _ _ _ _ hrun), rfl,
    ⟨hrep, fun b hb => absurd hb List.not_mem_nil,
      fun b hb => absurd hb List.not_mem_nil,
      fun b hb => absurd hb List.not_mem_nil⟩, rfl⟩

/-- Initialising leaves an empty ledger's heap. -/
theorem init_tallies (h : V.Standby w) : ∃ r w₀,
    (evalInit pkg).run w = .ok r w₀ ∧ 0 ≤ r ∧ Tinted [] w₀ ∧
      Tallies V [] w₀ S.blank ∧ w₀.output = w.output := by
  -- the state with the break reset and no ranges, which `mm_init` finds
  obtain ⟨w₁, hw₁⟩ : ∃ w₁, w₁ = { w with
      machine := { w.machine with memBrk := w.machine.memStartBrk }
      ranges := [] } := ⟨_, rfl⟩
  have hcall : (evalInit pkg).run w = (call pkg.mmInit).run w₁ := by
    rw [hw₁]
    rfl
  have hready : V.Ready w₁.statics w₁.machine := by
    rw [hw₁]
    exact h
  obtain ⟨r, w₀, hrun, hr, hs, hranges, hl, hout⟩ := V.starts hready
  refine ⟨r, w₀, hcall.trans hrun, hr,
    ⟨Watch.nil hs ?_, List.Pairwise.nil,
      fun b hb => absurd hb List.not_mem_nil⟩, hl, ?_⟩
  · rw [hranges, hw₁]
  · rw [hout, hw₁]

/-- The verdict is what following the trace through the store says. -/
theorem evalMmValid_judged (h : V.Standby w)
    (htr : Playable V.lo V.hi [] ops) :
    Judged V w tracenum ((evalMmValid pkg ops tracenum).run w)
      (S.follow 0 S.blank ops) := by
  obtain ⟨r, w₀, hinit, hr, hT, hl, hout⟩ := init_tallies h
  have hrun : (evalMmValid pkg ops tracenum).run w
      = (evalOps pkg tracenum 0 ops).run w₀ := by
    unfold evalMmValid
    rw [bind_ok hinit, if_neg (by omega)]
  rw [hrun]
  exact (evalOps_judged hT hl (fun id hid => absurd hid List.not_mem_nil)
    htr).from hout

end MallocLab.Proofs.Driver
