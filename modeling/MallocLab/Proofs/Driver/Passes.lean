/-
What `main` does with a trace, on a package that answers as a store does.

A trace the store follows to its end is run twelve times: once to check
it, once for the space, ten times for the time. Every run goes through
the same heaps, since `clean_up` makes the storage ready again and the
answers do not depend on what the passes write to the blocks. So a trace
that `eval_mm_valid` accepts is one the other passes do not exit on, and
its utilization is the peak of the trace over the extent of the heap the
store comes to: never above one.
-/
import MallocLab.Proofs.Driver.Verdict
import Mathlib.Tactic.FinCases

namespace MallocLab.Proofs.Driver

open Mem Hoare Model Spec Spec.Driver

variable {σ H : Type} {pkg : Package σ} {S : Store H} {V : Service pkg S}
  {live : List Block} {held : List Nat} {w w' w₁ : World σ}
  {l l' l₁ : Ledger H} {op : TraceOp} {ops : List TraceOp}
  {tracenum : Int} {i p : Nat} {t t' : Totals}

-- ====================================================== the first request

theorem follow_cons (h : S.follow i l (op :: ops) = .ok l') :
    ∃ l₁, S.step l op = .ok l₁ ∧ S.follow (i + 1) l₁ ops = .ok l' := by
  rw [Store.follow] at h
  cases hS : S.step l op with
  | error e =>
      rw [hS] at h
      cases h
  | ok l₁ =>
      rw [hS] at h
      exact ⟨l₁, rfl, h⟩

/-- Where no resize returns a null pointer, none ends a trace with one. -/
theorem follow_ne_null (h : ∀ A o n, S.realloc A o n ≠ some none)
    {k : Nat} : S.follow i l ops ≠ .error (k, .realloc) := by
  induction ops generalizing i l with
  | nil => nofun
  | cons op ops ih =>
      rw [Store.follow]
      cases hS : S.step l op with
      | ok l₁ => exact ih
      | error e =>
          intro he
          cases he
          unfold Store.step at hS
          split at hS
          · split at hS <;> cases hS
          · split at hS
            · cases hS
            · exact h _ _ _ (by assumption)
            · cases hS
          · cases hS

/-- A trace that is followed to its end has its first request served. -/
theorem first_served (hl : Tallies V live w l) (hheld : Held live held)
    (htr : Playable V.lo V.hi held (op :: ops))
    (h : S.follow i l (op :: ops) = .ok l') :
    ∃ l₁ p w₁, Served V live w l op l₁ p w₁ ∧
      S.follow (i + 1) l₁ ops = .ok l' := by
  obtain ⟨l₁, hstep, hrest⟩ := follow_cons h
  have hcomes := request_serves hl (htr.sizes op List.mem_cons_self)
    (Lawful.owner htr.lawful hheld)
  rw [hstep] at hcomes
  obtain ⟨p, w₁, hs⟩ := hcomes
  exact ⟨l₁, p, w₁, hs, hrest⟩

theorem Served.sbrks (h : Served V live w l op l₁ p w₁) :
    Sbrks w.machine w₁.machine :=
  (request_called h.run).sbrks

-- ============================================================== the space

theorem recorded_machine : (recorded w op p).machine = w.machine := by
  unfold recorded
  cases op.type <;> rfl

theorem recorded_statics : (recorded w op p).statics = w.statics := by
  unfold recorded
  cases op.type <;> rfl

theorem recorded_output : (recorded w op p).output = w.output := by
  unfold recorded
  cases op.type <;> rfl

theorem recorded_blocks : (recorded w op p).blocks = noted w op p := by
  unfold recorded noted
  cases op.type <;> rfl

/-- The loop of `eval_mm_util` comes to its end, and the heap has grown to
hold the peak. -/
theorem utilOps_serves (tracenum : Int) (t : Totals)
    (hl : Tallies V live w l) (hheld : Held live held)
    (htr : Playable V.lo V.hi held ops)
    (hS : S.follow i l ops = .ok l') :
    ∃ live' t' w', (utilOps pkg tracenum i ops t).run w = .ok t' w' ∧
      Tallies V live' w' l' ∧ w'.output = w.output ∧
      Sbrks w.machine w'.machine ∧
      peak live ops ≤ w'.machine.memBrk - w'.machine.memStartBrk := by
  induction ops generalizing i live w l held t with
  | nil =>
      cases hS
      exact ⟨live, t, w, rfl, hl, rfl, Sbrks.refl _, hl.demand_le⟩
  | cons op ops ih =>
      obtain ⟨l₁, p, w₁, hs, hrest⟩ := first_served hl hheld htr hS
      obtain ⟨held', htr', hheld'⟩ := Playable.rest htr
      have hnext : Tallies V (liveNext live op p) (recorded w₁ op p) l₁ :=
        hs.tallies hl (htr.sizes op List.mem_cons_self) recorded_machine
          recorded_statics recorded_blocks
      obtain ⟨live', t', w', hloop, htally, hout, hsbrks, hpeak⟩ :=
        ih (tallied t w op) hnext (hheld' live p hheld) htr' hrest
      have hgrew := hs.sbrks.trans (recorded_machine ▸ hsbrks)
      refine ⟨live', t', w', ?_, htally, ?_, hgrew, ?_⟩
      · unfold utilOps
        rw [bind_ok (utilOp_iff.2
          ⟨p, w₁, hs.run, hs.honoured.pos, rfl, rfl⟩)]
        exact hloop
      · exact hout.trans (recorded_output.trans hs.output)
      · have hnow := hl.demand_le
        have hstart := hgrew.start
        have hbrk := hgrew.grows
        rw [peak_cons live op ops p]
        omega

/-- `eval_mm_util` on a ready package: it returns the peak of the trace
over the extent of the heap, which holds it. -/
theorem evalMmUtil_serves (tracenum : Int)
    (h : V.Ready w.statics w.machine) (htr : Playable V.lo V.hi [] ops)
    (hS : S.follow 0 S.blank ops = .ok l') :
    ∃ live' w', (evalMmUtil pkg ops tracenum).run w
        = .ok ((peak [] ops : ℚ) / (S.extent l'.heap : ℚ)) w' ∧
      Tallies V live' w' l' ∧ w'.output = w.output ∧
      peak [] ops ≤ S.extent l'.heap := by
  obtain ⟨r, w₀, hinit, hr, hs, -, hl, hout⟩ := V.starts h
  obtain ⟨live', t', w', hloop, htally, hout', hsbrks, hpeak⟩ :=
    utilOps_serves tracenum ⟨0, 0⟩ hl
      (fun id hid => absurd hid List.not_mem_nil) htr hS
  have hrun : (evalMmUtil pkg ops tracenum).run w = .ok
      ((t'.max : ℚ) /
        ((w'.machine.memBrk - w'.machine.memStartBrk : Nat) : ℚ)) w' := by
    unfold evalMmUtil
    rw [bind_ok (plain_ok hinit), if_neg (by omega), bind_ok hloop]
    rfl
  -- the heap is within its storage, and so is the peak
  have hlimit := (hs.sbrks hsbrks).limit
  have hmax := (hs.sbrks hsbrks).max
  have hsmall := maxHeap_lt
  have hext := V.extent htally.rep
  have hvalue := evalMmUtil_returns htr.lawful (by omega) hrun
  have hheap : w'.machine.memBrk - w'.machine.memStartBrk
      = S.extent l'.heap := by omega
  rw [hvalue, hheap] at hrun
  exact ⟨live', w', hrun, htally, hout'.trans hout, by omega⟩

-- =============================================================== the time

/-- The pointer of a request, remembered without its size. -/
def pointed (w : World σ) (op : TraceOp) (p : Nat) : World σ :=
  { w with blocks := noted w op p }

/-- A round of `eval_mm_speed` whose request was served goes on. -/
theorem speedOp_goes (hs : Served V live w l op l₁ p w₁) :
    (speedOp pkg i op).run w = .ok () (pointed w₁ op p) := by
  have hpos := hs.honoured.pos
  have hreq := hs.run
  unfold speedOp pointed noted
  cases ht : op.type with
  | alloc =>
      rw [request_alloc ht] at hreq
      simp only
      exact (returns_unless_null fun w a w' => appError_exits _ w a w').2
        ⟨p, w₁, hreq, hpos (by rw [ht]; decide), rfl⟩
  | realloc =>
      rw [request_realloc ht] at hreq
      simp only
      rw [bind_ok (rfl : (get : P σ _).run w = .ok w w)]
      exact (returns_unless_null fun w a w' =>
        reallocError_exits _ _ _ w a w').2
        ⟨p, w₁, hreq, hpos (by rw [ht]; decide), rfl⟩
  | free =>
      obtain ⟨-, hcall⟩ := (request_free ht).1 hreq
      simp only
      rw [bind_ok (rfl : (get : P σ _).run w = .ok w w)]
      exact plain_ok hcall

/-- The loop of `eval_mm_speed` comes to its end. -/
theorem speedOps_serves (hl : Tallies V live w l) (hheld : Held live held)
    (htr : Playable V.lo V.hi held ops) (hS : S.follow i l ops = .ok l') :
    ∃ live' w', (speedOps pkg i ops).run w = .ok () w' ∧
      Tallies V live' w' l' ∧ w'.output = w.output := by
  induction ops generalizing i live w l held with
  | nil =>
      cases hS
      exact ⟨live, w, rfl, hl, rfl⟩
  | cons op ops ih =>
      obtain ⟨l₁, p, w₁, hs, hrest⟩ := first_served hl hheld htr hS
      obtain ⟨held', htr', hheld'⟩ := Playable.rest htr
      have hnext : Tallies V (liveNext live op p) (pointed w₁ op p) l₁ :=
        hs.tallies hl (htr.sizes op List.mem_cons_self) rfl rfl rfl
      obtain ⟨live', w', hloop, htally, hout⟩ :=
        ih hnext (hheld' live p hheld) htr' hrest
      refine ⟨live', w', ?_, htally, hout.trans hs.output⟩
      unfold speedOps
      rw [bind_ok (speedOp_goes hs)]
      exact hloop

/-- `eval_mm_speed` on a ready package. -/
theorem evalMmSpeed_serves (h : V.Ready w.statics w.machine)
    (htr : Playable V.lo V.hi [] ops) (hS : S.follow 0 S.blank ops = .ok l') :
    ∃ live' w', (evalMmSpeed pkg ops).run w = .ok () w' ∧
      Tallies V live' w' l' ∧ w'.output = w.output := by
  obtain ⟨r, w₀, hinit, hr, -, -, hl, hout⟩ := V.starts h
  obtain ⟨live', w', hloop, htally, hout'⟩ := speedOps_serves hl
    (fun id hid => absurd hid List.not_mem_nil) htr hS
  refine ⟨live', w', ?_, htally, hout'.trans hout⟩
  unfold evalMmSpeed
  rw [bind_ok (plain_ok hinit), if_neg (by omega)]
  exact hloop

-- ================================================================= clean_up

/-- The storage is wiped and the package can be initialised. -/
structure Clean (V : Service pkg S) (w : World σ) : Prop where
  ready : V.Ready w.statics w.machine
  reset : w.machine.memBrk = w.machine.memStartBrk

theorem Clean.standby (h : Clean V w) : V.Standby w := by
  unfold Service.Standby
  rw [← h.reset]
  exact h.ready

/-- `clean_up`, whatever the trace left. -/
theorem Tallies.clean (h : Tallies V live w l) (numIds : Nat) :
    ∃ w', (cleanUp numIds).run w = .ok () w' ∧ Clean V w' ∧
      w'.output = w.output :=
  ⟨_, rfl, ⟨V.clear h.rep, rfl⟩, rfl⟩

/-- The runs for the time, each followed by `clean_up`. -/
theorem ftimer_serves (h : Clean V w) (htr : Playable V.lo V.hi [] ops)
    (hS : S.follow 0 S.blank ops = .ok l') (numIds n : Nat) :
    ∃ w', (ftimerGettod (evalMmSpeed pkg ops) (plain (cleanUp numIds))
        n).run w = .ok () w' ∧ Clean V w' ∧ w'.output = w.output := by
  induction n generalizing w with
  | zero => exact ⟨w, rfl, h, rfl⟩
  | succ n ih =>
      obtain ⟨live', w₁, hspeed, htally, hout⟩ :=
        evalMmSpeed_serves h.ready htr hS
      obtain ⟨w₂, hclean, h₂, hout₂⟩ := htally.clean numIds
      obtain ⟨w', hrest, h', hout'⟩ := ih h₂
      refine ⟨w', ?_, h', hout'.trans (hout₂.trans hout)⟩
      unfold ftimerGettod
      rw [bind_ok hspeed, bind_ok (plain_ok hclean)]
      exact hrest

-- ================================================================== a trace

/-- What `main` does with a trace from the state `w`, by what following
it through the store comes to. -/
def Evaluated (V : Service pkg S) (w : World σ) (tracenum : Int)
    (ops : List TraceOp) (x : EStateM.Result Ended (World σ) Stats) :
    Except (Nat × Refusal) (Ledger H) → Prop
  | .ok l' => ∃ w', x = .ok ⟨ops.length, 1,
      (peak [] ops : ℚ) / (S.extent l'.heap : ℚ)⟩ w' ∧ Clean V w' ∧
      w'.output = w.output ∧ peak [] ops ≤ S.extent l'.heap
  | .error (k, .malloc) => ∃ w', x = .ok ⟨ops.length, 0, 0⟩ w' ∧
      Exhausted V w' ∧ w'.output = w.output ++
        [errorLine tracenum k "mm_malloc failed."]
  | .error (k, .realloc) => ∃ w', x = .ok ⟨ops.length, 0, 0⟩ w' ∧
      w'.output = w.output ++
        [errorLine tracenum k "mm_realloc failed."]
  | .error (_, .death) => ∃ w', x = .error (.halt (.stop .fault)) w'

/-- A trace whose check came to `valid` and left `w₁`. -/
theorem evalTrace_invalid {trace : Script} {w₀ : World σ}
    (hnew : (newArrays : D σ Unit).run w = .ok () w₀)
    (h : (evalMmValid pkg trace.ops tracenum).run w₀ = .ok 0 w₁) :
    (evalTrace pkg tracenum trace).run w
      = .ok ⟨trace.ops.length, 0, 0⟩ w₁ := by
  unfold evalTrace
  rw [bind_ok (plain_ok hnew), bind_ok (plain_ok h)]
  rfl

theorem plain_error {α : Type} {x : D σ α} {e : Halt}
    (h : x.run w = .error e w') :
    (plain x).run w = .error (.halt e) w' := by
  change plain x w = _
  unfold plain
  rw [h]

/-- What `main` does with a trace is what following it through the store
says. -/
theorem evalTrace_evaluated (h : V.Standby w) (trace : Script)
    (htr : Playable V.lo V.hi [] trace.ops) :
    Evaluated V w tracenum trace.ops ((evalTrace pkg tracenum trace).run w)
      (S.follow 0 S.blank trace.ops) := by
  obtain ⟨w₀, hw₀⟩ : ∃ w₀, w₀ = { w with
      blocks := fun _ => 0
      blockSizes := fun _ => 0 } := ⟨_, rfl⟩
  have hnew : (newArrays : D σ Unit).run w = .ok () w₀ := by
    rw [hw₀]
    rfl
  have hstandby : V.Standby w₀ := by
    rw [hw₀]
    exact h
  have hout₀ : w₀.output = w.output := by rw [hw₀]
  have hjudged : Judged V w₀ tracenum
      ((evalMmValid pkg trace.ops tracenum).run w₀) _ :=
    evalMmValid_judged hstandby htr
  cases hS : S.follow 0 S.blank trace.ops with
  | error x =>
      obtain ⟨k, e⟩ := x
      rw [hS] at hjudged
      cases e with
      | malloc =>
          obtain ⟨w₁, hvalid, hex, hout⟩ := hjudged
          exact ⟨w₁, evalTrace_invalid hnew hvalid, hex, hout₀ ▸ hout⟩
      | realloc =>
          obtain ⟨w₁, hvalid, hout⟩ := hjudged
          exact ⟨w₁, evalTrace_invalid hnew hvalid, hout₀ ▸ hout⟩
      | death =>
          obtain ⟨w₁, hvalid⟩ := hjudged
          refine ⟨w₁, ?_⟩
          unfold evalTrace
          rw [bind_ok (plain_ok hnew)]
          exact bind_error (plain_error hvalid)
  | ok l' =>
      rw [hS] at hjudged
      obtain ⟨live₁, w₁, hvalid, htally₁, hout₁⟩ := hjudged
      obtain ⟨w₂, hclean₂, h₂, hout₂⟩ := htally₁.clean trace.numIds
      obtain ⟨live₃, w₃, hutil, htally₃, hout₃, hpeak⟩ :=
        evalMmUtil_serves tracenum h₂.ready htr hS
      obtain ⟨w₄, hclean₄, h₄, hout₄⟩ := htally₃.clean trace.numIds
      obtain ⟨w₅, hspeed, h₅, hout₅⟩ :=
        ftimer_serves h₄ htr hS trace.numIds 10
      refine ⟨w₅, ?_, h₅, ?_, hpeak⟩
      · unfold evalTrace
        rw [bind_ok (plain_ok hnew), bind_ok (plain_ok hvalid),
          if_pos (by decide), bind_ok (plain_ok hclean₂),
          bind_ok hutil, bind_ok (plain_ok hclean₄),
          bind_ok hspeed]
        rfl
      · rw [hout₅, hout₄, hout₃, hout₂, hout₁, hout₀]

-- ===================================================================== main

/-- A trace that ends in a refused allocation, or is followed to its end,
leaves the driver ready for the next one: if the package can be
initialised again where it refused. -/
def Passing (V : Service pkg S) (trace : Script) : Prop :=
  Playable V.lo V.hi [] trace.ops ∧
    ∀ k e, S.follow 0 S.blank trace.ops = .error (k, e) →
      e = .malloc ∧ ∀ {w}, Exhausted V w → V.Standby w

/-- Such a trace, evaluated. -/
theorem Passing.evaluated {trace : Script} (h : Passing V trace)
    (tracenum : Int) (hw : V.Standby w) :
    ∃ w', (evalTrace pkg tracenum trace).run w
        = .ok (S.stats trace.ops) w' ∧ V.Standby w' ∧
      w'.output = w.output ++ S.lines tracenum trace.ops := by
  have hev : Evaluated V w tracenum trace.ops
      ((evalTrace pkg tracenum trace).run w) _ :=
    evalTrace_evaluated hw trace h.1
  unfold Store.stats Store.lines
  cases hS : S.follow 0 S.blank trace.ops with
  | ok l' =>
      rw [hS] at hev
      obtain ⟨w', hrun, hclean, hout, -⟩ := hev
      exact ⟨w', hrun, hclean.standby, by rw [hout, List.append_nil]⟩
  | error x =>
      obtain ⟨k, e⟩ := x
      obtain ⟨rfl, hres⟩ := h.2 k e hS
      rw [hS] at hev
      obtain ⟨w', hrun, hex, hout⟩ := hev
      exact ⟨w', hrun, hres hex, hout⟩

/-- The loop over the traces: the numbers of each are those of its store,
and so are the lines printed. -/
theorem evalTraces_stats {traces : List Script} (hw : V.Standby w)
    (h : ∀ trace ∈ traces, Passing V trace) :
    ∃ w', (evalTraces pkg i traces).run w
        = .ok (traces.map fun trace => S.stats trace.ops) w' ∧
      V.Standby w' ∧ w'.output = w.output ++ S.report i traces := by
  induction traces generalizing i w with
  | nil => exact ⟨w, rfl, hw, (List.append_nil _).symm⟩
  | cons trace traces ih =>
      obtain ⟨w₁, hrun, hw₁, hout⟩ :=
        (h trace List.mem_cons_self).evaluated i hw
      obtain ⟨w', hrest, hw', hout'⟩ := ih (i := i + 1) hw₁
        fun x hx => h x (List.mem_cons_of_mem _ hx)
      refine ⟨w', ?_, hw', ?_⟩
      · unfold evalTraces
        rw [bind_ok hrun, bind_ok hrest]
        rfl
      · rw [hout', hout, List.append_assoc]
        rfl

/-- One line is printed for each trace that is not valid. -/
theorem report_length {traces : List Script}
    (h : ∀ trace ∈ traces, Passing V trace) :
    (S.report i traces).length
      + numcorrect (traces.map fun trace => S.stats trace.ops)
      = traces.length := by
  induction traces generalizing i with
  | nil => rfl
  | cons trace traces ih =>
      have hrest := ih (i := i + 1) fun x hx =>
        h x (List.mem_cons_of_mem _ hx)
      -- a line, or a verdict of one
      have hone : (S.lines i trace.ops).length
          + (if (S.stats trace.ops).valid ≠ 0 then 1 else 0) = 1 := by
        unfold Store.lines Store.stats
        cases hS : S.follow 0 S.blank trace.ops with
        | ok l' => rfl
        | error x =>
            obtain ⟨k, e⟩ := x
            obtain ⟨rfl, -⟩ := (h trace List.mem_cons_self).2 k e hS
            rfl
      have hcount : numcorrect ((trace :: traces).map
          fun trace => S.stats trace.ops)
          = numcorrect (traces.map fun trace => S.stats trace.ops)
            + (if (S.stats trace.ops).valid ≠ 0 then 1 else 0) := by
        unfold numcorrect
        rw [List.map_cons, List.countP_cons]
        simp only [decide_eq_true_eq]
      rw [Store.report, List.length_append, hcount, List.length_cons]
      omega

/-- Nothing is printed of traces that are followed to their ends. -/
theorem report_nil {traces : List Script}
    (h : ∀ trace ∈ traces, ∃ l, S.follow 0 S.blank trace.ops = .ok l) :
    S.report i traces = [] := by
  induction traces generalizing i with
  | nil => rfl
  | cons trace traces ih =>
      obtain ⟨l, hl⟩ := h trace List.mem_cons_self
      have hlines : S.lines i trace.ops = [] := by
        unfold Store.lines
        rw [hl]
      rw [Store.report, hlines, List.nil_append]
      exact ih fun x hx => h x (List.mem_cons_of_mem _ hx)

/-- A trace that ends in a resize the package does not survive ends the
driver. -/
theorem evalTraces_died {traces : List Script} (hw : V.Standby w)
    (h : ∀ trace ∈ traces, Playable V.lo V.hi [] trace.ops)
    (hpass : ∀ trace ∈ traces, ¬ S.Dies trace.ops → Passing V trace)
    (hdies : ∃ trace ∈ traces, S.Dies trace.ops) :
    ∃ w', (evalTraces pkg i traces).run w
      = .error (.halt (.stop .fault)) w' := by
  induction traces generalizing i w with
  | nil =>
      obtain ⟨_, hmem, -⟩ := hdies
      cases hmem
  | cons trace traces ih =>
      unfold evalTraces
      by_cases hdeath : S.Dies trace.ops
      · have hev : Evaluated V w i trace.ops
            ((evalTrace pkg i trace).run w) _ :=
          evalTrace_evaluated hw trace (h trace List.mem_cons_self)
        obtain ⟨k, hk⟩ := hdeath
        rw [hk] at hev
        obtain ⟨w', hrun⟩ := hev
        exact ⟨w', bind_error hrun⟩
      · -- this one passes, and one of the others dies
        obtain ⟨w₁, hrun, hw₁, -⟩ :=
          (hpass trace List.mem_cons_self hdeath).evaluated i hw
        obtain ⟨x, hx, hxk⟩ := hdies
        have hin : x ∈ traces := by
          rcases List.mem_cons.1 hx with rfl | hx
          · exact absurd hxk hdeath
          · exact hx
        obtain ⟨w', hrest⟩ := ih (i := i + 1) hw₁
          (fun y hy => h y (List.mem_cons_of_mem _ hy))
          (fun y hy => hpass y (List.mem_cons_of_mem _ hy)) ⟨x, hin, hxk⟩
        refine ⟨w', ?_⟩
        rw [bind_ok hrun]
        exact bind_error hrest

/-- The loop of `main`: it ends at a resize the package does not survive,
or it comes to the end with one line printed for each trace that is not
valid. -/
theorem evalTraces_ends {traces : List Script} (hw : V.Standby w)
    (hnew : w.output = [])
    (h : ∀ trace ∈ traces, Playable V.lo V.hi [] trace.ops)
    (hpass : ∀ trace ∈ traces, ¬ S.Dies trace.ops → Passing V trace) :
    ((∃ trace ∈ traces, S.Dies trace.ops) ∧
      ∃ w', (evalTraces pkg 0 traces).run w
        = .error (.halt (.stop .fault)) w') ∨
    ((∀ trace ∈ traces, ¬ S.Dies trace.ops) ∧
      ∃ w', (evalTraces pkg 0 traces).run w
        = .ok (traces.map fun trace => S.stats trace.ops) w' ∧
      w'.output = S.report 0 traces ∧ w'.errors
        + numcorrect (traces.map fun trace => S.stats trace.ops)
        = traces.length) := by
  by_cases hdies : ∃ trace ∈ traces, S.Dies trace.ops
  · exact Or.inl ⟨hdies, evalTraces_died hw h hpass hdies⟩
  · have hlive : ∀ trace ∈ traces, ¬ S.Dies trace.ops :=
      fun trace ht hd => hdies ⟨trace, ht, hd⟩
    have hall : ∀ trace ∈ traces, Passing V trace :=
      fun trace ht => hpass trace ht (hlive trace ht)
    obtain ⟨w', hrun, -, hout⟩ := evalTraces_stats (i := 0) hw hall
    rw [hnew, List.nil_append] at hout
    refine Or.inr ⟨hlive, w', hrun, hout, ?_⟩
    unfold World.errors
    rw [hout]
    exact report_length hall

/-- Two blocks; the first grows past the second. -/
def sampleOps : List TraceOp :=
  [StoredOp.op ⟨.alloc, 0, 24⟩, StoredOp.op ⟨.alloc, 1, 100⟩,
    StoredOp.op ⟨.realloc, 0, 200⟩, StoredOp.op ⟨.free, 1, 0⟩,
    StoredOp.op ⟨.free, 0, 0⟩]

theorem sample_playable {lo hi : Nat} (hlo : lo ≤ 24) (hhi : 200 ≤ hi) :
    Playable lo hi [] sampleOps where
  lawful := by simp [Lawful, sampleOps, StoredOp.op, cutInt, Int.bmod]
  sizes := by
    have hfree : ¬ OpType.free = .alloc := by decide
    have hresize : ¬ OpType.realloc = .alloc := by decide
    intro op hop
    fin_cases hop
    · exact ⟨fun _ => hlo, fun _ => ⟨by decide, show 24 ≤ hi by omega⟩⟩
    · exact ⟨fun _ => show lo ≤ 100 by omega,
        fun _ => ⟨by decide, show 100 ≤ hi by omega⟩⟩
    · exact ⟨fun h => absurd h hresize, fun _ => ⟨by decide, hhi⟩⟩
    · exact ⟨fun h => absurd h hfree, fun h => absurd rfl h⟩
    · exact ⟨fun h => absurd h hfree, fun h => absurd rfl h⟩
  bytes := by decide

/-- The same trace, twice. -/
def sampleScripts : List Script := [⟨2, sampleOps⟩, ⟨2, sampleOps⟩]

theorem sampleScripts_ops {trace : Script} (h : trace ∈ sampleScripts) :
    trace.ops = sampleOps := by
  fin_cases h <;> rfl

theorem sampleScripts_playable {lo hi : Nat} (hlo : lo ≤ 24)
    (hhi : 200 ≤ hi) : ∀ trace ∈ sampleScripts,
    Playable lo hi [] trace.ops := fun trace ht => by
  rw [sampleScripts_ops ht]
  exact sample_playable hlo hhi

end MallocLab.Proofs.Driver
