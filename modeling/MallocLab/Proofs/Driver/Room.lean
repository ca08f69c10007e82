/-
Traces that cannot run out of storage: those whose blocks would all fit
side by side. A service that gives blocks while there is room (`Roomy`)
follows such a trace to its end, and `main` finds it valid, with a
utilization between the peak over the trace's footprint and one.
-/
import MallocLab.Proofs.Driver.Passes
import Mathlib.Algebra.Order.Field.Basic
import Mathlib.Data.Rat.Cast.Order

namespace MallocLab.Proofs.Driver

open Mem Hoare Model Spec Spec.Driver

variable {σ H : Type} {pkg : Package σ} {S : Store H} {V : Service pkg S}
  {live : List Block} {held : List Nat} {w : World σ} {l : Ledger H}
  {op : TraceOp} {ops : List TraceOp} {tracenum : Int} {i : Nat}

/-- While the storage has room, an allocation gets a block, which takes no
more of the storage than its size needs. -/
structure Roomy (V : Service pkg S) : Prop where
  malloc : ∀ {h live st s n}, V.Rep h live st s → V.lo ≤ n → n ≤ V.hi →
    S.extent h + need n ≤ maxHeap →
    ∃ x, S.malloc h n = some x ∧ S.extent x.2 ≤ S.extent h + need n
  free : ∀ {h live st s o k}, V.Rep h (⟨V.addr o, k⟩ :: live) st s →
    S.extent (S.free h o) ≤ S.extent h

/-- And so does a resize. -/
def RoomyResize (V : Service pkg S) : Prop :=
  ∀ {h live st s o k n}, V.Rep h (⟨V.addr o, k⟩ :: live) st s → 1 ≤ n →
    n ≤ V.hi → S.extent h + need n ≤ maxHeap →
    ∃ x, S.realloc h o n = some (some x) ∧
      S.extent x.2 ≤ S.extent h + need n

/-- The bytes a request takes. -/
def taken (op : TraceOp) : Nat :=
  if op.type = .free then 0 else need op.size.toNat

/-- A request there is room for is followed, and takes no more. -/
theorem step_room (hV : Roomy V) (hl : Tallies V live w l)
    (hsize : Sizes V.lo V.hi op)
    (hown : op.type ≠ .alloc → ∃ b ∈ live, b.owner = some op.index)
    (hresize : op.type = .realloc → RoomyResize V)
    (hroom : S.extent l.heap + taken op ≤ maxHeap) :
    ∃ l', S.step l op = .ok l' ∧
      S.extent l'.heap ≤ S.extent l.heap + taken op := by
  have htaken : op.type ≠ .free → taken op = need op.size.toNat :=
    fun hne => if_neg hne
  unfold Store.step
  cases ht : op.type with
  | alloc =>
      have hne : op.type ≠ .free := by
        rw [ht]
        decide
      rw [htaken hne] at hroom ⊢
      obtain ⟨x, hx, hext⟩ :=
        hV.malloc hl.rep (hsize.1 ht) (hsize.2 hne).2 hroom
      simp only [hx]
      exact ⟨_, rfl, hext⟩
  | realloc =>
      have hne : op.type ≠ .free := by
        rw [ht]
        decide
      rw [htaken hne] at hroom ⊢
      obtain ⟨b, -, -, -, -, hfirst⟩ :=
        hl.named (by rw [ht]; decide) (hown (by rw [ht]; decide))
      obtain ⟨h1, hhi⟩ := hsize.2 hne
      obtain ⟨x, hx, hext⟩ := hresize ht hfirst (by omega) hhi hroom
      simp only [hx]
      exact ⟨_, rfl, hext⟩
  | free =>
      obtain ⟨b, -, -, -, -, hfirst⟩ :=
        hl.named (by rw [ht]; decide) (hown (by rw [ht]; decide))
      exact ⟨_, rfl, Nat.le_trans (hV.free hfirst) (Nat.le_add_right _ _)⟩

/-- A trace there is room for is followed to its end. -/
theorem follow_room (hV : Roomy V) (hl : Tallies V live w l)
    (hheld : Held live held) (htr : Playable V.lo V.hi held ops)
    (hresize : ∀ op ∈ ops, op.type = .realloc → RoomyResize V)
    (hroom : S.extent l.heap + footprint ops ≤ maxHeap) :
    ∃ l', S.follow i l ops = .ok l' ∧
      S.extent l'.heap ≤ S.extent l.heap + footprint ops := by
  induction ops generalizing i live w l held with
  | nil => exact ⟨l, rfl, Nat.le_add_right _ _⟩
  | cons op ops ih =>
      have hsize := htr.sizes op List.mem_cons_self
      have hown := Lawful.owner htr.lawful hheld
      have hfoot : footprint (op :: ops) = taken op + footprint ops := rfl
      rw [hfoot] at hroom ⊢
      obtain ⟨l₁, hstep, hext⟩ := step_room hV hl hsize hown
        (hresize op List.mem_cons_self) (by omega)
      -- a state the next request can be made in
      have hcomes := request_serves hl hsize hown
      rw [hstep] at hcomes
      obtain ⟨p, w₁, hs⟩ := hcomes
      have hnext : Tallies V (liveNext live op p) (pointed w₁ op p) l₁ :=
        hs.tallies hl hsize rfl rfl rfl
      obtain ⟨held', htr', hheld'⟩ := Playable.rest htr
      obtain ⟨l', hrest, hext'⟩ := ih (i := i + 1) hnext
        (hheld' live p hheld) htr'
        (fun x hx => hresize x (List.mem_cons_of_mem _ hx)) (by omega)
      refine ⟨l', ?_, by omega⟩
      rw [Store.follow, hstep]
      exact hrest

/-- What `main` finds of such a trace. -/
theorem evalTrace_room (hV : Roomy V) (hw : V.Standby w) (trace : Script)
    (htr : Playable V.lo V.hi [] trace.ops)
    (hresize : ∀ op ∈ trace.ops, op.type = .realloc → RoomyResize V)
    (hroom : S.extent S.init + footprint trace.ops ≤ maxHeap) :
    ∃ u w', (evalTrace pkg tracenum trace).run w
        = .ok ⟨trace.ops.length, 1, u⟩ w' ∧
      (peak [] trace.ops : ℚ) / (S.extent S.init + footprint trace.ops : Nat)
        ≤ u ∧ u ≤ 1 ∧ w'.output = w.output := by
  obtain ⟨r, w₀, -, -, -, hl, -⟩ := init_tallies hw
  obtain ⟨l', hfollow, hext⟩ := follow_room (i := 0) hV hl
    (fun id hid => absurd hid List.not_mem_nil) htr hresize hroom
  have hev : Evaluated V w tracenum trace.ops
      ((evalTrace pkg tracenum trace).run w) _ :=
    evalTrace_evaluated hw trace htr
  rw [hfollow] at hev
  obtain ⟨w', hrun, -, hout, hpeak⟩ := hev
  refine ⟨_, w', hrun, ?_, ?_, hout⟩
  · -- a heap of no extent has held nothing
    rcases Nat.eq_zero_or_pos (S.extent l'.heap) with hzero | hpos
    · have hnone : peak [] trace.ops = 0 := by omega
      rw [hnone, Nat.cast_zero, zero_div, zero_div]
    · exact div_le_div_of_nonneg_left (Nat.cast_nonneg _)
        (Nat.cast_pos.2 hpos) (Nat.cast_le.2 hext)
  · exact div_le_one_of_le₀ (Nat.cast_le.2 hpeak) (Nat.cast_nonneg _)

end MallocLab.Proofs.Driver
