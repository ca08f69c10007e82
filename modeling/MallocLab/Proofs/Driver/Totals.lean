/-
The accounting of `eval_mm_util`, for any package: the maximum it keeps
is the trace's own peak, the most bytes asked for at one time. Nothing
about the package enters: not where it puts the blocks, nor what they
hold. What does enter is that the trace is lawful, and that the peak is
an `int`.

`utilOp_iff` says once what a round does. `Booked` is the invariant: the
sizes the driver remembers are those of the live blocks, and each block
has an id of its own, so the size a request subtracts is that of the
block it takes away.
-/
import MallocLab.Model.Passes
import MallocLab.Proofs.Driver.Complete
import MallocLab.Spec.Store

namespace MallocLab.Proofs.Driver

open Mem Hoare Model Spec Spec.Driver

variable {σ α : Type} {pkg : Package σ} {live live' : List Block}
  {held : List Nat} {w w' w₁ : World σ} {op : TraceOp} {ops : List TraceOp}
  {tracenum : Int} {i p q : Nat} {t t' : Totals}

-- ==================================================== the peak of a trace

/-- Two lists of live blocks that differ only in where the blocks are. -/
def Alike (live live' : List Block) : Prop :=
  List.Forall₂ (fun b c => b.owner = c.owner ∧ b.size = c.size) live live'

theorem Alike.refl (live : List Block) : Alike live live :=
  List.forall₂_same.2 fun _ _ => ⟨rfl, rfl⟩

theorem Alike.demand (h : Alike live live') : demand live = demand live' := by
  unfold Spec.demand
  induction h with
  | nil => rfl
  | cons hbc _ ih =>
      rw [List.map_cons, List.map_cons, List.sum_cons, List.sum_cons, ih,
        hbc.2]

theorem Alike.others (h : Alike live live') (op : TraceOp) :
    Alike (others live op) (others live' op) := by
  have hfilter : Alike (live.filter fun b => b.owner ≠ some op.index)
      (live'.filter fun b => b.owner ≠ some op.index) := by
    induction h with
    | nil => exact List.Forall₂.nil
    | cons hbc _ ih =>
        rw [List.filter_cons, List.filter_cons, hbc.1]
        split
        · exact List.Forall₂.cons hbc ih
        · exact ih
  unfold Driver.others
  cases op.type with
  | alloc =>
      refine List.forall₂_map_left_iff.2 (List.forall₂_map_right_iff.2 ?_)
      refine List.Forall₂.imp (fun b c hbc => ⟨?_, ?_⟩) h
      · unfold Block.disown
        rw [hbc.1]
        split
        · rfl
        · exact hbc.1
      · rw [disown_size, disown_size]
        exact hbc.2
  | realloc => exact hfilter
  | free => exact hfilter

theorem Alike.next (h : Alike live live') (op : TraceOp) (p q : Nat) :
    Alike (liveNext live op p) (liveNext live' op q) := by
  unfold liveNext
  cases op.type with
  | free => exact h.others op
  | alloc => exact List.Forall₂.cons ⟨rfl, rfl⟩ (h.others op)
  | realloc => exact List.Forall₂.cons ⟨rfl, rfl⟩ (h.others op)

/-- So the peak does not depend on where the blocks are. -/
theorem Alike.peak (h : Alike live live') (ops : List TraceOp) :
    peak live ops = peak live' ops := by
  induction ops generalizing live live' with
  | nil => exact h.demand
  | cons op ops ih =>
      unfold Spec.peak
      rw [h.demand, ih (h.next op 0 0)]

theorem peak_cons (live : List Block) (op : TraceOp) (ops : List TraceOp)
    (p : Nat) : peak live (op :: ops)
      = max (demand live) (peak (liveNext live op p) ops) := by
  conv_lhs => unfold Spec.peak
  rw [((Alike.refl live).next op 0 p).peak ops]

theorem demand_le_peak (live : List Block) (ops : List TraceOp) :
    demand live ≤ peak live ops := by
  cases ops with
  | nil => exact Nat.le_refl _
  | cons op ops => exact Nat.le_max_left _ _

-- ==================================================================== a round

/-- The pointer and the size of a request, remembered. -/
def recorded (w : World σ) (op : TraceOp) (p : Nat) : World σ :=
  match op.type with
  | .free => w
  | _ => { w with
      blocks := Function.update w.blocks op.index p
      blockSizes := Function.update w.blockSizes op.index (sizeT op.size) }

/-- The totals after a request that found the sizes of `w`. -/
def tallied (t : Totals) (w : World σ) (op : TraceOp) : Totals :=
  match op.type with
  | .alloc => t.add op.size
  | .realloc => t.add (op.size - toInt (w.blockSizes op.index))
  | .free => { t with
      total := cutInt (t.total - toInt (w.blockSizes op.index)) }

/-- A function that does not exit returns what it returned. -/
theorem plain_ok {x : D σ α} {a : α} (h : x.run w = .ok a w') :
    (plain x).run w = .ok a w' := by
  change plain x w = _
  unfold plain
  rw [h]

theorem returns_plain {x : D σ α} {a : α} :
    (plain x).run w = .ok a w' ↔ x.run w = .ok a w' := by
  refine ⟨fun h => ?_, plain_ok⟩
  change plain x w = _ at h
  unfold plain at h
  cases hx : x.run w with
  | ok b w₁ =>
      rw [hx] at h
      cases h
      rfl
  | error e w₁ =>
      rw [hx] at h
      cases h

/-- A call whose null pointer is an exit. -/
theorem returns_unless_null {x : D σ Nat} {e : P σ PUnit}
    {f : Nat → P σ α} {a : α} (he : ∀ w a w', e.run w ≠ .ok a w') :
    (do
      let p ← plain x
      if p = 0 then e
      f p : P σ α).run w = .ok a w' ↔
    ∃ p w₁, x.run w = .ok p w₁ ∧ p ≠ 0 ∧ (f p).run w₁ = .ok a w' := by
  rw [returns_bind]
  refine exists_congr fun p => exists_congr fun w₁ => ?_
  rw [returns_plain]
  refine and_congr_right fun _ => ?_
  by_cases hp : p = 0
  · rw [if_pos hp, returns_bind]
    exact iff_of_false (fun ⟨_, _, h, _⟩ => he _ _ _ h) fun h => h.1 hp
  · rw [if_neg hp]
    exact ⟨fun h => ⟨hp, h⟩, fun h => h.2⟩

theorem appError_exits (msg : String) (w : World σ) (a : α)
    (w' : World σ) : (appError msg : P σ α).run w ≠ .ok a w' := nofun

theorem reallocError_exits (tracenum : Int) (i : Nat) (msg : String)
    (w : World σ) (a : α) (w' : World σ) :
    (reallocError tracenum i msg : P σ α).run w ≠ .ok a w' := by
  intro h
  obtain ⟨_, _, -, hthrow⟩ := returns_bind.1 h
  cases hthrow

/-- A round of `eval_mm_util` goes on if its request does, with a pointer
that is not null. -/
theorem utilOp_iff : (utilOp pkg tracenum i op t).run w = .ok t' w' ↔
    ∃ p w₁, (request pkg op).run w = .ok p w₁ ∧
      (op.type ≠ .free → p ≠ 0) ∧ recorded w₁ op p = w' ∧
      tallied t w op = t' := by
  cases ht : op.type with
  | alloc =>
      unfold utilOp recorded tallied
      simp only [ht, request_alloc ht]
      rw [returns_unless_null fun w a w' => appError_exits _ w a w']
      refine exists_congr fun p => exists_congr fun w₁ =>
        and_congr_right fun _ => ?_
      refine and_congr (by simp) ?_
      rw [returns_bind]
      constructor
      · rintro ⟨_, w₂, hrem, hret⟩
        cases returns_plain.1 hrem
        exact ⟨(returns_pure.1 hret).2, (returns_pure.1 hret).1⟩
      · rintro ⟨rfl, rfl⟩
        exact ⟨(), _, plain_ok rfl, rfl⟩
  | realloc =>
      unfold utilOp recorded tallied
      simp only [ht, request_realloc ht]
      rw [bind_ok (rfl : (get : P σ _).run w = .ok w w),
        bind_ok (rfl : (get : P σ _).run w = .ok w w),
        returns_unless_null fun w a w' => reallocError_exits _ _ _ w a w']
      refine exists_congr fun p => exists_congr fun w₁ =>
        and_congr_right fun _ => ?_
      refine and_congr (by simp) ?_
      rw [returns_bind]
      constructor
      · rintro ⟨_, w₂, hrem, hret⟩
        cases returns_plain.1 hrem
        exact ⟨(returns_pure.1 hret).2, (returns_pure.1 hret).1⟩
      · rintro ⟨rfl, rfl⟩
        exact ⟨(), _, plain_ok rfl, rfl⟩
  | free =>
      unfold utilOp recorded tallied
      simp only [ht, request_free ht]
      rw [bind_ok (rfl : (get : P σ _).run w = .ok w w),
        bind_ok (rfl : (get : P σ _).run w = .ok w w), returns_bind]
      constructor
      · rintro ⟨_, w₁, hcall, hret⟩
        obtain ⟨rfl, rfl⟩ := returns_pure.1 hret
        exact ⟨0, w₁, ⟨rfl, returns_plain.1 hcall⟩, fun h => absurd rfl h,
          rfl, rfl⟩
      · rintro ⟨p, w₁, ⟨-, hcall⟩, -, rfl, rfl⟩
        exact ⟨(), w₁, plain_ok hcall, rfl⟩

-- ========================================================= one id a block

/-- No two live blocks have one id. -/
def OneEach (live : List Block) : Prop :=
  live.Pairwise fun b c => ∀ id, b.owner = some id → c.owner ≠ some id

theorem OneEach.others (h : OneEach live) (op : TraceOp) :
    OneEach (others live op) := by
  unfold Driver.others
  cases op.type with
  | alloc =>
      refine List.pairwise_map.2 (h.imp fun {b c} hbc id hb hc => ?_)
      exact hbc id (disown_owner.1 hb).1 (disown_owner.1 hc).1
  | realloc => exact h.filter _
  | free => exact h.filter _

theorem OneEach.next (h : OneEach live) (op : TraceOp) (p : Nat) :
    OneEach (liveNext live op p) := by
  have hcons : OneEach (wanted op p :: Driver.others live op) := by
    refine List.pairwise_cons.2 ⟨fun c hc id hid hid' => ?_, h.others op⟩
    obtain ⟨b, -, -, -, howns⟩ := mem_others hc
    cases hid
    exact (howns _ hid').2 rfl
  unfold liveNext
  cases op.type with
  | free => exact h.others op
  | alloc => exact hcons
  | realloc => exact hcons

/-- The block a request names, and the others. -/
theorem OneEach.perm_others (h : OneEach live) {b : Block} (hb : b ∈ live)
    (hown : b.owner = some op.index) (ht : op.type ≠ .alloc) :
    live.Perm (b :: Driver.others live op) := by
  have hothers : Driver.others live op
      = live.filter fun c => c.owner ≠ some op.index := by
    unfold Driver.others
    cases hty : op.type with
    | alloc => exact absurd hty ht
    | realloc => rfl
    | free => rfl
  rw [hothers]
  clear hothers
  induction live with
  | nil => cases hb
  | cons c cs ih =>
      obtain ⟨hc, hcs⟩ := List.pairwise_cons.1 h
      rcases List.mem_cons.1 hb with rfl | hb
      · have hrest : cs.filter (fun d => d.owner ≠ some op.index) = cs :=
          List.filter_eq_self.2 fun d hd =>
            decide_eq_true (hc d hd _ hown)
        rw [List.filter_cons_of_neg (by simp [hown]), hrest]
      · have hne : c.owner ≠ some op.index := fun hoc =>
          hc b hb _ hoc hown
        rw [List.filter_cons_of_pos (by simpa using hne)]
        exact ((ih hcs hb).cons c).trans (List.Perm.swap _ _ _)

theorem demand_cons (b : Block) (live : List Block) :
    demand (b :: live) = b.size + demand live := by
  unfold demand
  rw [List.map_cons, List.sum_cons]

/-- The bytes asked for, without those of the block a request names. -/
theorem OneEach.demand (h : OneEach live) {b : Block} (hb : b ∈ live)
    (hown : b.owner = some op.index) (ht : op.type ≠ .alloc) :
    demand live = b.size + demand (Driver.others live op) := by
  rw [← demand_cons]
  exact List.Perm.sum_nat ((h.perm_others hb hown ht).map Block.size)

theorem demand_others_alloc (live : List Block) (ht : op.type = .alloc) :
    demand (others live op) = demand live := by
  unfold others demand
  simp only [ht, List.map_map]
  exact congrArg List.sum (List.map_congr_left fun b _ => disown_size _ b)

-- ============================================================= the totals

/-- The driver remembers the sizes of the live blocks. -/
structure Booked (live : List Block) (w : World σ) : Prop where
  one : OneEach live
  size : ∀ b ∈ live, ∀ id, b.owner = some id → w.blockSizes id = b.size

/-- After a request the sizes are remembered still. -/
theorem Booked.next (h : Booked live w) (hc : Called w w₁)
    (h1 : op.type ≠ .free → 1 ≤ op.size) :
    Booked (liveNext live op p) (recorded w₁ op p) where
  one := h.one.next op p
  size := fun b hb id hid => by
    have hint := op.int.2
    -- a block that was live before keeps its size
    have hold : ∀ w₂ : World σ, w₂.blockSizes = w₁.blockSizes ∨
        w₂.blockSizes = Function.update w₁.blockSizes op.index
          (sizeT op.size) → b ∈ others live op →
        w₂.blockSizes id = b.size := by
      intro w₂ hw₂ hb
      obtain ⟨c, hcl, -, hsz, howns⟩ := mem_others hb
      obtain ⟨hco, hne⟩ := howns id hid
      rw [hsz, ← h.size c hcl id hco, ← hc.blockSizes]
      rcases hw₂ with hw₂ | hw₂
      · rw [hw₂]
      · rw [hw₂, Function.update_of_ne hne]
    have hnew : op.type ≠ .free → b = wanted op p →
        Function.update w₁.blockSizes op.index (sizeT op.size) id
          = b.size := by
      intro hne he
      subst he
      cases hid
      rw [Function.update_self]
      have := h1 hne
      exact sizeT_of_nonneg (by omega) (by omega)
    unfold liveNext at hb
    unfold recorded
    cases ht : op.type with
    | free =>
        rw [ht] at hb
        exact hold w₁ (Or.inl rfl) hb
    | alloc =>
        rw [ht] at hb
        rcases List.mem_cons.1 hb with he | hb
        · exact hnew (by rw [ht]; decide) he
        · exact hold { w₁ with
            blockSizes := Function.update w₁.blockSizes op.index
              (sizeT op.size) } (Or.inr rfl) hb
    | realloc =>
        rw [ht] at hb
        rcases List.mem_cons.1 hb with he | hb
        · exact hnew (by rw [ht]; decide) he
        · exact hold { w₁ with
            blockSizes := Function.update w₁.blockSizes op.index
              (sizeT op.size) } (Or.inr rfl) hb

/-- The totals while the blocks `live` are. -/
structure Counted (live : List Block) (t : Totals) : Prop where
  total : t.total = demand live
  most : (demand live : Int) ≤ t.max

/-- Bringing the totals up to date. -/
theorem Counted.add (h : Counted live t) {n : Int}
    (hn : (demand live : Int) + n = demand live')
    (hlt : demand live' < 2 ^ 31) : Counted live' (t.add n) ∧
      (t.add n).max = max t.max (demand live') := by
  have htotal : t.total + n = (demand live' : Nat) := by
    rw [h.total, hn]
  unfold Totals.add
  rw [htotal, cutInt_of_lt hlt]
  constructor
  · refine ⟨rfl, ?_⟩
    show (demand live' : Int) ≤ if _ then _ else _
    split <;> omega
  · show (if _ then _ else _) = max t.max (demand live' : Int)
    split <;> omega

/-- A round brings them up to date. -/
theorem Counted.next (h : Counted live t) (hb : Booked live w)
    (h1 : op.type ≠ .free → 1 ≤ op.size)
    (hown : op.type ≠ .alloc → ∃ b ∈ live, b.owner = some op.index)
    (hlt : demand live < 2 ^ 31)
    (hlt' : demand (liveNext live op p) < 2 ^ 31) :
    Counted (liveNext live op p) (tallied t w op) ∧
      (tallied t w op).max = max t.max (demand (liveNext live op p)) := by
  -- the block a request names, and its size as the driver knows it
  have hnamed : op.type ≠ .alloc →
      (demand live : Int) - toInt (w.blockSizes op.index)
        = demand (others live op) := by
    intro hne
    obtain ⟨b, hbl, hbo⟩ := hown hne
    have hsplit := hb.one.demand hbl hbo hne
    rw [hb.size b hbl _ hbo, toInt_of_lt (by omega), hsplit]
    omega
  have hcons : op.type ≠ .free → (demand (liveNext live op p) : Int)
      = op.size + demand (others live op) := by
    intro hne
    have hnext : liveNext live op p = wanted op p :: others live op := by
      unfold liveNext
      cases ht : op.type with
      | free => exact absurd ht hne
      | alloc => rfl
      | realloc => rfl
    have hsize : (wanted op p).size = op.size.toNat := rfl
    have := h1 hne
    rw [hnext, demand_cons, hsize]
    omega
  unfold tallied
  cases ht : op.type with
  | alloc =>
      refine h.add ?_ hlt'
      rw [hcons (by rw [ht]; decide), demand_others_alloc live ht]
      omega
  | realloc =>
      refine h.add ?_ hlt'
      have hold := hnamed (by rw [ht]; decide)
      rw [hcons (by rw [ht]; decide), ← hold]
      omega
  | free =>
      have hold := hnamed (by rw [ht]; decide)
      have hnext : liveNext live op p = others live op := by
        unfold liveNext
        rw [ht]
      rw [hnext] at hlt' ⊢
      have hmax := h.most
      have hle : demand (others live op) ≤ demand live := by
        obtain ⟨b, hbl, hbo⟩ := hown (by rw [ht]; decide)
        have := hb.one.demand hbl hbo (by rw [ht]; decide)
        omega
      refine ⟨⟨?_, ?_⟩, ?_⟩
      · show cutInt (t.total - toInt (w.blockSizes op.index)) = _
        rw [h.total, hold, cutInt_of_lt hlt']
      · show (demand (others live op) : Int) ≤ t.max
        omega
      · show t.max = max t.max (demand (others live op) : Int)
        omega

-- =============================================================== the loop

/-- From totals that are up to date, the loop comes to the peak. -/
theorem utilOps_peak (hb : Booked live w) (hc : Counted live t)
    (hheld : Held live held) (hlaw : Lawful held ops)
    (hpeak : peak live ops < 2 ^ 31)
    (hrun : (utilOps pkg tracenum i ops t).run w = .ok t' w') :
    t'.max = max t.max (peak live ops) := by
  induction ops generalizing i live w t held with
  | nil =>
      obtain ⟨rfl, rfl⟩ := returns_pure.1 hrun
      have := hc.most
      show t.max = max t.max (demand live : Int)
      omega
  | cons op ops ih =>
      unfold utilOps at hrun
      obtain ⟨t₁, w₁, hround, hrest⟩ := returns_bind.1 hrun
      obtain ⟨p, w₂, hreq, -, rfl, rfl⟩ := utilOp_iff.1 hround
      have hpeaks := peak_cons live op ops p
      have hnow := demand_le_peak (liveNext live op p) ops
      have h1 := Lawful.size hlaw
      have hown := Lawful.owner hlaw hheld
      obtain ⟨held', hlaw', hheld'⟩ := Lawful.rest hlaw
      obtain ⟨hcount, hmax⟩ := @Counted.next _ live w op p t hc hb h1 hown
        (by omega) (by omega)
      rw [ih (hb.next (request_called hreq) h1) hcount
        (hheld' live p hheld) hlaw' (by omega) hrest, hmax, hpeaks]
      have := hc.most
      omega

/-- What `eval_mm_util` returns on a lawful trace. -/
theorem evalMmUtil_returns (hlaw : Lawful [] ops)
    (hpeak : peak [] ops < 2 ^ 31) {u : ℚ}
    (hrun : (evalMmUtil pkg ops tracenum).run w = .ok u w') :
    u = (peak [] ops : ℚ) /
      ((w'.machine.memBrk - w'.machine.memStartBrk : Nat) : ℚ) := by
  unfold evalMmUtil at hrun
  obtain ⟨r, w₀, hinit, hrun⟩ := returns_bind.1 hrun
  have hbook : Booked ([] : List Block) w₀ :=
    ⟨List.Pairwise.nil, fun b hb => absurd hb List.not_mem_nil⟩
  have hcount : Counted [] ⟨0, 0⟩ := ⟨rfl, Int.le_refl _⟩
  split at hrun
  · obtain ⟨a, w₁, hexit, -⟩ := returns_bind.1 hrun
    exact absurd hexit (appError_exits _ _ _ _)
  · obtain ⟨t, w₁, hloop, hrun⟩ := returns_bind.1 hrun
    obtain ⟨n, w₂, hsize, hret⟩ := returns_bind.1 hrun
    obtain ⟨rfl, rfl⟩ := returns_pure.1 hret
    have hmax := utilOps_peak hbook hcount
      (fun id hid => absurd hid List.not_mem_nil) hlaw hpeak hloop
    cases returns_plain.1 hsize
    have hpos : t.max = (peak [] ops : Nat) := by
      rw [hmax]
      show max (0 : Int) _ = _
      omega
    rw [hpos]
    rfl

/-- Whatever the package: if `eval_mm_util` returns on a lawful trace and
leaves a heap that is not empty, it returns the trace's peak over the size
of that heap. -/
theorem evalMmUtil_peak (hlaw : Lawful [] ops) (hpeak : peak [] ops < 2 ^ 31)
    {u : ℚ} (hrun : (evalMmUtil pkg ops tracenum).run w = .ok u w')
    (hheap : w'.machine.memStartBrk < w'.machine.memBrk) :
    u * ((w'.machine.memBrk - w'.machine.memStartBrk : Nat) : ℚ)
      = (peak [] ops : ℚ) := by
  have hne : ((w'.machine.memBrk - w'.machine.memStartBrk : Nat) : ℚ) ≠ 0 :=
    mod_cast (Nat.sub_pos_of_lt hheap).ne'
  rw [evalMmUtil_returns hlaw hpeak hrun]
  exact Rat.div_mul_cancel hne

/-- Two payloads, one of them freed and allocated again. -/
def reuse : List TraceOp :=
  [eight .alloc 0, eight .alloc 1, eight .free 0, eight .alloc 0]

/-- On a heap of sixty-four bytes. -/
theorem evalMmUtil_peak_sample : ∃ u w,
    (evalMmUtil scripted reuse 0).run
      (World.start (memInit Region.sample fun _ => 0) [16, 32, 16])
      = .ok u w ∧
    w.machine.memBrk - w.machine.memStartBrk = 64 ∧
    u * ((w.machine.memBrk - w.machine.memStartBrk : Nat) : ℚ)
      = (16 : Nat) := by
  obtain ⟨u, w, hrun, hsize⟩ : ∃ u w, (evalMmUtil scripted reuse 0).run
      (World.start (memInit Region.sample fun _ => 0) [16, 32, 16])
      = .ok u w ∧ w.machine.memBrk - w.machine.memStartBrk = 64 :=
    ⟨_, _, rfl, rfl⟩
  exact ⟨u, w, hrun, hsize, evalMmUtil_peak (by simp [reuse, Lawful, eight])
    (by decide) hrun (by omega)⟩

end MallocLab.Proofs.Driver
