/-
The invariant of the driver's loop: the range list is the list of live
payloads, and the two arrays of the trace hold the block each id names
(`Watch`).

`add_range` never lets two payloads start at one address, so a payload's
address names its range, and `remove_range` takes the range of the block
the request is about: the one with that owner (`listed_others`). The
exception is a request for an id that names no live block, whose address
may by now be another block's. `Named` leaves it out.

`Watch` says nothing of payloads being apart: that is the question.
-/
import MallocLab.Proofs.Driver.Rounds
import Mathlib.Data.List.Nodup

namespace MallocLab.Proofs.Driver

open Mem Hoare Model Spec.Driver

variable {σ : Type} {pkg : Package σ} {w w' : World σ} {op : TraceOp}
  {live : List Block} {tracenum : Int} {i p : Nat}

-- ========================================================== lists with keys

/-- Where keys are distinct, taking out the first of a key is taking out
all of it. -/
theorem eraseP_key {α : Type} {f : α → Nat} {l : List α} {k : Nat}
    (h : (l.map f).Nodup) :
    l.eraseP (f · == k) = l.filter fun x => f x ≠ k := by
  induction l with
  | nil => rfl
  | cons x xs ih =>
      obtain ⟨hx, hxs⟩ := List.nodup_cons.1 h
      by_cases hk : f x = k
      · rw [List.eraseP_cons_of_pos (by simpa using hk),
          List.filter_cons_of_neg (by simpa using hk)]
        refine (List.filter_eq_self.2 fun y hy => ?_).symm
        have hne : f y ≠ k := fun he =>
          hx (List.mem_map.2 ⟨y, hy, he.trans hk.symm⟩)
        exact decide_eq_true hne
      · rw [List.eraseP_cons_of_neg (by simpa using hk),
          List.filter_cons_of_pos (by simpa using hk), ih hxs]

-- ====================================================== the interval test

/-- The range of a block's payload. -/
def range (b : Block) : Range := ⟨b.ptr, b.ptr + b.size - 1⟩

/-- The test of `add_range` misses two payloads that are apart, and a new
one that encloses an old one. -/
theorem overlaps_false {a b : Block} (ha : 1 ≤ a.size) (hb : 1 ≤ b.size) :
    overlaps a.ptr (a.ptr + a.size - 1) (range b) = false ↔
      Separate a b ∨ Encloses a b := by
  unfold overlaps Separate Encloses range
  rw [decide_eq_false_iff_not]
  dsimp only
  omega

/-- A payload that is apart from one is not around it. -/
theorem Separate.not_encloses {a b : Block} (h : Separate a b) :
    ¬ Encloses a b := by
  unfold Separate at h
  unfold Encloses
  omega

-- ========================================================== the other blocks

@[simp] theorem disown_ptr (id : Nat) (b : Block) :
    (b.disown id).ptr = b.ptr := by
  unfold Block.disown
  split <;> rfl

@[simp] theorem disown_size (id : Nat) (b : Block) :
    (b.disown id).size = b.size := by
  unfold Block.disown
  split <;> rfl

/-- A block keeps its owner, unless that is the id. -/
theorem disown_owner {id j : Nat} {b : Block} :
    (b.disown id).owner = some j ↔ b.owner = some j ∧ j ≠ id := by
  unfold Block.disown
  split
  · rename_i h
    constructor
    · intro h'
      cases h'
    · rintro ⟨h', hne⟩
      rw [h] at h'
      cases h'
      exact absurd rfl hne
  · rename_i h
    refine ⟨fun h' => ⟨h', fun he => h (he ▸ h')⟩, fun h' => h'.1⟩

/-- The other blocks are live blocks, but for an owner they may have
lost; the request's id owns none of them. -/
theorem mem_others {c : Block} (h : c ∈ others live op) :
    ∃ b ∈ live, c.ptr = b.ptr ∧ c.size = b.size ∧
      ∀ j, c.owner = some j → b.owner = some j ∧ j ≠ op.index := by
  unfold others at h
  split at h
  · obtain ⟨b, hb, rfl⟩ := List.mem_map.1 h
    exact ⟨b, hb, disown_ptr _ _, disown_size _ _, fun j hj =>
      disown_owner.1 hj⟩
  · obtain ⟨hc, hne⟩ := List.mem_filter.1 h
    refine ⟨c, hc, rfl, rfl, fun j hj => ⟨hj, fun he => ?_⟩⟩
    exact of_decide_eq_true hne (he ▸ hj)

/-- Who owned a block still does, unless the request is about it. -/
theorem owner_others {j : Nat} (h : ∃ b ∈ live, b.owner = some j)
    (hne : j ≠ op.index) : ∃ b ∈ others live op, b.owner = some j := by
  obtain ⟨b, hb, hown⟩ := h
  unfold others
  split
  · exact ⟨_, List.mem_map_of_mem hb, disown_owner.2 ⟨hown, hne⟩⟩
  · refine ⟨b, List.mem_filter.2 ⟨hb, decide_eq_true ?_⟩, hown⟩
    rw [hown]
    exact fun he => hne (Option.some.inj he)

/-- Who owned a block owns one after a request for another id. -/
theorem owner_next {j : Nat} (h : ∃ b ∈ live, b.owner = some j)
    (hne : j ≠ op.index) :
    ∃ b ∈ liveNext live op p, b.owner = some j := by
  obtain ⟨b, hb, hown⟩ := owner_others h hne
  unfold liveNext
  split
  · exact ⟨b, hb, hown⟩
  · exact ⟨b, List.mem_cons_of_mem _ hb, hown⟩

/-- The id of a request for a block owns it. -/
theorem owner_next_self (h : op.type ≠ .free) :
    ∃ b ∈ liveNext live op p, b.owner = some op.index := by
  unfold liveNext
  split
  · rename_i ht
    exact absurd ht h
  · exact ⟨_, List.mem_cons_self, rfl⟩

/-- Blocks apart stay apart without the one the request is about. -/
theorem apart_others (h : live.Pairwise Separate) :
    (others live op).Pairwise Separate := by
  unfold others
  split
  · refine List.pairwise_map.2 (h.imp fun {a b} hab => ?_)
    unfold Separate
    rw [disown_ptr, disown_ptr, disown_size, disown_size]
    exact hab
  · exact h.sublist List.filter_sublist

-- ============================================================ the invariant

/-- What the driver's variables say about the live blocks. -/
structure Watch (live : List Block) (w : World σ) : Prop where
  backed : Backed w.machine
  ranges : w.ranges = live.map range
  owner : ∀ b ∈ live, ∀ id, b.owner = some id →
    w.blocks id = b.ptr ∧ w.blockSizes id = b.size
  distinct : (live.map Block.ptr).Nodup
  placed : ∀ b ∈ live, Placed w.machine b
  sized : ∀ b ∈ live, 1 ≤ b.size ∧ b.size < 2 ^ 31

/-- The request's id names a live block, or its address is no live
block's. -/
def Named (live : List Block) (w : World σ) (op : TraceOp) : Prop :=
  op.type ≠ .alloc → (∃ b ∈ live, b.owner = some op.index) ∨
    ∀ b ∈ live, b.ptr ≠ w.blocks op.index

/-- Nothing is live before the first request. -/
theorem Watch.nil (hs : Backed w.machine) (h : w.ranges = []) :
    Watch [] w where
  backed := hs
  ranges := h
  owner := fun b hb => by cases hb
  distinct := List.nodup_nil
  placed := fun b hb => by cases hb
  sized := fun b hb => by cases hb

/-- A call of the package moves no payload. -/
theorem Watch.called (h : Watch live w) (hc : Called w w') :
    Watch live w' where
  backed := h.backed.sbrks hc.sbrks
  ranges := hc.ranges.trans h.ranges
  owner := by
    rw [hc.blocks, hc.blockSizes]
    exact h.owner
  distinct := h.distinct
  placed := fun b hb => (h.placed b hb).sbrks hc.sbrks
  sized := h.sized

/-- An id that names a live block names the only one at its address. -/
theorem Watch.owner_iff (h : Watch live w) {b : Block} (hb : b ∈ live)
    {id : Nat} (hn : (∃ c ∈ live, c.owner = some id) ∨
      ∀ c ∈ live, c.ptr ≠ w.blocks id) :
    b.owner = some id ↔ b.ptr = w.blocks id := by
  constructor
  · intro hown
    exact (h.owner b hb id hown).1.symm
  · intro hptr
    rcases hn with ⟨c, hc, hown⟩ | hnone
    · have hsame : b.ptr = c.ptr := hptr.trans (h.owner c hc id hown).1
      rwa [List.inj_on_of_nodup_map h.distinct hb hc hsame]
    · exact absurd hptr (hnone b hb)

/-- Removing the range at an id's address removes the id's block. -/
theorem Watch.dropped (h : Watch live w) {id : Nat}
    (hn : (∃ c ∈ live, c.owner = some id) ∨
      ∀ c ∈ live, c.ptr ≠ w.blocks id) :
    w.ranges.eraseP (·.lo == w.blocks id)
      = (live.filter fun b => b.owner ≠ some id).map range := by
  rw [h.ranges, List.eraseP_map]
  change ((live.eraseP fun b => b.ptr == w.blocks id).map range) = _
  rw [eraseP_key h.distinct]
  refine congrArg (List.map range) (List.filter_congr fun b hb => ?_)
  rw [decide_eq_decide, Ne, Ne, h.owner_iff hb hn]

/-- The ranges a request leaves on the list are those of the blocks it is
not about. -/
theorem Watch.listed_others (h : Watch live w) (hn : Named live w op) :
    listed w op = (others live op).map range := by
  unfold listed others
  cases ht : op.type with
  | alloc =>
      simp only [List.map_map]
      rw [h.ranges]
      refine List.map_congr_left fun b _ => ?_
      unfold range
      rw [Function.comp_apply, disown_ptr, disown_size]
  | realloc => exact h.dropped (hn (by rw [ht]; decide))
  | free => exact h.dropped (hn (by rw [ht]; decide))

/-- The other blocks are watched by the ranges left. -/
theorem Watch.others (h : Watch live w) (hn : Named live w op) :
    Watch (others live op) { w with ranges := listed w op } where
  backed := h.backed
  ranges := h.listed_others hn
  owner := by
    intro c hc id hown
    obtain ⟨b, hb, hptr, hsize, howns⟩ := mem_others hc
    rw [hptr, hsize]
    exact h.owner b hb id (howns id hown).1
  distinct := by
    unfold Spec.Driver.others
    split
    · rw [List.map_map]
      refine (List.map_congr_left fun b _ => ?_) ▸ h.distinct
      exact (disown_ptr _ b).symm
    · exact h.distinct.sublist (List.filter_sublist.map _)
  placed := by
    intro c hc
    obtain ⟨b, hb, hptr, hsize, -⟩ := mem_others hc
    obtain ⟨haligned, hlo, hhi⟩ := h.placed b hb
    rw [← hptr] at haligned hlo
    rw [← hptr, ← hsize] at hhi
    exact ⟨haligned, hlo, hhi⟩
  sized := by
    intro c hc
    obtain ⟨b, hb, -, hsize, -⟩ := mem_others hc
    rw [hsize]
    exact h.sized b hb

/-- Filling a payload does not move the break. -/
theorem settled_sbrks : Sbrks w.machine (settled w op p).machine :=
  ⟨rfl, rfl, Nat.le_refl _, fun h => h⟩

/-- A new payload that passes the checks is watched with the others. -/
theorem Watch.settled (h : Watch live w)
    (hown : ∀ b ∈ live, b.owner ≠ some op.index) (h1 : 1 ≤ op.size)
    (hplaced : Placed w.machine (wanted op p))
    (hclear : ∀ r ∈ w.ranges, overlaps p (p + op.size.toNat - 1) r = false) :
    Watch (wanted op p :: live) (settled { w with
      ranges := ⟨p, p + op.size.toNat - 1⟩ :: w.ranges } op p) where
  backed := h.backed.sbrks settled_sbrks
  ranges := congrArg (List.cons _) h.ranges
  owner := by
    intro b hb id hid
    rcases List.mem_cons.1 hb with rfl | hb
    · cases hid
      exact ⟨Function.update_self _ _ _, Function.update_self _ _ _⟩
    · have hne : id ≠ op.index := fun he => hown b hb (he ▸ hid)
      obtain ⟨hptr, hsize⟩ := h.owner b hb id hid
      exact ⟨(Function.update_of_ne hne _ _).trans hptr,
        (Function.update_of_ne hne _ _).trans hsize⟩
  distinct := by
    refine List.nodup_cons.2 ⟨fun hmem => ?_, h.distinct⟩
    obtain ⟨b, hb, hptr⟩ := List.mem_map.1 hmem
    -- a payload at the same address is caught
    have hfalse := hclear (range b)
      (by rw [h.ranges]; exact List.mem_map_of_mem hb)
    have hb1 := (h.sized b hb).1
    unfold overlaps range at hfalse
    rw [decide_eq_false_iff_not] at hfalse
    have hptr' : b.ptr = p := hptr
    simp only [hptr'] at hfalse
    omega
  placed := by
    intro b hb
    rcases List.mem_cons.1 hb with rfl | hb
    · exact hplaced.sbrks settled_sbrks
    · exact (h.placed b hb).sbrks settled_sbrks
  sized := by
    intro b hb
    rcases List.mem_cons.1 hb with rfl | hb
    · have hint := op.int.2
      show 1 ≤ op.size.toNat ∧ op.size.toNat < 2 ^ 31
      omega
    · exact h.sized b hb

-- ================================================================ one round

/-- A round that goes on remembers the pointer it got. -/
theorem outcome_next : liveNext live op ((outcome w op p).blocks op.index)
    = liveNext live op p := by
  unfold liveNext outcome settled
  cases op.type with
  | alloc => simp only [Function.update_self]
  | realloc => simp only [Function.update_self]
  | free => rfl

/-- A round that goes on keeps the invariant. -/
theorem Watch.outcome (h : Watch live w) (hn : Named live w op)
    (h1 : op.type ≠ .free → 1 ≤ op.size)
    (hp : op.type ≠ .free → Accepted w op p) :
    Watch (liveNext live op p) (outcome w op p) := by
  have hothers := h.others hn
  have hown : ∀ b ∈ Spec.Driver.others live op,
      b.owner ≠ some op.index := by
    intro b hb he
    obtain ⟨_, _, _, _, howns⟩ := mem_others hb
    exact (howns _ he).2 rfl
  unfold liveNext Driver.outcome
  cases ht : op.type with
  | free => exact hothers
  | alloc =>
      have hne : op.type ≠ .free := by rw [ht]; decide
      exact hothers.settled hown (h1 hne) (hp hne).placed (hp hne).clear
  | realloc =>
      have hne : op.type ≠ .free := by rw [ht]; decide
      exact hothers.settled hown (h1 hne) (hp hne).placed (hp hne).clear

-- ================================================================= the loop

/-- The loop comes to 1 when every round goes on. -/
theorem evalOps_cons {ops : List TraceOp} :
    (evalOps pkg tracenum i (op :: ops)).run w = .ok 1 w' ↔
      ∃ w₁, (evalOp pkg tracenum i op).run w = .ok true w₁ ∧
        (evalOps pkg tracenum (i + 1) ops).run w₁ = .ok 1 w' :=
  unless_true fun _ _ h => by cases h

/-- The verdict is 1 when `mm_init` did not fail and the loop comes to
1. -/
theorem evalMmValid_one {ops : List TraceOp} :
    (evalMmValid pkg ops tracenum).run w = .ok 1 w' ↔
      ∃ r w₀, (evalInit pkg).run w = .ok r w₀ ∧ 0 ≤ r ∧
        (evalOps pkg tracenum 0 ops).run w₀ = .ok 1 w' := by
  unfold evalMmValid
  rw [returns_bind]
  refine exists_congr fun r => exists_congr fun w₀ =>
    and_congr_right fun _ => ?_
  by_cases hr : r < 0
  · rw [if_pos hr]
    exact iff_of_false (fun h => by cases h) fun h => by omega
  · rw [if_neg hr]
    exact (and_iff_right (by omega)).symm

/-- Initialising leaves nothing to watch. -/
theorem evalInit_watch {r : Int} (hs : Backed w.machine)
    (h : (evalInit pkg).run w = .ok r w') : Watch [] w' := by
  obtain ⟨_, w₁, hreset, hrest⟩ := returns_bind.1 h
  obtain ⟨_, w₂, hclear, hinit⟩ := returns_bind.1 hrest
  cases hreset
  cases hclear
  have hcalled := call_called pkg.init_sbrks hinit
  refine Watch.nil (Backed.sbrks ?_ hcalled.sbrks) hcalled.ranges
  have hmax := hs.max
  have hempty : w.machine.memStartBrk ≤ w.machine.memMaxAddr := by omega
  exact ⟨hs.pos, hs.max, hs.fits, hempty⟩

end MallocLab.Proofs.Driver
