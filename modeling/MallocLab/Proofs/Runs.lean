/-
Runs of a client against an allocator, whichever it is: what a request
may ask for, what a request must not change, and the induction that
turns a fact about one request into a fact about every run.

`serveAll_inv` carries an invariant along a run that meets a condition
at each request, and shows on the way that the run returns;
`serveAll_returned` does the same for the runs that return, and
`serveAll_alike` carries a relation along two runs of the same requests
on two heaps. Whatever is said about reachable states is an instance.
-/
import MallocLab.Model.Walk
import Mathlib.Data.List.Forall2

namespace MallocLab.Proofs

open Mem Model

-- ========================================================== the requests

/-- The largest size an `int` can hold with its tags. -/
def maxSize : Nat := 2 ^ 31 - 16

/-- The largest size whose block has a size that fits a header word. -/
def wordMax : Nat := 2 ^ 32 - 16

/-- The largest `int`: mdriver.c keeps the sizes of its requests in
one. -/
def intMax : Nat := 2 ^ 31 - 1

/-- Rounding such a size up does not pass it. -/
theorem align_word {n : Nat} (h : n ≤ wordMax) : align n ≤ wordMax := by
  unfold wordMax at *
  rw [align_eq (by omega)]
  omega

/-- A request for a size not above `hi`, and not below `lo` when it is a
fresh allocation. -/
def Sized (lo hi : Nat) : Req → Prop
  | .malloc n => lo ≤ n ∧ n ≤ hi
  | .reallocNull n => lo ≤ n ∧ n ≤ hi
  | .realloc _ n => n ≤ hi
  | .free _ => True
  | .write _ _ _ => True

/-- Tighter bounds are bounds. -/
theorem Sized.mono {lo lo' hi hi' : Nat} {r : Req} (h : Sized lo hi r)
    (hlo : lo' ≤ lo) (hhi : hi ≤ hi') : Sized lo' hi' r := by
  cases r with
  | malloc n => exact ⟨Nat.le_trans hlo h.1, Nat.le_trans h.2 hhi⟩
  | reallocNull n => exact ⟨Nat.le_trans hlo h.1, Nat.le_trans h.2 hhi⟩
  | free i => trivial
  | realloc i n => exact Nat.le_trans h hhi
  | write i off v => trivial

/-- The allocation a request is about. -/
def target : Req → Option Nat
  | .free i => some i
  | .realloc i _ => some i
  | .write i _ _ => some i
  | .malloc _ => none
  | .reallocNull _ => none

/-- What a request that returned `p` keeps of memory: every byte of the
allocations it is not about, and, when it moved an allocation, the bytes
that fit in both its sizes. -/
structure Preserved (live : List Alloc) (r : Req) (p : Nat)
    (m m' : Bytes) : Prop where
  others : ∀ j a, live[j]? = some a → target r ≠ some j →
    ∀ off < a.size, m' (a.ptr + off) = m (a.ptr + off)
  moved : ∀ i n a, r = .realloc i n → 1 ≤ n → p ≠ 0 → live[i]? = some a →
    ∀ off < min a.size n, m' (p + off) = m (a.ptr + off)

/-- A resize preserves what it keeps beside the allocation and what it
has moved of it. -/
theorem Preserved.resize {live : List Alloc} {i n p : Nat} {a : Alloc}
    {m m' : Bytes} (ha : live[i]? = some a)
    (hothers : ∀ j b, live[j]? = some b → target (.realloc i n) ≠ some j →
      ∀ off < b.size, m' (b.ptr + off) = m (b.ptr + off))
    (hmoved : ∀ off < a.size, off < n →
      m' (p + off) = m (a.ptr + off)) :
    Preserved live (.realloc i n) p m m' := by
  refine ⟨hothers, fun j k b he _ _ hb off hoff => ?_⟩
  cases he
  cases ha.symm.trans hb
  exact hmoved off (Nat.lt_of_lt_of_le hoff (Nat.min_le_left _ _))
    (Nat.lt_of_lt_of_le hoff (Nat.min_le_right _ _))

/-- The condition `C` at every request of a run from the start. -/
def Throughout (mode : Mode) (C : List Alloc → Machine → Req → Prop)
    (s : Machine) (reqs : List Req) : Prop :=
  ∀ q s₀, (mmInit mode).run s = .ok q s₀ → Along mode C [] s₀ reqs

-- ============================================================== the runs

variable {mode : Mode} {C D : List Alloc → Machine → Req → Prop}

/-- Conditions of a run hold together, a condition on the requests alone
among them. -/
theorem along_and_all {P : Req → Prop} {live : List Alloc} {s : Machine}
    {reqs : List Req} (h : Along mode C live s reqs)
    (hP : ∀ r ∈ reqs, P r) :
    Along mode (fun live s r => C live s r ∧ P r) live s reqs := by
  induction reqs generalizing live s with
  | nil => trivial
  | cons r rs ih =>
      obtain ⟨hr, hrest⟩ := h
      exact ⟨⟨hr, hP r List.mem_cons_self⟩, fun p live' s' hrun =>
        ih (hrest p live' s' hrun)
          fun x hx => hP x (List.mem_cons_of_mem r hx)⟩

/-- Two conditions of a run. -/
theorem along_and {live : List Alloc} {s : Machine} {reqs : List Req}
    (hC : Along mode C live s reqs) (hD : Along mode D live s reqs) :
    Along mode (fun live s r => C live s r ∧ D live s r) live s reqs := by
  induction reqs generalizing live s with
  | nil => trivial
  | cons r rs ih =>
      exact ⟨⟨hC.1, hD.1⟩, fun p live' s' hrun =>
        ih (hC.2 p live' s' hrun) (hD.2 p live' s' hrun)⟩

/-- A weaker condition holds along the same run. -/
theorem along_mono {live : List Alloc} {s : Machine} {reqs : List Req}
    (h : Along mode C live s reqs)
    (hCD : ∀ live s r, C live s r → D live s r) :
    Along mode D live s reqs := by
  induction reqs generalizing live s with
  | nil => trivial
  | cons r rs ih =>
      obtain ⟨hr, hrest⟩ := h
      exact ⟨hCD live s r hr, fun p live' s' hrun =>
        ih (hrest p live' s' hrun)⟩

/-- No condition at all. -/
theorem along_trivial (live : List Alloc) (s : Machine) (reqs : List Req) :
    Along mode (fun _ _ _ => True) live s reqs := by
  induction reqs generalizing live s with
  | nil => exact True.intro
  | cons r rs ih => exact ⟨True.intro, fun p live' s' _ => ih live' s'⟩

/-- The condition of a longer run: it held so far, and holds at the next
request. -/
theorem along_snoc {live : List Alloc} {s : Machine} {reqs : List Req}
    {r : Req} (h : Along mode C live s (reqs ++ [r])) :
    Along mode C live s reqs ∧ ∀ ps live' s',
      (serveAll mode live reqs).run s = .ok (ps, live') s' →
        C live' s' r := by
  induction reqs generalizing live s with
  | nil =>
      refine ⟨True.intro, fun ps live' s' hrun => ?_⟩
      cases hrun
      exact h.1
  | cons x xs ih =>
      obtain ⟨hx, hrest⟩ := h
      refine ⟨⟨hx, fun p live' s' hrun => (ih (hrest p live' s' hrun)).1⟩,
        fun ps live' s' hrun => ?_⟩
      obtain ⟨⟨p, live₁⟩, s₁, h₁, hk⟩ := bind_returns hrun
      obtain ⟨⟨qs, live₂⟩, s₂, h₂, he⟩ := bind_returns hk
      cases he
      exact (ih (hrest p live₁ s₁ h₁)).2 qs _ _ h₂

/-- Whether `check` accepts every request of a run. -/
def checkAll (mode : Mode) (check : List Alloc → Machine → Req → Bool) :
    List Alloc → Machine → List Req → Bool
  | _, _, [] => true
  | live, s, r :: rs => check live s r &&
      match (serve mode live r).run s with
      | .ok (_, live') s' => checkAll mode check live' s' rs
      | .error _ _ => true

/-- The same of a run from the start. -/
def checkRun (mode : Mode) (check : List Alloc → Machine → Req → Bool)
    (s : Machine) (reqs : List Req) : Bool :=
  match (mmInit mode).run s with
  | .ok _ s₀ => checkAll mode check [] s₀ reqs
  | .error _ _ => true

/-- What an invariant gives of each request that is checked holds along
the run, if every such request keeps the invariant. -/
theorem along_of_check {I : List Alloc → Machine → Prop} {P : Req → Prop}
    {check : List Alloc → Machine → Req → Bool}
    (hstep : ∀ live s r p live' s', I live s → P r → C live s r →
      (serve mode live r).run s = .ok (p, live') s' → I live' s')
    (hcheck : ∀ live s r, I live s → check live s r = true → C live s r)
    {live : List Alloc} {s : Machine} {reqs : List Req} (hI : I live s)
    (hP : ∀ r ∈ reqs, P r) (h : checkAll mode check live s reqs = true) :
    Along mode C live s reqs := by
  induction reqs generalizing live s with
  | nil => trivial
  | cons r rs ih =>
      obtain ⟨hr, hrest⟩ := Bool.and_eq_true_iff.1 h
      have hC := hcheck live s r hI hr
      refine ⟨hC, fun p live' s' hrun => ih (hstep live s r p live' s' hI
        (hP r List.mem_cons_self) hC hrun)
        (fun x hx => hP x (List.mem_cons_of_mem r hx)) ?_⟩
      rw [hrun] at hrest
      exact hrest

/-- So a condition of a given run can be computed. -/
theorem throughout_of_check {check : List Alloc → Machine → Req → Bool}
    (hcheck : ∀ live s r, check live s r = true → C live s r)
    {s : Machine} {reqs : List Req}
    (h : checkRun mode check s reqs = true) : Throughout mode C s reqs := by
  intro q s₀ hinit
  unfold checkRun at h
  rw [show (mmInit mode).run s = .ok q s₀ from hinit] at h
  exact along_of_check (I := fun _ _ => True) (P := fun _ => True)
    (fun _ _ _ _ _ _ _ _ _ _ => trivial)
    (fun live s r _ => hcheck live s r) trivial (fun _ _ => trivial) h

/-- A condition that can be decided at each request, likewise. -/
theorem throughout_of_decide [∀ live s r, Decidable (C live s r)]
    {s : Machine} {reqs : List Req}
    (h : checkRun mode (fun live s r => decide (C live s r)) s reqs = true) :
    Throughout mode C s reqs :=
  throughout_of_check (fun _ _ _ => of_decide_eq_true) h

/-- Whether the blocks computed meet `P`. -/
def checkBlocks (s : Machine) (P : List Seen → Prop) [DecidablePred P] :
    Bool :=
  (blocks? s).any fun xs => decide (P xs)

/-- If so, the blocks of a walk do. -/
theorem of_checkBlocks {s : Machine} {P : List Seen → Prop}
    [DecidablePred P] (h : checkBlocks s P = true) {xs : List Seen}
    (hxs : BlockList s xs) : P xs := by
  obtain ⟨ys, hys, hP⟩ := (Option.any_eq_true _ _).1 h
  rw [hxs.computed hys]
  exact of_decide_eq_true hP

/-- An invariant that every request keeps, on the way to returning,
holds after every run, and every run returns. -/
theorem serveAll_inv {I : List Alloc → Machine → Prop}
    (hstep : ∀ live s r, I live s → C live s r → ∃ p live' s',
      (serve mode live r).run s = .ok (p, live') s' ∧ I live' s')
    {live : List Alloc} {s : Machine} {reqs : List Req} (hI : I live s)
    (hC : Along mode C live s reqs) :
    ∃ ps live' s', (serveAll mode live reqs).run s = .ok (ps, live') s' ∧
      I live' s' := by
  induction reqs generalizing live s with
  | nil => exact ⟨[], live, s, rfl, hI⟩
  | cons r rs ih =>
      obtain ⟨hr, hrest⟩ := hC
      obtain ⟨p, live₁, s₁, h₁, hI₁⟩ := hstep live s r hI hr
      obtain ⟨ps, live₂, s₂, h₂, hI₂⟩ := ih hI₁ (hrest p live₁ s₁ h₁)
      refine ⟨p :: ps, live₂, s₂, ?_, hI₂⟩
      unfold serveAll
      rw [bind_ok h₁]
      exact bind_ok h₂

/-- An invariant that every request keeps if it returns holds after
every run that returns. -/
theorem serveAll_returned {I : List Alloc → Machine → Prop}
    (hstep : ∀ live s r p live' s', I live s → C live s r →
      (serve mode live r).run s = .ok (p, live') s' → I live' s')
    {live live' : List Alloc} {s s' : Machine} {reqs : List Req}
    {ps : List Nat} (hI : I live s) (hC : Along mode C live s reqs)
    (hrun : (serveAll mode live reqs).run s = .ok (ps, live') s') :
    I live' s' := by
  induction reqs generalizing live s ps with
  | nil =>
      cases hrun
      exact hI
  | cons r rs ih =>
      obtain ⟨hr, hrest⟩ := hC
      obtain ⟨⟨p, live₁⟩, s₁, h₁, hk⟩ := bind_returns hrun
      obtain ⟨⟨qs, live₂⟩, s₂, h₂, he⟩ := bind_returns hk
      cases he
      exact ih (hstep live s r p live₁ s₁ hI hr h₁) (hrest p live₁ s₁ h₁) h₂

/-- A condition that an invariant gives holds along every run, if every
request that returns keeps the invariant. -/
theorem along_of_inv {I : List Alloc → Machine → Prop} {P : Req → Prop}
    (hstep : ∀ live s r p live' s', I live s → P r →
      (serve mode live r).run s = .ok (p, live') s' → I live' s')
    (hC : ∀ live s r, I live s → P r → C live s r) {live : List Alloc}
    {s : Machine} {reqs : List Req} (hI : I live s)
    (hP : ∀ r ∈ reqs, P r) : Along mode C live s reqs := by
  induction reqs generalizing live s with
  | nil => exact True.intro
  | cons r rs ih =>
      have hr := hP r List.mem_cons_self
      exact ⟨hC live s r hI hr, fun p live' s' hrun =>
        ih (hstep live s r p live' s' hI hr hrun)
          fun x hx => hP x (List.mem_cons_of_mem r hx)⟩

/-- A relation between two heaps that every request keeps, with related
answers, unless it stops on both: it holds after the same requests to
both, and all answers are related, unless both runs stop. Whether they
may stop at all is `E`. -/
theorem serveAll_alike {E : Prop} {Q : Nat → Nat → Prop}
    {J : List Alloc → Machine → List Alloc → Machine → Prop}
    (hstep : ∀ live₁ s₁ live₂ s₂ r, J live₁ s₁ live₂ s₂ →
      C live₁ s₁ r → D live₂ s₂ r →
      (E ∧ ∃ e t₁ t₂, (serve mode live₁ r).run s₁ = .error e t₁ ∧
        (serve mode live₂ r).run s₂ = .error e t₂) ∨
      ∃ p₁ live₁' s₁' p₂ live₂' s₂',
        (serve mode live₁ r).run s₁ = .ok (p₁, live₁') s₁' ∧
        (serve mode live₂ r).run s₂ = .ok (p₂, live₂') s₂' ∧
        Q p₁ p₂ ∧ J live₁' s₁' live₂' s₂')
    {live₁ live₂ : List Alloc} {s₁ s₂ : Machine} {reqs : List Req}
    (hJ : J live₁ s₁ live₂ s₂) (hC : Along mode C live₁ s₁ reqs)
    (hD : Along mode D live₂ s₂ reqs) :
    (E ∧ ∃ e t₁ t₂, (serveAll mode live₁ reqs).run s₁ = .error e t₁ ∧
      (serveAll mode live₂ reqs).run s₂ = .error e t₂) ∨
    ∃ ps₁ live₁' s₁' ps₂ live₂' s₂',
      (serveAll mode live₁ reqs).run s₁ = .ok (ps₁, live₁') s₁' ∧
      (serveAll mode live₂ reqs).run s₂ = .ok (ps₂, live₂') s₂' ∧
      List.Forall₂ Q ps₁ ps₂ ∧ J live₁' s₁' live₂' s₂' := by
  induction reqs generalizing live₁ s₁ live₂ s₂ with
  | nil =>
      exact Or.inr ⟨[], live₁, s₁, [], live₂, s₂, rfl, rfl,
        List.Forall₂.nil, hJ⟩
  | cons r rs ih =>
      obtain ⟨hCr, hCrest⟩ := hC
      obtain ⟨hDr, hDrest⟩ := hD
      unfold serveAll
      rcases hstep live₁ s₁ live₂ s₂ r hJ hCr hDr with
        ⟨hE, e, t₁, t₂, h₁, h₂⟩ |
        ⟨p₁, l₁, t₁, p₂, l₂, t₂, h₁, h₂, hQ, hJ'⟩
      · exact Or.inl ⟨hE, e, t₁, t₂, bind_error h₁, bind_error h₂⟩
      rw [bind_ok h₁, bind_ok h₂]
      rcases ih hJ' (hCrest p₁ l₁ t₁ h₁) (hDrest p₂ l₂ t₂ h₂) with
        ⟨hE, e, u₁, u₂, h₁', h₂'⟩ |
        ⟨ps₁, l₁', t₁', ps₂, l₂', t₂', h₁', h₂', hQs, hJ''⟩
      · exact Or.inl ⟨hE, e, u₁, u₂, bind_error h₁', bind_error h₂'⟩
      · exact Or.inr ⟨p₁ :: ps₁, l₁', t₁', p₂ :: ps₂, l₂', t₂',
          bind_ok h₁', bind_ok h₂', List.Forall₂.cons hQ hQs, hJ''⟩

/-- A relation between two heaps that every request keeps, with related
answers, holds after the same requests to both, and all answers are
related. -/
theorem serveAll_pair {Q : Nat → Nat → Prop}
    {J : List Alloc → Machine → List Alloc → Machine → Prop}
    (hstep : ∀ live₁ s₁ live₂ s₂ r, J live₁ s₁ live₂ s₂ →
      C live₁ s₁ r → D live₂ s₂ r → ∃ p₁ live₁' s₁' p₂ live₂' s₂',
        (serve mode live₁ r).run s₁ = .ok (p₁, live₁') s₁' ∧
        (serve mode live₂ r).run s₂ = .ok (p₂, live₂') s₂' ∧
        Q p₁ p₂ ∧ J live₁' s₁' live₂' s₂')
    {live₁ live₂ : List Alloc} {s₁ s₂ : Machine} {reqs : List Req}
    (hJ : J live₁ s₁ live₂ s₂) (hC : Along mode C live₁ s₁ reqs)
    (hD : Along mode D live₂ s₂ reqs) :
    ∃ ps₁ live₁' s₁' ps₂ live₂' s₂',
      (serveAll mode live₁ reqs).run s₁ = .ok (ps₁, live₁') s₁' ∧
      (serveAll mode live₂ reqs).run s₂ = .ok (ps₂, live₂') s₂' ∧
      List.Forall₂ Q ps₁ ps₂ ∧ J live₁' s₁' live₂' s₂' :=
  (serveAll_alike (E := False) (fun live₁ s₁ live₂ s₂ r h hc hd =>
    Or.inr (hstep live₁ s₁ live₂ s₂ r h hc hd)) hJ hC hD).resolve_left
    fun h => h.1

end MallocLab.Proofs
