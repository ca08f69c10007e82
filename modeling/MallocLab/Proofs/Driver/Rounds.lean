/-
What a round of the driver's loop does when it goes on, in one equation
for all three requests (`evalOp_true`): the package answers, the answer
passes the checks (`Accepted`), and the round leaves `outcome`.

A call of the package changes the machine and its static data, no more
(`Called`). The checks and the bookkeeping come after it, or commute
with it: `remove_range` before `mm_free`.
-/
import MallocLab.Lib.Triple
import MallocLab.Spec.Driver

namespace MallocLab.Proofs.Driver

open Mem Hoare Model Spec.Driver

variable {σ α : Type} {pkg : Package σ} {w w' : World σ} {op : TraceOp}
  {tracenum : Int} {i p : Nat}

-- ============================================================ the machine

theorem onMachine_returns {x : M α} {a : α} :
    (onMachine x).run w = .ok a w' ↔
      ∃ s, x.run w.machine = .ok a s ∧ { w with machine := s } = w' := by
  change onMachine x w = _ ↔ _
  unfold onMachine
  cases x.run w.machine with
  | ok b s =>
      constructor
      · intro h
        cases h
        exact ⟨s, rfl, rfl⟩
      · rintro ⟨t, ht, rfl⟩
        cases ht
        rfl
  | error e s =>
      constructor
      · intro h
        cases h
      · rintro ⟨t, ht, -⟩
        cases ht

theorem call_returns {f : σ → M (α × σ)} {a : α} :
    (call f).run w = .ok a w' ↔
      ∃ st s, (f w.statics).run w.machine = .ok (a, st) s ∧
        { w with machine := s, statics := st } = w' := by
  change call f w = _ ↔ _
  unfold call
  cases (f w.statics).run w.machine with
  | ok b s =>
      constructor
      · intro h
        cases h
        exact ⟨b.2, s, rfl, rfl⟩
      · rintro ⟨st, t, ht, rfl⟩
        cases ht
        rfl
  | error e s =>
      constructor
      · intro h
        cases h
      · rintro ⟨st, t, ht, -⟩
        cases ht

/-- What a call leaves of the driver's state. -/
structure Called (w w' : World σ) : Prop where
  sbrks : Sbrks w.machine w'.machine
  ranges : w'.ranges = w.ranges
  blocks : w'.blocks = w.blocks
  blockSizes : w'.blockSizes = w.blockSizes

theorem call_called {f : σ → M (α × σ)} {a : α}
    (hf : ∀ st s r s', (f st).run s = .ok r s' → Sbrks s s')
    (h : (call f).run w = .ok a w') : Called w w' := by
  obtain ⟨st, s, hrun, rfl⟩ := call_returns.1 h
  exact ⟨hf _ _ _ _ hrun, rfl, rfl, rfl⟩

/-- A call does not look at the range list. -/
theorem call_frame {f : σ → M (α × σ)} {a : α} {rs : List Range} :
    (call f).run { w with ranges := rs } = .ok a w' ↔
      ∃ w₁, (call f).run w = .ok a w₁ ∧ { w₁ with ranges := rs } = w' := by
  constructor
  · intro h
    obtain ⟨st, s, hrun, rfl⟩ := call_returns.1 h
    exact ⟨_, call_returns.2 ⟨st, s, hrun, rfl⟩, rfl⟩
  · rintro ⟨w₁, h, rfl⟩
    obtain ⟨st, s, hrun, rfl⟩ := call_returns.1 h
    exact call_returns.2 ⟨st, s, hrun, rfl⟩

theorem request_alloc (h : op.type = .alloc) : (request pkg op).run w
    = (call (pkg.mmMalloc (sizeT op.size))).run w := by
  unfold request
  rw [h]
  rfl

theorem request_realloc (h : op.type = .realloc) : (request pkg op).run w
    = (call (pkg.mmRealloc (w.blocks op.index) (sizeT op.size))).run w := by
  unfold request
  rw [h]
  rfl

theorem request_free (h : op.type = .free) :
    (request pkg op).run w = .ok p w' ↔ p = 0 ∧
      (call (pkg.mmFree (w.blocks op.index))).run w = .ok () w' := by
  unfold request
  rw [h, returns_bind]
  constructor
  · rintro ⟨t, w₀, hget, hrest⟩
    obtain ⟨rfl, rfl⟩ := returns_get.1 hget
    obtain ⟨u, w₁, hcall, hret⟩ := returns_bind.1 hrest
    obtain ⟨rfl, rfl⟩ := returns_pure.1 hret
    exact ⟨rfl, hcall⟩
  · rintro ⟨rfl, hcall⟩
    exact ⟨w, w, rfl, returns_bind.2 ⟨(), w', hcall, rfl⟩⟩

/-- The call a request makes is a call. -/
theorem request_called (h : (request pkg op).run w = .ok p w') :
    Called w w' := by
  cases ht : op.type with
  | alloc =>
      rw [request_alloc ht] at h
      exact call_called (pkg.malloc_sbrks _) h
  | realloc =>
      rw [request_realloc ht] at h
      exact call_called (pkg.realloc_sbrks _ _) h
  | free =>
      obtain ⟨-, h⟩ := (request_free ht).1 h
      exact call_called (pkg.free_sbrks _) h

-- ============================================================== the checks

theorem sizeT_of_nonneg {i : Int} (h : 0 ≤ i) (h' : i < 2 ^ 64) :
    sizeT i = i.toNat := by
  unfold sizeT
  rw [Int.emod_eq_of_lt h h']

/-- A complaint is no way to go on. -/
theorem mallocError_false {msg : String} : ¬ (do
    mallocError tracenum i msg
    return false : D σ Bool).run w = .ok true w' := by
  intro h
  cases h

/-- `add_range` accepts a payload at an aligned address inside the heap
that meets no range where the test looks. -/
theorem addRange_true (hs : Backed w.machine) (h1 : 1 ≤ op.size) :
    (addRange p op.size tracenum i).run w = .ok true w' ↔
      (Placed w.machine (wanted op p) ∧
        ∀ r ∈ w.ranges, overlaps p (p + op.size.toNat - 1) r = false) ∧
      { w with ranges := ⟨p, p + op.size.toNat - 1⟩ :: w.ranges } = w' := by
  obtain ⟨hpos, hmax, hfits, hlimit⟩ := hs
  have hint := op.int.2
  have haligned : u32 p % alignment = p % 8 := by
    unfold u32 alignment
    omega
  -- a last address that wraps is below the heap
  have hhi : sizeT (p + op.size - 1) = p + op.size.toNat - 1 ∨
      p > w.machine.memBrk - 1 ∨
      sizeT (p + op.size - 1) < w.machine.memStartBrk ∧
        w.machine.memBrk < p + op.size.toNat := by
    unfold sizeT
    unfold maxHeap at hmax
    omega
  have hheapLo : (onMachine memHeapLo : D σ Nat).run w
      = .ok w.machine.memStartBrk w := rfl
  have hheapHi : (onMachine memHeapHi : D σ Nat).run w
      = .ok (w.machine.memBrk - 1) w := rfl
  unfold addRange
  simp only [if_neg (show ¬ op.size < 0 by omega), haligned]
  generalize sizeT (p + op.size - 1) = hi at hhi ⊢
  by_cases hmod : p % 8 = 0
  · rw [if_neg (not_not_intro hmod)]
    rw [bind_ok hheapLo, bind_ok hheapHi]
    by_cases hout : p < w.machine.memStartBrk ∨ p > w.machine.memBrk - 1 ∨
        hi < w.machine.memStartBrk ∨ hi > w.machine.memBrk - 1
    · rw [if_pos hout]
      refine iff_of_false mallocError_false ?_
      rintro ⟨⟨hplaced, -⟩, -⟩
      have hlo : w.machine.memStartBrk ≤ p := hplaced.lo
      have hhi : p + op.size.toNat ≤ w.machine.memBrk := hplaced.hi
      omega
    · rw [if_neg hout]
      have hlast : hi = p + op.size.toNat - 1 := by omega
      have hplaced : Placed w.machine (wanted op p) := by
        refine ⟨hmod, show _ ≤ p by omega, show p + op.size.toNat ≤ _ from ?_⟩
        omega
      subst hlast
      rw [bind_ok (rfl : (get : D σ _).run w = .ok w w)]
      cases hfind : w.ranges.find? (overlaps p (p + op.size.toNat - 1)) with
      | some r =>
          refine iff_of_false mallocError_false ?_
          rintro ⟨⟨-, hclear⟩, -⟩
          have hmeets := List.find?_some hfind
          rw [hclear r (List.mem_of_find?_eq_some hfind)] at hmeets
          cases hmeets
      | none =>
          have hclear := List.find?_eq_none.1 hfind
          constructor
          · intro h
            cases h
            exact ⟨⟨hplaced, fun r hr => Bool.eq_false_iff.2 (hclear r hr)⟩,
              rfl⟩
          · rintro ⟨-, rfl⟩
            rfl
  · rw [if_pos hmod]
    refine iff_of_false mallocError_false ?_
    rintro ⟨⟨hplaced, -⟩, -⟩
    exact hmod hplaced.aligned

/-- The comparison goes through when every byte it looks at is the low
byte of the id. -/
theorem keptData_true {index n j : Nat}
    (hacc : ∀ k < n, Access w.machine (p + (j + k)) 1) :
    (keptData p index n j).run w = .ok true w' ↔
      (∀ k < n, charInt (w.machine.mem (p + (j + k))).toNat
        = (index &&& 0xFF : Nat)) ∧ w = w' := by
  induction n generalizing j with
  | zero =>
      refine returns_pure.trans ?_
      exact ⟨fun h => ⟨fun k hk => absurd hk (Nat.not_lt_zero k), h.2⟩,
        fun h => ⟨rfl, h.2⟩⟩
  | succ n ih =>
      have hload : (onMachine (load 1 (p + j)) : D σ Nat).run w
          = .ok (w.machine.mem (p + j)).toNat w :=
        onMachine_returns.2 ⟨_, load_ok (hacc 0 (Nat.succ_pos n)), rfl⟩
      have hrest := ih (j := j + 1) fun k hk => by
        have := hacc (k + 1) (Nat.succ_lt_succ hk)
        rwa [show j + (k + 1) = j + 1 + k by omega] at this
      unfold keptData
      rw [bind_ok hload]
      by_cases hbyte : charInt (w.machine.mem (p + j)).toNat
          = (index &&& 0xFF : Nat)
      · rw [if_neg (not_not_intro hbyte), hrest]
        refine and_congr_left fun _ => ⟨fun h k hk => ?_, fun h k hk => ?_⟩
        · cases k with
          | zero => exact hbyte
          | succ k =>
              rw [show j + (k + 1) = j + 1 + k by omega]
              exact h k (Nat.lt_of_succ_lt_succ hk)
        · have := h (k + 1) (Nat.succ_lt_succ hk)
          rwa [show j + (k + 1) = j + 1 + k by omega] at this
      · rw [if_pos hbyte]
        refine iff_of_false (fun h => by cases h) fun h => ?_
        exact hbyte (h.1 0 (Nat.succ_pos n))

-- =============================================================== the rounds

/-- The ranges of the blocks a request is not about. -/
def listed (w : World σ) (op : TraceOp) : List Range :=
  match op.type with
  | .alloc => w.ranges
  | _ => w.ranges.eraseP (·.lo == w.blocks op.index)

/-- The bytes a reallocation compares. -/
def compared (w : World σ) (op : TraceOp) : Nat :=
  (if op.size < toInt (w.blockSizes op.index) then op.size
    else toInt (w.blockSizes op.index)).toNat

/-- The checks on the pointer a request returned. -/
structure Accepted (w : World σ) (op : TraceOp) (p : Nat) : Prop where
  pos : p ≠ 0
  placed : Placed w.machine (wanted op p)
  clear : ∀ r ∈ listed w op,
    overlaps p (p + op.size.toNat - 1) r = false
  kept : op.type = .realloc → ∀ k < compared w op,
    charInt (w.machine.mem (p + k)).toNat = (op.index &&& 0xFF : Nat)

/-- The byte a payload is filled with. -/
def tint (index : Nat) : UInt8 := UInt8.ofNat (index &&& 0xFF)

/-- The payload filled and remembered. -/
def settled (w : World σ) (op : TraceOp) (p : Nat) : World σ :=
  { w with
    machine := { w.machine with
      mem := fill w.machine.mem p op.size.toNat (tint op.index) }
    blocks := Function.update w.blocks op.index p
    blockSizes := Function.update w.blockSizes op.index op.size.toNat }

/-- The state a round leaves that goes on. -/
def outcome (w : World σ) (op : TraceOp) (p : Nat) : World σ :=
  match op.type with
  | .free => { w with ranges := listed w op }
  | _ => settled { w with
      ranges := ⟨p, p + op.size.toNat - 1⟩ :: listed w op } op p

/-- The end of a round that checked a new payload. -/
theorem settle_true (hs : Backed w.machine) (h1 : 1 ≤ op.size)
    (hplaced : Placed w.machine (wanted op p)) :
    (do
      fillRange p op.index op.size
      remember op.index p op.size
      return true : D σ Bool).run w = .ok true w' ↔
    settled w op p = w' := by
  have hint := op.int.2
  have hsize := sizeT_of_nonneg (i := op.size) (by omega) (by omega)
  have hfill : (fillRange p op.index op.size : D σ Unit).run w
      = .ok () { w with machine := { w.machine with
          mem := fill w.machine.mem p op.size.toNat (tint op.index) } } := by
    unfold fillRange
    rw [hsize]
    have hacc := hplaced.access hs
      (show 0 + op.size.toNat ≤ op.size.toNat by omega)
    exact onMachine_returns.2 ⟨_, memset_ok _ hacc, rfl⟩
  rw [bind_ok hfill]
  unfold remember
  rw [hsize]
  constructor
  · intro h
    cases h
    rfl
  · rintro rfl
    rfl

/-- A check that must come out true, with what is done if it does not. -/
theorem unless_true {x : D σ Bool} {y z : D σ α} {a : α}
    (hz : ∀ w₂ w', z.run w₂ ≠ .ok a w') :
    (do
      if (← x) = false then z
      else y : D σ α).run w = .ok a w' ↔
    ∃ w₂, x.run w = .ok true w₂ ∧ y.run w₂ = .ok a w' := by
  rw [returns_bind]
  constructor
  · rintro ⟨b, w₂, hx, hrest⟩
    cases b with
    | true => exact ⟨w₂, hx, hrest⟩
    | false => exact absurd hrest (hz w₂ w')
  · rintro ⟨w₂, hx, hy⟩
    exact ⟨true, w₂, hx, hy⟩

theorem evalOp_alloc (ht : op.type = .alloc) (hs : Backed w.machine)
    (h1 : 1 ≤ op.size) :
    (evalOp pkg tracenum i op).run w = .ok true w' ↔
      ∃ p w₁, (request pkg op).run w = .ok p w₁ ∧ Accepted w₁ op p ∧
        outcome w₁ op p = w' := by
  have hlisted : ∀ v : World σ, listed v op = v.ranges := fun v => by
    unfold listed
    rw [ht]
  unfold evalOp
  simp only [ht]
  rw [returns_bind, ← request_alloc ht]
  refine exists_congr fun p => exists_congr fun w₁ =>
    and_congr_right fun hreq => ?_
  have hs₁ := hs.sbrks (request_called hreq).sbrks
  by_cases hp : p = 0
  · rw [if_pos hp]
    exact iff_of_false mallocError_false fun h => h.1.pos hp
  rw [if_neg hp, unless_true fun _ _ h => by cases h]
  constructor
  · rintro ⟨w₂, hadd, hrest⟩
    obtain ⟨⟨hplaced, hclear⟩, rfl⟩ := (addRange_true hs₁ h1).1 hadd
    obtain rfl := (settle_true (by exact hs₁) h1 (by exact hplaced)).1 hrest
    refine ⟨⟨hp, hplaced, by rwa [hlisted], fun h => ?_⟩, ?_⟩
    · rw [ht] at h
      cases h
    · unfold outcome
      simp only [ht, hlisted]
  · rintro ⟨hpass, rfl⟩
    have hclear := hpass.clear
    rw [hlisted] at hclear
    refine ⟨_, (addRange_true hs₁ h1).2 ⟨⟨hpass.placed, hclear⟩, rfl⟩, ?_⟩
    refine (settle_true (by exact hs₁) h1 (by exact hpass.placed)).2 ?_
    unfold outcome
    simp only [ht, hlisted]

theorem evalOp_realloc (ht : op.type = .realloc) (hs : Backed w.machine)
    (h1 : 1 ≤ op.size) :
    (evalOp pkg tracenum i op).run w = .ok true w' ↔
      ∃ p w₁, (request pkg op).run w = .ok p w₁ ∧ Accepted w₁ op p ∧
        outcome w₁ op p = w' := by
  unfold evalOp
  simp only [ht]
  rw [bind_ok (rfl : (get : D σ _).run w = .ok w w), returns_bind,
    ← request_realloc ht]
  refine exists_congr fun p => exists_congr fun w₁ =>
    and_congr_right fun hreq => ?_
  have hcalled := request_called hreq
  have hs₁ := hs.sbrks hcalled.sbrks
  by_cases hp : p = 0
  · rw [if_pos hp]
    exact iff_of_false mallocError_false fun h => h.1.pos hp
  have hremove : (removeRange (w.blocks op.index) : D σ Unit).run w₁
      = .ok () { w₁ with ranges := listed w₁ op } := by
    unfold listed
    rw [ht, ← hcalled.blocks]
    rfl
  -- the bytes compared are the payload's
  have hbound : compared w₁ op ≤ op.size.toNat := by
    unfold compared
    split <;> omega
  have hacc : Placed w₁.machine (wanted op p) → ∀ k < compared w₁ op,
      Access w₁.machine (p + (0 + k)) 1 := fun hplaced k hk =>
    hplaced.access hs₁ (show 0 + k + 1 ≤ op.size.toNat by omega)
  rw [if_neg hp, bind_ok hremove, unless_true fun _ _ h => by cases h]
  constructor
  · rintro ⟨w₂, hadd, hrest⟩
    obtain ⟨⟨hplaced, hclear⟩, rfl⟩ := (addRange_true (by exact hs₁) h1).1 hadd
    rw [bind_ok (rfl : (get : D σ _).run _ = .ok _ _),
      unless_true fun _ _ => mallocError_false] at hrest
    obtain ⟨w₃, hkept, hrest⟩ := hrest
    obtain ⟨hbytes, rfl⟩ := (keptData_true (by exact hacc hplaced)).1 hkept
    obtain rfl := (settle_true (by exact hs₁) h1 (by exact hplaced)).1 hrest
    refine ⟨⟨hp, hplaced, hclear, fun _ k hk => ?_⟩, ?_⟩
    · have := hbytes k hk
      rwa [Nat.zero_add] at this
    · unfold outcome
      simp only [ht]
  · rintro ⟨hpass, rfl⟩
    refine ⟨_, (addRange_true (w := { w₁ with ranges := listed w₁ op })
      hs₁ h1).2 ⟨⟨hpass.placed, hpass.clear⟩, rfl⟩, ?_⟩
    rw [bind_ok (rfl : (get : D σ _).run _ = .ok _ _),
      unless_true fun _ _ => mallocError_false]
    refine ⟨_, (keptData_true (by exact hacc hpass.placed)).2
      ⟨fun k hk => ?_, rfl⟩, ?_⟩
    · rw [Nat.zero_add]
      exact hpass.kept ht k hk
    · refine (settle_true (by exact hs₁) h1 (by exact hpass.placed)).2 ?_
      unfold outcome
      simp only [ht]

theorem evalOp_free (ht : op.type = .free) :
    (evalOp pkg tracenum i op).run w = .ok true w' ↔
      ∃ p w₁, (request pkg op).run w = .ok p w₁ ∧
        outcome w₁ op p = w' := by
  unfold evalOp
  simp only [ht]
  rw [bind_ok (rfl : (get : D σ _).run w = .ok w w)]
  have hremove : (removeRange (w.blocks op.index) : D σ Unit).run w
      = .ok () { w with ranges := listed w op } := by
    unfold listed
    rw [ht]
    rfl
  rw [bind_ok hremove, returns_bind]
  constructor
  · rintro ⟨u, w₂, hcall, hret⟩
    obtain ⟨-, rfl⟩ := returns_pure.1 hret
    obtain ⟨w₁, hfree, rfl⟩ := call_frame.1 hcall
    refine ⟨0, w₁, (request_free ht).2 ⟨rfl, hfree⟩, ?_⟩
    have hcalled := call_called (pkg.free_sbrks _) hfree
    unfold outcome listed
    simp only [ht, hcalled.ranges, hcalled.blocks]
  · rintro ⟨p, w₁, hreq, rfl⟩
    obtain ⟨-, hfree⟩ := (request_free ht).1 hreq
    have hcalled := call_called (pkg.free_sbrks _) hfree
    refine ⟨(), _, call_frame.2 ⟨w₁, hfree, rfl⟩, ?_⟩
    refine returns_pure.2 ⟨rfl, ?_⟩
    unfold outcome listed
    simp only [ht, hcalled.ranges, hcalled.blocks]

/-- A round goes on when the package's answer passes the checks, and this
is the state it leaves. -/
theorem evalOp_true (hs : Backed w.machine)
    (h1 : op.type ≠ .free → 1 ≤ op.size) :
    (evalOp pkg tracenum i op).run w = .ok true w' ↔
      ∃ p w₁, (request pkg op).run w = .ok p w₁ ∧
        (op.type ≠ .free → Accepted w₁ op p) ∧ outcome w₁ op p = w' := by
  cases ht : op.type with
  | alloc =>
      rw [evalOp_alloc ht hs (h1 (by rw [ht]; decide))]
      simp
  | realloc =>
      rw [evalOp_realloc ht hs (h1 (by rw [ht]; decide))]
      simp
  | free =>
      rw [evalOp_free ht]
      simp

end MallocLab.Proofs.Driver
