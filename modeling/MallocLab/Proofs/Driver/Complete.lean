/-
Does the driver accept every package that keeps its contract? Every
payload is filled with the low byte of its id, so what a reallocation
must keep is that byte, and the driver looks for it as an `int` between
0 and 255. The bytes it reads are `char`s, which are signed: from 128 on
they are negative, and the comparison fails whatever the package did.

On a lawful trace, a package that keeps its contract gets a verdict of 1
exactly if no id that is reallocated has such a low byte
(`evalMmValid_complete`).
-/
import MallocLab.Proofs.Driver.Watch

namespace MallocLab.Proofs.Driver

open Mem Hoare Model Spec.Driver

variable {σ : Type} {pkg : Package σ} {w w' w₁ : World σ} {op : TraceOp}
  {ops : List TraceOp} {live : List Block} {held : List Nat}
  {tracenum : Int} {i p : Nat}

-- =============================================================== the traces

/-- The ids in `held` name live blocks. -/
def Held (live : List Block) (held : List Nat) : Prop :=
  ∀ id ∈ held, ∃ b ∈ live, b.owner = some id

theorem Lawful.size (h : Lawful held (op :: ops)) :
    op.type ≠ .free → 1 ≤ op.size := by
  unfold Lawful at h
  cases ht : op.type with
  | alloc =>
      rw [ht] at h
      exact fun _ => h.1
  | realloc =>
      rw [ht] at h
      exact fun _ => h.1
  | free => exact fun hne => absurd rfl hne

/-- A request in a lawful trace is for a new block or names a live one. -/
theorem Lawful.owner (h : Lawful held (op :: ops))
    (hheld : Held live held) (hne : op.type ≠ .alloc) :
    ∃ b ∈ live, b.owner = some op.index := by
  unfold Lawful at h
  cases ht : op.type with
  | alloc => exact absurd ht hne
  | realloc =>
      rw [ht] at h
      exact hheld _ h.2.1
  | free =>
      rw [ht] at h
      exact hheld _ h.1

/-- The rest of a lawful trace. -/
theorem Lawful.rest (h : Lawful held (op :: ops)) :
    ∃ held', Lawful held' ops ∧ ∀ live p,
      Held live held → Held (liveNext live op p) held' := by
  unfold Lawful at h
  cases ht : op.type with
  | alloc =>
      rw [ht] at h
      refine ⟨_, h.2, fun live p hheld id hid => ?_⟩
      by_cases he : id = op.index
      · rw [he]
        exact owner_next_self (by rw [ht]; decide)
      · exact owner_next (hheld id ((List.mem_cons.1 hid).resolve_left he)) he
  | realloc =>
      rw [ht] at h
      refine ⟨_, h.2.2, fun live p hheld id hid => ?_⟩
      by_cases he : id = op.index
      · rw [he]
        exact owner_next_self (by rw [ht]; decide)
      · exact owner_next (hheld id hid) he
  | free =>
      rw [ht] at h
      refine ⟨_, h.2, fun live p hheld id hid => ?_⟩
      obtain ⟨hid, hne⟩ := List.mem_filter.1 hid
      exact owner_next (hheld id hid) (of_decide_eq_true hne)

-- ============================================================== signed bytes

/-- The low byte of an id reads back as itself below 128, and as a
negative number from there on. -/
theorem charInt_tint (index : Nat) :
    charInt (tint index).toNat = (index &&& 0xFF : Nat) ↔
      index % 256 < 128 := by
  have hland : index &&& 0xFF = index % 256 :=
    Nat.and_two_pow_sub_one_eq_mod index 8
  have hbyte : (tint index).toNat = index % 256 := by
    unfold tint
    rw [hland, UInt8.toNat_ofNat']
    exact Nat.mod_mod _ _
  unfold charInt
  rw [hland, hbyte, Int.bmod_def]
  omega

-- ============================================================ the invariant

/-- Payloads are watched and apart, and filled with their owner's byte. -/
structure Tinted (live : List Block) (w : World σ) : Prop where
  watch : Watch live w
  apart : live.Pairwise Separate
  bytes : ∀ b ∈ live, ∀ id, b.owner = some id → ∀ off < b.size,
    w.machine.mem (b.ptr + off) = tint id

/-- The bytes a reallocation compares are those the block's two sizes
share. -/
theorem compared_eq (h : Watch live w) {b : Block} (hb : b ∈ live)
    (hown : b.owner = some op.index) (h1 : 1 ≤ op.size) :
    compared w op = min b.size op.size.toNat := by
  obtain ⟨-, hsize⟩ := h.owner b hb _ hown
  obtain ⟨-, hint⟩ := h.sized b hb
  unfold compared
  rw [hsize, toInt_of_lt hint]
  split <;> omega

/-- An honoured request passes the checks, unless it reallocates an id
whose low byte is negative. -/
theorem passes_iff (h : Tinted live w) (h1 : 1 ≤ op.size)
    (hne : op.type ≠ .free)
    (hown : op.type ≠ .alloc → ∃ b ∈ live, b.owner = some op.index)
    (hc : Called w w₁) (hon : Honoured live op p w.machine w₁.machine) :
    Accepted w₁ op p ↔ (op.type = .realloc → op.index % 256 < 128) := by
  have hw₁ := h.watch.called hc
  have hn : Named live w₁ op := fun hna => Or.inl (hown hna)
  -- the bytes compared, when there are any
  have hbytes : op.type = .realloc → 0 < compared w₁ op ∧
      ∀ k < compared w₁ op, w₁.machine.mem (p + k) = tint op.index := by
    intro ht
    obtain ⟨b, hb, hbown⟩ := hown (by rw [ht]; decide)
    have hmin := compared_eq hw₁ hb hbown h1
    have hb1 := (hw₁.sized b hb).1
    refine ⟨by omega, fun k hk => ?_⟩
    rw [hmin] at hk
    rw [hon.moved ht b hb hbown k hk]
    exact h.bytes b hb _ hbown k (by omega)
  constructor
  · intro hp ht
    obtain ⟨hpos, hb⟩ := hbytes ht
    have hkept := hp.kept ht 0 hpos
    rw [hb 0 hpos] at hkept
    exact (charInt_tint _).1 hkept
  · intro hlow
    refine ⟨hon.pos hne, hon.placed hne, fun r hr => ?_, fun ht k hk => ?_⟩
    · rw [hw₁.listed_others hn] at hr
      obtain ⟨b, hb, rfl⟩ := List.mem_map.1 hr
      have hsize : 1 ≤ (wanted op p).size := by
        show 1 ≤ op.size.toNat
        omega
      exact (overlaps_false hsize ((hw₁.others hn).sized b hb).1).2
        (Or.inl (hon.apart hne b hb))
    · rw [(hbytes ht).2 k hk]
      exact (charInt_tint _).2 (hlow ht)

/-- Filling a payload leaves those apart from it alone. -/
theorem fill_apart {m : Bytes} {b : Block} {v : UInt8}
    (h : Separate (wanted op p) b) {off : Nat} (hoff : off < b.size) :
    fill m p op.size.toNat v (b.ptr + off) = m (b.ptr + off) := by
  have h' : p + op.size.toNat ≤ b.ptr ∨ b.ptr + b.size ≤ p := h
  exact fill_of_out (by omega)

/-- An honoured round that goes on keeps the invariant. -/
theorem Tinted.next (h : Tinted live w)
    (hown : op.type ≠ .alloc → ∃ b ∈ live, b.owner = some op.index)
    (h1 : op.type ≠ .free → 1 ≤ op.size) (hc : Called w w₁)
    (hon : Honoured live op p w.machine w₁.machine)
    (hp : op.type ≠ .free → Accepted w₁ op p) :
    Tinted (liveNext live op p) (outcome w₁ op p) := by
  have hn : Named live w₁ op := fun hna => Or.inl (hown hna)
  -- the others are as they were, filled by their owners
  have hkept : ∀ b ∈ others live op, ∀ id, b.owner = some id →
      ∀ off < b.size, w₁.machine.mem (b.ptr + off) = tint id := by
    intro c hcm id hid off hoff
    rw [hon.keeps c hcm off hoff]
    obtain ⟨b, hb, hptr, hsize, howns⟩ := mem_others hcm
    rw [hptr]
    exact h.bytes b hb id (howns id hid).1 off (hsize ▸ hoff)
  refine ⟨(h.watch.called hc).outcome hn h1 hp, ?_, ?_⟩
  · have hnew : op.type ≠ .free →
        (wanted op p :: others live op).Pairwise Separate := fun hne =>
      List.pairwise_cons.2 ⟨hon.apart hne, apart_others h.apart⟩
    unfold liveNext
    cases ht : op.type with
    | alloc => exact hnew (by rw [ht]; decide)
    | realloc => exact hnew (by rw [ht]; decide)
    | free => exact apart_others h.apart
  · have hnew : op.type ≠ .free → ∀ b ∈ wanted op p :: others live op,
        ∀ id, b.owner = some id → ∀ off < b.size,
          fill w₁.machine.mem p op.size.toNat (tint op.index) (b.ptr + off)
            = tint id := by
      intro hne b hb id hid off hoff
      rcases List.mem_cons.1 hb with rfl | hb
      · cases hid
        exact fill_of_in ⟨Nat.le_add_right _ _, Nat.add_lt_add_left hoff _⟩
      · rw [fill_apart (hon.apart hne b hb) hoff]
        exact hkept b hb id hid off hoff
    unfold liveNext outcome settled
    cases ht : op.type with
    | alloc => exact hnew (by rw [ht]; decide)
    | realloc => exact hnew (by rw [ht]; decide)
    | free => exact hkept

-- ================================================================= the loop

/-- The loop comes to 1 exactly if no reallocated id has a negative low
byte. -/
theorem evalOps_one_iff (h : Tinted live w) (hheld : Held live held)
    (hlaw : Lawful held ops)
    (hC : Before pkg tracenum (Honours pkg) i live w ops) :
    (∃ w', (evalOps pkg tracenum i ops).run w = .ok 1 w') ↔
      ∀ op ∈ ops, op.type = .realloc → op.index % 256 < 128 := by
  induction ops generalizing i live w held with
  | nil =>
      exact iff_of_true ⟨w, rfl⟩ fun op hop => by cases hop
  | cons op ops ih =>
      obtain ⟨⟨p, w₁, hreq, hon⟩, hrest⟩ := hC
      have h1 := Lawful.size hlaw
      have hown := Lawful.owner hlaw hheld
      obtain ⟨held', hlaw', hheld'⟩ := Lawful.rest hlaw
      have hc := request_called hreq
      have hround : ∀ w', (evalOp pkg tracenum i op).run w = .ok true w' ↔
          ∃ p w₁, (request pkg op).run w = .ok p w₁ ∧
            (op.type ≠ .free → Accepted w₁ op p) ∧ outcome w₁ op p = w' :=
        fun w' => evalOp_true h.watch.backed h1
      have hpass : (op.type ≠ .free → Accepted w₁ op p) ↔
          (op.type = .realloc → op.index % 256 < 128) := by
        by_cases hne : op.type = .free
        · rw [hne]
          exact iff_of_true (fun hf => absurd rfl hf) fun hr => by cases hr
        · rw [← passes_iff h (h1 hne) hne hown hc hon]
          exact forall_prop_of_true hne
      -- the rest of the loop, after a round that goes on
      have hgo : (op.type ≠ .free → Accepted w₁ op p) →
          ((∃ w', (evalOps pkg tracenum (i + 1) ops).run (outcome w₁ op p)
            = .ok 1 w') ↔
          ∀ op ∈ ops, op.type = .realloc → op.index % 256 < 128) := by
        intro hp
        have hC' := hrest _ ((hround _).2 ⟨p, w₁, hreq, hp, rfl⟩)
        rw [outcome_next] at hC'
        exact ih (h.next hown h1 hc hon hp) (hheld' live p hheld) hlaw' hC'
      constructor
      · rintro ⟨w', hrun⟩
        obtain ⟨w₂, hop, hloop⟩ := evalOps_cons.1 hrun
        obtain ⟨q, w₃, hreq', hp, rfl⟩ := (hround w₂).1 hop
        cases hreq.symm.trans hreq'
        intro x hx
        rcases List.mem_cons.1 hx with rfl | hx
        · exact hpass.1 hp
        · exact (hgo hp).1 ⟨w', hloop⟩ x hx
      · intro hall
        have hp := hpass.2 (hall op List.mem_cons_self)
        obtain ⟨w', hloop⟩ := (hgo hp).2 fun x hx =>
          hall x (List.mem_cons_of_mem _ hx)
        exact ⟨w', evalOps_cons.2
          ⟨_, (hround _).2 ⟨p, w₁, hreq, hp, rfl⟩, hloop⟩⟩

/-- A package that initialises and keeps its contract on a lawful trace
gets a verdict of 1 exactly if no id that is reallocated has a low byte of
128 or more. -/
theorem evalMmValid_complete (pkg : Package σ) (tracenum : Int)
    (hs : Backed w.machine) (hlaw : Lawful [] ops) {r : Int}
    {w₀ : World σ} (hinit : (evalInit pkg).run w = .ok r w₀) (hr : 0 ≤ r)
    (hC : AlwaysBefore pkg tracenum (Honours pkg) w ops) :
    (∃ w', (evalMmValid pkg ops tracenum).run w = .ok 1 w') ↔
      ∀ op ∈ ops, op.type = .realloc → op.index % 256 < 128 := by
  have htinted : Tinted [] w₀ := ⟨evalInit_watch hs hinit,
    List.Pairwise.nil, fun b hb => by cases hb⟩
  rw [← evalOps_one_iff htinted (fun id hid => by cases hid) hlaw
    (hC r w₀ hinit)]
  refine exists_congr fun w' => evalMmValid_one.trans ?_
  constructor
  · rintro ⟨r', w₁, hinit', -, hloop⟩
    cases hinit.symm.trans hinit'
    exact hloop
  · intro hloop
    exact ⟨r, w₀, hinit, hr, hloop⟩

/-- Eight bytes for an id, reallocated to eight bytes. -/
def again (id : Nat) : List TraceOp :=
  [eight .alloc id, eight .realloc id]

/-- The state the script starts in. -/
def atSixteen : World (List Nat) :=
  World.start (memInit Region.sample fun _ => 0) [16, 16]

/-- Handing out the same eight bytes twice keeps the contract. -/
theorem again_honoured (id : Nat) :
    AlwaysBefore scripted 0 (Honours scripted) atSixteen (again id) := by
  have hinit : (evalInit scripted).run atSixteen
      = .ok 0 (World.start { memInit Region.sample fun _ => 0 with
          memBrk := 72 } [16, 16]) := rfl
  have hback : Backed { memInit Region.sample fun _ => 0 with
      memBrk := 72 } := ⟨by decide, rfl, by decide, by decide⟩
  intro r w₀ hinit'
  cases hinit.symm.trans hinit'
  refine ⟨⟨16, _, rfl, ?_⟩, fun w' hround => ⟨?_, fun _ _ => trivial⟩⟩
  · refine ⟨fun b hb => (by cases hb), fun _ => (by decide), fun _ => ?_,
      fun _ b hb => (by cases hb), fun ht => (by cases ht)⟩
    exact ⟨show 16 % 8 = 0 by decide, show 8 ≤ 16 by decide,
      show 16 + 8 ≤ 72 by decide⟩
  · obtain ⟨p, w₁, hreq, -, rfl⟩ := (evalOp_true hback
      fun _ => show (1 : Int) ≤ 8 by decide).1 hround
    cases hreq
    refine ⟨16, _, rfl, ?_⟩
    rw [outcome_next]
    -- the only live block is the one reallocated
    have hothers : ∀ b, b ∉ others
        (liveNext [] (eight .alloc id) 16) (eight .realloc id) := by
      intro b hb
      obtain ⟨hb, hne⟩ := List.mem_filter.1 hb
      cases List.mem_singleton.1 hb
      exact of_decide_eq_true hne rfl
    refine ⟨fun b hb => absurd hb (hothers b), fun _ => (by decide),
      fun _ => ?_, fun _ b hb => absurd hb (hothers b), ?_⟩
    · exact ⟨show 16 % 8 = 0 by decide, show 8 ≤ 16 by decide,
        show 16 + 8 ≤ 72 by decide⟩
    · intro _ b hb _ off _
      cases List.mem_singleton.1 hb
      rfl

/-- An id below 128. -/
theorem evalMmValid_complete_sample :
    (∃ w', (evalMmValid scripted (again 5) 0).run atSixteen = .ok 1 w') ↔
      ∀ op ∈ again 5, op.type = .realloc → op.index % 256 < 128 :=
  evalMmValid_complete scripted 0 (backed_memInit _ _)
    ⟨by decide, by decide, List.mem_cons_self, trivial⟩ (r := 0) rfl
    (by decide) (again_honoured 5)

/-- The id 128: the contract is kept, and the verdict is 0. -/
theorem evalMmValid_incomplete :
    Lawful [] (again 128) ∧
    (∃ w₀, (evalInit scripted).run atSixteen = .ok 0 w₀) ∧
    AlwaysBefore scripted 0 (Honours scripted) atSixteen (again 128) ∧
    ∃ w', (evalMmValid scripted (again 128) 0).run atSixteen
      = .ok 0 w' := by
  obtain ⟨w', hrun, -⟩ := of_reads (fun _ => ()) (show reads (fun _ => ())
    ((evalMmValid scripted (again 128) 0).run atSixteen) = some (0, ())
    by decide +kernel)
  exact ⟨⟨by decide, by decide, List.mem_cons_self, trivial⟩, ⟨_, rfl⟩,
    again_honoured 128, w', hrun⟩

end MallocLab.Proofs.Driver
