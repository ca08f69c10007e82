/-
A package that answers as a store does: what that is (`Service`), and
what it makes of one request of the driver (`request_serves`).

`Service.Rep h live st s` says that the package stands for the heap `h`
and its live blocks are `live`, in any order: a request names its block
by address, and the block can be put first. The laws are what the
refinements of the two allocators prove of each call, in the driver's
terms, and that clearing the storage makes it ready to be initialised
again.
-/
import MallocLab.Lib.Intervals
import MallocLab.Model.Walk
import MallocLab.Proofs.Driver.Totals

namespace MallocLab.Proofs.Driver

open Mem Hoare Model Spec Spec.Driver

variable {σ α H : Type} {pkg : Package σ} {S : Store H}

-- ============================================================== the service

/-- The bytes of the blocks `live` are the same in two memories. -/
def Kept (live : List Alloc) (m m' : Bytes) : Prop :=
  ∀ a ∈ live, ∀ off < a.size, m' (a.ptr + off) = m (a.ptr + off)

/-- The machine with its storage wiped, as `mem_clear` leaves it. -/
def wiped (s : Machine) : Machine :=
  { s with
    mem := fill s.mem s.memStartBrk maxHeap 0
    memBrk := s.memStartBrk }

/-- The package answers as the store does: blocks of `lo` bytes or more
are allocated, and resized to one byte or more, up to `hi` bytes. -/
structure Service (pkg : Package σ) (S : Store H) where
  lo : Nat
  hi : Nat
  /-- The address of an offset. -/
  addr : Nat → Nat
  /-- An empty heap that can be initialised. -/
  Ready : σ → Machine → Prop
  /-- The package stands for a heap with these live blocks. -/
  Rep : H → List Alloc → σ → Machine → Prop
  pos : 1 ≤ lo
  backed : ∀ {st s}, Ready st s → Backed s
  init : ∀ {st s}, Ready st s → ∃ r st' s',
    (pkg.mmInit st).run s = .ok (r, st') s' ∧ 0 ≤ r ∧ Rep S.init [] st' s'
  perm : ∀ {h live live' st s}, Rep h live st s → live.Perm live' →
    Rep h live' st s
  malloc : ∀ {h live st s n}, Rep h live st s → lo ≤ n → n ≤ hi →
    match S.malloc h n with
    | some (o, h') => ∃ st' s',
        (pkg.mmMalloc n st).run s = .ok (addr o, st') s' ∧
        Rep h' (⟨addr o, n⟩ :: live) st' s' ∧ Kept live s.mem s'.mem
    | none => ∃ st' s', (pkg.mmMalloc n st).run s = .ok (0, st') s'
  realloc : ∀ {h live st s o k n},
    Rep h (⟨addr o, k⟩ :: live) st s → 1 ≤ n → n ≤ hi →
    match S.realloc h o n with
    | some (some (q, h')) => ∃ st' s',
        (pkg.mmRealloc (addr o) n st).run s = .ok (addr q, st') s' ∧
        Rep h' (⟨addr q, n⟩ :: live) st' s' ∧ Kept live s.mem s'.mem ∧
        ∀ off < min k n, s'.mem (addr q + off) = s.mem (addr o + off)
    | some none => ∃ st' s',
        (pkg.mmRealloc (addr o) n st).run s = .ok (0, st') s'
    | none => ∃ s',
        (pkg.mmRealloc (addr o) n st).run s = .error .fault s'
  free : ∀ {h live st s o k}, Rep h (⟨addr o, k⟩ :: live) st s →
    ∃ st' s', (pkg.mmFree (addr o) st).run s = .ok ((), st') s' ∧
      Rep (S.free h o) live st' s' ∧ Kept live s.mem s'.mem
  write : ∀ {h live st s a m}, Rep h live st s → a ∈ live →
    (∀ y, y < a.ptr ∨ a.ptr + a.size ≤ y → m y = s.mem y) →
    Rep h live st { s with mem := m }
  placed : ∀ {h live st s a}, Rep h live st s → a ∈ live → a.ptr ≠ 0 ∧
    a.ptr % 8 = 0 ∧ s.memStartBrk ≤ a.ptr ∧ a.ptr + a.size ≤ s.memBrk
  apart : ∀ {h live st s}, Rep h live st s → live.Pairwise Alloc.Apart
  extent : ∀ {h live st s}, Rep h live st s →
    s.memBrk = s.memStartBrk + S.extent h
  clear : ∀ {h live st s}, Rep h live st s → Ready st (wiped s)

-- ========================================================== the live blocks

/-- A live block, as the package knows it. -/
def given (b : Block) : Alloc := ⟨b.ptr, b.size⟩

@[simp] theorem given_disown (id : Nat) (b : Block) :
    given (b.disown id) = given b := by
  unfold given
  rw [disown_ptr, disown_size]

/-- The driver's pointers and the ledger's offsets agree about the live
blocks, and the package stands for the ledger's heap. -/
structure Tallies (V : Service pkg S) (live : List Block) (w : World σ)
    (l : Ledger H) : Prop where
  rep : V.Rep l.heap (live.map given) w.statics w.machine
  sized : ∀ b ∈ live, 1 ≤ b.size
  blocks : ∀ b ∈ live, ∀ id, b.owner = some id → w.blocks id = b.ptr
  place : ∀ b ∈ live, ∀ id, b.owner = some id → b.ptr = V.addr (l.place id)

variable {V : Service pkg S} {live : List Block} {w w' : World σ}
  {l : Ledger H} {op : TraceOp}

/-- Live blocks start at different addresses. -/
theorem Tallies.distinct (h : Tallies V live w l) :
    (live.map Block.ptr).Nodup := by
  have hapart := V.apart h.rep
  rw [List.pairwise_map] at hapart
  refine List.pairwise_map.2 ?_
  refine hapart.imp_of_mem fun {a b} ha hb hab he => ?_
  have h1 := h.sized a ha
  have h2 := h.sized b hb
  have hab' : a.ptr + a.size ≤ b.ptr ∨ b.ptr + b.size ≤ a.ptr := hab
  omega

/-- An id owns one live block at most. -/
theorem Tallies.owner_inj (h : Tallies V live w l) {b c : Block}
    (hb : b ∈ live) (hc : c ∈ live) {id : Nat} (hob : b.owner = some id)
    (hoc : c.owner = some id) : b = c :=
  List.inj_on_of_nodup_map h.distinct hb hc
    ((h.blocks b hb id hob).symm.trans (h.blocks c hc id hoc))

/-- So no two of them have one id. -/
theorem Tallies.one (h : Tallies V live w l) : OneEach live := by
  refine (List.pairwise_map.1 h.distinct).imp_of_mem
    fun {b c} hb hc hne id hob hoc => hne ?_
  rw [← h.blocks b hb id hob, ← h.blocks c hc id hoc]

/-- The block a request names can be put before the others. -/
theorem Tallies.named_first (h : Tallies V live w l) {b : Block}
    (hb : b ∈ live) (hown : b.owner = some op.index) (ht : op.type ≠ .alloc) :
    (live.map given).Perm (given b :: (others live op).map given) :=
  (h.one.perm_others hb hown ht).map given

-- ============================================================== one request

/-- The pointers the driver remembers after a request returned `p`. -/
def noted (w : World σ) (op : TraceOp) (p : Nat) : Nat → Nat :=
  match op.type with
  | .free => w.blocks
  | _ => Function.update w.blocks op.index p

/-- The request was answered as the ledger's next page says, with `p`, in
the state `w₁`. -/
structure Served (V : Service pkg S) (live : List Block) (w : World σ)
    (l : Ledger H) (op : TraceOp) (l' : Ledger H) (p : Nat)
    (w₁ : World σ) : Prop where
  run : (request pkg op).run w = .ok p w₁
  frame : w₁ = { w with
    machine := w₁.machine
    statics := w₁.statics }
  honoured : Honoured live op p w.machine w₁.machine
  rep : V.Rep l'.heap ((liveNext live op p).map given) w₁.statics
    w₁.machine
  answer : op.type ≠ .free → p = V.addr (l'.place op.index)
  place : ∀ id, id ≠ op.index → l'.place id = l.place id

/-- The state is one in which an allocation was just refused. -/
def Exhausted (V : Service pkg S) (w : World σ) : Prop :=
  ∃ h live st s n, V.Rep h live st s ∧ V.lo ≤ n ∧ n ≤ V.hi ∧
    S.malloc h n = none ∧
    (pkg.mmMalloc n st).run s = .ok (0, w.statics) w.machine

/-- The request was refused. -/
def Refused (V : Service pkg S) (op : TraceOp) (w : World σ) :
    Refusal → Prop
  | .malloc => op.type = .alloc ∧
      ∃ w₁, (request pkg op).run w = .ok 0 w₁ ∧ Exhausted V w₁
  | .realloc => op.type = .realloc ∧
      ∃ w₁, (request pkg op).run w = .ok 0 w₁
  | .death => op.type = .realloc ∧
      ∃ w₁, (request pkg op).run w = .error (.stop .fault) w₁

/-- What a request comes to, by the answer of the store. -/
def Comes (V : Service pkg S) (live : List Block) (w : World σ)
    (l : Ledger H) (op : TraceOp) : Except Refusal (Ledger H) → Prop
  | .ok l' => ∃ p w₁, Served V live w l op l' p w₁
  | .error e => Refused V op w e

/-- A call of the package that returned. -/
theorem call_ok {f : σ → M (α × σ)} {a : α} {st : σ} {s : Machine}
    (h : (f w.statics).run w.machine = .ok (a, st) s) :
    (call f).run w = .ok a { w with
      machine := s
      statics := st } :=
  call_returns.2 ⟨st, s, h, rfl⟩

/-- A call of the package that stopped. -/
theorem call_error {f : σ → M (α × σ)} {e : Stop} {s : Machine}
    (h : (f w.statics).run w.machine = .error e s) :
    (call f).run w = .error (.stop e) { w with machine := s } := by
  change call f w = _
  unfold call
  rw [h]

/-- The block a request was answered with is placed and apart from the
others. -/
theorem Service.honours (V : Service pkg S) {h : H} {n p : Nat}
    {st : σ} {s s' : Machine} (hn : op.size.toNat = n)
    (hne : op.type ≠ .free)
    (hrep : V.Rep h (⟨p, n⟩ :: (others live op).map given) st s')
    (hkept : Kept ((others live op).map given) s.mem s'.mem)
    (hmoved : op.type = .realloc → ∀ b ∈ live, b.owner = some op.index →
      ∀ off < min b.size op.size.toNat,
        s'.mem (p + off) = s.mem (b.ptr + off)) :
    Honoured live op p s s' ∧
      V.Rep h ((liveNext live op p).map given) st s' := by
  subst hn
  obtain ⟨hpos, haligned, hlo, hhi⟩ := V.placed hrep List.mem_cons_self
  have hapart := (List.pairwise_cons.1 (V.apart hrep)).1
  refine ⟨⟨fun b hb off hoff => ?_, fun _ => hpos,
    fun _ => ⟨haligned, hlo, hhi⟩, fun _ b hb => ?_, hmoved⟩, ?_⟩
  · exact hkept (given b) (List.mem_map_of_mem hb) off hoff
  · exact hapart (given b) (List.mem_map_of_mem hb)
  · unfold liveNext
    cases ht : op.type with
    | free => exact absurd ht hne
    | alloc => exact hrep
    | realloc => exact hrep

section
variable (hl : Tallies V live w l) (hsize : Sizes V.lo V.hi op)
include hl hsize

theorem alloc_serves (ht : op.type = .alloc) :
    Comes V live w l op (S.step l op) := by
  have hne : op.type ≠ .free := by
    rw [ht]
    decide
  obtain ⟨h1, hhi⟩ := hsize.2 hne
  have hint := op.int.2
  have hserve := V.malloc hl.rep (hsize.1 ht) hhi
  have hreq : (request pkg op).run w
      = (call (pkg.mmMalloc op.size.toNat)).run w := by
    rw [request_alloc ht, sizeT_of_nonneg (by omega) (by omega)]
  have hothers : (others live op).map given = live.map given := by
    unfold others
    simp only [ht, List.map_map]
    exact List.map_congr_left fun b _ => given_disown _ b
  unfold Store.step
  simp only [ht]
  cases hS : S.malloc l.heap op.size.toNat with
  | none =>
      rw [hS] at hserve
      obtain ⟨st', s', hrun⟩ := hserve
      exact ⟨ht, _, hreq.trans (call_ok hrun), l.heap, _, w.statics,
        w.machine, _, hl.rep, hsize.1 ht, hhi, hS, hrun⟩
  | some x =>
      obtain ⟨o, h'⟩ := x
      rw [hS] at hserve
      obtain ⟨st', s', hrun, hrep, hkept⟩ := hserve
      rw [← hothers] at hrep hkept
      obtain ⟨hhon, hnext⟩ := V.honours rfl hne hrep hkept fun hr => by
        rw [ht] at hr
        cases hr
      exact ⟨V.addr o, _, hreq.trans (call_ok hrun), rfl, hhon, hnext,
        fun _ => congrArg V.addr (l.enter_self op.index (o, h')).symm,
        fun id hid => l.enter_of_ne hid _⟩

omit hsize in
/-- The block a request names, put first, with its offset. -/
theorem Tallies.named (ht : op.type ≠ .alloc)
    (hown : ∃ b ∈ live, b.owner = some op.index) :
    ∃ b ∈ live, b.owner = some op.index ∧
      w.blocks op.index = V.addr (l.place op.index) ∧
      b.ptr = V.addr (l.place op.index) ∧
      V.Rep l.heap (⟨V.addr (l.place op.index), b.size⟩ ::
        (others live op).map given) w.statics w.machine := by
  obtain ⟨b, hb, hbown⟩ := hown
  have hptr := hl.place b hb _ hbown
  have hfirst := V.perm hl.rep (hl.named_first hb hbown ht)
  unfold given at hfirst
  rw [hptr] at hfirst
  exact ⟨b, hb, hbown, (hl.blocks b hb _ hbown).trans hptr, hptr, hfirst⟩

theorem realloc_serves (ht : op.type = .realloc)
    (hown : ∃ b ∈ live, b.owner = some op.index) :
    Comes V live w l op (S.step l op) := by
  have hne : op.type ≠ .free := by
    rw [ht]
    decide
  obtain ⟨h1, hhi⟩ := hsize.2 hne
  have hint := op.int.2
  obtain ⟨b, hb, hbown, hblocks, hptr, hfirst⟩ :=
    hl.named (by rw [ht]; decide) hown
  have hserve := V.realloc hfirst (show 1 ≤ op.size.toNat by omega) hhi
  have hreq : (request pkg op).run w = (call (pkg.mmRealloc
      (V.addr (l.place op.index)) op.size.toNat)).run w := by
    rw [request_realloc ht, hblocks, sizeT_of_nonneg (by omega) (by omega)]
  unfold Store.step
  simp only [ht]
  cases hS : S.realloc l.heap (l.place op.index) op.size.toNat with
  | none =>
      rw [hS] at hserve
      obtain ⟨s', hrun⟩ := hserve
      exact ⟨ht, _, hreq.trans (call_error hrun)⟩
  | some x =>
    cases x with
    | none =>
      rw [hS] at hserve
      obtain ⟨st', s', hrun⟩ := hserve
      exact ⟨ht, _, hreq.trans (call_ok hrun)⟩
    | some x =>
      obtain ⟨q, h'⟩ := x
      rw [hS] at hserve
      obtain ⟨st', s', hrun, hrep, hkept, hmoved⟩ := hserve
      have hsame : ∀ c ∈ live, c.owner = some op.index →
          ∀ off < min c.size op.size.toNat,
            s'.mem (V.addr q + off) = w.machine.mem (c.ptr + off) := by
        intro c hc hco
        cases hl.owner_inj hc hb hco hbown
        rw [hptr]
        exact hmoved
      obtain ⟨hhon, hnext⟩ := V.honours rfl hne hrep hkept fun _ => hsame
      exact ⟨V.addr q, _, hreq.trans (call_ok hrun), rfl, hhon, hnext,
        fun _ => congrArg V.addr (l.enter_self op.index (q, h')).symm,
        fun id hid => l.enter_of_ne hid _⟩

omit hsize in
theorem free_serves (ht : op.type = .free)
    (hown : ∃ b ∈ live, b.owner = some op.index) :
    Comes V live w l op (S.step l op) := by
  obtain ⟨b, hb, hbown, hblocks, -, hfirst⟩ :=
    hl.named (by rw [ht]; decide) hown
  obtain ⟨st', s', hrun, hrep, hkept⟩ := V.free hfirst
  rw [← hblocks] at hrun
  unfold Store.step
  simp only [ht]
  refine ⟨0, _, (request_free ht).2 ⟨rfl, call_ok hrun⟩, rfl,
    ⟨fun c hc off hoff => hkept (given c) (List.mem_map_of_mem hc) off hoff,
      fun hf => absurd ht hf, fun hf => absurd ht hf, fun hf => absurd ht hf,
      fun hr => ?_⟩, ?_, fun hf => absurd ht hf, fun _ _ => rfl⟩
  · rw [ht] at hr
    cases hr
  · unfold liveNext
    simp only [ht]
    exact hrep

/-- A request comes to what the store says. -/
theorem request_serves
    (hown : op.type ≠ .alloc → ∃ b ∈ live, b.owner = some op.index) :
    Comes V live w l op (S.step l op) := by
  cases ht : op.type with
  | alloc => exact alloc_serves hl hsize ht
  | realloc =>
      exact realloc_serves hl hsize ht (hown (by rw [ht]; decide))
  | free => exact free_serves hl ht (hown (by rw [ht]; decide))

end

-- ============================================================ what it leaves

/-- A live block after a request is the one asked for, or was live
before. -/
theorem mem_liveNext {p : Nat} {b : Block} (h : b ∈ liveNext live op p) :
    (op.type ≠ .free ∧ b = wanted op p) ∨ b ∈ others live op := by
  unfold liveNext at h
  split at h
  · exact Or.inr h
  · rename_i hne
    rcases List.mem_cons.1 h with rfl | h
    · exact Or.inl ⟨hne, rfl⟩
    · exact Or.inr h

theorem noted_self {p : Nat} (h : op.type ≠ .free) :
    noted w op p op.index = p := by
  unfold noted
  cases ht : op.type with
  | free => exact absurd ht h
  | alloc => exact Function.update_self ..
  | realloc => exact Function.update_self ..

theorem noted_of_ne {p id : Nat} (h : id ≠ op.index) :
    noted w op p id = w.blocks id := by
  unfold noted
  cases op.type with
  | free => rfl
  | alloc => exact Function.update_of_ne h ..
  | realloc => exact Function.update_of_ne h ..

/-- The request itself leaves the driver's pointers alone. -/
theorem Served.noted_eq {l' : Ledger H} {p : Nat} {w₁ : World σ}
    (hs : Served V live w l op l' p w₁) : noted w₁ op p = noted w op p := by
  unfold noted
  rw [hs.frame]

/-- A state with the machine and the statics a served request left, and
the pointer noted, agrees with the ledger's next page. -/
theorem Served.tallies {l' : Ledger H} {p : Nat} {w₁ : World σ}
    (hs : Served V live w l op l' p w₁) (hl : Tallies V live w l)
    (hsize : Sizes V.lo V.hi op) (hmachine : w'.machine = w₁.machine)
    (hstatics : w'.statics = w₁.statics)
    (hblocks : w'.blocks = noted w₁ op p) :
    Tallies V (liveNext live op p) w' l' where
  rep := by
    rw [hmachine, hstatics]
    exact hs.rep
  sized := fun b hb => by
    rcases mem_liveNext hb with ⟨hne, rfl⟩ | hb
    · have h1 := (hsize.2 hne).1
      show 1 ≤ op.size.toNat
      omega
    · obtain ⟨c, hc, -, hsz, -⟩ := mem_others hb
      rw [hsz]
      exact hl.sized c hc
  blocks := fun b hb id hid => by
    rw [hblocks, hs.noted_eq]
    rcases mem_liveNext hb with ⟨hne, rfl⟩ | hb
    · cases hid
      exact noted_self hne
    · obtain ⟨c, hc, hptr, -, howns⟩ := mem_others hb
      obtain ⟨hown, hne⟩ := howns id hid
      rw [noted_of_ne hne, hptr]
      exact hl.blocks c hc id hown
  place := fun b hb id hid => by
    rcases mem_liveNext hb with ⟨hne, rfl⟩ | hb
    · cases hid
      exact hs.answer hne
    · obtain ⟨c, hc, hptr, -, howns⟩ := mem_others hb
      obtain ⟨hown, hne⟩ := howns id hid
      rw [hs.place id hne, hptr]
      exact hl.place c hc id hown

/-- Filling a live block changes nothing of that. -/
theorem Tallies.write (h : Tallies V live w l) {b : Block} (hb : b ∈ live)
    {m : Bytes} (hm : ∀ y, y < b.ptr ∨ b.ptr + b.size ≤ y →
      m y = w.machine.mem y) :
    Tallies V live { w with machine := { w.machine with mem := m } } l :=
  ⟨V.write h.rep (List.mem_map_of_mem hb) hm, h.sized, h.blocks, h.place⟩

/-- The bytes asked for fit between the start of the heap and the
break. -/
theorem Tallies.demand_le (h : Tallies V live w l) :
    demand live ≤ w.machine.memBrk - w.machine.memStartBrk := by
  have hapart := V.apart h.rep
  rw [List.pairwise_map] at hapart
  refine Intervals.sum_len_le hapart fun b hb => ?_
  obtain ⟨-, -, hlo, hhi⟩ := V.placed h.rep (List.mem_map_of_mem hb)
  exact ⟨hlo, hhi⟩

end MallocLab.Proofs.Driver
