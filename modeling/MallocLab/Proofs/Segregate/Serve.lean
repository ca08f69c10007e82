/-
Serving a request refines `State.serve`: a machine that stands for a
state answers a request as the state does, and stands for the new state
afterwards (`serve_ok`). Together with the induction over requests this
is all that runs of the segregated allocator need.

The lemma takes what was found at slot zero as given (`ZeroOk`). For the
sizes that never look there it is nothing; what it takes for the others
is the subject of SlotZero.lean. The list at slot zero stays the bin of
class zero as long as no block is taken out of that bin (`Spares`).
-/
import MallocLab.Proofs.Houses
import MallocLab.Proofs.Segregate.Calls

namespace MallocLab.Proofs.Segregate

open Mem Blocks Model Model.Segregate Spec.Segregated

/-- A live allocation of the state, where the client sees it. -/
def own (R : Region) (x : Nat × Nat) : Alloc := ⟨addr R x.1, x.2⟩

/-- The pointer a call returns. -/
def ptrOf (R : Region) : Option Nat → Nat
  | none => 0
  | some o => addr R o

/-- The machine `s` with the live allocations `live` stands for the
state `S`. -/
structure Sim (R : Region) (live : List Alloc) (s : Machine)
    (S : State) : Prop where
  rep : Rep R s S.heap
  ok : S.Ok
  live : live = S.live.map (own R)

/-- What slot zero holds for a request that looks there. -/
def ZeroOk (R : Region) (s : Machine) (A : Heap) (pick : Option Zip)
    (size : Nat) : Prop :=
  (∀ z ∈ pick, Fit A (need size) z) ∧
    if fltIndexOf size = 0
    then Handed R s A (need size) pick ((freelistAlloc R.base size).run s)
    else pick = none

/-- What slot zero holds for an allocation request. -/
def ZeroFor (R : Region) (s : Machine) (A : Heap) (pick : Option Zip) :
    Req → Prop
  | .malloc n => ZeroOk R s A pick n
  | .reallocNull n => ZeroOk R s A pick n
  | _ => True

variable {R : Region} {live : List Alloc} {s : Machine} {S : State}

/-- Sizes above eight never look at slot zero. -/
theorem zeroOk_of_lt {A : Heap} {size : Nat} (h : 8 < size)
    (h' : size ≤ maxSize) : ZeroOk R s A none size := by
  unfold maxSize at h'
  have hz : ¬ fltIndexOf size = 0 := by
    rw [fltIndexOf_eq_zero (by omega) (by omega)]
    omega
  exact ⟨fun z hz => (Option.not_mem_none z hz).elim, by rw [if_neg hz]⟩

theorem zeroFor_of_sized {A : Heap} {r : Req} (h : Sized 9 maxSize r) :
    ZeroFor R s A none r := by
  cases r with
  | malloc n => exact zeroOk_of_lt h.1 h.2
  | reallocNull n => exact zeroOk_of_lt h.1 h.2
  | free i => trivial
  | realloc i n => trivial
  | write i off v => trivial

/-- A live allocation is one of the state's. -/
theorem Sim.live_get (h : Sim R live s S) (i : Nat) :
    live[i]? = (S.live[i]?).map (own R) := by
  rw [h.live, List.getElem?_map]

/-- The live allocations are the blocks in use. -/
theorem Sim.houses (h : Sim R live s S) :
    Houses fit (R.base + 96 + 8) live S.live S.heap.blocks :=
  ⟨h.live, h.ok.owned, fun _ _ hf => hf.1⟩

/-- `errno` says nothing about the heap. -/
theorem Sim.withErrno (h : Sim R live s S) (e : Nat) :
    Sim R live { s with errno := e } S where
  rep := by
    have hs := h.rep.shape
    have ht := hs.tiled
    exact ⟨⟨hs.start, hs.max, hs.table, hs.listp, hs.strays,
      ⟨ht.start, ht.aligned, ht.brk, ht.max, ht.small, ht.tags, ht.last⟩,
      hs.filed⟩, h.rep.coalesced⟩
  ok := h.ok
  live := h.live

/-- The resize of the block under the cursor to `n` bytes takes in no
neighbour of the smallest size: freeing it, splitting it, or freeing it
after the larger block was allocated. -/
structure SparesResize (A : Heap) (z : Zip) (n : Nat) : Prop where
  free : n = 0 → Spared z
  split : 1 ≤ n → align n ≤ z.mid.room → need n + 16 ≤ z.mid.size →
    Spared (rest z (need n))
  move : ¬ align n ≤ z.mid.room → ∀ o C,
    A.malloc none (align n) = some (o, C) →
    ∀ w : Zip, w.blocks = C.blocks → w.off = z.off → Spared w

/-- Serving the request takes no block of the smallest size off a
list. -/
def Spares (S : State) : Req → Prop
  | .malloc n => n ≤ 8 → ∀ y ∈ marked false 0 S.heap.blocks, y.2.size ≠ 16
  | .reallocNull n =>
      n ≤ 8 → ∀ y ∈ marked false 0 S.heap.blocks, y.2.size ≠ 16
  | .free i => ∀ x z, S.live[i]? = some x → z.blocks = S.heap.blocks →
      z.off = x.1 → Spared z
  | .realloc i n => ∀ x z, S.live[i]? = some x →
      z.blocks = S.heap.blocks → z.off = x.1 → SparesResize S.heap z n
  | .write _ _ _ => True

/-- What serving a request comes to, by the answer of the state. -/
def Answered (R : Region) (live : List Alloc) (s : Machine) (S : State)
    (r : Req) (x : Option (Option Nat × State)) : Prop :=
  match x with
  | none => ∃ s', (serve .segregate live r).run s = .error .fault s'
  | some (o, S') => ∃ live' s',
      (serve .segregate live r).run s = .ok (ptrOf R o, live') s' ∧
      Sim R live' s' S' ∧ Preserved live r (ptrOf R o) s.mem s'.mem ∧
      (Spares S r → AtZero R s.mem S.heap.bins →
        AtZero R s'.mem S'.heap.bins)

/-- An allocation, as the client sees it. -/
theorem enrol_ok (h : Sim R live s S) {pick : Option Zip} {n : Nat}
    (hn : 1 ≤ n) (hn' : n ≤ maxSize)
    (hz : ZeroOk R s S.heap pick n) :
    ∃ live' s', (do
        let p ← segregateMmMalloc n
        return (p, enrol live p n) : M (Nat × List Alloc)).run s
        = .ok (ptrOf R (S.enrol n (S.heap.malloc pick n)).1, live') s' ∧
      Sim R live' s' (S.enrol n (S.heap.malloc pick n)).2 ∧
      (∀ (j : Nat) (a : Alloc), live[j]? = some a →
        ∀ off < a.size, s'.mem (a.ptr + off) = s.mem (a.ptr + off)) ∧
      ((n ≤ 8 → ∀ y ∈ marked false 0 S.heap.blocks, y.2.size ≠ 16) →
        AtZero R s.mem S.heap.bins →
        AtZero R s'.mem (S.enrol n (S.heap.malloc pick n)).2.heap.bins) := by
  have hserved := segregateMmMalloc_ok h.rep n pick hn hn' hz.1 hz.2
  cases hm : S.heap.malloc pick n with
  | none =>
      rw [hm] at hserved
      have hnull : (segregateMmMalloc n).run s
          = .ok 0 { s with errno := enomem } := hserved
      exact ⟨live, { s with errno := enomem }, bind_ok hnull,
        h.withErrno enomem, fun _ _ _ _ _ => rfl, fun _ hzero => hzero⟩
  | some y =>
      obtain ⟨o, A⟩ := y
      rw [hm] at hserved
      obtain ⟨s', hrun, hrep, hkept, hz₀⟩ := hserved
      refine ⟨live ++ [⟨addr R o, n⟩], s', ?_, ⟨hrep,
        h.ok.malloc hn hn' hz.1 hm, ?_⟩, h.houses.all hkept,
        fun hsp hzero => hz₀ (fun b hb => ?_) hzero⟩
      · rw [bind_ok hrun]
        show EStateM.Result.ok (addr R o, enrol live (addr R o) n) s' = _
        rw [enrol_pos (addr_pos R o)]
        rfl
      · rw [h.live]
        simp [State.enrol, own]
      · by_cases hsmall : n ≤ 8
        · exact hsp hsmall (o, b) hb
        · unfold maxSize at hn'
          have hidx : ¬ fltIndexOf n = 0 := by
            rw [fltIndexOf_eq_zero (by omega) (by omega)]
            exact hsmall
          have hpick := hz.2
          rw [if_neg hidx] at hpick
          rw [hpick] at hm
          exact malloc_large h.ok.heap (by omega) hn' hm hb

/-- A request that names no live allocation changes nothing. -/
theorem idle_ok (h : Sim R live s S) {r : Req} {pick : Option Zip}
    (hS : S.serve pick r = some (none, S))
    (hrun : (serve .segregate live r).run s = .ok (0, live) s) :
    Answered R live s S r (S.serve pick r) := by
  rw [hS]
  exact ⟨live, s, hrun, h, ⟨fun _ _ _ _ _ _ => rfl,
    fun _ _ _ _ _ hp => absurd rfl hp⟩, fun _ hzero => hzero⟩

/-- Giving an allocation back, by `free` or by a resize to nothing. -/
theorem give_ok (h : Sim R live s S) {r : Req} {pick : Option Zip} {i : Nat}
    {x : Nat × Nat} (hx : S.live[i]? = some x) (hi : target r = some i)
    (hS : S.serve pick r
      = some (none, ⟨S.heap.free x.1, S.live.eraseIdx i⟩))
    (hrun : ∀ s', (segregateMmFree (addr R x.1)).run s = .ok () s' →
      (serve .segregate live r).run s = .ok (0, live.eraseIdx i) s')
    (hsp : Spares S r → ∀ z : Zip, z.blocks = S.heap.blocks →
      z.off = x.1 → Spared z) :
    Answered R live s S r (S.serve pick r) := by
  obtain ⟨z, hzb, hzo, hu, -⟩ := h.ok.cursor hx
  obtain ⟨m, hfree, hrep, hkeep, hz₀⟩ := segregateMmFree_ok h.rep hzb hu
  have hheap := (free_spec h.ok.heap hzb hu).1
  rw [hzo] at hfree hheap
  rw [hS]
  refine ⟨live.eraseIdx i, { s with mem := m }, hrun _ hfree,
    ⟨hheap ▸ hrep, h.ok.free hx, ?_⟩, ⟨h.houses.others hi hx hzb hzo
      hu hkeep, ?_⟩, fun hspares hzero => ?_⟩
  · rw [h.live, List.eraseIdx_map]
  · intro j n a he _ hp
    exact absurd rfl hp
  · show AtZero R m (S.heap.free x.1).bins
    rw [hheap]
    exact hz₀ (hsp hspares z hzb hzo) hzero

/-- `free`. -/
theorem serve_free (h : Sim R live s S) (pick : Option Zip) (i : Nat) :
    Answered R live s S (.free i) (S.serve pick (.free i)) := by
  have hget := h.live_get i
  cases hx : S.live[i]? with
  | none =>
      rw [hx] at hget
      exact idle_ok h (by simp only [State.serve, hx]) (serve_idle rfl hget)
  | some x =>
      rw [hx] at hget
      refine give_ok h hx rfl (by simp only [State.serve, hx])
        (fun s' hfree => ?_) fun hsp z hzb hzo => hsp x z hx hzb hzo
      simp only [serve, hget, Option.map_some]
      exact bind_ok hfree

/-- The block of a live allocation, resized in place. -/
private theorem serve_stay (h : Sim R live s S) {pick : Option Zip}
    {i n : Nat} {x : Nat × Nat} {z : Zip} (hx : S.live[i]? = some x)
    (hzb : z.blocks = S.heap.blocks) (hzo : z.off = x.1)
    (hu : z.mid.used = true) (hn : 1 ≤ n) (hn' : n ≤ maxSize)
    (hroom : align n ≤ z.mid.room) :
    Answered R live s S (.realloc i n) (S.serve pick (.realloc i n)) := by
  have hheap : S.heap.realloc x.1 n
      = some (x.1, carve z (need n) S.heap.bins) := by
    rw [Heap.realloc_at hzb hzo, if_pos hroom]
  obtain ⟨m, hrun, hrep, hkeep, hz₀⟩ :=
    segregateMmRealloc_stay h.rep hzb hu hn hn' hroom
  rw [hzo] at hrun hkeep
  have hgr : n ≤ (granted z (need n)).room := by
    have hsz := need_size hn (Nat.le_trans hn' (by decide))
    have hgs := granted_size (z := z) (n := need n) hsz.1 (by omega) (by
      have := z.mid.room_add
      unfold need
      omega)
    have := (granted z (need n)).room_add
    unfold need at *
    omega
  have hS : S.serve pick (.realloc i n) = some (some x.1,
      ⟨carve z (need n) S.heap.bins, S.live.set i (x.1, n)⟩) := by
    simp only [State.serve, hx, if_neg (show ¬ n = 0 by omega), hheap,
      Option.map_some]
  rw [hS]
  refine ⟨live.set i (own R (x.1, n)), { s with mem := m }, ?_,
    ⟨hrep, h.ok.realloc hx hn hn' hheap, ?_⟩, ?_,
    fun hsp => hz₀ ((hsp x z hx hzb hzo).split hn hroom)⟩
  · refine (serve_realloc_call (h.houses.live_at hx) n).trans
      ((bind_ok hrun).trans ?_)
    rw [resized_pos (by omega) (addr_pos R x.1)]
    rfl
  · rw [h.live, List.map_set]
  · refine Preserved.resize (h.houses.live_at hx)
      (h.houses.others rfl hx hzb hzo hu fun y hy =>
        hkeep (payloadAt_mono (Set.subset_insert _ _) hy))
      fun off _ h1 => ?_
    have hin : addr R x.1 + off
        ∈ payload R (insert (x.1, granted z (need n)) (z.sides true)) :=
      ⟨_, Or.inl rfl, by simp only [addr]; omega, by simp only [addr]; omega⟩
    exact hkeep hin

/-- The block of a live allocation, moved. -/
private theorem serve_move (h : Sim R live s S) {pick : Option Zip}
    {i n : Nat} {x : Nat × Nat} {z : Zip} (hx : S.live[i]? = some x)
    (hzb : z.blocks = S.heap.blocks) (hzo : z.off = x.1)
    (hu : z.mid.used = true) (hfit : fit x.2 z.mid) (hn : 1 ≤ n)
    (hn' : n ≤ maxSize) (hroom : ¬ align n ≤ z.mid.room) :
    Answered R live s S (.realloc i n) (S.serve pick (.realloc i n)) := by
  have hheap : S.heap.realloc x.1 n
      = (S.heap.malloc none (align n)).map fun y => (y.1, y.2.free x.1) := by
    rw [Heap.realloc_at hzb hzo, if_neg hroom]
  cases hm : S.heap.malloc none (align n) with
  | none =>
      have hS : S.serve pick (.realloc i n) = none := by
        simp only [State.serve, hx, if_neg (show ¬ n = 0 by omega), hheap,
          hm, Option.map_none]
      rw [hS]
      obtain ⟨s', hrun⟩ :=
        segregateMmRealloc_fault h.rep hzb hu hn hn' hroom hm
      rw [hzo] at hrun
      exact ⟨s', (serve_realloc_call (h.houses.live_at hx) n).trans
        (bind_error hrun)⟩
  | some y =>
      obtain ⟨o, C⟩ := y
      rw [hm] at hheap
      obtain ⟨s', hrun, hrep, hkeep, hcopy, hz₀⟩ :=
        segregateMmRealloc_move h.rep hzb hu hn hn' hroom hm
      rw [hzo] at hrun hrep hcopy hz₀
      have hS : S.serve pick (.realloc i n) = some (some o,
          ⟨C.free x.1, S.live.set i (o, n)⟩) := by
        simp only [State.serve, hx, if_neg (show ¬ n = 0 by omega), hheap,
          Option.map_some]
      rw [hS]
      refine ⟨live.set i (own R (o, n)), s', ?_,
        ⟨hrep, h.ok.realloc hx hn hn' hheap, ?_⟩,
        ?_, fun hsp => hz₀ ?_⟩
      · refine (serve_realloc_call (h.houses.live_at hx) n).trans
          ((bind_ok hrun).trans ?_)
        rw [resized_pos (by omega) (addr_pos R o)]
        rfl
      · rw [h.live, List.map_set]
      · exact Preserved.resize (h.houses.live_at hx)
          (h.houses.others rfl hx hzb hzo hu hkeep)
          fun off h1 _ => hcopy off (Nat.lt_of_lt_of_le h1 hfit.1)
      · have hmove := (hsp x z hx hzb hzo).move hroom o C hm
        rwa [hzo] at hmove

/-- `realloc` of a live allocation. -/
theorem serve_realloc (h : Sim R live s S) (pick : Option Zip) (i : Nat)
    {n : Nat} (hn' : n ≤ maxSize) :
    Answered R live s S (.realloc i n) (S.serve pick (.realloc i n)) := by
  have hget := h.live_get i
  cases hx : S.live[i]? with
  | none =>
      rw [hx] at hget
      exact idle_ok h (by simp only [State.serve, hx]) (serve_idle rfl hget)
  | some x =>
      obtain ⟨z, hzb, hzo, hu, hfit, -⟩ := h.ok.cursor hx
      by_cases hn : n = 0
      · subst hn
        refine give_ok h hx rfl (by simp only [State.serve, hx, if_true])
          (fun s' hfree => ?_) fun hsp w hwb hwo =>
            (hsp x w hx hwb hwo).free rfl
        have hrealloc : (segregateMmRealloc (addr R x.1) 0).run s
            = .ok 0 s' := by
          unfold segregateMmRealloc
          rw [if_neg (addr_pos R x.1), if_pos rfl]
          exact bind_ok hfree
        exact (serve_realloc_call (h.houses.live_at hx) 0).trans
          ((bind_ok hrealloc).trans rfl)
      · by_cases hroom : align n ≤ z.mid.room
        · exact serve_stay h hx hzb hzo hu (by omega) hn' hroom
        · exact serve_move h hx hzb hzo hu hfit (by omega) hn' hroom

/-- The client's own writes stay in its payloads. -/
theorem serve_write (h : Sim R live s S) (pick : Option Zip) (i off : Nat)
    (v : UInt8) :
    Answered R live s S (.write i off v)
      (S.serve pick (.write i off v)) := by
  cases hx : S.live[i]? with
  | none => exact idle_ok h rfl (serve_idle rfl (by rw [h.live_get, hx]; rfl))
  | some x =>
      by_cases hoff : off < x.2
      · obtain ⟨b, hb, hin⟩ := h.houses.payload_of hx hoff
        have hwrite : ∀ y, y < addr R x.1 ∨ addr R x.1 + b.room ≤ y →
            Function.update s.mem (addr R x.1 + off) v y = s.mem y :=
          fun y hy => Function.update_of_ne (by omega) _ _
        exact ⟨live, _, serve_write_in v (h.houses.live_at hx) hoff,
          ⟨h.rep.write hb hwrite, h.ok, h.live⟩, h.houses.wrote v hx hoff 0,
          fun _ hzero => h.rep.write_zero hb hzero hwrite⟩
      · exact idle_ok h rfl (serve_write_past v (h.houses.live_at hx) hoff)

/-- Serving a request refines `State.serve`. -/
theorem serve_ok (h : Sim R live s S) {r : Req} (hr : Sized 1 maxSize r)
    {pick : Option Zip} (hz : ZeroFor R s S.heap pick r) :
    Answered R live s S r (S.serve pick r) := by
  cases r with
  | malloc n =>
      obtain ⟨live', s', hrun, hsim, hkeep, hzero⟩ := enrol_ok h hr.1 hr.2 hz
      exact ⟨live', s', hrun, hsim, ⟨fun j a hj _ => hkeep j a hj,
        fun i n a he => by cases he⟩, hzero⟩
  | reallocNull n =>
      obtain ⟨live', s', hrun, hsim, hkeep, hzero⟩ := enrol_ok h hr.1 hr.2 hz
      exact ⟨live', s', hrun, hsim, ⟨fun j a hj _ => hkeep j a hj,
        fun i n a he => by cases he⟩, hzero⟩
  | free i => exact serve_free h pick i
  | realloc i n => exact serve_realloc h pick i hr
  | write i off v => exact serve_write h pick i off v

end MallocLab.Proofs.Segregate
