/-
Serving a request to the implicit allocator refines `State.serve`: a
machine that stands for a state answers a request as the state does, and
stands for the new state afterwards (`serve_ok`).

# What is not promised

The allocator never writes the word that closes the heap after an
extension; where a request comes to it (`Meets`), it takes the word to
read as size zero (`Closed`), and to read as free when the last block is
to be extended (`Open`). Both are hypotheses here. What makes them true,
or what it costs when they are not, is the subject of Runs.lean and
EndWord.lean.

The state has no answer where the code does not survive: a refused
extension of the last block, and a search without a rover. Both come
after a refused `mem_sbrk`, which `errno` shows.
-/
import MallocLab.Proofs.Houses
import MallocLab.Proofs.Implicit.Resize

namespace MallocLab.Proofs.Implicit

open Mem Blocks Model Model.Implicit Spec.Implicit

/-- A live allocation of the state, where the client sees it. -/
def own (R : Region) (x : Nat × Nat) : Alloc := ⟨addr R x.1, x.2⟩

/-- The machine `s` with the live allocations `live` stands for the
state `S`. -/
structure Sim (fit : Fit) (R : Region) (live : List Alloc) (s : Machine)
    (S : State) : Prop where
  rep : Rep R s S.heap
  ok : S.Ok fit
  live : live = S.live.map (own R)

/-- A request that grows the last block finds the closing word free. -/
def Open (s : Machine) (S : State) (r : Req) : Prop :=
  ∀ (i n : Nat) (x : Nat × Nat) (z : Zip), r = .realloc i n →
    S.live[i]? = some x → z.blocks = S.heap.blocks → z.off = x.1 →
    z.right = [] → z.mid.size < need n → rd 4 s.mem (s.memBrk - 4) % 2 = 0

/-- A request that comes to the closing word: every search does, freeing
the last block, and a resize that asks for more than the block has. -/
def Meets (S : State) : Req → Prop
  | .malloc n => n ≠ 0
  | .reallocNull n => n ≠ 0
  | .free i => ∃ (x : Nat × Nat) (z : Zip), S.live[i]? = some x ∧
      z.blocks = S.heap.blocks ∧ z.off = x.1 ∧ z.right = []
  | .realloc i n => ∃ (x : Nat × Nat) (z : Zip), S.live[i]? = some x ∧
      z.blocks = S.heap.blocks ∧ z.off = x.1 ∧
      (n = 0 ∧ z.right = [] ∨ n ≠ 0 ∧ z.mid.size < need n)
  | .write _ _ _ => False

/-- What serving a request leaves, apart from the answer. -/
structure Left (fit : Fit) (R : Region) (live : List Alloc) (s : Machine)
    (S : State) (r : Req) (p : Nat) (live' : List Alloc) (s' : Machine)
    (S' : State) : Prop where
  sim : Sim fit R live' s' S'
  kept : Preserved live r p s.mem s'.mem
  grew : Grew s s'
  errno : s'.errno = s.errno ∨ s'.errno = enomem
  rover : S'.heap.rover = none → S.heap.rover = none ∨ s'.errno = enomem

/-- What serving a request comes to, by the answer of the state. -/
def Answered (fit : Fit) (R : Region) (live : List Alloc) (s : Machine)
    (S : State) (r : Req) : Option (Option Nat × State) → Prop
  | none => ∃ s', (serve (.implicit fit) live r).run s = .error .fault s' ∧
      (s'.errno = enomem ∨ (fit = .next ∧ S.heap.rover = none))
  | some (o, S') => ∃ live' s',
      (serve (.implicit fit) live r).run s = .ok (ptrOf R o, live') s' ∧
      Left fit R live s S r (ptrOf R o) live' s' S'

variable {fit : Fit} {R : Region} {live : List Alloc} {s : Machine}
  {S : State}

/-- A live allocation is one of the state's. -/
theorem Sim.live_get (h : Sim fit R live s S) (i : Nat) :
    live[i]? = (S.live[i]?).map (own R) := by
  rw [h.live, List.getElem?_map]

/-- The live allocations are the blocks in use. -/
theorem Sim.houses (h : Sim fit R live s S) :
    Houses exact (R.base + 8 + 8) live S.live S.heap.blocks :=
  ⟨h.live, h.ok.owned, exact_room⟩

/-- A request that names no live allocation changes nothing. -/
theorem idle_ok (h : Sim fit R live s S) {r : Req}
    (hS : S.serve fit r = some (none, S))
    (hrun : (serve (.implicit fit) live r).run s = .ok (0, live) s) :
    Answered fit R live s S r (S.serve fit r) := by
  rw [hS]
  exact ⟨live, s, hrun, h, ⟨fun _ _ _ _ _ _ => rfl,
    fun _ _ _ _ _ hp => absurd rfl hp⟩, Grew.refl s, Or.inl rfl, Or.inl⟩

/-- A request for a new allocation. -/
theorem enrol_ok (h : Sim fit R live s S) {r : Req} {n : Nat}
    (hcl : n ≠ 0 → Closed s) (hn : n ≤ wordMax) (ht : target r = none)
    (hS : S.serve fit r = (S.heap.malloc fit n).map (S.enrol n))
    (hrun : (serve (.implicit fit) live r).run s = (do
      let p ← implicitMmMalloc fit n
      return (p, enrol live p n) : M (Nat × List Alloc)).run s) :
    Answered fit R live s S r (S.serve fit r) := by
  have hserved := implicitMmMalloc_ok h.rep hcl h.ok.heap hn
  have hn' : n ≤ 2 ^ 32 := Nat.le_trans hn (by decide)
  have hreq : ∀ i k, r ≠ .realloc i k := fun i k he => by
    rw [he] at ht
    cases ht
  rw [hS]
  cases hm : S.heap.malloc fit n with
  | none =>
      rw [hm] at hserved
      obtain ⟨s', hfault, hwhy⟩ := hserved
      exact ⟨s', hrun.trans (bind_error hfault), hwhy⟩
  | some y =>
      obtain ⟨o, A⟩ := y
      rw [hm] at hserved
      obtain ⟨s', hok, hheld, -⟩ := hserved
      have hstate := h.ok.malloc hn' hm
      have hkept : Preserved live r (ptrOf R o) s.mem s'.mem :=
        ⟨fun j a hj _ => h.houses.all hheld.keep j a hj,
          fun i k _ he => absurd he (hreq i k)⟩
      cases o with
      | none =>
          exact ⟨live, s', hrun.trans (bind_ok hok),
            ⟨hheld.rep, hstate, h.live⟩, hkept, hheld.grew, hheld.errno,
            hheld.rover⟩
      | some o =>
          refine ⟨live ++ [⟨addr R o, n⟩], s', ?_,
            ⟨hheld.rep, hstate, ?_⟩, hkept, hheld.grew, hheld.errno,
            hheld.rover⟩
          · refine hrun.trans ((bind_ok hok).trans ?_)
            show EStateM.Result.ok (addr R o, enrol live (addr R o) n) s' = _
            rw [enrol_pos (addr_pos R o)]
            rfl
          · rw [h.live]
            simp [own]

/-- Giving an allocation back, by `free` or by a resize to nothing. -/
theorem give_ok (h : Sim fit R live s S) {r : Req} {i : Nat}
    {x : Nat × Nat} {o : Option Nat} (hx : S.live[i]? = some x)
    (hcl : ∀ z : Zip, z.blocks = S.heap.blocks → z.off = x.1 →
      z.right = [] → Closed s)
    (hi : target r = some i)
    (hS : S.serve fit r
      = some (o, ⟨S.heap.free fit x.1, S.live.eraseIdx i⟩))
    (hnot : ∀ j n, r = .realloc j n → n = 0)
    (hrun : ∀ s', (implicitMmFree fit (addr R x.1)).run s = .ok () s' →
      (serve (.implicit fit) live r).run s
        = .ok (ptrOf R o, live.eraseIdx i) s') :
    Answered fit R live s S r (S.serve fit r) := by
  obtain ⟨z, hzb, hzo, hu, -⟩ := h.ok.cursor hx
  obtain ⟨s', hfree, hheld⟩ :=
    implicitMmFree_held fit h.rep hzb (hcl z hzb hzo)
  rw [hzo] at hfree hheld
  rw [hS]
  refine ⟨live.eraseIdx i, s', hrun s' hfree,
    ⟨hheld.rep, h.ok.free hx, ?_⟩,
    ⟨h.houses.others hi hx hzb hzo hu hheld.keep, ?_⟩, hheld.grew, hheld.errno,
    hheld.rover⟩
  · rw [h.live, List.eraseIdx_map]
  · intro j n a he hn
    rw [hnot j n he] at hn
    exact absurd hn (by decide)

/-- `free`. -/
theorem serve_free (h : Sim fit R live s S) (i : Nat)
    (hcl : Meets S (.free i) → Closed s) :
    Answered fit R live s S (.free i) (S.serve fit (.free i)) := by
  have hget := h.live_get i
  cases hx : S.live[i]? with
  | none =>
      rw [hx] at hget
      exact idle_ok h (by simp only [State.serve, hx]) (serve_idle rfl hget)
  | some x =>
      rw [hx] at hget
      refine give_ok h (o := none) hx
        (fun z hzb hzo hlast => hcl ⟨x, z, hx, hzb, hzo, hlast⟩) rfl
        (by simp only [State.serve, hx]) (fun j n he => by cases he)
        fun s' hfree => ?_
      simp only [serve, hget, Option.map_some]
      exact bind_ok hfree

/-- A resize to nothing frees, and returns the pointer. -/
theorem resize_nothing (h : Sim fit R live s S) {i : Nat}
    {x : Nat × Nat} (hx : S.live[i]? = some x)
    (hcl : Meets S (.realloc i 0) → Closed s) :
    Answered fit R live s S (.realloc i 0) (S.serve fit (.realloc i 0)) := by
  refine give_ok h (o := some x.1) hx
    (fun z hzb hzo hlast => hcl ⟨x, z, hx, hzb, hzo, Or.inl ⟨rfl, hlast⟩⟩) rfl
    (by simp only [State.serve, hx, if_true])
    (fun j n he => by cases he; rfl) fun s' hfree => ?_
  have hrealloc : (implicitMmRealloc fit (addr R x.1) 0).run s
      = .ok (addr R x.1) s' := by
    unfold implicitMmRealloc
    rw [if_neg (addr_pos R x.1), if_pos rfl]
    exact bind_ok hfree
  exact (serve_realloc_call (h.houses.live_at hx) 0).trans
    ((bind_ok hrealloc).trans rfl)

/-- A resize of a live allocation to some size. -/
theorem resize_something (h : Sim fit R live s S) {i : Nat}
    {x : Nat × Nat} (hx : S.live[i]? = some x) {n : Nat} (h0 : n ≠ 0)
    (hn : n ≤ wordMax) (hcl : Meets S (.realloc i n) → Closed s)
    (hopen : Open s S (.realloc i n)) :
    Answered fit R live s S (.realloc i n)
      (S.serve fit (.realloc i n)) := by
  have hlive := h.houses.live_at hx
  have hn' : n ≤ 2 ^ 32 := Nat.le_trans hn (by decide)
  obtain ⟨z, hzb, hzo, hu, ⟨hpos, hle, hroom⟩, -⟩ := h.ok.cursor hx
  have hold := need_size hpos hle
  have hnew := need_size (show 1 ≤ n by omega) hn'
  have hr := z.mid.room_add
  have hserved := implicitMmRealloc_ok fit h.rep hzb
    (fun hmore => hcl ⟨x, z, hx, hzb, hzo, Or.inr ⟨h0, hmore⟩⟩) hu (by omega)
    h0 (align_word hn)
    fun hlast hmore => hopen i n x z rfl hx hzb hzo hlast hmore
  rw [hzo] at hserved
  have hfind : S.heap.realloc fit x.1 n = S.heap.resize fit z (need n) :=
    Heap.realloc_at hzb hzo
  have hS : S.serve fit (.realloc i n)
      = (S.heap.resize fit z (need n)).map (S.resized i n) := by
    simp only [State.serve, hx, if_neg h0, hfind]
  rw [hS]
  cases hres : S.heap.resize fit z (need n) with
  | none =>
      rw [hres] at hserved
      obtain ⟨s', hfault, hwhy⟩ := hserved
      exact ⟨s', (serve_realloc_call hlive n).trans (bind_error hfault), hwhy⟩
  | some y =>
      obtain ⟨o, A⟩ := y
      rw [hres] at hserved
      obtain ⟨s', hok, hheld, hmoved⟩ := hserved
      have hstate := h.ok.realloc hx (by omega) hn' (hfind.trans hres)
      have hothers := h.houses.others (r := .realloc i n) rfl hx hzb hzo hu
        hheld.keep
      have hrun : (serve (.implicit fit) live (.realloc i n)).run s
          = .ok (ptrOf R o, resized live i (ptrOf R o) n) s' :=
        (serve_realloc_call hlive n).trans (bind_ok hok)
      cases o with
      | none =>
          have hnull : resized live i 0 n = live := resized_null h0
          refine ⟨live, s', hrun.trans ?_, ⟨hheld.rep, hstate, h.live⟩,
            ⟨hothers, fun _ _ _ _ _ hp => absurd rfl hp⟩, hheld.grew,
            hheld.errno, hheld.rover⟩
          exact congrArg (fun l => EStateM.Result.ok (0, l) s') hnull
      | some q =>
          have hset : resized live i (addr R q) n
              = live.set i (own R (q, n)) := resized_pos h0 (addr_pos R q)
          refine ⟨live.set i (own R (q, n)), s', hrun.trans ?_,
            ⟨hheld.rep, hstate, ?_⟩, ?_, hheld.grew, hheld.errno,
            hheld.rover⟩
          · exact congrArg (fun l => EStateM.Result.ok (addr R q, l) s') hset
          · rw [h.live, ← List.map_set]
          · refine Preserved.resize hlive hothers fun off h1 h2 => ?_
            have hin : off < x.2 := h1
            have hcopy := hmoved q rfl off (by omega) (by
              unfold need
              omega)
            rw [hzo] at hcopy
            exact hcopy

/-- `realloc` of a live allocation. -/
theorem serve_realloc (h : Sim fit R live s S) (i : Nat) {n : Nat}
    (hn : n ≤ wordMax) (hcl : Meets S (.realloc i n) → Closed s)
    (hopen : Open s S (.realloc i n)) :
    Answered fit R live s S (.realloc i n)
      (S.serve fit (.realloc i n)) := by
  have hget := h.live_get i
  cases hx : S.live[i]? with
  | none =>
      rw [hx] at hget
      exact idle_ok h (by simp only [State.serve, hx]) (serve_idle rfl hget)
  | some x =>
      by_cases h0 : n = 0
      · subst h0
        exact resize_nothing h hx hcl
      · exact resize_something h hx h0 hn hcl hopen

/-- The client's own writes stay in its payloads. -/
theorem serve_write (h : Sim fit R live s S) (i off : Nat) (v : UInt8) :
    Answered fit R live s S (.write i off v)
      (S.serve fit (.write i off v)) := by
  cases hx : S.live[i]? with
  | none => exact idle_ok h rfl (serve_idle rfl (by rw [h.live_get, hx]; rfl))
  | some x =>
      by_cases hoff : off < x.2
      · obtain ⟨b, hb, hin⟩ := h.houses.payload_of hx hoff
        obtain ⟨e, ht⟩ := h.rep.tiled
        have hbd := placed_bounds hb.1
        have hbrk := ht.brk
        have hbr := b.room_add
        have hwrite : ∀ y, y < addr R x.1 ∨ addr R x.1 + b.room ≤ y →
            Function.update s.mem (addr R x.1 + off) v y = s.mem y :=
          fun y hy => Function.update_of_ne (by omega) _ _
        have hrep : Rep R { s with
            mem := Function.update s.mem (addr R x.1 + off) v } S.heap :=
          ⟨h.rep.start, h.rep.max, h.rep.listp, ⟨e, ht.write hb.1 hwrite⟩,
            h.rep.cur⟩
        refine ⟨live, _, serve_write_in v (h.houses.live_at hx) hoff,
          ⟨hrep, h.ok, h.live⟩, h.houses.wrote v hx hoff 0,
          ⟨Or.inl rfl, fun w hw => hwrite w (Or.inr ?_), rfl⟩, Or.inl rfl,
          Or.inl⟩
        have hw' : s.memBrk - 4 ≤ w := hw
        unfold addr
        omega
      · exact idle_ok h rfl (serve_write_past v (h.houses.live_at hx) hoff)

/-- Serving a request refines `State.serve`. -/
theorem serve_ok (h : Sim fit R live s S) {r : Req}
    (hr : Sized 0 wordMax r) (hcl : Meets S r → Closed s)
    (hopen : Open s S r) : Answered fit R live s S r (S.serve fit r) := by
  cases r with
  | malloc n => exact enrol_ok h hcl hr.2 rfl rfl rfl
  | reallocNull n => exact enrol_ok h hcl hr.2 rfl rfl rfl
  | free i => exact serve_free h i hcl
  | realloc i n => exact serve_realloc h i hr hcl hopen
  | write i off v => exact serve_write h i off v

end MallocLab.Proofs.Implicit
