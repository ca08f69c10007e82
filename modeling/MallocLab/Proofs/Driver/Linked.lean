/-
mm.c as the driver is linked with it: a package that keeps its static
data in the machine (`linked`). That its calls move the break by
`mem_sbrk` only is what `Contained` says of them.

The refinements of the two allocators are about a client that names its
blocks by their place in a list (`serve`); the driver names them by
address. The rest of the file goes from the one to the other, once for
both: what a served request says of the call it made and of the bytes
the call kept, and from that a service (`Refinement.service`).
-/
import MallocLab.Proofs.Contained
import MallocLab.Proofs.Driver.Serves
import MallocLab.Proofs.Runs

namespace MallocLab.Proofs.Driver

open Mem Model Spec

-- ============================================================== the package

/-- mm.c, linked. -/
def linked (mode : Mode) : Package Unit where
  mmInit := fun _ => do
    let r ← mmInit mode
    return ((r : Int), ())
  mmMalloc := fun size _ => do
    let p ← mmMalloc mode size
    return (p, ())
  mmFree := fun ptr _ => do
    mmFree mode ptr
    return ((), ())
  mmRealloc := fun ptr size _ => do
    let p ← mmRealloc mode ptr size
    return (p, ())
  init_sbrks := fun _ _ _ _ h =>
    (Contains.returned inferInstance h).sbrks
  malloc_sbrks := fun _ _ _ _ _ h =>
    (Contains.returned inferInstance h).sbrks
  free_sbrks := fun _ _ _ _ _ h =>
    (Contains.returned inferInstance h).sbrks
  realloc_sbrks := fun _ _ _ _ _ _ h =>
    (Contains.returned inferInstance h).sbrks

variable {mode : Mode} {live : List Alloc} {i n p : Nat} {a : Alloc}
  {s s' : Machine}

-- ========================================================= the calls made

/-- A request that is not a write of the client's is contained. -/
theorem serve_contains {r : Req} (hr : ∀ i off v, r ≠ .write i off v) :
    Contains (serve mode live r) := by
  cases r with
  | malloc n =>
      unfold serve
      infer_instance
  | reallocNull n =>
      unfold serve
      infer_instance
  | free i =>
      cases hi : live[i]? with
      | none =>
          simp only [serve, hi]
          infer_instance
      | some a =>
          simp only [serve, hi]
          infer_instance
  | realloc i n =>
      cases hi : live[i]? with
      | none =>
          simp only [serve, hi]
          infer_instance
      | some a =>
          simp only [serve, hi]
          infer_instance
  | write i off v => exact absurd rfl (hr i off v)

/-- A served allocation called `mm_malloc`. -/
theorem of_serve_malloc {live' : List Alloc}
    (h : (serve mode live (.malloc n)).run s = .ok (p, live') s') :
    ((linked mode).mmMalloc n ()).run s = .ok (p, ()) s' := by
  obtain ⟨q, s₁, hcall, hrest⟩ := bind_returns h
  cases hrest
  exact bind_ok hcall

/-- A served release called `mm_free`. -/
theorem of_serve_free (ha : live[i]? = some a) {live' : List Alloc}
    (h : (serve mode live (.free i)).run s = .ok (p, live') s') :
    ((linked mode).mmFree a.ptr ()).run s = .ok ((), ()) s' := by
  unfold serve at h
  simp only [ha] at h
  obtain ⟨q, s₁, hcall, hrest⟩ := bind_returns h
  cases hrest
  exact bind_ok hcall

/-- A served resize called `mm_realloc`. -/
theorem of_serve_realloc (ha : live[i]? = some a) {live' : List Alloc}
    (h : (serve mode live (.realloc i n)).run s = .ok (p, live') s') :
    ((linked mode).mmRealloc a.ptr n ()).run s = .ok (p, ()) s' := by
  unfold serve at h
  simp only [ha] at h
  obtain ⟨q, s₁, hcall, hrest⟩ := bind_returns h
  cases hrest
  exact bind_ok hcall

/-- A resize that stopped, stopped in `mm_realloc`. -/
theorem of_serve_died (ha : live[i]? = some a) {e : Stop}
    (h : (serve mode live (.realloc i n)).run s = .error e s') :
    ((linked mode).mmRealloc a.ptr n ()).run s = .error e s' := by
  unfold serve at h
  simp only [ha] at h
  rw [run_bind] at h
  show (mmRealloc mode a.ptr n >>= _).run s = _
  rw [run_bind]
  cases hcall : (mmRealloc mode a.ptr n).run s with
  | ok q s₁ =>
      rw [hcall] at h
      cases h
  | error e' s₁ =>
      rw [hcall] at h
      cases h
      rfl

-- ========================================================== the bytes kept

/-- A request about no live block keeps them all. -/
theorem kept_all {r : Req} {m m' : Bytes}
    (h : Preserved live r p m m') (ht : target r = none) :
    Kept live m m' := by
  intro a ha off hoff
  obtain ⟨j, hj⟩ := List.mem_iff_getElem?.1 ha
  exact h.others j a hj (by rw [ht]; exact nofun) off hoff

/-- A request about one block keeps the others. -/
theorem kept_others {r : Req} {m m' : Bytes}
    (h : Preserved live r p m m') (ht : target r = some i) :
    Kept (live.eraseIdx i) m m' := by
  intro a ha off hoff
  obtain ⟨j, hne, hj⟩ := List.mem_eraseIdx_iff_getElem?.1 ha
  refine h.others j a hj (fun he => hne ?_) off hoff
  rw [ht] at he
  exact (Option.some.inj he).symm

theorem Kept.perm {live' : List Alloc} {m m' : Bytes} (h : Kept live m m')
    (hp : live'.Perm live) : Kept live' m m' :=
  fun a ha => h a (hp.mem_iff.1 ha)

-- ================================================== the order they are in

/-- The block put first has a place in the list. -/
theorem first_placed {α β : Type} {f : α → β} {xs : List α} {b : β}
    {bs : List β} (h : (b :: bs).Perm (xs.map f)) :
    ∃ i x, xs[i]? = some x ∧ f x = b ∧ bs.Perm ((xs.eraseIdx i).map f) := by
  obtain ⟨i, hi⟩ := List.mem_iff_getElem?.1 (h.mem_iff.1 List.mem_cons_self)
  rw [List.getElem?_map] at hi
  obtain ⟨x, hx, rfl⟩ := Option.map_eq_some_iff.1 hi
  obtain ⟨hlt, hget⟩ := List.getElem?_eq_some_iff.1 hx
  refine ⟨i, x, hx, rfl, ?_⟩
  have hfirst := ((List.getElem_cons_eraseIdx_perm hlt).map f).symm
  rw [hget, List.map_cons] at hfirst
  exact (h.trans hfirst).cons_inv

/-- The block with its entry replaced, put first. -/
theorem set_placed {α β : Type} (f : α → β) {xs : List α} {x : α}
    (hx : xs[i]? = some x) (y : α) :
    (f y :: (xs.eraseIdx i).map f).Perm ((xs.set i y).map f) := by
  obtain ⟨hlt, -⟩ := List.getElem?_eq_some_iff.1 hx
  exact ((List.set_perm_cons_eraseIdx hlt y).map f).symm

/-- Live blocks at their addresses, from offsets and sizes. -/
def located (addr : Nat → Nat) (xs : List (Nat × Nat)) : List Alloc :=
  xs.map fun x => ⟨addr x.1, x.2⟩

variable {H : Type} {S : Store H} {o q k : Nat} {h h' : H}

/-- What the refinement of an allocator proves of the requests it serves.
The live blocks are in the order of the client's list. -/
structure Refinement (mode : Mode) (S : Store H) where
  lo : Nat
  hi : Nat
  addr : Nat → Nat
  Ready : Machine → Prop
  Sim : H → List (Nat × Nat) → Machine → Prop
  pos : 1 ≤ lo
  inj : ∀ {o q}, addr o = addr q → o = q
  backed : ∀ {s}, Ready s → Spec.Driver.Backed s
  init : ∀ {s}, Ready s → ∃ r s', (mmInit mode).run s = .ok r s' ∧
    Sim S.init [] s'
  malloc : ∀ {h xs s n o h'}, Sim h xs s → lo ≤ n → n ≤ hi →
    S.malloc h n = some (o, h') → ∃ live' s',
      (serve mode (located addr xs) (.malloc n)).run s
        = .ok (addr o, live') s' ∧
      Sim h' (xs ++ [(o, n)]) s' ∧
      Preserved (located addr xs) (.malloc n) (addr o) s.mem s'.mem
  full : ∀ {h xs s n}, Sim h xs s → lo ≤ n → n ≤ hi →
    S.malloc h n = none → ∃ s', (mmMalloc mode n).run s = .ok 0 s'
  realloc : ∀ {h xs s i x n q h'}, Sim h xs s → xs[i]? = some x →
    1 ≤ n → n ≤ hi → S.realloc h x.1 n = some (some (q, h')) →
      ∃ live' s',
      (serve mode (located addr xs) (.realloc i n)).run s
        = .ok (addr q, live') s' ∧
      Sim h' (xs.set i (q, n)) s' ∧
      Preserved (located addr xs) (.realloc i n) (addr q) s.mem s'.mem
  null : ∀ {h xs s i x n}, Sim h xs s → xs[i]? = some x →
    1 ≤ n → n ≤ hi → S.realloc h x.1 n = some none → ∃ live' s',
      (serve mode (located addr xs) (.realloc i n)).run s
        = .ok (0, live') s'
  stuck : ∀ {h xs s i x n}, Sim h xs s → xs[i]? = some x →
    1 ≤ n → n ≤ hi → S.realloc h x.1 n = none → ∃ s',
      (serve mode (located addr xs) (.realloc i n)).run s
        = .error .fault s'
  free : ∀ {h xs s i x}, Sim h xs s → xs[i]? = some x → ∃ p live' s',
      (serve mode (located addr xs) (.free i)).run s = .ok (p, live') s' ∧
      Sim (S.free h x.1) (xs.eraseIdx i) s' ∧
      Preserved (located addr xs) (.free i) p s.mem s'.mem
  write : ∀ {h xs s x m}, Sim h xs s → x ∈ xs →
    (∀ y, y < addr x.1 ∨ addr x.1 + x.2 ≤ y → m y = s.mem y) →
    Sim h xs { s with mem := m }
  placed : ∀ {h xs s x}, Sim h xs s → x ∈ xs → addr x.1 ≠ 0 ∧
    addr x.1 % 8 = 0 ∧ s.memStartBrk ≤ addr x.1 ∧
    addr x.1 + x.2 ≤ s.memBrk
  apart : ∀ {h xs s}, Sim h xs s →
    (located addr xs).Pairwise Alloc.Apart
  extent : ∀ {h xs s}, Sim h xs s →
    s.memBrk = s.memStartBrk + S.extent h
  clear : ∀ {h xs s}, Sim h xs s → Ready (wiped s)

variable (V : Refinement mode S)

/-- The machine stands for the heap, with these live blocks in some
order. -/
def Refinement.Stands (h : H) (live : List Alloc) (s : Machine) : Prop :=
  ∃ xs, live.Perm (located V.addr xs) ∧ V.Sim h xs s

variable {V}

/-- The block put first, by its place in the list. -/
theorem Refinement.Stands.first
    (hrep : V.Stands h (⟨V.addr o, k⟩ :: live) s) : ∃ xs i,
    V.Sim h xs s ∧ xs[i]? = some (o, k) ∧
      (located V.addr xs)[i]? = some ⟨V.addr o, k⟩ ∧
      live.Perm (located V.addr (xs.eraseIdx i)) := by
  obtain ⟨xs, hperm, hsim⟩ := hrep
  obtain ⟨i, x, hx, hfirst, hrest⟩ := first_placed hperm
  obtain ⟨hptr, hsz⟩ := Alloc.mk.inj hfirst
  have hxeq : x = (o, k) := Prod.ext (V.inj hptr) hsz
  subst hxeq
  refine ⟨xs, i, hsim, hx, ?_, hrest⟩
  unfold located
  rw [List.getElem?_map, hx]
  rfl

/-- The others, by the list without it. -/
theorem located_erase (addr : Nat → Nat) (xs : List (Nat × Nat)) (i : Nat) :
    (located addr xs).eraseIdx i = located addr (xs.eraseIdx i) :=
  List.eraseIdx_map ..

theorem Refinement.Stands.malloc (hrep : V.Stands h live s)
    (hn : V.lo ≤ n) (hn' : n ≤ V.hi) (hS : S.malloc h n = some (o, h')) :
    ∃ st' s', ((linked mode).mmMalloc n ()).run s
        = .ok (V.addr o, st') s' ∧
      V.Stands h' (⟨V.addr o, n⟩ :: live) s' ∧ Kept live s.mem s'.mem := by
  obtain ⟨xs, hperm, hsim⟩ := hrep
  obtain ⟨live', s', hrun, hsim', hkeep⟩ := V.malloc hsim hn hn' hS
  refine ⟨(), s', of_serve_malloc hrun, ⟨_, ?_, hsim'⟩,
    (kept_all hkeep rfl).perm hperm⟩
  unfold located at hperm ⊢
  rw [List.map_append]
  exact (hperm.cons _).trans (List.perm_append_singleton _ _).symm

theorem Refinement.Stands.full (hrep : V.Stands h live s)
    (hn : V.lo ≤ n) (hn' : n ≤ V.hi) (hS : S.malloc h n = none) :
    ∃ st' s', ((linked mode).mmMalloc n ()).run s = .ok (0, st') s' := by
  obtain ⟨xs, -, hsim⟩ := hrep
  obtain ⟨s', hrun⟩ := V.full hsim hn hn' hS
  exact ⟨(), s', bind_ok hrun⟩

theorem Refinement.Stands.realloc
    (hrep : V.Stands h (⟨V.addr o, k⟩ :: live) s) (hn : 1 ≤ n)
    (hn' : n ≤ V.hi) (hS : S.realloc h o n = some (some (q, h'))) :
    ∃ st' s', ((linked mode).mmRealloc (V.addr o) n ()).run s
        = .ok (V.addr q, st') s' ∧
      V.Stands h' (⟨V.addr q, n⟩ :: live) s' ∧ Kept live s.mem s'.mem ∧
      ∀ off < min k n,
        s'.mem (V.addr q + off) = s.mem (V.addr o + off) := by
  obtain ⟨xs, i, hsim, hx, hget, hrest⟩ := hrep.first
  obtain ⟨live', s', hrun, hsim', hkeep⟩ := V.realloc hsim hx hn hn' hS
  have hpos := (V.placed hsim' (List.mem_of_getElem? (List.getElem?_set_self
    (List.getElem?_eq_some_iff.1 hx).1))).1
  have hkept := kept_others hkeep (i := i) rfl
  rw [located_erase] at hkept
  refine ⟨(), s', of_serve_realloc hget hrun, ⟨_, ?_, hsim'⟩,
    hkept.perm hrest, fun off hoff => ?_⟩
  · exact (hrest.cons _).trans
      (set_placed (fun x => (⟨V.addr x.1, x.2⟩ : Alloc)) hx (q, n))
  · exact hkeep.moved i n _ rfl hn hpos hget off hoff

theorem Refinement.Stands.null
    (hrep : V.Stands h (⟨V.addr o, k⟩ :: live) s) (hn : 1 ≤ n)
    (hn' : n ≤ V.hi) (hS : S.realloc h o n = some none) :
    ∃ st' s', ((linked mode).mmRealloc (V.addr o) n ()).run s
      = .ok (0, st') s' := by
  obtain ⟨xs, i, hsim, hx, hget, -⟩ := hrep.first
  obtain ⟨live', s', hrun⟩ := V.null hsim hx hn hn' hS
  exact ⟨(), s', of_serve_realloc hget hrun⟩

theorem Refinement.Stands.stuck
    (hrep : V.Stands h (⟨V.addr o, k⟩ :: live) s) (hn : 1 ≤ n)
    (hn' : n ≤ V.hi) (hS : S.realloc h o n = none) :
    ∃ s', ((linked mode).mmRealloc (V.addr o) n ()).run s
      = .error .fault s' := by
  obtain ⟨xs, i, hsim, hx, hget, -⟩ := hrep.first
  obtain ⟨s', hrun⟩ := V.stuck hsim hx hn hn' hS
  exact ⟨s', of_serve_died hget hrun⟩

theorem Refinement.Stands.free
    (hrep : V.Stands h (⟨V.addr o, k⟩ :: live) s) :
    ∃ st' s', ((linked mode).mmFree (V.addr o) ()).run s
        = .ok ((), st') s' ∧
      V.Stands (S.free h o) live s' ∧ Kept live s.mem s'.mem := by
  obtain ⟨xs, i, hsim, hx, hget, hrest⟩ := hrep.first
  obtain ⟨p, live', s', hrun, hsim', hkeep⟩ := V.free hsim hx
  have hkept := kept_others hkeep (i := i) rfl
  rw [located_erase] at hkept
  exact ⟨(), s', of_serve_free hget hrun, ⟨_, hrest, hsim'⟩,
    hkept.perm hrest⟩

/-- A live block, by its offset. -/
theorem Refinement.Stands.mem (hrep : V.Stands h live s) (ha : a ∈ live) :
    ∃ xs x, live.Perm (located V.addr xs) ∧ V.Sim h xs s ∧ x ∈ xs ∧
      a = ⟨V.addr x.1, x.2⟩ := by
  obtain ⟨xs, hperm, hsim⟩ := hrep
  obtain ⟨x, hx, rfl⟩ := List.mem_map.1 (hperm.mem_iff.1 ha)
  exact ⟨xs, x, hperm, hsim, hx, rfl⟩

/-- A refined allocator, linked, is a service of its store's. -/
def Refinement.service (V : Refinement mode S) :
    Service (linked mode) S where
  lo := V.lo
  hi := V.hi
  addr := V.addr
  Ready := fun _ s => V.Ready s
  Rep := fun h live _ s => V.Stands h live s
  pos := V.pos
  backed := fun hready => V.backed hready
  init := fun {st s} hready => by
    obtain ⟨r, s', hrun, hsim⟩ := V.init hready
    exact ⟨r, (), s', bind_ok hrun, Int.natCast_nonneg r, [],
      List.Perm.refl _, hsim⟩
  perm := fun ⟨xs, hperm, hsim⟩ hp => ⟨xs, hp.symm.trans hperm, hsim⟩
  malloc := fun {h live st s n} hrep hn hn' => by
    cases hS : S.malloc h n with
    | none => exact hrep.full hn hn' hS
    | some x => exact hrep.malloc hn hn' hS
  realloc := fun {h live st s o k n} hrep hn hn' => by
    match hS : S.realloc h o n with
    | none => exact hrep.stuck hn hn' hS
    | some none => exact hrep.null hn hn' hS
    | some (some x) => exact hrep.realloc hn hn' hS
  free := fun hrep => hrep.free
  write := fun hrep ha hm => by
    obtain ⟨xs, x, hperm, hsim, hx, rfl⟩ := hrep.mem ha
    exact ⟨xs, hperm, V.write hsim hx hm⟩
  placed := fun hrep ha => by
    obtain ⟨xs, x, -, hsim, hx, rfl⟩ := hrep.mem ha
    exact V.placed hsim hx
  apart := fun ⟨xs, hperm, hsim⟩ =>
    (hperm.pairwise_iff fun h => h.symm).2 (V.apart hsim)
  extent := fun ⟨xs, _, hsim⟩ => V.extent hsim
  clear := fun ⟨xs, _, hsim⟩ => V.clear hsim

end MallocLab.Proofs.Driver
