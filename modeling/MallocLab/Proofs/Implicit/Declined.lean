/-
Requests past a header word on a heap that is in order. Where the
extension such a request comes to is refused (`Bounded`), the allocator
and the state agree: no block is large enough and none can be made, so
an allocation returns null and loses the rover, and a resize returns null
and changes nothing.

Together with what Serve.lean says of the sizes that fit, a machine that
stands for a state follows it on every such request (`serve_follows`).
-/
import MallocLab.Proofs.Implicit.Capacity
import MallocLab.Proofs.Implicit.Serve

namespace MallocLab.Proofs.Implicit

open Mem Hoare Blocks Model Model.Implicit Spec.Implicit

variable {fit : Fit} {R : Region} {live : List Alloc} {s : Machine}
  {S : State} {A : Heap} {z : Zip} {n hp e size : Nat} {bs : List Blk}

-- ======================================================== no room anywhere

/-- What a refused extension says of the number of bytes asked for: that
many do not fit. -/
theorem refused_past {k d : Nat} (h : Refused s k)
    (hk : k % 2 ^ 32 = d % 2 ^ 32) (hd : 0 < d) (hd' : d < 2 ^ 31) :
    s.memMaxAddr < s.memBrk + d := by
  unfold Refused at h
  rw [toInt_congr hk, toInt_of_lt hd'] at h
  omega

/-- No block of the cut size can be made at the end. -/
theorem refused_grow (ht : Tiled hp e s bs)
    (hmax : s.memMaxAddr = hp + maxHeap - 8) (h : AllocRefused s size) :
    grow bs (u32 (need size)) = none := by
  cases hg : grow bs (u32 (need size)) with
  | none => rfl
  | some y =>
      obtain ⟨⟨hpast, hfit⟩, -, -⟩ := grow_some hg
      have hbrk := ht.brk
      have hlt := maxHeap_lt
      have hword : need size % 2 ^ 32 = u32 (need size) := rfl
      unfold lead at hfit
      rcases stem_cases bs with ⟨hused, hstem⟩ | ⟨l, t, rfl, hfree, hstem⟩
      · obtain ⟨p, htail, halloc⟩ := tail_used ht hused
        have href := (h p ⟨s, htail⟩).2 fun hc =>
          absurd (hc.unique ⟨s, halloc⟩) (by decide)
        rw [hstem] at hpast hfit
        have := refused_past href (d := u32 (need size)) (by omega) (by omega)
          (by omega)
        omega
      · obtain ⟨hstate, haval⟩ := tailBlk_free ht hfree
        have href := (h _ ⟨s, tailBlk_last ht⟩).1 ⟨s, hstate⟩ _ ⟨s, haval⟩
        have htr := t.room_add
        rw [hstem] at hpast hfit
        rw [total_append, total_cons, total_nil] at hpast hbrk
        have := refused_past href (d := u32 (need size) - t.size)
          (by unfold need at *; omega) (by omega) (by omega)
        omega

/-- Nor one of the whole size. -/
theorem grow_past (hbig : 2 ^ 32 ≤ n) : grow bs n = none := by
  have hlt := maxHeap_lt
  unfold grow
  rw [if_neg (by omega)]

/-- No block is large enough. -/
theorem find_past (ht : Tiled hp e s A.blocks) (hbig : maxHeap ≤ n) :
    A.find fit n = none := by
  cases hx : A.find fit n with
  | none => rfl
  | some x =>
      obtain ⟨hpl, -, hroom⟩ := Heap.find_spec hx
      have hbd := placed_bounds hpl
      have hlt := ht.total_lt
      have hr := x.2.room_add
      omega

/-- What rounding up does to such a size. -/
theorem align_past (hbig : wordMax < size) (hle : size ≤ 2 ^ 64 - 8) :
    2 ^ 32 - 8 ≤ align size := by
  unfold wordMax at hbig
  rw [align_eq (by omega)]
  omega

-- ============================================================== the calls

/-- An allocation of such a size, declined: it returns null and loses the
rover, or faults if that is lost already. -/
theorem malloc_declined (h : Rep R s A) (hcl : Closed s) (hA : A.Ok fit)
    (hbig : wordMax < size) (hle : size ≤ 2 ^ 64 - 8)
    (href : AllocRefused s size) :
    (A.malloc fit size = none ∧
      (implicitMmMalloc fit size).run s = .error .fault s) ∨
    (A.malloc fit size = some (none, A.rove fit none) ∧ ∃ s',
      (implicitMmMalloc fit size).run s = .ok 0 s' ∧
      Rep R s' (A.rove fit none)) := by
  obtain ⟨e, ht⟩ := h.tiled
  have h0 : size ≠ 0 := by omega
  have hal := align_past hbig hle
  have hmax : maxHeap < 2 ^ 31 := maxHeap_lt
  by_cases hlost : fit = .next ∧ A.rover = none
  · obtain ⟨rfl, hr⟩ := hlost
    refine Or.inl ⟨?_, malloc_lost h h0 hr⟩
    unfold Heap.malloc
    rw [if_neg h0, if_pos ⟨rfl, hr⟩]
  have hx : A.find fit (align size) = none := find_past ht (by omega)
  have hcomes := findFit_ok (align size) ht (ht.last ▸ hcl) h.listp hA
    (fun ρ hρ => by rw [h.cur, hρ]; rfl) fun hf hr => hlost ⟨hf, hr⟩
  rw [hx] at hcomes
  obtain ⟨t, hrun, ht'⟩ := malloc_null h h0 hcomes
    (refused_grow ht (by rw [h.max]; omega) href)
  refine Or.inr ⟨?_, _, hrun, ?_⟩
  · have hnone : grow A.blocks (need size) = none := grow_past (by
      unfold need
      omega)
    unfold Heap.malloc
    rw [if_neg h0, if_neg hlost, hx]
    simp only [hnone]
  · rcases ht' with rfl | ⟨rfl, -⟩
    · exact (h.withErrno enomem).roved none
    · exact h.roved none

variable (fit) in
/-- A resize to such a size, declined: it returns null. -/
theorem realloc_declined (h : Rep R s A) (hz : z.blocks = A.blocks)
    (hcl : Closed s) (hu : z.mid.used = true) (hbig : 8 < z.mid.size)
    (hbit : z.right = [] → rd 4 s.mem (s.memBrk - 4) % 2 = 0)
    (hpast : wordMax < size) (hle : size ≤ 2 ^ 64 - 16)
    (href : GrowRefused s (addr R z.off) size) :
    A.resize fit z (need size) = some (none, A) ∧ ∃ s',
      (implicitMmRealloc fit (addr R z.off) size).run s = .ok 0 s' ∧
      Rep R s' A := by
  obtain ⟨e, ht⟩ := h.tiled
  have hz' := ht
  rw [← hz] at hz'
  have hal := align_past hpast (by omega)
  have hal' : align size + 8 < 2 ^ 64 := by
    rw [align_eq (by omega)]
    omega
  have hneed : 2 ^ 32 ≤ need size := by
    unfold need
    omega
  have hlt := hz'.size_lt
  have hmax := maxHeap_lt
  have hmore : z.mid.size < need size := by omega
  have hmore' : z.absorbNext.mid.size < need size := by
    rcases z.absorbNext_cases with ⟨-, hw⟩ | ⟨c, r, hr, -, hw⟩
    · rw [hw]
      exact hmore
    · rw [hr, total_cons] at hlt
      rw [hw, Blk.join_size]
      omega
  have hmore'' : z.absorbPrev.mid.size < need size := by
    rcases z.absorbPrev_cases with ⟨-, hw⟩ | ⟨l, c, hl, -, hw⟩
    · rw [hw]
      exact hmore
    · have hoff : z.off = total l + c.size := by
        unfold Zip.off
        simp [hl]
      rw [hw, Blk.join_size]
      omega
  -- the last block would be extended, whatever comes of it
  have hne : z.right ≠ [] := by
    intro hlast
    have hread := lastRead hz' (ht.last ▸ hcl) (ht.last ▸ hbit hlast) hlast
    exact href.last ⟨s, hread.alloc⟩
      ⟨s, (bind_ok hread.next).trans hread.eb⟩
  have hother : ¬ Gives s tailBlk (addr R z.off) := by
    obtain ⟨p, htail, hnp⟩ := not_tail hz' hne
    exact fun hc => hnp (hc.unique ⟨s, htail⟩)
  obtain ⟨s', hrun, hheld⟩ : ∃ s', (reallocNew fit (addr R z.off) size
      (need size) z.mid.size).run s = .ok 0 s' ∧ Held R s A ∅ s' A :=
    reallocNew_none h hz hne
      (refused_grow ht (by rw [h.max]; omega) (href.other hother)) ∅
  refine ⟨Heap.resize_none hmore hmore' hne hmore'' (grow_past hneed), s', ?_,
    hheld.rep⟩
  rw [show addr R z.off = R.base + 8 + 8 + z.off from rfl,
    realloc_checks hz' hu hbig (by omega) fit, u64_need hal',
    if_neg (by omega), if_neg (by omega), reallocGrow_on hz' hne hmore',
    reallocPrev_on hz' hmore'']
  exact hrun

-- ============================================================ the requests

/-- What following the state comes to: a fault where it has no answer,
else its answer, and a machine that stands for the state it leaves. -/
def Follows (fit : Fit) (R : Region) (live : List Alloc) (s : Machine)
    (r : Req) : Option (Option Nat × State) → Prop
  | none => ∃ s', (serve (.implicit fit) live r).run s = .error .fault s'
  | some (o, S') => ∃ live' s',
      (serve (.implicit fit) live r).run s = .ok (ptrOf R o, live') s' ∧
      Sim fit R live' s' S'

/-- Answering is following. -/
theorem Answered.follows {r : Req} {x : Option (Option Nat × State)}
    (h : Answered fit R live s S r x) : Follows fit R live s r x := by
  cases x with
  | none =>
      obtain ⟨s', hrun, -⟩ := h
      exact ⟨s', hrun⟩
  | some y =>
      obtain ⟨live', s', hrun, hleft⟩ := h
      exact ⟨live', s', hrun, hleft.sim⟩

/-- An allocation, declined. -/
theorem enrol_declined (h : Sim fit R live s S) (hcl : Closed s) {r : Req}
    (hbig : wordMax < n) (hle : n ≤ 2 ^ 64 - 8) (href : AllocRefused s n)
    (hS : S.serve fit r = (S.heap.malloc fit n).map (S.enrol n))
    (hrun : (serve (.implicit fit) live r).run s = (do
      let p ← implicitMmMalloc fit n
      return (p, enrol live p n) : M (Nat × List Alloc)).run s) :
    Follows fit R live s r (S.serve fit r) := by
  rw [hS]
  rcases malloc_declined h.rep hcl h.ok.heap hbig hle href with
    ⟨hans, hfault⟩ | ⟨hans, s', hok, hrep⟩
  · rw [hans]
    exact ⟨s, hrun.trans (bind_error hfault)⟩
  · rw [hans]
    refine ⟨live, s', hrun.trans (bind_ok hok), hrep, ⟨h.ok.heap.lose, ?_⟩,
      h.live⟩
    show Owned exact S.live (marked true 0 (S.heap.rove fit none).blocks)
    rw [Heap.rove_blocks]
    exact h.ok.owned

/-- A resize of a live allocation, declined. -/
theorem resize_declined (h : Sim fit R live s S) {i : Nat}
    {x : Nat × Nat} (hx : S.live[i]? = some x) (hbig : wordMax < n)
    (hle : n ≤ 2 ^ 64 - 16) (href : GrowRefused s (addr R x.1) n)
    (hcl : Meets S (.realloc i n) → Closed s)
    (hopen : Open s S (.realloc i n)) :
    Follows fit R live s (.realloc i n) (S.serve fit (.realloc i n)) := by
  have h0 : n ≠ 0 := by omega
  obtain ⟨z, hzb, hzo, hu, ⟨hpos, hle', hroom⟩, -⟩ := h.ok.cursor hx
  obtain ⟨e, ht⟩ := h.rep.tiled
  rw [← hzb] at ht
  have hlt := ht.size_lt
  have hmax := maxHeap_lt
  have hold := need_size hpos hle'
  have hr := z.mid.room_add
  have hmore : z.mid.size < need n := by
    have := align_past hbig (by omega)
    unfold need
    omega
  rw [← hzo] at href
  obtain ⟨hres, s', hrun, hrep⟩ := realloc_declined fit h.rep hzb
    (hcl ⟨x, z, hx, hzb, hzo, Or.inr ⟨h0, hmore⟩⟩) hu (by omega)
    (fun hlast => hopen i n x z rfl hx hzb hzo hlast hmore) hbig hle href
  rw [hzo] at hrun
  have hS : S.serve fit (.realloc i n) = some (none, S) := by
    simp only [State.serve, hx, if_neg h0, Heap.realloc_at hzb hzo, hres]
    rfl
  rw [hS]
  have hserve : (serve (.implicit fit) live (.realloc i n)).run s
      = .ok (0, resized live i 0 n) s' :=
    (serve_realloc_call (h.houses.live_at hx) n).trans (bind_ok hrun)
  rw [resized_null h0] at hserve
  exact ⟨live, s', hserve, hrep, h.ok, h.live⟩

/-- On every request that keeps to the condition the machine follows the
state. -/
theorem serve_follows (h : Sim fit R live s S) {r : Req}
    (hb : Bounded live s r) (hcl : Meets S r → Closed s)
    (hopen : Open s S r) : Follows fit R live s r (S.serve fit r) := by
  by_cases hr : Sized 0 wordMax r
  · exact (serve_ok h hr hcl hopen).follows
  cases r with
  | malloc n =>
      have hbig : wordMax < n := Nat.lt_of_not_le fun hc =>
        hr ⟨Nat.zero_le n, hc⟩
      obtain ⟨hle, href⟩ := hb.resolve_left (Nat.not_le_of_lt hbig)
      exact enrol_declined h (hcl (Nat.ne_zero_of_lt hbig)) hbig hle href rfl
        rfl
  | reallocNull n =>
      have hbig : wordMax < n := Nat.lt_of_not_le fun hc =>
        hr ⟨Nat.zero_le n, hc⟩
      obtain ⟨hle, href⟩ := hb.resolve_left (Nat.not_le_of_lt hbig)
      exact enrol_declined h (hcl (Nat.ne_zero_of_lt hbig)) hbig hle href rfl
        rfl
  | free i => exact absurd trivial hr
  | write i off v => exact absurd trivial hr
  | realloc i n =>
      cases hx : S.live[i]? with
      | none =>
          refine (idle_ok h (by simp only [State.serve, hx])
            (serve_idle rfl ?_)).follows
          rw [h.live_get, hx]
          rfl
      | some x =>
          have hbig : wordMax < n := Nat.lt_of_not_le hr
          obtain ⟨hle, href⟩ := (hb _ (h.houses.live_at hx)).resolve_left
            (Nat.not_le_of_lt hbig)
          exact resize_declined h hx hbig hle href hcl hopen

end MallocLab.Proofs.Implicit
