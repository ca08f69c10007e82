/-
Allocations of one to eight bytes. They look at slot zero, and a block
that was once filed there is still on its list, whatever has become of
it: `FREELIST_DEL_BLK` leaves a block of the smallest size where it is.

# What goes wrong

Allocate eight bytes, free them, allocate eight bytes twice: the list at
slot zero still holds the block after the second call has taken it, and
the third call takes it again. `Honest` is the condition that this does
not happen: the first node with a header of sixteen bytes or more that
the walk comes to is a free block of the heap list. As long as every
small allocation meets it, the allocator behaves as it does for the
larger sizes, and the payloads of live allocations stay apart.
-/
import MallocLab.Proofs.Segregate.Runs

namespace MallocLab.Proofs.Segregate

open Mem Blocks Model Model.Segregate Spec.Segregated

-- ========================================================== the condition

/-- Walking from `p`, `freelist_alloc` comes to null or to a free block
of the heap list before any other block it takes to be big enough. -/
inductive Honest (s : Machine) (xs : List Seen) : Nat → Prop
  | stop : Honest s xs 0
  | found {x : Seen} (hx : x ∈ xs) (hfree : x.state = blkFree) :
      Honest s xs x.addr
  | skip {p q n : Nat} (hp : p ≠ 0) (hsize : (blkSize p).run s = .ok n s)
      (hsmall : n < blkMinSize) (hnext : (nextFreeBlkp p).run s = .ok q s)
      (hrest : Honest s xs q) : Honest s xs p

/-- The walk at slot zero is honest. -/
def SlotHonest (s : Machine) : Prop :=
  ∃ xs p, HeapList s xs ∧
    (nextFreeBlkp s.freelistTable).run s = .ok p s ∧ Honest s xs p

/-- The condition on a request: if it looks at slot zero, the walk there
is honest. -/
def HonestFor (_ : List Alloc) (s : Machine) : Req → Prop
  | .malloc n => n ≤ 8 → SlotHonest s
  | .reallocNull n => n ≤ 8 → SlotHonest s
  | _ => True

-- ================================================================ the walk

variable {R : Region} {live : List Alloc} {s : Machine} {S : State}
  {A : Heap} {p n : Nat}

/-- Walking from `p` for `n` bytes, `freelist_alloc` comes to null or to
a free block that fits, past headers of fewer bytes. -/
inductive Leads (R : Region) (s : Machine) (A : Heap) (n : Nat) :
    Nat → Prop
  | stop : Leads R s A n 0
  | found {z : Zip} (hz : Fit A n z) : Leads R s A n (addr R z.off)
  | skip {p q k : Nat} (hp : p ≠ 0) (hsize : (blkSize p).run s = .ok k s)
      (hsmall : k < n) (hnext : (nextFreeBlkp p).run s = .ok q s)
      (hrest : Leads R s A n q) : Leads R s A n p

/-- A free block of the heap list, at its cursor. -/
theorem Rep.free_cursor (h : Rep R s A) {x : Seen}
    (hx : x ∈ seen (R.base + 104) A.blocks) (hfree : x.state = blkFree) :
    ∃ z : Zip, x.addr = addr R z.off ∧ Fit A 16 z := by
  obtain ⟨o, b, hb, rfl⟩ := mem_seen_addr.1 hx
  obtain ⟨z, hzb, hzo, rfl⟩ := Zip.of_placed hb
  have hmin := h.ok.min z.mid (placed_mem hb)
  refine ⟨z, ?_, hzb, seen_free.1 hfree, hmin⟩
  rw [hzo]
  rfl

/-- An honest walk leads somewhere. -/
theorem Honest.leads (h : Rep R s A)
    (hp : Honest s (seen (R.base + 104) A.blocks) p) : Leads R s A 16 p := by
  induction hp with
  | stop => exact Leads.stop
  | found hx hfree =>
      obtain ⟨z, haddr, hfit⟩ := h.free_cursor hx hfree
      rw [haddr]
      exact Leads.found hfit
  | skip hp hsize hsmall hnext _ ih =>
      exact Leads.skip hp hsize hsmall hnext ih

/-- So does the list at slot zero, if it is honest. -/
theorem SlotHonest.leads (h : Rep R s A) (hs : SlotHonest s) :
    ∃ p, (nextFreeBlkp R.base).run s = .ok p s ∧ Leads R s A 16 p := by
  obtain ⟨xs, p, hxs, hp, hhon⟩ := hs
  rw [h.shape.table] at hp
  rw [hxs.blocks.unique h.heapList.blocks] at hhon
  exact ⟨p, hp, hhon.leads h⟩

/-- One round of the walk at a block that fits takes it. -/
theorem freelistWalk_take (h : Rep R s A) {z : Zip} (hz : Fit A n z)
    (fuel : Nat) : (freelistWalk n (fuel + 1) (addr R z.off)).run s
      = (freelistTake (addr R z.off) z.mid.size n).run s := by
  have htiled := h.shape.tiled
  rw [← hz.blocks] at htiled
  have hsize : (blkSize (addr R z.off)).run s = .ok z.mid.size s :=
    blkSize_ok htiled
  rw [freelistWalk, if_neg (addr_pos R z.off), bind_ok hsize,
    if_pos hz.size]

/-- Such a walk finds nothing, or a free block that fits, if it ends
within the rounds it is given. -/
theorem freelistWalk_leads (h : Rep R s A) (hn : n % 8 = 0) (hn' : 16 ≤ n)
    (hp : Leads R s A n p) (fuel : Nat) :
    (∃ s', (freelistWalk n fuel p).run s = .error .spin s') ∨
      ∃ pick : Option Zip, (∀ z ∈ pick, Fit A n z) ∧
        Handed R s A n pick ((freelistWalk n fuel p).run s) := by
  induction hp generalizing fuel with
  | stop =>
      cases fuel with
      | zero => exact Or.inl ⟨s, rfl⟩
      | succ fuel => exact Or.inr ⟨none, by simp, rfl⟩
  | @found z hz =>
      cases fuel with
      | zero => exact Or.inl ⟨s, rfl⟩
      | succ fuel =>
          refine Or.inr ⟨some z, fun w hw => ?_, ?_⟩
          · cases hw
            exact hz
          · rw [freelistWalk_take h hz]
            exact freelistTake_ok h hn hn' hz
  | @skip p q k hp hsize hsmall hnext _ ih =>
      cases fuel with
      | zero => exact Or.inl ⟨s, rfl⟩
      | succ fuel =>
          have hround : (freelistWalk n (fuel + 1) p).run s
              = (freelistWalk n fuel q).run s := by
            rw [freelistWalk, if_neg hp, bind_ok hsize,
              if_neg (Nat.not_le.2 hsmall), bind_ok hnext]
          rw [hround]
          exact ih fuel

/-- The same for a list whose cell holds the first node. -/
theorem freelistAlloc_leads (h : Rep R s A) {a size : Nat}
    (hsize : u64 (align size + blkHdrSize + blkFtrSize) = n)
    (hn : n % 8 = 0) (hn' : 16 ≤ n) (hp : (nextFreeBlkp a).run s = .ok p s)
    (hw : Leads R s A n p) :
    (∃ s', (freelistAlloc a size).run s = .error .spin s') ∨
      ∃ pick : Option Zip, (∀ z ∈ pick, Fit A n z) ∧
        Handed R s A n pick ((freelistAlloc a size).run s) := by
  unfold freelistAlloc
  rw [bind_ok hp, hsize]
  by_cases hnull : p = 0
  · rw [if_pos hnull]
    exact Or.inr ⟨none, by simp, rfl⟩
  · rw [if_neg hnull]
    exact freelistWalk_leads h hn hn' hw loopFuel

/-- A small size looks at slot zero, for a block of the smallest size. -/
theorem small_need (hn : 1 ≤ n) (hn' : n ≤ 8) : fltIndexOf n = 0 ∧
    need n = 16 ∧ u64 (align n + blkHdrSize + blkFtrSize) = 16 := by
  have hneed : need n = 16 := by
    unfold need
    rw [align_eq (by omega)]
    omega
  refine ⟨(fltIndexOf_eq_zero hn (by omega)).2 hn', hneed, ?_⟩
  rw [need_u64 hn (by omega), hneed]

/-- A small allocation whose walk is honest finds a pick at slot zero, or
never returns. -/
theorem slotZero_ok (h : Sim R live s S) (hs : SlotHonest s) (hn : 1 ≤ n)
    (hn' : n ≤ 8) :
    (∃ s', (segregateMmMalloc n).run s = .error .spin s') ∨
      ∃ pick, ZeroOk R s S.heap pick n := by
  obtain ⟨hidx, hneed, hsize⟩ := small_need hn hn'
  obtain ⟨p, hp, hleads⟩ := hs.leads h.rep
  rcases freelistAlloc_leads h.rep hsize rfl (Nat.le_refl 16) hp hleads with
    ⟨s', hspin⟩ | ⟨pick, hw⟩
  · -- the call starts with the walk that never ends
    refine Or.inl ⟨s', ?_⟩
    have hscan : (scanSlots n (List.range' 0 (fltSlotNum - 0))).run s
        = .error .spin s' := by
      rw [show List.range' 0 (fltSlotNum - 0) = 0 :: List.range' 1 10
        from rfl, scanSlots, bind_ok (run_get s)]
      refine bind_error ?_
      show (freelistAlloc (s.freelistTable + 8 * 0) n).run s = _
      rw [h.rep.shape.table, Nat.mul_zero, Nat.add_zero, hspin]
    unfold segregateMmMalloc
    rw [hidx]
    exact bind_error hscan
  · refine Or.inr ⟨pick, ?_⟩
    unfold ZeroOk
    rw [hneed, if_pos hidx]
    exact hw

/-- One request whose walk is honest: if it returns, the machine stands
for a well-formed state again. -/
theorem serve_honest (h : Sim R live s S) {r : Req} (hr : Sized 1 maxSize r)
    (hs : HonestFor live s r) {p : Nat} {live' : List Alloc} {s' : Machine}
    (hrun : (serve .segregate live r).run s = .ok (p, live') s') :
    ∃ S', Sim R live' s' S' := by
  -- an allocation that never returns did not return
  have hmalloc : ∀ n, 1 ≤ n → n ≤ maxSize → (n ≤ 8 → SlotHonest s) →
      (∀ s'', (segregateMmMalloc n).run s ≠ .error .spin s'') →
      ∃ pick, ZeroOk R s S.heap pick n := by
    intro n hn hn' hslot hret
    by_cases hsmall : n ≤ 8
    · rcases slotZero_ok h (hslot hsmall) hn hsmall with ⟨s'', hspin⟩ | hz
      · exact absurd hspin (hret s'')
      · exact hz
    · exact ⟨none, zeroOk_of_lt (by omega) hn'⟩
  have hpick : ∃ pick, ZeroFor R s S.heap pick r := by
    cases r with
    | malloc n =>
        refine hmalloc n hr.1 hr.2 hs fun s'' hspin => ?_
        exact absurd (hrun.symm.trans (bind_error hspin)) (by simp)
    | reallocNull n =>
        refine hmalloc n hr.1 hr.2 hs fun s'' hspin => ?_
        exact absurd (hrun.symm.trans (bind_error hspin)) (by simp)
    | free i => exact ⟨none, trivial⟩
    | realloc i n => exact ⟨none, trivial⟩
    | write i off v => exact ⟨none, trivial⟩
  obtain ⟨pick, hz⟩ := hpick
  have hans := serve_ok h hr hz
  cases hS : S.serve pick r with
  | none =>
      rw [hS] at hans
      obtain ⟨s'', hfault⟩ := hans
      exact absurd (hrun.symm.trans hfault) (by simp)
  | some x =>
      obtain ⟨o, S'⟩ := x
      rw [hS] at hans
      obtain ⟨live'', s'', hrun', hsim, -⟩ := hans
      injection hrun.symm.trans hrun' with hp hs'
      injection hp with _ hlive
      subst hlive hs'
      exact ⟨S', hsim⟩

-- ===================================================== every reachable state

/-- Two live allocations never share a byte, in a run in which every
small allocation comes to a free block first at slot zero. -/
theorem segregate_apart (R : Region) (m : Bytes) {reqs : List Req}
    (hsize : ∀ r ∈ reqs, Sized 1 maxSize r)
    (hslot : Throughout .segregate HonestFor (memInit R m) reqs)
    {ps : List Nat} {live : List Alloc} {s : Machine}
    (hrun : (run .segregate reqs).run (memInit R m) = .ok (ps, live) s) :
    live.Pairwise Alloc.Apart ∧ (live.map Alloc.ptr).Nodup := by
  obtain ⟨s₀, hinit, hsim⟩ := init_sim R m
  have hC := along_and_all (hslot 0 s₀ hinit) hsize
  have hall : (serveAll .segregate [] reqs).run s₀ = .ok (ps, live) s := by
    unfold run at hrun
    rwa [bind_ok hinit] at hrun
  obtain ⟨S, hS⟩ := serveAll_returned
    (I := fun live s => ∃ S, Sim R live s S)
    (fun live s r p live' s' ⟨S, hS⟩ ⟨hs, hr⟩ hrun =>
      serve_honest hS hr hs hrun) ⟨_, hsim⟩ hC hall
  exact ⟨hS.houses.apart, (heapOk_of hS).distinct⟩

/-- Whether slot zero is empty or starts with a free block of the heap
list. -/
def checkSlot (s : Machine) : Bool :=
  rd 8 s.mem s.freelistTable == 0 || checkBlocks s fun xs =>
    ∃ x ∈ xs, x.addr = rd 8 s.mem s.freelistTable ∧ x.state = blkFree

theorem slotHonest_of_check (hS : Sim R live s S)
    (h : checkSlot s = true) : SlotHonest s := by
  have hacc : Access s s.freelistTable 8 := by
    rw [hS.rep.shape.table]
    exact hS.rep.shape.access (Nat.le_refl _) (by omega)
  refine ⟨_, _, hS.heapList, load_ok hacc, ?_⟩
  rcases Bool.or_eq_true_iff.1 h with hnull | hfree
  · rw [beq_iff_eq.1 hnull]
    exact Honest.stop
  · obtain ⟨x, hx, haddr, hst⟩ := of_checkBlocks hfree hS.heapList.blocks
    rw [← haddr]
    exact Honest.found hx hst

/-- Whether a request needs nothing of slot zero, or finds it so. -/
def checkHonest (_ : List Alloc) (s : Machine) : Req → Bool
  | .malloc n => decide (8 < n) || checkSlot s
  | .reallocNull n => decide (8 < n) || checkSlot s
  | _ => true

theorem honestFor_of_check (hS : Sim R live s S) {r : Req}
    (h : checkHonest live s r = true) : HonestFor live s r := by
  have hone : ∀ n, (decide (8 < n) || checkSlot s) = true → n ≤ 8 →
      SlotHonest s := fun n hc hn => by
    rcases Bool.or_eq_true_iff.1 hc with hlt | hslot
    · exact absurd (of_decide_eq_true hlt) (by omega)
    · exact slotHonest_of_check hS hslot
  cases r with
  | malloc n => exact hone n h
  | reallocNull n => exact hone n h
  | free i => trivial
  | realloc i n => trivial
  | write i off v => trivial

/-- Two of three blocks of eight bytes are freed, and one of them is used
again, while slot zero lists both. -/
def smallReqs : List Req :=
  [.malloc 8, .malloc 16, .malloc 8, .malloc 8, .malloc 16, .free 0, .free 1,
    .malloc 8, .realloc 0 40, .write 2 3 7]

theorem small_sized : ∀ r ∈ smallReqs, Sized 1 maxSize r := by
  simp [smallReqs, Sized, maxSize]

theorem small_honest : Throughout .segregate HonestFor
    (memInit Region.sample fun _ => 0) smallReqs := by
  obtain ⟨s₀, hinit, hsim⟩ := init_sim Region.sample fun _ => 0
  intro q s₁ hinit'
  have hcheck : checkRun .segregate checkHonest
      (memInit Region.sample fun _ => 0) smallReqs = true := by
    decide +kernel
  unfold checkRun at hcheck
  rw [show (mmInit .segregate).run _ = .ok q s₁ from hinit'] at hcheck
  cases hinit.symm.trans hinit'
  exact along_of_check
    (I := fun live s => ∃ S, Sim Region.sample live s S)
    (fun _ _ _ _ _ _ ⟨_, hS⟩ hr hslot hrun => serve_honest hS hr hslot hrun)
    (fun _ _ _ ⟨_, hS⟩ hc => honestFor_of_check hS hc) ⟨_, hsim⟩ small_sized
    hcheck

theorem segregate_apart_sample : ∃ live s,
    (run .segregate smallReqs).run (memInit Region.sample fun _ => 0)
      = .ok ([112, 128, 152, 168, 184, 0, 0, 152, 208, 0], live) s ∧
      live.Pairwise Alloc.Apart ∧ (live.map Alloc.ptr).Nodup := by
  obtain ⟨s, hs⟩ := of_result? (show result?
      ((run .segregate smallReqs).run (memInit Region.sample fun _ => 0))
      = some ([112, 128, 152, 168, 184, 0, 0, 152, 208, 0],
        [⟨208, 40⟩, ⟨168, 8⟩, ⟨184, 16⟩, ⟨152, 8⟩]) by decide +kernel)
  exact ⟨_, s, hs, segregate_apart _ _ small_sized small_honest hs⟩

/-- Allocate eight bytes, free them, and allocate eight bytes twice: the
same block is handed out twice. -/
theorem segregate_overlap : ∃ live s,
    (run .segregate [.malloc 8, .free 0, .malloc 8, .malloc 8]).run
      (memInit Region.sample fun _ => 0) = .ok ([112, 0, 112, 112], live) s ∧
      live = [⟨112, 8⟩, ⟨112, 8⟩] ∧ ¬ live.Pairwise Alloc.Apart := by
  obtain ⟨s, hs⟩ := of_result? (show result?
      ((run .segregate [.malloc 8, .free 0, .malloc 8, .malloc 8]).run
        (memInit Region.sample fun _ => 0))
      = some ([112, 0, 112, 112], [⟨112, 8⟩, ⟨112, 8⟩]) by decide +kernel)
  refine ⟨_, s, hs, rfl, ?_⟩
  unfold Alloc.Apart
  simp

end MallocLab.Proofs.Segregate
