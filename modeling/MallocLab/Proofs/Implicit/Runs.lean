/-
The implicit allocator over whole runs on storage that starts out zero:
the heap list is well-formed, the live allocations are its blocks in
use, and no call disturbs an allocation it is not about, under each of
the three strategies.

# Why zero storage closes the heap

`extend_heap` writes its closing word where the old one was, so after an
extension the last word of the heap is one nobody has written. Nothing
past the break is ever written, and the break moves by eight bytes at
least: on zero storage that word is zero, of size zero and free. Only on
the empty heap is it the one `implicit_mm_init` wrote (`Fresh`).

# The runs

The statements are about the runs in which every `mem_sbrk` is granted.
A refused one is seen in `errno`, which nothing else writes and nothing
clears.
-/
import MallocLab.Proofs.Walk
import MallocLab.Proofs.Implicit.Serve

namespace MallocLab.Proofs.Implicit

open Mem Blocks Model Model.Implicit Spec.Implicit

-- ========================================================== the conditions

/-- Every `mem_sbrk` a request makes is granted. -/
def Granted (fit : Fit) (live : List Alloc) (s : Machine) (r : Req) : Prop :=
  (final ((serve (.implicit fit) live r).run s)).errno ≠ enomem

instance {fit : Fit} {live : List Alloc} {s : Machine} {r : Req} :
    Decidable (Granted fit live s r) :=
  inferInstanceAs (Decidable (_ ≠ _))

/-- The storage of `R` holds zero, and the word before it reads as size
zero. -/
structure Blank (R : Region) (m : Bytes) : Prop where
  zero : ∀ x, R.base ≤ x → x < R.base + maxHeap → m x = 0
  word : rd 4 m (R.base - 4) / 8 = 0

/-- The storage past the break holds zero, and so does the closing word,
but for the one of the empty heap. -/
structure Fresh (R : Region) (s : Machine) : Prop where
  zero : ∀ x, s.memBrk ≤ x → x < R.base + maxHeap → s.mem x = 0
  word : rd 4 s.mem (s.memBrk - 4) = 0 ∨
    (rd 4 s.mem (s.memBrk - 4) = 1 ∧ s.memBrk = R.base + 16)

variable {fit : Fit} {R : Region} {live : List Alloc} {s s' : Machine}
  {S : State} {r : Req}

theorem Fresh.closed (h : Fresh R s) : Closed s := by
  unfold Closed
  rcases h.word with hw | ⟨hw, -⟩ <;> rw [hw]

/-- A heap with blocks has a closing word that reads as free. -/
theorem Fresh.bit (h : Fresh R s) (hS : Sim fit R live s S) {z : Zip}
    (hzb : z.blocks = S.heap.blocks) :
    rd 4 s.mem (s.memBrk - 4) % 2 = 0 := by
  rcases h.word with hw | ⟨-, hbrk⟩
  · rw [hw]
  · obtain ⟨e, ht⟩ := hS.rep.tiled
    have := ht.brk
    have := placed_bounds (z.mem_placed 0)
    have := z.mid.pos
    rw [hzb] at *
    omega

/-- So it can be grown. -/
theorem Fresh.opens (h : Fresh R s) (hS : Sim fit R live s S) (r : Req) :
    Open s S r := fun _ _ _ _ _ _ hzb _ _ _ => h.bit hS hzb

/-- Nothing past the break is written, so what becomes the closing word
is zero. -/
theorem Fresh.step (h : Fresh R s) (hg : Grew s s')
    (hmax : s'.memBrk ≤ R.base + maxHeap) (hlo : 4 ≤ s.memBrk) :
    Fresh R s' := by
  have hzero : ∀ x, s'.memBrk ≤ x → x < R.base + maxHeap →
      s'.mem x = 0 := by
    intro x hx hx'
    have hle := hg.le
    rw [hg.tail (show s'.memBrk - 4 ≤ x by omega)]
    exact h.zero x (by omega) hx'
  refine ⟨hzero, ?_⟩
  have hword : rd 4 s'.mem (s'.memBrk - 4)
      = rd 4 s.mem (s'.memBrk - 4) := rd_congr fun x hx => hg.tail hx.1
  rw [hword]
  rcases hg.le with he | hlt
  · rw [← he]
    exact h.word
  · refine Or.inl (rd_of_zero fun x hx hx' => ?_)
    exact h.zero x (by omega) (by omega)

/-- What is true along a run in which every `mem_sbrk` is granted. -/
structure Going (fit : Fit) (R : Region) (live : List Alloc) (s : Machine)
    (S : State) : Prop where
  sim : Sim fit R live s S
  fresh : Fresh R s
  errno : s.errno ≠ enomem
  rover : fit = .next → S.heap.rover ≠ none

-- ================================================================ the runs

/-- Serving a request on fresh storage. -/
theorem serve_fresh (h : Sim fit R live s S) (hf : Fresh R s)
    (hr : Sized 0 intMax r) :
    Answered fit R live s S r (S.serve fit r) :=
  serve_ok h (hr.mono (Nat.le_refl 0) (by decide)) (fun _ => hf.closed)
    (hf.opens h r)

/-- What a request leaves on fresh storage is fresh. -/
theorem Left.fresh {p : Nat} {live' : List Alloc} {S' : State}
    (hl : Left fit R live s S r p live' s' S') (h : Sim fit R live s S)
    (hf : Fresh R s) : Fresh R s' := by
  obtain ⟨e, ht⟩ := h.rep.tiled
  obtain ⟨e', ht'⟩ := hl.sim.rep.tiled
  have hbrk := ht.brk
  have hmax := ht'.max
  rw [hl.sim.rep.max] at hmax
  exact hf.step hl.grew hmax (by omega)

/-- One request whose extensions are granted: it is answered. -/
theorem serve_step (h : Going fit R live s S) (hr : Sized 0 intMax r)
    (hg : Granted fit live s r) :
    ∃ o S' live' s', S.serve fit r = some (o, S') ∧
      (serve (.implicit fit) live r).run s = .ok (ptrOf R o, live') s' ∧
      Left fit R live s S r (ptrOf R o) live' s' S' ∧
      Going fit R live' s' S' := by
  have hans := serve_fresh h.sim h.fresh hr
  unfold Granted at hg
  cases hS : S.serve fit r with
  | none =>
      rw [hS] at hans
      obtain ⟨s', hfault, hwhy⟩ := hans
      rw [hfault] at hg
      rcases hwhy with he | ⟨hf, hrov⟩
      · exact absurd he hg
      · exact absurd hrov (h.rover hf)
  | some y =>
      obtain ⟨o, S'⟩ := y
      rw [hS] at hans
      obtain ⟨live', s', hrun, hleft⟩ := hans
      rw [hrun] at hg
      refine ⟨o, S', live', s', rfl, hrun, hleft, hleft.sim,
        hleft.fresh h.sim h.fresh, hg, fun hf hrov => ?_⟩
      rcases hleft.rover hrov with hold | he
      · exact h.rover hf hold
      · exact hg he

/-- One request that returned, whether its extensions were granted or
not. -/
theorem serve_returned (h : Sim fit R live s S) (hf : Fresh R s)
    (hr : Sized 0 intMax r) {p : Nat} {live' : List Alloc}
    (hrun : (serve (.implicit fit) live r).run s = .ok (p, live') s') :
    ∃ o S', S.serve fit r = some (o, S') ∧ p = ptrOf R o ∧
      Left fit R live s S r p live' s' S' ∧ Fresh R s' := by
  have hans := serve_fresh h hf hr
  cases hS : S.serve fit r with
  | none =>
      rw [hS] at hans
      obtain ⟨s'', hfault, -⟩ := hans
      exact absurd (hrun.symm.trans hfault) (by simp)
  | some y =>
      obtain ⟨o, S'⟩ := y
      rw [hS] at hans
      obtain ⟨live'', s'', hok, hleft⟩ := hans
      injection hrun.symm.trans hok with hp hs'
      injection hp with hp hlive
      subst hp hlive hs'
      exact ⟨o, S', rfl, rfl, hleft, hleft.fresh h hf⟩

/-- `errno` at the end of a run shows whether an extension was refused
on the way. -/
theorem granted_of_errno {reqs : List Req} {ps : List Nat}
    {live' : List Alloc} (h : Sim fit R live s S) (hf : Fresh R s)
    (hsize : ∀ r ∈ reqs, Sized 0 intMax r)
    (hrun : (serveAll (.implicit fit) live reqs).run s = .ok (ps, live') s')
    (herr : s'.errno ≠ enomem) :
    s.errno ≠ enomem ∧ Along (.implicit fit) (Granted fit) live s reqs := by
  induction reqs generalizing live s S ps with
  | nil =>
      cases hrun
      exact ⟨herr, trivial⟩
  | cons r rs ih =>
      obtain ⟨⟨p, live₁⟩, s₁, h₁, hk⟩ := bind_returns hrun
      obtain ⟨⟨qs, live₂⟩, s₂, h₂, he⟩ := bind_returns hk
      cases he
      obtain ⟨o, S₁, -, -, hleft, hf₁⟩ :=
        serve_returned h hf (hsize r List.mem_cons_self) h₁
      obtain ⟨herr₁, hrest⟩ := ih hleft.sim hf₁
        (fun x hx => hsize x (List.mem_cons_of_mem r hx)) h₂
      refine ⟨fun hc => herr₁ ?_, ?_, fun p' live'' s'' h' => ?_⟩
      · rcases hleft.errno with hsame | hset
        · rw [hsame, hc]
        · exact hset
      · unfold Granted
        rw [h₁]
        exact herr₁
      · injection h₁.symm.trans h' with hp hs
        injection hp with _ hlive
        subst hlive hs
        exact hrest

/-- Initialisation, on storage whose word before reads as size zero. -/
theorem init_sim (fit : Fit) (R : Region) {m : Bytes}
    (hword : rd 4 m (R.base - 4) / 8 = 0) :
    ∃ s, (mmInit (.implicit fit)).run (memInit R m) = .ok 0 s ∧
      Sim fit R [] s ⟨Heap.init fit, []⟩ ∧ s.errno = 0 ∧
      s.mem = initMem R m ∧ s.memBrk = R.base + 16 := by
  obtain ⟨s, hrun, hrep, herr, hmem, hbrk⟩ := implicitMmInit_ok R m fit hword
  exact ⟨s, hrun, ⟨hrep, State.init_ok fit, rfl⟩, herr, hmem, hbrk⟩

/-- What initialisation leaves of blank storage is fresh. -/
theorem Fresh.init {m : Bytes} (hm : Blank R m) (hmem : s.mem = initMem R m)
    (hbrk : s.memBrk = R.base + 16) : Fresh R s where
  zero := fun x hx hx' => by
    rw [hbrk] at hx
    rw [hmem]
    unfold initMem
    rw [wr_of_out (by omega), wr_of_out (by omega), wr_of_out (by omega),
      wr_of_out (by omega), wr_of_out (by omega)]
    exact hm.zero x (by omega) hx'
  word := by
    refine Or.inr ⟨?_, hbrk⟩
    rw [hbrk, hmem]
    exact rd_wr_of_lt (by decide)

/-- Initialisation on blank storage. -/
theorem init_going (fit : Fit) (R : Region) {m : Bytes} (hm : Blank R m) :
    ∃ s, (mmInit (.implicit fit)).run (memInit R m) = .ok 0 s ∧
      Going fit R [] s ⟨Heap.init fit, []⟩ := by
  obtain ⟨s, hrun, hsim, herr, hmem, hbrk⟩ := init_sim fit R hm.word
  refine ⟨s, hrun, hsim, Fresh.init hm hmem hbrk, ?_, fun hf hrov => ?_⟩
  · rw [herr]
    decide
  · unfold Heap.init at hrov
    rw [Heap.rove_rover _ hf] at hrov
    cases hrov

/-- Requests whose extensions are granted are served as the state serves
them. -/
theorem serveAll_refines {reqs : List Req} (h : Going fit R live s S)
    (hsize : ∀ r ∈ reqs, Sized 0 intMax r)
    (hg : Along (.implicit fit) (Granted fit) live s reqs) :
    ∃ os S' live' s', S.serveAll fit reqs = some (os, S') ∧
      (serveAll (.implicit fit) live reqs).run s
        = .ok (os.map (ptrOf R), live') s' ∧ Going fit R live' s' S' := by
  induction reqs generalizing live s S with
  | nil => exact ⟨[], S, live, s, rfl, rfl, h⟩
  | cons r rs ih =>
      obtain ⟨hgr, hgrest⟩ := hg
      obtain ⟨o, S₁, live₁, s₁, hans, hrun, -, h₁⟩ :=
        serve_step h (hsize r List.mem_cons_self) hgr
      obtain ⟨os, S₂, live₂, s₂, hans₂, hrun₂, h₂⟩ := ih h₁
        (fun x hx => hsize x (List.mem_cons_of_mem r hx))
        (hgrest _ live₁ s₁ hrun)
      refine ⟨o :: os, S₂, live₂, s₂, ?_, ?_, h₂⟩
      · unfold State.serveAll
        rw [hans]
        simp only [Option.bind_eq_bind, Option.bind_some, hans₂]
        rfl
      · unfold serveAll
        rw [bind_ok hrun]
        exact bind_ok hrun₂

/-- Every run whose extensions are granted returns what the abstract run
returns, and leaves a machine that stands for the state that leaves. -/
theorem run_going (fit : Fit) (R : Region) {m : Bytes} (hm : Blank R m)
    {reqs : List Req} (hsize : ∀ r ∈ reqs, Sized 0 intMax r)
    (hg : Throughout (.implicit fit) (Granted fit) (memInit R m) reqs) :
    ∃ os S live s,
      State.serveAll fit ⟨Heap.init fit, []⟩ reqs = some (os, S) ∧
      (run (.implicit fit) reqs).run (memInit R m)
        = .ok (os.map (ptrOf R), live) s ∧ Going fit R live s S := by
  obtain ⟨s₀, hinit, hgo⟩ := init_going fit R hm
  obtain ⟨os, S, live, s, hans, hrun, hS⟩ :=
    serveAll_refines hgo hsize (hg 0 s₀ hinit)
  refine ⟨os, S, live, s, hans, ?_, hS⟩
  unfold run
  rw [bind_ok hinit]
  exact hrun

/-- A run that returned, whether its extensions were granted or not,
leaves a machine that stands for a state. -/
theorem run_returned (fit : Fit) (R : Region) {m : Bytes} (hm : Blank R m)
    {reqs : List Req} (hsize : ∀ r ∈ reqs, Sized 0 intMax r)
    {ps : List Nat} (hrun : (run (.implicit fit) reqs).run (memInit R m)
      = .ok (ps, live) s) : ∃ S, Sim fit R live s S ∧ Fresh R s := by
  obtain ⟨s₀, hinit, hgo⟩ := init_going fit R hm
  unfold run at hrun
  rw [bind_ok hinit] at hrun
  exact serveAll_returned
    (I := fun live s => ∃ S, Sim fit R live s S ∧ Fresh R s)
    (fun live s r p live' s' ⟨S, hS, hf⟩ hr hserve => by
      obtain ⟨o, S', -, -, hleft, hf'⟩ := serve_returned hS hf hr hserve
      exact ⟨S', hleft.sim, hf'⟩)
    ⟨_, hgo.sim, hgo.fresh⟩
    (along_mono (along_and_all (along_trivial [] s₀ reqs) hsize)
      fun _ _ _ h => h.2) hrun

/-- A run that left `errno` as it was had its extensions granted. -/
theorem granted_run (fit : Fit) (R : Region) {m : Bytes} (hm : Blank R m)
    {reqs : List Req} (hsize : ∀ r ∈ reqs, Sized 0 intMax r)
    {ps : List Nat} (hrun : (run (.implicit fit) reqs).run (memInit R m)
      = .ok (ps, live) s) (herr : s.errno ≠ enomem) :
    Throughout (.implicit fit) (Granted fit) (memInit R m) reqs := by
  obtain ⟨s₀, hinit, hgo⟩ := init_going fit R hm
  unfold run at hrun
  rw [bind_ok hinit] at hrun
  intro q s₁ hinit'
  injection hinit.symm.trans hinit' with _ hs
  subst hs
  exact (granted_of_errno hgo.sim hgo.fresh hsize hrun herr).2

-- ===================================================== what the heap shows

/-- The boundary tags of a reachable heap and the live allocations. -/
structure HeapOk (live : List Alloc) (s : Machine) (xs : List Seen) :
    Prop where
  list : HeapList s xs
  tags : ∀ x ∈ xs, x.size % 8 = 0 ∧ 0 < x.size ∧ x.hdr = x.ftr
  alloc : ∀ p, (∃ x ∈ xs, x.addr = p ∧ x.state = blkAlloc) ↔
    p ∈ live.map Alloc.ptr
  distinct : (live.map Alloc.ptr).Nodup
  fits : ∀ a ∈ live, (blkAvalSize a.ptr).run s = .ok (align a.size) s
  apart : live.Pairwise Alloc.Apart

/-- The heap list of a machine that stands for a state. -/
theorem Sim.heapList (h : Sim fit R live s S) (hcl : Closed s) :
    HeapList s (seen (R.base + 16) S.heap.blocks) := by
  obtain ⟨e, ht⟩ := h.rep.tiled
  exact ht.heapList (ht.last ▸ hcl) h.rep.listp

/-- The place of an offset. -/
theorem addr_at (R : Region) (o : Nat) : addr R o = o + (R.base + 16) := by
  unfold addr
  omega

/-- A placed block, as it is seen. -/
theorem mem_seen_addr {bs : List Blk} {x : Seen} :
    x ∈ seen (R.base + 16) bs ↔
      ∃ o b, (o, b) ∈ placed 0 bs ∧ x = seenAt (addr R o, b) :=
  mem_seen_at (addr_at R)

theorem heapOk_of (h : Sim fit R live s S) (hcl : Closed s) :
    HeapOk live s (seen (R.base + 16) S.heap.blocks) where
  list := h.heapList hcl
  tags := fun x hx => by
    obtain ⟨o, b, hb, rfl⟩ := mem_seen_addr.1 hx
    have hpos := b.pos
    exact ⟨b.aligned, show 0 < b.size by omega, rfl⟩
  alloc := fun p => by
    rw [h.live, List.map_map]
    exact seen_owned h.ok.owned (addr_at R) p
  distinct := by
    rw [h.live, List.map_map]
    exact owned_addrs h.ok.owned (addr_at R)
  fits := fun a ha => by
    rw [h.live] at ha
    obtain ⟨y, hy, rfl⟩ := List.mem_map.1 ha
    obtain ⟨i, hi⟩ := List.mem_iff_getElem?.1 hy
    obtain ⟨z, hzb, hzo, -, ⟨-, -, hroom⟩, -⟩ := h.ok.cursor hi
    obtain ⟨e, ht⟩ := h.rep.tiled
    rw [← hzb] at ht
    show (blkAvalSize (addr R y.1)).run s = .ok (align y.2) s
    rw [← hzo, ← hroom]
    exact blkAvalSize_ok ht
  apart := h.houses.apart

-- ===================================================== every reachable state

/-- Sizes with room for the tags in an `int` are sizes in an `int`. -/
theorem Sized.int {lo : Nat} (h : Sized lo maxSize r) : Sized 0 intMax r :=
  h.mono (Nat.zero_le lo) (by decide)

/-- Every run returns, with the heap list in order. -/
theorem implicit_heapOk (fit : Fit) (R : Region) {m : Bytes}
    (hm : Blank R m) {reqs : List Req}
    (hsize : ∀ r ∈ reqs, Sized 0 maxSize r)
    (hg : Throughout (.implicit fit) (Granted fit) (memInit R m) reqs) :
    ∃ ps live s xs, (run (.implicit fit) reqs).run (memInit R m)
      = .ok (ps, live) s ∧ HeapOk live s xs := by
  obtain ⟨os, S, live, s, -, hrun, hgo⟩ :=
    run_going fit R hm (fun r hr => Sized.int (hsize r hr)) hg
  exact ⟨_, live, s, _, hrun, heapOk_of hgo.sim hgo.fresh.closed⟩

/-- Blank storage. -/
theorem sample_blank : Blank Region.sample fun _ => 0 :=
  ⟨fun _ _ _ => rfl, by rw [rd_of_zero fun _ _ _ => rfl]⟩

/-- Four blocks, two of them written into: one is freed, the next slides
down into its place, the third moves to the end, and then both grow where
they are, into a free block and past the break. -/
def sampleReqs : List Req :=
  [.malloc 40, .malloc 24, .malloc 40, .malloc 16, .write 1 3 7,
    .write 2 0 5, .free 0, .realloc 0 52, .realloc 1 100, .realloc 0 70,
    .realloc 1 120, .malloc 8]

theorem sample_sized : ∀ r ∈ sampleReqs, Sized 1 maxSize r := by
  simp [sampleReqs, Sized, maxSize]

theorem sample_granted : Throughout (.implicit .next) (Granted .next)
    (memInit Region.sample fun _ => 0) sampleReqs :=
  throughout_of_decide (by decide +kernel)

theorem implicit_heapOk_sample : ∃ ps live s xs,
    (run (.implicit .next) sampleReqs).run (memInit Region.sample fun _ => 0)
      = .ok (ps, live) s ∧ HeapOk live s xs :=
  implicit_heapOk .next _ sample_blank
    (fun r hr => (sample_sized r hr).mono (by decide) (Nat.le_refl _))
    sample_granted

/-- After every run the next call returns, and keeps what the client has
in its allocations. -/
theorem implicit_preserved (fit : Fit) (R : Region) {m : Bytes}
    (hm : Blank R m) {reqs : List Req} {r : Req}
    (hsize : ∀ x ∈ reqs ++ [r], Sized 0 maxSize x)
    (hg : Throughout (.implicit fit) (Granted fit) (memInit R m)
      (reqs ++ [r])) :
    ∃ ps live s p live' s', (run (.implicit fit) reqs).run (memInit R m)
        = .ok (ps, live) s ∧
      (serve (.implicit fit) live r).run s = .ok (p, live') s' ∧
      Preserved live r p s.mem s'.mem := by
  obtain ⟨s₀, hinit, -⟩ := init_going fit R hm
  obtain ⟨os, S, live, s, -, hrun, hgo⟩ := run_going fit R hm
    (fun x hx => Sized.int (hsize x (List.mem_append_left _ hx)))
    fun q s₁ h => (along_snoc (hg q s₁ h)).1
  have hall : (serveAll (.implicit fit) [] reqs).run s₀
      = .ok (os.map (ptrOf R), live) s := by
    unfold run at hrun
    rwa [bind_ok hinit] at hrun
  have hlast := (along_snoc (hg 0 s₀ hinit)).2 _ live s hall
  obtain ⟨o, S', live', s', -, hserve, hleft, -⟩ :=
    serve_step hgo (Sized.int (hsize r (by simp))) hlast
  exact ⟨_, live, s, _, live', s', hrun, hserve, hleft.kept⟩

/-- The block that slid down, with what was written into it, moves to the
end. -/
theorem implicit_preserved_sample : ∃ ps live s p live' s',
    (run (.implicit .next) sampleReqs).run (memInit Region.sample fun _ => 0)
      = .ok (ps, live) s ∧
      (serve (.implicit .next) live (.realloc 0 110)).run s
        = .ok (p, live') s' ∧
      Preserved live (.realloc 0 110) p s.mem s'.mem :=
  implicit_preserved .next _ sample_blank
    (by simp [sampleReqs, Sized, maxSize])
    (throughout_of_decide (by decide +kernel))

end MallocLab.Proofs.Implicit
