/-
The word below the break, and what it costs that nobody writes it.
`extend_heap` puts its closing word where the old one was; the last four
bytes of the heap keep what the storage held there. A walk over the heap
list ends where that word reads as size zero, and a `realloc` of the
last block asks for its used bit as well.

On two regions in which the word reads so at every request that comes to
it, the same requests come to the same answers and the same heap
(`implicit_same`), as long as no size is cut: past a header word a size
has to be refused. Storage that starts out zero is such a region
(`regular_blank`). On other storage the two heaps part: the run at the
end of the file differs in one bit nobody wrote.
-/
import MallocLab.Proofs.Implicit.Runs
import MallocLab.Proofs.Implicit.Declined

namespace MallocLab.Proofs.Implicit

open Mem Blocks Model Model.Implicit Spec.Implicit

-- ============================================================ the condition

/-- The request resizes the last block of the heap to more than it
has. -/
def GrowsLast (live : List Alloc) (s : Machine) (r : Req) : Prop :=
  ∃ i n a k, r = .realloc i n ∧ live[i]? = some a ∧
    (nextBlkp a.ptr).run s = .ok s.memBrk s ∧
    (blkSize a.ptr).run s = .ok k s ∧ k < need n

/-- The block at `p` is the last of the heap. -/
def AtEnd (s : Machine) (p : Nat) : Prop :=
  (nextBlkp p).run s = .ok s.memBrk s

/-- It has fewer than `n` bytes. -/
def Lacks (s : Machine) (p n : Nat) : Prop :=
  ∃ k, (blkSize p).run s = .ok k s ∧ k < n

/-- A request that may come to the word below the break: a search, giving
back the last block, or a resize to more than a block has. -/
def ReadsEnd (live : List Alloc) (s : Machine) : Req → Prop
  | .malloc n => n ≠ 0
  | .reallocNull n => n ≠ 0
  | .free i => ∃ a, live[i]? = some a ∧ AtEnd s a.ptr
  | .realloc i n => ∃ a, live[i]? = some a ∧
      (n = 0 ∧ AtEnd s a.ptr ∨ n ≠ 0 ∧ Lacks s a.ptr (need n))
  | .write _ _ _ => False

/-- The word below the break reads as size zero where a request comes to
it, and as free when the last block is about to grow. -/
def EndClear (live : List Alloc) (s : Machine) (r : Req) : Prop :=
  (ReadsEnd live s r → (blkSize s.memBrk).run s = .ok 0 s) ∧
    (GrowsLast live s r → (blkState s.memBrk).run s = .ok 0 s)

/-- The condition on a request: the word is clear, and the size fits a
header word or is refused. -/
def Regular (live : List Alloc) (s : Machine) (r : Req) : Prop :=
  EndClear live s r ∧ Bounded live s r

variable {fit : Fit} {R R₁ R₂ : Region} {live live₁ live₂ : List Alloc}
  {s s₁ s₂ : Machine} {S : State} {r : Req}

/-- The last block of the state is the last of the heap. -/
theorem Sim.atEnd (hS : Sim fit R live s S) {x : Nat × Nat} {z : Zip}
    (hzb : z.blocks = S.heap.blocks) (hzo : z.off = x.1)
    (hlast : z.right = []) : AtEnd s (own R x).ptr := by
  obtain ⟨e, hz⟩ := hS.rep.tiled
  rw [← hzb] at hz
  have hbrk := hz.brk_eq
  have hnext := nextBlkp_ok hz
  rw [hlast, total_nil, Nat.add_zero] at hbrk
  rw [← hbrk, hzo] at hnext
  exact hnext

/-- A request that comes to the closing word in the state does so in the
heap. -/
theorem Sim.readsEnd (hS : Sim fit R live s S) (h : Meets S r) :
    ReadsEnd live s r := by
  cases r with
  | malloc n => exact h
  | reallocNull n => exact h
  | free i =>
      obtain ⟨x, z, hx, hzb, hzo, hlast⟩ := h
      exact ⟨own R x, hS.houses.live_at hx, hS.atEnd hzb hzo hlast⟩
  | realloc i n =>
      obtain ⟨x, z, hx, hzb, hzo, h⟩ := h
      refine ⟨own R x, hS.houses.live_at hx, ?_⟩
      rcases h with ⟨h0, hlast⟩ | ⟨h0, hmore⟩
      · exact Or.inl ⟨h0, hS.atEnd hzb hzo hlast⟩
      · obtain ⟨e, hz⟩ := hS.rep.tiled
        rw [← hzb] at hz
        have hsize := blkSize_ok hz
        rw [hzo] at hsize
        exact Or.inr ⟨h0, z.mid.size, hsize, hmore⟩
  | write i off v => exact h

/-- A word of size zero closes the heap. -/
theorem EndClear.closed (h : EndClear live s r) (hS : Sim fit R live s S)
    (hr : Meets S r) : Closed s := by
  obtain ⟨e, ht⟩ := hS.rep.tiled
  injection ht.endSize_ok.symm.trans (h.1 (hS.readsEnd hr)) with he _
  unfold Closed
  rw [ht.last]
  omega

/-- A request grows the last block if it does so in the state. -/
theorem Sim.growsLast (hS : Sim fit R live s S) {i n : Nat} {x : Nat × Nat}
    {z : Zip} (hx : S.live[i]? = some x) (hzb : z.blocks = S.heap.blocks)
    (hzo : z.off = x.1) :
    GrowsLast live s (.realloc i n) ↔ z.right = [] ∧ z.mid.size < need n := by
  obtain ⟨e, hz⟩ := hS.rep.tiled
  rw [← hzb] at hz
  have hbrk := hz.brk_eq
  have hlive : live[i]? = some (own R x) := by
    rw [hS.live_get, hx]
    rfl
  have hnext := nextBlkp_ok hz
  have hsize := blkSize_ok hz
  have haddr : (own R x).ptr = R.base + 8 + 8 + z.off := by
    rw [hzo]
    rfl
  rw [← haddr] at hnext hsize
  constructor
  · rintro ⟨j, m, a, k, he, ha, hend, hk, hmore⟩
    cases he
    rw [hlive] at ha
    cases ha
    injection hnext.symm.trans hend with hend' _
    injection hsize.symm.trans hk with hk' _
    refine ⟨?_, by omega⟩
    cases hr : z.right with
    | nil => rfl
    | cons c cs =>
        have hc := c.pos
        rw [hr, total_cons] at hbrk
        omega
  · rintro ⟨hlast, hmore⟩
    rw [hlast, total_nil, Nat.add_zero, ← haddr] at hbrk
    rw [← hbrk] at hnext
    exact ⟨i, n, own R x, z.mid.size, rfl, hlive, hnext, hsize, hmore⟩

/-- Its bit is clear when the last block grows. -/
theorem EndClear.opens (h : EndClear live s r) (hS : Sim fit R live s S) :
    Open s S r := by
  rintro i n x z rfl hx hzb hzo hlast hmore
  obtain ⟨e, ht⟩ := hS.rep.tiled
  have hgrows := (hS.growsLast hx hzb hzo).2 ⟨hlast, hmore⟩
  injection ht.endState_ok.symm.trans (h.2 hgrows) with he _
  rw [ht.last]
  exact he

/-- A closed heap whose last block may grow. -/
theorem endClear_of (hS : Sim fit R live s S) (hcl : Closed s)
    (hopen : Open s S r) : EndClear live s r := by
  obtain ⟨e, ht⟩ := hS.rep.tiled
  have he : e / 8 = 0 := ht.last ▸ hcl
  refine ⟨fun _ => by rw [ht.endSize_ok, he], fun hgrows => ?_⟩
  have hgrows' := hgrows
  obtain ⟨i, n, a, k, rfl, ha, -⟩ := hgrows'
  rw [hS.live_get] at ha
  obtain ⟨x, hx, rfl⟩ := Option.map_eq_some_iff.1 ha
  obtain ⟨z, hzb, hzo, -⟩ := hS.ok.cursor hx
  obtain ⟨hlast, hmore⟩ := (hS.growsLast hx hzb hzo).1 hgrows
  have hbit := hopen i n x z rfl hx hzb hzo hlast hmore
  rw [ht.last] at hbit
  rw [ht.endState_ok, hbit]

-- ============================================================ side by side

/-- Serving a request on two machines that stand for one state. -/
theorem serve_alike (h₁ : Sim fit R₁ live₁ s₁ S)
    (h₂ : Sim fit R₂ live₂ s₂ S) (hr₁ : Regular live₁ s₁ r)
    (hr₂ : Regular live₂ s₂ r) :
    (True ∧ ∃ e t₁ t₂,
      (serve (.implicit fit) live₁ r).run s₁ = .error e t₁ ∧
      (serve (.implicit fit) live₂ r).run s₂ = .error e t₂) ∨
    ∃ p₁ live₁' s₁' p₂ live₂' s₂',
      (serve (.implicit fit) live₁ r).run s₁ = .ok (p₁, live₁') s₁' ∧
      (serve (.implicit fit) live₂ r).run s₂ = .ok (p₂, live₂') s₂' ∧
      SameAnswer R₁ R₂ p₁ p₂ ∧
      ∃ S', Sim fit R₁ live₁' s₁' S' ∧ Sim fit R₂ live₂' s₂' S' := by
  have ha₁ := serve_follows h₁ hr₁.2 (hr₁.1.closed h₁) (hr₁.1.opens h₁)
  have ha₂ := serve_follows h₂ hr₂.2 (hr₂.1.closed h₂) (hr₂.1.opens h₂)
  cases hS : S.serve fit r with
  | none =>
      rw [hS] at ha₁ ha₂
      obtain ⟨t₁, hrun₁⟩ := ha₁
      obtain ⟨t₂, hrun₂⟩ := ha₂
      exact Or.inl ⟨trivial, .fault, t₁, t₂, hrun₁, hrun₂⟩
  | some y =>
      obtain ⟨o, S'⟩ := y
      rw [hS] at ha₁ ha₂
      obtain ⟨live₁', s₁', hrun₁, hsim₁⟩ := ha₁
      obtain ⟨live₂', s₂', hrun₂, hsim₂⟩ := ha₂
      refine Or.inr ⟨_, live₁', s₁', _, live₂', s₂', hrun₁, hrun₂, ?_, S',
        hsim₁, hsim₂⟩
      cases o with
      | none => exact Or.inl ⟨rfl, rfl⟩
      | some q =>
          refine Or.inr ⟨addr_pos R₁ q, addr_pos R₂ q, ?_⟩
          show addr R₁ q + R₂.base = addr R₂ q + R₁.base
          unfold addr
          omega

/-- The same requests on two regions whose closing words are clear where
they are read, the sizes past a header word being refused: both runs
stop, or they come to the same answers and the same heap. -/
theorem implicit_same (fit : Fit) (R₁ R₂ : Region) {m₁ m₂ : Bytes}
    (hw₁ : rd 4 m₁ (R₁.base - 4) / 8 = 0)
    (hw₂ : rd 4 m₂ (R₂.base - 4) / 8 = 0) {reqs : List Req}
    (hr₁ : Throughout (.implicit fit) Regular (memInit R₁ m₁) reqs)
    (hr₂ : Throughout (.implicit fit) Regular (memInit R₂ m₂) reqs) :
    (∃ e t₁ t₂,
      (run (.implicit fit) reqs).run (memInit R₁ m₁) = .error e t₁ ∧
      (run (.implicit fit) reqs).run (memInit R₂ m₂) = .error e t₂) ∨
    ∃ ps₁ live₁ s₁ xs₁ ps₂ live₂ s₂ xs₂,
      (run (.implicit fit) reqs).run (memInit R₁ m₁)
        = .ok (ps₁, live₁) s₁ ∧
      (run (.implicit fit) reqs).run (memInit R₂ m₂)
        = .ok (ps₂, live₂) s₂ ∧
      List.Forall₂ (SameAnswer R₁ R₂) ps₁ ps₂ ∧
      SamePlace R₁ R₂ s₁.memBrk s₂.memBrk ∧
      BlockList s₁ xs₁ ∧ BlockList s₂ xs₂ ∧
      List.Forall₂ (SameSeen R₁ R₂) xs₁ xs₂ := by
  obtain ⟨t₁, hinit₁, hsim₁, -⟩ := init_sim fit R₁ hw₁
  obtain ⟨t₂, hinit₂, hsim₂, -⟩ := init_sim fit R₂ hw₂
  unfold run
  rw [bind_ok hinit₁, bind_ok hinit₂]
  rcases serveAll_alike (E := True) (Q := SameAnswer R₁ R₂)
      (J := fun live₁ s₁ live₂ s₂ =>
        ∃ S, Sim fit R₁ live₁ s₁ S ∧ Sim fit R₂ live₂ s₂ S)
      (fun live₁ s₁ live₂ s₂ r ⟨S, hS₁, hS₂⟩ hc hd =>
        serve_alike hS₁ hS₂ hc hd)
      ⟨_, hsim₁, hsim₂⟩ (hr₁ 0 t₁ hinit₁) (hr₂ 0 t₂ hinit₂) with
    ⟨-, hstop⟩ | ⟨ps₁, live₁, s₁, ps₂, live₂, s₂, h₁, h₂, hQ, S, hS₁, hS₂⟩
  · exact Or.inl hstop
  obtain ⟨e₁, ht₁⟩ := hS₁.rep.tiled
  obtain ⟨e₂, ht₂⟩ := hS₂.rep.tiled
  refine Or.inr ⟨ps₁, live₁, s₁, _, ps₂, live₂, s₂, _, h₁, h₂, hQ, ?_,
    ht₁.blockList hS₁.rep.listp, ht₂.blockList hS₂.rep.listp,
    seen_same R₁ R₂ 16 S.heap.blocks⟩
  have hbrk₁ := ht₁.brk
  have hbrk₂ := ht₂.brk
  show s₁.memBrk + R₂.base = s₂.memBrk + R₁.base
  omega

/-- A size that fits a header word is within the bounds. -/
theorem bounded_of_sized (h : Sized 0 wordMax r) : Bounded live s r := by
  cases r with
  | malloc n => exact Or.inl h.2
  | reallocNull n => exact Or.inl h.2
  | free i => trivial
  | realloc i n => exact fun a _ => Or.inl h
  | write i off v => trivial

/-- Zero storage keeps the closing word clear. -/
theorem regular_blank (fit : Fit) {R : Region} {m : Bytes}
    (hm : Blank R m) {reqs : List Req}
    (hsize : ∀ r ∈ reqs, Sized 0 intMax r) :
    Throughout (.implicit fit) Regular (memInit R m) reqs := by
  obtain ⟨s₀, hinit, hgo⟩ := init_going fit R hm
  intro q s₁ hinit'
  injection hinit.symm.trans hinit' with _ hs
  subst hs
  refine along_of_inv (I := fun live s => ∃ S, Sim fit R live s S ∧
      Fresh R s) (P := Sized 0 intMax)
    (fun live s r p live' s' hI hr hrun => ?_)
    (fun live s r hI hr => ⟨?_, ?_⟩) ⟨_, hgo.sim, hgo.fresh⟩ hsize
  · obtain ⟨S, hS, hf⟩ := hI
    obtain ⟨o, S', -, -, hleft, hf'⟩ := serve_returned hS hf hr hrun
    exact ⟨S', hleft.sim, hf'⟩
  · obtain ⟨S, hS, hf⟩ := hI
    exact endClear_of hS hf.closed (hf.opens hS r)
  · exact bounded_of_sized (hr.mono (Nat.le_refl 0) (by decide))

/-- Another region. -/
def farRegion : Region := ⟨4096, rfl, by decide, by decide⟩

theorem implicit_same_sample :
    (∃ e t₁ t₂,
      (run (.implicit .next) sampleReqs).run
        (memInit Region.sample fun _ => 0) = .error e t₁ ∧
      (run (.implicit .next) sampleReqs).run
        (memInit farRegion fun _ => 0) = .error e t₂) ∨
    ∃ ps₁ live₁ s₁ xs₁ ps₂ live₂ s₂ xs₂,
      (run (.implicit .next) sampleReqs).run
        (memInit Region.sample fun _ => 0) = .ok (ps₁, live₁) s₁ ∧
      (run (.implicit .next) sampleReqs).run
        (memInit farRegion fun _ => 0) = .ok (ps₂, live₂) s₂ ∧
      List.Forall₂ (SameAnswer Region.sample farRegion) ps₁ ps₂ ∧
      SamePlace Region.sample farRegion s₁.memBrk s₂.memBrk ∧
      BlockList s₁ xs₁ ∧ BlockList s₂ xs₂ ∧
      List.Forall₂ (SameSeen Region.sample farRegion) xs₁ xs₂ := by
  have hfar : Blank farRegion fun _ => 0 :=
    ⟨fun _ _ _ => rfl, by rw [rd_of_zero fun _ _ _ => rfl]⟩
  have hsize : ∀ r ∈ sampleReqs, Sized 0 intMax r := fun r hr =>
    (sample_sized r hr).mono (by decide) (by decide)
  exact implicit_same .next _ _ sample_blank.word hfar.word
    (regular_blank .next sample_blank hsize) (regular_blank .next hfar hsize)

/-- One bit below the break, which nobody wrote: the block grows in place
on one region and moves on the other. -/
theorem implicit_differs : ∃ ps₁ live₁ s₁ ps₂ live₂ s₂,
    rd 4 (fun _ => 0) (Region.sample.base - 4) / 8 = 0 ∧
    rd 4 (Function.update (fun _ => 0) 36 1) (Region.sample.base - 4) / 8
      = 0 ∧
    (run (.implicit .first) [.malloc 8, .realloc 0 16]).run
      (memInit Region.sample fun _ => 0) = .ok (ps₁, live₁) s₁ ∧
    (run (.implicit .first) [.malloc 8, .realloc 0 16]).run
      (memInit Region.sample (Function.update (fun _ => 0) 36 1))
      = .ok (ps₂, live₂) s₂ ∧
    ¬ List.Forall₂ (SameAnswer Region.sample Region.sample) ps₁ ps₂ := by
  obtain ⟨s₁, h₁⟩ := of_result? (show result?
    ((run (.implicit .first) [.malloc 8, .realloc 0 16]).run
      (memInit Region.sample fun _ => 0))
      = some ([24, 24], [⟨24, 16⟩]) by decide +kernel)
  obtain ⟨s₂, h₂⟩ := of_result? (show result?
    ((run (.implicit .first) [.malloc 8, .realloc 0 16]).run
      (memInit Region.sample (Function.update (fun _ => 0) 36 1)))
      = some ([24, 40], [⟨40, 16⟩]) by decide +kernel)
  refine ⟨_, _, s₁, _, _, s₂, by decide, by decide, h₁, h₂, fun hsame => ?_⟩
  cases hsame with
  | cons _ hrest =>
      cases hrest with
      | cons hsecond _ =>
          rcases hsecond with ⟨h0, -⟩ | ⟨-, -, hplace⟩
          · cases h0
          · exact absurd hplace (by unfold SamePlace; decide)

end MallocLab.Proofs.Implicit
