/-
Does `segregate_mm_malloc` find a free block when there is one? Blocks
are filed by the class of their capacity, and the search starts at the
class of the size asked for and goes up. A block with the capacity is in
no lower class than the size, since classes grow with sizes, and every
free block is on the list of its class: the search comes past it.

So an allocation extends the heap only when no free block would do, and
when the heap cannot be extended it leaves everything as it was
(`segregate_complete`).
-/
import MallocLab.Proofs.Segregate.Runs

namespace MallocLab.Proofs.Segregate

open Mem Blocks Model Model.Segregate Spec.Segregated

-- ========================================================= the abstract heap

/-- No block that fits is below the classes an allocation goes through. -/
theorem cls_slots {size : Nat} (hsize : 9 ≤ size)
    (hsize' : size ≤ 2 ^ 31 - 16) {b : Blk} (hfit : need size ≤ b.size)
    (hlt : b.size < 2 ^ 31) : cls b ∈ slots size := by
  obtain ⟨-, -, -, hle, -⟩ := need_size (show 1 ≤ size by omega) (by omega)
  have hr := b.room_add
  -- its class is not below the first one looked at
  have hmono : fltIndexOf size ≤ cls b :=
    fltIndexOf_mono (by omega) (by unfold need at hfit; omega) (by omega)
  have hzero : ¬ fltIndexOf size = 0 := by
    rw [fltIndexOf_eq_zero (by omega) (by omega)]
    omega
  have hlast : cls b ≤ 10 := fltIndexOf_le _
  apply List.mem_range'_1.2
  omega

/-- So it finds a free one if there is one. -/
theorem search_complete {A : Heap} (h : A.Ok) {size : Nat}
    (hsize : 9 ≤ size) (hsize' : size ≤ 2 ^ 31 - 16)
    (htotal : total A.blocks < 2 ^ 31)
    (hnone : search A (need size) (slots size) = none) {o : Nat} {b : Blk}
    (hb : (o, b) ∈ marked false 0 A.blocks) : b.size < need size := by
  obtain ⟨z, hzb, rfl, rfl⟩ := Zip.of_placed hb.1
  by_contra hfit
  have hbd := placed_bounds hb.1
  have hk := cls_slots hsize hsize' (Nat.le_of_not_lt hfit) (by omega)
  have hfiled : z.off ∈ A.bins (cls z.mid) :=
    (h.files.mem _ _).2 ⟨z.mid, hb, rfl⟩
  exact hfit (search_none hnone hk z hzb hfiled)

/-- Handing out a block keeps the heap's extent. -/
theorem carve_total {z : Zip} {n : Nat} {B : Bins} (hn : n % 8 = 0)
    (hn' : 8 ≤ n) : total (carve z n B).blocks = total z.blocks := by
  unfold carve
  by_cases hrest : n + 16 ≤ z.mid.size
  · have hal := z.mid.aligned
    have hfront : (Blk.of n true).size = n := Blk.of_size true hn hn'
    have hback : (Blk.of (z.mid.size - n) false).size = z.mid.size - n :=
      Blk.of_size false (by omega) (by omega)
    rw [if_pos hrest]
    show total (rest z n).merge.blocks = total z.blocks
    rw [Zip.merge_total, rest_blocks]
    simp only [Zip.blocks, total_append, total_cons, total_nil, hfront,
      hback]
    omega
  · rw [if_neg hrest]
    simp [Zip.blocks]

/-- An allocation hands out a free block that fits, or there is none and
the heap grows. -/
theorem malloc_complete {A : Heap} (h : A.Ok) {size : Nat}
    (hsize : 9 ≤ size) (hsize' : size ≤ 2 ^ 31 - 16)
    (htotal : total A.blocks < 2 ^ 31) :
    (∃ z, Fit A (need size) z ∧ A.malloc none size
        = some (z.off, take z (need size) A.bins)) ∨
      ((∀ y ∈ marked false 0 A.blocks, y.2.size < need size) ∧
        A.malloc none size = A.grow (need size)) := by
  unfold Heap.malloc
  rw [Option.none_or]
  cases hs : search A (need size) (slots size) with
  | some z => exact Or.inl ⟨z, search_fit h hs, rfl⟩
  | none =>
      refine Or.inr ⟨?_, rfl⟩
      intro y hy
      exact search_complete h hsize hsize' htotal hs hy

-- ================================================================== the room

variable {A : Heap} {n o : Nat}

/-- An allocation takes a free block or a new one at the end. -/
theorem malloc_total (hA : A.Ok) (hn : 1 ≤ n) (hn' : n ≤ maxSize)
    (hroom : lead + total A.blocks + need n ≤ maxHeap) :
    ∃ o A', A.malloc none n = some (o, A') ∧
      total A'.blocks ≤ total A.blocks + need n := by
  unfold maxSize at hn'
  obtain ⟨hmod, hmin, -⟩ := need_size hn (by omega)
  unfold Heap.malloc
  rw [Option.none_or]
  cases hs : search A (need n) (slots n) with
  | some z =>
      have htotal : total (take z (need n) A.bins).blocks = total z.blocks :=
        carve_total hmod (by omega)
      rw [(search_fit hA hs).blocks] at htotal
      exact ⟨_, _, rfl, by omega⟩
  | none =>
      refine ⟨_, _, if_pos hroom, ?_⟩
      simp only [total_append, total_cons, total_nil,
        Blk.of_size true hmod (show 8 ≤ need n by omega)]
      omega

theorem free_total : total (A.free o).blocks = total A.blocks := by
  unfold Heap.free
  cases hz : Zip.find? o A.blocks with
  | none => rfl
  | some z =>
      rw [← (Zip.find?_some hz).1]
      exact z.merge_total

/-- So does a resize of a block in use. -/
theorem realloc_total (hA : A.Ok) {b : Blk}
    (hb : (o, b) ∈ marked true 0 A.blocks) (hn : 1 ≤ n) (hn' : n ≤ maxSize)
    (hroom : lead + total A.blocks + need n ≤ maxHeap) :
    ∃ q A', A.realloc o n = some (q, A') ∧
      total A'.blocks ≤ total A.blocks + need n := by
  obtain ⟨z, hzb, rfl, -⟩ := Zip.of_placed hb.1
  have hsize := hn'
  unfold maxSize at hsize
  obtain ⟨hmod, hmin, hlt, -, halign, -⟩ := need_size hn (by omega)
  unfold Heap.realloc
  rw [← hzb, z.find?_blocks, hzb]
  by_cases hroom' : align n ≤ z.mid.room
  · have htotal : total (carve z (need n) A.bins).blocks = total z.blocks :=
      carve_total hmod (by omega)
    rw [hzb] at htotal
    exact ⟨_, _, if_pos hroom', by omega⟩
  · have hneed : need (align n) = need n := need_align n
    obtain ⟨q, C, hm, hC⟩ := @malloc_total A (align n) hA
      (by unfold need at hmin; omega)
      (by unfold maxSize; unfold need at hlt; omega) (by omega)
    refine ⟨q, C.free z.off, ?_, ?_⟩
    · simp only [if_neg hroom', hm, Option.map_some]
    · rw [free_total]
      omega

-- ===================================================== every reachable state

/-- A walk over the heap sees a free block of `n` bytes. -/
def HasFree (xs : List Seen) (n : Nat) : Prop :=
  ∃ x ∈ xs, x.state = blkFree ∧ n ≤ x.size

variable {R : Region} {live : List Alloc} {s : Machine} {S : State}

/-- Where the break is. -/
theorem Rep.brk {A : Heap} (h : Rep R s A) :
    s.memBrk = addr R (total A.blocks) := h.shape.tiled.brk

/-- A walk over the heap sees the free blocks of the heap. -/
theorem hasFree_iff {bs : List Blk} {n : Nat} :
    HasFree (seen (R.base + 104) bs) n ↔
      ∃ y ∈ marked false 0 bs, n ≤ y.2.size := by
  constructor
  · intro ⟨x, hx, hfree, hle⟩
    obtain ⟨o, b, hb, rfl⟩ := mem_seen_addr.1 hx
    exact ⟨(o, b), ⟨hb, seen_free.1 hfree⟩, hle⟩
  · intro ⟨⟨o, b⟩, hb, hle⟩
    exact ⟨_, mem_seen_addr.2 ⟨o, b, hb.1, rfl⟩, seen_free.2 hb.2, hle⟩

/-- An allocation that hands out a free block leaves the break where it
was. -/
theorem taken_brk {A : Heap} (h : Rep R s A) {z : Zip} {n : Nat}
    (hz : z.blocks = A.blocks) (hn : n % 8 = 0) (hn' : 8 ≤ n)
    {s' : Machine} (h' : Rep R s' (take z n A.bins)) :
    s'.memBrk = s.memBrk := by
  have hcut : total (take z n A.bins).blocks = total z.blocks :=
    carve_total hn hn'
  rw [h'.brk, hcut, hz, h.brk]

/-- An allocation that grows the heap: the new block is where the break
was, or the storage is full. -/
theorem grown_brk {A : Heap} (h : Rep R s A) {n : Nat} (hn : n % 8 = 0)
    (hn' : 8 ≤ n) {r : EStateM.Result Stop Machine Nat}
    (hserved : Served R s A (A.grow n) r) :
    (s.memBrk + n ≤ s.memMaxAddr ∧ ∃ s', r = .ok s.memBrk s' ∧
      s'.memBrk = s.memBrk + n) ∨
    (s.memMaxAddr < s.memBrk + n ∧ r = .ok 0 { s with errno := enomem }) := by
  have hmax := h.shape.max
  have hbrk := h.brk
  have hbrk' : s.memBrk = R.base + 96 + 8 + total A.blocks := hbrk
  unfold Heap.grow lead at hserved
  by_cases hroom : 104 + total A.blocks + n ≤ maxHeap
  · rw [if_pos hroom] at hserved
    obtain ⟨s', hok, hrep, -⟩ := hserved
    have hend := hrep.brk
    simp only [total_append, total_cons, total_nil,
      Blk.of_size true hn hn'] at hend
    unfold addr at hend
    refine Or.inl ⟨by omega, s', ?_, by omega⟩
    rw [hok, hbrk]
  · rw [if_neg hroom] at hserved
    exact Or.inr ⟨by omega, hserved⟩

/-- No block seen starts at the break, or at null. -/
theorem seen_inside {A : Heap} (h : Rep R s A) {x : Seen}
    (hx : x ∈ seen (R.base + 104) A.blocks) :
    x.addr ≠ 0 ∧ x.addr < s.memBrk := by
  obtain ⟨o, b, hb, rfl⟩ := mem_seen_addr.1 hx
  have hbd := placed_bounds hb
  have hpos := b.pos
  refine ⟨addr_pos R o, ?_⟩
  rw [h.brk]
  show addr R o < addr R (total A.blocks)
  unfold addr
  omega

/-- In every reachable state: an allocation takes a free block exactly if
one is large enough, else it extends the heap by what it needs, else it
returns null and changes nothing but `errno`. -/
theorem segregate_complete (R : Region) (m : Bytes) {reqs : List Req}
    (hsize : ∀ r ∈ reqs, Sized 9 maxSize r)
    (hgrow : Throughout .segregate Grows (memInit R m) reqs)
    {ps : List Nat} (hrun : (run .segregate reqs).run (memInit R m)
      = .ok (ps, live) s) {size : Nat} (hsz : 9 ≤ size)
    (hsz' : size ≤ maxSize) :
    ∃ xs p s', HeapList s xs ∧ (segregateMmMalloc size).run s = .ok p s' ∧
      ((s'.memBrk = s.memBrk ∧ ∃ x ∈ xs, x.addr = p ∧ x.state = blkFree) ↔
        HasFree xs (need size)) ∧
      (¬ HasFree xs (need size) →
        (s.memBrk + need size ≤ s.memMaxAddr →
          p = s.memBrk ∧ s'.memBrk = s.memBrk + need size) ∧
        (s.memMaxAddr < s.memBrk + need size →
          p = 0 ∧ s' = { s with errno := enomem })) := by
  obtain ⟨ps', live', s₁, S, hrun', hS⟩ := run_sim R m hsize hgrow
  injection hrun.symm.trans hrun' with hp hs
  injection hp with _ hlive
  subst hlive hs
  unfold maxSize at hsz'
  have htotal := hS.rep.shape.tiled.total_lt
  have hmaxHeap := maxHeap_lt
  obtain ⟨hn, hn', -⟩ := need_size (show 1 ≤ size by omega) (by omega)
  have hserved := segregateMmMalloc_large hS.rep hsz hsz'
  have hlist := hS.heapList
  rcases malloc_complete hS.ok.heap hsz hsz' (by omega) with
    ⟨z, hfit, hans⟩ | ⟨hnone, hans⟩
  · -- a free block is handed out
    rw [hans] at hserved
    obtain ⟨s', hok, hrep, -⟩ := hserved
    have hb : (z.off, z.mid) ∈ marked false 0 S.heap.blocks := by
      have hpl := z.mid_placed
      rw [hfit.blocks] at hpl
      exact ⟨hpl, hfit.free⟩
    have hhas : HasFree (seen (R.base + 104) S.heap.blocks) (need size) :=
      hasFree_iff.2 ⟨_, hb, hfit.size⟩
    refine ⟨_, _, s', hlist, hok, ⟨fun _ => hhas, fun _ => ?_⟩,
      fun hno => absurd hhas hno⟩
    exact ⟨taken_brk hS.rep hfit.blocks hn (by omega) hrep, _,
      mem_seen_addr.2 ⟨_, _, hb.1, rfl⟩, rfl, seen_free.2 hfit.free⟩
  · -- no free block would do
    have hno : ¬ HasFree (seen (R.base + 104) S.heap.blocks)
        (need size) := by
      intro hhas
      obtain ⟨y, hy, hle⟩ := hasFree_iff.1 hhas
      exact Nat.not_lt.2 hle (hnone y hy)
    rw [hans] at hserved
    rcases grown_brk hS.rep hn (by omega) hserved with
      ⟨hroom, s', hok, hbrk⟩ | ⟨hfull, hok⟩
    · refine ⟨_, _, s', hlist, hok, ⟨?_, fun h => absurd h hno⟩,
        fun _ => ⟨fun _ => ⟨rfl, hbrk⟩, fun _ => by omega⟩⟩
      intro ⟨_, x, hx, haddr, _⟩
      have hin := seen_inside hS.rep hx
      omega
    · refine ⟨_, _, _, hlist, hok, ⟨?_, fun h => absurd h hno⟩,
        fun _ => ⟨fun _ => by omega, fun _ => ⟨rfl, rfl⟩⟩⟩
      intro ⟨_, x, hx, haddr, _⟩
      exact absurd haddr (seen_inside hS.rep hx).1

/-- The freed block of sixteen bytes does not do for forty. -/
theorem segregate_complete_sample : ∃ s,
    (run .segregate [.malloc 16, .free 0]).run
      (memInit Region.sample fun _ => 0) = .ok ([112, 0], []) s ∧
    ∃ xs p s', HeapList s xs ∧ (segregateMmMalloc 40).run s = .ok p s' ∧
      ((s'.memBrk = s.memBrk ∧ ∃ x ∈ xs, x.addr = p ∧ x.state = blkFree) ↔
        HasFree xs (need 40)) ∧
      (¬ HasFree xs (need 40) →
        (s.memBrk + need 40 ≤ s.memMaxAddr →
          p = s.memBrk ∧ s'.memBrk = s.memBrk + need 40) ∧
        (s.memMaxAddr < s.memBrk + need 40 →
          p = 0 ∧ s' = { s with errno := enomem })) := by
  obtain ⟨s, hs⟩ := of_result? (show result?
      ((run .segregate [.malloc 16, .free 0]).run
        (memInit Region.sample fun _ => 0))
      = some ([112, 0], []) by decide +kernel)
  refine ⟨s, hs, ?_⟩
  have hgrow : Throughout .segregate Grows
      (memInit Region.sample fun _ => 0) [.malloc 16, .free 0] :=
    fun _ _ _ => ⟨trivial, fun _ _ _ _ => ⟨trivial, fun _ _ _ _ => trivial⟩⟩
  exact segregate_complete _ _ (by simp [Sized, maxSize]) hgrow hs
    (by decide) (by decide)

end MallocLab.Proofs.Segregate
