/-
`implicit_mm_realloc` refines `Heap.resize`, exit by exit. Each exit is
one operation on the cursor at the block: cut it, cut it with the next
block taken in, extend it past the break, slide it into the previous
block, or grow a new block and free the old one.

# The last block

Only the last block is extended, and only if the word that closes the
heap reads as free: with that word's used bit set, the search for room
goes on to branches that assume the block is not the last. The lemmas
take the bit as a hypothesis for the growing calls that look at it.

When the extension is refused the code does not notice: it writes the
new header, and then the footer, which lies past the storage. There is
no answer then.
-/
import MallocLab.Proofs.Implicit.Calls

namespace MallocLab.Proofs.Implicit

open Mem Blocks Model Model.Implicit Spec.Implicit

variable {R : Region} {s s' : Machine} {A : Heap} {z : Zip}
  {n hp e size : Nat} {bs : List Blk} {fit : Fit} {m : Bytes}

/-- The bytes of the block under the cursor are at offset `q` now, as
many as fit in a block of `n` bytes. -/
def Moved (R : Region) (s : Machine) (z : Zip) (n q : Nat)
    (s' : Machine) : Prop :=
  ∀ i, i < z.mid.room → i + 8 < n →
    s'.mem (addr R q + i) = s.mem (addr R z.off + i)

/-- A cut leaves the inside of what it hands out. -/
theorem stampCut_inside {p t i : Nat} (hp : 4 ≤ p) (hn : n % 8 = 0)
    (hn' : 8 ≤ n) (ht : t % 8 = 0) (hnt : n ≤ t) (hi : i + 8 < n) :
    stampCut m p n t (p + i) = m (p + i) :=
  stampCut_of_out hp hn hn' ht hnt (by omega) (by omega) (by omega)

-- ========================================================= what it reads

/-- What the first checks read of the block `b` at `p`. -/
structure Checked (s : Machine) (p : Nat) (b : Blk) : Prop where
  ftrp : (rbFtrp p).run s = .ok (p + b.size - 8) s
  size : (rbSize p).run s = .ok b.size s
  alloc : (rbAlloc p).run s = .ok b.used.toNat s
  hdr : (getWord (rbHdrp p)).run s = .ok b.tag s
  ftr : (getWord (p + b.size - 8)).run s = .ok b.tag s

theorem checked (h : Tiled hp e s z.blocks) :
    Checked s (hp + 8 + z.off) z.mid := by
  have hstart := h.start
  have hbrk := h.brk_eq
  have hr := z.mid.room_add
  refine ⟨?_, blkSize_ok h, blkState_ok h, ?_, ?_⟩
  · have haddr : hp + 8 + z.off + z.mid.room
        = hp + 8 + z.off + z.mid.size - 8 := by omega
    unfold rbFtrp blkFtrp
    rw [bind_ok (blkAvalSize_ok h), run_pure, haddr]
  · have := load_ok (w := 4) (h.access (a := hp + 8 + z.off - 4) (n := 4)
      (by omega) (by omega))
    rwa [h.mid_tags.1] at this
  · have := load_ok (w := 4) (h.access
      (a := hp + 8 + z.off + z.mid.size - 8) (n := 4) (by omega) (by omega))
    rwa [h.mid_tags.2] at this

/-- What the search for room reads of a next block `c`. -/
structure NextRead (s : Machine) (p : Nat) (b c : Blk) : Prop where
  alloc : (nextBlkAlloc p).run s = .ok c.used.toNat s
  size : (nextBlkSize p).run s = .ok c.size s
  next : (nextBlkp p).run s = .ok (p + b.size) s
  eb : (eb (p + b.size)).run s = .ok false s

theorem nextRead (h : Tiled hp e s z.blocks) {c : Blk} {r : List Blk}
    (hr : z.right = c :: r) :
    NextRead s (hp + 8 + z.off) z.mid c := by
  have htag : nextTag e z = c.tag := by
    unfold nextTag
    rw [hr]
  have halloc := nextBlkAlloc_ok h
  have hsize := nextBlkSize_ok h
  rw [htag, c.tag_mod] at halloc
  rw [htag, c.tag_div] at hsize
  have hz : Tiled hp e s (Zip.blocks ⟨z.left ++ [z.mid], c, r⟩) := by
    simpa [Zip.blocks, hr] using h
  have heb := eb_block hz
  have hoff : Zip.off ⟨z.left ++ [z.mid], c, r⟩ = z.off + z.mid.size := by
    simp [Zip.off]
  rw [hoff, ← Nat.add_assoc] at heb
  exact ⟨halloc, hsize, nextBlkp_ok h, heb⟩

/-- What it reads behind the last block. -/
structure LastRead (s : Machine) (p : Nat) (b : Blk) : Prop where
  alloc : (nextBlkAlloc p).run s = .ok 0 s
  size : (nextBlkSize p).run s = .ok 0 s
  next : (nextBlkp p).run s = .ok (p + b.size) s
  eb : (eb (p + b.size)).run s = .ok true s

theorem lastRead (h : Tiled hp e s z.blocks) (he : e / 8 = 0)
    (hbit : e % 2 = 0) (hlast : z.right = []) :
    LastRead s (hp + 8 + z.off) z.mid := by
  have hbrk := h.brk_eq
  have halloc := nextBlkAlloc_ok h
  have hsize := nextBlkSize_ok h
  have htag : nextTag e z = e := by
    unfold nextTag
    rw [hlast]
  rw [htag, hbit] at halloc
  rw [htag, he, Nat.zero_mul] at hsize
  rw [hlast, total_nil, Nat.add_zero] at hbrk
  have heb := eb_brk h he
  rw [hbrk] at heb
  exact ⟨halloc, hsize, nextBlkp_ok h, heb⟩

/-- What it reads of a previous block `c` at `q`. -/
structure PrevRead (s : Machine) (p q : Nat) (c : Blk) : Prop where
  prev : (prevBlkp p).run s = .ok q s
  size : (rbSize q).run s = .ok c.size s
  alloc : (rbAlloc q).run s = .ok c.used.toNat s

theorem prevRead (h : Tiled hp e s z.blocks) {l : List Blk} {c : Blk}
    (hl : z.left = l ++ [c]) :
    PrevRead s (hp + 8 + z.off) (hp + 8 + total l) c := by
  have hprev := prevBlkp_ok h
  have hzp : Tiled hp e s (Zip.blocks ⟨l, c, z.mid :: z.right⟩) := by
    simpa [Zip.blocks, hl] using h
  have hoff : z.off = total l + c.size := by
    unfold Zip.off
    simp [hl]
  have htag : prevTag z = c.tag := by
    unfold prevTag lastTag
    simp [hl]
  have hback : hp + 8 + z.off - c.size = hp + 8 + total l := by omega
  rw [htag, c.tag_div, hback] at hprev
  exact ⟨hprev, blkSize_ok (z := ⟨l, c, z.mid :: z.right⟩) hzp,
    blkState_ok (z := ⟨l, c, z.mid :: z.right⟩) hzp⟩

/-- Before the first block it reads the prologue. -/
theorem firstRead (h : Tiled hp e s z.blocks) (hl : z.left = []) :
    PrevRead s (hp + 8 + z.off) hp pro := by
  have hprev := prevBlkp_ok h
  have htag : prevTag z / 8 * 8 = 8 := by
    unfold prevTag lastTag
    rw [hl]
    exact pro.tag_div
  have hoff : z.off = 0 := by
    unfold Zip.off
    rw [hl, total_nil]
  have hback : hp + 8 + z.off - prevTag z / 8 * 8 = hp := by omega
  rw [hback] at hprev
  exact ⟨hprev, h.proSize_ok, h.proState_ok⟩

/-- A previous block, or the prologue: what is read where there is no
free one that is large enough. -/
theorem prevRead_on (h : Tiled hp e s z.blocks)
    (hmore : z.absorbPrev.mid.size < n) :
    ∃ q c, PrevRead s (hp + 8 + z.off) q c ∧
      ¬ (c.used.toNat = blkFree ∧ n ≤ z.mid.size + c.size) := by
  rcases z.absorbPrev_cases with ⟨hnot, -⟩ | ⟨l, c, hl, hfree, hw⟩
  · rcases z.left.eq_nil_or_concat with hl | ⟨l, c, hl⟩
    · exact ⟨hp, pro, firstRead h hl, fun hc => absurd hc.1 (by decide)⟩
    · rw [List.concat_eq_append] at hl
      have hu := hnot c (by simp [hl])
      refine ⟨_, c, prevRead h hl, fun hc => ?_⟩
      rw [hu] at hc
      exact absurd hc.1 (by decide)
  · rw [hw, Blk.join_size] at hmore
    refine ⟨_, c, prevRead h hl, fun hc => ?_⟩
    have := hc.2
    omega

-- ========================================================= the first checks

/-- A block in use with a payload is not turned away. -/
theorem checks_pass (hu : z.mid.used = true) (hbig : 8 < z.mid.size) :
    ¬ (z.mid.used.toNat = blkFree ∨ z.mid.size ≤ minBlkSize ∨
      z.mid.size % alignment ≠ 0) := by
  have hal := z.mid.aligned
  rw [hu]
  unfold blkFree minBlkSize blkHdrSize blkFtrSize alignment
  simp only [Bool.toNat_true]
  omega

/-- The address of a live block and its tags pass the checks. -/
theorem realloc_checks (h : Tiled hp e s z.blocks)
    (hu : z.mid.used = true) (hbig : 8 < z.mid.size) (hsize : size ≠ 0)
    (fit : Fit) :
    (implicitMmRealloc fit (hp + 8 + z.off) size).run s = (
      if u64 (align size + blkHdrSize + blkFtrSize) = z.mid.size then
        reallocDone fit (hp + 8 + z.off)
      else if u64 (align size + blkHdrSize + blkFtrSize) < z.mid.size then
        do
          if z.mid.size - u64 (align size + blkHdrSize + blkFtrSize)
              ≥ minBlkSize then
            setRb (hp + 8 + z.off)
              (u64 (align size + blkHdrSize + blkFtrSize)) blkAlloc
            let splitp ← nextBlkp (hp + 8 + z.off)
            setRb splitp (z.mid.size
              - u64 (align size + blkHdrSize + blkFtrSize)) blkFree
          reallocDone fit (hp + 8 + z.off)
      else reallocGrow fit (hp + 8 + z.off) size
        (u64 (align size + blkHdrSize + blkFtrSize)) z.mid.size).run s := by
  have hread := checked h
  have hok := checks_pass (z := z) hu hbig
  have hhdrp : ¬ rbHdrp (hp + 8 + z.off) = 0 := by
    unfold rbHdrp blkHdrp blkHdrSize
    omega
  unfold implicitMmRealloc
  rw [if_neg (by omega), if_neg hsize]
  simp only
  rw [if_neg hhdrp]
  refine (bind_ok hread.ftrp).trans ?_
  rw [if_neg (by omega)]
  refine (bind_ok hread.size).trans ?_
  refine (bind_ok hread.alloc).trans ?_
  rw [if_neg hok]
  refine (bind_ok hread.hdr).trans ?_
  refine (bind_ok hread.ftr).trans ?_
  rw [if_neg (by simp)]

/-- The answer of an exit that stays near the block: the stretch under the
cursor `w` is cut, after its inside may have been rewritten. -/
theorem served_fill (h : Rep R s A) {w : Zip} (xs : List Blk)
    {res : EStateM.Result Stop Machine Nat} {x : Option (Option Nat × Heap)}
    (hsplit : A.blocks = w.left ++ xs ++ w.right)
    (hxs : total xs = w.mid.size) (hw : w.sides true = z.sides true)
    (hn : n % 8 = 0) (hn' : 8 ≤ n) (hfit : n ≤ w.mid.size)
    (hm : ∀ x, x < addr R w.off - 4 ∨ addr R w.off + w.mid.size - 4 ≤ x →
      m x = s.mem x)
    (hmoved : ∀ i, i < z.mid.room → i + 8 < n →
      m (addr R w.off + i) = s.mem (addr R z.off + i))
    (hrun : res = .ok (addr R w.off) (roved fit (addr R w.off)
      { s with mem := stampCut m (addr R w.off) n w.mid.size }))
    (hans : x = some (some w.off, A.settle fit (w.fill n) w.off)) :
    Served fit R s A (payload R (z.sides true)) (Moved R s z n) res x := by
  have hheld := held_fill fit h xs hsplit hxs hn hn' hfit hm
  rw [hw] at hheld
  rw [hans, hrun]
  refine ⟨_, rfl, hheld, fun q hq i hi hi' => ?_⟩
  cases hq
  have hal := w.mid.aligned
  rw [roved_mem]
  exact (stampCut_inside (by unfold addr; omega) hn hn' hal hfit hi').trans
    (hmoved i hi hi')

-- ================================================================ in place

/-- The first part of the block is kept, the rest is freed. -/
theorem realloc_shrink (h : Rep R s A) (hz : z.blocks = A.blocks)
    (hu : z.mid.used = true) (hbig : 8 < z.mid.size) (hsize : size ≠ 0)
    (hlt : need size < 2 ^ 64) (hfit : need size ≤ z.mid.size) :
    Served fit R s A (payload R (z.sides true)) (Moved R s z (need size))
      ((implicitMmRealloc fit (addr R z.off) size).run s)
      (A.resize fit z (need size)) := by
  obtain ⟨e, ht⟩ := h.tiled
  rw [← hz] at ht
  have hal := z.mid.aligned
  have hn := need_mod size
  have hn' : 8 ≤ need size := Nat.le_add_left 8 _
  have hu64 : u64 (align size + blkHdrSize + blkFtrSize) = need size :=
    u64_need (by omega)
  have htot : z.off + z.mid.size ≤ total z.blocks := by
    have := placed_bounds (z.mem_placed 0)
    omega
  obtain ⟨s₁, hset, hwhole, hcut⟩ :=
    ht.cut_ok s.mem hn hn' hal hfit htot
  have hopen := realloc_checks ht hu hbig hsize fit
  rw [hu64] at hopen
  have hans : A.resize fit z (need size)
      = some (some z.off, A.settle fit (z.fill (need size)) z.off) := by
    unfold Heap.resize
    rw [if_pos hfit]
  by_cases he : need size = z.mid.size
  · -- nothing to do: the tags are what a cut would write
    have hfill : z.fill (need size) = A.blocks := by
      have hof : Blk.of (need size) true = z.mid :=
        Blk.ext ((Blk.of_size true hn hn').trans he) hu.symm
      unfold Zip.fill cut
      rw [if_pos he.symm, hof, ← hz]
      simp [Zip.blocks]
    rw [if_pos he] at hopen
    have hdone : (reallocDone fit (addr R z.off)).run s
        = .ok (addr R z.off) (roved fit (addr R z.off) s) :=
      bind_ok (roverTo_ok fit _ s)
    rw [hans, hfill]
    refine ⟨_, hopen.trans hdone, held_roved h _ z.off, fun q hq => ?_⟩
    cases hq
    intro i _ _
    rw [roved_mem]
  · have hless : need size < z.mid.size := by omega
    have hge : z.mid.size - need size ≥ minBlkSize := by
      unfold minBlkSize blkHdrSize blkFtrSize
      omega
    rw [if_neg he, if_pos hless] at hopen
    simp only [if_pos hge] at hopen
    obtain ⟨hnext, hrest⟩ := hcut (fun hc => he hc.symm)
    refine served_fill (w := z) (m := s.mem) h [z.mid]
      (by rw [← hz]; simp [Zip.blocks]) (by simp) rfl hn hn' hfit
      (fun _ _ => rfl) (fun _ _ _ => rfl) (hopen.trans ?_) hans
    refine (bind_ok hset).trans ?_
    refine (bind_ok hnext).trans ?_
    refine (bind_ok hrest).trans ?_
    exact bind_ok (roverTo_ok fit _ _)

-- ======================================================= the free neighbours

/-- `SET_RB` for the front of a stretch and, where there is a rest, for
the rest, as the two growing exits do it. -/
theorem cut_run (h : Tiled hp e s bs) (m : Bytes) {o t : Nat}
    (hn : n % 8 = 0) (hn' : 8 ≤ n) (ht : t % 8 = 0) (hnt : n ≤ t)
    (hhi : o + t ≤ total bs) (fit : Fit) :
    (do
      setRb (hp + 8 + o) n blkAlloc
      if t - n ≥ minBlkSize then
        setRb (← nextBlkp (hp + 8 + o)) (t - n) blkFree
      reallocDone fit (hp + 8 + o) : M Nat).run { s with mem := m }
      = .ok (hp + 8 + o) (roved fit (hp + 8 + o)
        { s with mem := stampCut m (hp + 8 + o) n t }) := by
  obtain ⟨s₁, hset, hwhole, hcut⟩ := h.cut_ok m hn hn' ht hnt hhi
  refine (bind_ok hset).trans ?_
  by_cases he : t = n
  · have hsmall : ¬ t - n ≥ minBlkSize := by
      unfold minBlkSize blkHdrSize blkFtrSize
      omega
    rw [if_neg hsmall, hwhole he]
    exact bind_ok (roverTo_ok fit _ _)
  · have hlarge : t - n ≥ minBlkSize := by
      unfold minBlkSize blkHdrSize blkFtrSize
      omega
    obtain ⟨hnext, hrest⟩ := hcut he
    rw [if_pos hlarge]
    refine (bind_ok hnext).trans ?_
    refine (bind_ok hrest).trans ?_
    exact bind_ok (roverTo_ok fit _ _)

/-- The call where the next block is free and large enough. -/
theorem reallocGrow_next_run (h : Tiled hp e s z.blocks) {c : Blk}
    {r : List Blk} (hr : z.right = c :: r) (hfree : c.used = false)
    (hn : n % 8 = 0) (hn' : 8 ≤ n) (hmore : z.mid.size < n)
    (hfit : n ≤ z.mid.size + c.size) (fit : Fit) (size : Nat) :
    (reallocGrow fit (hp + 8 + z.off) size n z.mid.size).run s
      = .ok (hp + 8 + z.off) (roved fit (hp + 8 + z.off) { s with
        mem := stampCut s.mem (hp + 8 + z.off) n
          (z.mid.size + c.size) }) := by
  have hal := z.mid.aligned
  have hcal := c.aligned
  have hread := nextRead h hr
  have htot : z.off + (z.mid.size + c.size) ≤ total z.blocks := by
    unfold Zip.blocks Zip.off
    rw [hr, total_append, total_cons, total_cons]
    omega
  have hcut := cut_run h s.mem hn hn' (show (z.mid.size + c.size) % 8 = 0
    by omega) hfit htot fit
  have hleft : z.mid.size + c.size - n = c.size - (n - z.mid.size) := by
    omega
  rw [hleft] at hcut
  unfold reallocGrow
  refine (bind_ok hread.alloc).trans ?_
  rw [if_pos (by rw [hfree]; rfl)]
  refine (bind_ok hread.size).trans ?_
  rw [if_pos hfit]
  exact hcut

/-- The block takes in the free next one, as far as it needs. -/
theorem reallocGrow_next (h : Rep R s A) (hz : z.blocks = A.blocks)
    (hn : n % 8 = 0) (hn' : 8 ≤ n) (hmore : z.mid.size < n)
    (hfit : n ≤ z.absorbNext.mid.size) (size : Nat) :
    Served fit R s A (payload R (z.sides true)) (Moved R s z n)
      ((reallocGrow fit (addr R z.off) size n z.mid.size).run s)
      (A.resize fit z n) := by
  obtain ⟨e, ht⟩ := h.tiled
  rw [← hz] at ht
  have hans : A.resize fit z n = some (some z.off,
      A.settle fit (z.absorbNext.fill n) z.off) := by
    unfold Heap.resize
    rw [if_neg (by omega), if_pos hfit]
  have hsides := z.absorbNext_useds
  rcases z.absorbNext_cases with ⟨-, hw⟩ | ⟨c, r, hr, hfree, hw⟩
  · rw [hw] at hfit
    omega
  rw [hw] at hfit hans hsides
  simp only [Blk.join_size] at hfit
  exact served_fill (w := ⟨z.left, z.mid.join c, r⟩)
    (m := s.mem) h [z.mid, c] (by rw [← hz]; simp [Zip.blocks, hr])
    (by simp) hsides hn hn' hfit (fun _ _ => rfl) (fun _ _ _ => rfl)
    (reallocGrow_next_run ht hr hfree hn hn' hmore hfit fit size) hans

/-- A free next block that is not large enough. -/
theorem next_short {c : Blk} {r : List Blk} (hr : z.right = c :: r)
    (hfree : c.used = false) (hmore : z.absorbNext.mid.size < n) :
    z.mid.size + c.size < n := by
  unfold Zip.absorbNext at hmore
  simpa [hr, hfree] using hmore

/-- No next block, free and large enough, and not the last block: the
previous one is looked at. -/
theorem reallocGrow_on (h : Tiled hp e s z.blocks) (hne : z.right ≠ [])
    (hmore : z.absorbNext.mid.size < n) (fit : Fit) (size : Nat) :
    (reallocGrow fit (hp + 8 + z.off) size n z.mid.size).run s
      = (reallocPrev fit (hp + 8 + z.off) size n z.mid.size).run s := by
  obtain ⟨c, r, hr⟩ := List.exists_cons_of_ne_nil hne
  have hread := nextRead h hr
  unfold reallocGrow
  refine (bind_ok hread.alloc).trans ?_
  by_cases hc : c.used = true
  · rw [hc, if_neg (by decide)]
  · have hfree : c.used = false := Bool.eq_false_of_not_eq_true hc
    have hless := next_short hr hfree hmore
    rw [hfree, if_pos (by rfl)]
    refine (bind_ok hread.size).trans ?_
    rw [if_neg (by omega)]
    refine (bind_ok hread.next).trans ?_
    refine (bind_ok hread.eb).trans ?_
    rw [if_neg (by decide)]

/-- The call where the previous block is free and large enough: the bytes
first, then the tags. -/
theorem reallocPrev_prev_run (h : Tiled hp e s z.blocks) {l : List Blk}
    {c : Blk} (hl : z.left = l ++ [c]) (hfree : c.used = false)
    (hn : n % 8 = 0) (hn' : 8 ≤ n) (hmore : z.mid.size < n)
    (hfit : n ≤ c.size + z.mid.size) (fit : Fit) (size : Nat) :
    (reallocPrev fit (hp + 8 + z.off) size n z.mid.size).run s
      = .ok (hp + 8 + total l) (roved fit (hp + 8 + total l) { s with
        mem := stampCut (copy s.mem (hp + 8 + total l) (hp + 8 + z.off)
          z.mid.room) (hp + 8 + total l) n (c.size + z.mid.size) }) := by
  have hal := z.mid.aligned
  have hcal := c.aligned
  have hstart := h.start
  have hbrk := h.brk_eq
  have hr := z.mid.room_add
  have hread := prevRead h hl
  have hoff : z.off = total l + c.size := by
    unfold Zip.off
    simp [hl]
  have hcopy := memcpy_ok (s := s) (d := hp + 8 + total l)
    (a := hp + 8 + z.off) (n := z.mid.room)
    (h.access (by omega) (by omega)) (h.access (by omega) (by omega))
  have htot : total l + (c.size + z.mid.size) ≤ total z.blocks := by
    unfold Zip.blocks
    rw [hl, total_append, total_append, total_cons, total_cons]
    omega
  have hcut := cut_run h (copy s.mem (hp + 8 + total l) (hp + 8 + z.off)
    z.mid.room) hn hn' (show (c.size + z.mid.size) % 8 = 0 by omega) hfit
    htot fit
  have hleft : c.size + z.mid.size - n = c.size - (n - z.mid.size) := by
    omega
  rw [hleft] at hcut
  unfold reallocPrev
  refine (bind_ok hread.prev).trans ?_
  refine (bind_ok hread.size).trans ?_
  refine (bind_ok hread.alloc).trans ?_
  rw [if_pos ⟨by rw [hfree]; rfl, by omega⟩]
  refine (bind_ok (blkAvalSize_ok h)).trans ?_
  refine (bind_ok hcopy).trans ?_
  exact hcut

/-- The block slides into the free previous one. -/
theorem reallocPrev_prev (h : Rep R s A) (hz : z.blocks = A.blocks)
    (hne : z.right ≠ []) (hn : n % 8 = 0) (hn' : 8 ≤ n)
    (hmore : z.mid.size < n) (hmore' : z.absorbNext.mid.size < n)
    (hfit : n ≤ z.absorbPrev.mid.size) (size : Nat) :
    Served fit R s A (payload R (z.sides true)) (Moved R s z n)
      ((reallocPrev fit (addr R z.off) size n z.mid.size).run s)
      (A.resize fit z n) := by
  obtain ⟨e, ht⟩ := h.tiled
  rw [← hz] at ht
  have hans : A.resize fit z n = some (some z.absorbPrev.off,
      A.settle fit (z.absorbPrev.fill n) z.absorbPrev.off) := by
    unfold Heap.resize
    rw [if_neg (by omega), if_neg (by omega), if_neg hne, if_pos hfit]
  have hsides := z.absorbPrev_useds
  have hr := z.mid.room_add
  rcases z.absorbPrev_cases with ⟨-, hw⟩ | ⟨l, c, hl, hfree, hw⟩
  · rw [hw] at hfit
    omega
  have hoff : z.off = total l + c.size := by
    unfold Zip.off
    simp [hl]
  rw [hw] at hfit hans hsides
  simp only [Blk.join_size] at hfit
  refine served_fill (w := ⟨l, c.join z.mid, z.right⟩)
    (m := copy s.mem (R.base + 8 + 8 + total l) (R.base + 8 + 8 + z.off)
      z.mid.room) h [c, z.mid]
    (by rw [← hz]; simp [Zip.blocks, hl]) (by simp) hsides hn hn' hfit
    (fun x hx => copy_of_out ?_) (fun i hi _ => copy_of_in hi)
    (reallocPrev_prev_run ht hl hfree hn hn' hmore hfit fit size) hans
  simp only [addr, Zip.off, Blk.join_size] at hx
  omega

/-- No previous block, free and large enough: a new place is needed. -/
theorem reallocPrev_on (h : Tiled hp e s z.blocks)
    (hmore : z.absorbPrev.mid.size < n) (fit : Fit) (size : Nat) :
    (reallocPrev fit (hp + 8 + z.off) size n z.mid.size).run s
      = (reallocNew fit (hp + 8 + z.off) size n z.mid.size).run s := by
  obtain ⟨q, c, hread, hnot⟩ := prevRead_on h hmore
  unfold reallocPrev
  refine (bind_ok hread.prev).trans ?_
  refine (bind_ok hread.size).trans ?_
  refine (bind_ok hread.alloc).trans ?_
  rw [if_neg hnot]

-- ============================================================ the last block

/-- What the last block's call comes to, up to the extension. -/
theorem reallocGrow_last (h : Tiled hp e s z.blocks) (he : e / 8 = 0)
    (hbit : e % 2 = 0) (hlast : z.right = []) (hmore : z.mid.size < n)
    (fit : Fit) (size : Nat) :
    (reallocGrow fit (hp + 8 + z.off) size n z.mid.size).run s = (do
      let _ ← extendHeap (toInt (n - z.mid.size))
      setRb (hp + 8 + z.off) n blkAlloc
      reallocDone fit (hp + 8 + z.off) : M Nat).run s := by
  have hread := lastRead h he hbit hlast
  unfold reallocGrow
  refine (bind_ok hread.alloc).trans ?_
  rw [if_pos (by rfl)]
  refine (bind_ok hread.size).trans ?_
  rw [if_neg (by omega)]
  refine (bind_ok hread.next).trans ?_
  refine (bind_ok hread.eb).trans ?_
  rw [if_pos rfl]
  simp only [Nat.sub_zero]

/-- The same where the machine stands for a heap. -/
theorem last_call (h : Rep R s A) (hz : z.blocks = A.blocks)
    (hcl : Closed s) (hbit : rd 4 s.mem (s.memBrk - 4) % 2 = 0)
    (hlast : z.right = []) (hmore : z.mid.size < n) (fit : Fit)
    (size : Nat) : ∃ e, Tiled (R.base + 8) e s (z.left ++ [z.mid]) ∧
      e / 8 = 0 ∧ s.memBrk = addr R z.off + z.mid.size ∧
      (reallocGrow fit (addr R z.off) size n z.mid.size).run s = (do
        let _ ← extendHeap (toInt (n - z.mid.size))
        setRb (addr R z.off) n blkAlloc
        reallocDone fit (addr R z.off) : M Nat).run s := by
  obtain ⟨e, ht⟩ := h.tiled
  have he : e / 8 = 0 := ht.last ▸ hcl
  have hbit' : e % 2 = 0 := ht.last ▸ hbit
  have hsplit : z.blocks = z.left ++ [z.mid] := by
    unfold Zip.blocks
    rw [hlast]
  rw [← hz] at ht
  have hbrk := ht.brk_eq
  rw [hlast, total_nil, Nat.add_zero] at hbrk
  have hrun := reallocGrow_last ht he hbit' hlast hmore fit size
  rw [hsplit] at ht
  exact ⟨e, ht, he, hbrk, hrun⟩

/-- The last block is extended where the storage has room. -/
theorem reallocGrow_room (h : Rep R s A) (hz : z.blocks = A.blocks)
    (hcl : Closed s) (hbit : rd 4 s.mem (s.memBrk - 4) % 2 = 0)
    (hlast : z.right = []) (hn : n % 8 = 0) (hn' : 8 ≤ n)
    (hmore : z.mid.size < n) (hroom : lead + z.off + n ≤ maxHeap)
    (size : Nat) :
    ∃ s', (reallocGrow fit (addr R z.off) size n z.mid.size).run s
        = .ok (addr R z.off) s' ∧
      Held R s A (payload R (z.sides true)) s'
        (A.settle fit (z.left ++ [Blk.of n true]) z.off) ∧
      Moved R s z n z.off s' := by
  obtain ⟨e, ht, he, hbrk, hrun⟩ := last_call h hz hcl hbit hlast hmore fit
    size
  have hr := z.mid.room_add
  have hal := z.mid.aligned
  have hRfits := R.fits
  have hmax := h.max
  have hmaxHeap := maxHeap_lt
  have hroom' : 16 + z.off + n ≤ maxHeap := hroom
  have haddr : addr R z.off = R.base + 8 + 8 + total z.left := rfl
  have hoff : z.off = total z.left := rfl
  obtain ⟨s₁, m, hext, hset, ⟨e', htile⟩, hm⟩ := regrow_ok ht
    he (by omega) hn hn' (by simpa using hmore) (by omega)
  simp only [total_cons, total_nil, Nat.add_zero] at hext
  have hcall : (reallocGrow fit (addr R z.off) size n z.mid.size).run s
      = .ok (addr R z.off) (roved fit (addr R z.off) { s with
          memBrk := R.base + 8 + 8 + total z.left + n, mem := m }) := by
    refine hrun.trans ?_
    rw [toInt_of_lt (by omega)]
    refine (bind_ok hext).trans ?_
    refine (bind_ok hset).trans ?_
    exact bind_ok (roverTo_ok fit _ _)
  refine ⟨_, hcall, held_settle h htile ⟨Or.inr ?_, fun x hx => ?_, rfl⟩
    fun x hx => ?_, fun i hi hi' => ?_⟩
  · simp only
    omega
  · exact hm x (Or.inr (Or.inl hx))
  · have hout := sides_out hx
    refine hm x (Or.inl ?_)
    obtain ⟨y, hy, h1, h2⟩ := hx
    obtain ⟨hpl, -, hd⟩ := Zip.mem_sides hy
    have hbd := placed_bounds hpl
    have hbr := y.2.room_add
    have htotal : total z.blocks = total z.left + z.mid.size := by
      unfold Zip.blocks
      rw [hlast, total_append, total_cons, total_nil, Nat.add_zero]
    omega
  · rw [roved_mem]
    exact hm _ (Or.inr (Or.inr (by omega)))

/-- Where it has none the footer faults. -/
theorem reallocGrow_past (h : Rep R s A) (hz : z.blocks = A.blocks)
    (hcl : Closed s) (hbit : rd 4 s.mem (s.memBrk - 4) % 2 = 0)
    (hlast : z.right = []) (hn : n % 8 = 0) (hn' : 8 ≤ n)
    (hn32 : n < 2 ^ 32 - 1) (hmore : z.mid.size < n)
    (hroom : ¬ lead + z.off + n ≤ maxHeap) (fit : Fit) (size : Nat) :
    ∃ s', (reallocGrow fit (addr R z.off) size n z.mid.size).run s
      = .error .fault s' ∧ s'.errno = enomem := by
  obtain ⟨e, ht, he, hbrk, hrun⟩ := last_call h hz hcl hbit hlast hmore fit
    size
  have hpos := z.mid.pos
  have hal := z.mid.aligned
  have hmax := h.max
  have hstart := h.start
  have hoff := total_aligned z.left
  have hRal := R.aligned
  have hRpos := R.pos
  have hmh : maxHeap % 8 = 0 := by decide
  have hroom' : ¬ 16 + z.off + n ≤ maxHeap := hroom
  have haddr : addr R z.off = R.base + 8 + 8 + z.off := rfl
  have hz0 : z.off = total z.left := rfl
  have hb := Blk.of_size true hn hn'
  have hext := extendHeap_past (s := s) (k := n - z.mid.size) (by omega)
    (by omega) (by omega)
  have hset := setBlk_past (s := { s with errno := enomem })
    (p := addr R z.off) (Blk.of n true) (by omega)
    (show s.memStartBrk ≤ addr R z.off - 4 by omega)
    (show addr R z.off ≤ s.memBrk by omega) ht.max (by omega)
    (show s.memMaxAddr < addr R z.off + (Blk.of n true).size - 4 by omega)
  rw [hb] at hset
  refine ⟨{ s with
    errno := enomem
    mem := wr 4 s.mem (addr R z.off - 4) (Blk.of n true).tag }, ?_, rfl⟩
  refine hrun.trans ?_
  refine (bind_ok hext).trans ?_
  exact bind_error hset

/-- The last block reaches past the break, if the storage does. -/
theorem reallocGrow_end (h : Rep R s A) (hz : z.blocks = A.blocks)
    (hcl : Closed s) (hbit : rd 4 s.mem (s.memBrk - 4) % 2 = 0)
    (hlast : z.right = []) (hn : n % 8 = 0) (hn' : 8 ≤ n)
    (hn32 : n < 2 ^ 32 - 1) (hmore : z.mid.size < n) (size : Nat) :
    Served fit R s A (payload R (z.sides true)) (Moved R s z n)
      ((reallocGrow fit (addr R z.off) size n z.mid.size).run s)
      (A.resize fit z n) := by
  rw [Heap.resize_last hmore hlast]
  by_cases hroom : lead + z.off + n ≤ maxHeap
  · obtain ⟨s', hrun, hheld, hmoved⟩ :=
      reallocGrow_room h hz hcl hbit hlast hn hn' hmore hroom size
    rw [if_pos hroom]
    refine ⟨s', hrun, hheld, fun q hq => ?_⟩
    cases hq
    exact hmoved
  · obtain ⟨s', hrun, herr⟩ :=
      reallocGrow_past h hz hcl hbit hlast hn hn' hn32 hmore hroom fit size
    rw [if_neg hroom]
    exact ⟨s', hrun, Or.inl herr⟩

-- =================================================================== moving

/-- A block that is not the last is not the tail block. -/
theorem not_tail (h : Tiled hp e s z.blocks) (hne : z.right ≠ []) :
    ∃ p, tailBlk.run s = .ok p s ∧ hp + 8 + z.off ≠ p := by
  obtain ⟨l, b, r⟩ := z
  rcases r.eq_nil_or_concat with rfl | ⟨r, t, rfl⟩
  · exact absurd rfl hne
  · have hsplit : Zip.blocks ⟨l, b, r.concat t⟩ = (l ++ b :: r) ++ [t] := by
      simp [Zip.blocks]
    rw [hsplit] at h
    have hpos := b.pos
    refine ⟨_, tailBlk_last h, ?_⟩
    rw [total_append, total_cons]
    unfold Zip.off
    simp only
    omega

/-- A last block in use, behind the one under the cursor. -/
theorem last_beside {l : List Blk} {b : Blk} (h : z.blocks = l ++ [b])
    (hb : b.used = true) (hlt : z.off < total l) :
    (total l, b) ∈ z.sides true ∧ z.off + z.mid.size ≤ total l ∧
      z.right ≠ [] := by
  have hmem : (total l, b) ∈ marked true 0 z.blocks := by
    refine ⟨?_, hb⟩
    rw [h]
    simp
  have hmid := z.mid_placed
  have hclear : z.off + z.mid.size ≤ total l := by
    rcases placed_disjoint hmid hmem.1 with ⟨he, -⟩ | hd | hd
    · omega
    · exact hd
    · omega
  refine ⟨?_, hclear, ?_⟩
  · by_cases hu : z.mid.used = true
    · rw [← Zip.sides_diff hu]
      refine ⟨hmem, fun he => ?_⟩
      have hoff : total l = z.off := congrArg Prod.fst he
      omega
    · rwa [Zip.sides_ne hu]
  · intro hlast
    have hpos := b.pos
    have htotal : total z.blocks = z.off + z.mid.size := by
      unfold Zip.blocks Zip.off
      rw [hlast, total_append, total_cons, total_nil, Nat.add_zero]
    rw [h, total_append, total_cons, total_nil] at htotal
    omega

/-- The rover is where it was moved last. -/
theorem reallocDone_ok (fit : Fit) (p q : Nat) (s : Machine) :
    (reallocDone fit p).run (roved fit q s) = .ok p (roved fit p s) := by
  have hrove : roved fit p (roved fit q s) = roved fit p s := by
    unfold roved
    split <;> rfl
  exact (bind_ok (roverTo_ok fit _ _)).trans (by rw [hrove]; rfl)

/-- The new block is there; what is left is to copy, to free the old
block, and to write the new block's tags again. -/
private theorem move_run (h : Tiled hp e s z.blocks) {l : List Blk}
    (hnew : z.blocks = l ++ [Blk.of n true]) (hlt : z.off < total l)
    (hn : n % 8 = 0) (hn' : 8 ≤ n) (hle : z.mid.size ≤ n) (fit : Fit)
    {q : Nat} (hq : q = total l) :
    ∃ m, (do
        memcpy (hp + 8 + q) (hp + 8 + z.off) (← rbAvlSize (hp + 8 + z.off))
        implicitMmFree fit (hp + 8 + z.off)
        setRb (hp + 8 + q) n blkAlloc
        reallocDone fit (hp + 8 + q) : M Nat).run s
        = .ok (hp + 8 + q) (roved fit (hp + 8 + q) { s with mem := m }) ∧
      Tiled hp e { s with mem := m } z.merge.blocks ∧
      (∀ x, s.memBrk - 4 ≤ x → m x = s.mem x) ∧
      (∀ x ∈ payloadAt (hp + 8) (z.sides true), x < hp + 8 + q - 4 →
        m x = s.mem x) ∧
      ∀ i, i < z.mid.room → i + 8 < n →
        m (hp + 8 + q + i) = s.mem (hp + 8 + z.off + i) := by
  have hb := Blk.of_size true hn hn'
  have hr := z.mid.room_add
  have hnr := (Blk.of n true).room_add
  have hstart := h.start
  have hbrk := h.brk
  obtain ⟨hside, hclear, hne⟩ := last_beside hnew rfl hlt
  rw [← hq] at hside hclear
  have hnewpl := (Zip.mem_sides hside).1
  have hbd := placed_bounds hnewpl
  -- the copy stays inside the new block's payload
  have hcopy := memcpy_ok (s := s) (d := hp + 8 + q) (a := hp + 8 + z.off)
    (n := z.mid.room) (h.access (by omega) (by omega))
    (h.access (by omega) (by omega))
  have htile : Tiled hp e { s with
      mem := copy s.mem (hp + 8 + q) (hp + 8 + z.off) z.mid.room }
      z.blocks := h.write hnewpl fun x hx => copy_of_out (by omega)
  obtain ⟨m, hfree, hmerged, hends, hkeep⟩ :=
    implicitMmFree_ok htile (fun hc => absurd hc hne) fit
  -- the new block's tags are rewritten
  have hplaced : (q, Blk.of n true) ∈ placed 0 z.merge.blocks := by
    have hmem := hside
    rw [← z.merge_useds] at hmem
    exact hmem.1
  have hset := (Tiled.roved hmerged fit (hp + 8 + z.merge.off)).setBlk_ok
    m (o := q) (Blk.of n true) (by
      have := placed_bounds hplaced
      omega)
  rw [hb, roved_withMem, roved_withMem] at hset
  have hdone := reallocDone_ok fit (hp + 8 + q) (hp + 8 + z.merge.off)
    { s with mem := stamp m (hp + 8 + q) (Blk.of n true) }
  refine ⟨stamp m (hp + 8 + q) (Blk.of n true), ?_,
    hmerged.restamp_same hplaced,
    fun x hx => ?_, fun x hx hlo => ?_, fun i hi hi' => ?_⟩
  · refine (bind_ok (blkAvalSize_ok h)).trans ?_
    refine (bind_ok hcopy).trans ?_
    refine (bind_ok hfree).trans ?_
    exact (bind_ok hset).trans hdone
  · rw [stamp_of_out (by omega) ?_, hends x (Or.inr hx)]
    · exact copy_of_out (Or.inr (by omega))
    · rintro (hc | hc) <;> omega
  · rw [stamp_of_out (by omega) ?_]
    · rw [hkeep hx]
      exact copy_of_out (Or.inl (by omega))
    · rintro (hc | hc) <;> omega
  · have hin : hp + 8 + q + i ∈ payloadAt (hp + 8) (z.sides true) :=
      ⟨_, hside, by simp only; omega, by simp only; omega⟩
    rw [stamp_of_out (by omega) ?_, hkeep hin]
    · exact copy_of_in hi
    · rintro (hc | hc) <;> omega

/-- A block that is not the last asks for a new one. Its tags keep what
fits in a word of the size. -/
theorem reallocNew_open (h : Tiled (R.base + 8) e s z.blocks)
    (hne : z.right ≠ []) (fit : Fit) (size : Nat) :
    (reallocNew fit (addr R z.off) size n z.mid.size).run s = (do
      let p ← doMalloc fit (align size)
      if p = 0 then return 0
      memcpy p (addr R z.off) (← rbAvlSize (addr R z.off))
      implicitMmFree fit (addr R z.off)
      setBlk p (u32 n) blkAlloc
      reallocDone fit p : M Nat).run s := by
  obtain ⟨p, htail, hnp⟩ := not_tail h hne
  have hnp' : ¬ addr R z.off = p := hnp
  unfold reallocNew
  refine (bind_ok htail).trans ?_
  rw [if_neg hnp']
  simp only [setBlk_u32]

/-- There is no room for one, and nothing happens. -/
theorem reallocNew_none (h : Rep R s A) (hz : z.blocks = A.blocks)
    (hne : z.right ≠ []) (hg : grow A.blocks (u32 (need size)) = none)
    (K : Set Nat) :
    ∃ s', (reallocNew fit (addr R z.off) size n z.mid.size).run s
        = .ok 0 s' ∧ Held R s A K s' A := by
  obtain ⟨e, ht⟩ := h.tiled
  have ht' := ht
  rw [← hz] at ht'
  rw [reallocNew_open ht' hne fit size]
  rcases doMalloc_none ht (by rw [h.max]; omega) (align size)
    (by rw [need_align]; exact hg) fit with ⟨hrun, -⟩ | hrun
  · exact ⟨s, bind_ok hrun, h, Grew.refl s, fun _ _ => rfl, Or.inl rfl,
      Or.inl⟩
  · exact ⟨_, bind_ok hrun, h.withErrno enomem,
      ⟨Or.inl rfl, fun _ _ => rfl, rfl⟩, fun _ _ => rfl, Or.inr rfl, Or.inl⟩

/-- There is, and the block fits there: it moves. -/
theorem reallocNew_some (h : Rep R s A) (hz : z.blocks = A.blocks)
    (hcl : Closed s) (hu : z.mid.used = true) (hne : z.right ≠ [])
    (hle : z.mid.size ≤ u32 (need size)) {q : Nat} {bs : List Blk}
    (hg : grow A.blocks (u32 (need size)) = some (q, bs)) :
    ∃ s', (reallocNew fit (addr R z.off) size (need size) z.mid.size).run s
        = .ok (addr R q) s' ∧
      Held R s A (payload R (z.sides true)) s'
        ((Heap.free fit { A with blocks := bs } z.off).rove fit
          (some (q + 8))) ∧
      Moved R s z (u32 (need size)) q s' := by
  obtain ⟨e, ht⟩ := h.tiled
  have he : e / 8 = 0 := ht.last ▸ hcl
  have hn := u32_need_mod size
  have hzpos := z.mid.pos
  have hzr := z.mid.room_add
  have hlt : s.memMaxAddr < 2 ^ 64 := by
    rw [h.max]
    exact R.fits
  obtain ⟨k, m, hrun, ⟨e', ht'⟩, hgrew, hkeep⟩ :=
    doMalloc_ok ht he hlt (by rw [h.max]; omega) (align size)
      (by rw [need_align]; exact hg) fit
  obtain ⟨-, hq, hbs⟩ := grow_some hg
  obtain ⟨w, hwb, hwo, hwm, hsub, habove⟩ := grow_cursor (hz ▸ hg) hu
  rw [← hwb] at ht'
  obtain ⟨m', hmove, htile, hends, hothers, hcopied⟩ :=
    move_run (Tiled.roved ht' fit (addr R q)) (hwb.trans hbs)
      (by rw [hwo]; omega) hn (by omega) (by rw [hwm]; omega) fit hq
  rw [hwo] at hmove hcopied
  rw [hwm] at hcopied
  simp only [roved_mem] at hends hothers hcopied
  rw [roved_memBrk] at hends
  rw [roved_withMem] at htile
  rw [roved_withMem, show R.base + 8 + 8 + q = addr R q from rfl,
    roved_roved] at hmove
  have hcall : (reallocNew fit (addr R z.off) size (need size)
      z.mid.size).run s = .ok (addr R q) (roved fit (addr R q)
        { s with memBrk := k, mem := m' }) := by
    rw [reallocNew_open (by rw [hz]; exact ht) hne fit size]
    refine (bind_ok hrun).trans (Eq.trans ?_ hmove)
    rw [show R.base + 8 + 8 + q = addr R q from rfl, if_neg (addr_pos R q)]
    rfl
  have hfree : Heap.free fit { A with blocks := bs } z.off
      = A.settle fit w.merge.blocks w.merge.off := by
    unfold Heap.free
    rw [← hwb, ← hwo, w.find?_blocks]
    rfl
  rw [hfree, Heap.settle_rove]
  refine ⟨_, hcall, held_settle h (tiled_of_roved htile)
    ⟨hgrew.le, fun x hx => (hends x hx).trans (hgrew.tail hx), rfl⟩
    fun x hx => ?_, fun i hi hi' => ?_⟩
  · have hin : x ∈ payload R (marked true 0 A.blocks) := by
      rw [← hz]
      exact payloadAt_mono z.sides_sub hx
    refine (hothers x (payloadAt_mono hsub hx) ?_).trans (hkeep hin)
    obtain ⟨y, hy, h1, h2⟩ := hin
    have := grow_above hg hy
    have := y.2.room_add
    omega
  · have hmem : (z.off, z.mid) ∈ marked true 0 A.blocks := by
      have hpl := z.mid_placed
      rw [hz] at hpl
      exact ⟨hpl, hu⟩
    rw [roved_mem]
    refine (hcopied i hi hi').trans (hkeep ⟨(z.off, z.mid), hmem, ?_, ?_⟩)
    · simp only
      omega
    · simp only
      omega

/-- A new block is made at the end, or nothing happens. -/
theorem reallocNew_ok (h : Rep R s A) (hz : z.blocks = A.blocks)
    (hcl : Closed s) (hu : z.mid.used = true) (hne : z.right ≠ [])
    (hsize : align size ≤ wordMax) (hmore : z.mid.size < need size)
    (hmore' : z.absorbNext.mid.size < need size)
    (hmore'' : z.absorbPrev.mid.size < need size) :
    Served fit R s A (payload R (z.sides true)) (Moved R s z (need size))
      ((reallocNew fit (addr R z.off) size (need size) z.mid.size).run s)
      (A.resize fit z (need size)) := by
  have hcut := u32_need hsize
  cases hg : grow A.blocks (need size) with
  | none =>
      obtain ⟨s', hrun, hheld⟩ := reallocNew_none (n := need size) h hz hne
        (hcut.symm ▸ hg) (payload R (z.sides true))
      rw [Heap.resize_none hmore hmore' hne hmore'' hg]
      exact ⟨s', hrun, hheld, fun q hq => by cases hq⟩
  | some y =>
      obtain ⟨q, bs⟩ := y
      obtain ⟨s', hrun, hheld, hmoved⟩ := reallocNew_some h hz hcl hu hne
        (by omega) (hcut.symm ▸ hg)
      rw [hcut] at hmoved
      rw [Heap.resize_some hmore hmore' hne hmore'' hg]
      refine ⟨s', hrun, hheld, fun q' hq' => ?_⟩
      cases hq'
      exact hmoved

-- =========================================================== the whole call

variable (fit) in
/-- `implicit_mm_realloc` of a live block to a size other than zero. -/
theorem implicitMmRealloc_ok (h : Rep R s A) (hz : z.blocks = A.blocks)
    (hclosed : z.mid.size < need size → Closed s) (hu : z.mid.used = true)
    (hbig : 8 < z.mid.size) (hsize : size ≠ 0)
    (hsize' : align size ≤ wordMax)
    (hbit : z.right = [] → z.mid.size < need size →
      rd 4 s.mem (s.memBrk - 4) % 2 = 0) :
    Served fit R s A (payload R (z.sides true)) (Moved R s z (need size))
      ((implicitMmRealloc fit (addr R z.off) size).run s)
      (A.resize fit z (need size)) := by
  obtain ⟨e, ht⟩ := h.tiled
  rw [← hz] at ht
  have hn := need_mod size
  have hlt : need size < 2 ^ 32 - 1 := by
    unfold wordMax at hsize'
    unfold need
    omega
  have hu64 : u64 (align size + blkHdrSize + blkFtrSize) = need size :=
    u64_need (by omega)
  by_cases hin : need size ≤ z.mid.size
  · exact realloc_shrink h hz hu hbig hsize (by omega) hin
  have hmore : z.mid.size < need size := by omega
  have hcl := hclosed hmore
  have hopen := realloc_checks ht hu hbig hsize fit
  rw [hu64, if_neg (by omega), if_neg (by omega)] at hopen
  rw [show addr R z.off = R.base + 8 + 8 + z.off from rfl, hopen]
  by_cases hnext : need size ≤ z.absorbNext.mid.size
  · exact reallocGrow_next h hz hn (by omega) hmore hnext size
  have hmore' : z.absorbNext.mid.size < need size := by omega
  by_cases hlast : z.right = []
  · exact reallocGrow_end h hz hcl (hbit hlast hmore) hlast hn (by omega)
      hlt hmore size
  rw [reallocGrow_on ht hlast hmore']
  by_cases hprev : need size ≤ z.absorbPrev.mid.size
  · exact reallocPrev_prev h hz hlast hn (by omega) hmore hmore' hprev size
  · have hmore'' : z.absorbPrev.mid.size < need size := by omega
    rw [reallocPrev_on ht hmore'']
    exact reallocNew_ok h hz hcl hu hlast hsize' hmore hmore' hmore''

end MallocLab.Proofs.Implicit
