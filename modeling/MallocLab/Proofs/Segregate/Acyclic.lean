/-
Does `segregate_mm_malloc` always end? Its while loop follows a list from
a slot until a block fits, so it ends if the list does. The lists of
classes one to ten always do. The list at slot zero does as long as
`FREELIST_DEL_BLK` is never asked for a block of the smallest size, which
it leaves where it is: from then on the list runs through a block that
is handed out or taken in, and ends where the client's data says.

# The condition

`Keeps` says of a request that it takes no such block: no allocation of
one to eight bytes meets a free one, and no block is released beside one,
or beside one that the allocation made for it leaves.
As long as that is so, slot zero is a list like the others, each list has
each of its nodes once, and the loop makes at most one round a block
(`segregate_acyclic`).
-/
import MallocLab.Proofs.Segregate.Runs

namespace MallocLab.Proofs.Segregate

open Mem Blocks Model Model.Segregate Spec.Segregated

-- ============================================================ the condition

/-- A free block of the smallest size. -/
def Smallest (x : Seen) : Prop := x.state = blkFree ∧ x.size = blkMinSize

/-- The heap has none. -/
def NoSmallest (s : Machine) : Prop :=
  ∀ xs x, HeapList s xs → x ∈ xs → ¬ Smallest x

/-- There is none right behind the block at `p`. -/
def NoneBehind (s : Machine) (p : Nat) : Prop :=
  ∀ xs x y, HeapList s xs → x ∈ xs → y ∈ xs → x.addr = p →
    y.addr = p + x.size → ¬ Smallest y

/-- There is none on either side of the block at `p`. -/
structure NoneBeside (s : Machine) (p : Nat) : Prop where
  behind : NoneBehind s p
  before : ∀ xs y, HeapList s xs → y ∈ xs → y.addr + y.size = p →
    ¬ Smallest y

/-- The blocks at `ps` all have fewer than `n` bytes. -/
def TooSmall (s : Machine) (n : Nat) (ps : List Nat) : Prop :=
  ∀ p ∈ ps, ∀ b, (blkSize p).run s = .ok b s → b < n

/-- On the lists from the class of `n` bytes on, the block at `p` is the
first that may hold them. -/
def FoundFirst (s : Machine) (n p : Nat) : Prop :=
  ∃ k ps ps', fltIndexOf n ≤ k ∧ k ≤ 10 ∧
    FreeList s (s.freelistTable + 8 * k) (ps ++ p :: ps') ∧
    TooSmall s (need n) ps ∧
    ∀ j, fltIndexOf n ≤ j → j < k → ∀ qs,
      FreeList s (s.freelistTable + 8 * j) qs → TooSmall s (need n) qs

/-- An allocation of `n` bytes does not cut the block in front of the one
at `p` so that a smallest one is left between them. -/
def NoneLeft (s : Machine) (p n : Nat) : Prop :=
  ∀ xs y, HeapList s xs → y ∈ xs → y.addr + y.size = p →
    y.state = blkFree → y.size = need n + blkMinSize →
      ¬ FoundFirst s n y.addr

/-- The resize of the block at `p`, of capacity `av`, to `n` bytes
releases no block beside a smallest one: not the block itself, not what
is cut off it, and not the block left behind once a larger one has been
allocated. -/
structure KeepsResize (s : Machine) (p av n : Nat) : Prop where
  free : n = 0 → NoneBeside s p
  split : 1 ≤ n → align n + blkMinSize ≤ av → NoneBehind s p
  move : av < align n → NoneBeside s p ∧ NoneLeft s p (align n)

/-- The condition on a request: it takes no free block of the smallest
size. -/
def Keeps (live : List Alloc) (s : Machine) : Req → Prop
  | .malloc n => n ≤ 8 → NoSmallest s
  | .reallocNull n => n ≤ 8 → NoSmallest s
  | .free i => ∀ a, live[i]? = some a → NoneBeside s a.ptr
  | .realloc i n => ∀ a av, live[i]? = some a →
      (blkAvalSize a.ptr).run s = .ok av s → KeepsResize s a.ptr av n
  | .write _ _ _ => True

variable {R : Region} {live : List Alloc} {s : Machine} {S : State}
  {A : Heap} {z : Zip}

/-- Seen from outside, the block behind a cursor. -/
theorem NoneBehind.next (h : NoneBehind s (addr R z.off)) (hr : Rep R s A)
    (hz : z.blocks = A.blocks) {c : Blk} (hc : c ∈ z.right.head?)
    (hfree : c.used = false) : c.size ≠ 16 := by
  obtain ⟨r, hright⟩ := List.head?_eq_some_iff.1 hc
  have hmid : (z.off, z.mid) ∈ placed 0 A.blocks := by
    rw [← hz]
    simpa using z.mem_placed 0
  have hnext : (z.off + z.mid.size, c) ∈ placed 0 A.blocks := by
    rw [← hz]
    unfold Zip.blocks Zip.off
    simp [hright]
  intro hsz
  apply h _ _ _ hr.heapList (mem_seen_addr.2 ⟨_, _, hmid, rfl⟩)
    (mem_seen_addr.2 ⟨_, _, hnext, rfl⟩) rfl
  · show addr R (z.off + z.mid.size) = addr R z.off + z.mid.size
    unfold addr
    omega
  · exact ⟨seen_free.2 hfree, hsz⟩

/-- Seen from outside, its neighbours. -/
theorem NoneBeside.spared (h : NoneBeside s (addr R z.off)) (hr : Rep R s A)
    (hz : z.blocks = A.blocks) : Spared z := by
  refine ⟨fun c hc hfree => h.behind.next hr hz hc hfree, ?_⟩
  intro c hc hfree hsz
  obtain ⟨l, hl⟩ := List.getLast?_eq_some_iff.1 hc
  have hprev : (total l, c) ∈ placed 0 A.blocks := by
    rw [← hz]
    unfold Zip.blocks
    simp [hl]
  apply h.before _ _ hr.heapList (mem_seen_addr.2 ⟨_, _, hprev, rfl⟩)
  · show addr R (total l) + c.size = addr R z.off
    unfold addr Zip.off
    rw [hl, total_append, total_cons, total_nil]
    omega
  · exact ⟨seen_free.2 hfree, hsz⟩

/-- Seen from outside, all of the heap. -/
theorem NoSmallest.sizes (h : NoSmallest s) (hr : Rep R s A) :
    ∀ y ∈ marked false 0 A.blocks, y.2.size ≠ 16 := by
  rintro ⟨o, b⟩ hb hsz
  exact h _ _ hr.heapList (mem_seen_addr.2 ⟨o, b, hb.1, rfl⟩)
    ⟨seen_free.2 hb.2, hsz⟩

/-- Blocks that are too small on the heap are seen to be. -/
theorem Short.tooSmall {os : List Nat} {k n : Nat} (h : Short A n os)
    (hr : Rep R s A) (hos : ∀ o ∈ os, o ∈ A.bins k) :
    TooSmall s n (os.map (addr R)) := by
  intro p hp b hb
  obtain ⟨o, ho, rfl⟩ := List.mem_map.1 hp
  obtain ⟨c, hc, -⟩ := (hr.ok.files.mem k o).1 (hos o ho)
  obtain ⟨z, hzb, rfl, -⟩ := Zip.of_placed hc.1
  have htiled := hr.shape.tiled
  rw [← hzb] at htiled
  have hread : (blkSize (addr R z.off)).run s = .ok z.mid.size s :=
    blkSize_ok htiled
  cases hb.symm.trans hread
  exact h z hzb ho

/-- The block a search finds is the first to be found. -/
theorem search_foundFirst (h : Rep R s A) {n : Nat} (hn : 9 ≤ n)
    (hn' : n ≤ maxSize) {y : Zip}
    (hy : search A (need n) (slots n) = some y) :
    FoundFirst s n (addr R y.off) := by
  unfold maxSize at hn'
  have hidx : fltIndexOf n ≠ 0 := by
    rw [Ne, fltIndexOf_eq_zero (by omega) (by omega)]
    omega
  obtain ⟨l, r, os, os', hslots, hbefore, hbin, hpassed⟩ :=
    search_first h.ok hy
  have hup : (l ++ cls y.mid :: r).Pairwise (· < ·) := by
    rw [← hslots]
    exact List.pairwise_lt_range'
  have hmem : ∀ {j}, j ∈ l ++ cls y.mid :: r ↔
      fltIndexOf n ≤ j ∧ j ≤ 10 := by
    intro j
    have hle := fltIndexOf_le n
    rw [← hslots]
    unfold slots
    rw [List.mem_range'_1]
    omega
  obtain ⟨hk, hk'⟩ := hmem.1 (List.mem_append_right l List.mem_cons_self)
  have hlist : ∀ {j}, fltIndexOf n ≤ j → j ≤ 10 →
      FreeList s (s.freelistTable + 8 * j) ((A.bins j).map (addr R)) :=
    fun hj hj' => h.shape.freeList (by omega) hj'
  refine ⟨cls y.mid, os.map (addr R), os'.map (addr R), hk, hk', ?_,
    Short.tooSmall hpassed h (k := cls y.mid) fun o ho => ?_,
    fun j hj hjk qs hqs => ?_⟩
  · have hown := hlist hk hk'
    rwa [hbin, List.map_append, List.map_cons] at hown
  · rw [hbin]
    exact List.mem_append_left _ ho
  · -- a class before its own is one the search was through
    have hjl : j ∈ l := by
      rcases List.mem_append.1 (hmem.2 ⟨hj, by omega⟩) with hjl | hjr
      · exact hjl
      · have hge : cls y.mid ≤ j := by
          rcases List.mem_cons.1 hjr with he | hjr
          · exact Nat.le_of_eq he.symm
          · exact Nat.le_of_lt ((List.pairwise_cons.1
              (List.pairwise_append.1 hup).2.1).1 j hjr)
        omega
    rw [(nextList_of_freeList hqs).unique
      (nextList_of_freeList (hlist hj (by omega)))]
    exact Short.tooSmall (hbefore j hjl) h fun o ho => ho

/-- Once a larger block has been allocated, the one to be released has no
smallest one beside it. -/
theorem malloc_spared (h : Rep R s A) {n : Nat} (hn : 9 ≤ n)
    (hn' : n ≤ maxSize) (hz : z.blocks = A.blocks)
    (hu : z.mid.used = true) (hsp : Spared z)
    (hleft : NoneLeft s (addr R z.off) n) {o : Nat} {C : Heap}
    (hm : A.malloc none n = some (o, C)) {w : Zip}
    (hwb : w.blocks = C.blocks) (hwo : w.off = z.off) : Spared w := by
  obtain ⟨-, b, -, -, hfresh, huse⟩ := malloc_spec h.ok (by omega) hn'
    (fun _ hp => (Option.not_mem_none _ hp).elim) hm
  have hmid : (z.off, z.mid) ∈ marked true 0 A.blocks := by
    rw [← hz]
    exact ⟨z.mid_placed, hu⟩
  have hsame : w.mid = z.mid := by
    have hnew : (z.off, z.mid) ∈ marked true 0 C.blocks := by
      rw [huse]
      exact Or.inr hmid
    have hw := w.mid_placed
    rw [hwb, hwo] at hw
    exact placed_unique hw hnew.1
  refine spared_of fun q c hq hbeside => ?_
  rw [hwb] at hq
  rw [hwo, hsame] at hbeside
  rcases malloc_frees h.ok (by omega) hn' hm hq with
    hold | ⟨y, hy, hoff, hsize⟩
  · rw [← hz] at hold
    exact hsp.size hold hbeside
  · obtain ⟨hyb, hyfree, -⟩ := search_fit h.ok hy
    have hymid := y.mid_placed
    rw [hyb] at hymid
    have hpos := z.mid.pos
    have hlo : 8 ≤ need n := Nat.le_add_left 8 _
    -- what is left of the block found is in front of this one
    have hfront : y.off + y.mid.size = z.off := by
      rcases placed_disjoint hymid hmid.1 with ⟨-, he⟩ | hle | hle
      · rw [he, hu] at hyfree
        cases hyfree
      · omega
      · omega
    intro hsz
    refine hleft _ _ h.heapList (mem_seen_addr.2 ⟨_, _, hymid, rfl⟩) ?_
      (seen_free.2 hyfree) ?_ (search_foundFirst h hn hn' hy)
    · show addr R y.off + y.mid.size = addr R z.off
      unfold addr
      omega
    · show y.mid.size = need n + blkMinSize
      unfold blkMinSize blkHdrSize alignment blkFtrSize
      omega

-- ============================================================ one request

/-- A resize that keeps the list at slot zero, on the heap. -/
theorem KeepsResize.spares (h : Sim R live s S) {x : Nat × Nat} {n : Nat}
    (hn : n ≤ maxSize) (hz : z.blocks = S.heap.blocks)
    (hu : z.mid.used = true) (hzo : z.off = x.1)
    (hk : ∀ av, (blkAvalSize (addr R x.1)).run s = .ok av s →
      KeepsResize s (addr R x.1) av n) : SparesResize S.heap z n := by
  have htiled := h.rep.shape.tiled
  rw [← hz] at htiled
  rw [← hzo] at hk
  have hk := hk z.mid.room (blkAvalSize_ok htiled)
  have hr := z.mid.room_add
  have hmin := h.ok.heap.min z.mid (by rw [← hz]; simp [Zip.blocks])
  unfold maxSize at hn
  refine ⟨fun h0 => (hk.free h0).spared h.rep hz, ?_, ?_⟩
  · -- what is cut off lies between the rest of the block and the next one
    intro h1 _ hsplit
    have hsz := need_size h1 (by omega)
    refine ⟨fun c hc => (hk.split h1 ?_).next h.rep hz hc, ?_⟩
    · unfold blkMinSize blkHdrSize alignment blkFtrSize
      unfold need at hsplit
      omega
    · intro c hc hfree
      have hfront : Blk.of (need n) true = c := by
        simpa [rest] using hc
      rw [← hfront] at hfree
      cases hfree
  · -- the block is released in the heap the inner allocation leaves
    intro hroom o C hm w hwb hwo
    have hn0 : 1 ≤ n := by
      by_contra h0
      have : n = 0 := by omega
      subst this
      exact hroom (Nat.zero_le _)
    have hsz := need_size hn0 (by omega)
    unfold need at hsz
    obtain ⟨hbeside, hleft⟩ := hk.move (by omega)
    exact malloc_spared h.rep (by omega) (by unfold maxSize; omega) hz hu
      (hbeside.spared h.rep hz) hleft hm hwb hwo

/-- A request that meets the condition takes no block of the smallest
size off a list. -/
theorem Keeps.spares (h : Sim R live s S) {r : Req} (hr : Sized 1 maxSize r)
    (hk : Keeps live s r) : Spares S r := by
  have hget : ∀ {i : Nat} {x : Nat × Nat}, S.live[i]? = some x →
      live[i]? = some (own R x) := by
    intro i x hx
    rw [h.live_get, hx]
    rfl
  cases r with
  | malloc n => exact fun hn => (hk hn).sizes h.rep
  | reallocNull n => exact fun hn => (hk hn).sizes h.rep
  | free i =>
      intro x z hx hzb hzo
      have hbeside : NoneBeside s (addr R x.1) := hk _ (hget hx)
      rw [← hzo] at hbeside
      exact hbeside.spared h.rep hzb
  | realloc i n =>
      intro x z hx hzb hzo
      have hu : z.mid.used = true := by
        obtain ⟨w, -, -, hw, -, hmem⟩ := h.ok.cursor hx
        have hmid := z.mid_placed
        rw [hzb, hzo] at hmid
        rw [placed_unique hmid hmem.1, hw]
      exact KeepsResize.spares h hr hzb hu hzo
        fun av hav => hk _ av (hget hx) hav
  | write i off v => trivial

/-- While slot zero is the list of class zero, looking there is the first
fit in that class. -/
theorem zeroOk_first (h : Sim R live s S)
    (hzero : AtZero R s.mem S.heap.bins) {n : Nat} (hn : 1 ≤ n)
    (hn' : n ≤ maxSize) (hidx : fltIndexOf n = 0) :
    ZeroOk R s S.heap
      (firstFit S.heap.blocks (need n) (S.heap.bins 0)) n := by
  refine ⟨fun z hz => ?_, ?_⟩
  · exact firstFit_fit h.ok.heap (k := 0) (fun _ ho => ho) hz
  · rw [if_pos hidx]
    have hsz := need_size hn (Nat.le_trans hn' (by decide))
    have hlt : need n < 2 ^ 64 := by
      unfold maxSize at hn'
      omega
    exact freelistAlloc_ok h.rep hsz.2.1 hlt (by decide) hzero

/-- Without a free block of the smallest size there is nothing. -/
theorem zeroFor_none (h : Sim R live s S)
    (hzero : AtZero R s.mem S.heap.bins) {r : Req} (hr : Sized 1 maxSize r)
    (hsp : Spares S r) : ZeroFor R s S.heap none r := by
  have hone : ∀ n, 1 ≤ n → n ≤ maxSize →
      (n ≤ 8 → ∀ y ∈ marked false 0 S.heap.blocks, y.2.size ≠ 16) →
      ZeroOk R s S.heap none n := by
    intro n hn hn' hno
    by_cases hsmall : n ≤ 8
    · have hnil : S.heap.bins 0 = [] := by
        rw [List.eq_nil_iff_forall_not_mem]
        intro o ho
        obtain ⟨b, hb, hsz⟩ := h.rep.shape.filed.small ho
        exact hno hsmall _ hb hsz
      have hfirst := zeroOk_first h hzero hn hn'
        ((fltIndexOf_eq_zero hn (by omega)).2 hsmall)
      rwa [hnil] at hfirst
    · exact zeroOk_of_lt (by omega) hn'
  cases r with
  | malloc n => exact hone n hr.1 hr.2 hsp
  | reallocNull n => exact hone n hr.1 hr.2 hsp
  | free i => trivial
  | realloc i n => trivial
  | write i off v => trivial

/-- One request that meets the condition: slot zero is kept up. -/
theorem serve_keeps (h : Sim R live s S)
    (hzero : AtZero R s.mem S.heap.bins) {r : Req} (hr : Sized 1 maxSize r)
    (hk : Keeps live s r) {p : Nat} {live' : List Alloc} {s' : Machine}
    (hrun : (serve .segregate live r).run s = .ok (p, live') s') :
    ∃ S', Sim R live' s' S' ∧ AtZero R s'.mem S'.heap.bins := by
  have hsp := hk.spares h hr
  have hz := zeroFor_none h hzero hr hsp
  have hans := serve_ok h hr hz
  cases hS : S.serve none r with
  | none =>
      rw [hS] at hans
      obtain ⟨s'', hfault⟩ := hans
      cases hrun.symm.trans hfault
  | some x =>
      obtain ⟨o, S'⟩ := x
      obtain ⟨live'', s'', hrun', hsim, hzero'⟩ :=
        serve_zero h hzero hr hz hsp hS
      cases hrun.symm.trans hrun'
      exact ⟨S', hsim, hzero'⟩

-- ========================================================== what follows

/-- What looks for a block returns. -/
theorem Handed.returns {n : Nat} {o : Option Zip}
    {r : EStateM.Result Stop Machine Nat} (h : Handed R s A n o r) :
    ∃ p s', r = .ok p s' := by
  cases o with
  | none => exact ⟨_, _, h⟩
  | some z =>
      obtain ⟨m, hr, -⟩ := h
      exact ⟨_, _, hr⟩

/-- A bin is no longer than the heap has blocks. -/
theorem bin_le_blocks (h : Rep R s A) (k : Nat) :
    (A.bins k).length ≤ A.blocks.length := by
  have hsub : A.bins k ⊆ (placed 0 A.blocks).map Prod.fst := by
    intro o ho
    obtain ⟨b, hb, -⟩ := (h.ok.files.mem k o).1 ho
    exact List.mem_map.2 ⟨_, hb.1, rfl⟩
  have hlen := (List.subperm_of_subset (h.ok.files.nodup k) hsub).length_le
  rwa [List.length_map, placed_length] at hlen

/-- While slot zero is the list of class zero, every slot holds the list
of its class. -/
theorem slot_strung (h : Sim R live s S)
    (hzero : AtZero R s.mem S.heap.bins) {k : Nat} (hk : k ≤ 10) :
    Strung s.mem (slot R k) ((S.heap.bins k).map (addr R)) ∧
      NextList s (s.freelistTable + 8 * k)
        ((S.heap.bins k).map (addr R)) := by
  cases k with
  | zero =>
      obtain ⟨hacc, haccs⟩ := h.rep.shape.zero_access
      rw [h.rep.shape.table]
      exact ⟨hzero, nextList_of hzero hacc haccs⟩
  | succ k =>
      have hlinked := h.rep.shape.filed.links (k + 1) (by omega) hk
      exact ⟨hlinked.strung,
        nextList_of_freeList (h.freeList (by omega) hk)⟩

/-- So every allocation returns. -/
theorem malloc_returns (h : Sim R live s S)
    (hzero : AtZero R s.mem S.heap.bins) {n : Nat} (hn : 1 ≤ n)
    (hn' : n ≤ maxSize) : ∃ p s', (segregateMmMalloc n).run s = .ok p s' := by
  obtain ⟨pick, hpick⟩ : ∃ pick, ZeroOk R s S.heap pick n := by
    by_cases hidx : fltIndexOf n = 0
    · exact ⟨_, zeroOk_first h hzero hn hn' hidx⟩
    · refine ⟨none, fun z hz => (Option.not_mem_none z hz).elim, ?_⟩
      rw [if_neg hidx]
  have hserved := segregateMmMalloc_ok h.rep n pick hn hn' hpick.1 hpick.2
  cases hm : S.heap.malloc pick n with
  | none =>
      rw [hm] at hserved
      exact ⟨_, _, hserved⟩
  | some y =>
      rw [hm] at hserved
      obtain ⟨s', hrun, -⟩ := hserved
      exact ⟨_, _, hrun⟩

-- ===================================================== every reachable state

/-- In a run in which no free block of the smallest size is taken, the
list at each slot ends and has each of its nodes once; the while loop of
`freelist_alloc` makes at most one round a block on each of them, and
every allocation returns. -/
theorem segregate_acyclic (R : Region) (m : Bytes) {reqs : List Req}
    (hsize : ∀ r ∈ reqs, Sized 1 maxSize r)
    (hkeep : Throughout .segregate Keeps (memInit R m) reqs)
    {ps : List Nat} (hrun : (run .segregate reqs).run (memInit R m)
      = .ok (ps, live) s) :
    ∃ xs, HeapList s xs ∧
      (∀ k, k ≤ 10 → ∃ ns, NextList s (s.freelistTable + 8 * k) ns ∧
        ns.Nodup ∧ ∀ size, 1 ≤ size → size ≤ maxSize → ∃ p s',
          (freelistWalk (need size) (xs.length + 1) (ns.headD 0)).run s
            = .ok p s') ∧
      ∀ size, 1 ≤ size → size ≤ maxSize →
        ∃ p s', (segregateMmMalloc size).run s = .ok p s' := by
  obtain ⟨s₀, hinit, hsim, hzero⟩ := init_zero R m
  have hC := along_and_all (hkeep 0 s₀ hinit) hsize
  have hall : (serveAll .segregate [] reqs).run s₀ = .ok (ps, live) s := by
    unfold run at hrun
    rwa [bind_ok hinit] at hrun
  obtain ⟨S, hS, hzS⟩ := serveAll_returned
    (I := fun live s => ∃ S, Sim R live s S ∧ AtZero R s.mem S.heap.bins)
    (fun live s r p live' s' ⟨S, hS, hzS⟩ ⟨hk, hr⟩ hrun =>
      serve_keeps hS hzS hr hk hrun) ⟨_, hsim, hzero⟩ hC hall
  refine ⟨_, hS.heapList, ?_, fun size h1 h2 => malloc_returns hS hzS h1 h2⟩
  intro k hk
  obtain ⟨hstrung, hlist⟩ := slot_strung hS hzS hk
  refine ⟨_, hlist, (freeLists_of hS).1, ?_⟩
  intro size h1 h2
  have hsz := need_size h1 (Nat.le_trans h2 (by decide))
  have hlen : (seen (R.base + 104) S.heap.blocks).length
      = S.heap.blocks.length := by
    unfold seen
    rw [List.length_map, placed_length]
  have hle := bin_le_blocks hS.rep k
  exact (freelistWalk_ok hS.rep hsz.1 hsz.2.1 hstrung []
    (List.nil_append _).symm (by omega)).returns

instance : DecidablePred Smallest :=
  fun x => inferInstanceAs
    (Decidable (x.state = blkFree ∧ x.size = blkMinSize))

/-- Whether there is no smallest block on either side of the one at
`p`. -/
def checkBeside (s : Machine) (p : Nat) : Bool :=
  checkBlocks s fun xs =>
    (∀ x ∈ xs, ∀ y ∈ xs, x.addr = p → y.addr = p + x.size →
      ¬ Smallest y) ∧ ∀ y ∈ xs, y.addr + y.size = p → ¬ Smallest y

theorem noneBeside_of_check {p : Nat} (h : checkBeside s p = true) :
    NoneBeside s p where
  behind := fun _ x y hxs hx hy haddr hnext =>
    (of_checkBlocks h hxs.blocks).1 x hx y hy haddr hnext
  before := fun _ y hxs hy hprev =>
    (of_checkBlocks h hxs.blocks).2 y hy hprev

/-- Whether a request keeps clear of the smallest blocks by size alone:
none is asked for, none is beside the block released, and the block in
front of one to be moved is not of the size that would leave one. -/
def checkKeeps (live : List Alloc) (s : Machine) : Req → Bool
  | .malloc n => decide (8 < n)
  | .reallocNull n => decide (8 < n)
  | .free i => (live[i]?).all fun a => checkBeside s a.ptr
  | .realloc i n => (live[i]?).all fun a => checkBeside s a.ptr &&
      checkBlocks s fun xs => ∀ y ∈ xs, y.addr + y.size = a.ptr →
        y.size ≠ need n + blkMinSize
  | .write _ _ _ => true

theorem keeps_of_check (live : List Alloc) (s : Machine) (r : Req)
    (h : checkKeeps live s r = true) : Keeps live s r := by
  cases r with
  | malloc n => exact fun hn => absurd (of_decide_eq_true h) (by omega)
  | reallocNull n => exact fun hn => absurd (of_decide_eq_true h) (by omega)
  | free i =>
      intro a ha
      exact noneBeside_of_check ((Option.all_eq_true _ _).1 h a ha)
  | realloc i n =>
      intro a av ha _
      obtain ⟨hbeside, hleft⟩ := Bool.and_eq_true_iff.1
        ((Option.all_eq_true _ _).1 h a ha)
      have hnone := noneBeside_of_check hbeside
      refine ⟨fun _ => hnone, fun _ _ => hnone.behind, fun _ =>
        ⟨hnone, fun xs y hxs hy hprev _ hsize _ => ?_⟩⟩
      rw [need_align] at hsize
      exact of_checkBlocks hleft hxs.blocks y hy hprev hsize
  | write i off v => trivial

/-- At the end the block at 144, cut off the first one, is a smallest
one. -/
theorem segregate_acyclic_sample : ∃ live s,
    (run .segregate sampleReqs).run (memInit Region.sample fun _ => 0)
      = .ok ([112, 160, 192, 224, 0, 0, 112, 0, 272, 192], live) s ∧
    ∃ xs, HeapList s xs ∧
      (∀ k, k ≤ 10 → ∃ ns, NextList s (s.freelistTable + 8 * k) ns ∧
        ns.Nodup ∧ ∀ size, 1 ≤ size → size ≤ maxSize → ∃ p s',
          (freelistWalk (need size) (xs.length + 1) (ns.headD 0)).run s
            = .ok p s') ∧
      ∀ size, 1 ≤ size → size ≤ maxSize →
        ∃ p s', (segregateMmMalloc size).run s = .ok p s' := by
  obtain ⟨s, hs⟩ := of_result? (show result?
      ((run .segregate sampleReqs).run (memInit Region.sample fun _ => 0))
      = some ([112, 160, 192, 224, 0, 0, 112, 0, 272, 192],
        [⟨112, 24⟩, ⟨160, 24⟩, ⟨272, 100⟩, ⟨192, 16⟩]) by decide +kernel)
  exact ⟨_, s, hs, segregate_acyclic _ _
    (fun r hr => (sample_sized r hr).mono (by decide) (Nat.le_refl _))
    (throughout_of_check keeps_of_check (by decide +kernel)) hs⟩

/-- A cell that holds its own address starts no list. -/
private theorem no_list {a : Nat} (ha : a ≠ 0)
    (h : result? ((nextFreeBlkp a).run s) = some a) (ns : List Nat) :
    ¬ NextList s a ns := by
  induction ns with
  | nil =>
      rintro ⟨hend⟩
      rw [hend] at h
      cases h
      exact ha rfl
  | cons n ns ih =>
      intro hlist
      cases hlist with
      | step _ hnext hrest =>
          rw [hnext] at h
          cases h
          exact ih hrest

/-- Allocate eight bytes, free them, and do both once more: the block is
on the list at slot zero twice, so that list goes round. -/
theorem segregate_cyclic : ∃ live s,
    (run .segregate [.malloc 8, .free 0, .malloc 8, .free 0]).run
      (memInit Region.sample fun _ => 0) = .ok ([112, 0, 112, 0], live) s ∧
    ∀ ns, ¬ NextList s (s.freelistTable + 8 * 0) ns := by
  obtain ⟨s, hs, hread⟩ := of_reading
    (fun s => (result? ((nextFreeBlkp s.freelistTable).run s),
      result? ((nextFreeBlkp 112).run s)))
    (show result? ((do
      let x ← run .segregate [.malloc 8, .free 0, .malloc 8, .free 0]
      let s ← get
      return (x, result? ((nextFreeBlkp s.freelistTable).run s),
        result? ((nextFreeBlkp 112).run s)) : M _).run
          (memInit Region.sample fun _ => 0))
      = some (([112, 0, 112, 0], []), some 112, some 112)
      by decide +kernel)
  obtain ⟨hslot, hself⟩ := Prod.mk.inj hread
  refine ⟨_, s, hs, fun ns hlist => ?_⟩
  rw [Nat.mul_zero, Nat.add_zero] at hlist
  cases hlist with
  | stop hend =>
      rw [hend] at hslot
      cases hslot
  | step _ hnext hrest =>
      rw [hnext] at hslot
      cases hslot
      exact no_list (by decide) hself _ hrest

end MallocLab.Proofs.Segregate
