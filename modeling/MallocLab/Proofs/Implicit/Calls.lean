/-
The calls of implicit.c refine the abstract heap: `do_malloc`,
`implicit_mm_malloc` and `implicit_mm_realloc` return what `grow`,
`Heap.malloc` and `Heap.realloc` say and leave a machine that represents
the new heap.

Each lemma also says what was kept: the payloads beside the block the
call is about, and the storage from the new closing word on. For a
resize it says too that the bytes of the block are at its new place, as
many as fit in both sizes.
-/
import MallocLab.Proofs.Implicit.Place
import MallocLab.Proofs.Runs

namespace MallocLab.Proofs.Implicit

open Mem Blocks Model Model.Implicit Spec.Implicit

variable {R : Region} {s s' : Machine} {A : Heap} {z : Zip} {n hp e : Nat}
  {bs : List Blk} {fit : Fit} {m : Bytes}

-- ============================================================== extend_heap

/-- `extend_heap`, when there is room: the break moves, and a closing
word is written where the old one was. -/
theorem extendHeap_ok (h : Tiled hp e s bs) (he : e / 8 = 0)
    (hlt : s.memMaxAddr < 2 ^ 64) {k : Nat} (hk : 0 < k)
    (hfit : s.memBrk + k ≤ s.memMaxAddr) :
    (extendHeap (k : Int)).run s = .ok s.memBrk { s with
      memBrk := s.memBrk + k
      mem := wr 4 s.mem (s.memBrk - 4) 1 } := by
  have hstart := h.start
  have hbrk := h.brk
  have hsize : (blkSize s.memBrk).run { s with memBrk := s.memBrk + k }
      = .ok (e / 8 * 8) { s with memBrk := s.memBrk + k } :=
    getSize_ok ⟨show s.memStartBrk ≤ s.memBrk - 4 by omega,
      show s.memBrk - 4 + 4 ≤ s.memBrk + k by omega, hfit⟩ h.last
  rw [he] at hsize
  have hnext : (nextBlkp s.memBrk).run { s with memBrk := s.memBrk + k }
      = .ok s.memBrk { s with memBrk := s.memBrk + k } := bind_ok hsize
  have hset : (setEb s.memBrk).run { s with memBrk := s.memBrk + k }
      = .ok () { s with
        memBrk := s.memBrk + k
        mem := wr 4 s.mem (s.memBrk - 4) 1 } :=
    store_ok _ ⟨show s.memStartBrk ≤ s.memBrk - 4 by omega,
      show s.memBrk - 4 + 4 ≤ s.memBrk + k by omega, hfit⟩
  unfold extendHeap
  rw [if_neg (by omega), bind_ok (memSbrk_ok hfit),
    if_neg (by unfold minusOne; omega), bind_ok hnext, bind_ok hset]
  rfl

/-- An extension by nothing is refused without asking. -/
theorem extendHeap_zero (s : Machine) : (extendHeap 0).run s = .ok 0 s := rfl

/-- Without room, or downwards, the extension is refused. -/
theorem extendHeap_fail {i : Int} (hi : i ≠ 0)
    (h : i < 0 ∨ (s.memMaxAddr : Int) < s.memBrk + i) :
    (extendHeap i).run s = .ok 0 { s with errno := enomem } := by
  unfold extendHeap
  rw [if_neg hi, bind_ok (memSbrk_fail h), if_pos rfl]
  rfl

/-- In `int` too: what is past the storage is refused, and what an `int`
cannot hold is negative. -/
theorem extendHeap_past {k : Nat} (hk : 0 < k) (hk' : k < 2 ^ 32)
    (h : s.memMaxAddr < s.memBrk + k) :
    (extendHeap (toInt k)).run s = .ok 0 { s with errno := enomem } := by
  by_cases hlt : k < 2 ^ 31
  · rw [toInt_of_lt hlt]
    exact extendHeap_fail (by omega) (Or.inr (by omega))
  · have hneg := toInt_neg (by omega) hk'
    exact extendHeap_fail (by omega) (Or.inl hneg)

/-- A block stamped over the last blocks and the space the extension
brought. -/
theorem regrow_ok {l xs : List Blk} (h : Tiled hp e s (l ++ xs))
    (he : e / 8 = 0) (hlt : s.memMaxAddr < 2 ^ 64) (hn : n % 8 = 0)
    (hn' : 8 ≤ n) (hlen : total xs < n)
    (hfit : hp + 8 + total l + n ≤ s.memMaxAddr) :
    ∃ s₁ m, (extendHeap ((n - total xs : Nat) : Int)).run s
        = .ok s.memBrk s₁ ∧
      (setBlk (hp + 8 + total l) n blkAlloc).run s₁
        = .ok () { s with memBrk := hp + 8 + total l + n, mem := m } ∧
      (∃ e', Tiled hp e'
        { s with memBrk := hp + 8 + total l + n, mem := m }
        (l ++ [Blk.of n true])) ∧
      ∀ x, x < hp + 8 + total l - 4 ∨ hp + 8 + total l + n - 4 ≤ x ∨
        (hp + 8 + total l ≤ x ∧ x + 8 < hp + 8 + total l + n ∧
          x + 4 < s.memBrk) → m x = s.mem x := by
  have hstart := h.start
  have hbrk := h.brk
  have hsmall := h.small
  have hmax := maxHeap_lt
  have hb := Blk.of_size true hn hn'
  have hal := total_aligned xs
  rw [total_append] at hbrk
  have hbrk' : s.memBrk + (n - total xs) = hp + 8 + total l + n := by omega
  have hext := extendHeap_ok h he hlt (k := n - total xs) (by omega)
    (by omega)
  rw [hbrk'] at hext
  have hset := setBlk_ok (s := { s with
      memBrk := hp + 8 + total l + n
      mem := wr 4 s.mem (s.memBrk - 4) 1 }) (p := hp + 8 + total l)
    (Blk.of n true) (by omega)
    (show s.memStartBrk ≤ hp + 8 + total l - 4 by omega)
    (show hp + 8 + total l + (Blk.of n true).size - 4
      ≤ hp + 8 + total l + n by omega) hfit (by omega)
  rw [hb] at hset
  have hout : ∀ x, x < hp + 8 + total l - 4 ∨
      hp + 8 + total l + n - 4 ≤ x ∨ (hp + 8 + total l ≤ x ∧
        x + 8 < hp + 8 + total l + n ∧ x + 4 < s.memBrk) →
      stamp (wr 4 s.mem (s.memBrk - 4) 1) (hp + 8 + total l)
        (Blk.of n true) x = s.mem x := by
    intro x hx
    rw [stamp_of_out (by omega) ?_, wr_of_out (by omega)]
    rintro (hc | hc) <;> omega
  have htile := h.regrow (b := Blk.of n true)
    (m := stamp (wr 4 s.mem (s.memBrk - 4) 1) (hp + 8 + total l)
      (Blk.of n true)) (by omega) (fun x hx => hout x (Or.inl hx))
    (stamp_tagged (by omega) (by omega)) rfl
  rw [hb] at htile
  exact ⟨_, _, hext, hset, ⟨_, htile⟩, hout⟩

-- ================================================================ do_malloc

/-- `TAIL_BLK` reads the footer below the closing word. -/
theorem tailBlk_ok (h : Tiled hp e s bs) :
    tailBlk.run s = .ok (s.memBrk - lastTag bs / 8 * 8) s := by
  have hstart := h.start
  have hbrk := h.brk
  have hzero : (memSbrk 0).run s = .ok s.memBrk s :=
    memSbrk_ok (n := 0) h.max
  have hlast : rd 4 s.mem (s.memBrk - 8) = lastTag bs := by
    rw [hbrk]
    rw [← bs.append_nil] at h
    exact h.last_tag
  have hsize : (prevBlkSize s.memBrk).run s
      = .ok (lastTag bs / 8 * 8) s := by
    unfold prevBlkSize prevFtrp blkHdrSize blkFtrSize
    rw [Nat.sub_sub]
    exact getSize_ok (h.access (by omega) (by omega)) hlast
  unfold tailBlk
  rw [bind_ok hzero]
  exact bind_ok hsize

/-- The tail block, if there are blocks. -/
theorem tailBlk_last {l : List Blk} {t : Blk} (h : Tiled hp e s (l ++ [t])) :
    tailBlk.run s = .ok (hp + 8 + total l) s := by
  have hbrk := h.brk
  have htail := tailBlk_ok h
  have htag : lastTag (l ++ [t]) = t.tag := by simp [lastTag]
  rw [total_append, total_cons, total_nil] at hbrk
  rwa [htag, t.tag_div, show s.memBrk - t.size = hp + 8 + total l by omega]
    at htail

/-- A free tail block shows that it is free, and its room. -/
theorem tailBlk_free {l : List Blk} {t : Blk} (h : Tiled hp e s (l ++ [t]))
    (hfree : t.used = false) :
    (rbAlloc (hp + 8 + total l)).run s = .ok 0 s ∧
      (rbAvlSize (hp + 8 + total l)).run s = .ok t.room s := by
  have hstate := blkState_ok (z := ⟨l, t, []⟩) h
  rw [show Zip.mid ⟨l, t, []⟩ = t from rfl, hfree] at hstate
  exact ⟨hstate, blkAvalSize_ok (z := ⟨l, t, []⟩) h⟩

/-- The tail block is in use, or it is the prologue. -/
theorem tail_used (h : Tiled hp e s bs)
    (hused : ∀ t ∈ bs.getLast?, t.used = true) :
    ∃ p, tailBlk.run s = .ok p s ∧ (rbAlloc p).run s = .ok 1 s := by
  rcases bs.eq_nil_or_concat with rfl | ⟨l, t, rfl⟩
  · have hbrk := h.brk
    have htail := tailBlk_ok h
    have htag : lastTag [] / 8 * 8 = 8 := pro.tag_div
    rw [total_nil] at hbrk
    rw [htag, show s.memBrk - 8 = hp by omega] at htail
    exact ⟨hp, htail, h.proState_ok⟩
  · rw [List.concat_eq_append] at h hused
    have hstate := blkState_ok (z := ⟨l, t, []⟩) h
    rw [show Zip.mid ⟨l, t, []⟩ = t from rfl, hused t (by simp)] at hstate
    exact ⟨_, tailBlk_last h, hstate⟩

/-- An `int` keeps the low bits of a number. -/
theorem toInt_congr {a b : Nat} (h : a % 2 ^ 32 = b % 2 ^ 32) :
    toInt a = toInt b := by
  unfold toInt
  rw [Int.bmod_def, Int.bmod_def]
  omega

/-- What a header word keeps of a block's size. -/
theorem u32_need_mod (size : Nat) : u32 (need size) % 8 = 0 := by
  have := need_mod size
  unfold u32
  omega

/-- It is the size, where that fits with its tags. -/
theorem u32_need (h : align size ≤ wordMax) :
    u32 (need size) = need size := by
  unfold wordMax at h
  refine Nat.mod_eq_of_lt ?_
  unfold need
  omega

/-- A small negative `size_t` converts to a negative `int`. -/
theorem toInt_wrap {d : Nat} (h : 0 < d) (h' : d ≤ 2 ^ 31) :
    toInt (2 ^ 64 - d) < 0 := by
  unfold toInt
  rw [Int.bmod_def]
  omega

/-- Behind a used tail block `do_malloc` asks for the whole block. -/
theorem doMalloc_behind (h : Tiled hp e s bs)
    (hused : ∀ t ∈ bs.getLast?, t.used = true) (size : Nat) :
    (doMalloc fit size).run s = (do
      let curp ← extendHeap
        (toInt (u64 (align size + blkHdrSize + blkFtrSize)))
      if curp = 0 then return 0
      doMallocAt fit curp (align size) : M Nat).run s := by
  obtain ⟨p, htail, halloc⟩ := tail_used h hused
  unfold doMalloc
  simp only
  rw [bind_ok htail, bind_ok halloc, if_neg (by decide)]

/-- Over a free one it asks for the difference. -/
theorem doMalloc_over {l : List Blk} {t : Blk}
    (h : Tiled hp e s (l ++ [t])) (hfree : t.used = false) (size : Nat) :
    (doMalloc fit size).run s = (do
      if (← extendHeap (toInt (u64 (align size + 2 ^ 64 - t.room)))) = 0
      then return 0
      doMallocAt fit (hp + 8 + total l) (align size) : M Nat).run s := by
  obtain ⟨hstate, haval⟩ := tailBlk_free h hfree
  unfold doMalloc
  simp only
  rw [bind_ok (tailBlk_last h), bind_ok hstate, if_pos (by rfl),
    bind_ok haval]

/-- In `int` a whole block is what its header word can hold. -/
theorem behind_size (size : Nat) :
    toInt (u64 (align size + blkHdrSize + blkFtrSize))
      = toInt (u32 (need size)) :=
  toInt_congr (by
    unfold need u64 u32 blkHdrSize blkFtrSize
    omega)

/-- The difference likewise, where the tail block is the smaller. -/
theorem over_size {t : Blk} (h : t.size ≤ u32 (need size)) :
    toInt (u64 (align size + 2 ^ 64 - t.room))
      = toInt (u32 (need size) - t.size) := by
  have htr := t.room_add
  have hal := align_mod size
  refine toInt_congr ?_
  unfold need at *
  unfold u64 u32 at *
  omega

/-- It wraps where the tail block is the larger. -/
theorem over_wrap {t : Blk} (h : u32 (need size) < t.size)
    (ht : t.size < 2 ^ 32) :
    toInt (u64 (align size + 2 ^ 64 - t.room))
      = toInt (2 ^ 64 - (t.size - u32 (need size))) := by
  have htr := t.room_add
  have hal := align_mod size
  refine toInt_congr ?_
  unfold need at *
  unfold u64 u32 at *
  omega

/-- The end of `do_malloc`, where the tags are written. -/
theorem doMallocAt_ok {p : Nat}
    (hset : (setBlk p (u32 (need size)) blkAlloc).run s = .ok () s')
    (fit : Fit) :
    (doMallocAt fit p (align size)).run s = .ok p (roved fit p s') := by
  have hcut : u32 (u64 (align size + blkHdrSize + blkFtrSize))
      = u32 (need size) := by
    unfold need u64 u32 blkHdrSize blkFtrSize
    omega
  have hset' : (setBlk p (u64 (align size + blkHdrSize + blkFtrSize))
      blkAlloc).run s = .ok () s' := by
    rw [← setBlk_u32, hcut]
    exact hset
  unfold doMallocAt
  exact (bind_ok hset').trans (bind_ok (roverTo_ok fit _ _))

/-- A memory that differs only in the tags of a block behind the stem
keeps the payloads in use, and what lies from the new closing word on. -/
theorem stem_keep {k : Nat} (h : Tiled hp e s bs)
    (hk : k = hp + 8 + total (stem bs) + n)
    (hn : n % 8 = 0) (hpast : total bs < total (stem bs) + n)
    (hm : ∀ x, x < hp + 8 + total (stem bs) - 4 ∨
      hp + 8 + total (stem bs) + n - 4 ≤ x ∨
      (hp + 8 + total (stem bs) ≤ x ∧
        x + 8 < hp + 8 + total (stem bs) + n ∧ x + 4 < s.memBrk) →
      m x = s.mem x) :
    Grew s { s with memBrk := k, mem := m } ∧
      Set.EqOn m s.mem (payloadAt (hp + 8) (marked true 0 bs)) := by
  have hbrk := h.brk
  have hal := total_aligned bs
  have hal' := total_aligned (stem bs)
  subst hk
  refine ⟨⟨Or.inr ?_, fun x hx => hm x (Or.inr (Or.inl hx)), rfl⟩,
    fun x hx => hm x (Or.inl ?_)⟩
  · show s.memBrk + 8 ≤ hp + 8 + total (stem bs) + n
    omega
  · rw [← stem_useds] at hx
    obtain ⟨⟨q, b⟩, ⟨hq, -⟩, -, hx2⟩ := hx
    have hbd := placed_bounds hq
    have hr := b.room_add
    simp only at hx2
    omega

/-- `do_malloc` grows the heap, by a block of the size that a header word
keeps. -/
theorem doMalloc_ok (h : Tiled hp e s bs) (he : e / 8 = 0)
    (hlt : s.memMaxAddr < 2 ^ 64) (hhp : s.memMaxAddr = hp + maxHeap - 8)
    (size : Nat) {o : Nat} {bs' : List Blk}
    (hg : grow bs (u32 (need size)) = some (o, bs')) (fit : Fit) :
    ∃ k m, (doMalloc fit size).run s = .ok (hp + 8 + o)
        (roved fit (hp + 8 + o) { s with memBrk := k, mem := m }) ∧
      (∃ e', Tiled hp e' { s with memBrk := k, mem := m } bs') ∧
      Grew s { s with memBrk := k, mem := m } ∧
      Set.EqOn m s.mem (payloadAt (hp + 8) (marked true 0 bs)) := by
  have hn := u32_need_mod size
  have hbrk := h.brk
  have hstart := h.start
  have hmax := maxHeap_lt
  obtain ⟨⟨hpast, hroom⟩, rfl, rfl⟩ := grow_some hg
  have hn' := grow_least hn hg
  unfold lead at hroom
  have hkeep := fun m => stem_keep (m := m) h rfl hn hpast
  rcases stem_cases bs with ⟨hused, hstem⟩ | ⟨l, t, rfl, hfree, hstem⟩
  · -- a new block
    rw [hstem] at hpast hroom hkeep ⊢
    have hext : Tiled hp e s (bs ++ []) := by rwa [List.append_nil]
    obtain ⟨s₁, m, hrun, hset, ht, hm⟩ := regrow_ok hext he hlt hn
      hn' (by rw [total_nil]; omega) (by omega)
    rw [total_nil, Nat.sub_zero] at hrun
    obtain ⟨hgrew, hpay⟩ := hkeep m hm
    refine ⟨_, m, ?_, ht, hgrew, hpay⟩
    rw [doMalloc_behind h hused, behind_size, toInt_of_lt (by omega),
      bind_ok hrun, if_neg (by omega), hbrk]
    exact doMallocAt_ok hset fit
  · -- over the free last block
    rw [hstem] at hpast hroom hkeep ⊢
    rw [total_append, total_cons, total_nil] at hpast hbrk
    obtain ⟨s₁, m, hrun, hset, ht, hm⟩ := regrow_ok h he hlt hn
      hn' (by rw [total_cons, total_nil]; omega) (by omega)
    rw [total_cons, total_nil, Nat.add_zero] at hrun
    obtain ⟨hgrew, hpay⟩ := hkeep m hm
    refine ⟨_, m, ?_, ht, hgrew, hpay⟩
    rw [doMalloc_over h hfree, over_size (by omega),
      toInt_of_lt (by omega), bind_ok hrun, if_neg (by omega)]
    exact doMallocAt_ok hset fit

/-- When the heap does not grow, `do_malloc` returns null and changes
nothing; `mem_sbrk` was not asked only if what is left to ask for is
nothing. -/
theorem doMalloc_none (h : Tiled hp e s bs)
    (hhp : s.memMaxAddr = hp + maxHeap - 8) (size : Nat)
    (hg : grow bs (u32 (need size)) = none) (fit : Fit) :
    ((doMalloc fit size).run s = .ok 0 s ∧
      total (stem bs) + u32 (need size) = total bs) ∨
    (doMalloc fit size).run s = .ok 0 { s with errno := enomem } := by
  have hn := u32_need_mod size
  have hn32 : u32 (need size) < 2 ^ 32 := Nat.mod_lt _ (by decide)
  have hbrk := h.brk
  have hstart := h.start
  have htot := h.total_lt
  have hmax := maxHeap_lt
  have hc := grow_none hg
  unfold lead at hc
  rcases stem_cases bs with ⟨hused, hstem⟩ | ⟨l, t, rfl, hfree, hstem⟩
  · rw [hstem] at hc ⊢
    have hrun : ∀ {s' : Machine},
        (extendHeap (toInt (u32 (need size)))).run s = .ok 0 s' →
        (doMalloc fit size).run s = .ok 0 s' := by
      intro s' hext
      rw [doMalloc_behind h hused, behind_size, bind_ok hext, if_pos rfl]
      rfl
    rcases Nat.eq_zero_or_pos (u32 (need size)) with h0 | hpos
    · refine Or.inl ⟨hrun ?_, by omega⟩
      rw [h0]
      exact extendHeap_zero s
    · exact Or.inr (hrun (extendHeap_past hpos hn32 (by omega)))
  · rw [hstem] at hc ⊢
    simp only [total_append, total_cons, total_nil] at hc hbrk htot ⊢
    have hrun : ∀ {s' : Machine},
        (extendHeap (toInt (u64 (align size + 2 ^ 64 - t.room)))).run s
          = .ok 0 s' → (doMalloc fit size).run s = .ok 0 s' := by
      intro s' hext
      rw [doMalloc_over h hfree, bind_ok hext, if_pos rfl]
      rfl
    rcases Nat.lt_trichotomy (u32 (need size)) t.size with hlt | heq | hgt
    · have hneg : toInt (u64 (align size + 2 ^ 64 - t.room)) < 0 := by
        rw [over_wrap hlt (by omega)]
        exact toInt_wrap (by omega) (by omega)
      exact Or.inr (hrun (extendHeap_fail (Int.ne_of_lt hneg)
        (Or.inl hneg)))
    · refine Or.inl ⟨hrun ?_, by omega⟩
      rw [over_size (by omega), heq, Nat.sub_self]
      exact extendHeap_zero s
    · refine Or.inr (hrun ?_)
      rw [over_size (by omega)]
      exact extendHeap_past (by omega) (by omega) (by omega)

-- ================================================================== answers

/-- The pointer a call returns. -/
def ptrOf (R : Region) : Option Nat → Nat
  | none => 0
  | some o => addr R o

theorem addr_pos (R : Region) (o : Nat) : addr R o ≠ 0 := by
  unfold addr
  omega

/-- What a call may do to a machine that stands for the heap `A`: the new
machine stands for `A'`, and the bytes of `K` are as they were. Only a
refused `mem_sbrk` sets `errno`, and only after one is the rover lost. -/
structure Held (R : Region) (s : Machine) (A : Heap) (K : Set Nat)
    (s' : Machine) (A' : Heap) : Prop where
  rep : Rep R s' A'
  grew : Grew s s'
  keep : Set.EqOn s'.mem s.mem K
  errno : s'.errno = s.errno ∨ s'.errno = enomem
  rover : A'.rover = none → A.rover = none ∨ s'.errno = enomem

/-- A call that returns a pointer answers as the heap does, with `Q` of
the block returned. It stops where the heap has no answer: after a
refused `mem_sbrk`, or for want of a rover. -/
def Served (fit : Fit) (R : Region) (s : Machine) (A : Heap) (K : Set Nat)
    (Q : Nat → Machine → Prop) (res : EStateM.Result Stop Machine Nat) :
    Option (Option Nat × Heap) → Prop
  | none => ∃ s', res = .error .fault s' ∧
      (s'.errno = enomem ∨ (fit = .next ∧ A.rover = none))
  | some (o, A') => ∃ s', res = .ok (ptrOf R o) s' ∧ Held R s A K s' A' ∧
      ∀ q ∈ o, Q q s'

/-- New blocks are in place, with the rover at one of them. -/
theorem held_settle (h : Rep R s A) {K : Set Nat} {k o : Nat}
    (ht : Tiled (R.base + 8) e { s with memBrk := k, mem := m } bs)
    (hgrew : Grew s { s with memBrk := k, mem := m })
    (hkeep : Set.EqOn m s.mem K) :
    Held R s A K (roved fit (addr R o) { s with memBrk := k, mem := m })
      (A.settle fit bs o) where
  rep := h.settle ht
  grew := hgrew.roved fit _
  keep := fun x hx => by
    rw [roved_mem]
    exact hkeep hx
  errno := Or.inl (roved_errno fit _ _)
  rover := fun hr => Or.inl (Heap.settle_lost hr)

/-- Nothing happens to the blocks; the rover may come to one of them. -/
theorem held_roved (h : Rep R s A) (K : Set Nat) (o : Nat) :
    Held R s A K (roved fit (addr R o) s)
      (A.settle fit A.blocks o) := by
  obtain ⟨e, ht⟩ := h.tiled
  exact held_settle h (k := s.memBrk) (m := s.mem) ht (Grew.refl s)
    fun _ _ => rfl

variable (fit) in
/-- The stretch of blocks under a cursor is cut, whatever its inside
held: its first `n` bytes are handed out, what is left is free. -/
theorem held_fill (h : Rep R s A) {w : Zip} (xs : List Blk)
    (hsplit : A.blocks = w.left ++ xs ++ w.right)
    (hxs : total xs = w.mid.size) (hn : n % 8 = 0) (hn' : 8 ≤ n)
    (hfit : n ≤ w.mid.size)
    (hm : ∀ x, x < addr R w.off - 4 ∨ addr R w.off + w.mid.size - 4 ≤ x →
      m x = s.mem x) :
    Held R s A (payload R (w.sides true))
      (roved fit (addr R w.off)
        { s with mem := stampCut m (addr R w.off) n w.mid.size })
      (A.settle fit (w.fill n) w.off) := by
  obtain ⟨e, ht⟩ := h.tiled
  have hbrk := ht.brk
  rw [hsplit, total_append, total_append, hxs] at hbrk
  rw [hsplit] at ht
  have hpos := w.mid.pos
  have haddr : addr R w.off = R.base + 8 + 8 + total w.left := rfl
  have hcut := ht.recut (m := m) hxs hn hn' hfit fun x hx => hm x (by
    have hx' : ¬ (R.base + 8 + 8 + total w.left - 4 ≤ x ∧
      x < R.base + 8 + 8 + total w.left + w.mid.size - 4) := hx
    omega)
  refine held_settle h (k := s.memBrk) hcut
    ⟨Or.inl rfl, fun x hx => ?_, rfl⟩ fun x hx => ?_
  · have hx' : s.memBrk - 4 ≤ x := hx
    have hend : addr R w.off + w.mid.size ≤ s.memBrk := by omega
    exact (stampCut_tail (m := m) hn hn' hfit hend hx').trans
      (hm x (Or.inr (by omega)))
  · have hout := sides_out hx
    exact (stampCut_sides (m := m) hn hn' hfit hx).trans (hm x (by omega))

-- ======================================================= implicit_mm_malloc

/-- A heap that found no place for a block has no free last block of
just its size. -/
theorem stem_short {n : Nat} (hfind : A.find fit n = none)
    (hrov : fit = .next → A.rover ≠ none) :
    total (stem A.blocks) + (n + 8) ≠ total A.blocks := by
  intro he
  rcases stem_cases A.blocks with ⟨-, hs⟩ | ⟨l, t, hbs, hfree, hs⟩
  · rw [hs] at he
    omega
  · have hlast : (total l, t) ∈ placed 0 A.blocks := by
      rw [hbs]
      simp
    have hnot := Heap.find_none hfind hrov hlast
    have hr := t.room_add
    rw [hs, hbs, total_append, total_cons, total_nil] at he
    have : suits n (total l, t) = true :=
      suits_iff.2 ⟨hfree, show n ≤ t.room by omega⟩
    rw [this] at hnot
    cases hnot

/-- Under the next-fit strategy a search without a rover faults. -/
theorem nextFit_lost (h : Rep R s A) (hr : A.rover = none) (size : Nat) :
    (Model.Implicit.nextFit size).run s = .error .fault s := by
  have hcur : s.heapCurp = 0 := by rw [h.cur, hr]; rfl
  have hpos := R.pos
  have hal := R.aligned
  have hstart := h.start
  have hload : (nextBlkp 0).run s = .error .fault s := by
    refine bind_error (bind_error (load_fault fun hc => ?_))
    have hlo := hc.1
    unfold blkHdrp at hlo
    omega
  unfold Model.Implicit.nextFit
  rw [bind_ok (run_get s), hcur, bind_error hload]

/-- So does the call then. -/
theorem malloc_lost (h : Rep R s A) (h0 : size ≠ 0) (hr : A.rover = none) :
    (implicitMmMalloc .next size).run s = .error .fault s := by
  have hfind : (findFit .next (align size)).run s = .error .fault s :=
    nextFit_lost h hr _
  unfold implicitMmMalloc
  rw [if_neg h0]
  exact bind_error hfind

/-- The call, once a place is known. -/
theorem malloc_call (h0 : size ≠ 0) {p : Nat} {s' : Machine} (hp : p ≠ 0)
    (hfound : (findFit fit (align size)).run s = .ok p s' ∨
      ((findFit fit (align size)).run s = .ok 0 s ∧
        (doMalloc fit (align size)).run s = .ok p s')) :
    (implicitMmMalloc fit size).run s = .ok p (roved fit p s') := by
  unfold implicitMmMalloc
  rw [if_neg h0]
  rcases hfound with hf | ⟨hf, hd⟩
  · refine (bind_ok hf).trans ?_
    rw [if_pos hp]
    exact bind_ok (roverTo_ok fit p s')
  · refine (bind_ok hf).trans ?_
    rw [if_neg (by decide)]
    refine (bind_ok hd).trans ?_
    exact bind_ok (roverTo_ok fit p s')

/-- A place was found: the front of the free block there. -/
theorem malloc_found (h : Rep R s A) (h0 : size ≠ 0)
    (hlt : size ≤ wordMax) (hnot : ¬ (fit = .next ∧ A.rover = none))
    {x : Nat × Blk} (hx : A.find fit (align size) = some x)
    (hcomes : (findFit fit (align size)).run s
      = (place (addr R x.1) (align size)).run s) :
    Served fit R s A (kept R A) (fun _ _ => True)
      ((implicitMmMalloc fit size).run s) (A.malloc fit size) := by
  obtain ⟨e, ht⟩ := h.tiled
  unfold wordMax at hlt
  obtain ⟨hn, hn', -⟩ := @need_size size (by omega) (by omega)
  obtain ⟨hpl, hfree, hroom⟩ := Heap.find_spec hx
  obtain ⟨o, b⟩ := x
  obtain ⟨z, hzb, rfl, rfl⟩ := Zip.of_placed hpl
  have hr := z.mid.room_add
  simp only at hfree hroom
  rw [← hzb] at ht
  have hplace := place_ok ht hfree (align size)
    (by rw [need_align]; unfold need; omega)
  rw [need_align] at hplace
  have hans : A.malloc fit size = some (some z.off,
      A.settle fit (z.fill (need size)) z.off) := by
    unfold Heap.malloc
    rw [if_neg h0, if_neg hnot, hx]
    simp only
    rw [← hzb, fillAt_blocks]
  have hsides : kept R A = payload R (z.sides true) := by
    unfold kept
    rw [← hzb, Zip.sides_ne (by simp [hfree])]
  rw [hans, hsides]
  refine ⟨_, malloc_call h0 (addr_pos R z.off)
    (Or.inl (hcomes.trans hplace)), held_fill fit h [z.mid] ?_ (by simp) hn
      (by omega) (by unfold need; omega) (fun _ _ => rfl), fun _ _ => trivial⟩
  rw [← hzb]
  simp [Zip.blocks]

/-- No place was found and none can be made: the call returns null and
loses the rover. It does not reach `mem_sbrk` where what is missing is
nothing, in an `int`. -/
theorem malloc_null (h : Rep R s A) (h0 : size ≠ 0)
    (hcomes : (findFit fit (align size)).run s = .ok 0 s)
    (hg : grow A.blocks (u32 (need size)) = none) :
    ∃ t, (implicitMmMalloc fit size).run s = .ok 0 (roved fit 0 t) ∧
      (t = { s with errno := enomem } ∨
        t = s ∧ total (stem A.blocks) + u32 (need size)
          = total A.blocks) := by
  obtain ⟨e, ht⟩ := h.tiled
  have hcall : ∀ {t : Machine},
      (doMalloc fit (align size)).run s = .ok 0 t →
      (implicitMmMalloc fit size).run s = .ok 0 (roved fit 0 t) := by
    intro t hnull
    unfold implicitMmMalloc
    rw [if_neg h0]
    refine (bind_ok hcomes).trans ?_
    rw [if_neg (by decide)]
    refine (bind_ok hnull).trans ?_
    exact bind_ok (roverTo_ok fit 0 _)
  have hnone := doMalloc_none ht (by rw [h.max]; omega) (align size)
    (by rw [need_align]; exact hg) fit
  rw [need_align] at hnone
  rcases hnone with ⟨hrun, hsame⟩ | hrun
  · exact ⟨s, hcall hrun, Or.inr ⟨rfl, hsame⟩⟩
  · exact ⟨_, hcall hrun, Or.inl rfl⟩

/-- No place was found: a new block at the end, if the storage has room,
else null with `errno` set. -/
theorem malloc_grown (h : Rep R s A) (hcl : Closed s) (h0 : size ≠ 0)
    (hlt : size ≤ wordMax) (hnot : ¬ (fit = .next ∧ A.rover = none))
    (hx : A.find fit (align size) = none)
    (hcomes : (findFit fit (align size)).run s = .ok 0 s) :
    Served fit R s A (kept R A) (fun _ _ => True)
      ((implicitMmMalloc fit size).run s) (A.malloc fit size) := by
  obtain ⟨e, ht⟩ := h.tiled
  have he : e / 8 = 0 := ht.last ▸ hcl
  have hcut : u32 (need (align size)) = need size := by
    rw [need_align, u32_need (align_word hlt)]
  have hlow : s.memMaxAddr < 2 ^ 64 := by
    rw [h.max]
    exact R.fits
  cases hg : grow A.blocks (need size) with
  | some y =>
      obtain ⟨o, bs⟩ := y
      obtain ⟨k, m, hrun, ⟨e', ht'⟩, hgrew, hkeep⟩ :=
        doMalloc_ok ht he hlow (by rw [h.max]; omega) (align size)
          (by rw [hcut]; exact hg) fit
      have hans : A.malloc fit size = some (some o, A.settle fit bs o) := by
        unfold Heap.malloc
        rw [if_neg h0, if_neg hnot, hx]
        simp only [hg]
      have hcalled := malloc_call h0 (addr_pos R o) (Or.inr ⟨hcomes, hrun⟩)
      rw [show R.base + 8 + 8 + o = addr R o from rfl, roved_roved]
        at hcalled
      rw [hans]
      exact ⟨_, hcalled, held_settle h ht' hgrew hkeep, fun _ _ => trivial⟩
  | none =>
      have hword := u32_need (align_word hlt)
      have hans : A.malloc fit size = some (none, A.rove fit none) := by
        unfold Heap.malloc
        rw [if_neg h0, if_neg hnot, hx]
        simp only [hg]
      have hrun : (implicitMmMalloc fit size).run s
          = .ok 0 (roved fit 0 { s with errno := enomem }) := by
        obtain ⟨t, hrun, rfl | ⟨-, hsame⟩⟩ :=
          malloc_null h h0 hcomes (hword.symm ▸ hg)
        · exact hrun
        · rw [hword] at hsame
          refine absurd hsame (stem_short hx ?_)
          exact fun hf hr => hnot ⟨hf, hr⟩
      have hgrew : Grew s { s with errno := enomem } :=
        ⟨Or.inl rfl, fun _ _ => rfl, rfl⟩
      rw [hans]
      refine ⟨_, hrun, ⟨(h.withErrno enomem).roved none, hgrew.roved fit 0,
        fun x _ => ?_, Or.inr ?_, fun _ => Or.inr ?_⟩,
        fun q hq => by cases hq⟩
      · rw [roved_mem]
      · rw [roved_errno]
      · rw [roved_errno]

/-- `implicit_mm_malloc` answers as `Heap.malloc` does. -/
theorem implicitMmMalloc_ok (h : Rep R s A) {size : Nat}
    (hclosed : size ≠ 0 → Closed s) (hA : A.Ok fit)
    (hsize : size ≤ wordMax) :
    Served fit R s A (kept R A) (fun _ _ => True)
      ((implicitMmMalloc fit size).run s) (A.malloc fit size) := by
  by_cases h0 : size = 0
  · subst h0
    exact ⟨s, rfl, ⟨h, Grew.refl s, fun _ _ => rfl, Or.inl rfl, Or.inl⟩,
      fun q hq => by cases hq⟩
  obtain ⟨e, ht⟩ := h.tiled
  have hcl := hclosed h0
  have he : e / 8 = 0 := ht.last ▸ hcl
  by_cases hlost : fit = .next ∧ A.rover = none
  · -- the rover is read before anything else
    obtain ⟨rfl, hr⟩ := hlost
    have hans : A.malloc .next size = none := by
      unfold Heap.malloc
      rw [if_neg h0, if_pos ⟨rfl, hr⟩]
    rw [hans]
    exact ⟨s, malloc_lost h h0 hr, Or.inr ⟨rfl, hr⟩⟩
  have hcomes := findFit_ok (align size) ht he h.listp hA
    (fun ρ hρ => by rw [h.cur, hρ]; rfl) fun hf hr => hlost ⟨hf, hr⟩
  cases hx : A.find fit (align size) with
  | some x =>
      rw [hx] at hcomes
      exact malloc_found h h0 hsize hlost hx hcomes
  | none =>
      rw [hx] at hcomes
      exact malloc_grown h hcl h0 hsize hlost hx hcomes

-- ========================================================= implicit_mm_free

variable (fit) in
/-- `implicit_mm_free` answers as `Heap.free` does. Only the last block
has the closing word behind it. -/
theorem implicitMmFree_held (h : Rep R s A) (hz : z.blocks = A.blocks)
    (hcl : z.right = [] → Closed s) :
    ∃ s', (implicitMmFree fit (addr R z.off)).run s = .ok () s' ∧
      Held R s A (payload R (z.sides true)) s' (A.free fit z.off) := by
  obtain ⟨e, ht⟩ := h.tiled
  have he : z.right = [] → e / 8 = 0 := fun hlast => ht.last ▸ hcl hlast
  rw [← hz] at ht
  obtain ⟨m, hrun, htile, hends, hkeep⟩ :=
    implicitMmFree_ok ht (fun hlast => Or.inl (he hlast)) fit
  have hfree : A.free fit z.off
      = A.settle fit z.merge.blocks z.merge.off := by
    unfold Heap.free
    rw [← hz, z.find?_blocks]
  rw [hfree]
  refine ⟨_, hrun, held_settle h (k := s.memBrk) htile
    ⟨Or.inl rfl, fun x hx => hends x (Or.inr hx), rfl⟩ hkeep⟩

-- ============================================================ starting up

/-- The memory `implicit_mm_init` leaves: a word before the storage, the
padding, the prologue and the word that closes the heap. -/
def initMem (R : Region) (m : Bytes) : Bytes :=
  wr 4 (wr 4 (wr 4 (wr 4 (wr 4 m (R.base - 4) 1) R.base 0xDEADBEEF)
    (R.base + 4) 9) (R.base + 8) 9) (R.base + 12) 1

/-- The machine while `implicit_mm_init` writes: the break has moved, and
the word before the storage was read and written. -/
def started (R : Region) (s : Machine) (list : Nat) (m : Bytes) :
    Machine :=
  { emptied R s with
    memBrk := R.base + 16
    heapListp := list
    mem := m
    strays := (R.base - 4, 4) :: (R.base - 4, 4) :: s.strays }

/-- `implicit_mm_init` on an empty heap, if the word before the storage
reads as size zero. -/
theorem implicitMmInit_emptied (R : Region) (s : Machine) (fit : Fit)
    (hword : rd 4 s.mem (R.base - 4) / 8 = 0) :
    (implicitMmInit fit).run (emptied R s) = .ok 0 (roved fit (R.base + 8)
      (started R s (R.base + 8) (initMem R s.mem))) := by
  have hfits := R.fits
  have hpos := R.pos
  have hal := R.aligned
  have hmax : 16 ≤ maxHeap := by decide
  have hext : (extendHeap (paddingBlkSize + pbHdrSize + pbFtrSize
      + ebHdrSize : Nat)).run (emptied R s) = .ok R.base
        (started R s s.heapListp (wr 4 s.mem (R.base - 4) 1)) := by
    have hbrk : (memSbrk (16 : Nat)).run (emptied R s)
        = .ok R.base { emptied R s with memBrk := R.base + 16 } :=
      memSbrk_ok (s := emptied R s) (n := 16) (by
        show R.base + 16 ≤ R.base + maxHeap
        omega)
    have hmapped : Mapped { emptied R s with memBrk := R.base + 16 }
        (R.base - 4) 4 := by
      refine ⟨Nat.le_refl _, ?_⟩
      show R.base - 4 + 4 ≤ R.base + maxHeap
      omega
    have hout : ¬ Within { emptied R s with memBrk := R.base + 16 }
        (R.base - 4) 4 := by
      rintro ⟨hlo, -⟩
      have hlo' : R.base ≤ R.base - 4 := hlo
      omega
    have hload := load_stray hmapped hout
    have hnext : (nextBlkp R.base).run
        { emptied R s with memBrk := R.base + 16 }
        = .ok R.base { emptied R s with
          memBrk := R.base + 16
          strays := (R.base - 4, 4) :: s.strays } := by
      have hlt := rd_lt 4 s.mem (R.base - 4)
      have hsize : rd 4 s.mem (R.base - 4) &&& (2 ^ 32 - 8) = 0 := by
        rw [land_mask (by decide) hlt, hword]
      have hread : (blkSize R.base).run
          { emptied R s with memBrk := R.base + 16 }
          = .ok 0 { emptied R s with
            memBrk := R.base + 16
            strays := (R.base - 4, 4) :: s.strays } := by
        unfold blkSize getSize getWord
        refine (bind_ok hload).trans ?_
        show EStateM.Result.ok (rd 4 s.mem (R.base - 4) &&& (2 ^ 32 - 8)) _ = _
        rw [hsize]
        rfl
      exact bind_ok hread
    have hset : (setEb R.base).run { emptied R s with
        memBrk := R.base + 16
        strays := (R.base - 4, 4) :: s.strays }
        = .ok () (started R s s.heapListp (wr 4 s.mem (R.base - 4) 1)) :=
      store_stray 1 hmapped hout
    unfold extendHeap
    rw [if_neg (by decide)]
    refine (bind_ok hbrk).trans ?_
    rw [if_neg (by unfold minusOne; omega), bind_ok hnext, bind_ok hset]
    rfl
  have hset : ∀ (d v : Nat) (m' : Bytes), d + 4 ≤ 16 →
      (setWord (R.base + d) v).run (started R s R.base m')
        = .ok () (started R s R.base (wr 4 m' (R.base + d) v)) :=
    fun d v m' hd => store_ok v ⟨show R.base ≤ R.base + d by omega,
      show R.base + d + 4 ≤ R.base + 16 by omega,
      show R.base + 16 ≤ R.base + maxHeap by omega⟩
  unfold implicitMmInit
  rw [bind_ok hext, bind_ok (run_modify _ _),
    if_neg (by unfold minusOne; omega)]
  refine (bind_ok (hset 0 _ _ (by decide))).trans ?_
  refine (bind_ok (hset 4 _ _ (by decide))).trans ?_
  refine (bind_ok (hset 8 _ _ (by decide))).trans ?_
  refine (bind_ok (hset 12 _ _ (by decide))).trans ?_
  rw [bind_ok (run_modify _ _)]
  refine (bind_ok (roverTo_ok fit _ _)).trans ?_
  rfl

theorem implicitMmInit_run (R : Region) (m : Bytes) (fit : Fit)
    (hword : rd 4 m (R.base - 4) / 8 = 0) :
    (implicitMmInit fit).run (memInit R m) = .ok 0 (roved fit (R.base + 8)
      (started R (memInit R m) (R.base + 8) (initMem R m))) :=
  implicitMmInit_emptied R (memInit R m) fit hword

/-- It leaves the heap without blocks. -/
theorem started_rep (R : Region) (s : Machine) (fit : Fit)
    (hcur : fit ≠ .next → s.heapCurp = 0) :
    Rep R (roved fit (R.base + 8)
      (started R s (R.base + 8) (initMem R s.mem))) (Heap.init fit) := by
  have hal := R.aligned
  have hmax : 16 ≤ maxHeap := by decide
  -- before the rover is put anywhere
  have hmoved : roved fit (R.base + 8)
      (started R s (R.base + 8) (initMem R s.mem))
      = roved fit (R.base + 8) { started R s (R.base + 8)
        (initMem R s.mem) with heapCurp := 0 } := by
    unfold roved
    split
    · rfl
    · rename_i hf
      rw [← hcur hf]
      rfl
  have htile : Tiled (R.base + 8) 1 { started R s (R.base + 8)
      (initMem R s.mem) with heapCurp := 0 } [] := by
    refine ⟨?_, by omega, rfl, ?_, Nat.le_refl _, ?_, ?_⟩
    · show R.base + 4 ≤ R.base + 8
      omega
    · show R.base + 16 ≤ R.base + maxHeap
      omega
    · refine tagged_cons.2 ⟨⟨?_, ?_⟩, tagged_nil _⟩
      · show rd 4 (initMem R s.mem) (R.base + 4) = 9
        unfold initMem
        rw [rd_wr_ne (by omega), rd_wr_ne (by omega)]
        exact rd_wr_of_lt (by decide)
      · show rd 4 (initMem R s.mem) (R.base + 8) = 9
        unfold initMem
        rw [rd_wr_ne (by omega)]
        exact rd_wr_of_lt (by decide)
    · show rd 4 (initMem R s.mem) (R.base + 12) = 1
      exact rd_wr_of_lt (by decide)
  have hrep : Rep R { started R s (R.base + 8) (initMem R s.mem) with
      heapCurp := 0 } ⟨[], none⟩ := ⟨rfl, rfl, rfl, ⟨1, htile⟩, rfl⟩
  rw [hmoved]
  exact hrep.roved (some 0)

theorem implicitMmInit_ok (R : Region) (m : Bytes) (fit : Fit)
    (hword : rd 4 m (R.base - 4) / 8 = 0) :
    ∃ s, (implicitMmInit fit).run (memInit R m) = .ok 0 s ∧
      Rep R s (Heap.init fit) ∧ s.errno = 0 ∧ s.mem = initMem R m ∧
      s.memBrk = R.base + 16 :=
  ⟨_, implicitMmInit_run R m fit hword,
    started_rep R (memInit R m) fit fun _ => rfl, roved_errno fit _ _,
    roved_mem fit _ _, roved_memBrk fit _ _⟩

end MallocLab.Proofs.Implicit
