/-
Where the rover of the next-fit strategy points. Every call moves it, and
blocks are merged under it; it stays on the list, because each exit sets
it to the block the call ends at.

One exit does not end at a block: `implicit_mm_malloc` stores what
`find_fit` and `do_malloc` came to, and that is null when there was no
room. The next search starts from null then. Under the condition that
every request for a new block finds room the rover is always on the
list, and a search from it is one round (`RoverOk`). A `realloc` that is
refused does no harm: it returns before the rover is set.
-/
import MallocLab.Proofs.Implicit.Runs

namespace MallocLab.Proofs.Implicit

open Mem Blocks Model Model.Implicit Spec.Implicit

-- ============================================================ the condition

/-- Where a new block at the end of the heap `xs` starts: over the last
block if that is free, else at the break. -/
def frontier (s : Machine) (xs : List Seen) : Nat :=
  match xs.getLast? with
  | none => s.memBrk
  | some t => if t.state = blkFree then t.addr else s.memBrk

/-- There is room for a new allocation of `n` bytes: a free block that is
large enough, or enough storage past the frontier. -/
def HasRoom (s : Machine) (n : Nat) : Prop :=
  ∀ xs, BlockList s xs →
    (∃ x ∈ xs, x.state = blkFree ∧ need n ≤ x.size) ∨
      frontier s xs + need n ≤ s.memMaxAddr

/-- A request for a new allocation finds room. -/
def RoomFor (_ : List Alloc) (s : Machine) : Req → Prop
  | .malloc n => 1 ≤ n → HasRoom s n
  | .reallocNull n => 1 ≤ n → HasRoom s n
  | _ => True

-- ============================================================ the conclusion

/-- A search for `n` bytes that starts at `p` ends. It has examined no
place twice, and either every block of `xs` and come back to `p`, or all
up to a block that fits, which it returns. -/
def Searches (s : Machine) (xs : List Seen) (p n : Nat) : Prop :=
  ∃ vs : List Nat, vs.Nodup ∧
    (((∀ x ∈ xs, x.addr ∈ vs) ∧ Passes s n p vs p ∧
        (Model.Implicit.nextFit n).run s = .ok 0 s) ∨
      ∃ x ∈ xs, x.addr ∉ vs ∧ Passes s n p vs x.addr ∧
        (fits n x.addr).run s = .ok true s ∧
        ∃ s', (Model.Implicit.nextFit n).run s = .ok x.addr s')

/-- The rover is at the prologue or at a block of the heap list, and the
next search makes at most one round from there. -/
structure RoverOk (s : Machine) (xs : List Seen) : Prop where
  listed : s.heapCurp = s.heapListp ∨ ∃ x ∈ xs, x.addr = s.heapCurp
  round : ∃ p, (nextBlkp s.heapCurp).run s = .ok p s ∧
    ∀ n, Searches s xs p n

variable {R : Region} {live : List Alloc} {s s' : Machine} {S S' : State}
  {r : Req} {A A' : Heap} {z : Zip} {n hp e : Nat} {a : Option Nat}
  {bs l : List Blk}

-- =========================================================== the operations

/-- Settling puts the rover at a block. -/
theorem settle_rover (o : Nat) :
    (A.settle .next bs o).rover = some (o + 8) :=
  Heap.rove_rover _ rfl

/-- An allocation loses the rover only if it fails. -/
theorem malloc_rover (hm : A.malloc .next n = some (a, A'))
    (hr : A.rover ≠ none) (ha : n = 0 ∨ a ≠ none) : A'.rover ≠ none := by
  unfold Heap.malloc at hm
  split at hm
  · cases hm
    exact hr
  · rename_i h0
    split at hm
    · cases hm
    · split at hm
      · cases hm
        rw [settle_rover]
        exact Option.some_ne_none _
      · split at hm
        · cases hm
          rw [settle_rover]
          exact Option.some_ne_none _
        · cases hm
          rcases ha with hc | hc
          · exact absurd hc h0
          · exact absurd rfl hc

/-- Freeing puts it at the merged block. -/
theorem free_rover (hr : A.rover ≠ none) (o : Nat) :
    (A.free .next o).rover ≠ none := by
  unfold Heap.free
  split
  · rw [settle_rover]
    exact Option.some_ne_none _
  · exact hr

/-- Every exit of a resize puts it at the block returned, but for the
refused one, which leaves it. -/
theorem resize_rover (hm : A.resize .next z n = some (a, A'))
    (hr : A.rover ≠ none) : A'.rover ≠ none := by
  have hset : ∀ {B : Heap} {cs : List Blk} {o : Nat},
      (B.settle .next cs o).rover ≠ none := fun {B cs o} => by
    rw [settle_rover]
    exact Option.some_ne_none _
  unfold Heap.resize at hm
  split at hm
  · cases hm
    exact hset
  · split at hm
    · cases hm
      exact hset
    · split at hm
      · split at hm
        · cases hm
          exact hset
        · cases hm
      · split at hm
        · cases hm
          exact hset
        · split at hm
          · cases hm
            exact hr
          · cases hm
            rw [Heap.rove_rover _ rfl]
            exact Option.some_ne_none _

/-- Where there is room, an allocation does not fail. -/
theorem malloc_answers (hr : A.rover ≠ none) (hn : 1 ≤ n)
    (hn' : n ≤ 2 ^ 32)
    (hroom : (∃ x ∈ placed 0 A.blocks, x.2.used = false ∧ need n ≤ x.2.size)
      ∨ lead + total (stem A.blocks) + need n ≤ maxHeap)
    (hm : A.malloc .next n = some (a, A')) : a ≠ none := by
  have hsz := need_size hn hn'
  have hsuits : ∀ {x : Nat × Blk}, x.2.used = false → need n ≤ x.2.size →
      suits (align n) x = true := fun {x} hu hle => by
    have := x.2.room_add
    unfold need at hle
    exact suits_iff.2 ⟨hu, by omega⟩
  unfold Heap.malloc at hm
  rw [if_neg (by omega), if_neg (fun hc => hr hc.2)] at hm
  split at hm
  · cases hm
    exact Option.some_ne_none _
  · rename_i hfind
    have hnot := fun x hx => Heap.find_none hfind (fun _ => hr) (x := x) hx
    split at hm
    · cases hm
      exact Option.some_ne_none _
    · rename_i hg
      exfalso
      rcases hroom with ⟨x, hx, hu, hle⟩ | hroom
      · have := hnot x hx
        rw [hsuits hu hle] at this
        cases this
      · -- the heap would have grown, unless its last block were enough
        have hc := grow_none hg
        rcases stem_cases A.blocks with ⟨-, hs⟩ | ⟨l, t, hbs, hfree, hs⟩
        · rw [hs] at hc hroom
          omega
        · have hlast : (total l, t) ∈ placed 0 A.blocks := by
            rw [hbs]
            simp
          rw [hs] at hc hroom
          rw [hbs, total_append, total_cons, total_nil] at hc
          have := hnot _ hlast
          rw [hsuits hfree (show need n ≤ t.size by omega)] at this
          cases this

/-- Serving a request that finds room keeps the rover. -/
theorem serve_rover (hr : S.heap.rover ≠ none)
    (hans : S.serve .next r = some (a, S'))
    (hmal : ∀ k, (r = .malloc k ∨ r = .reallocNull k) → ∀ b B,
      S.heap.malloc .next k = some (b, B) → k = 0 ∨ b ≠ none) :
    S'.heap.rover ≠ none := by
  have henrol : ∀ k, (r = .malloc k ∨ r = .reallocNull k) →
      (S.heap.malloc .next k).map (S.enrol k) = some (a, S') →
      S'.heap.rover ≠ none := by
    intro k hk hm
    obtain ⟨⟨o, B⟩, hB, he⟩ := Option.map_eq_some_iff.1 hm
    have := malloc_rover hB hr (hmal k hk o B hB)
    cases o <;> cases he <;> exact this
  cases r with
  | malloc k => exact henrol k (Or.inl rfl) hans
  | reallocNull k => exact henrol k (Or.inr rfl) hans
  | write i off v =>
      cases hans
      exact hr
  | free i =>
      cases hx : S.live[i]? with
      | none =>
          simp only [State.serve, hx] at hans
          cases hans
          exact hr
      | some x =>
          simp only [State.serve, hx] at hans
          cases hans
          exact free_rover hr x.1
  | realloc i k =>
      cases hx : S.live[i]? with
      | none =>
          simp only [State.serve, hx] at hans
          cases hans
          exact hr
      | some x =>
          simp only [State.serve, hx] at hans
          split at hans
          · cases hans
            exact free_rover hr x.1
          · obtain ⟨⟨o, B⟩, hm, he⟩ := Option.map_eq_some_iff.1 hans
            have hB : B.rover ≠ none := by
              unfold Heap.realloc at hm
              split at hm
              · cases hm
                exact hr
              · exact resize_rover hm hr
            cases o <;> cases he <;> exact hB

-- ================================================================= one round

/-- The bounds of the addresses of a stretch. -/
theorem addrs_bounds {p v : Nat} (hv : v ∈ addrs p bs) :
    p ≤ v ∧ v < p + total bs := by
  obtain ⟨⟨q, c⟩, hq, rfl⟩ := List.mem_map.1 hv
  have := placed_bounds hq
  have := c.pos
  simp only
  omega

/-- No place of a round is come to twice. -/
theorem places_nodup (hp : Nat) (l r : List Blk) : (places hp l r).Nodup := by
  have hne : ∀ p bs, (addrs p bs).Nodup := placed_nodup
  unfold places
  refine List.nodup_append.2 ⟨hne _ _, ?_, fun v hv w hw he => ?_⟩
  · refine List.nodup_cons.2 ⟨fun hc => ?_, List.nodup_cons.2
      ⟨fun hc => ?_, hne _ _⟩⟩
    · rcases List.mem_cons.1 hc with hc | hc
      · omega
      · have := addrs_bounds hc
        rw [total_append] at this
        omega
    · have := addrs_bounds hc
      omega
  · subst he
    have hup := addrs_bounds hv
    rcases List.mem_cons.1 hw with hc | hw
    · rw [total_append] at hc
      omega
    · rcases List.mem_cons.1 hw with hc | hw
      · omega
      · have := addrs_bounds hw
        omega

/-- A round comes past every block. -/
theorem mem_places {x : Nat × Blk} {r : List Blk}
    (hx : x ∈ placed 0 (l ++ r)) : hp + 8 + x.1 ∈ places hp l r := by
  have haddr : ∀ {o : Nat} {cs : List Blk}, x ∈ placed o cs →
      hp + 8 + x.1 ∈ addrs (hp + 8 + o) cs := fun {o cs} h =>
    List.mem_map.2 ⟨(hp + 8 + x.1, x.2), by
      obtain ⟨o', ho, h0⟩ := mem_placed_at.1 h
      exact mem_placed_at.2 ⟨o', by omega, h0⟩, rfl⟩
  rw [placed_append, Nat.zero_add] at hx
  unfold places
  rcases List.mem_append.1 hx with hx | hx
  · exact List.mem_append_right _ (List.mem_cons_of_mem _
      (List.mem_cons_of_mem _ (haddr (o := 0) hx)))
  · exact List.mem_append_left _ (haddr hx)

/-- With the rover on the list, every search makes at most one round. -/
theorem rover_searches (h : Tiled hp e s bs) (he : e / 8 = 0)
    (hl : s.heapListp = hp) {ρ : Nat}
    (hlisted : ρ = 0 ∨ ∃ o b, ρ = o + 8 ∧ (o, b) ∈ placed 0 bs)
    (hcur : s.heapCurp = hp + ρ) :
    ∃ p, (nextBlkp s.heapCurp).run s = .ok p s ∧
      ∀ n, Searches s (seen (hp + 8) bs) p n := by
  obtain ⟨l, r, rfl, -, hnext⟩ := rover_split h hlisted hcur
  have hnodup := places_nodup hp l r
  refine ⟨_, hnext, fun n => ?_⟩
  cases hf : (placed (total l) r ++ placed 0 l).find? (suits n) with
  | none =>
      obtain ⟨hpass, hrun⟩ := nextFit_none h he hl hnext hf
      refine ⟨places hp l r, hnodup, Or.inl ⟨fun x hx => ?_, hpass, hrun⟩⟩
      obtain ⟨y, hy, rfl⟩ := mem_seen.1 hx
      obtain ⟨o, ho, hy0⟩ := mem_placed_at.1 hy
      have hplaced : hp + 8 + o ∈ places hp l r := mem_places hy0
      rwa [show (seenAt y).addr = hp + 8 + o by
        simp only [seenAt]; omega]
  | some x =>
      obtain ⟨vs, ws, hsplit, hpass, hrun⟩ :=
        nextFit_some h he hl hnext hf
      have hmem : x ∈ placed 0 (l ++ r) := by
        have := List.mem_of_find?_eq_some hf
        rw [placed_append, Nat.zero_add]
        exact List.mem_append.2 (List.mem_append.1 this).symm
      rw [hsplit] at hnodup
      obtain ⟨hvs, -, hnot⟩ := List.nodup_append.1 hnodup
      obtain ⟨o, b⟩ := x
      obtain ⟨z, hzb, rfl, rfl⟩ := Zip.of_placed hmem
      rw [← hzb] at h hmem
      have hsuit := List.find?_some hf
      obtain ⟨hu, hle⟩ := suits_need hsuit (by
        have := h.size_lt
        simp only
        omega)
      have hplace := place_ok h hu _ hle
      refine ⟨vs, hvs, Or.inr ⟨seenAt (hp + 8 + z.off, z.mid), ?_,
        fun hc => hnot _ hc _ List.mem_cons_self rfl, hpass,
        (fits_ok h).trans (by rw [hsuit]), _, hrun.trans hplace⟩⟩
      rw [← hzb]
      exact mem_seen.2 ⟨_, z.mem_placed (hp + 8), rfl⟩

/-- A machine that stands for a state with a rover. -/
theorem Sim.roverOk (h : Sim .next R live s S) (hcl : Closed s)
    (hr : S.heap.rover ≠ none) :
    RoverOk s (seen (R.base + 16) S.heap.blocks) := by
  obtain ⟨ρ, hρ⟩ := Option.ne_none_iff_exists'.1 hr
  obtain ⟨e, ht⟩ := h.rep.tiled
  have hcur : s.heapCurp = R.base + 8 + ρ := by
    rw [h.rep.cur, hρ]
    rfl
  have hlisted := h.ok.heap.listed ρ hρ
  refine ⟨?_, rover_searches ht (ht.last ▸ hcl) h.rep.listp hlisted hcur⟩
  rcases hlisted with rfl | ⟨o, b, rfl, hb⟩
  · exact Or.inl (by rw [hcur, h.rep.listp])
  · refine Or.inr ⟨_, mem_seen_addr.2 ⟨o, b, hb, rfl⟩, ?_⟩
    show addr R o = s.heapCurp
    rw [hcur]
    unfold addr
    omega

-- ================================================================ the runs

/-- Room seen from outside is room. -/
theorem hasRoom_of (h : Sim .next R live s S) (hroom : HasRoom s n) :
    (∃ x ∈ placed 0 S.heap.blocks, x.2.used = false ∧ need n ≤ x.2.size) ∨
      lead + total (stem S.heap.blocks) + need n ≤ maxHeap := by
  obtain ⟨e, ht⟩ := h.rep.tiled
  have hbrk := ht.brk
  have hmax := h.rep.max
  rcases hroom _ (ht.blockList h.rep.listp) with ⟨x, hx, hst, hle⟩ | hfit
  · obtain ⟨o, b, hb, rfl⟩ := mem_seen_addr.1 hx
    exact Or.inl ⟨(o, b), hb, seen_free.1 hst, hle⟩
  · refine Or.inr ?_
    have hfront : frontier s (seen (R.base + 8 + 8) S.heap.blocks)
        = R.base + 8 + 8 + total (stem S.heap.blocks) := by
      rcases S.heap.blocks.eq_nil_or_concat with hbs | ⟨l, t, hbs⟩
      · rw [hbs] at hbrk ⊢
        exact hbrk
      · rw [List.concat_eq_append] at hbs
        rw [hbs] at hbrk ⊢
        have hlast : (seen (R.base + 8 + 8) (l ++ [t])).getLast?
            = some (seenAt (R.base + 8 + 8 + total l, t)) := by
          unfold seen
          simp
        unfold frontier
        rw [hlast]
        cases hu : t.used with
        | true =>
            have hst : ¬ (seenAt (R.base + 8 + 8 + total l, t)).state
                = blkFree := by
              show ¬ t.used.toNat = 0
              rw [hu]
              decide
            simp only [if_neg hst, stem, hu, List.getLast?_concat, if_true]
            exact hbrk
        | false =>
            have hst : (seenAt (R.base + 8 + 8 + total l, t)).state
                = blkFree := by
              show t.used.toNat = 0
              rw [hu]
              rfl
            simp only [if_pos hst, stem, hu, List.getLast?_concat,
              Bool.false_eq_true, if_false, List.dropLast_concat]
            rfl
    rw [hfront, hmax] at hfit
    unfold lead
    omega

/-- In every run that gives each request for a new allocation room, the
rover stays on the list, and every search is one round. -/
theorem implicit_rover (R : Region) {m : Bytes} (hm : Blank R m)
    {reqs : List Req} (hsize : ∀ r ∈ reqs, Sized 0 maxSize r)
    (hroom : Throughout (.implicit .next) RoomFor (memInit R m) reqs)
    {ps : List Nat}
    (hrun : (run (.implicit .next) reqs).run (memInit R m)
      = .ok (ps, live) s) :
    ∃ xs, HeapList s xs ∧ RoverOk s xs := by
  obtain ⟨s₀, hinit, hgo⟩ := init_going .next R hm
  have hC := along_and_all (hroom 0 s₀ hinit) hsize
  unfold run at hrun
  rw [bind_ok hinit] at hrun
  obtain ⟨S, hS, hf, hr⟩ := serveAll_returned
    (I := fun live s => ∃ S, Sim .next R live s S ∧ Fresh R s ∧
      S.heap.rover ≠ none)
    (fun live s r p live' s' ⟨S, hS, hf, hr⟩ ⟨hroom, hsz⟩ hserve => by
      obtain ⟨o, S', hans, -, hleft, hf'⟩ :=
        serve_returned hS hf (Sized.int hsz) hserve
      refine ⟨S', hleft.sim, hf', serve_rover hr hans fun k hk b B hB => ?_⟩
      rcases Nat.eq_zero_or_pos k with h0 | hpos
      · exact Or.inl h0
      · refine Or.inr ?_
        have hle : k ≤ 2 ^ 32 := by
          have hmax : maxSize ≤ 2 ^ 32 := by decide
          rcases hk with rfl | rfl <;> exact Nat.le_trans hsz.2 hmax
        have hhas : HasRoom s k := by
          rcases hk with rfl | rfl <;> exact hroom hpos
        exact malloc_answers hr hpos hle (hasRoom_of hS hhas) hB)
    ⟨_, hgo.sim, hgo.fresh, hgo.rover rfl⟩ hC hrun
  exact ⟨_, hS.heapList hf.closed, hS.roverOk hf.closed hr⟩

/-- A walk ends above the blocks it comes past. -/
theorem walk_addr_le {p q : Nat} {xs : List Seen} (h : Walk s p xs q)
    {x : Seen} (hx : x ∈ xs) : x.addr ≤ q := by
  induction h with
  | stop => cases hx
  | step hy _ hnext hrest ih =>
      have hle := hy.next hnext
      have hge := hrest.le
      rcases List.mem_cons.1 hx with rfl | hx
      · omega
      · exact ih hx

/-- Enough storage past the break is room. -/
theorem hasRoom_of_brk (h : s.memBrk + need n ≤ s.memMaxAddr) :
    HasRoom s n := by
  rintro xs ⟨p, -, hwalk⟩
  refine Or.inr (Nat.le_trans (Nat.add_le_add_right ?_ _) h)
  unfold frontier
  split
  · exact Nat.le_refl _
  · rename_i t ht
    split
    · exact walk_addr_le hwalk (List.mem_of_getLast? ht)
    · exact Nat.le_refl _

/-- Whether there is enough for each new allocation. -/
def checkRoom (_ : List Alloc) (s : Machine) : Req → Bool
  | .malloc n => decide (s.memBrk + need n ≤ s.memMaxAddr)
  | .reallocNull n => decide (s.memBrk + need n ≤ s.memMaxAddr)
  | _ => true

theorem roomFor_of_check (live : List Alloc) (s : Machine) (r : Req)
    (h : checkRoom live s r = true) : RoomFor live s r := by
  cases r with
  | malloc n => exact fun _ => hasRoom_of_brk (of_decide_eq_true h)
  | reallocNull n => exact fun _ => hasRoom_of_brk (of_decide_eq_true h)
  | free i => trivial
  | realloc i n => trivial
  | write i off v => trivial

/-- The last allocation starts its search at the last block, and goes
round. -/
theorem implicit_rover_sample : ∃ live s xs,
    (run (.implicit .next) sampleReqs).run (memInit Region.sample fun _ => 0)
      = .ok ([24, 72, 104, 152, 0, 0, 0, 24, 176, 24, 176, 104], live) s ∧
      HeapList s xs ∧ RoverOk s xs := by
  obtain ⟨s, hs⟩ := of_result? (show result? ((run (.implicit .next)
      sampleReqs).run (memInit Region.sample fun _ => 0))
      = some ([24, 72, 104, 152, 0, 0, 0, 24, 176, 24, 176, 104],
        [⟨24, 70⟩, ⟨176, 120⟩, ⟨152, 16⟩, ⟨104, 8⟩]) by decide +kernel)
  obtain ⟨xs, hlist, hok⟩ := implicit_rover Region.sample sample_blank
    (fun r hr => (sample_sized r hr).mono (by decide) (Nat.le_refl _))
    (throughout_of_check roomFor_of_check (by decide +kernel)) hs
  exact ⟨_, s, xs, hs, hlist, hok⟩

/-- A request that finds no room: null is returned, and the rover is
null. -/
theorem implicit_rover_lost :
    ∃ live s, (run (.implicit .next) [.malloc maxSize]).run
      (memInit Region.sample fun _ => 0) = .ok ([0], live) s ∧
      ¬ ∃ xs, HeapList s xs ∧ RoverOk s xs := by
  obtain ⟨s₀, hinit, hgo⟩ := init_going .next Region.sample sample_blank
  have hans := serve_fresh hgo.sim hgo.fresh (r := .malloc maxSize)
    ⟨Nat.zero_le _, by decide⟩
  have hS : State.serve .next ⟨Heap.init .next, []⟩ (.malloc maxSize)
      = some (none, ⟨(Heap.init .next).rove .next none, []⟩) := rfl
  rw [hS] at hans
  obtain ⟨live, s, hserve, hleft⟩ := hans
  have hcur : s.heapCurp = 0 := by
    rw [hleft.sim.rep.cur]
    rfl
  refine ⟨live, s, ?_, fun ⟨xs, _, hok⟩ => ?_⟩
  · unfold run
    rw [bind_ok hinit]
    exact bind_ok hserve
  · obtain ⟨p, hnext, -⟩ := hok.round
    have hfault : (nextBlkp 0).run s = .error .fault s := by
      refine bind_error (bind_error (load_fault fun hc => ?_))
      have hlo : s.memStartBrk - 4 ≤ 0 := hc.1
      rw [hleft.sim.rep.start] at hlo
      exact absurd hlo (by decide)
    rw [hcur, hfault] at hnext
    cases hnext

end MallocLab.Proofs.Implicit
