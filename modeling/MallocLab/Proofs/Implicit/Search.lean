/-
The three searches in a tiled heap: each comes to the block its strategy
names, or to null, and has changed nothing by then.

A search is a walk, so every lemma is an induction on the blocks still
ahead, with the blocks behind as the parameter that moves. The rover's
walk comes round: `Passes` is a stretch of it, and the whole round is
the stretch up to the break, the step back to the prologue and the
stretch from there (`nextFit_ring`).
-/
import MallocLab.Proofs.Walk
import MallocLab.Spec.Implicit

namespace MallocLab.Proofs.Implicit

open Mem Blocks Model Model.Implicit Spec.Implicit

-- =============================================================== one place

variable {hp e size : Nat} {s : Machine} {bs : List Blk} {z : Zip}

/-- `EB` asks for the size read at a place. -/
theorem eb_ok {p n : Nat} (h : (blkSize p).run s = .ok n s) :
    (eb p).run s = .ok (n == 0) s := bind_ok h

/-- At a block, the searches test what `suits` says. -/
theorem fits_ok (h : Tiled hp e s z.blocks) :
    (fits size (hp + 8 + z.off)).run s
      = .ok (suits size (z.off, z.mid)) s := by
  unfold fits
  rw [bind_ok (blkState_ok h)]
  cases hu : z.mid.used with
  | true =>
      rw [if_neg (by decide)]
      simp only [suits, hu]
      rfl
  | false =>
      rw [if_pos (by rfl), bind_ok (blkAvalSize_ok h)]
      simp only [suits, hu]
      rfl

/-- The prologue never fits. -/
theorem fits_pro (h : Tiled hp e s bs) :
    (fits size hp).run s = .ok false s := by
  unfold fits
  rw [bind_ok h.proState_ok, if_neg (by decide)]
  rfl

/-- `NEXT_BLKP` of the prologue. -/
theorem next_pro (h : Tiled hp e s bs) :
    (nextBlkp hp).run s = .ok (hp + 8) s := by
  unfold nextBlkp
  rw [bind_ok h.proSize_ok]
  rfl

/-- No block's size reads as zero. -/
theorem eb_block (h : Tiled hp e s z.blocks) :
    (eb (hp + 8 + z.off)).run s = .ok false s := by
  have hpos := z.mid.pos
  rw [eb_ok (blkSize_ok h)]
  have : (z.mid.size == 0) = false := by
    rw [beq_eq_false_iff_ne]
    omega
  rw [this]

theorem eb_pro (h : Tiled hp e s bs) : (eb hp).run s = .ok false s :=
  eb_ok h.proSize_ok

/-- The break's size reads as zero, if the closing word's does. -/
theorem eb_brk (h : Tiled hp e s bs) (he : e / 8 = 0) :
    (eb s.memBrk).run s = .ok true s := by
  rw [eb_ok h.endSize_ok, he]
  rfl

/-- What a search comes to: null, or the placement of the block found. -/
def Comes (hp : Nat) (s : Machine) (size : Nat) (x : Option (Nat × Blk))
    (r : EStateM.Result Stop Machine Nat) : Prop :=
  match x with
  | none => r = .ok 0 s
  | some x => r = (place (hp + 8 + x.1) size).run s

/-- The loops are run for more rounds than there are places. -/
theorem rounds_lt (h : Tiled hp e s bs) : bs.length + 4 < loopFuel := by
  have := length_le_total bs
  have := h.total_lt
  unfold loopFuel
  omega

-- =============================================================== first fit

theorem firstFitLoop_ok (he : e / 8 = 0) {r : List Blk} :
    ∀ {l : List Blk} {fuel : Nat}, Tiled hp e s (l ++ r) →
      r.length < fuel →
      Comes hp s size ((placed (total l) r).find? (suits size))
        ((firstFitLoop size fuel (hp + 8 + total l)).run s) := by
  induction r with
  | nil =>
      intro l fuel h hf
      obtain ⟨fuel, rfl⟩ : ∃ f, fuel = f + 1 := ⟨fuel - 1, by omega⟩
      have hbrk := h.brk
      rw [List.append_nil] at hbrk
      show (firstFitLoop size (fuel + 1) _).run s = .ok 0 s
      rw [firstFitLoop, ← hbrk, bind_ok (eb_brk h he)]
      rfl
  | cons b r ih =>
      intro l fuel h hf
      obtain ⟨fuel, rfl⟩ : ∃ f, fuel = f + 1 := ⟨fuel - 1, by
        simp only [List.length_cons] at hf
        omega⟩
      have hend : (eb (hp + 8 + total l)).run s = .ok false s :=
        eb_block (z := ⟨l, b, r⟩) h
      have hfits : (fits size (hp + 8 + total l)).run s
          = .ok (suits size (total l, b)) s :=
        fits_ok (z := ⟨l, b, r⟩) h
      have hnext : (nextBlkp (hp + 8 + total l)).run s
          = .ok (hp + 8 + total l + b.size) s :=
        nextBlkp_ok (z := ⟨l, b, r⟩) h
      have hround : (firstFitLoop size (fuel + 1) (hp + 8 + total l)).run s
          = if suits size (total l, b) = true
            then (place (hp + 8 + total l) size).run s
            else (firstFitLoop size fuel
              (hp + 8 + total l + b.size)).run s := by
        rw [firstFitLoop, bind_ok hend, if_neg (by decide),
          bind_ok hfits, run_ite]
        split
        · rfl
        · rw [bind_ok hnext]
      rw [hround, placed_cons, List.find?_cons]
      cases hs : suits size (total l, b) with
      | true => exact if_pos rfl
      | false =>
          rw [if_neg (by decide)]
          have htotal : hp + 8 + total l + b.size
              = hp + 8 + total (l ++ [b]) := by
            rw [total_append, total_cons, total_nil]
            omega
          have htotal' : total l + b.size = total (l ++ [b]) := by
            rw [total_append, total_cons, total_nil]
            omega
          simp only
          rw [htotal, htotal']
          refine ih (by simpa using h) ?_
          simp only [List.length_cons] at hf
          omega

theorem firstFit_ok (h : Tiled hp e s bs) (he : e / 8 = 0)
    (hl : s.heapListp = hp) : Comes hp s size
      (Spec.Implicit.firstFit bs size)
      ((Model.Implicit.firstFit size).run s) := by
  have hlt := rounds_lt h
  unfold Model.Implicit.firstFit
  rw [bind_ok (run_get s), hl]
  obtain ⟨fuel, hfuel⟩ : ∃ f, loopFuel = f + 1 := ⟨loopFuel - 1, by omega⟩
  rw [hfuel, firstFitLoop, bind_ok (eb_pro h), if_neg (by decide),
    bind_ok (fits_pro h), if_neg (by decide), bind_ok (next_pro h)]
  exact firstFitLoop_ok he (l := []) h (by omega)

-- ================================================================ best fit

/-- The loop's variables for the best block so far. -/
def bestVars (hp : Nat) : Option (Nat × Blk) → Nat × Nat
  | none => (maxHeap, 0)
  | some x => (x.2.room, hp + 8 + x.1)

/-- The loop's test is `better`'s, at a block of a heap. -/
theorem better_iff {o : Nat} {b : Blk} {best : Option (Nat × Blk)}
    (hb : b.room < maxHeap) :
    (b.used.toNat = blkFree ∧ b.room ≥ size ∧ b.room < (bestVars hp best).1)
      ↔ (suits size (o, b)
        && best.all fun y => decide (b.room < y.2.room)) = true := by
  have hused : b.used.toNat = blkFree ↔ b.used = false := by
    cases b.used <;> decide
  rw [Bool.and_eq_true, suits_iff, hused, and_assoc]
  cases best with
  | none => simp [bestVars, hb]
  | some y => simp [bestVars]

theorem bestFitLoop_ok (he : e / 8 = 0) {r : List Blk} :
    ∀ {l : List Blk} {fuel : Nat} {best : Option (Nat × Blk)},
      Tiled hp e s (l ++ r) → r.length < fuel →
      (bestFitLoop size fuel (bestVars hp best).1 (bestVars hp best).2
        (hp + 8 + total l)).run s
        = .ok (bestVars hp ((placed (total l) r).foldl (better size) best))
          s := by
  induction r with
  | nil =>
      intro l fuel best h hf
      obtain ⟨fuel, rfl⟩ : ∃ f, fuel = f + 1 := ⟨fuel - 1, by omega⟩
      have hbrk := h.brk
      rw [List.append_nil] at hbrk
      rw [bestFitLoop, ← hbrk, bind_ok (eb_brk h he)]
      rfl
  | cons b r ih =>
      intro l fuel best h hf
      obtain ⟨fuel, rfl⟩ : ∃ f, fuel = f + 1 := ⟨fuel - 1, by
        simp only [List.length_cons] at hf
        omega⟩
      have hend : (eb (hp + 8 + total l)).run s = .ok false s :=
        eb_block (z := ⟨l, b, r⟩) h
      have havl : (rbAvlSize (hp + 8 + total l)).run s = .ok b.room s :=
        blkAvalSize_ok (z := ⟨l, b, r⟩) h
      have halloc : (rbAlloc (hp + 8 + total l)).run s
          = .ok b.used.toNat s :=
        blkState_ok (z := ⟨l, b, r⟩) h
      have hnext : (nextBlkp (hp + 8 + total l)).run s
          = .ok (hp + 8 + total (l ++ [b])) s := by
        rw [total_append, total_cons, total_nil, Nat.add_zero,
          ← Nat.add_assoc]
        exact nextBlkp_ok (z := ⟨l, b, r⟩) h
      have hlt : b.room < maxHeap := by
        have := Tiled.size_lt (z := ⟨l, b, r⟩) h
        have := b.room_add
        simp only at *
        omega
      have hrest : ∀ best', (bestFitLoop size fuel (bestVars hp best').1
          (bestVars hp best').2 (hp + 8 + total (l ++ [b]))).run s
          = .ok (bestVars hp ((placed (total (l ++ [b])) r).foldl
            (better size) best')) s := fun best' =>
        ih (by simpa using h) (by
          simp only [List.length_cons] at hf
          omega)
      have htotal : total l + b.size = total (l ++ [b]) := by
        rw [total_append, total_cons, total_nil]
        omega
      have hbetter := @better_iff hp size (total l) b best hlt
      rw [bestFitLoop, bind_ok hend, if_neg (by decide), bind_ok havl,
        bind_ok halloc, placed_cons, List.foldl_cons, htotal]
      by_cases hc : b.used.toNat = blkFree ∧ b.room ≥ size ∧
          b.room < (bestVars hp best).1
      · have hbest : better size best (total l, b) = some (total l, b) :=
          if_pos (hbetter.1 hc)
        rw [if_pos hc, bind_ok hnext, hbest]
        exact hrest (some (total l, b))
      · have hbest : better size best (total l, b) = best :=
          if_neg fun hs => hc (hbetter.2 hs)
        rw [if_neg hc, bind_ok hnext, hbest]
        exact hrest best

theorem bestFit_ok (h : Tiled hp e s bs) (he : e / 8 = 0)
    (hl : s.heapListp = hp) : Comes hp s size
      (Spec.Implicit.bestFit bs size)
      ((Model.Implicit.bestFit size).run s) := by
  have hlt := rounds_lt h
  have havl : (rbAvlSize hp).run s = .ok 0 s := by
    unfold rbAvlSize blkAvalSize
    rw [bind_ok h.proSize_ok]
    rfl
  obtain ⟨fuel, hfuel⟩ : ∃ f, loopFuel = f + 1 := ⟨loopFuel - 1, by omega⟩
  -- the prologue is passed over
  have hloop : (bestFitLoop size loopFuel maxHeap 0 hp).run s
      = .ok (bestVars hp (Spec.Implicit.bestFit bs size)) s := by
    rw [hfuel, bestFitLoop, bind_ok (eb_pro h), if_neg (by decide),
      bind_ok havl, bind_ok h.proState_ok, if_neg (fun hc => by cases hc.1),
      bind_ok (next_pro h)]
    exact @bestFitLoop_ok hp e size s he bs [] _ none h (by omega)
  unfold Model.Implicit.bestFit
  rw [bind_ok (run_get s), hl, bind_ok hloop]
  cases hb : Spec.Implicit.bestFit bs size with
  | none => rfl
  | some x =>
      have hx := Heap.find_spec
        (show Heap.find .best ⟨bs, none⟩ size = some x from hb)
      have hbd := (placed_bounds (b := x.2) hx.1).2.1
      have hr := x.2.room_add
      have htot := h.total_lt
      simp only at hbd
      have hne : ¬ x.2.room = maxHeap := by omega
      show (if x.2.room = maxHeap then _ else _ : M Nat).run s = _
      rw [if_neg hne]

-- ================================================================ next fit

theorem passes_append {p q r : Nat} {vs ws : List Nat}
    (h : Passes s size p vs q) (h' : Passes s size q ws r) :
    Passes s size p (vs ++ ws) r := by
  induction h with
  | stop => exact h'
  | step hturn _ ih => exact Passes.step hturn (ih h')

/-- The loop goes along with a stretch that does not come to its start
again. -/
theorem passes_loop {p q oldp : Nat} {vs : List Nat}
    (h : Passes s size p vs q) (hvs : ∀ v ∈ vs.tail, v ≠ oldp)
    (hq : vs ≠ [] → q ≠ oldp) (fuel : Nat) :
    (nextFitLoop size oldp (vs.length + fuel) p).run s
      = (nextFitLoop size oldp fuel q).run s := by
  induction h with
  | stop => rw [List.length_nil, Nat.zero_add]
  | @step p p' q vs hturn hrest ih =>
      have hp' : p' ≠ oldp := by
        cases hrest with
        | stop => exact hq (List.cons_ne_nil _ _)
        | step _ _ => exact hvs _ List.mem_cons_self
      have hlen : (p :: vs).length + fuel = (vs.length + fuel) + 1 := by
        rw [List.length_cons]
        omega
      rw [hlen, nextFitLoop, bind_ok hturn]
      show (if p' = oldp then pure 0 else _ : M Nat).run s = _
      rw [if_neg hp']
      exact ih (fun v hv => hvs v (List.mem_of_mem_tail hv))
        fun _ => hq (List.cons_ne_nil _ _)

/-- When a stretch comes to the start of the loop, the loop ends. -/
theorem passes_round {p oldp : Nat} {vs : List Nat}
    (h : Passes s size p vs oldp) (hne : vs ≠ [])
    (hvs : ∀ v ∈ vs.tail, v ≠ oldp) (fuel : Nat) :
    (nextFitLoop size oldp (vs.length + fuel) p).run s = .ok 0 s := by
  induction h with
  | stop => exact absurd rfl hne
  | @step p p' q vs hturn hrest ih =>
      have hlen : (p :: vs).length + fuel = (vs.length + fuel) + 1 := by
        rw [List.length_cons]
        omega
      rw [hlen, nextFitLoop, bind_ok hturn]
      show (if p' = q then pure 0 else _ : M Nat).run s = _
      cases hrest with
      | stop =>
          rw [if_pos rfl]
          rfl
      | step hturn' hrest' =>
          rw [if_neg (hvs _ List.mem_cons_self)]
          exact ih (List.cons_ne_nil _ _)
            fun v hv => hvs v (List.mem_of_mem_tail hv)

/-- A turn at a block that suits places it and ends the loop. -/
theorem nextFitLoop_found (h : Tiled hp e s z.blocks)
    (hs : suits size (z.off, z.mid) = true) (oldp fuel : Nat) :
    (nextFitLoop size oldp (fuel + 1) (hp + 8 + z.off)).run s
      = (place (hp + 8 + z.off) size).run s := by
  have hfits := @fits_ok hp e size s z h
  rw [hs] at hfits
  have hturn : (nextFitTurn size (hp + 8 + z.off)).run s
      = (place (hp + 8 + z.off) size >>= fun bp => pure (.inl bp) :
        M (Nat ⊕ Nat)).run s := by
    unfold nextFitTurn
    rw [bind_ok (eb_block h), if_neg (by decide), bind_ok hfits, if_pos rfl]
  rw [nextFitLoop, run_bind, hturn, run_bind]
  cases (place (hp + 8 + z.off) size).run s with
  | ok bp s' => rfl
  | error e s' => rfl

/-- A turn at a block that does not suit goes on to the next. -/
theorem turn_block (h : Tiled hp e s z.blocks)
    (hs : suits size (z.off, z.mid) = false) :
    (nextFitTurn size (hp + 8 + z.off)).run s
      = .ok (.inr (hp + 8 + z.off + z.mid.size)) s := by
  have hfits := @fits_ok hp e size s z h
  rw [hs] at hfits
  unfold nextFitTurn
  rw [bind_ok (eb_block h), if_neg (by decide), bind_ok hfits,
    if_neg (by decide), bind_ok (nextBlkp_ok h)]
  rfl

/-- A turn at the break goes back to the prologue. -/
theorem turn_brk (h : Tiled hp e s bs) (he : e / 8 = 0)
    (hl : s.heapListp = hp) :
    (nextFitTurn size s.memBrk).run s = .ok (.inr hp) s := by
  unfold nextFitTurn
  rw [bind_ok (eb_brk h he), if_pos rfl, bind_ok (run_get s), hl]
  rfl

/-- A turn at the prologue goes on to the first block. -/
theorem turn_pro (h : Tiled hp e s bs) :
    (nextFitTurn size hp).run s = .ok (.inr (hp + 8)) s := by
  unfold nextFitTurn
  rw [bind_ok (eb_pro h), if_neg (by decide), bind_ok (fits_pro h),
    if_neg (by decide), bind_ok (next_pro h)]
  rfl

/-- The addresses of the blocks `bs`, the first one at `p`. -/
def addrs (p : Nat) (bs : List Blk) : List Nat := (placed p bs).map Prod.fst

/-- Blocks that do not suit are passed. -/
theorem passes_blocks {l xs r : List Blk} (h : Tiled hp e s (l ++ xs ++ r))
    (hs : ∀ x ∈ placed (total l) xs, suits size x = false) :
    Passes s size (hp + 8 + total l) (addrs (hp + 8 + total l) xs)
      (hp + 8 + total (l ++ xs)) := by
  induction xs generalizing l with
  | nil =>
      rw [List.append_nil]
      exact Passes.stop
  | cons b xs ih =>
      have hz : Tiled hp e s (Zip.blocks ⟨l, b, xs ++ r⟩) := by
        simpa [Zip.blocks] using h
      have hturn : (nextFitTurn size (hp + 8 + total l)).run s
          = .ok (.inr (hp + 8 + total l + b.size)) s :=
        turn_block (z := ⟨l, b, xs ++ r⟩) hz
          (hs (total l, b) List.mem_cons_self)
      have htotal : total (l ++ [b]) = total l + b.size := by
        rw [total_append, total_cons, total_nil, Nat.add_zero]
      have hrest := ih (l := l ++ [b]) (by simpa using h) fun x hx => by
        rw [htotal] at hx
        exact hs x (List.mem_cons_of_mem _ hx)
      rw [htotal, ← Nat.add_assoc,
        show l ++ [b] ++ xs = l ++ b :: xs by simp] at hrest
      exact Passes.step hturn hrest

/-- The places the rover comes past on a round, with the blocks `l` up to
the rover and the blocks `r` after it: the blocks after it, the break,
the prologue and the blocks up to it. -/
def places (hp : Nat) (l r : List Blk) : List Nat :=
  addrs (hp + 8 + total l) r
    ++ (hp + 8 + total (l ++ r)) :: hp :: addrs (hp + 8) l

/-- A round starts after the rover and does not come there again. -/
theorem places_head (hp : Nat) (l r : List Blk) :
    ∃ rest, places hp l r = (hp + 8 + total l) :: rest ∧
      ∀ v ∈ rest, v ≠ hp + 8 + total l := by
  have hlow : ∀ v ∈ hp :: addrs (hp + 8) l, v ≠ hp + 8 + total l := by
    intro v hv
    rcases List.mem_cons.1 hv with rfl | hv
    · omega
    · obtain ⟨⟨q, b⟩, hq, rfl⟩ := List.mem_map.1 hv
      have := placed_bounds hq
      have := b.pos
      simp only
      omega
  cases r with
  | nil => exact ⟨_, by simp [places, addrs], hlow⟩
  | cons b r =>
      refine ⟨_, rfl, fun v hv => ?_⟩
      have hb := b.pos
      rcases List.mem_append.1 hv with hv | hv
      · obtain ⟨⟨q, c⟩, hq, rfl⟩ := List.mem_map.1 hv
        have := placed_bounds hq
        simp only
        omega
      · rcases List.mem_cons.1 hv with rfl | hv
        · rw [total_append, total_cons]
          omega
        · exact hlow v hv

theorem places_length (hp : Nat) (l r : List Blk) :
    (places hp l r).length = (l ++ r).length + 2 := by
  simp [places, addrs]
  omega

variable {l r : List Blk}

/-- The search ends at the first place of its round that suits. -/
theorem nextFit_found (h : Tiled hp e s (l ++ r))
    (hcur : (nextBlkp s.heapCurp).run s = .ok (hp + 8 + total l) s)
    (hz : z.blocks = l ++ r) (hs : suits size (z.off, z.mid) = true)
    {vs ws : List Nat} (hsplit : places hp l r = vs ++ (hp + 8 + z.off) :: ws)
    (hpass : Passes s size (hp + 8 + total l) vs (hp + 8 + z.off)) :
    (Model.Implicit.nextFit size).run s
      = (place (hp + 8 + z.off) size).run s := by
  obtain ⟨rest, hrest, hnot⟩ := places_head hp l r
  have hlen := congrArg List.length hsplit
  rw [places_length] at hlen
  simp only [List.length_append, List.length_cons] at hlen
  have hfuel := rounds_lt h
  rw [List.length_append] at hfuel
  obtain ⟨fuel, hf⟩ : ∃ f, loopFuel = vs.length + (f + 1) :=
    ⟨loopFuel - vs.length - 1, by omega⟩
  rw [hrest] at hsplit
  have hloop := passes_loop hpass (fun v hv => by
    cases vs with
    | nil => cases hv
    | cons w vs =>
        injection hsplit with _ htail
        refine hnot v ?_
        rw [htail]
        exact List.mem_append_left _ hv) (fun hne => by
    cases vs with
    | nil => exact absurd rfl hne
    | cons w vs =>
        injection hsplit with _ htail
        refine hnot _ ?_
        rw [htail]
        simp) (fuel + 1)
  rw [← hz] at h
  unfold Model.Implicit.nextFit
  rw [bind_ok (run_get s), bind_ok hcur, hf, hloop]
  exact nextFitLoop_found h hs _ fuel

/-- The blocks before the first one that suits do not. -/
theorem find_placed {f : Nat × Blk → Bool} {p : Nat} {x : Nat × Blk}
    (h : (placed p bs).find? f = some x) :
    ∃ xs b ys, bs = xs ++ b :: ys ∧ x = (p + total xs, b) ∧
      (∀ y ∈ placed p xs, f y = false) ∧ f x = true := by
  induction bs generalizing p with
  | nil => cases h
  | cons b bs ih =>
      rw [placed_cons, List.find?_cons] at h
      cases hf : f (p, b) with
      | true =>
          rw [hf] at h
          cases h
          exact ⟨[], b, bs, rfl, rfl, (fun y hy => by cases hy), hf⟩
      | false =>
          rw [hf] at h
          obtain ⟨xs, c, ys, rfl, rfl, hxs, hc⟩ := ih h
          refine ⟨b :: xs, c, ys, rfl, ?_, fun y hy => ?_, hc⟩
          · rw [total_cons, Nat.add_assoc]
          · rcases List.mem_cons.1 hy with rfl | hy
            · exact hf
            · exact hxs y hy

/-- From the first block after the rover to the prologue. -/
theorem passes_up (h : Tiled hp e s (l ++ r)) (he : e / 8 = 0)
    (hl : s.heapListp = hp)
    (hr : ∀ x ∈ placed (total l) r, suits size x = false) :
    Passes s size (hp + 8 + total l)
      (addrs (hp + 8 + total l) r ++ [hp + 8 + total (l ++ r), hp])
      (hp + 8) := by
  have hbrk := h.brk
  have hup := passes_blocks (r := []) (by rw [List.append_nil]; exact h) hr
  have hback : (nextFitTurn size (hp + 8 + total (l ++ r))).run s
      = .ok (.inr hp) s := by
    rw [← hbrk]
    exact turn_brk h he hl
  exact passes_append hup
    (Passes.step hback (Passes.step (turn_pro h) Passes.stop))

/-- No block suits: the round is made, and nothing found. -/
theorem nextFit_none (h : Tiled hp e s (l ++ r)) (he : e / 8 = 0)
    (hl : s.heapListp = hp)
    (hcur : (nextBlkp s.heapCurp).run s = .ok (hp + 8 + total l) s)
    (hnone : (placed (total l) r ++ placed 0 l).find? (suits size) = none) :
    Passes s size (hp + 8 + total l) (places hp l r) (hp + 8 + total l) ∧
      (Model.Implicit.nextFit size).run s = .ok 0 s := by
  have hnot : ∀ x ∈ placed (total l) r ++ placed 0 l,
      suits size x = false := fun x hx => by
    have := List.find?_eq_none.1 hnone x hx
    simpa using this
  have hup := passes_up h he hl
    fun x hx => hnot x (List.mem_append_left _ hx)
  have hdown := @passes_blocks hp e size s [] l r h
    fun x hx => hnot x (List.mem_append_right _ hx)
  rw [List.nil_append, total_nil, Nat.add_zero] at hdown
  have hpass : Passes s size (hp + 8 + total l) (places hp l r)
      (hp + 8 + total l) := by
    have := passes_append hup hdown
    rwa [List.append_assoc] at this
  refine ⟨hpass, ?_⟩
  obtain ⟨rest, hrest, hne⟩ := places_head hp l r
  have hlen := places_length hp l r
  have hfuel := rounds_lt h
  obtain ⟨fuel, hf⟩ : ∃ f, loopFuel = (places hp l r).length + f :=
    ⟨loopFuel - (places hp l r).length, by omega⟩
  unfold Model.Implicit.nextFit
  rw [bind_ok (run_get s), bind_ok hcur, hf]
  refine passes_round hpass (by rw [hrest]; exact List.cons_ne_nil _ _) ?_ fuel
  rw [hrest]
  exact hne

/-- A block suits: the round is made up to the first that does, which is
placed. -/
theorem nextFit_some (h : Tiled hp e s (l ++ r)) (he : e / 8 = 0)
    (hl : s.heapListp = hp)
    (hcur : (nextBlkp s.heapCurp).run s = .ok (hp + 8 + total l) s)
    {x : Nat × Blk}
    (hsome : (placed (total l) r ++ placed 0 l).find? (suits size)
      = some x) :
    ∃ vs ws, places hp l r = vs ++ (hp + 8 + x.1) :: ws ∧
      Passes s size (hp + 8 + total l) vs (hp + 8 + x.1) ∧
      (Model.Implicit.nextFit size).run s
        = (place (hp + 8 + x.1) size).run s := by
  rw [List.find?_append] at hsome
  cases hr : (placed (total l) r).find? (suits size) with
  | some y =>
      -- after the rover
      rw [hr] at hsome
      cases hsome
      obtain ⟨xs, b, ys, rfl, rfl, hxs, hb⟩ := find_placed hr
      have hpass := passes_blocks (l := l) (r := b :: ys)
        (by simpa using h) hxs
      rw [total_append, ← Nat.add_assoc] at hpass
      have hsplit : places hp l (xs ++ b :: ys)
          = addrs (hp + 8 + total l) xs ++ (hp + 8 + (total l + total xs))
            :: (addrs (hp + 8 + (total l + total xs) + b.size) ys
              ++ (hp + 8 + total (l ++ (xs ++ b :: ys)))
                :: hp :: addrs (hp + 8) l) := by
        simp [places, addrs, Nat.add_assoc]
      rw [Nat.add_assoc (hp + 8)] at hpass
      have hoff : Zip.off ⟨l ++ xs, b, ys⟩ = total l + total xs :=
        total_append l xs
      have hfound := @nextFit_found hp e size s ⟨l ++ xs, b, ys⟩ _ _
        h hcur (by simp [Zip.blocks])
      rw [hoff] at hfound
      exact ⟨_, _, hsplit, hpass, hfound hb hsplit hpass⟩
  | none =>
      -- before it
      rw [hr, Option.none_or] at hsome
      obtain ⟨xs, b, ys, rfl, rfl, hxs, hb⟩ := find_placed hsome
      have hnot : ∀ x ∈ placed (total (xs ++ b :: ys)) r,
          suits size x = false := fun x hx => by
        have := List.find?_eq_none.1 hr x hx
        simpa using this
      have hup := passes_up h he hl hnot
      have hdown := passes_blocks (l := []) (r := b :: ys ++ r)
        (by simpa using h) hxs
      rw [List.nil_append, total_nil, Nat.add_zero] at hdown
      have hpass := passes_append hup hdown
      rw [Nat.zero_add]
      have hsplit : places hp (xs ++ b :: ys) r
          = addrs (hp + 8 + total (xs ++ b :: ys)) r
              ++ [hp + 8 + total (xs ++ b :: ys ++ r), hp]
              ++ addrs (hp + 8) xs
            ++ (hp + 8 + total xs)
              :: addrs (hp + 8 + total xs + b.size) ys := by
        simp [places, addrs, Nat.add_assoc]
      have hoff : Zip.off ⟨xs, b, ys ++ r⟩ = total xs := rfl
      have hfound := @nextFit_found hp e size s ⟨xs, b, ys ++ r⟩ _ _
        h hcur (by simp [Zip.blocks])
      rw [hoff] at hfound
      rw [Nat.zero_add] at hb
      exact ⟨_, _, hsplit, hpass, hfound hb hsplit hpass⟩

/-- Where the rover is, the blocks up to it and the blocks after it. -/
theorem rover_split (h : Tiled hp e s bs) {ρ : Nat}
    (hlisted : ρ = 0 ∨ ∃ o b, ρ = o + 8 ∧ (o, b) ∈ placed 0 bs)
    (hcur : s.heapCurp = hp + ρ) :
    ∃ l r, bs = l ++ r ∧ ring ρ bs = placed (total l) r ++ placed 0 l ∧
      (nextBlkp s.heapCurp).run s = .ok (hp + 8 + total l) s := by
  -- the ring is decided by what lies up to the rover
  have hring : ∀ l r, (∀ x ∈ placed 0 l, x.1 + 8 ≤ ρ) → ρ < total l + 8 →
      ring ρ (l ++ r) = placed (total l) r ++ placed 0 l := by
    intro l r hl hr
    have hup : ∀ x ∈ placed (total l) r, ρ < x.1 + 8 := fun x hx => by
      have := (placed_bounds (b := x.2) hx).1
      omega
    have h1 : (placed 0 l).filter (fun x => decide (ρ < x.1 + 8)) = [] :=
      List.filter_eq_nil_iff.2 fun x hx => by
        have := hl x hx
        simp only [decide_eq_true_iff]
        omega
    have h2 : (placed (total l) r).filter
        (fun x => decide (ρ < x.1 + 8)) = placed (total l) r :=
      List.filter_eq_self.2 fun x hx => decide_eq_true (hup x hx)
    have h3 : (placed 0 l).filter (fun x => decide (x.1 + 8 ≤ ρ))
        = placed 0 l :=
      List.filter_eq_self.2 fun x hx => decide_eq_true (hl x hx)
    have h4 : (placed (total l) r).filter
        (fun x => decide (x.1 + 8 ≤ ρ)) = [] :=
      List.filter_eq_nil_iff.2 fun x hx => by
        have := hup x hx
        simp only [decide_eq_true_iff]
        omega
    unfold ring
    rw [placed_append, Nat.zero_add, List.filter_append, List.filter_append,
      h1, h2, h3, h4, List.nil_append, List.append_nil]
  rcases hlisted with rfl | ⟨o, b, rfl, hb⟩
  · refine ⟨[], bs, rfl, hring [] bs (fun x hx => by cases hx) ?_, ?_⟩
    · rw [total_nil]
      omega
    · rw [hcur, total_nil]
      exact next_pro h
  · obtain ⟨⟨l, c, r⟩, rfl, rfl, rfl⟩ := Zip.of_placed hb
    have hsplit : Zip.blocks ⟨l, c, r⟩ = (l ++ [c]) ++ r := by
      simp [Zip.blocks]
    have htotal : total (l ++ [c]) = total l + c.size := by
      rw [total_append, total_cons, total_nil, Nat.add_zero]
    have hc := c.pos
    refine ⟨l ++ [c], r, hsplit, ?_, ?_⟩
    · rw [hsplit]
      refine hring (l ++ [c]) r (fun x hx => ?_) ?_
      · rw [placed_append, Nat.zero_add] at hx
        rcases List.mem_append.1 hx with hx | hx
        · have := (placed_bounds (b := x.2) hx).2.1
          have := x.2.pos
          simp only [Zip.off]
          omega
        · cases List.mem_singleton.1 hx
          exact Nat.le_refl _
      · rw [htotal]
        simp only [Zip.off]
        omega
    · have hnext := nextBlkp_ok h
      rw [hcur, htotal, show hp + (Zip.off ⟨l, c, r⟩ + 8)
        = hp + 8 + Zip.off ⟨l, c, r⟩ by omega, ← Nat.add_assoc]
      exact hnext

variable (size) in
/-- `find_fit` comes to the block its strategy names. -/
theorem findFit_ok {fit : Fit} {A : Heap} (h : Tiled hp e s A.blocks)
    (he : e / 8 = 0) (hl : s.heapListp = hp) (hA : A.Ok fit)
    (hcur : ∀ ρ ∈ A.rover, s.heapCurp = hp + ρ)
    (hrov : fit = .next → A.rover ≠ none) :
    Comes hp s size (A.find fit size) ((findFit fit size).run s) := by
  cases fit with
  | first => exact firstFit_ok h he hl
  | best => exact bestFit_ok h he hl
  | next =>
      cases hr : A.rover with
      | none => exact absurd hr (hrov rfl)
      | some ρ =>
          obtain ⟨l, r, hbs, hring, hnext⟩ :=
            rover_split h (hA.listed ρ hr) (hcur ρ hr)
          rw [hbs] at h
          have hfind : A.find .next size
              = (placed (total l) r ++ placed 0 l).find? (suits size) := by
            unfold Heap.find
            rw [hr, ← hring]
            rfl
          rw [hfind]
          cases hf : (placed (total l) r ++ placed 0 l).find?
              (suits size) with
          | none => exact (nextFit_none h he hl hnext hf).2
          | some x =>
              obtain ⟨-, -, -, -, hrun⟩ := nextFit_some h he hl hnext hf
              exact hrun

end MallocLab.Proofs.Implicit
