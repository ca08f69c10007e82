/-
What the implicit allocator is for, with no memory in it: a heap is a
list of blocks and a rover. Allocating finds a free block by one of the
three strategies and hands out its front, or puts a new block at the
end; freeing merges; resizing takes the first of five ways that has the
room.

# The exits of realloc

Every way a resize stays near its block is one operation on a cursor:
take in a neighbour or none, then hand out the first bytes (`fill`).
Taking in does nothing where there is no free neighbour, so asking
whether the cursor has the room after taking in is also asking whether
there is a neighbour to take in.

# The rover

A rover position is a distance from the prologue: zero is the prologue
itself, `o + 8` the block at offset `o`. The other two strategies keep
none, and a failed allocation loses it.
-/
import MallocLab.Lib.Owned
import MallocLab.Model.Client

namespace MallocLab.Spec.Implicit

open Blocks Model Model.Implicit

/-- The bytes before the first block: the padding, the prologue and the
word that closes the heap. -/
def lead : Nat := 16

/-- The blocks of the heap, and where the rover is. -/
structure Heap where
  blocks : List Blk
  rover : Option Nat

/-- Move the rover, under the strategy that has one. -/
def Heap.rove (fit : Fit) (r : Option Nat) (A : Heap) : Heap :=
  if fit = .next then { A with rover := r } else A

/-- The heap after initialisation. -/
def Heap.init (fit : Fit) : Heap := Heap.rove fit (some 0) ⟨[], none⟩

/-- The heap `bs` with the rover at the block at offset `o`. -/
def Heap.settle (fit : Fit) (A : Heap) (bs : List Blk) (o : Nat) : Heap :=
  Heap.rove fit (some (o + 8)) { A with blocks := bs }

-- ========================================================= finding a place

/-- A free block with `n` bytes of payload. -/
def suits (n : Nat) (x : Nat × Blk) : Bool :=
  !x.2.used && decide (n ≤ x.2.room)

/-- The first block that suits. -/
def firstFit (bs : List Blk) (n : Nat) : Option (Nat × Blk) :=
  (placed 0 bs).find? (suits n)

/-- The blocks in the order the rover meets them. -/
def ring (r : Nat) (bs : List Blk) : List (Nat × Blk) :=
  (placed 0 bs).filter (fun x => decide (r < x.1 + 8)) ++
    (placed 0 bs).filter fun x => decide (x.1 + 8 ≤ r)

/-- The first block after the rover that suits. -/
def nextFit (r : Nat) (bs : List Blk) (n : Nat) : Option (Nat × Blk) :=
  (ring r bs).find? (suits n)

/-- The better of the best block so far and the block `x`. -/
def better (n : Nat) (best : Option (Nat × Blk)) (x : Nat × Blk) :
    Option (Nat × Blk) :=
  if suits n x && best.all (fun y => decide (x.2.room < y.2.room)) then
    some x
  else best

/-- The first of the smallest blocks that suit. -/
def bestFit (bs : List Blk) (n : Nat) : Option (Nat × Blk) :=
  (placed 0 bs).foldl (better n) none

/-- The block a strategy finds. -/
def Heap.find (fit : Fit) (A : Heap) (n : Nat) : Option (Nat × Blk) :=
  match fit with
  | .first => firstFit A.blocks n
  | .next => A.rover.bind fun r => nextFit r A.blocks n
  | .best => bestFit A.blocks n

-- ========================================================= the operations

/-- The heap without its last block, if that is free. -/
def stem (bs : List Blk) : List Blk :=
  match bs.getLast? with
  | none => bs
  | some t => if t.used then bs else bs.dropLast

/-- A new block of `n` bytes at the end, over a free last block if there
is one. It must reach past the break and not past the storage. -/
def grow (bs : List Blk) (n : Nat) : Option (Nat × List Blk) :=
  if total bs < total (stem bs) + n ∧ lead + total (stem bs) + n ≤ maxHeap
  then some (total (stem bs), stem bs ++ [Blk.of n true])
  else none

/-- The heap with the first `n` bytes of the block at `o` handed out. -/
def fillAt (bs : List Blk) (o n : Nat) : List Blk :=
  match Zip.find? o bs with
  | some z => z.fill n
  | none => bs

/-- Allocate. There is no answer when the rover is lost: the code does
not survive that. -/
def Heap.malloc (fit : Fit) (A : Heap) (n : Nat) :
    Option (Option Nat × Heap) :=
  if n = 0 then some (none, A)
  else if fit = .next ∧ A.rover = none then none
  else match A.find fit (align n) with
    | some x => some (some x.1,
        A.settle fit (fillAt A.blocks x.1 (need n)) x.1)
    | none => match grow A.blocks (need n) with
      | some (o, bs) => some (some o, A.settle fit bs o)
      | none => some (none, A.rove fit none)

/-- Free the block at offset `o`. -/
def Heap.free (fit : Fit) (A : Heap) (o : Nat) : Heap :=
  match Zip.find? o A.blocks with
  | some z => A.settle fit z.merge.blocks z.merge.off
  | none => A

/-- Resize the block under the cursor to `n` bytes in all: in place, over
the next block, past the break, over the previous block, or by moving.
There is no answer when the last block cannot be extended: the code
writes past the storage then. -/
def Heap.resize (fit : Fit) (A : Heap) (z : Zip) (n : Nat) :
    Option (Option Nat × Heap) :=
  if n ≤ z.mid.size then some (some z.off, A.settle fit (z.fill n) z.off)
  else if n ≤ z.absorbNext.mid.size then
    some (some z.off, A.settle fit (z.absorbNext.fill n) z.off)
  else if z.right = [] then
    if lead + z.off + n ≤ maxHeap then
      some (some z.off, A.settle fit (z.left ++ [Blk.of n true]) z.off)
    else none
  else if n ≤ z.absorbPrev.mid.size then
    some (some z.absorbPrev.off,
      A.settle fit (z.absorbPrev.fill n) z.absorbPrev.off)
  else match grow A.blocks n with
    | none => some (none, A)
    | some (q, bs) => some (some q,
        (Heap.free fit { A with blocks := bs } z.off).rove fit
          (some (q + 8)))

/-- The last block reaches past the break, if the storage does. -/
theorem Heap.resize_last {fit : Fit} {A : Heap} {z : Zip} {n : Nat}
    (hmore : z.mid.size < n) (hlast : z.right = []) :
    A.resize fit z n = if lead + z.off + n ≤ maxHeap then
      some (some z.off, A.settle fit (z.left ++ [Blk.of n true]) z.off)
    else none := by
  have habsorb : z.absorbNext = z := by
    rcases z.absorbNext_cases with ⟨-, hw⟩ | ⟨c, r, hr, -, -⟩
    · exact hw
    · rw [hlast] at hr
      cases hr
  unfold Heap.resize
  rw [habsorb, if_neg (by omega), if_neg (by omega), if_pos hlast]

/-- No way to stay is left, nor to make a new block. -/
theorem Heap.resize_none {fit : Fit} {A : Heap} {z : Zip} {n : Nat}
    (hmore : z.mid.size < n) (hmore' : z.absorbNext.mid.size < n)
    (hne : z.right ≠ []) (hmore'' : z.absorbPrev.mid.size < n)
    (hg : grow A.blocks n = none) : A.resize fit z n = some (none, A) := by
  unfold Heap.resize
  rw [if_neg (by omega), if_neg (by omega), if_neg hne, if_neg (by omega),
    hg]

/-- No way to stay is left: a new block, and the old one free. -/
theorem Heap.resize_some {fit : Fit} {A : Heap} {z : Zip} {n q : Nat}
    {bs : List Blk}
    (hmore : z.mid.size < n) (hmore' : z.absorbNext.mid.size < n)
    (hne : z.right ≠ []) (hmore'' : z.absorbPrev.mid.size < n)
    (hg : grow A.blocks n = some (q, bs)) :
    A.resize fit z n = some (some q,
      (Heap.free fit { A with blocks := bs } z.off).rove fit
        (some (q + 8))) := by
  unfold Heap.resize
  rw [if_neg (by omega), if_neg (by omega), if_neg hne, if_neg (by omega),
    hg]

/-- Resize the block at offset `o`. -/
def Heap.realloc (fit : Fit) (A : Heap) (o n : Nat) :
    Option (Option Nat × Heap) :=
  match Zip.find? o A.blocks with
  | none => some (none, A)
  | some z => A.resize fit z (need n)

/-- That is the block under a cursor there. -/
theorem Heap.realloc_at {fit : Fit} {A : Heap} {z : Zip} {o n : Nat}
    (hz : z.blocks = A.blocks) (hzo : z.off = o) :
    A.realloc fit o n = A.resize fit z (need n) := by
  unfold Heap.realloc
  rw [← hz, ← hzo, z.find?_blocks]

-- ============================================================== the client

/-- A block is as big as its size asks for, to the byte. -/
def exact (n : Nat) (b : Blk) : Prop :=
  1 ≤ n ∧ n ≤ 2 ^ 32 ∧ b.room = align n

theorem exact_room (n : Nat) (b : Blk) (h : exact n b) : n ≤ b.room := by
  obtain ⟨hpos, hle, hroom⟩ := h
  have := need_size hpos hle
  omega

/-- The heap and its live allocations: offset and size asked for. -/
structure State where
  heap : Heap
  live : List (Nat × Nat)

/-- The state after an allocation of `n` bytes was answered. -/
def State.enrol (S : State) (n : Nat) (x : Option Nat × Heap) :
    Option Nat × State :=
  match x with
  | (none, A) => (none, ⟨A, S.live⟩)
  | (some o, A) => (some o, ⟨A, S.live ++ [(o, n)]⟩)

/-- The state after a resize of the `i`-th to `n` bytes was answered. -/
def State.resized (S : State) (i n : Nat) (x : Option Nat × Heap) :
    Option Nat × State :=
  match x with
  | (none, A) => (none, ⟨A, S.live⟩)
  | (some o, A) => (some o, ⟨A, S.live.set i (o, n)⟩)

/-- Serve a request: the offset returned, if any, and the new state. -/
def State.serve (fit : Fit) (S : State) : Req → Option (Option Nat × State)
  | .malloc n => (S.heap.malloc fit n).map (S.enrol n)
  | .reallocNull n => (S.heap.malloc fit n).map (S.enrol n)
  | .free i =>
      match S.live[i]? with
      | none => some (none, S)
      | some x => some (none, ⟨S.heap.free fit x.1, S.live.eraseIdx i⟩)
  | .realloc i n =>
      match S.live[i]? with
      | none => some (none, S)
      | some x =>
          if n = 0 then
            some (some x.1, ⟨S.heap.free fit x.1, S.live.eraseIdx i⟩)
          else (S.heap.realloc fit x.1 n).map (S.resized i n)
  | .write _ _ _ => some (none, S)

/-- Serve a list of requests. -/
def State.serveAll (fit : Fit) :
    State → List Req → Option (List (Option Nat) × State)
  | S, [] => some ([], S)
  | S, r :: rs => do
      let (o, S) ← S.serve fit r
      let (os, S) ← S.serveAll fit rs
      return (o :: os, S)

-- =============================================================== the rover

/-- The rover is at the prologue or at a block, if there is one. -/
structure Heap.Ok (fit : Fit) (A : Heap) : Prop where
  listed : ∀ r ∈ A.rover, r = 0 ∨
    ∃ o b, r = o + 8 ∧ (o, b) ∈ placed 0 A.blocks
  idle : fit ≠ .next → A.rover = none

variable {fit : Fit} {A A' : Heap} {z : Zip} {n o : Nat} {bs : List Blk}

@[simp] theorem Heap.rove_blocks (r : Option Nat) :
    (A.rove fit r).blocks = A.blocks := by
  unfold rove
  split <;> rfl

@[simp] theorem Heap.settle_blocks : (A.settle fit bs o).blocks = bs := by
  unfold settle
  rw [rove_blocks]

/-- Under the next-fit strategy the rover is where it was put. -/
theorem Heap.rove_rover (r : Option Nat) (h : fit = .next) :
    (A.rove fit r).rover = r := by
  unfold rove
  rw [if_pos h]

/-- Under the others it is nowhere. -/
theorem Heap.Ok.rove_idle (h : A.Ok fit) (r : Option Nat) :
    fit ≠ .next → (A.rove fit r).rover = none := by
  intro hf
  unfold rove
  rw [if_neg hf]
  exact h.idle hf

/-- Settling finds the rover again. -/
theorem Heap.settle_lost (h : (A.settle fit bs o).rover = none) :
    A.rover = none := by
  unfold settle rove at h
  split at h
  · cases h
  · exact h

/-- The last place the rover is put is where it is. -/
theorem Heap.settle_rove {q : Nat} :
    (A.settle fit bs o).rove fit (some (q + 8)) = A.settle fit bs q := by
  unfold Heap.settle Heap.rove
  split <;> simp_all

theorem Heap.init_ok (fit : Fit) : (Heap.init fit).Ok fit where
  listed := fun r hr => by
    unfold init rove at hr
    split at hr
    · cases hr
      exact Or.inl rfl
    · cases hr
  idle := fun hf => by
    unfold init rove
    rw [if_neg hf]

/-- Settling at a block keeps the rover on the list. -/
theorem Heap.Ok.settle (h : A.Ok fit) {b : Blk}
    (hb : (o, b) ∈ placed 0 bs) : (A.settle fit bs o).Ok fit where
  listed := fun r hr => by
    unfold Heap.settle at hr ⊢
    rw [rove_blocks]
    by_cases hf : fit = .next
    · rw [rove_rover _ hf] at hr
      cases hr
      exact Or.inr ⟨o, b, rfl, hb⟩
    · unfold rove at hr
      rw [if_neg hf] at hr
      rw [h.idle hf] at hr
      cases hr
  idle := fun hf => by
    unfold Heap.settle rove
    rw [if_neg hf]
    exact h.idle hf

/-- So does losing it. -/
theorem Heap.Ok.lose (h : A.Ok fit) : (A.rove fit none).Ok fit where
  listed := fun r hr => by
    by_cases hf : fit = .next
    · rw [rove_rover _ hf] at hr
      cases hr
    · rw [h.rove_idle none hf] at hr
      cases hr
  idle := h.rove_idle none

-- ============================================================ what is found

theorem suits_iff {x : Nat × Blk} :
    suits n x = true ↔ x.2.used = false ∧ n ≤ x.2.room := by
  unfold suits
  simp

theorem mem_ring {r : Nat} {x : Nat × Blk} :
    x ∈ ring r bs ↔ x ∈ placed 0 bs := by
  unfold ring
  rw [List.mem_append, List.mem_filter, List.mem_filter,
    decide_eq_true_iff, decide_eq_true_iff]
  constructor
  · rintro (h | h) <;> exact h.1
  · intro h
    rcases Nat.lt_or_ge r (x.1 + 8) with hr | hr
    · exact Or.inl ⟨h, hr⟩
    · exact Or.inr ⟨h, hr⟩

/-- The best of a list is none of it, or one of it that suits. -/
private theorem foldl_better {xs : List (Nat × Blk)} {x : Nat × Blk}
    {best : Option (Nat × Blk)} (h : xs.foldl (better n) best = some x) :
    best = some x ∨ (x ∈ xs ∧ suits n x = true) := by
  induction xs generalizing best with
  | nil => exact Or.inl h
  | cons y ys ih =>
      rcases ih h with hy | ⟨hx, hs⟩
      · unfold better at hy
        split at hy
        · rename_i hc
          cases hy
          rw [Bool.and_eq_true] at hc
          exact Or.inr ⟨List.mem_cons_self, hc.1⟩
        · exact Or.inl hy
      · exact Or.inr ⟨List.mem_cons_of_mem y hx, hs⟩

/-- The best of a list with one that suits is not none. -/
private theorem foldl_better_none {xs : List (Nat × Blk)}
    {best : Option (Nat × Blk)} (h : xs.foldl (better n) best = none) :
    best = none ∧ ∀ x ∈ xs, suits n x = false := by
  induction xs generalizing best with
  | nil => exact ⟨h, fun x hx => by cases hx⟩
  | cons y ys ih =>
      obtain ⟨hbest, hys⟩ := ih h
      unfold better at hbest
      split at hbest
      · cases hbest
      · rename_i hc
        subst hbest
        have hy : suits n y = false := by simpa using hc
        refine ⟨rfl, fun x hx => ?_⟩
        rcases List.mem_cons.1 hx with rfl | hx
        · exact hy
        · exact hys x hx

/-- A strategy that finds nothing has missed nothing. -/
theorem Heap.find_none (h : A.find fit n = none)
    (hrov : fit = .next → A.rover ≠ none) {x : Nat × Blk}
    (hx : x ∈ placed 0 A.blocks) : suits n x = false := by
  cases fit with
  | first => simpa using List.find?_eq_none.1 h x hx
  | best => exact (foldl_better_none h).2 x hx
  | next =>
      obtain ⟨r, hr⟩ := Option.ne_none_iff_exists'.1 (hrov rfl)
      have hring : nextFit r A.blocks n = none := by
        unfold Heap.find at h
        rwa [hr] at h
      simpa using List.find?_eq_none.1 hring x (mem_ring.2 hx)

/-- What a strategy finds is a free block with the room. -/
theorem Heap.find_spec {x : Nat × Blk} (h : A.find fit n = some x) :
    x ∈ placed 0 A.blocks ∧ x.2.used = false ∧ n ≤ x.2.room := by
  cases fit with
  | first =>
      exact ⟨List.mem_of_find?_eq_some h, suits_iff.1 (List.find?_some h)⟩
  | next =>
      obtain ⟨r, -, hr⟩ := Option.bind_eq_some_iff.1 h
      exact ⟨mem_ring.1 (List.mem_of_find?_eq_some hr),
        suits_iff.1 (List.find?_some hr)⟩
  | best =>
      rcases foldl_better h with hc | ⟨hx, hs⟩
      · cases hc
      · exact ⟨hx, suits_iff.1 hs⟩

/-- Which of the candidates `cs` a strategy takes: the lowest one, the
lowest of the smallest, or the first one met going up from the place
`c` and round again from the bottom. -/
def Choice (fit : Fit) (c : Nat) (cs : List (Nat × Blk)) (x : Nat × Blk) :
    Prop :=
  match fit with
  | .first => ∀ y ∈ cs, x.1 ≤ y.1
  | .best => ∀ y ∈ cs,
      x.2.room < y.2.room ∨ (x.2.room = y.2.room ∧ x.1 ≤ y.1)
  | .next => ∀ y ∈ cs, (c < x.1 ∧ (c < y.1 → x.1 ≤ y.1)) ∨
      (x.1 ≤ c ∧ y.1 ≤ c ∧ x.1 ≤ y.1)

/-- What is found first in a list of rising addresses is lowest. -/
private theorem find_lowest {xs : List (Nat × Blk)} {x y : Nat × Blk}
    {f : Nat × Blk → Bool} (hs : xs.Pairwise fun x y => x.1 ≤ y.1)
    (h : xs.find? f = some x) (hy : y ∈ xs) (hf : f y = true) :
    x.1 ≤ y.1 := by
  induction xs with
  | nil => cases hy
  | cons c cs ih =>
      obtain ⟨hc, hcs⟩ := List.pairwise_cons.1 hs
      rw [List.find?_cons] at h
      split at h
      · cases h
        rcases List.mem_cons.1 hy with rfl | hy
        · exact Nat.le_refl _
        · exact hc y hy
      · rename_i hfc
        rcases List.mem_cons.1 hy with rfl | hy
        · rw [hf] at hfc
          cases hfc
        · exact ih hcs h hy

private theorem placed_rising (p : Nat) (bs : List Blk) :
    (placed p bs).Pairwise fun x y => x.1 ≤ y.1 :=
  (placed_pairwise p bs).imp fun {x y} h => by omega

/-- The best of a list is no larger than any that suits, and lower than
those of its size. The best so far lies below the list. -/
private theorem foldl_better_least {xs : List (Nat × Blk)}
    {best : Option (Nat × Blk)} {x : Nat × Blk}
    (hs : xs.Pairwise fun x y => x.1 ≤ y.1)
    (hbest : ∀ b ∈ best, ∀ y ∈ xs, b.1 ≤ y.1)
    (h : xs.foldl (better n) best = some x) :
    (∀ b ∈ best, x = b ∨ x.2.room < b.2.room) ∧
      ∀ y ∈ xs, suits n y = true →
        x.2.room < y.2.room ∨ (x.2.room = y.2.room ∧ x.1 ≤ y.1) := by
  induction xs generalizing best with
  | nil =>
      refine ⟨fun b hb => Or.inl ?_, fun y hy => by cases hy⟩
      have hx : best = some x := h
      rw [hx] at hb
      exact Option.some.inj hb
  | cons c cs ih =>
      obtain ⟨hc, hcs⟩ := List.pairwise_cons.1 hs
      have htail : ∀ b ∈ best, ∀ y ∈ cs, b.1 ≤ y.1 := fun b hb y hy =>
        hbest b hb y (List.mem_cons_of_mem c hy)
      rw [List.foldl_cons] at h
      by_cases hbetter : (suits n c && best.all
          fun y => decide (c.2.room < y.2.room)) = true
      · -- the head is the best so far
        have hnew : better n best c = some c := if_pos hbetter
        rw [hnew] at h
        obtain ⟨hkeep, hrest⟩ := ih hcs (fun b hb => by
          cases hb
          exact hc) h
        have hxc := hkeep c rfl
        refine ⟨fun b hb => Or.inr ?_, fun y hy hsuit => ?_⟩
        · rw [Bool.and_eq_true] at hbetter
          have hlt := hbetter.2
          rw [show best = some b from hb] at hlt
          have : c.2.room < b.2.room := by simpa using hlt
          rcases hxc with rfl | hxc
          · exact this
          · omega
        · rcases List.mem_cons.1 hy with rfl | hy
          · rcases hxc with rfl | hxc
            · exact Or.inr ⟨rfl, Nat.le_refl _⟩
            · exact Or.inl hxc
          · exact hrest y hy hsuit
      · have hold : better n best c = best := if_neg hbetter
        rw [hold] at h
        obtain ⟨hkeep, hrest⟩ := ih hcs htail h
        refine ⟨hkeep, fun y hy hsuit => ?_⟩
        rcases List.mem_cons.1 hy with rfl | hy
        · -- passed over: there was a best already, and no larger
          cases hb : best with
          | none =>
              rw [hb, hsuit] at hbetter
              exact absurd rfl hbetter
          | some b =>
              rw [hb, hsuit] at hbetter
              have hle : ¬ y.2.room < b.2.room := by simpa using hbetter
              have hlow := hbest b hb y List.mem_cons_self
              rcases hkeep b hb with rfl | hlt
              · by_cases heq : x.2.room = y.2.room
                · exact Or.inr ⟨heq, hlow⟩
                · exact Or.inl (by omega)
              · exact Or.inl (by omega)
        · exact hrest y hy hsuit

/-- A strategy finds its choice among the blocks that suit, wherever the
heap is laid: the prologue at `d`, the rover that far on. -/
theorem Heap.find_choice {x : Nat × Blk} (d : Nat) {c : Nat}
    (hc : ∀ r ∈ A.rover, c = d + r) (h : A.find fit n = some x) :
    Choice fit c ((placed (d + 8) A.blocks).filter (suits n))
      (d + 8 + x.1, x.2) := by
  -- a candidate, seen from the first block
  have hmem : ∀ {y}, y ∈ (placed (d + 8) A.blocks).filter (suits n) →
      ∃ o, y.1 = d + 8 + o ∧ (o, y.2) ∈ placed 0 A.blocks ∧
        suits n (o, y.2) = true := by
    intro y hy
    obtain ⟨hpl, hs⟩ := List.mem_filter.1 hy
    obtain ⟨o, ho, h0⟩ := mem_placed_at.1 hpl
    exact ⟨o, by omega, h0, hs⟩
  cases fit with
  | first =>
      intro y hy
      obtain ⟨o, ho, hpl, hs⟩ := hmem hy
      have := find_lowest (placed_rising 0 A.blocks) h hpl hs
      simp only at this ⊢
      omega
  | best =>
      intro y hy
      obtain ⟨o, ho, hpl, hs⟩ := hmem hy
      have := (foldl_better_least (placed_rising 0 A.blocks)
        (fun b hb => by cases hb) h).2 _ hpl hs
      simp only at this ⊢
      omega
  | next =>
      intro y hy
      obtain ⟨o, ho, hpl, hs⟩ := hmem hy
      obtain ⟨r, hr, hring⟩ := Option.bind_eq_some_iff.1 h
      have hcr := hc r hr
      unfold nextFit ring at hring
      rw [List.find?_append] at hring
      cases hup : ((placed 0 A.blocks).filter
          fun x => decide (r < x.1 + 8)).find? (suits n) with
      | some x' =>
          rw [hup] at hring
          cases hring
          have hx := List.mem_of_find?_eq_some hup
          rw [List.mem_filter, decide_eq_true_iff] at hx
          refine Or.inl ⟨by simp only; omega, fun hy => ?_⟩
          have := find_lowest ((placed_rising 0 A.blocks).filter _) hup
            (List.mem_filter.2 ⟨hpl, decide_eq_true (by
              show r < o + 8
              omega)⟩) hs
          simp only at this ⊢
          omega
      | none =>
          rw [hup, Option.none_or] at hring
          have hx := List.mem_of_find?_eq_some hring
          rw [List.mem_filter, decide_eq_true_iff] at hx
          have hbelow : o + 8 ≤ r := by
            by_contra hlt
            have := List.find?_eq_none.1 hup _ (List.mem_filter.2
              ⟨hpl, decide_eq_true (by show r < o + 8; omega)⟩)
            exact this hs
          have := find_lowest ((placed_rising 0 A.blocks).filter _) hring
            (List.mem_filter.2 ⟨hpl, decide_eq_true hbelow⟩) hs
          refine Or.inr ⟨?_, ?_, ?_⟩ <;> simp only at this ⊢ <;> omega

/-- What `stem` can do: nothing, or drop a free last block. -/
theorem stem_cases (bs : List Blk) :
    ((∀ t ∈ bs.getLast?, t.used = true) ∧ stem bs = bs) ∨
    ∃ l t, bs = l ++ [t] ∧ t.used = false ∧ stem bs = l := by
  rcases bs.eq_nil_or_concat with rfl | ⟨l, t, rfl⟩
  · exact Or.inl ⟨by simp, rfl⟩
  · cases ht : t.used with
    | true => exact Or.inl ⟨by simp [ht], by simp [stem, ht]⟩
    | false => exact Or.inr ⟨l, t, by simp, ht, by simp [stem, ht]⟩

/-- The blocks in use are in the stem. -/
theorem stem_useds (bs : List Blk) :
    marked true 0 (stem bs) = marked true 0 bs := by
  rcases stem_cases bs with ⟨-, h⟩ | ⟨l, t, rfl, ht, h⟩
  · rw [h]
  · rw [h, marked_append, Nat.zero_add, marked_cons_ne [] (by simp [ht]),
      marked_nil, Set.union_empty]

/-- What growing can do: it takes the stem and adds a block, if that
reaches past the break and stays within the storage. -/
theorem grow_some {bs' : List Blk} (h : grow bs n = some (o, bs')) :
    (total bs < total (stem bs) + n ∧
      lead + total (stem bs) + n ≤ maxHeap) ∧
      o = total (stem bs) ∧ bs' = stem bs ++ [Blk.of n true] := by
  unfold grow at h
  split at h
  case isTrue hc =>
    cases h
    exact ⟨hc, rfl, rfl⟩
  case isFalse => cases h

/-- A block that grows has room for its tags. -/
theorem grow_least {bs' : List Blk} (hn : n % 8 = 0)
    (h : grow bs n = some (o, bs')) : 8 ≤ n := by
  obtain ⟨⟨hpast, -⟩, -⟩ := grow_some h
  have hle : total (stem bs) ≤ total bs := by
    rcases stem_cases bs with ⟨-, hs⟩ | ⟨l, t, rfl, -, hs⟩
    · rw [hs]
    · rw [hs, total_append]
      omega
  omega

theorem grow_none (h : grow bs n = none) :
    ¬ (total bs < total (stem bs) + n ∧
      lead + total (stem bs) + n ≤ maxHeap) := by
  unfold grow at h
  split at h
  case isTrue => cases h
  case isFalse hc => exact hc

-- ======================================================= what is in use

/-- Growing puts one new block in use. -/
theorem grow_useds {bs' : List Blk} (h : grow bs n = some (o, bs')) :
    (∀ c, (o, c) ∉ marked true 0 bs) ∧ marked true 0 bs'
      = insert (o, Blk.of n true) (marked true 0 bs) := by
  obtain ⟨-, ho, hbs⟩ := grow_some h
  subst ho hbs
  refine ⟨fun c hc => ?_, ?_⟩
  · rw [← stem_useds] at hc
    have := placed_bounds hc.1
    have := c.pos
    omega
  · rw [marked_append, Nat.zero_add, marked_cons_eq _ (by simp),
      marked_nil, stem_useds, Set.union_insert, Set.union_empty]

/-- It lies behind the blocks in use. -/
theorem grow_above {bs' : List Blk} (h : grow bs n = some (o, bs'))
    {y : Nat × Blk} (hy : y ∈ marked true 0 bs) : y.1 + y.2.size ≤ o := by
  obtain ⟨-, ho, -⟩ := grow_some h
  rw [← stem_useds] at hy
  have := placed_bounds hy.1
  omega

/-- A block in use is where it was in the grown heap, with what was in use
beside it. -/
theorem grow_cursor {bs' : List Blk} {z : Zip}
    (h : grow z.blocks n = some (o, bs')) (hu : z.mid.used = true) :
    ∃ w : Zip, w.blocks = bs' ∧ w.off = z.off ∧ w.mid = z.mid ∧
      z.sides true ⊆ w.sides true ∧ z.off + z.mid.size ≤ o := by
  have hmem : (z.off, z.mid) ∈ marked true 0 z.blocks :=
    ⟨z.mid_placed, hu⟩
  have huse := (grow_useds h).2
  have hold : (z.off, z.mid) ∈ marked true 0 bs' := by
    rw [huse]
    exact Or.inr hmem
  obtain ⟨w, hwb, hwo, hwm⟩ := Zip.of_placed hold.1
  refine ⟨w, hwb, hwo, hwm, ?_, grow_above h hmem⟩
  rw [← Zip.sides_diff hu, ← Zip.sides_diff (by rw [hwm]; exact hu), hwb,
    hwo, hwm, huse]
  exact Set.sdiff_subset_sdiff_left (Set.subset_insert _ _)

/-- The block a size asks for. -/
theorem exact_of {size : Nat} (h : 1 ≤ size) (h' : size ≤ 2 ^ 32) :
    exact size (Blk.of (need size) true) := by
  obtain ⟨hn, hn', -⟩ := need_size h h'
  refine ⟨h, h', ?_⟩
  have := Blk.of_size true hn (by omega)
  unfold Blk.room
  rw [this]
  unfold need
  omega

theorem fillAt_blocks (z : Zip) (n : Nat) :
    fillAt z.blocks z.off n = z.fill n := by
  unfold fillAt
  rw [z.find?_blocks]

/-- A found block, its first bytes handed out. -/
theorem fillAt_useds {x : Nat × Blk} {size : Nat} (h : 1 ≤ size)
    (h' : size ≤ 2 ^ 32) (hx : x ∈ placed 0 bs)
    (hfree : x.2.used = false) (hroom : align size ≤ x.2.room) :
    (∀ c, (x.1, c) ∉ marked true 0 bs) ∧
      marked true 0 (fillAt bs x.1 (need size))
        = insert (x.1, Blk.of (need size) true) (marked true 0 bs) := by
  obtain ⟨hn, hn', -⟩ := need_size h h'
  obtain ⟨o, b⟩ := x
  obtain ⟨z, rfl, rfl, rfl⟩ := Zip.of_placed hx
  have hr := z.mid.room_add
  simp only at hfree hroom
  have hsides : z.sides true = marked true 0 z.blocks :=
    Zip.sides_ne (by simp [hfree])
  rw [fillAt_blocks, ← hsides]
  exact ⟨z.off_not_sides, Zip.fill_useds hn (by omega) (by
    unfold need
    omega)⟩

/-- What an answer leaves of a heap with the blocks `U` in use, apart from
the one the request is about: a block of `n` bytes more, at an offset
where none was, or the blocks as they were. -/
def Leaves (A : Heap) (U : Set (Nat × Blk)) (n : Nat) (A' : Heap) :
    Option Nat → Prop
  | none => A'.blocks = A.blocks
  | some q => (∀ c, (q, c) ∉ U) ∧
      marked true 0 A'.blocks = insert (q, Blk.of n true) U

/-- An allocation puts a block of its size in use. -/
theorem Heap.malloc_spec (hA : A.Ok fit) {size : Nat}
    (h' : size ≤ 2 ^ 32) {a : Option Nat}
    (hm : A.malloc fit size = some (a, A')) : A'.Ok fit ∧
      Leaves A (marked true 0 A.blocks) (need size) A' a := by
  have hplace : ∀ {o bs b U}, marked true 0 bs = insert (o, b) U →
      (o, b) ∈ placed 0 bs := by
    intro o bs b U hU
    have : (o, b) ∈ marked true 0 bs := by
      rw [hU]
      exact Set.mem_insert _ _
    exact this.1
  unfold Heap.malloc at hm
  split at hm
  · cases hm
    exact ⟨hA, rfl⟩
  · have hsize : 1 ≤ size := by omega
    split at hm
    · cases hm
    · split at hm
      · rename_i x hx
        cases hm
        obtain ⟨hpl, hfree, hroom⟩ := Heap.find_spec hx
        obtain ⟨hfresh, huse⟩ := fillAt_useds hsize h' hpl hfree hroom
        refine ⟨hA.settle (hplace huse), hfresh, ?_⟩
        rw [settle_blocks]
        exact huse
      · split at hm
        · rename_i o bs hg
          cases hm
          obtain ⟨hfresh, huse⟩ := grow_useds hg
          refine ⟨hA.settle (hplace huse), hfresh, ?_⟩
          rw [settle_blocks]
          exact huse
        · cases hm
          exact ⟨hA.lose, Heap.rove_blocks none⟩

/-- Freeing takes its block out of use. -/
theorem Heap.free_spec (hA : A.Ok fit) (hz : z.blocks = A.blocks)
    (hu : z.mid.used = true) :
    A.free fit z.off = A.settle fit z.merge.blocks z.merge.off ∧
      (A.free fit z.off).Ok fit ∧
      marked true 0 (A.free fit z.off).blocks
        = marked true 0 A.blocks \ {(z.off, z.mid)} := by
  have hfree : A.free fit z.off
      = A.settle fit z.merge.blocks z.merge.off := by
    unfold Heap.free
    rw [← hz, z.find?_blocks]
  have hpl := z.merge.mid_placed
  rw [hfree, settle_blocks, z.merge_useds, ← hz, Zip.sides_diff hu]
  exact ⟨rfl, hA.settle hpl, rfl⟩

/-- And makes the heap neither longer nor shorter. -/
theorem Heap.free_total (o : Nat) :
    total (A.free fit o).blocks = total A.blocks := by
  unfold Heap.free
  cases hz : Zip.find? o A.blocks with
  | none => rfl
  | some z =>
      rw [← (Zip.find?_some hz).1]
      simp only [settle_blocks]
      exact z.merge_total

/-- Resizing leaves a block of the new size in use instead of the old
one, or fails and leaves the blocks as they were. -/
theorem Heap.resize_spec (hA : A.Ok fit) (hz : z.blocks = A.blocks)
    (hu : z.mid.used = true) (hn : n % 8 = 0) (hn' : 8 ≤ n)
    {a : Option Nat} (hr : A.resize fit z n = some (a, A')) : A'.Ok fit ∧
      Leaves A (marked true 0 A.blocks \ {(z.off, z.mid)}) n A' a := by
  have hdiff : marked true 0 A.blocks \ {(z.off, z.mid)} = z.sides true := by
    rw [← hz]
    exact Zip.sides_diff hu
  rw [hdiff]
  -- a cursor with the same blocks in use beside it, filled
  have hin : ∀ w : Zip, w.sides true = z.sides true → n ≤ w.mid.size →
      (A.settle fit (w.fill n) w.off).Ok fit ∧
        Leaves A (z.sides true) n (A.settle fit (w.fill n) w.off)
          (some w.off) := by
    intro w hw hfit
    have huse := Zip.fill_useds hn hn' hfit
    have hmem : (w.off, Blk.of n true) ∈ marked true 0 (w.fill n) := by
      rw [huse]
      exact Set.mem_insert _ _
    refine ⟨hA.settle hmem.1, fun c => hw ▸ w.off_not_sides c, ?_⟩
    rw [settle_blocks, huse, hw]
  unfold Heap.resize at hr
  split at hr
  · cases hr
    exact hin z rfl (by assumption)
  · split at hr
    · cases hr
      have := hin z.absorbNext z.absorbNext_useds (by assumption)
      rwa [z.absorbNext_off] at this
    · split at hr
      · rename_i hright
        split at hr
        · cases hr
          have hsize := Blk.of_size true hn hn'
          have := hin ⟨z.left, Blk.of n true, []⟩ (by
            unfold Zip.sides
            rw [hright, marked_nil, marked_nil]) (by rw [hsize])
          unfold Zip.fill cut at this
          simp only [hsize, if_true, List.append_nil] at this
          exact this
        · cases hr
      · split at hr
        · cases hr
          exact hin z.absorbPrev z.absorbPrev_useds (by assumption)
        · split at hr
          · cases hr
            exact ⟨hA, rfl⟩
          · rename_i q bs hg
            cases hr
            obtain ⟨hfresh, huse⟩ := grow_useds hg
            have hold : (z.off, z.mid) ∈ marked true 0 bs := by
              rw [huse, ← hz, ← Zip.sides_eq hu]
              exact Or.inr (Set.mem_insert _ _)
            obtain ⟨w, hwb, hwo, hwm⟩ := Zip.of_placed hold.1
            have hne : (q, Blk.of n true) ≠ (z.off, z.mid) := fun he =>
              hfresh z.mid (by
                rw [show q = z.off from congrArg Prod.fst he, ← hz,
                  ← Zip.sides_eq hu]
                exact Set.mem_insert _ _)
            have hfree : Heap.free fit { A with blocks := bs } z.off
                = A.settle fit w.merge.blocks w.merge.off := by
              unfold Heap.free
              rw [← hwb, ← hwo, w.find?_blocks]
              rfl
            have huse' : marked true 0 w.merge.blocks
                = insert (q, Blk.of n true) (z.sides true) := by
              rw [w.merge_useds, ← Zip.sides_diff (by rw [hwm]; exact hu),
                hwb, hwo, hwm, huse, Set.insert_sdiff_of_notMem _
                  (by simpa using hne), hdiff]
            have hmem : (q, Blk.of n true) ∈ marked true 0 w.merge.blocks := by
              rw [huse']
              exact Set.mem_insert _ _
            rw [hfree, Heap.settle_rove]
            refine ⟨hA.settle hmem.1, fun c hc => ?_, ?_⟩
            · rw [← hdiff] at hc
              exact hfresh c hc.1
            · rw [settle_blocks]
              exact huse'

-- ========================================================== the live blocks

/-- Well-formed, and in use exactly what is owned. -/
structure State.Ok (fit : Fit) (S : State) : Prop where
  heap : S.heap.Ok fit
  owned : Owned exact S.live (marked true 0 S.heap.blocks)

variable {S : State} {i : Nat} {x : Nat × Nat} {a : Option Nat}

theorem State.init_ok (fit : Fit) : State.Ok fit ⟨Heap.init fit, []⟩ where
  heap := Heap.init_ok fit
  owned := by
    have hnone : marked true 0 (Heap.init fit).blocks = ∅ := by
      unfold Heap.init
      rw [Heap.rove_blocks]
      exact marked_nil 0
    rw [hnone]
    exact Owned.nil

/-- The cursor on a live allocation's block. -/
theorem State.Ok.cursor (h : S.Ok fit) (hx : S.live[i]? = some x) :
    ∃ z : Zip, z.blocks = S.heap.blocks ∧ z.off = x.1 ∧
      z.mid.used = true ∧ exact x.2 z.mid ∧
      (x.1, z.mid) ∈ marked true 0 S.heap.blocks := by
  obtain ⟨b, hb, hfit⟩ := h.owned.block x (List.mem_of_getElem? hx)
  obtain ⟨z, hzb, hzo, rfl⟩ := Zip.of_placed hb.1
  exact ⟨z, hzb, hzo, hb.2, hfit, hb⟩

/-- An answered allocation keeps the state well-formed. -/
theorem State.Ok.malloc (h : S.Ok fit) (hn : n ≤ 2 ^ 32)
    (hm : S.heap.malloc fit n = some (a, A)) :
    (S.enrol n (a, A)).2.Ok fit := by
  obtain ⟨hA, hleaves⟩ := Heap.malloc_spec h.heap hn hm
  cases a with
  | none =>
      refine ⟨hA, ?_⟩
      show Owned exact S.live (marked true 0 A.blocks)
      rw [show A.blocks = S.heap.blocks from hleaves]
      exact h.owned
  | some o =>
      have hpos : 1 ≤ n := by
        rcases Nat.eq_zero_or_pos n with rfl | hpos
        · unfold Heap.malloc at hm
          rw [if_pos rfl] at hm
          cases hm
        · exact hpos
      obtain ⟨hfresh, huse⟩ := hleaves
      refine ⟨hA, ?_⟩
      show Owned exact (S.live ++ [(o, n)]) (marked true 0 A.blocks)
      rw [huse]
      exact h.owned.enrol hfresh (exact_of hpos hn)

/-- So does the end of an allocation. -/
theorem State.Ok.free (h : S.Ok fit) (hx : S.live[i]? = some x) :
    State.Ok fit ⟨S.heap.free fit x.1, S.live.eraseIdx i⟩ := by
  obtain ⟨z, hzb, hzo, hu, -, hmem⟩ := h.cursor hx
  obtain ⟨-, hok, huse⟩ := Heap.free_spec h.heap hzb hu
  rw [hzo] at hok huse
  refine ⟨hok, ?_⟩
  show Owned exact (S.live.eraseIdx i)
    (marked true 0 (S.heap.free fit x.1).blocks)
  rw [huse]
  exact h.owned.remove hx hmem

/-- So does an answered resize. -/
theorem State.Ok.realloc (h : S.Ok fit) (hx : S.live[i]? = some x)
    (hn : 1 ≤ n) (hn' : n ≤ 2 ^ 32)
    (hr : S.heap.realloc fit x.1 n = some (a, A)) :
    (S.resized i n (a, A)).2.Ok fit := by
  obtain ⟨z, hzb, hzo, hu, -, hmem⟩ := h.cursor hx
  obtain ⟨hsz, hsz', -⟩ := need_size hn hn'
  rw [Heap.realloc_at hzb hzo] at hr
  obtain ⟨hA, hleaves⟩ := Heap.resize_spec h.heap hzb hu hsz (by omega) hr
  rw [hzo] at hleaves
  cases a with
  | none =>
      refine ⟨hA, ?_⟩
      show Owned exact S.live (marked true 0 A.blocks)
      rw [show A.blocks = S.heap.blocks from hleaves]
      exact h.owned
  | some q =>
      obtain ⟨hfresh, huse⟩ := hleaves
      refine ⟨hA, ?_⟩
      show Owned exact (S.live.set i (q, n)) (marked true 0 A.blocks)
      rw [huse]
      exact h.owned.move hx hmem hfresh (exact_of hn hn')

end MallocLab.Spec.Implicit
