/-
What the live allocations of a client are to the heap that serves them,
whichever allocator it is: the blocks in use, seen from the address of
the first block (`Houses`). A memory that keeps payloads keeps the
allocations in them, and allocations in blocks of their own share no
byte.

With it, what a request that needs no allocator comes to: a write of the
client's own, and a request that names no live allocation.
-/
import MallocLab.Lib.Owned
import MallocLab.Proofs.Runs

namespace MallocLab.Proofs

open Mem Blocks Model

/-- A live allocation, by offset, where the client of a heap whose first
block is at `a` sees it. -/
def ownAt (a : Nat) (x : Nat × Nat) : Alloc := ⟨a + x.1, x.2⟩

/-- The live allocations `live` are those of `lv`, and the heap `bs` from
the address `a` has a block of its own for each. -/
structure Houses (fit : Nat → Blk → Prop) (a : Nat) (live : List Alloc)
    (lv : List (Nat × Nat)) (bs : List Blk) : Prop where
  live : live = lv.map (ownAt a)
  owned : Owned fit lv (marked true 0 bs)
  room : ∀ n b, fit n b → n ≤ b.room

variable {fit : Nat → Blk → Prop} {a : Nat} {live : List Alloc}
  {lv : List (Nat × Nat)} {bs : List Blk} {m m' : Bytes} {mode : Mode}
  {s : Machine}

/-- A live allocation is one of the list's. -/
theorem Houses.get (h : Houses fit a live lv bs) (i : Nat) :
    live[i]? = (lv[i]?).map (ownAt a) := by
  rw [h.live, List.getElem?_map]

theorem Houses.live_at (h : Houses fit a live lv bs) {i : Nat}
    {x : Nat × Nat} (hx : lv[i]? = some x) : live[i]? = some (ownAt a x) := by
  rw [h.get, hx]
  rfl

/-- The bytes of a live allocation are payload of its block. -/
theorem Houses.payload_of (h : Houses fit a live lv bs) {j : Nat}
    {x : Nat × Nat} (hx : lv[j]? = some x) {off : Nat} (hoff : off < x.2) :
    ∃ b, (x.1, b) ∈ marked true 0 bs ∧ off < b.room := by
  obtain ⟨b, hb, hfit⟩ := h.owned.block x (List.mem_of_getElem? hx)
  exact ⟨b, hb, Nat.lt_of_lt_of_le hoff (h.room _ _ hfit)⟩

/-- A memory that keeps all payloads keeps all live allocations. -/
theorem Houses.all (h : Houses fit a live lv bs)
    (hm : Set.EqOn m' m (payloadAt a (marked true 0 bs))) :
    ∀ (j : Nat) (b : Alloc), live[j]? = some b →
      ∀ off < b.size, m' (b.ptr + off) = m (b.ptr + off) := by
  intro j b hj off hoff
  rw [h.get] at hj
  obtain ⟨y, hy, rfl⟩ := Option.map_eq_some_iff.1 hj
  obtain ⟨c, hc, hin⟩ := h.payload_of hy hoff
  exact hm ⟨(y.1, c), hc, Nat.le_add_right _ _, Nat.add_lt_add_left hin _⟩

/-- A memory that keeps the payloads beside a live allocation's block
keeps the other live allocations. -/
theorem Houses.others (h : Houses fit a live lv bs) {r : Req} {i : Nat}
    (hi : target r = some i) {x : Nat × Nat} (hx : lv[i]? = some x)
    {z : Zip} (hz : z.blocks = bs) (hzo : z.off = x.1)
    (hu : z.mid.used = true)
    (hm : Set.EqOn m' m (payloadAt a (z.sides true))) :
    ∀ j b, live[j]? = some b → target r ≠ some j →
      ∀ off < b.size, m' (b.ptr + off) = m (b.ptr + off) := by
  intro j b hj hne off hoff
  rw [h.get] at hj
  obtain ⟨y, hy, rfl⟩ := Option.map_eq_some_iff.1 hj
  obtain ⟨c, hc, hin⟩ := h.payload_of hy hoff
  refine hm ⟨(y.1, c), ?_, Nat.le_add_right _ _, Nat.add_lt_add_left hin _⟩
  have hne' : y.1 ≠ x.1 := fun he => hne (by
    rw [hi, h.owned.index_inj hy hx he])
  rw [← Zip.sides_diff hu, hz]
  exact ⟨hc, fun he => hne' (by rw [← hzo]; exact congrArg Prod.fst he)⟩

/-- Live allocations share no byte. -/
theorem Houses.apart (h : Houses fit a live lv bs) :
    live.Pairwise Alloc.Apart := by
  have hown := h.owned.apart fun n b hfit => by
    have := b.room_add
    have := h.room n b hfit
    omega
  rw [h.live, List.pairwise_map]
  refine hown.imp fun {x y} hxy => ?_
  show a + x.1 + x.2 ≤ a + y.1 ∨ a + y.1 + y.2 ≤ a + x.1
  omega

/-- A write of the client's own keeps the other live allocations. -/
theorem Houses.wrote (h : Houses fit a live lv bs) {i off : Nat} (v : UInt8)
    {x : Nat × Nat} (hx : lv[i]? = some x) (hoff : off < x.2) (p : Nat) :
    Preserved live (.write i off v) p m
      (Function.update m (a + x.1 + off) v) := by
  obtain ⟨b, hb, hin⟩ := h.payload_of hx hoff
  refine ⟨fun j c hj hne k hk => ?_, fun _ _ _ he => by cases he⟩
  rw [h.get] at hj
  obtain ⟨y, hy, rfl⟩ := Option.map_eq_some_iff.1 hj
  have hout := h.owned.beside h.room hx hy
    (fun he => hne (congrArg some he)) hb hk
  refine Function.update_of_ne ?_ _ _
  show a + y.1 + k ≠ a + x.1 + off
  omega

-- ========================================================== the requests

/-- A request that names no live allocation changes nothing. -/
theorem serve_idle {r : Req} {i : Nat} (hr : target r = some i)
    (hi : live[i]? = none) :
    (serve mode live r).run s = .ok (0, live) s := by
  cases r with
  | malloc n => cases hr
  | reallocNull n => cases hr
  | free j =>
      cases hr
      simp only [serve, hi]
      rfl
  | realloc j n =>
      cases hr
      simp only [serve, hi]
      rfl
  | write j off v =>
      cases hr
      simp only [serve, hi]
      rfl

/-- `realloc` of a live allocation calls the allocator on its block. -/
theorem serve_realloc_call {i : Nat} {b : Alloc} (hi : live[i]? = some b)
    (n : Nat) :
    (serve mode live (.realloc i n)).run s = (do
      let p ← mmRealloc mode b.ptr n
      return (p, resized live i p n) : M (Nat × List Alloc)).run s := by
  simp only [serve, hi]

/-- A write inside a live allocation writes there. -/
theorem serve_write_in {i off : Nat} (v : UInt8) {b : Alloc}
    (hi : live[i]? = some b) (hoff : off < b.size) :
    (serve mode live (.write i off v)).run s = .ok (0, live)
      { s with mem := Function.update s.mem (b.ptr + off) v } := by
  simp only [serve, hi, if_pos hoff]
  rfl

/-- A write past it is not made. -/
theorem serve_write_past {i off : Nat} (v : UInt8) {b : Alloc}
    (hi : live[i]? = some b) (hoff : ¬ off < b.size) :
    (serve mode live (.write i off v)).run s = .ok (0, live) s := by
  simp only [serve, hi, if_neg hoff]
  rfl

end MallocLab.Proofs
