/-
`read_trace` stays inside its arrays exactly on orderly files.

The loop is followed line by line against `body`: one turn stores the
line that `body` has next (`turn_line`), so a whole run either stores
all of them, in order from where it stood, or stops at the first one
past the end of the array (`loop_fits`, `loop_overrun`). The induction
is on the fuel, which stays above the length of the text; that is also
why the loop never runs out of it.

The two assertions come after the loop, and speak of the number of
lines and of the largest id allocated. The ids of frees are in neither.
-/
import MallocLab.Spec.Trace
import Mathlib.Data.List.Basic

namespace MallocLab.Proofs.Trace

open Scan Model Spec.Trace

variable {path : String}

-- ============================================================ the body, read

theorem body_eof {index size : Nat} {text : List Char}
    (hw : word text = none) : body index size text = ([], .eof) := by
  rw [body]
  split
  · rfl
  · rename_i h
    rw [hw] at h
    cases h

/-- The body behind a word that is no request, or too long for one. -/
theorem body_long {index size : Nat} {text w rest : List Char} {c : Char}
    (hw : word text = some (c, w, rest)) (hlong : w.length + 1 ≥ maxLine) :
    body index size text = ([], .long) := by
  rw [body]
  split
  · rename_i h
    rw [hw] at h
    cases h
  · rename_i h
    rw [hw] at h
    cases h
    rw [if_pos hlong]

theorem body_bogus {index size : Nat} {text w rest : List Char} {c : Char}
    (hw : word text = some (c, w, rest)) (hlong : ¬ w.length + 1 ≥ maxLine)
    (hq : scanLine c index size rest = none) :
    body index size text = ([], .bogus c) := by
  rw [body]
  split
  · rename_i h
    rw [hw] at h
    cases h
  · rename_i h
    rw [hw] at h
    cases h
    rw [if_neg hlong]
    split
    · rfl
    · rename_i h
      rw [hq] at h
      cases h

/-- The body behind a request line. -/
theorem body_line {index size : Nat} {text w rest rest' : List Char}
    {c : Char} {q : Line} (hw : word text = some (c, w, rest))
    (hlong : ¬ w.length + 1 ≥ maxLine)
    (hq : scanLine c index size rest = some (q, rest')) :
    body index size text = (q :: (body q.index q.size rest').1,
      (body q.index q.size rest').2) := by
  rw [body]
  split
  · rename_i h
    rw [hw] at h
    cases h
  · rename_i h
    rw [hw] at h
    cases h
    rw [if_neg hlong]
    split
    · rename_i h
      rw [hq] at h
      cases h
    · rename_i h
      rw [hq] at h
      cases h
      rfl

/-- The four things a text can start with. -/
theorem text_cases (index size : Nat) (text : List Char) :
    word text = none ∨
    ∃ c w rest, word text = some (c, w, rest) ∧
      (w.length + 1 ≥ maxLine ∨ ¬ w.length + 1 ≥ maxLine ∧
        (scanLine c index size rest = none ∨
          ∃ q rest', scanLine c index size rest = some (q, rest'))) := by
  cases hw : word text with
  | none => exact Or.inl rfl
  | some x =>
      obtain ⟨c, w, rest⟩ := x
      refine Or.inr ⟨c, w, rest, rfl, ?_⟩
      by_cases hlong : w.length + 1 ≥ maxLine
      · exact Or.inl hlong
      · refine Or.inr ⟨hlong, ?_⟩
        cases hq : scanLine c index size rest with
        | none => exact Or.inl rfl
        | some x => exact Or.inr ⟨x.1, x.2, rfl⟩

-- =========================================================== the loop, run

/-- The reader once a line is stored. -/
def Reader.stored (r : Reader) (q : Line) (rest : List Char) : Reader where
  text := rest
  index := q.index
  size := q.size
  maxIndex := q.maxIndex r.maxIndex
  opIndex := r.opIndex + 1
  ops := r.ops.set r.opIndex q.stored

/-- A turn stores the line it reads, if the array has the place. -/
theorem turn_line {r : Reader} {c : Char} {q : Line} {rest : List Char}
    (hq : scanLine c r.index r.size r.text = some (q, rest))
    (hroom : r.opIndex < r.ops.length) (hlen : r.ops.length < 2 ^ 32) :
    r.turn path c = .ok (Reader.stored r q rest) := by
  have hstore : storeOp r.ops r.opIndex q.stored
      = .ok (r.ops.set r.opIndex q.stored) := if_pos hroom
  have hindex : u32 (r.opIndex + 1) = r.opIndex + 1 :=
    Nat.mod_eq_of_lt (by omega)
  unfold Reader.turn
  rw [hq]
  simp only [hstore, hindex]
  rfl

/-- Else it runs past the end of the array. -/
theorem turn_overrun {r : Reader} {c : Char} {q : Line} {rest : List Char}
    (hq : scanLine c r.index r.size r.text = some (q, rest))
    (hroom : ¬ r.opIndex < r.ops.length) :
    r.turn path c = .error (.overrun r.opIndex) := by
  have hstore : storeOp r.ops r.opIndex q.stored
      = .error (.overrun r.opIndex) := if_neg hroom
  unfold Reader.turn
  rw [hq]
  simp only [hstore]
  rfl

/-- A word that is no request ends the program. -/
theorem turn_bogus (path : String) {r : Reader} {c : Char}
    (hq : scanLine c r.index r.size r.text = none) :
    ∃ m, r.turn path c = .error (.exit m) := by
  unfold Reader.turn
  rw [hq]
  exact ⟨_, rfl⟩

theorem loop_eof {r : Reader} {fuel : Nat} (hw : word r.text = none) :
    r.loop path (fuel + 1) = .ok r := by
  unfold Reader.loop
  rw [hw]

theorem loop_long {r : Reader} {fuel : Nat} {c : Char} {w rest : List Char}
    (hw : word r.text = some (c, w, rest))
    (hlong : w.length + 1 ≥ maxLine) :
    r.loop path (fuel + 1) = .error .smash := by
  unfold Reader.loop
  rw [hw]
  exact if_pos hlong

/-- Behind a word the loop takes a turn. -/
theorem loop_turn {r : Reader} {fuel : Nat} {c : Char} {w rest : List Char}
    (hw : word r.text = some (c, w, rest))
    (hlong : ¬ w.length + 1 ≥ maxLine) :
    r.loop path (fuel + 1)
      = (Reader.turn path { r with text := rest } c).bind
          (·.loop path fuel) := by
  conv_lhs => unfold Reader.loop
  rw [hw]
  exact if_neg hlong

/-- A round at a line there is room for. -/
theorem loop_line {r : Reader} {fuel : Nat} {c : Char}
    {w rest rest' : List Char} {q : Line}
    (hw : word r.text = some (c, w, rest))
    (hlong : ¬ w.length + 1 ≥ maxLine)
    (hq : scanLine c r.index r.size rest = some (q, rest'))
    (hroom : r.opIndex < r.ops.length) (hlen : r.ops.length < 2 ^ 32) :
    r.loop path (fuel + 1) = (Reader.stored r q rest').loop path fuel := by
  rw [loop_turn hw hlong,
    turn_line (r := { r with text := rest }) hq hroom hlen]
  rfl

/-- A store leaves the length of the array. -/
theorem stored_length (r : Reader) (q : Line) (rest : List Char) :
    (Reader.stored r q rest).ops.length = r.ops.length := List.length_set

/-- The text is at its end before the loop is out of fuel. -/
theorem loop_ends (path : String) {fuel : Nat} {r : Reader}
    (hfuel : r.text.length < fuel) : r.loop path fuel ≠ .error .spin := by
  induction fuel generalizing r with
  | zero => omega
  | succ fuel ih =>
      rcases text_cases r.index r.size r.text with
        hw | ⟨c, w, rest, hw, hlong | ⟨hlong, hq | ⟨q, rest', hq⟩⟩⟩
      · rw [loop_eof hw]
        exact fun h => (by cases h)
      · rw [loop_long hw hlong]
        exact fun h => (by cases h)
      · obtain ⟨m, hm⟩ := turn_bogus path
          (r := { r with text := rest }) hq
        rw [loop_turn hw hlong, hm]
        exact fun h => (by cases h)
      · have hword := word_length hw
        have hline := scanLine_length hq
        rw [loop_turn hw hlong]
        unfold Reader.turn storeOp
        rw [hq]
        by_cases hroom : r.opIndex < r.ops.length
        · simp only [if_pos hroom]
          exact ih (show rest'.length < fuel by omega)
        · simp only [if_neg hroom]
          exact fun h => (by cases h)

/-- What a run of the loop has made of `r` once it stored `qs`. -/
structure Filled (r r' : Reader) (qs : List Line) : Prop where
  opIndex : r'.opIndex = r.opIndex + qs.length
  maxIndex : r'.maxIndex = max r.maxIndex (highest qs)
  ops : r'.ops = r.ops.take r.opIndex ++ qs.map Line.stored
    ++ r.ops.drop (r.opIndex + qs.length)

theorem filled_nil (r : Reader) : Filled r r [] where
  opIndex := rfl
  maxIndex := by simp [highest]
  ops := by simp

/-- `max_index` is the larger of what it was and of what the line
allocates. -/
theorem maxIndex_highest (q : Line) (qs : List Line) (m : Nat) :
    max (q.maxIndex m) (highest qs) = max m (highest (q :: qs)) := by
  rw [highest]
  unfold Line.maxIndex
  by_cases hfree : q.type = .free
  · rw [if_pos hfree, if_pos hfree]
  · rw [if_neg hfree, if_neg hfree]
    split <;> omega

/-- One line more in front. -/
theorem Filled.cons {r r' : Reader} {q : Line} {qs : List Line}
    {rest : List Char} (hroom : r.opIndex < r.ops.length)
    (h : Filled (Reader.stored r q rest) r' qs) : Filled r r' (q :: qs) where
  opIndex := by
    have := h.opIndex
    simp only [Reader.stored] at this
    rw [this, List.length_cons]
    omega
  maxIndex := by
    have := h.maxIndex
    simp only [Reader.stored] at this
    rw [this, maxIndex_highest]
  ops := by
    have hops := h.ops
    simp only [Reader.stored] at hops
    have htake : (r.ops.set r.opIndex q.stored).take (r.opIndex + 1)
        = r.ops.take r.opIndex ++ [q.stored] := by
      rw [List.take_add_one, List.getElem?_set_self hroom,
        List.take_set_of_le (Nat.le_refl _)]
      rfl
    have hdrop : (r.ops.set r.opIndex q.stored).drop
        (r.opIndex + 1 + qs.length)
        = r.ops.drop (r.opIndex + (q :: qs).length) := by
      rw [List.drop_set_of_lt (by omega), List.length_cons]
      congr 1
      omega
    rw [hops, htake, hdrop]
    simp

/-- A file with more lines than the array has places left runs past its
end, at the first place it does not have. -/
theorem loop_overrun {fuel : Nat} {r : Reader}
    (hfuel : r.text.length < fuel) (hlen : r.ops.length < 2 ^ 32)
    (hle : r.opIndex ≤ r.ops.length)
    (hmany : r.ops.length
      < r.opIndex + (body r.index r.size r.text).1.length) :
    r.loop path fuel = .error (.overrun r.ops.length) := by
  induction fuel generalizing r with
  | zero => omega
  | succ fuel ih =>
      rcases text_cases r.index r.size r.text with
        hw | ⟨c, w, rest, hw, hlong | ⟨hlong, hq | ⟨q, rest', hq⟩⟩⟩
      · rw [body_eof hw, List.length_nil] at hmany
        omega
      · rw [body_long hw hlong, List.length_nil] at hmany
        omega
      · rw [body_bogus hw hlong hq, List.length_nil] at hmany
        omega
      · rw [body_line hw hlong hq, List.length_cons] at hmany
        by_cases hroom : r.opIndex < r.ops.length
        · have hword := word_length hw
          have hline := scanLine_length hq
          have hset := stored_length r q rest'
          rw [loop_line hw hlong hq hroom hlen, ← hset]
          apply ih
          · show rest'.length < fuel
            omega
          · rw [hset]
            exact hlen
          · rw [hset]
            exact hroom
          · rw [hset]
            simp only [Reader.stored]
            omega
        · rw [loop_turn hw hlong,
            turn_overrun (r := { r with text := rest }) hq hroom,
            show r.ops.length = r.opIndex by omega]
          rfl

/-- A file with no more lines than that has them all stored, if it ends
with them; else the program ends behind them. -/
theorem loop_fits {fuel : Nat} {r : Reader}
    (hfuel : r.text.length < fuel) (hlen : r.ops.length < 2 ^ 32)
    (hfew : r.opIndex + (body r.index r.size r.text).1.length
      ≤ r.ops.length) :
    ((body r.index r.size r.text).2 = .eof → ∃ r',
      r.loop path fuel = .ok r' ∧
        Filled r r' (body r.index r.size r.text).1) ∧
    ((body r.index r.size r.text).2 ≠ .eof →
      r.loop path fuel = .error .smash ∨
        ∃ m, r.loop path fuel = .error (.exit m)) := by
  induction fuel generalizing r with
  | zero => omega
  | succ fuel ih =>
      rcases text_cases r.index r.size r.text with
        hw | ⟨c, w, rest, hw, hlong | ⟨hlong, hq | ⟨q, rest', hq⟩⟩⟩
      · rw [body_eof hw]
        exact ⟨fun _ => ⟨r, loop_eof hw, filled_nil r⟩, fun h => absurd rfl h⟩
      · rw [body_long hw hlong]
        exact ⟨fun h => absurd h (by decide),
          fun _ => Or.inl (loop_long hw hlong)⟩
      · rw [body_bogus hw hlong hq]
        refine ⟨fun h => (by cases h), fun _ => Or.inr ?_⟩
        obtain ⟨m, hm⟩ := turn_bogus path
          (r := { r with text := rest }) hq
        refine ⟨m, ?_⟩
        rw [loop_turn hw hlong, hm]
        rfl
      · rw [body_line hw hlong hq, List.length_cons] at hfew
        rw [body_line hw hlong hq]
        have hword := word_length hw
        have hline := scanLine_length hq
        have hroom : r.opIndex < r.ops.length := by omega
        have hset := stored_length r q rest'
        rw [loop_line hw hlong hq hroom hlen]
        obtain ⟨hend, hstop⟩ := ih (r := Reader.stored r q rest')
          (by
            show rest'.length < fuel
            omega)
          (by
            rw [hset]
            exact hlen)
          (by
            rw [hset]
            simp only [Reader.stored]
            omega)
        refine ⟨fun h => ?_, hstop⟩
        obtain ⟨r', hrun, hfilled⟩ := hend h
        exact ⟨r', hrun, hfilled.cons hroom⟩

-- ========================================================= the whole function

theorem cutInt_bounds (n : Int) : -2 ^ 31 ≤ cutInt n ∧ cutInt n < 2 ^ 31 := by
  unfold cutInt
  rw [Int.bmod_def]
  omega

/-- The header's counts are `int`s. -/
theorem scanHeader_bounds (old : Trace) (text : List Char) :
    let trace := (scanHeader old text).1
    (-2 ^ 31 ≤ trace.numIds ∧ trace.numIds < 2 ^ 31) ∧
      -2 ^ 31 ≤ trace.numOps ∧ trace.numOps < 2 ^ 31 :=
  ⟨cutInt_bounds _, cutInt_bounds _⟩

/-- There is no array of a negative length. -/
theorem sizeT_of_grants {calloc : Calloc} {k size : Nat} {n : Int}
    (hn : -2 ^ 31 ≤ n ∧ n < 2 ^ 31) (hsize : 2 ≤ size)
    (h : calloc.grants k (sizeT n) size = true) :
    0 ≤ n ∧ sizeT n = n.toNat := by
  have hpos : 0 ≤ n := by
    by_contra hneg
    have hbig : 2 ^ 63 ≤ sizeT n := by
      unfold sizeT
      omega
    have hover : 2 ^ 64 ≤ sizeT n * size :=
      Nat.le_trans (by omega) (Nat.mul_le_mul hbig hsize)
    rw [calloc.overflow k _ _ hover] at h
    cases h
  refine ⟨hpos, ?_⟩
  unfold sizeT
  omega

/-- The reader the loop starts with. -/
def Reader.start (trace : Trace) (size : Nat) (text : List Char) : Reader :=
  ⟨text, 0, size, 0, 0,
    List.replicate (sizeT trace.numOps) StoredOp.zero⟩

/-- The loop from there, at a body the array has room for. -/
theorem start_fits (path : String) {trace : Trace} {size : Nat}
    {text : List Char}
    (hlen : (Reader.start trace size text).ops.length < 2 ^ 32)
    (hfit : (body 0 size text).1.length
      ≤ (Reader.start trace size text).ops.length) :
    ((body 0 size text).2 = .eof → ∃ r,
      (Reader.start trace size text).loop path (text.length + 1) = .ok r ∧
        Filled (Reader.start trace size text) r (body 0 size text).1) ∧
    ((body 0 size text).2 ≠ .eof →
      (Reader.start trace size text).loop path (text.length + 1)
        = .error .smash ∨
      ∃ m, (Reader.start trace size text).loop path (text.length + 1)
        = .error (.exit m)) :=
  loop_fits (r := Reader.start trace size text) (Nat.lt_succ_self _) hlen
    ((Nat.zero_add _).trans_le hfit)

/-- And at one it has not. -/
theorem start_overrun {trace : Trace} {size : Nat} {text : List Char}
    (hlen : (Reader.start trace size text).ops.length < 2 ^ 32)
    (hfit : (Reader.start trace size text).ops.length
      < (body 0 size text).1.length) :
    (Reader.start trace size text).loop path (text.length + 1)
      = .error (.overrun (Reader.start trace size text).ops.length) :=
  loop_overrun (r := Reader.start trace size text) (Nat.lt_succ_self _) hlen
    (Nat.zero_le _) (hfit.trans_eq (Nat.zero_add _).symm)

/-- The two assertions behind the loop. -/
def finish (trace : Trace) (r : Reader) : Except Quit Trace :=
  if r.maxIndex ≠ cutUnsigned (trace.numIds - 1) then .error .abort
  else if cutUnsigned trace.numOps ≠ r.opIndex then .error .abort
  else .ok { trace with ops := r.ops }

/-- Without the arrays the program ends before the loop. -/
theorem readTrace_refused {calloc : Calloc} {old trace : Trace}
    {text rest : List Char} (path : String) (size : Nat)
    (hhead : scanHeader old text = (trace, rest))
    (h : ¬ Granted calloc trace) :
    ∃ m, readTrace calloc path old size text = .error (.exit m) := by
  unfold readTrace
  rw [hhead]
  unfold Granted at h
  cases h0 : calloc.grants 0 (sizeT trace.numOps) 12 with
  | false => exact ⟨_, by simp only [h0]; rfl⟩
  | true =>
      cases h1 : calloc.grants 1 (sizeT trace.numIds) 8 with
      | false => exact ⟨_, by simp only [h0, h1]; rfl⟩
      | true =>
          cases h2 : calloc.grants 2 (sizeT trace.numIds) 8 with
          | false => exact ⟨_, by simp only [h0, h1, h2]; rfl⟩
          | true => exact absurd ⟨h0, h1, h2⟩ h

/-- With them it is the loop and the assertions. -/
theorem readTrace_granted {calloc : Calloc} {old trace : Trace} {size : Nat}
    {text rest : List Char} (hhead : scanHeader old text = (trace, rest))
    (h : Granted calloc trace) :
    readTrace calloc path old size text
      = (Reader.loop path (rest.length + 1)
          (Reader.start trace size rest)).bind (finish trace) := by
  obtain ⟨h0, h1, h2⟩ := h
  unfold readTrace
  rw [hhead]
  simp only [h0, h1, h2]
  rfl

-- ============================================================ the indices

/-- An id read is an `unsigned`. -/
theorem scanLine_index {c : Char} {index size : Nat} {text rest : List Char}
    {q : Line} (hi : index < 2 ^ 32)
    (h : scanLine c index size text = some (q, rest)) : q.index < 2 ^ 32 := by
  have hcut : ∀ n, cutUnsigned n < 2 ^ 32 := fun n => by
    unfold cutUnsigned
    omega
  have htwo : (scanTwo index size text).1 < 2 ^ 32 := by
    unfold scanTwo
    split
    · exact hi
    · exact hcut _
  have hone : (scanOne index text).1 < 2 ^ 32 := by
    unfold scanOne
    split
    · exact hi
    · exact hcut _
  unfold scanLine at h
  split at h
  · cases h
    exact htwo
  · cases h
    exact htwo
  · cases h
    exact hone
  · cases h

/-- So are all of a body. -/
theorem body_index {index size : Nat} {text : List Char}
    (hi : index < 2 ^ 32) :
    ∀ q ∈ (body index size text).1, q.index < 2 ^ 32 := by
  induction hn : text.length using Nat.strong_induction_on
    generalizing index size text with
  | _ n ih =>
      rcases text_cases index size text with
        hw | ⟨c, w, rest, hw, hlong | ⟨hlong, hq | ⟨q, rest', hq⟩⟩⟩
      · simp [body_eof hw]
      · simp [body_long hw hlong]
      · simp [body_bogus hw hlong hq]
      · rw [body_line hw hlong hq]
        have hword := word_length hw
        have hline := scanLine_length hq
        have hqi := scanLine_index hi hq
        intro q' hq'
        rcases List.mem_cons.1 hq' with rfl | hq'
        · exact hqi
        · exact ih rest'.length (by omega) hqi rfl q' hq'

/-- No id allocated is larger than the largest. -/
theorem le_highest {qs : List Line} {q : Line} (hq : q ∈ qs)
    (halloc : q.type ≠ .free) : q.index ≤ highest qs := by
  induction qs with
  | nil => cases hq
  | cons a qs ih =>
      rw [highest]
      rcases List.mem_cons.1 hq with rfl | hq
      · rw [if_neg halloc]
        omega
      · have := ih hq
        split <;> omega

/-- With `n` ids the index a line is stored with is a position exactly if
the one it was read with is below `n`. -/
theorem stored_position {q : Line} {n : Int} (hn : n < 2 ^ 31)
    (hq : q.index < 2 ^ 32) :
    (0 ≤ q.stored.index ∧ q.stored.index < n) ↔ (q.index : Int) < n := by
  have hval : q.stored.index = toInt q.index := by
    simp only [Line.stored]
  rw [hval]
  by_cases hsmall : q.index < 2 ^ 31
  · rw [toInt_of_lt hsmall]
    omega
  · have := toInt_neg (by omega) hq
    omega

/-- On a trace whose largest allocated id is the header's last, all
positions are in the arrays exactly if those of the frees are. -/
theorem positions_iff {qs : List Line} {n : Int} (hn : 0 ≤ n ∧ n < 2 ^ 31)
    (hqs : ∀ q ∈ qs, q.index < 2 ^ 32)
    (htop : highest qs = cutUnsigned (n - 1)) :
    (∀ op ∈ qs.map Line.stored, 0 ≤ op.index ∧ op.index < n) ↔
      n ≠ 0 ∧ ∀ q ∈ qs, q.type = .free → q.index ≤ highest qs := by
  have hall : (∀ op ∈ qs.map Line.stored, 0 ≤ op.index ∧ op.index < n) ↔
      ∀ q ∈ qs, (q.index : Int) < n := by
    rw [List.forall_mem_map]
    exact forall₂_congr fun q hq => stored_position hn.2 (hqs q hq)
  rw [hall]
  unfold cutUnsigned at htop
  constructor
  · intro h
    have hne : n ≠ 0 := by
      rintro rfl
      cases qs with
      | nil => cases htop
      | cons q qs =>
          have := h q List.mem_cons_self
          omega
    refine ⟨hne, fun q hq _ => ?_⟩
    have := h q hq
    omega
  · rintro ⟨hne, hfree⟩ q hq
    have hle : q.index ≤ highest qs := by
      by_cases ht : q.type = .free
      · exact hfree q hq ht
      · exact le_highest hq ht
    omega

-- ================================================================ the theorem

/-- After the loop has stored all lines, the assertions let those traces
pass that are counted right. -/
theorem finish_stays {trace : Trace} {size : Nat} {text : List Char}
    {r : Reader} {qs : List Line}
    (hids : 0 ≤ trace.numIds ∧ trace.numIds < 2 ^ 31)
    (hops : 0 ≤ trace.numOps ∧ trace.numOps < 2 ^ 31)
    (hlen : sizeT trace.numOps = trace.numOps.toNat)
    (hqs : ∀ q ∈ qs, q.index < 2 ^ 32)
    (hr : Filled (Reader.start trace size text) r qs) :
    Stays (finish trace r) ↔
      ((qs.length : Int) = trace.numOps →
        highest qs = cutUnsigned (trace.numIds - 1) →
        trace.numIds ≠ 0 ∧
          ∀ q ∈ qs, q.type = .free → q.index ≤ highest qs) := by
  obtain ⟨hindex, hmax, hstored⟩ := hr
  simp only [Reader.start, Nat.zero_add, Nat.zero_max, List.take_zero,
    List.nil_append, List.drop_replicate, hlen] at hindex hmax hstored
  have hcount : cutUnsigned trace.numOps = r.opIndex ↔
      (qs.length : Int) = trace.numOps := by
    unfold cutUnsigned
    omega
  have habort : Stays (.error .abort) := ⟨fun i h => (by cases h),
    fun t h => (by cases h)⟩
  unfold finish
  by_cases htop : highest qs = cutUnsigned (trace.numIds - 1)
  · rw [if_neg (fun h => h (hmax.trans htop))]
    by_cases hn : (qs.length : Int) = trace.numOps
    · rw [if_neg (fun h => h (hcount.2 hn))]
      have hall : r.ops = qs.map Line.stored := by
        rw [hstored, show trace.numOps.toNat - qs.length = 0 by omega]
        simp
      rw [← positions_iff hids hqs htop, ← hall]
      constructor
      · intro h _ _
        exact h.indices _ rfl
      · intro h
        refine ⟨fun i hi => (by cases hi), fun t ht => ?_⟩
        cases ht
        exact h hn htop
    · rw [if_pos (fun h => hn (hcount.1 h))]
      exact ⟨fun _ h => absurd h hn, fun _ => habort⟩
  · rw [if_pos (fun h => htop (hmax.symm.trans h))]
    exact ⟨fun _ _ h => absurd h htop, fun _ => habort⟩

/-- `read_trace` stays inside the arrays its header sized, and returns
only traces whose ids do, exactly if the body has no more lines than the
header counts and, where the counts it asserts are right, there are ids
and no free names one larger than all allocated. -/
theorem readTrace_stays (calloc : Calloc) (path : String) (old : Trace)
    (size : Nat) (text : List Char) :
    Stays (readTrace calloc path old size text) ↔
      (Granted calloc (scanHeader old text).1 →
        Orderly (scanHeader old text).1
          (body 0 size (scanHeader old text).2)) := by
  have hbounds := scanHeader_bounds old text
  cases hhead : scanHeader old text with
  | mk trace rest =>
  rw [hhead] at hbounds
  dsimp only at hbounds ⊢
  obtain ⟨hids, hops⟩ := hbounds
  by_cases hg : Granted calloc trace
  · obtain ⟨hops0, hlen⟩ := sizeT_of_grants hops (by decide) hg.1
    obtain ⟨hids0, -⟩ := sizeT_of_grants hids (by decide) hg.2.1
    have harray : (Reader.start trace size rest).ops.length
        = trace.numOps.toNat := by
      simp [Reader.start, hlen]
    rw [readTrace_granted hhead hg]
    by_cases hfit : (body 0 size rest).1.length ≤ trace.numOps.toNat
    · obtain ⟨hend, hstop⟩ := start_fits path (by omega)
        (hfit.trans_eq harray.symm)
      by_cases he : (body 0 size rest).2 = .eof
      · obtain ⟨r, hrun, hfilled⟩ := hend he
        have hfin := finish_stays ⟨hids0, hids.2⟩ ⟨hops0, hops.2⟩ hlen
          (body_index (Nat.two_pow_pos 32)) hfilled
        rw [hrun]
        show Stays (finish trace r) ↔ _
        rw [hfin]
        constructor
        · exact fun h _ => ⟨by omega, fun _ => h⟩
        · exact fun h => (h hg).freed he
      · have hstay : Stays ((Reader.loop path (rest.length + 1)
            (Reader.start trace size rest)).bind (finish trace)) := by
          rcases hstop he with hrun | ⟨m, hrun⟩
          all_goals
            rw [hrun]
            exact ⟨fun i h => (by cases h), fun t h => (by cases h)⟩
        exact ⟨fun _ _ => ⟨by omega, fun h => absurd h he⟩, fun _ => hstay⟩
    · rw [start_overrun (by omega) (harray.trans_lt (Nat.lt_of_not_le hfit))]
      constructor
      · exact fun h => absurd rfl (h.stores _)
      · intro h
        have := (h hg).fits
        omega
  · obtain ⟨m, hm⟩ := readTrace_refused path size hhead hg
    rw [hm]
    exact ⟨fun _ h => absurd h hg, fun _ => ⟨fun i h => (by cases h),
      fun t h => (by cases h)⟩⟩

/-- Memory for every array a `size_t` can size. -/
def ample : Calloc where
  grants _ n size := decide (n * size < 2 ^ 64)
  overflow _ _ _ h := decide_eq_false (Nat.not_lt.2 h)

/-- Two files it does not stay inside on: one with two lines where the
header counts one, which runs past `trace->ops`, and one whose free names
an id the header does not have, which is returned. -/
theorem readTrace_astray :
    ¬ Stays (readTrace ample "" ⟨0, 0, 0, 0, []⟩ 0
      "0\n1\n1\n0\na 0 8\nf 0\n".toList) ∧
    ¬ Stays (readTrace ample "" ⟨0, 0, 0, 0, []⟩ 0
      "0\n1\n2\n0\na 0 8\nf 7\n".toList) := by
  have hmany : readTrace ample "" ⟨0, 0, 0, 0, []⟩ 0
      "0\n1\n1\n0\na 0 8\nf 0\n".toList = .error (.overrun 1) := by
    decide +kernel
  have hfree : readTrace ample "" ⟨0, 0, 0, 0, []⟩ 0
      "0\n1\n2\n0\na 0 8\nf 7\n".toList
        = .ok ⟨0, 1, 2, 0, [⟨.alloc, 0, 8⟩, ⟨.free, 7, 0⟩]⟩ := by
    decide +kernel
  rw [hmany, hfree]
  constructor
  · exact fun h => h.stores 1 rfl
  · intro h
    have hlast := h.indices _ rfl ⟨.free, 7, 0⟩ (by decide)
    exact absurd hlast.2 (by decide)

/-- It returns or quits: the loop does not run on. -/
theorem readTrace_ends (calloc : Calloc) (path : String) (old : Trace)
    (size : Nat) (text : List Char) :
    readTrace calloc path old size text ≠ .error .spin := by
  cases hhead : scanHeader old text with
  | mk trace rest =>
  by_cases hg : Granted calloc trace
  · have hends := loop_ends path
      (r := Reader.start trace size rest) (Nat.lt_succ_self _)
    rw [readTrace_granted hhead hg]
    cases hrun : (Reader.start trace size rest).loop path
        (rest.length + 1) with
    | ok r =>
        show finish trace r ≠ _
        unfold finish
        split
        · exact fun h => (by cases h)
        · split <;> exact fun h => (by cases h)
    | error e =>
        rintro h
        cases h
        exact hends hrun
  · obtain ⟨m, hm⟩ := readTrace_refused path size hhead hg
    rw [hm]
    exact fun h => (by cases h)

end MallocLab.Proofs.Trace
