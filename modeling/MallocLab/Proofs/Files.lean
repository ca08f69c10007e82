/-
`read_trace` and the trace files: it reads from a file the trace the file
says, whatever the variables held before (`reads_said`), and the file
`render` writes says the trace it was written from.

A directive takes one word (`Lib.Scan`), so the loop goes through the
words of a body as `Asked` does, two or three at a time (`body_asked`).
The rest is the counting: the two assertions compare it with the header.
-/
import MallocLab.Proofs.Trace
import MallocLab.Spec.Files
import Mathlib.Tactic.FinCases

namespace MallocLab.Proofs.Trace

open Scan Model Spec.Trace

variable {op : TraceOp} {ops : List TraceOp} {trace : Script}
  {text : List Char} {ws : List (List Char)} {w i n : List Char}
  {index size a k : Nat}

-- ============================================================= the directives

/-- A number of the header. -/
theorem scanInt_word (old : Int) (h : words text = w :: ws)
    (hw : Numeral k w) :
    ∃ text', scanInt old text = (cutInt k, text') ∧ words text' = ws := by
  obtain ⟨text', hd, hws, -⟩ := decimal_cons h hw
  refine ⟨text', ?_, hws⟩
  unfold scanInt
  rw [hd]
  rfl

/-- The id and the size of a request. -/
theorem scanTwo_words (index size : Nat) (h : words text = i :: n :: ws)
    (hi : Numeral a i) (hn : Numeral k n) (ha : a < 2 ^ 32)
    (hk : k < 2 ^ 32) :
    ∃ text', scanTwo index size text = (a, k, text') ∧ words text' = ws := by
  obtain ⟨text₁, hd₁, hws₁, -⟩ := decimal_cons h hi
  rw [← words_skip] at hws₁
  obtain ⟨text₂, hd₂, hws₂, -⟩ := decimal_cons hws₁ hn
  refine ⟨text₂, ?_, hws₂⟩
  unfold scanTwo
  rw [hd₁]
  simp only [hd₂, Option.map_some, Option.getD_some]
  rw [cutUnsigned_of_lt ha, cutUnsigned_of_lt hk]

/-- The id of a free: no `d` follows it in its word. -/
theorem scanOne_word (index : Nat) (h : words text = i :: ws) (hi : Numeral a i)
    (ha : a < 2 ^ 32) :
    ∃ text', scanOne index text = (a, text') ∧ words text' = ws := by
  obtain ⟨text', hd, hws, hparted⟩ := decimal_cons h hi
  refine ⟨text', ?_, hws⟩
  unfold scanOne
  rw [hd]
  have hd : isSpace 'd' = false := by decide
  simp only [literal_parted hparted hd, cutUnsigned_of_lt ha]

/-- A request with a size. -/
theorem scanLine_sized (index size : Nat) {type : OpType} (hne : type ≠ .free)
    (h : words text = i :: n :: ws) (hi : Numeral a i) (hn : Numeral k n)
    (ha : a < 2 ^ 32) (hk : k < 2 ^ 32) :
    ∃ text', scanLine (letter type) index size text
      = some (⟨type, a, k⟩, text') ∧ words text' = ws := by
  obtain ⟨text', htwo, hws⟩ := scanTwo_words index size h hi hn ha hk
  refine ⟨text', ?_, hws⟩
  cases type with
  | free => exact absurd rfl hne
  | alloc =>
      unfold scanLine letter
      simp only [htwo]
  | realloc =>
      unfold scanLine letter
      simp only [htwo]

theorem scanLine_free (index size : Nat) (h : words text = i :: ws)
    (hi : Numeral a i) (ha : a < 2 ^ 32) :
    ∃ text', scanLine (letter .free) index size text
      = some (⟨.free, a, size⟩, text') ∧ words text' = ws := by
  obtain ⟨text', hone, hws⟩ := scanOne_word index h hi ha
  refine ⟨text', ?_, hws⟩
  unfold scanLine letter
  simp only [hone]

-- =================================================================== the body

/-- An entry for a request. -/
def entry (op : TraceOp) : StoredOp := ⟨op.type, op.index, op.size⟩

/-- The lines of a body are the requests its words ask for. -/
theorem body_asked (index size : Nat) (h : Asked ops ws) (hws : words text = ws)
    (hindex : ∀ op ∈ ops, op.index < 2 ^ 31) :
    ∃ qs, body index size text = (qs, .eof) ∧ qs.map Line.stored
      = ops.map entry ∧ highest qs = top ops := by
  induction h generalizing text index size with
  | nil => exact ⟨[], body_eof (word_nil hws), rfl, rfl⟩
  | @sized op ops v i n ws hne hv hi hn hpos _ ih =>
      obtain ⟨cs, rfl, hshort⟩ := hv
      obtain ⟨text₁, hword, hws₁, -⟩ := word_cons hws
      have ha := hindex op List.mem_cons_self
      have hk : op.size.toNat < 2 ^ 31 := by
        have := op.int
        omega
      obtain ⟨text₂, hline, hws₂⟩ :=
        scanLine_sized index size hne hws₁ hi hn (by omega) (by omega)
      obtain ⟨qs, hbody, hstored, htop⟩ :=
        ih op.index op.size.toNat hws₂
          fun x hx => hindex x (List.mem_cons_of_mem _ hx)
      have hcons := body_line hword (by omega) hline
      simp only [hbody] at hcons
      refine ⟨_, hcons, ?_, ?_⟩
      · rw [List.map_cons, List.map_cons, hstored]
        unfold Line.stored entry
        simp only [if_neg hne, toInt_of_lt ha, toInt_of_lt hk,
          Int.toNat_of_nonneg hpos]
      · rw [highest, top, if_neg hne, if_neg hne, htop]
  | @free op ops v i ws hfree hv hi hzero _ ih =>
      obtain ⟨cs, rfl, hshort⟩ := hv
      obtain ⟨text₁, hword, hws₁, -⟩ := word_cons hws
      have ha := hindex op List.mem_cons_self
      obtain ⟨text₂, hline, hws₂⟩ :=
        scanLine_free index size hws₁ hi (by omega)
      obtain ⟨qs, hbody, hstored, htop⟩ :=
        ih op.index size hws₂
          fun x hx => hindex x (List.mem_cons_of_mem _ hx)
      rw [← hfree] at hline
      have hcons := body_line hword (by omega) hline
      simp only [hbody] at hcons
      refine ⟨_, hcons, ?_, ?_⟩
      · rw [List.map_cons, List.map_cons, hstored]
        unfold Line.stored entry
        simp only [if_pos hfree, toInt_of_lt ha, hzero]
      · rw [highest, top, if_pos hfree, if_pos hfree, htop]

-- ================================================================= the header

/-- The header, and the words behind it. -/
theorem scanHeader_words (old : Model.Trace) {b : List Char} {c : Nat}
    {m : Nat} (h : words text = w :: i :: n :: b :: ws)
    (hw : Numeral c w) (hi : Numeral a i) (hn : Numeral k n)
    (hb : Numeral m b) (ha : a < 2 ^ 31) (hk : k < 2 ^ 31) :
    ∃ t text', scanHeader old text = (t, text') ∧ t.numIds = a ∧
      t.numOps = k ∧ words text' = ws := by
  obtain ⟨text₁, h₁, hws₁⟩ := scanInt_word old.suggHeapsize h hw
  obtain ⟨text₂, h₂, hws₂⟩ := scanInt_word old.numIds hws₁ hi
  obtain ⟨text₃, h₃, hws₃⟩ := scanInt_word old.numOps hws₂ hn
  obtain ⟨text₄, h₄, hws₄⟩ := scanInt_word old.weight hws₃ hb
  have hids : cutInt a = a := cutInt_of_lt ha
  have hops : cutInt k = k := cutInt_of_lt hk
  refine ⟨⟨cutInt c, a, k, cutInt m, []⟩, text₄, ?_, rfl, rfl, hws₄⟩
  unfold scanHeader
  simp only [h₁, h₂, h₃, h₄, hids, hops]

/-- The assertions let a trace pass whose lines its header counts. -/
theorem finish_counted {t : Model.Trace} {r : Reader} {qs : List Line}
    (hr : Filled (Reader.start t size text) r qs)
    (hops : (qs.length : Int) = t.numOps) (hlen : qs.length < 2 ^ 31)
    (hids : t.numIds = (highest qs + 1 : Nat))
    (htop : highest qs + 1 < 2 ^ 31) :
    finish t r = .ok { t with ops := qs.map Line.stored } := by
  obtain ⟨hindex, hmax, hstored⟩ := hr
  have hsize : sizeT t.numOps = qs.length := by
    unfold sizeT
    omega
  simp only [Reader.start, Nat.zero_add, Nat.zero_max, List.take_zero,
    List.nil_append, List.drop_replicate, hsize, Nat.sub_self,
    List.replicate_zero, List.append_nil] at hindex hmax hstored
  have hcount : cutUnsigned t.numOps = r.opIndex := by
    unfold cutUnsigned
    omega
  have hhigh : r.maxIndex = cutUnsigned (t.numIds - 1) := by
    unfold cutUnsigned
    omega
  unfold finish
  rw [if_neg (fun h => h hhigh), if_neg (fun h => h hcount), hstored]

/-- An entry is used as the request it was made of. -/
theorem entry_op (op : TraceOp) : (entry op).op = op := by
  obtain ⟨type, index, size, hint⟩ := op
  have hcut : cutInt size = size := by
    unfold cutInt
    exact Int.bmod_eq_of_le (by omega) (by omega)
  unfold entry StoredOp.op
  simp only [Int.toNat_natCast, hcut]

-- ============================================================ the writing

theorem words_letter (type : OpType) (t : List Char) :
    words (letter type :: ' ' :: t) = [letter type] :: words t := by
  have hl : isSpace (letter type) = false := by cases type <;> decide
  have ht : Parted (' ' :: t) := rfl
  rw [show letter type :: ' ' :: t = [letter type] ++ ' ' :: t from rfl,
    words_append (List.cons_ne_nil _ _) (by simpa using hl) ht,
    words_space (by decide)]

theorem words_line (op : TraceOp) (t : List Char) : words (line op ++ t)
    = if op.type = .free then
        [letter op.type] :: Nat.toDigits 10 op.index :: words t
      else [letter op.type] :: Nat.toDigits 10 op.index ::
        Nat.toDigits 10 op.size.toNat :: words t := by
  have hblank : isSpace ' ' = true := by decide
  have hnew : isSpace '\n' = true := by decide
  unfold line
  split
  · simp only [List.cons_append, List.append_assoc, words_letter,
      List.nil_append, words_numeral (numeral_toDigits _) hnew]
  · simp only [List.cons_append, List.append_assoc, words_letter,
      List.nil_append, words_numeral (numeral_toDigits _) hnew,
      words_numeral (numeral_toDigits _) hblank]

/-- The lines of a trace ask for its requests. -/
theorem asked_lines (h : ∀ op ∈ ops, Plain op) :
    Asked ops (words (ops.flatMap line)) := by
  induction ops with
  | nil => exact Asked.nil
  | cons op ops ih =>
      obtain ⟨hpos, hzero⟩ := h op List.mem_cons_self
      have hrest := ih fun x hx => h x (List.mem_cons_of_mem _ hx)
      have hname : Names op.type [letter op.type] :=
        ⟨[], rfl, by decide⟩
      rw [List.flatMap_cons, words_line]
      by_cases hfree : op.type = .free
      · rw [if_pos hfree]
        exact Asked.free hfree hname (numeral_toDigits _) (hzero hfree) hrest
      · rw [if_neg hfree]
        exact Asked.sized hfree hname (numeral_toDigits _)
          (numeral_toDigits _) hpos hrest

/-- The file a trace is written to says it. -/
theorem says_render (hh : Headed trace) (h : ∀ op ∈ trace.ops, Plain op) :
    Says (render trace) trace where
  headed := hh
  words := by
    have hone : Numeral 1 ['1'] := numeral_toDigits 1
    have hzero : Numeral 0 ['0'] := numeral_toDigits 0
    refine ⟨['0'], _, _, ['1'], words (trace.ops.flatMap line), ?_,
      ⟨0, hzero⟩, numeral_toDigits _, numeral_toDigits _, ⟨1, hone⟩,
      asked_lines h⟩
    have hnew : isSpace '\n' = true := by decide
    unfold render
    simp only [List.append_assoc, List.cons_append, List.nil_append]
    rw [show ∀ t, '0' :: '\n' :: t = ['0'] ++ '\n' :: t from fun _ => rfl,
      words_numeral hzero hnew, words_numeral (numeral_toDigits _) hnew,
      words_numeral (numeral_toDigits _) hnew,
      show ∀ t, '1' :: '\n' :: t = ['1'] ++ '\n' :: t from fun _ => rfl,
      words_numeral hone hnew]

-- ============================================================ the results

/-- `read_trace` reads a trace from a file that says it. -/
theorem reads_said {calloc : Calloc} {path : String} {old : Model.Trace}
    (h : Says text trace) (hroom : Room calloc trace) :
    ∃ t, readTrace calloc path old size text = .ok t ∧
      t.script = trace ∧ t.numOps = trace.ops.length := by
  obtain ⟨hlen, hids, htop, hnamed⟩ := h.headed
  obtain ⟨a, i, n, b, ws, hwords, ⟨_, ha⟩, hi, hn, ⟨_, hb⟩, hasked⟩ :=
    h.words
  obtain ⟨t, rest, hhead, htids, htops, hrest⟩ :=
    scanHeader_words old hwords ha hi hn hb hids hlen
  obtain ⟨qs, hbody, hstored, hhighest⟩ :=
    body_asked 0 size hasked hrest fun op hop => (hnamed op hop).trans hids
  have hcount : qs.length = trace.ops.length := by
    have := congrArg List.length hstored
    simpa using this
  have hsizes : sizeT t.numOps = trace.ops.length ∧
      sizeT t.numIds = trace.numIds := by
    unfold sizeT
    omega
  have hgrant : Granted calloc t := by
    unfold Granted
    rw [hsizes.1, hsizes.2]
    exact hroom
  -- the array has an entry for each line
  have harray : (Reader.start t size rest).ops.length
      = trace.ops.length := by
    unfold Reader.start
    rw [List.length_replicate, hsizes.1]
  obtain ⟨hend, -⟩ := @start_fits path t size rest (by omega) (by
    rw [hbody, harray, hcount])
  obtain ⟨r, hrun, hfilled⟩ := hend (by rw [hbody])
  rw [show (body 0 size rest).1 = qs by rw [hbody]] at hfilled
  have hfinish := finish_counted hfilled (by omega) (by omega)
    (by omega) (by omega)
  refine ⟨{ t with ops := qs.map Line.stored }, ?_, ?_, htops⟩
  · rw [readTrace_granted hhead hgrant, hrun]
    exact hfinish
  · unfold Model.Trace.script
    have hops : (qs.map Line.stored).map StoredOp.op = trace.ops := by
      rw [hstored, List.map_map]
      exact List.map_id'' entry_op _
    simp only [hops, htids, Int.toNat_natCast]

/-- There is memory for what a header can count. -/
theorem ample_room (h : Headed trace) : Room ample trace := by
  obtain ⟨hops, hids, -, -⟩ := h
  exact ⟨decide_eq_true (by omega), decide_eq_true (by omega),
    decide_eq_true (by omega)⟩

/-- A file says one trace at most. -/
theorem says_unique {other : Script} (h : Says text trace)
    (h' : Says text other) : other = trace := by
  obtain ⟨t, hread, hscript, -⟩ :=
    @reads_said trace text 0 ample "" ⟨0, 0, 0, 0, []⟩ h
      (ample_room h.headed)
  obtain ⟨t', hread', hscript', -⟩ :=
    @reads_said other text 0 ample "" ⟨0, 0, 0, 0, []⟩ h'
      (ample_room h'.headed)
  injection hread.symm.trans hread' with ht
  rw [← hscript, ← hscript', ht]

/-- Written to a file, a trace is read back; and so it is from every other
file that says it, however that is laid out and whatever the variables
`read_trace` reads into held before. -/
theorem readTrace_roundTrip {calloc : Calloc} {path : String}
    {old : Model.Trace} (hh : Headed trace)
    (hplain : ∀ op ∈ trace.ops, Plain op) (hroom : Room calloc trace) :
    Says (render trace) trace ∧ ∀ text, Says text trace →
      (∃ t, readTrace calloc path old size text = .ok t ∧
        t.script = trace ∧ t.numOps = trace.ops.length) ∧
      ∀ other, Says text other → other = trace :=
  ⟨says_render hh hplain, fun _ h =>
    ⟨reads_said h hroom, fun _ h' => says_unique h h'⟩⟩

/-- Two ids, a resize, and a free. -/
def sampleTrace : Script :=
  ⟨2, [StoredOp.op ⟨.alloc, 0, 24⟩, StoredOp.op ⟨.alloc, 1, 100⟩,
    StoredOp.op ⟨.realloc, 0, 2040⟩, StoredOp.op ⟨.free, 1, 0⟩]⟩

theorem sampleTrace_plain : ∀ op ∈ sampleTrace.ops, Plain op := by
  intro op hop
  fin_cases hop <;> exact ⟨by decide, by decide⟩

theorem readTrace_roundTrip_sample :
    Says (render sampleTrace) sampleTrace ∧ ∀ text, Says text sampleTrace →
      (∃ t, readTrace ample "" ⟨0, 7, 7, 0, []⟩ 9 text = .ok t ∧
        t.script = sampleTrace ∧ t.numOps = sampleTrace.ops.length) ∧
      ∀ other, Says text other → other = sampleTrace :=
  readTrace_roundTrip ⟨by decide, by decide, by decide, by decide⟩
    sampleTrace_plain ⟨by decide, by decide, by decide⟩

end MallocLab.Proofs.Trace
