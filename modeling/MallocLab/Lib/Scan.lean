/-
Reading a text as `fscanf` does, one directive at a time. The text is
the characters not yet read; a directive returns what it stores, if it
stores anything, and the characters it leaves unread.

A numeric directive that finds no number stores nothing and leaves the
character it stumbled on in the text, where the next directive meets it
again; only a sign in front of it is gone.

What a caller's loop needs of this is that it ends: a word takes at
least one character (`word_length`) and no directive puts any back
(`decimal_length`, `literal_length`).

What a caller's format needs is how the directives go through a text of
words: each takes one word, if it is of the right kind, and leaves the
others (`word_cons`, `decimal_cons`).
-/
import Mathlib.Data.List.Basic

namespace MallocLab.Scan

-- ========================================================== the directives

/-- `isspace`: the blank, and tab to carriage return. -/
def isSpace (c : Char) : Bool :=
  decide (c.toNat = 32 ∨ 9 ≤ c.toNat ∧ c.toNat ≤ 13)

/-- White space in a format, or before a number or a word. -/
def skip (t : List Char) : List Char := t.dropWhile isSpace

/-- `%s`: the first character of a word, the others, and the rest; there
is no word at the end of the text. -/
def word (t : List Char) : Option (Char × List Char × List Char) :=
  match skip t with
  | [] => none
  | c :: cs => some (c, cs.takeWhile (!isSpace ·), cs.dropWhile (!isSpace ·))

/-- An optional sign: is it a minus? -/
def sign (t : List Char) : Bool × List Char :=
  match t with
  | '-' :: t => (true, t)
  | '+' :: t => (false, t)
  | t => (false, t)

/-- The number a row of decimal digits spells. -/
def value (ds : List Char) : Nat :=
  ds.foldl (fun n c => 10 * n + (c.toNat - 48)) 0

/-- `%d` and `%u`: an integer in decimal, if one is there. -/
def decimal (t : List Char) : Option Int × List Char :=
  let (minus, t) := sign (skip t)
  let ds := t.takeWhile Char.isDigit
  let n : Int := value ds
  (if ds = [] then none else some (if minus then -n else n),
    t.dropWhile Char.isDigit)

/-- A character of the format that is no directive. -/
def literal (c : Char) (t : List Char) : List Char :=
  match t with
  | [] => []
  | d :: t => if d = c then t else d :: t

-- ============================================================== what is left

theorem skip_length (t : List Char) : (skip t).length ≤ t.length :=
  (List.dropWhile_sublist isSpace).length_le

/-- A word takes at least one character. -/
theorem word_length {t w rest : List Char} {c : Char}
    (h : word t = some (c, w, rest)) : rest.length < t.length := by
  have hskip := skip_length t
  unfold word at h
  cases ht : skip t with
  | nil =>
      rw [ht] at h
      cases h
  | cons d ds =>
      rw [ht] at h hskip
      cases h
      have hdrop := (List.dropWhile_sublist (l := ds) (!isSpace ·)).length_le
      rw [List.length_cons] at hskip
      omega

theorem sign_length (t : List Char) : (sign t).2.length ≤ t.length := by
  unfold sign
  split
  · exact Nat.le_succ _
  · exact Nat.le_succ _
  · exact Nat.le_refl _

/-- No number takes less than nothing. -/
theorem decimal_length (t : List Char) :
    (decimal t).2.length ≤ t.length := by
  have hskip := skip_length t
  have hsign := sign_length (skip t)
  have hdrop := (List.dropWhile_sublist (l := (sign (skip t)).2)
    Char.isDigit).length_le
  show ((sign (skip t)).2.dropWhile Char.isDigit).length ≤ t.length
  omega

theorem literal_length (c : Char) (t : List Char) :
    (literal c t).length ≤ t.length := by
  cases t with
  | nil => exact Nat.le_refl _
  | cons d t =>
      simp only [literal]
      split
      · exact Nat.le_succ _
      · exact Nat.le_refl _

-- =================================================================== words

/-- The words of a text: what white space leaves of it. -/
def words : List Char → List (List Char)
  | [] => []
  | c :: t =>
      if isSpace c then words t
      else if t.head?.all isSpace then [c] :: words t
      else match words t with
        | [] => [[c]]
        | w :: ws => (c :: w) :: ws

/-- The text does not go on with a word that has begun. -/
def Parted (t : List Char) : Prop := t.head?.all isSpace = true

/-- A row of digits that spells a number. -/
def Numeral (n : Nat) (w : List Char) : Prop :=
  w ≠ [] ∧ (∀ c ∈ w, c.isDigit = true) ∧ value w = n

variable {t w : List Char} {ws : List (List Char)} {c : Char} {n : Nat}

theorem words_space (h : isSpace c = true) : words (c :: t) = words t := by
  rw [words, if_pos h]

theorem words_skip (t : List Char) : words (skip t) = words t := by
  unfold skip
  induction t with
  | nil => rfl
  | cons c t ih =>
      rw [List.dropWhile_cons]
      split
      · rename_i h
        rw [ih, words_space h]
      · rfl

/-- The first word of a text that starts with one. -/
theorem words_cons (h : isSpace c = false) : words (c :: t)
    = (c :: t.takeWhile (!isSpace ·)) :: words (t.dropWhile (!isSpace ·)) := by
  induction t generalizing c with
  | nil => simp [words, h]
  | cons d t ih =>
      rw [words, if_neg (by rw [h]; decide)]
      cases hd : isSpace d with
      | true => simp [hd]
      | false =>
          rw [ih hd]
          simp [hd]

/-- A word written in front of a text that does not go on with it. -/
theorem words_append (hne : w ≠ []) (hw : ∀ c ∈ w, isSpace c = false)
    (ht : Parted t) : words (w ++ t) = w :: words t := by
  induction w with
  | nil => exact absurd rfl hne
  | cons c w ih =>
      have hc := hw c List.mem_cons_self
      rw [List.cons_append, words, if_neg (by rw [hc]; decide)]
      cases w with
      | nil =>
          rw [List.nil_append]
          exact if_pos ht
      | cons d w =>
          have hd := hw d (List.mem_cons_of_mem _ List.mem_cons_self)
          rw [ih (List.cons_ne_nil _ _)
            fun x hx => hw x (List.mem_cons_of_mem _ hx)]
          simp [hd]

theorem parted_dropWhile (t : List Char) :
    Parted (t.dropWhile (!isSpace ·)) := by
  have hhead := List.head?_dropWhile_not (!isSpace ·) t
  unfold Parted
  cases h : (t.dropWhile (!isSpace ·)).head? with
  | none => rfl
  | some c =>
      rw [h] at hhead
      simpa using hhead

/-- Either nothing is left behind white space, or a word. -/
theorem skip_cases (t : List Char) :
    skip t = [] ∨ ∃ c r, skip t = c :: r ∧ isSpace c = false := by
  cases h : skip t with
  | nil => exact Or.inl rfl
  | cons c r =>
      refine Or.inr ⟨c, r, rfl, ?_⟩
      have := List.head?_dropWhile_not isSpace t
      rw [show t.dropWhile isSpace = c :: r from h] at this
      simpa using this

theorem word_nil (h : words t = []) : word t = none := by
  rw [← words_skip] at h
  rcases skip_cases t with hs | ⟨c, r, hs, hc⟩
  · unfold word
    rw [hs]
  · rw [hs, words_cons hc] at h
    cases h

/-- `%s` takes the next word. -/
theorem word_cons (h : words t = (c :: w) :: ws) :
    ∃ t', word t = some (c, w, t') ∧ words t' = ws ∧ Parted t' := by
  rw [← words_skip] at h
  rcases skip_cases t with hs | ⟨d, r, hs, hd⟩
  · rw [hs] at h
    cases h
  · rw [hs, words_cons hd] at h
    injection h with hw hws
    injection hw with hc hw
    subst hc hw
    refine ⟨_, ?_, hws, parted_dropWhile r⟩
    unfold word
    rw [hs]

-- ================================================================ numerals

/-- A digit is no white space. -/
theorem isSpace_of_isDigit (h : c.isDigit = true) : isSpace c = false := by
  have hd : 48 ≤ c.toNat ∧ c.toNat ≤ 57 := Char.isDigit_iff_toNat.1 h
  unfold isSpace
  exact decide_eq_false (by omega)

/-- A digit is no sign. -/
theorem sign_digit (h : c.isDigit = true) :
    sign (c :: t) = (false, c :: t) := by
  unfold sign
  split
  · rename_i heq
    injection heq with hc
    subst hc
    cases h
  · rename_i heq
    injection heq with hc
    subst hc
    cases h
  · rfl

/-- A row of digits ends where the word does. -/
theorem digits_parted (hw : ∀ c ∈ w, c.isDigit = true) (ht : Parted t) :
    (w ++ t).takeWhile Char.isDigit = w ∧
      (w ++ t).dropWhile Char.isDigit = t := by
  rw [List.takeWhile_append_of_pos hw, List.dropWhile_append_of_pos hw]
  cases t with
  | nil => simp
  | cons c t =>
      have hc : c.isDigit = false := by
        cases hd : c.isDigit with
        | false => rfl
        | true => exact absurd ht (by simp [Parted, isSpace_of_isDigit hd])
      simp [hc]

/-- `%d` and `%u` take the next word, if it spells a number. -/
theorem decimal_cons (h : words t = w :: ws) (hn : Numeral n w) :
    ∃ t', decimal t = (some (n : Int), t') ∧ words t' = ws ∧ Parted t' := by
  obtain ⟨-, hdigits, hvalue⟩ := hn
  rw [← words_skip] at h
  rcases skip_cases t with hs | ⟨c, r, hs, hc⟩
  · rw [hs] at h
    cases h
  · rw [hs, words_cons hc] at h
    injection h with hw hws
    have hcd : c.isDigit = true := hdigits c (hw ▸ List.mem_cons_self)
    have hparted := parted_dropWhile r
    have hsplit : c :: r = w ++ r.dropWhile (!isSpace ·) := by
      rw [← hw, List.cons_append, List.takeWhile_append_dropWhile]
    obtain ⟨htake, hdrop⟩ := digits_parted hdigits hparted
    refine ⟨_, ?_, hws, hparted⟩
    unfold decimal
    rw [hs, sign_digit hcd]
    simp only [hsplit, htake, hdrop, hvalue]
    rw [if_neg (by rw [← hw]; exact List.cons_ne_nil _ _)]
    rfl

/-- A character of the format that is not there is passed over. -/
theorem literal_parted (h : Parted t) (hc : isSpace c = false) :
    literal c t = t := by
  cases t with
  | nil => rfl
  | cons d t =>
      unfold literal
      refine if_neg fun hd => ?_
      subst hd
      exact absurd h (by simp [Parted, hc])

/-- A numeral and the white space behind it. -/
theorem words_numeral (hw : Numeral n w) (hc : isSpace c = true) :
    words (w ++ c :: t) = w :: words t := by
  rw [words_append hw.1 (fun d hd => isSpace_of_isDigit (hw.2.1 d hd))
    (show Parted (c :: t) from hc), words_space hc]

/-- Every number is spelled by a row of digits. -/
theorem numeral_toDigits (n : Nat) : Numeral n (Nat.toDigits 10 n) :=
  ⟨Nat.toDigits_ne_nil,
    fun _ hc => Nat.isDigit_of_mem_toDigits (by decide) (by decide) hc,
    Nat.ofDigitChars_ten_toDigits⟩

end MallocLab.Scan
