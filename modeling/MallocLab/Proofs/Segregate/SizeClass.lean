/-
The size classes: what the shift-and-mask loop of `flt_index` computes.
Each of its five rounds halves the number of bits the answer can still
have, so the loop is one lemma about one round (`fltRound_step`) applied
five times: the running `v` is the argument shifted by the running `r`,
and stays below `2 ^ 2 ^ i`. After the last round `v` is one, which
makes `r` the position of the top bit.

`fltIndexOf_le_iff` is the whole function in one line: up to class nine,
class `k` and below is exactly the sizes up to `2 ^ (k + 3)`.
-/
import MallocLab.Model.Segregate
import Mathlib.Order.Bounds.Defs

namespace MallocLab.Proofs.Segregate

open Model Model.Segregate

private theorem toNat_lit0 : (0 : BitVec 32).toNat = 0 := rfl
private theorem toNat_lit1 : (1 : BitVec 32).toNat = 1 := rfl
private theorem toNat_lit3 : (3 : BitVec 32).toNat = 3 := rfl

-- =============================================================== one round

/-- What a round is given: `v` is `n` shifted by `r`, shorter than `2 s`
bits, and `r` has no bit below `2 s`. -/
structure FltInv (n s : Nat) (x : BitVec 32 × BitVec 32) : Prop where
  v : x.1.toNat = n / 2 ^ x.2.toNat
  pos : 0 < x.1.toNat
  lt : x.1.toNat < 2 ^ s
  r : x.2.toNat % s = 0
  small : x.2.toNat + s ≤ 32

/-- The mask of round `i` is the upper half of the bits left. -/
private theorem fltMask_toNat {i : Nat} (hi : i < 5) :
    (fltMask i).toNat = 2 ^ (2 * 2 ^ i) - 2 ^ 2 ^ i := by
  match i with
  | 0 | 1 | 2 | 3 | 4 => rfl
  | i + 5 => omega

/-- One round halves the bits that are left. -/
theorem fltRound_step {n i : Nat} {x : BitVec 32 × BitVec 32} (hi : i < 5)
    (h : FltInv n (2 * 2 ^ i) x) (hn : x.1.toNat < 2 ^ 31) :
    FltInv n (2 ^ i) (fltRound x i) := by
  obtain ⟨v, r⟩ := x
  obtain ⟨hv, hpos, hlt, hr, hsmall⟩ := h
  simp only at hv hpos hlt hr hsmall hn
  have hs : 0 < 2 ^ i := Nat.two_pow_pos i
  have hs32 : 2 * 2 ^ i ≤ 32 := by omega
  have hland : (v &&& fltMask i).toNat = v.toNat / 2 ^ 2 ^ i * 2 ^ 2 ^ i := by
    rw [BitVec.toNat_and, fltMask_toNat hi]
    exact land_high (by omega) hlt
  -- the mask test asks whether the upper half holds a bit
  have htest : v &&& fltMask i ≠ 0 ↔ 2 ^ 2 ^ i ≤ v.toNat := by
    rw [ne_eq, ← BitVec.toNat_inj, hland, toNat_lit0, Nat.mul_eq_zero,
      Nat.div_eq_zero_iff]
    have := Nat.two_pow_pos (2 ^ i)
    omega
  by_cases hge : 2 ^ 2 ^ i ≤ v.toNat
  · have hsplit : 2 ^ (2 * 2 ^ i) = 2 ^ 2 ^ i * 2 ^ 2 ^ i := by
      rw [← Nat.pow_add, Nat.two_mul]
    have hmsb : v.msb = false := BitVec.msb_eq_false_iff_two_mul_lt.2 (by
      omega)
    have hshift : (v.sshiftRight (fltShift i)).toNat
        = v.toNat / 2 ^ 2 ^ i := by
      rw [BitVec.sshiftRight_eq_of_msb_false hmsb, BitVec.toNat_ushiftRight,
        Nat.shiftRight_eq_div_pow]
      rfl
    have hor : (r ||| BitVec.ofNat 32 (fltShift i)).toNat
        = r.toNat + 2 ^ i := by
      have hpow : 2 * 2 ^ i = 2 ^ (i + 1) := by rw [Nat.pow_succ, Nat.mul_comm]
      have hlow : 2 ^ i < 2 ^ (i + 1) := by omega
      have hmul : 2 ^ (i + 1) * (r.toNat / 2 ^ (i + 1)) = r.toNat := by
        rw [← hpow]
        exact Nat.mul_div_cancel' (Nat.dvd_of_mod_eq_zero hr)
      have hadd := Nat.two_pow_add_eq_or_of_lt hlow (r.toNat / 2 ^ (i + 1))
      rw [hmul] at hadd
      rw [BitVec.toNat_or, BitVec.toNat_ofNat, hadd]
      unfold fltShift
      rw [Nat.mod_eq_of_lt (by omega)]
    have hround : fltRound (v, r) i = (v.sshiftRight (fltShift i),
        r ||| BitVec.ofNat 32 (fltShift i)) := if_pos (htest.2 hge)
    rw [hround]
    refine ⟨?_, ?_, ?_, ?_, ?_⟩
    · show (v.sshiftRight (fltShift i)).toNat
        = n / 2 ^ (r ||| BitVec.ofNat 32 (fltShift i)).toNat
      rw [hshift, hor, hv, Nat.div_div_eq_div_mul, Nat.pow_add]
    · show 0 < (v.sshiftRight (fltShift i)).toNat
      rw [hshift]
      exact Nat.div_pos hge (Nat.two_pow_pos _)
    · show (v.sshiftRight (fltShift i)).toNat < 2 ^ 2 ^ i
      rw [hshift]
      exact Nat.div_lt_of_lt_mul (by rw [← hsplit]; exact hlt)
    · show (r ||| BitVec.ofNat 32 (fltShift i)).toNat % 2 ^ i = 0
      rw [hor, Nat.add_mod_right]
      exact Nat.mod_eq_zero_of_dvd (Nat.dvd_trans (Nat.dvd_mul_left _ 2)
        (Nat.dvd_of_mod_eq_zero hr))
    · show (r ||| BitVec.ofNat 32 (fltShift i)).toNat + 2 ^ i ≤ 32
      rw [hor]
      omega
  · have hround : fltRound (v, r) i = (v, r) :=
      if_neg fun hc => hge (htest.1 hc)
    rw [hround]
    refine ⟨hv, hpos, Nat.lt_of_not_le hge, ?_, by simp only; omega⟩
    exact Nat.mod_eq_zero_of_dvd (Nat.dvd_trans (Nat.dvd_mul_left _ 2)
      (Nat.dvd_of_mod_eq_zero hr))

/-- A round does not lengthen `v`. -/
private theorem FltInv.lt_sign {n s : Nat} {x : BitVec 32 × BitVec 32}
    (h : FltInv n s x) (hs : s ≤ 31) : x.1.toNat < 2 ^ 31 :=
  Nat.lt_of_lt_of_le h.lt (Nat.pow_le_pow_right (by decide) hs)

-- ============================================================ the top bit

/-- The loop finds the position of the top bit. -/
theorem fltLoop_eq {n : Nat} (hpos : 0 < n) (hn : n < 2 ^ 31) :
    ([4, 3, 2, 1, 0].foldl fltRound (BitVec.ofNat 32 n, 0)).2
      = BitVec.ofNat 32 n.log2 := by
  have hnat : (BitVec.ofNat 32 n).toNat = n := by
    rw [BitVec.toNat_ofNat]
    omega
  have h5 : FltInv n (2 * 2 ^ 4) (BitVec.ofNat 32 n, 0) :=
    ⟨by simp [hnat], by rw [hnat]; exact hpos, by rw [hnat]; omega, rfl,
      Nat.le_refl 32⟩
  have h4 := fltRound_step (by decide) h5 (by rw [hnat]; exact hn)
  have h3 := fltRound_step (i := 3) (by decide) h4 (h4.lt_sign (by decide))
  have h2 := fltRound_step (i := 2) (by decide) h3 (h3.lt_sign (by decide))
  have h1 := fltRound_step (i := 1) (by decide) h2 (h2.lt_sign (by decide))
  have h0 := fltRound_step (i := 0) (by decide) h1 (h1.lt_sign (by decide))
  simp only [List.foldl_cons, List.foldl_nil]
  generalize fltRound (fltRound (fltRound (fltRound (fltRound
    (BitVec.ofNat 32 n, 0) 4) 3) 2) 1) 0 = x at h0 ⊢
  obtain ⟨hv, hvpos, hvlt, -, hsmall⟩ := h0
  -- one bit is left of `v`, so `n` lies between the powers around `r`
  have hone : n / 2 ^ x.2.toNat = 1 := by
    rw [← hv]
    simp only [Nat.pow_zero, Nat.pow_one] at hvlt
    omega
  have hlog : n.log2 = x.2.toNat := by
    refine (Nat.log2_eq_iff (by omega)).2 ⟨?_, ?_⟩
    · exact (Nat.div_pos_iff.1 (by omega)).2
    · have := (Nat.div_lt_iff_lt_mul (Nat.two_pow_pos x.2.toNat)).1
        (show n / 2 ^ x.2.toNat < 2 by omega)
      rw [Nat.pow_succ']
      exact this
  rw [hlog]
  exact (BitVec.ofNat_toNat 32 x.2).symm

-- ============================================================ the classes

/-- The number of bits of the next power of two: what `flt_index` adds
up before it clamps. -/
def bitLen (n : Nat) : Nat :=
  n.log2 + if n &&& (n - 1) = 0 then 0 else 1

/-- `bitLen` is the least exponent of a power of two that covers. -/
theorem bitLen_le_iff {n k : Nat} (hpos : 0 < n) :
    bitLen n ≤ k ↔ n ≤ 2 ^ k := by
  have hlo := (Nat.log2_eq_iff (n := n) (by omega)).1 rfl
  have hpow := Nat.and_sub_one_eq_zero_iff_isPowerOfTwo (n := n) (by omega)
  unfold bitLen
  by_cases hz : n &&& (n - 1) = 0
  · obtain ⟨j, rfl⟩ := hpow.1 hz
    rw [if_pos hz, Nat.log2_two_pow, Nat.add_zero]
    exact (Nat.pow_le_pow_iff_right (by decide)).symm
  · rw [if_neg hz]
    have hne : n ≠ 2 ^ n.log2 := fun he => hz (hpow.2 ⟨_, he⟩)
    constructor
    · intro h
      exact Nat.le_trans (Nat.le_of_lt hlo.2)
        (Nat.pow_le_pow_right (by decide) h)
    · intro h
      have : 2 ^ n.log2 < 2 ^ k := by omega
      exact (Nat.pow_lt_pow_iff_right (by decide)).1 this

/-- `flt_index` clamps the bit length less three to the eleven slots. -/
theorem fltIndexOf_eq {n : Nat} (hpos : 0 < n) (hn : n < 2 ^ 31) :
    fltIndexOf n = min (bitLen n - 3) 10 := by
  have hlen : bitLen n ≤ 31 := (bitLen_le_iff hpos).2 (by omega)
  have hland : BitVec.ofNat 32 n &&& (BitVec.ofNat 32 n - 1) ≠ 0
      ↔ ¬ n &&& (n - 1) = 0 := by
    have hsub : (BitVec.ofNat 32 n - 1).toNat = n - 1 := by
      simp only [BitVec.toNat_sub, BitVec.toNat_ofNat, toNat_lit1]
      omega
    have hnat : (BitVec.ofNat 32 n).toNat = n := by
      rw [BitVec.toNat_ofNat]
      omega
    rw [ne_eq, ← BitVec.toNat_inj, BitVec.toNat_and, hsub, hnat, toNat_lit0]
  have hret : BitVec.ofNat 32 n.log2 - 3
      + (if BitVec.ofNat 32 n &&& (BitVec.ofNat 32 n - 1) ≠ 0
          then 1 else 0) = BitVec.ofNat 32 (bitLen n) - 3 := by
    have hlog : n.log2 ≤ bitLen n := Nat.le_add_right _ _
    unfold bitLen at hlog ⊢
    by_cases hz : n &&& (n - 1) = 0
    · rw [if_neg fun hc => hland.1 hc hz, if_pos hz]
      simp
    · rw [if_pos (hland.2 hz), if_neg hz]
      apply BitVec.eq_of_toNat_eq
      simp only [BitVec.toNat_add, BitVec.toNat_sub, BitVec.toNat_ofNat,
        toNat_lit1, toNat_lit3]
      omega
  have hint : (BitVec.ofNat 32 (bitLen n) - 3).toInt
      = (bitLen n : Int) - 3 := by
    rw [BitVec.toInt_eq_toNat_cond, BitVec.toNat_sub, BitVec.toNat_ofNat,
      toNat_lit3]
    omega
  unfold fltIndexOf fltIndex
  simp only [fltLoop_eq hpos hn, hret, hint]
  split
  · omega
  · split <;> omega

private theorem clamp_le (x : Int) :
    (if x < 0 then 0 else if x > 10 then 10 else x.toNat) ≤ 10 := by
  split
  · omega
  · split <;> omega

/-- There are eleven classes. -/
theorem fltIndexOf_le (n : Nat) : fltIndexOf n ≤ 10 :=
  clamp_le _

/-- Below the last class, class `k` and the ones before it are the sizes
up to `2 ^ (k + 3)`. -/
theorem fltIndexOf_le_iff {n k : Nat} (hpos : 0 < n) (hn : n < 2 ^ 31)
    (hk : k < 10) : fltIndexOf n ≤ k ↔ n ≤ 2 ^ (k + 3) := by
  rw [fltIndexOf_eq hpos hn, ← bitLen_le_iff hpos]
  omega

/-- A larger size is in no lower class. -/
theorem fltIndexOf_mono {a b : Nat} (hpos : 0 < a) (hab : a ≤ b)
    (hb : b < 2 ^ 31) : fltIndexOf a ≤ fltIndexOf b := by
  by_cases hk : fltIndexOf b < 10
  · have hle := (fltIndexOf_le_iff (by omega) hb hk).1 (Nat.le_refl _)
    exact (fltIndexOf_le_iff hpos (by omega) hk).2 (by omega)
  · have := fltIndexOf_le a
    omega

/-- Slot zero is for the sizes up to eight. -/
theorem fltIndexOf_eq_zero {n : Nat} (hpos : 0 < n) (hn : n < 2 ^ 31) :
    fltIndexOf n = 0 ↔ n ≤ 8 := by
  have := fltIndexOf_le_iff hpos hn (k := 0) (by decide)
  omega

/-- Slot `k` between the first and the last is for the sizes past those of
slot `k - 1`, up to `2 ^ (k + 3)`. -/
theorem fltIndexOf_eq_iff {n k : Nat} (hpos : 0 < n) (hn : n < 2 ^ 31)
    (hk : 1 ≤ k) (hk' : k < 10) :
    fltIndexOf n = k ↔ 2 ^ (k + 2) < n ∧ n ≤ 2 ^ (k + 3) := by
  have hhi := fltIndexOf_le_iff hpos hn hk'
  have hlo := fltIndexOf_le_iff (k := k - 1) hpos hn (by omega)
  rw [show k - 1 + 3 = k + 2 by omega] at hlo
  omega

/-- The last slot is for everything above `2 ^ 12`. -/
theorem fltIndexOf_eq_ten {n : Nat} (hpos : 0 < n) (hn : n < 2 ^ 31) :
    fltIndexOf n = 10 ↔ 2 ^ 12 < n := by
  have hle := fltIndexOf_le n
  have hiff := fltIndexOf_le_iff (k := 9) hpos hn (by decide)
  omega

/-- Up to `2 ^ 13` the slot is the least whose sizes reach `n`. -/
theorem fltIndexOf_isLeast {n : Nat} (hpos : 0 < n) (hn : n ≤ 2 ^ 13) :
    IsLeast {k | k ≤ 10 ∧ n ≤ 2 ^ (k + 3)} (fltIndexOf n) := by
  have hlt : n < 2 ^ 31 := by omega
  have hle := fltIndexOf_le n
  constructor
  · refine ⟨hle, ?_⟩
    by_cases hk : fltIndexOf n < 10
    · exact (fltIndexOf_le_iff hpos hlt hk).1 (Nat.le_refl _)
    · rw [show fltIndexOf n = 10 by omega]
      exact hn
  · intro k hk
    by_cases hk10 : k < 10
    · exact (fltIndexOf_le_iff hpos hlt hk10).2 hk.2
    · omega

/-- A positive `int` is a number below `2 ^ 31`, and as an argument of
`flt_index` the bits of that number. -/
private theorem exists_nat_int {v : Int} (hlo : 1 ≤ v)
    (hhi : v ≤ 2 ^ 31 - 1) :
    ∃ n : Nat, v = n ∧ 0 < n ∧ n < 2 ^ 31 ∧
      fltIndex (BitVec.ofInt 32 v) = fltIndexOf n := by
  obtain ⟨n, rfl⟩ := Int.eq_ofNat_of_zero_le (show 0 ≤ v by omega)
  refine ⟨n, rfl, by omega, by omega, ?_⟩
  rw [BitVec.ofInt_natCast]
  rfl

/-- What `flt_index` computes on a positive `int`: the least slot whose
sizes reach it, slot ten being open above. The slots are the ones of the
comment in `segregate_mm_init`, and a larger argument has no smaller
slot. -/
theorem fltIndex_slot {v : Int} (hlo : 1 ≤ v) (hhi : v ≤ 2 ^ 31 - 1) :
    (v ≤ 2 ^ 13 → IsLeast {k : Nat | k ≤ 10 ∧ v ≤ 2 ^ (k + 3)}
      (fltIndex (BitVec.ofInt 32 v))) ∧
    (2 ^ 13 < v → fltIndex (BitVec.ofInt 32 v) = 10) ∧
    (fltIndex (BitVec.ofInt 32 v) = 0 ↔ v ≤ 8) ∧
    (∀ k : Nat, 1 ≤ k → k ≤ 9 → (fltIndex (BitVec.ofInt 32 v) = k ↔
      2 ^ (k + 2) + 1 ≤ v ∧ v ≤ 2 ^ (k + 3))) ∧
    (fltIndex (BitVec.ofInt 32 v) = 10 ↔ 4096 < v) ∧
    ∀ w : Int, v ≤ w → w ≤ 2 ^ 31 - 1 →
      fltIndex (BitVec.ofInt 32 v) ≤ fltIndex (BitVec.ofInt 32 w) := by
  obtain ⟨n, rfl, hpos, hn, hv⟩ := exists_nat_int hlo hhi
  have hcast : ∀ k : Nat, ((n : Int) ≤ 2 ^ k ↔ n ≤ 2 ^ k) := fun k => by
    rw [← Int.ofNat_le]
    simp
  have hcast' : ∀ k : Nat, (2 ^ k + 1 ≤ (n : Int) ↔ 2 ^ k < n) :=
    fun k => by
      have := hcast k
      omega
  rw [hv]
  refine ⟨fun h => ?_, fun h => ?_, ?_, fun k hk hk' => ?_, ?_,
    fun w hw hw' => ?_⟩
  · simp only [hcast]
    exact fltIndexOf_isLeast hpos ((hcast 13).1 h)
  · exact (fltIndexOf_eq_ten hpos hn).2 (by omega)
  · rw [fltIndexOf_eq_zero hpos hn]
    omega
  · rw [hcast, hcast']
    exact fltIndexOf_eq_iff hpos hn hk (by omega)
  · rw [fltIndexOf_eq_ten hpos hn]
    omega
  · obtain ⟨m, rfl, -, hm, hwm⟩ := exists_nat_int (v := w) (by omega) hw'
    rw [hwm]
    exact fltIndexOf_mono hpos (by omega) hm

/-- The loop at a power of two and just past it. -/
theorem fltIndex_slot_sample :
    fltIndex (BitVec.ofInt 32 64) = 3 ∧ fltIndex (BitVec.ofInt 32 65) = 4 :=
  ⟨((fltIndex_slot (v := 64) (by decide) (by decide)).2.2.2.1 3 (by decide)
      (by decide)).2 ⟨by decide, by decide⟩,
    ((fltIndex_slot (v := 65) (by decide) (by decide)).2.2.2.1 4 (by decide)
      (by decide)).2 ⟨by decide, by decide⟩⟩

end MallocLab.Proofs.Segregate
