/-
Byte-addressed memory and the little-endian words in it: the ground
floor every other file stands on.

A memory is a total function from addresses to bytes. `rd w m a` is the
`w`-byte little-endian number at `a`, `wr w m a v` the memory with that
number replaced, `copy` and `fill` the block moves. Nothing here knows
what the words are for.

# The frame vocabulary

"Nothing but these bytes changed" is `Set.EqOn` throughout: a memory
`m'` agrees with `m` on a set of addresses. `rd_congr` turns agreement
on a word's bytes into equality of the word, and each writer comes with
the one fact that says where it does NOT write (`wr_of_out`,
`copy_of_out`, `fill_of_out`). Every frame argument downstream is one
of these facts and an interval computation.
-/
import Mathlib.Algebra.Ring.Int.Defs
import Mathlib.Algebra.Ring.Nat
import Mathlib.Data.Set.Function
import Mathlib.Order.Interval.Set.Basic

namespace MallocLab.Mem

/-- A byte-addressed memory. -/
abbrev Bytes := Nat → UInt8

-- ================================================== words and block moves

/-- The `w`-byte little-endian number stored at `a`. -/
def rd : Nat → Bytes → Nat → Nat
  | 0, _, _ => 0
  | w + 1, m, a => (m a).toNat + 256 * rd w m (a + 1)

/-- The memory with the `w`-byte little-endian form of `v` stored at
`a` (what does not fit in `w` bytes is cut off). -/
def wr (w : Nat) (m : Bytes) (a v : Nat) : Bytes := fun x =>
  if a ≤ x ∧ x < a + w then UInt8.ofNat (v / 256 ^ (x - a)) else m x

/-- The memory after `n` bytes at `s` are copied to `d`; the bytes
copied are the ones `m` holds. -/
def copy (m : Bytes) (d s n : Nat) : Bytes := fun x =>
  if d ≤ x ∧ x < d + n then m (s + (x - d)) else m x

/-- The memory with `n` bytes at `a` set to `v`. -/
def fill (m : Bytes) (a n : Nat) (v : UInt8) : Bytes := fun x =>
  if a ≤ x ∧ x < a + n then v else m x

-- ============================================================ the frames

/-- Outside the word a write names, the byte is the old one. -/
theorem wr_of_out {w : Nat} {m : Bytes} {a v x : Nat}
    (h : x < a ∨ a + w ≤ x) : wr w m a v x = m x :=
  if_neg (by omega)

theorem copy_of_out {m : Bytes} {d s n x : Nat}
    (h : x < d ∨ d + n ≤ x) : copy m d s n x = m x :=
  if_neg (by omega)

/-- The copied bytes are the source's, counted from the two starts. -/
theorem copy_of_in {m : Bytes} {d s n i : Nat} (h : i < n) :
    copy m d s n (d + i) = m (s + i) := by
  unfold copy
  rw [if_pos (by omega), Nat.add_sub_cancel_left]

theorem fill_of_out {m : Bytes} {a n x : Nat} {v : UInt8}
    (h : x < a ∨ a + n ≤ x) : fill m a n v x = m x :=
  if_neg (by omega)

theorem fill_of_in {m : Bytes} {a n x : Nat} {v : UInt8}
    (h : a ≤ x ∧ x < a + n) : fill m a n v x = v :=
  if_pos h

-- ========================================================= reading words

theorem rd_lt (w : Nat) (m : Bytes) (a : Nat) : rd w m a < 256 ^ w := by
  induction w generalizing a with
  | zero => exact Nat.one_pos
  | succ w ih =>
      have hb := (m a).toNat_lt
      have hr := ih (a + 1)
      simp only [rd, Nat.pow_succ]
      omega

/-- A word is read off its own bytes only. -/
theorem rd_congr {w : Nat} {m m' : Bytes} {a : Nat}
    (h : Set.EqOn m' m (Set.Ico a (a + w))) : rd w m' a = rd w m a := by
  induction w generalizing a with
  | zero => rfl
  | succ w ih =>
      simp only [rd]
      rw [h ⟨Nat.le_refl a, by omega⟩,
        ih fun x hx => h ⟨by have := hx.1; omega, by have := hx.2; omega⟩]

/-- A word of zero bytes is zero. -/
theorem rd_of_zero {w : Nat} {m : Bytes} {a : Nat}
    (h : ∀ x, a ≤ x → x < a + w → m x = 0) : rd w m a = 0 := by
  induction w generalizing a with
  | zero => rfl
  | succ w ih =>
      simp only [rd]
      rw [h a (Nat.le_refl a) (by omega),
        ih fun x hx hx' => h x (by omega) (by omega)]
      rfl

/-- Reading past a write into other bytes. -/
theorem rd_wr_ne {w u : Nat} {m : Bytes} {a b v : Nat}
    (h : b + u ≤ a ∨ a + w ≤ b) : rd u (wr w m a v) b = rd u m b :=
  rd_congr fun x hx => wr_of_out (by have := hx.1; have := hx.2; omega)

/-- The low bytes of a written word spell the number itself: the form
`rd_wr_self` needs, with the read still in the middle of the word. -/
private theorem rd_wr_mid {w : Nat} {m : Bytes} {a v : Nat} :
    ∀ {u k : Nat}, k + u = w →
      rd u (wr w m a v) (a + k) = v / 256 ^ k % 256 ^ u := by
  intro u
  induction u with
  | zero => intro k _; simp [rd, Nat.mod_one]
  | succ u ih =>
      intro k hk
      have hbyte : wr w m a v (a + k) = UInt8.ofNat (v / 256 ^ k) := by
        unfold wr
        rw [if_pos (by omega), Nat.add_sub_cancel_left]
      have hrest := ih (k := k + 1) (by omega)
      rw [← Nat.add_assoc] at hrest
      simp only [rd]
      rw [hbyte, hrest, UInt8.toNat_ofNat', Nat.pow_succ 256 k,
        ← Nat.div_div_eq_div_mul,
        show 256 ^ (u + 1) = 256 * 256 ^ u from Nat.pow_succ']
      exact Nat.mod_mul.symm

/-- A word reads back as written. -/
theorem rd_wr_self {w : Nat} {m : Bytes} {a v : Nat} :
    rd w (wr w m a v) a = v % 256 ^ w := by
  have h := rd_wr_mid (w := w) (m := m) (a := a) (v := v) (u := w) (k := 0)
    (by omega)
  simpa using h

/-- What does not fit in a word is not written. -/
theorem wr_mod {w : Nat} {m : Bytes} {a v : Nat} :
    wr w m a (v % 256 ^ w) = wr w m a v := by
  funext x
  unfold wr
  split
  · obtain ⟨k, hk⟩ : ∃ k, w = x - a + (k + 1) :=
      ⟨w - (x - a) - 1, by omega⟩
    rw [hk, Nat.pow_add, Nat.mod_mul_right_div_self]
    refine UInt8.toNat_inj.1 ?_
    rw [UInt8.toNat_ofNat', UInt8.toNat_ofNat']
    exact Nat.mod_mod_of_dvd _ ⟨256 ^ k, Nat.pow_succ'⟩
  · rfl

/-- A word that fits reads back exactly. -/
theorem rd_wr_of_lt {w : Nat} {m : Bytes} {a v : Nat} (hv : v < 256 ^ w) :
    rd w (wr w m a v) a = v := by
  rw [rd_wr_self, Nat.mod_eq_of_lt hv]

end MallocLab.Mem
