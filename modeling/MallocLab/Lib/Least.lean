/-
The `k` least members of a list, in order, as the list grows at its head:
while they are fewer than `k` a new member joins them (`KLeast.more`);
then it takes the place of the greatest (`KLeast.replace`), or is let go
(`KLeast.keep`).

The members are kept in an array, a function of the index; `upTo` is the
list of its first entries.
-/
import Mathlib.Data.List.Sort
import Mathlib.Logic.Equiv.Basic

namespace MallocLab.Least

variable {α : Type} {k n pos : Nat} {best best' init seen : List α}
  {last x : α} {v w : Nat → α}

-- ====================================================== the first of an array

/-- The first `n` entries of an array. -/
def upTo (v : Nat → α) (n : Nat) : List α := (List.range n).map v

theorem upTo_get {i : Nat} (h : i < n) : (upTo v n)[i]? = some (v i) := by
  unfold upTo
  rw [List.getElem?_map, List.getElem?_range h]
  rfl

theorem upTo_succ : upTo v (n + 1) = upTo v n ++ [v n] := by
  unfold upTo
  rw [List.range_succ, List.map_append]
  rfl

theorem upTo_congr (h : ∀ i < n, v i = w i) : upTo v n = upTo w n :=
  List.map_congr_left fun i hi => h i (List.mem_range.1 hi)

theorem mem_upTo : x ∈ upTo v n ↔ ∃ i < n, v i = x := by
  unfold upTo
  rw [List.mem_map]
  exact exists_congr fun i => and_congr_left' List.mem_range

/-- Writing an entry adds it to those before. -/
theorem upTo_update :
    upTo (Function.update v n x) (n + 1) = upTo v n ++ [x] := by
  rw [upTo_succ, Function.update_self]
  exact congrArg (· ++ [x])
    (upTo_congr fun i hi => Function.update_of_ne (by omega) _ _)

/-- Exchanging two entries permutes them. -/
theorem upTo_swap {i j : Nat} (hi : i < n) (hj : j < n) :
    (upTo (v ∘ Equiv.swap i j) n).Perm (upTo v n) := by
  have hrange : ((List.range n).map (Equiv.swap i j)).Perm
      (List.range n) := by
    refine (List.perm_ext_iff_of_nodup
      (List.nodup_range.map (Equiv.injective _)) List.nodup_range).2
      fun m => ?_
    have hin : ∀ m, m < n → Equiv.swap i j m < n := fun m hm => by
      rw [Equiv.swap_apply_def]
      split
      · exact hj
      · split
        · exact hi
        · exact hm
    simp only [List.mem_map, List.mem_range]
    constructor
    · intro hm
      obtain ⟨l, hl, hlm⟩ := hm
      rw [← hlm]
      exact hin l hl
    · intro hm
      exact ⟨_, hin m hm, Equiv.swap_apply_self i j m⟩
  unfold upTo
  rw [← List.map_map]
  exact hrange.map v

variable [LinearOrder α]

-- ================================================================ the k least

/-- `best` is the `k` least members of `seen`, in order: all, if they are
fewer. -/
structure KLeast (k : Nat) (best seen : List α) : Prop where
  sorted : best.Pairwise (· ≤ ·)
  length : best.length = min k seen.length
  rest : ∃ rest, (best ++ rest).Perm seen ∧ ∀ b ∈ best, ∀ c ∈ rest, b ≤ c

/-- There is one such list. -/
theorem KLeast.eq_take (h : KLeast k best seen) :
    best = (seen.mergeSort (· ≤ ·)).take k := by
  obtain ⟨rest, hperm, hle⟩ := h.rest
  have hrest : (rest.mergeSort (· ≤ ·)).Pairwise (· ≤ ·) :=
    List.pairwise_mergeSort' (· ≤ ·) rest
  have hboth : (best ++ rest.mergeSort (· ≤ ·)).Pairwise (· ≤ ·) := by
    rw [List.pairwise_append]
    refine ⟨h.sorted, hrest, fun b hb c hc => hle b hb c ?_⟩
    exact (List.mergeSort_perm _ _).mem_iff.1 hc
  have hsame : (best ++ rest.mergeSort (· ≤ ·)).Perm
      (seen.mergeSort (· ≤ ·)) :=
    ((List.mergeSort_perm _ _).append_left best).trans
      (hperm.trans (List.mergeSort_perm _ _).symm)
  have heq : best ++ rest.mergeSort (· ≤ ·) = seen.mergeSort (· ≤ ·) :=
    hsame.eq_of_pairwise' hboth (List.pairwise_mergeSort' (· ≤ ·) seen)
  rw [← heq]
  have hlen := hperm.length_eq
  rw [List.length_append] at hlen
  rcases Nat.le_total k seen.length with hk | hk
  · rw [List.take_left' (by rw [h.length, Nat.min_eq_left hk])]
  · have hnil : rest = [] := List.eq_nil_of_length_eq_zero (by
      rw [h.length] at hlen
      omega)
    rw [hnil, List.mergeSort_nil, List.append_nil,
      List.take_of_length_le (by rw [h.length]; omega)]

theorem KLeast.nil (k : Nat) : KLeast k ([] : List α) [] :=
  ⟨List.Pairwise.nil, (Nat.min_zero k).symm, [], List.Perm.refl _,
    fun _ hb => absurd hb List.not_mem_nil⟩

/-- While there are fewer than `k`, a new member joins them. -/
theorem KLeast.more (h : KLeast k best seen) (hlt : seen.length < k)
    (hsorted : best'.Pairwise (· ≤ ·)) (hperm' : best'.Perm (x :: best)) :
    KLeast k best' (x :: seen) := by
  obtain ⟨rest, hperm, -⟩ := h.rest
  have hlen := hperm.length_eq
  rw [List.length_append, h.length] at hlen
  have hnil : rest = [] := List.eq_nil_of_length_eq_zero (by omega)
  subst hnil
  rw [List.append_nil] at hperm
  have hall := hperm'.trans (hperm.cons x)
  refine ⟨hsorted, ?_, [], ?_, fun _ _ _ hc => absurd hc List.not_mem_nil⟩
  · rw [hall.length_eq, List.length_cons]
    omega
  · rw [List.append_nil]
    exact hall

/-- A new member that is not less than the `k` least is none of them. -/
theorem KLeast.keep (h : KLeast k best seen) (hk : k ≤ seen.length)
    (hx : ∀ b ∈ best, b ≤ x) : KLeast k best (x :: seen) := by
  obtain ⟨rest, hperm, hle⟩ := h.rest
  refine ⟨h.sorted, ?_, x :: rest, ?_, fun b hb c hc => ?_⟩
  · rw [h.length, List.length_cons]
    omega
  · exact List.perm_middle.trans (hperm.cons x)
  · rcases List.mem_cons.1 hc with rfl | hc
    · exact hx b hb
    · exact hle b hb c hc

/-- A new member less than the greatest of the `k` least takes its
place. -/
theorem KLeast.replace (h : KLeast k (init ++ [last]) seen)
    (hk : k ≤ seen.length) (hx : x < last)
    (hsorted : best'.Pairwise (· ≤ ·)) (hperm' : best'.Perm (x :: init)) :
    KLeast k best' (x :: seen) := by
  obtain ⟨rest, hperm, hle⟩ := h.rest
  have hlen := h.length
  rw [List.length_append, List.length_singleton] at hlen
  obtain ⟨-, -, hinit⟩ := List.pairwise_append.1 h.sorted
  have hlast : ∀ b ∈ best', b ≤ last := fun b hb => by
    rcases List.mem_cons.1 (hperm'.mem_iff.1 hb) with rfl | hb
    · exact hx.le
    · exact hinit b hb last (List.mem_singleton_self last)
  refine ⟨hsorted, ?_, last :: rest, ?_, fun b hb c hc => ?_⟩
  · rw [hperm'.length_eq, List.length_cons, List.length_cons]
    omega
  · have hmove : (init ++ last :: rest).Perm seen := by
      rw [List.append_cons]
      exact hperm
    exact (hperm'.append_right _).trans (hmove.cons x)
  · rcases List.mem_cons.1 hc with rfl | hc
    · exact hlast b hb
    · exact (hlast b hb).trans (hle last (by simp) c hc)

/-- The first of the `k` least is the least. -/
theorem KLeast.least (h : KLeast k best seen) (hx : best[0]? = some x) :
    x ∈ seen ∧ ∀ y ∈ seen, x ≤ y := by
  obtain ⟨rest, hperm, hle⟩ := h.rest
  obtain ⟨t, rfl⟩ : ∃ t, best = x :: t := by
    cases best with
    | nil => cases hx
    | cons b t =>
        cases hx
        exact ⟨t, rfl⟩
  refine ⟨hperm.mem_iff.1 List.mem_cons_self, fun y hy => ?_⟩
  rcases List.mem_append.1 (hperm.mem_iff.2 hy) with hy | hy
  · rcases List.mem_cons.1 hy with rfl | hy
    · exact le_rfl
    · exact List.rel_of_pairwise_cons h.sorted hy
  · exact hle x List.mem_cons_self y hy

-- ================================================================== in arrays

theorem upTo_sorted : (upTo v n).Pairwise (· ≤ ·) ↔
    ∀ i j, i < j → j < n → v i ≤ v j := by
  unfold upTo
  rw [List.pairwise_map, List.pairwise_iff_getElem]
  simp only [List.length_range, List.getElem_range]
  exact ⟨fun h i j hij hj => h i j (hij.trans hj) hj hij,
    fun h i j _ hj hij => h i j hij hj⟩

/-- The entries are in order, but for the one at `pos`, which is only
compared with those after it. -/
def SortedBut (v : Nat → α) (pos n : Nat) : Prop :=
  ∀ i j, i < j → j < n → j ≠ pos → v i ≤ v j

/-- An entry written after entries in order. -/
theorem sortedBut_update (h : (upTo v n).Pairwise (· ≤ ·)) :
    SortedBut (Function.update v n x) n (n + 1) := by
  intro i j hij hj hne
  rw [Function.update_of_ne (by omega), Function.update_of_ne hne]
  exact upTo_sorted.1 h i j hij (by omega)

/-- An entry not less than the one before it is in order too. -/
theorem SortedBut.settle (h : SortedBut v (pos + 1) n)
    (hle : v pos ≤ v (pos + 1)) : (upTo v n).Pairwise (· ≤ ·) := by
  refine upTo_sorted.2 fun i j hij hj => ?_
  by_cases hnext : j = pos + 1
  · subst hnext
    rcases Nat.lt_or_eq_of_le (Nat.le_of_lt_succ hij) with hlt | rfl
    · exact (h i pos hlt (by omega) (by omega)).trans hle
    · exact hle
  · exact h i j hij hj hnext

/-- Exchanging the entry with a greater one before it moves it there. -/
theorem SortedBut.exchange (h : SortedBut v (pos + 1) n)
    (hgt : v (pos + 1) < v pos) :
    SortedBut (v ∘ Equiv.swap (pos + 1) pos) pos n := by
  intro i j hij hj hne
  simp only [Function.comp_apply]
  by_cases hjnext : j = pos + 1
  · subst hjnext
    rw [Equiv.swap_apply_left]
    by_cases hi : i = pos
    · rw [hi, Equiv.swap_apply_right]
      exact hgt.le
    · rw [Equiv.swap_apply_of_ne_of_ne (by omega) hi]
      exact h i pos (by omega) (by omega) (by omega)
  rw [Equiv.swap_apply_of_ne_of_ne hjnext hne]
  by_cases hi : i = pos
  · rw [hi, Equiv.swap_apply_right]
    exact h (pos + 1) j (by omega) hj hjnext
  by_cases hinext : i = pos + 1
  · rw [hinext, Equiv.swap_apply_left]
    exact h pos j (by omega) hj hjnext
  · rw [Equiv.swap_apply_of_ne_of_ne hinext hi]
    exact h i j hij hj hjnext

end MallocLab.Least
