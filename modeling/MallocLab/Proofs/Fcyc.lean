/-
`fcyc` comes to its end, with the least of its readings, as soon as they
are enough, unless the function it times stops (`fcyc_least`).

`add_sample` keeps in `values` the `kbest` least readings in order
(`addSample_holds`): the new reading goes to the end of them and sinks,
and all the while the others are in order (`insertion_sorted`).
-/
import MallocLab.Lib.Least
import MallocLab.Lib.Triple
import MallocLab.Spec.Fcyc

namespace MallocLab.Proofs

open Hoare Least Model Spec

variable {α ε σ : Type} [LinearOrder α] {q : Fcyc α} {s : Sampler α}
  {xs : List α} {x : α} {v : Nat → α} {n pos : Nat}

-- ========================================================= the insertion sort

/-- Each step of it exchanges two entries. -/
theorem insertion_perm (h : pos < n) :
    (upTo (insertion pos v) n).Perm (upTo v n) := by
  induction pos generalizing v with
  | zero => exact List.Perm.refl _
  | succ pos ih =>
      unfold insertion
      split
      · simp only [← Equiv.comp_swap_eq_update]
        exact (ih (by omega)).trans (upTo_swap h (by omega))
      · exact List.Perm.refl _

/-- The entry at `pos` goes where it belongs. -/
theorem insertion_sorted (h : SortedBut v pos n) :
    (upTo (insertion pos v) n).Pairwise (· ≤ ·) := by
  induction pos generalizing v with
  | zero => exact upTo_sorted.2 fun i j hij hj => h i j hij hj (by omega)
  | succ pos ih =>
      unfold insertion
      split
      · rename_i hgt
        simp only [← Equiv.comp_swap_eq_update]
        exact ih (h.exchange hgt)
      · rename_i hle
        exact h.settle (not_lt.1 hle)

-- ============================================================ the sampler

/-- `values` has the `kbest` least of the readings. -/
structure Holds (q : Fcyc α) (s : Sampler α) (xs : List α) : Prop where
  count : s.samplecount = xs.length
  least : KLeast q.kbest (upTo s.values (min q.kbest xs.length)) xs

theorem initSampler_holds [Zero α] : Holds q (initSampler : Sampler α) [] :=
  ⟨rfl, by
    rw [List.length_nil, Nat.min_zero]
    exact KLeast.nil q.kbest⟩

/-- A reading at the end of them sinks to its place. -/
theorem insertion_update :
    (upTo (insertion n (Function.update v n x)) (n + 1)).Perm
      (x :: upTo v n) := by
  refine (insertion_perm (Nat.lt_succ_self n)).trans ?_
  rw [upTo_update]
  exact List.perm_append_singleton x (upTo v n)

theorem addSample_holds (h : Holds q s xs) (x : α) :
    Holds q (addSample q s x) (x :: xs) := by
  obtain ⟨hcount, hleast⟩ := h
  refine ⟨by rw [addSample_samplecount, hcount, List.length_cons], ?_⟩
  have hpos := q.kbest_pos
  unfold addSample
  by_cases hfew : s.samplecount < q.kbest
  · rw [if_pos hfew]
    rw [hcount] at hfew ⊢
    rw [Nat.min_eq_right hfew.le] at hleast
    rw [List.length_cons, Nat.min_eq_right hfew]
    exact hleast.more hfew (insertion_sorted (sortedBut_update hleast.sorted))
      insertion_update
  rw [if_neg hfew]
  rw [hcount] at hfew
  have hk := Nat.le_of_not_lt hfew
  obtain ⟨m, hm⟩ : ∃ m, q.kbest = m + 1 := ⟨q.kbest - 1, by omega⟩
  rw [List.length_cons, Nat.min_eq_left (by omega)]
  rw [Nat.min_eq_left hk] at hleast
  have hm' : q.kbest - 1 = m := by omega
  rw [hm']
  by_cases hlt : x < s.values m
  · rw [if_pos hlt]
    have hinit : (upTo s.values m).Pairwise (· ≤ ·) :=
      upTo_sorted.2 fun i j hij hj =>
        upTo_sorted.1 hleast.sorted i j hij (by omega)
    rw [hm] at hleast hk ⊢
    rw [upTo_succ] at hleast
    exact hleast.replace hk hlt (insertion_sorted (sortedBut_update hinit))
      insertion_update
  · rw [if_neg hlt]
    refine hleast.keep hk fun b hb => ?_
    obtain ⟨i, hi, rfl⟩ := mem_upTo.1 hb
    refine le_trans ?_ (not_lt.1 hlt)
    rcases Nat.lt_or_eq_of_le (show i ≤ m by omega) with him | rfl
    · exact upTo_sorted.1 hleast.sorted i m him (by omega)
    · exact le_rfl

example : upTo ([5, 2, 9, 1].foldl
    (addSample (initFsecs fun _ _ => false)) initSampler).values 3
      = [1, 2, 5] := by decide

/-- `has_converged` looks at the least and the greatest of them. -/
theorem hasConverged_close (h : Holds q s xs) :
    hasConverged q s ↔ Close q xs := by
  have hpos := q.kbest_pos
  have hget : ∀ i < min q.kbest xs.length,
      (xs.mergeSort (· ≤ ·))[i]? = some (s.values i) := fun i hi => by
    rw [← upTo_get hi, h.least.eq_take, List.getElem?_take_of_lt (by omega)]
  unfold hasConverged Close
  rw [Bool.and_eq_true, decide_eq_true_iff, h.count]
  constructor
  · intro h
    obtain ⟨hk, hwithin⟩ := h
    exact ⟨_, _, hget 0 (by omega), hget (q.kbest - 1) (by omega), hwithin⟩
  · intro h
    obtain ⟨lo, hi, hlo, hhi, hwithin⟩ := h
    obtain ⟨hlt, -⟩ := List.getElem?_eq_some_iff.1 hhi
    rw [List.length_mergeSort] at hlt
    have hk : q.kbest ≤ xs.length := by omega
    rw [hget 0 (by omega)] at hlo
    rw [hget (q.kbest - 1) (by omega)] at hhi
    cases hlo
    cases hhi
    exact ⟨hk, hwithin⟩

-- =============================================================== the loop

/-- What the loop comes to: enough readings, or a stop. -/
def Ends (q : Fcyc α) (measure : EStateM ε σ α) (w : σ)
    (out : EStateM.Result ε σ (Sampler α)) : Prop :=
  (∃ xs s w', out = .ok s w' ∧ Sampled q measure w xs w' ∧ xs ≠ [] ∧
    Enough q xs ∧ Holds q s xs) ∨
  ∃ xs w' e w'', out = .error e w'' ∧ Sampled q measure w xs w' ∧
    (xs ≠ [] → ¬ Enough q xs) ∧ measure.run w' = .error e w''

theorem sampling_ends (measure : EStateM ε σ α) {w w' : σ}
    (hholds : Holds q s xs) (hrun : Sampled q measure w xs w')
    (hmore : xs ≠ [] → ¬ Enough q xs) :
    Ends q measure w ((sampling q measure s).run w') := by
  induction hn : q.maxsamples - s.samplecount using
    Nat.strong_induction_on generalizing s xs w' with
  | _ n ih =>
  rw [sampling]
  cases hx : measure.run w' with
  | error e w'' =>
      exact Or.inr ⟨xs, w', e, w'', bind_error hx, hrun, hmore, hx⟩
  | ok x w'' =>
      rw [bind_ok hx]
      have hnext := addSample_holds hholds x
      have hrun' := Sampled.take hrun hmore hx
      show Ends q measure w ((if ¬ hasConverged q (addSample q s x) ∧
        (addSample q s x).samplecount < q.maxsamples then
          sampling q measure (addSample q s x)
        else return addSample q s x).run w'')
      split
      · rename_i hgo
        obtain ⟨hopen, hlt⟩ := hgo
        refine ih _ ?_ hnext hrun' (fun _ => ?_) rfl
        · rw [addSample_samplecount] at hlt ⊢
          omega
        · intro henough
          rcases henough with hclose | hmax
          · exact hopen ((hasConverged_close hnext).2 hclose)
          · rw [hnext.count] at hlt
            omega
      · rename_i hstop
        refine Or.inl ⟨x :: xs, _, w'', rfl, hrun', List.cons_ne_nil x xs,
          ?_, hnext⟩
        by_cases hclose : hasConverged q (addSample q s x)
        · exact Or.inl ((hasConverged_close hnext).1 hclose)
        · refine Or.inr (Nat.le_of_not_lt fun hlt => hstop ⟨hclose, ?_⟩)
          rw [hnext.count]
          exact hlt

/-- It is called off in time. -/
theorem sampled_length_le {measure : EStateM ε σ α} {w w' : σ}
    (h : Sampled q measure w xs w') : xs.length ≤ max 1 q.maxsamples := by
  cases h with
  | start => exact Nat.zero_le _
  | take hrun hmore hx =>
      rename_i x ys w₁
      rw [List.length_cons]
      by_cases hfirst : ys = []
      · subst hfirst
        exact Nat.le_max_left _ _
      · have hlt : ¬ q.maxsamples ≤ ys.length := fun hmax =>
          hmore hfirst (Or.inr hmax)
        omega

/-- `fcyc` comes to its end with the least of its readings, of which no
more are taken than are enough, unless taking one stops it. -/
theorem fcyc_least [Zero α] (q : Fcyc α) (clock : Counter ε σ α)
    (f : EStateM ε σ Unit) (w : σ) :
    (∃ xs r w', (fcyc q clock f).run w = .ok r w' ∧
      Sampled q (reading q clock f) w xs w' ∧ Enough q xs ∧
      xs.length ≤ max 1 q.maxsamples ∧ r ∈ xs ∧ ∀ x ∈ xs, r ≤ x) ∨
    ∃ xs w' e w'', (fcyc q clock f).run w = .error e w'' ∧
      Sampled q (reading q clock f) w xs w' ∧
      (xs ≠ [] → ¬ Enough q xs) ∧
      (reading q clock f).run w' = .error e w'' := by
  have hends := sampling_ends (reading q clock f)
    (initSampler_holds : Holds q _ []) (.start : Sampled q _ w [] w)
    (fun hne => absurd rfl hne)
  unfold fcyc
  rcases hends with ⟨xs, s, w', hrun, hsampled, hne, henough, hholds⟩ |
    ⟨xs, w', e, w'', hrun, hsampled, hmore, hstop⟩
  · refine Or.inl ⟨xs, s.values 0, w', ?_, hsampled, henough,
      sampled_length_le hsampled, ?_⟩
    · rw [bind_ok hrun]
      rfl
    · have hpos := q.kbest_pos
      have hlen := List.length_pos_iff.2 hne
      exact hholds.least.least (upTo_get (by omega))
  · exact Or.inr ⟨xs, w', e, w'', bind_error hrun, hsampled, hmore,
      hstop⟩

end MallocLab.Proofs
