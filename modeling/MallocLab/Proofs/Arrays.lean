/-
A package that answers each request, keeps the bytes it has to keep and
otherwise stops is, to every client program, private arrays
(`play_allowed`). The allocations and the arrays go in step: each array
is an allocation of its size, and the bytes known of it are there
(`Bears`).

One lemma for each thing that happens to the arrays, and from them one for
a request (`Bears.served`).
-/
import MallocLab.Spec.Arrays
import MallocLab.Proofs.Runs

namespace MallocLab.Proofs

open Hoare Interact Mem Model Spec

variable {mode : Mode} {live live' : List Alloc} {cs : List Cells}
  {c : Cells} {m m' : Bytes} {s s' : Machine} {r : Req} {a : Alloc}
  {i off n p : Nat} {v : UInt8}

-- ================================================================ the arrays

/-- Memory holds at an allocation what is known of an array. -/
structure Lies (m : Bytes) (a : Alloc) (c : Cells) : Prop where
  size : a.size = c.size
  bytes : ∀ off v, off < c.size → c.byte off = some v →
    m (a.ptr + off) = v

/-- The live allocations are the arrays. -/
structure Bears (live : List Alloc) (cs : List Cells) (m : Bytes) :
    Prop where
  length : live.length = cs.length
  lies : ∀ (i : Nat) (a : Alloc) (c : Cells), live[i]? = some a →
    cs[i]? = some c → Lies m a c

/-- A memory that keeps an allocation keeps its array. -/
theorem Lies.carry (h : Lies m a c)
    (hm : ∀ off < a.size, m' (a.ptr + off) = m (a.ptr + off)) :
    Lies m' a c where
  size := h.size
  bytes := fun off v hoff hv => by
    have hin : off < a.size := by
      rw [h.size]
      exact hoff
    rw [hm off hin]
    exact h.bytes off v hoff hv

/-- There are no arrays but the live allocations. -/
theorem Bears.missing (h : Bears live cs m) (hi : live[i]? = none) :
    cs[i]? = none := by
  rw [List.getElem?_eq_none_iff] at hi ⊢
  rw [← h.length]
  exact hi

theorem Bears.found (h : Bears live cs m) (hi : live[i]? = some a) :
    ∃ c, cs[i]? = some c := by
  obtain ⟨hlt, -⟩ := List.getElem?_eq_some_iff.1 hi
  rw [h.length] at hlt
  exact ⟨cs[i], List.getElem?_eq_getElem hlt⟩

/-- A memory that keeps the allocations keeps the arrays. -/
theorem Bears.carry (h : Bears live cs m)
    (hm : ∀ (j : Nat) (b : Alloc), live[j]? = some b →
      ∀ off < b.size, m' (b.ptr + off) = m (b.ptr + off)) :
    Bears live cs m' :=
  ⟨h.length, fun j b c hb hc => (h.lies j b c hb hc).carry (hm j b hb)⟩

/-- A new allocation is a new array. -/
theorem Bears.push (h : Bears live cs m) (p n : Nat) :
    Bears (live ++ [⟨p, n⟩]) (cs ++ [.fresh n]) m := by
  refine ⟨?_, fun j b c hb hc => ?_⟩
  · rw [List.length_append, List.length_append, h.length]
    rfl
  by_cases hj : j < live.length
  · rw [List.getElem?_append_left hj] at hb
    rw [List.getElem?_append_left (h.length ▸ hj)] at hc
    exact h.lies j b c hb hc
  · have hle := Nat.le_of_not_lt hj
    rw [List.getElem?_append_right hle, List.getElem?_singleton] at hb
    rw [List.getElem?_append_right (h.length ▸ hle),
      List.getElem?_singleton] at hc
    split at hb
    · split at hc
      · cases hb
        cases hc
        exact ⟨rfl, fun _ _ _ hv => by cases hv⟩
      · cases hc
    · cases hb

/-- An allocation given back is an array gone, if the others are kept. -/
theorem Bears.erase (h : Bears live cs m)
    (hm : ∀ (j : Nat) (b : Alloc), live[j]? = some b → j ≠ i →
      ∀ off < b.size, m' (b.ptr + off) = m (b.ptr + off)) :
    Bears (live.eraseIdx i) (cs.eraseIdx i) m' := by
  refine ⟨?_, fun j b c hb hc => ?_⟩
  · rw [List.length_eraseIdx, List.length_eraseIdx, h.length]
  rw [List.getElem?_eraseIdx] at hb hc
  split at hb
  · rw [if_pos (by omega)] at hc
    exact (h.lies j b c hb hc).carry (hm j b hb (by omega))
  · rw [if_neg (by omega)] at hc
    exact (h.lies (j + 1) b c hb hc).carry (hm (j + 1) b hb (by omega))

/-- An allocation changed is an array changed, if the others are kept. -/
theorem Bears.change (h : Bears live cs m)
    {f : Cells → Cells} (hlen : live'.length = live.length)
    (hsame : ∀ j, j ≠ i → live'[j]? = live[j]?)
    (hm : ∀ (j : Nat) (b : Alloc), live[j]? = some b → j ≠ i →
      ∀ off < b.size, m' (b.ptr + off) = m (b.ptr + off))
    (hat : ∀ (b : Alloc) (c : Cells), live'[i]? = some b → cs[i]? = some c →
      Lies m' b (f c)) :
    Bears live' (cs.modify i f) m' := by
  refine ⟨?_, fun j b c hb hc => ?_⟩
  · rw [List.length_modify, hlen, h.length]
  by_cases hj : j = i
  · subst hj
    rw [List.getElem?_modify_eq] at hc
    obtain ⟨c', hc', rfl⟩ := Option.map_eq_some_iff.1 hc
    exact hat b c' hb hc'
  · rw [List.getElem?_modify_ne _ _ (Ne.symm hj)] at hc
    rw [hsame j hj] at hb
    exact (h.lies j b c hb hc).carry (hm j b hb hj)

/-- What enrols an allocation enrols an array. -/
theorem Bears.enrol (h : Bears live cs m) (p n : Nat) :
    Bears (enrol live p n)
      (if decide (p ≠ 0) then cs ++ [.fresh n] else cs) m := by
  by_cases hp : p = 0
  · rw [hp]
    exact h
  · rw [enrol_pos hp, if_pos (decide_eq_true hp)]
    exact h.push p n

/-- What does nothing to the live allocations does nothing to the
arrays. -/
theorem Bears.idle (h : Bears live cs m) (hi : live[i]? = none)
    (f : Cells → Cells) : cs.eraseIdx i = cs ∧ cs.modify i f = cs := by
  have hlen := List.getElem?_eq_none_iff.1 (h.missing hi)
  exact ⟨List.eraseIdx_of_length_le hlen, List.modify_eq_self hlen⟩

-- ============================================================== the requests

/-- What a request keeps: the allocations it is not about, what fits of
one it moved, and all of one it could not resize. -/
structure Retains (live : List Alloc) (r : Req) (p : Nat) (m m' : Bytes) :
    Prop where
  kept : Preserved live r p m m'
  refused : ∀ i n a, r = .realloc i n → 1 ≤ n → p = 0 →
    live[i]? = some a →
    ∀ off < a.size, m' (a.ptr + off) = m (a.ptr + off)

/-- The others, of a request about the `i`-th allocation. -/
theorem Retains.others (h : Retains live r p m m') (ht : target r = some i)
    (j : Nat) (b : Alloc) (hb : live[j]? = some b) (hj : j ≠ i) :
    ∀ off < b.size, m' (b.ptr + off) = m (b.ptr + off) := by
  refine h.kept.others j b hb fun he => hj ?_
  rw [ht] at he
  exact (Option.some.inj he).symm

/-- A resize. -/
theorem Bears.resized (h : Bears live cs m)
    (hk : Retains live (.realloc i n) p m m') (ha : live[i]? = some a) :
    Bears (resized live i p n)
      (arraysNext cs (decide (p ≠ 0)) (.realloc i n)) m' := by
  have hothers := hk.others (i := i) rfl
  show Bears _ (if n = 0 then cs.eraseIdx i
    else if decide (p ≠ 0) then cs.modify i (Cells.resize n) else cs) m'
  by_cases hn : n = 0
  · unfold Model.resized
    rw [if_pos hn, if_pos hn]
    exact h.erase hothers
  rw [if_neg hn]
  by_cases hp : p = 0
  · -- refused: the allocation is kept with the others
    subst hp
    rw [resized_null hn]
    refine h.carry fun j b hb => ?_
    by_cases hj : j = i
    · subst hj
      exact hk.refused j n b rfl (by omega) rfl hb
    · exact hothers j b hb hj
  · rw [resized_pos hn hp, if_pos (decide_eq_true hp)]
    refine h.change (by rw [List.length_set])
      (fun j hj => List.getElem?_set_ne (Ne.symm hj)) hothers
      fun b c hb hc => ?_
    have hi := (List.getElem?_eq_some_iff.1 ha).1
    rw [List.getElem?_set_self hi] at hb
    cases hb
    obtain ⟨hsize, hbytes⟩ := h.lies i a c ha hc
    refine ⟨rfl, fun off v hoff hv => ?_⟩
    have hlt : off < n := hoff
    unfold Cells.resize at hv
    simp only at hv
    split at hv
    · rename_i hin
      rw [hk.kept.moved i n a rfl (by omega) hp ha off (by omega)]
      exact hbytes off v hin hv
    · cases hv

/-- A byte of its own that the client writes. -/
theorem Bears.wrote (h : Bears live cs m) (ha : live[i]? = some a)
    (hoff : off < a.size)
    (hothers : ∀ (j : Nat) (b : Alloc), live[j]? = some b → j ≠ i →
      ∀ k < b.size, Function.update m (a.ptr + off) v (b.ptr + k)
        = m (b.ptr + k)) :
    Bears live (cs.modify i (Cells.put off v))
      (Function.update m (a.ptr + off) v) := by
  refine h.change rfl (fun _ _ => rfl) hothers fun b c hb hc => ?_
  cases ha.symm.trans hb
  obtain ⟨hsize, hbytes⟩ := h.lies i a c ha hc
  unfold Cells.put
  rw [if_pos (by omega)]
  refine ⟨hsize, fun k w hk hw => ?_⟩
  simp only at hk hw
  by_cases he : k = off
  · subst he
    rw [Function.update_self] at hw ⊢
    exact Option.some.inj hw
  · rw [Function.update_of_ne he] at hw
    rw [Function.update_of_ne (by omega)]
    exact hbytes k w hk hw

/-- A request that was served. -/
theorem Bears.served (h : Bears live cs s.mem)
    (hrun : (serve mode live r).run s = .ok (p, live') s')
    (hk : Retains live r p s.mem s'.mem) :
    Bears live' (arraysNext cs (decide (p ≠ 0)) r) s'.mem := by
  cases r with
  | malloc n =>
      obtain ⟨q, s₁, -, hret⟩ := bind_returns hrun
      cases hret
      have hc := h.carry fun j b hb => hk.kept.others j b hb nofun
      exact hc.enrol p n
  | reallocNull n =>
      obtain ⟨q, s₁, -, hret⟩ := bind_returns hrun
      cases hret
      have hc := h.carry fun j b hb => hk.kept.others j b hb nofun
      exact hc.enrol p n
  | free i =>
      unfold serve at hrun
      cases hi : live[i]? with
      | none =>
          simp only [hi] at hrun
          cases hrun
          show Bears live (cs.eraseIdx i) s.mem
          rw [(h.idle hi id).1]
          exact h
      | some a =>
          simp only [hi] at hrun
          obtain ⟨q, s₁, -, hret⟩ := bind_returns hrun
          cases hret
          exact h.erase (hk.others rfl)
  | realloc i n =>
      unfold serve at hrun
      cases hi : live[i]? with
      | none =>
          simp only [hi] at hrun
          cases hrun
          obtain ⟨herase, hmodify⟩ := h.idle hi (Cells.resize n)
          show Bears live (if n = 0 then cs.eraseIdx i
            else if decide (0 ≠ 0) then cs.modify i (Cells.resize n)
            else cs) s.mem
          rw [herase, hmodify, ite_self, ite_self]
          exact h
      | some a =>
          simp only [hi] at hrun
          obtain ⟨q, s₁, -, hret⟩ := bind_returns hrun
          cases hret
          exact h.resized hk hi
  | write i off v =>
      unfold serve at hrun
      show Bears live' (cs.modify i (Cells.put off v)) s'.mem
      cases hi : live[i]? with
      | none =>
          simp only [hi] at hrun
          cases hrun
          rw [(h.idle hi _).2]
          exact h
      | some a =>
          simp only [hi] at hrun
          by_cases hoff : off < a.size
          · simp only [if_pos hoff] at hrun
            cases hrun
            exact h.wrote hi hoff (hk.others rfl)
          · simp only [if_neg hoff] at hrun
            cases hrun
            refine h.change rfl (fun _ _ => rfl) (fun _ _ _ _ _ _ => rfl)
              fun b c hb hc => ?_
            cases hi.symm.trans hb
            have hlies := h.lies i a c hi hc
            unfold Cells.put
            rw [if_neg (by rw [← hlies.size]; exact hoff)]
            exact hlies

-- ============================================================== the programs

/-- What the client reads of its own is what is known there. -/
theorem readByte_may (h : Bears live cs s.mem) (i off : Nat) :
    ∃ v, (readByte live i off).run s = .ok v s ∧ MayRead cs i off v := by
  unfold readByte MayRead
  cases hi : live[i]? with
  | none =>
      rw [h.missing hi]
      exact ⟨0, rfl, rfl⟩
  | some a =>
      obtain ⟨c, hc⟩ := h.found hi
      obtain ⟨hsize, hbytes⟩ := h.lies i a c hi hc
      simp only [hc]
      by_cases hoff : off < a.size
      · have hin : off < c.size := hsize ▸ hoff
        simp only [if_pos hoff, if_pos hin]
        exact ⟨_, rfl, fun w hw => hbytes off w hin hw⟩
      · have hout : ¬ off < c.size := hsize ▸ hoff
        simp only [if_neg hoff, if_neg hout]
        exact ⟨0, rfl, rfl⟩

/-- If every request that meets `P` and can be paid for is answered by the
rules and keeps what it has to keep, or stops with `E`, then every program
of such requests that can be paid for ends in what the rules allow, or
stops with `E`. -/
theorem play_arrays {I : Nat → List Alloc → Machine → Prop}
    {P : Req → Prop} {E : Stop → Machine → Prop} (cost : Query → Nat)
    (rule : List Cells → (q : Query) → Reply q → List Cells → Prop)
    (hfree : ∀ i off, cost (.read i off) = 0)
    (hread : ∀ cs i off v, MayRead cs i off v → rule cs (.read i off) v cs)
    (hstep : ∀ b live s r, I b live s → P r → cost (.call r) ≤ b →
      (∃ p live' s', (serve mode live r).run s = .ok (p, live') s' ∧
        Retains live r p s.mem s'.mem ∧
        (∀ cs : List Cells, live.length = cs.length →
          rule cs (.call r) (decide (p ≠ 0))
            (arraysNext cs (decide (p ≠ 0)) r)) ∧
        I (b - cost (.call r)) live' s') ∨
      ∃ e s', (serve mode live r).run s = .error e s' ∧ E e s')
    {α : Type} {c : Client α} {s₀ s : Machine} {q b : Nat}
    (hinit : (mmInit mode).run s₀ = .ok q s) (hI : I b [] s)
    (hP : c.All (Calls P)) (hb : c.Within cost b) :
    (∃ a s', (runClient mode c).run s₀ = .ok a s' ∧
      c.Behaves rule [] a) ∨
      ∃ e s', (runClient mode c).run s₀ = .error e s' ∧ E e s' := by
  have hnone : Bears [] [] s.mem := ⟨rfl, fun i a c ha => by cases ha⟩
  unfold runClient
  rw [bind_ok hinit]
  refine play_pays (handle mode) rule cost
    (I := fun b live s cs => I b live s ∧ Bears live cs s.mem)
    (P := Calls P) ?_ c ⟨hI, hnone⟩ hP hb
  intro b live s cs q hinv hq hcost
  obtain ⟨hI, hbears⟩ := hinv
  cases q with
  | call r =>
      rcases hstep b live s r hI hq hcost with
        ⟨p, live', s', hrun, hk, hrule, hI'⟩ | ⟨e, s', hrun, hE⟩
      · exact Or.inl ⟨_, live', s', _, bind_ok hrun,
          hrule cs hbears.length, hI', hbears.served hrun hk⟩
      · exact Or.inr ⟨e, s', bind_error hrun, hE⟩
  | read i off =>
      obtain ⟨v, hrun, hmay⟩ := readByte_may hbears i off
      refine Or.inl ⟨v, live, s, cs, bind_ok hrun, hread cs i off v hmay,
        ?_, hbears⟩
      rw [hfree]
      exact hI

/-- If every request that meets `P` returns and keeps what it has to keep,
or faults after a refused `mem_sbrk`, then every program of such requests
ends in what the rules allow, or faults after a refused `mem_sbrk`. -/
theorem play_allowed {I : List Alloc → Machine → Prop} {P : Req → Prop}
    (hstep : ∀ live s r, I live s → P r →
      (∃ p live' s', (serve mode live r).run s = .ok (p, live') s' ∧
        Retains live r p s.mem s'.mem ∧ I live' s') ∨
      ∃ s', (serve mode live r).run s = .error .fault s' ∧
        s'.errno = enomem)
    {α : Type} {c : Client α} {s₀ s : Machine} {q : Nat}
    (hinit : (mmInit mode).run s₀ = .ok q s) (hI : I [] s)
    (hP : c.All (Calls P)) :
    (∃ a s', (runClient mode c).run s₀ = .ok a s' ∧ Allowed c a) ∨
      ∃ s', (runClient mode c).run s₀ = .error .fault s' ∧
        s'.errno = enomem := by
  have hplay := play_arrays (fun _ => 0) arraysRule
    (I := fun _ => I) (E := fun e s => e = .fault ∧ s.errno = enomem)
    (fun _ _ => rfl) (fun _ _ _ _ hmay => ⟨rfl, hmay⟩)
    (fun _ live s r hI hr _ => ?_) hinit hI hP (c.within_zero 0)
  · rcases hplay with hends | ⟨e, s', hrun, rfl, herr⟩
    · exact Or.inl hends
    · exact Or.inr ⟨s', hrun, herr⟩
  · rcases hstep live s r hI hr with
      ⟨p, live', s', hrun, hk, hI'⟩ | ⟨s', hrun, herr⟩
    · exact Or.inl ⟨p, live', s', hrun, hk, fun _ _ => rfl, hI'⟩
    · exact Or.inr ⟨_, s', hrun, rfl, herr⟩

/-- If every request that meets `P` and that there is room for is granted
and keeps what it has to keep, then every program of such requests ends in
what the rules allow that refuse nothing. -/
theorem play_granted {I : Nat → List Alloc → Machine → Prop}
    {P : Req → Prop}
    (hstep : ∀ b live s r, I b live s → P r → bill (.call r) ≤ b →
      ∃ p live' s', (serve mode live r).run s = .ok (p, live') s' ∧
        Retains live r p s.mem s'.mem ∧
        (∀ cs : List Cells, live.length = cs.length →
          Grants cs (decide (p ≠ 0)) r) ∧
        I (b - bill (.call r)) live' s')
    {α : Type} {c : Client α} {s₀ s : Machine} {q b : Nat}
    (hinit : (mmInit mode).run s₀ = .ok q s) (hI : I b [] s)
    (hP : c.All (Calls P)) (hb : c.Within bill b) :
    ∃ a s', (runClient mode c).run s₀ = .ok a s' ∧ Granting c a := by
  have hplay := play_arrays bill grantingRule (E := fun _ _ => False)
    (fun _ _ => rfl) (fun _ _ _ _ hmay => ⟨rfl, hmay⟩)
    (fun b live s r hI hr hcost => ?_) hinit hI hP hb
  · rcases hplay with hends | ⟨e, s', hrun, hfalse⟩
    · exact hends
    · exact hfalse.elim
  · obtain ⟨p, live', s', hrun, hk, hg, hI'⟩ := hstep b live s r hI hr hcost
    exact Or.inl ⟨p, live', s', hrun, hk,
      fun cs hcs => ⟨rfl, hg cs hcs⟩, hI'⟩

/-- Write a byte, move the array, and read the byte back. -/
def sampleClient : Client UInt8 :=
  .ask (.call (.malloc 16)) fun _ => .ask (.call (.write 0 3 42)) fun _ =>
    .ask (.call (.realloc 0 40)) fun _ => .ask (.read 0 3) .done

theorem sampleClient_sized {lo hi : Nat} (hlo : lo ≤ 16) (hhi : 40 ≤ hi) :
    sampleClient.All (Calls (Sized lo hi)) :=
  ⟨⟨hlo, Nat.le_trans (by decide) hhi⟩, fun _ => ⟨trivial, fun _ =>
    ⟨hhi, fun _ => ⟨trivial, fun _ => trivial⟩⟩⟩⟩

theorem sampleClient_within {b : Nat} (hb : 72 ≤ b) :
    sampleClient.Within bill b := by
  have hsmall : need 16 = 24 := by decide
  have hlarge : need 40 = 48 := by decide
  refine ⟨?_, fun _ => ⟨Nat.zero_le _, fun _ => ⟨?_, fun _ =>
    ⟨Nat.zero_le _, fun _ => trivial⟩⟩⟩⟩
  · show need 16 ≤ b
    omega
  · show need 40 ≤ b - need 16 - 0
    omega

example : result? ((runClient .segregate sampleClient).run
    (memInit Region.sample fun _ => 7)) = some 42 := by decide +kernel

end MallocLab.Proofs
