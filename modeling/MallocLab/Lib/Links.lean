/-
Intrusive doubly linked lists in byte memory. A node `n` keeps its
successor in the eight bytes at `n` and its predecessor in the eight
bytes at `n + 8`; the list hangs off a cell `a`, an eight-byte word
that is either a table slot or the successor word of a node. `Linked m
a ns` says the list hanging off `a` is exactly `ns`, and that every
node points back at the cell it hangs off.

# What the proofs turn on

Cells and nodes must not overlap; `Apart` says so once, as a statement
about addresses with no memory in it, and is inherited by every tail
(`Apart.tail`). Under it the two edits are local: `unlink` rewrites the
cell the node hangs off and the back pointer of its successor, `link`
pushes a fresh node on the front. `feet` is the list's whole footprint,
so each edit comes as a pair: the new list, and agreement off the feet.

A singly linked list keeps successors only (`Strung`). It lives in its
cell and in one word a node, is read off these, and there is one list a
cell.
-/
import MallocLab.Lib.Bytes

namespace MallocLab.Mem

-- ============================================================== the lists

/-- The list hanging off the cell `a` is `ns`: successors read forward,
predecessors read back, null at the end. -/
def Linked (m : Bytes) : Nat → List Nat → Prop
  | a, [] => rd 8 m a = 0
  | a, n :: ns => rd 8 m a = n ∧ rd 8 m (n + 8) = a ∧ Linked m n ns

/-- The bytes a list lives in: its cell and its nodes' two words. -/
def feet (a : Nat) (ns : List Nat) : Set Nat :=
  {x | (a ≤ x ∧ x < a + 8) ∨ ∃ n ∈ ns, n ≤ x ∧ x < n + 16}

/-- The cell and the nodes are pairwise disjoint, none of them null or
past the end of the address space. -/
structure Apart (a : Nat) (ns : List Nat) : Prop where
  cell : ∀ n ∈ ns, a + 8 ≤ n ∨ n + 16 ≤ a
  nodes : ns.Pairwise fun x y => x + 16 ≤ y ∨ y + 16 ≤ x
  pos : ∀ n ∈ ns, 0 < n
  cell_lt : a < 2 ^ 64
  node_lt : ∀ n ∈ ns, n < 2 ^ 64

/-- Point the node `next`, if there is one, back at `prev`. -/
def pointBack (m : Bytes) (next prev : Nat) : Bytes :=
  if next = 0 then m else wr 8 m (next + 8) prev

/-- Take the node `n` out of its list: its predecessor's successor
becomes its successor, and the other way round. -/
def unlink (m : Bytes) (n : Nat) : Bytes :=
  pointBack (wr 8 m (rd 8 m (n + 8)) (rd 8 m n)) (rd 8 m n)
    (rd 8 m (n + 8))

/-- Push the node `n` on the front of the list hanging off `a`. -/
def link (m : Bytes) (a n : Nat) : Bytes :=
  pointBack (wr 8 (wr 8 (wr 8 m n (rd 8 m a)) (n + 8) a) a n) (rd 8 m a) n

@[simp] theorem pointBack_null (m : Bytes) (p : Nat) :
    pointBack m 0 p = m := rfl

theorem pointBack_pos {n : Nat} (hn : 0 < n) (m : Bytes) (p : Nat) :
    pointBack m n p = wr 8 m (n + 8) p := if_neg (by omega)

/-- Off the node's back pointer, `pointBack` changes nothing. -/
theorem pointBack_of_out {m : Bytes} {n p x : Nat}
    (h : n = 0 ∨ x < n + 8 ∨ n + 16 ≤ x) : pointBack m n p x = m x := by
  unfold pointBack
  split
  · rfl
  · exact wr_of_out (by omega)

-- ======================================================= the separation

/-- A list's tail hangs off its first node, and is as well spread. -/
theorem Apart.tail {a n : Nat} {ns : List Nat} (h : Apart a (n :: ns)) :
    Apart n ns where
  cell := fun x hx => by
    rcases List.rel_of_pairwise_cons h.nodes hx with h | h
    · exact Or.inl (by omega)
    · exact Or.inr h
  nodes := h.nodes.of_cons
  pos := fun x hx => h.pos x (List.mem_cons_of_mem n hx)
  cell_lt := h.node_lt n List.mem_cons_self
  node_lt := fun x hx => h.node_lt x (List.mem_cons_of_mem n hx)

theorem mem_feet_cell {a x : Nat} {ns : List Nat} (h : a ≤ x)
    (h' : x < a + 8) : x ∈ feet a ns := Or.inl ⟨h, h'⟩

theorem mem_feet_node {a n x : Nat} {ns : List Nat} (hn : n ∈ ns)
    (h : n ≤ x) (h' : x < n + 16) : x ∈ feet a ns := Or.inr ⟨n, hn, h, h'⟩

/-- The tail's feet are among the list's. -/
theorem feet_tail {a n : Nat} {ns : List Nat} :
    feet n ns ⊆ feet a (n :: ns) := by
  rintro x (⟨h1, h2⟩ | ⟨k, hk, h1, h2⟩)
  · exact mem_feet_node List.mem_cons_self h1 (by omega)
  · exact mem_feet_node (List.mem_cons_of_mem n hk) h1 h2

/-- Away from the cell and every node's block of bytes, a list has no
feet. -/
theorem not_mem_feet {a x : Nat} {ns : List Nat}
    (hcell : x < a ∨ a + 8 ≤ x) (hns : ∀ n ∈ ns, x < n ∨ n + 16 ≤ x) :
    x ∉ feet a ns := by
  rintro (⟨h1, h2⟩ | ⟨n, hn, h1, h2⟩)
  · omega
  · have := hns n hn
    omega

-- =========================================================== the frame

/-- A list is read off its feet only. -/
theorem Linked.frame {m m' : Bytes} {a : Nat} {ns : List Nat}
    (h : Linked m a ns) (hm : Set.EqOn m' m (feet a ns)) :
    Linked m' a ns := by
  induction ns generalizing a with
  | nil =>
      have hcell : rd 8 m' a = rd 8 m a :=
        rd_congr fun x hx => hm (mem_feet_cell hx.1 hx.2)
      exact hcell.trans h
  | cons n ns ih =>
      obtain ⟨hnext, hprev, hrest⟩ := h
      have hcell : rd 8 m' a = rd 8 m a :=
        rd_congr fun x hx => hm (mem_feet_cell hx.1 hx.2)
      have hback : rd 8 m' (n + 8) = rd 8 m (n + 8) :=
        rd_congr fun x hx => hm (mem_feet_node List.mem_cons_self
          (by have := hx.1; omega) (by have := hx.2; omega))
      exact ⟨hcell.trans hnext, hback.trans hprev,
        ih hrest (hm.mono feet_tail)⟩

/-- The cell holds the first node, or null. -/
theorem Linked.cell_eq {m : Bytes} {a : Nat} {ns : List Nat}
    (h : Linked m a ns) : rd 8 m a = ns.headD 0 := by
  cases ns with
  | nil => exact h
  | cons n ns => exact h.1

/-- A node's successor word holds the node after it, or null. -/
theorem Linked.next_eq {m : Bytes} {a n : Nat} {xs ys : List Nat}
    (h : Linked m a (xs ++ n :: ys)) : rd 8 m n = ys.headD 0 := by
  induction xs generalizing a with
  | nil => exact h.2.2.cell_eq
  | cons x xs ih => exact ih h.2.2

/-- A node's predecessor word holds the cell it hangs off. -/
theorem Linked.prev_eq {m : Bytes} {a n : Nat} {xs ys : List Nat}
    (h : Linked m a (xs ++ n :: ys)) :
    rd 8 m (n + 8) = xs.getLastD a := by
  induction xs generalizing a with
  | nil => exact h.2.1
  | cons x xs ih => exact (ih h.2.2).trans List.getLastD_cons.symm

/-- The suffix of a list hangs off the node before it. -/
theorem Linked.suffix {m : Bytes} {a n : Nat} {xs ys : List Nat}
    (h : Linked m a (xs ++ n :: ys)) : Linked m n ys := by
  induction xs generalizing a with
  | nil => exact h.2.2
  | cons x xs ih => exact ih h.2.2

-- ============================================================ unlinking

/-- The cell a node hangs off is the list's own, or an earlier node. -/
private theorem getLastD_mem (a : Nat) (xs : List Nat) :
    xs.getLastD a = a ∨ xs.getLastD a ∈ xs := by
  rcases xs.eq_nil_or_concat with rfl | ⟨xs, x, rfl⟩
  · exact Or.inl rfl
  · exact Or.inr (by simp)

/-- Unlinking writes on the list's own feet only. -/
theorem unlink_eqOn {m : Bytes} {a n : Nat} {xs ys : List Nat}
    (h : Linked m a (xs ++ n :: ys)) :
    Set.EqOn (unlink m n) m (feet a (xs ++ n :: ys))ᶜ := by
  intro x hx
  have hprev : x < xs.getLastD a ∨ xs.getLastD a + 8 ≤ x := by
    by_contra hcon
    rcases getLastD_mem a xs with he | hmem
    · exact hx (mem_feet_cell (by omega) (by omega))
    · exact hx (mem_feet_node (List.mem_append_left _ hmem)
        (by omega) (by omega))
  have hnext : ys.headD 0 = 0 ∨ x < ys.headD 0 + 8
      ∨ ys.headD 0 + 16 ≤ x := by
    cases ys with
    | nil => exact Or.inl rfl
    | cons y ys =>
        by_contra hcon
        rw [List.headD_cons] at hcon
        exact hx (mem_feet_node (n := y) (by simp) (by omega) (by omega))
  unfold unlink
  rw [h.prev_eq, h.next_eq, pointBack_of_out hnext]
  exact wr_of_out hprev

/-- Unlinking a node leaves the list without it. -/
theorem unlink_linked {m : Bytes} {a n : Nat} {xs ys : List Nat}
    (h : Linked m a (xs ++ n :: ys)) (ha : Apart a (xs ++ n :: ys)) :
    Linked (unlink m n) a (xs ++ ys) := by
  induction xs generalizing a with
  | nil =>
      -- the node hangs off the cell itself
      have hsuf := h.suffix
      unfold unlink
      rw [h.prev_eq, h.next_eq]
      cases ys with
      | nil => exact rd_wr_of_lt (by decide)
      | cons y ys =>
          have hpos := ha.pos y (by simp)
          have hlt := ha.node_lt y (by simp)
          have hcell := ha.cell y (by simp)
          have hys := ha.tail
          have hself := hys.tail
          rw [List.headD_cons, List.getLastD_nil, pointBack_pos hpos]
          refine ⟨?_, rd_wr_of_lt ha.cell_lt, hsuf.2.2.frame ?_⟩
          · rw [rd_wr_ne (by omega)]
            exact rd_wr_of_lt hlt
          · -- the rest of the list hangs off `y`, clear of both writes
            rintro x (⟨h1, h2⟩ | ⟨k, hk, h1, h2⟩)
            · rw [wr_of_out (by omega), wr_of_out (by omega)]
            · have hky := hself.cell k hk
              have hka := ha.cell k (by simp [hk])
              have hkn := hys.nodes
              have hyk := List.rel_of_pairwise_cons hkn hk
              rw [wr_of_out (by omega), wr_of_out (by omega)]
  | cons x xs ih =>
      have hrest := ih h.2.2 ha.tail
      have hoff := unlink_eqOn h.2.2
      have hxa := ha.cell x List.mem_cons_self
      have hcell : ∀ k ∈ xs ++ n :: ys, a + 8 ≤ k ∨ k + 16 ≤ a :=
        fun k hk => ha.cell k (List.mem_cons_of_mem x hk)
      have hnode : ∀ k ∈ xs ++ n :: ys, x + 16 ≤ k ∨ k + 16 ≤ x :=
        fun k hk => List.rel_of_pairwise_cons ha.nodes hk
      refine ⟨?_, ?_, hrest⟩
      · rw [rd_congr fun z hz => hoff ?_]
        · exact h.1
        · have h1 := hz.1
          have h2 := hz.2
          exact not_mem_feet (by omega) fun k hk => by
            have := hcell k hk
            omega
      · rw [rd_congr fun z hz => hoff ?_]
        · exact h.2.1
        · have h1 := hz.1
          have h2 := hz.2
          exact not_mem_feet (by omega) fun k hk => by
            have := hnode k hk
            omega

-- ============================================================== linking

/-- Linking writes on the feet of the list it makes. -/
theorem link_eqOn {m : Bytes} {a n : Nat} {ns : List Nat}
    (h : Linked m a ns) :
    Set.EqOn (link m a n) m (feet a (n :: ns))ᶜ := by
  intro x hx
  have hn : x < n ∨ n + 16 ≤ x := by
    by_contra hcon
    exact hx (mem_feet_node List.mem_cons_self (by omega) (by omega))
  have hcell : x < a ∨ a + 8 ≤ x := by
    by_contra hcon
    exact hx (mem_feet_cell (by omega) (by omega))
  have hnext : ns.headD 0 = 0 ∨ x < ns.headD 0 + 8
      ∨ ns.headD 0 + 16 ≤ x := by
    cases ns with
    | nil => exact Or.inl rfl
    | cons k ns =>
        by_contra hcon
        rw [List.headD_cons] at hcon
        exact hx (mem_feet_node (n := k) (by simp) (by omega) (by omega))
  unfold link
  rw [h.cell_eq, pointBack_of_out hnext, wr_of_out (by omega),
    wr_of_out (by omega), wr_of_out (by omega)]

/-- Linking a fresh node puts it on the front. -/
theorem link_linked {m : Bytes} {a n : Nat} {ns : List Nat}
    (h : Linked m a ns) (ha : Apart a (n :: ns)) :
    Linked (link m a n) a (n :: ns) := by
  have han := ha.cell n List.mem_cons_self
  have hn_lt := ha.node_lt n List.mem_cons_self
  have ha_lt := ha.cell_lt
  unfold link
  rw [h.cell_eq]
  cases ns with
  | nil =>
      refine ⟨rd_wr_of_lt hn_lt, ?_, ?_⟩
      · rw [List.headD_nil, pointBack_null, rd_wr_ne (by omega)]
        exact rd_wr_of_lt ha_lt
      · show rd 8 _ n = 0
        rw [List.headD_nil, pointBack_null, rd_wr_ne (by omega),
          rd_wr_ne (by omega)]
        exact rd_wr_of_lt (by decide)
  | cons k ns =>
      have hpos := ha.pos k (by simp)
      have hk_lt := ha.node_lt k (by simp)
      have hka := ha.cell k (by simp)
      have htl := ha.tail
      have hkn := htl.cell k List.mem_cons_self
      have hnk := List.rel_of_pairwise_cons ha.nodes
        (List.mem_cons_self (a := k) (l := ns))
      rw [List.headD_cons, pointBack_pos hpos]
      refine ⟨?_, ?_, ?_, ?_, h.2.2.frame ?_⟩
      · rw [rd_wr_ne (by omega)]
        exact rd_wr_of_lt hn_lt
      · rw [rd_wr_ne (by omega), rd_wr_ne (by omega)]
        exact rd_wr_of_lt ha_lt
      · rw [rd_wr_ne (by omega), rd_wr_ne (by omega), rd_wr_ne (by omega)]
        exact rd_wr_of_lt hk_lt
      · exact rd_wr_of_lt hn_lt
      · -- the old tail hangs off `k`, clear of all four writes
        rintro x (⟨h1, h2⟩ | ⟨j, hj, h1, h2⟩)
        · rw [wr_of_out (by omega), wr_of_out (by omega),
            wr_of_out (by omega), wr_of_out (by omega)]
        · have hja := ha.cell j (by simp [hj])
          have hnj := List.rel_of_pairwise_cons ha.nodes
            (List.mem_cons_of_mem k hj)
          have hkj := List.rel_of_pairwise_cons htl.nodes hj
          rw [wr_of_out (by omega), wr_of_out (by omega),
            wr_of_out (by omega), wr_of_out (by omega)]

-- ==================================================== singly linked lists

/-- The list hanging off the cell `a` is `ns`, read forward: successors,
null at the end. -/
def Strung (m : Bytes) : Nat → List Nat → Prop
  | a, [] => rd 8 m a = 0
  | a, n :: ns => rd 8 m a = n ∧ Strung m n ns

/-- A singly linked list is read off its cell and its nodes' words. -/
theorem Strung.frame {m m' : Bytes} {a : Nat} {ns : List Nat}
    (h : Strung m a ns)
    (hm : ∀ n ∈ a :: ns, ∀ x, n ≤ x → x < n + 8 → m' x = m x) :
    Strung m' a ns := by
  induction ns generalizing a with
  | nil =>
      have hcell : rd 8 m' a = rd 8 m a :=
        rd_congr fun x hx => hm a List.mem_cons_self x hx.1 hx.2
      exact hcell.trans h
  | cons n ns ih =>
      have hcell : rd 8 m' a = rd 8 m a :=
        rd_congr fun x hx => hm a List.mem_cons_self x hx.1 hx.2
      refine ⟨hcell.trans h.1, ih h.2 ?_⟩
      intro k hk
      exact hm k (List.mem_cons_of_mem a hk)

/-- The cell holds the first node, or null. -/
theorem Strung.cell_eq {m : Bytes} {a : Nat} {ns : List Nat}
    (h : Strung m a ns) : rd 8 m a = ns.headD 0 := by
  cases ns with
  | nil => exact h
  | cons n ns => exact h.1

/-- A node's word holds the node after it, or null. -/
theorem Strung.next_eq {m : Bytes} {a n : Nat} {xs ys : List Nat}
    (h : Strung m a (xs ++ n :: ys)) : rd 8 m n = ys.headD 0 := by
  induction xs generalizing a with
  | nil => exact h.2.cell_eq
  | cons x xs ih => exact ih h.2

/-- There is one list a cell. -/
theorem Strung.unique {m : Bytes} {a : Nat} {ns ks : List Nat}
    (h : Strung m a ns) (h' : Strung m a ks) (hns : ∀ n ∈ ns, 0 < n)
    (hks : ∀ n ∈ ks, 0 < n) : ns = ks := by
  induction ns generalizing a ks with
  | nil =>
      cases ks with
      | nil => rfl
      | cons k ks =>
          have hnull : rd 8 m a = 0 := h
          have hk := hks k List.mem_cons_self
          have hhead := h'.1
          omega
  | cons n ns ih =>
      have hn := hns n List.mem_cons_self
      cases ks with
      | nil =>
          have hnull : rd 8 m a = 0 := h'
          have hhead := h.1
          omega
      | cons k ks =>
          have hnk : n = k := h.1.symm.trans h'.1
          subst hnk
          rw [ih h.2 h'.2 (fun x hx => hns x (List.mem_cons_of_mem n hx))
            fun x hx => hks x (List.mem_cons_of_mem n hx)]

/-- Pushing a fresh node on the front. -/
theorem Strung.push {m : Bytes} {a n : Nat} {ns : List Nat}
    (h : Strung m a ns) (hn : n < 2 ^ 64)
    (hsep : ∀ k ∈ a :: ns, k + 8 ≤ n ∨ n + 8 ≤ k)
    (hcell : ∀ k ∈ ns, a + 8 ≤ k ∨ k + 8 ≤ a) :
    Strung (wr 8 (wr 8 m n (rd 8 m a)) a n) a (n :: ns) := by
  have han := hsep a List.mem_cons_self
  have hhead : rd 8 (wr 8 (wr 8 m n (rd 8 m a)) a n) n = rd 8 m a := by
    rw [rd_wr_ne (by omega)]
    apply rd_wr_of_lt
    exact rd_lt 8 m a
  refine ⟨rd_wr_of_lt hn, ?_⟩
  cases ns with
  | nil => exact hhead.trans h
  | cons k ns =>
      refine ⟨hhead.trans h.1, h.2.frame ?_⟩
      intro j hj x hx hx'
      have hjn := hsep j (List.mem_cons_of_mem a hj)
      have hja := hcell j hj
      rw [wr_of_out (by omega), wr_of_out (by omega)]

/-- A doubly linked list is one read forward. -/
theorem Linked.strung {m : Bytes} {a : Nat} {ns : List Nat}
    (h : Linked m a ns) : Strung m a ns := by
  induction ns generalizing a with
  | nil => exact h
  | cons n ns ih => exact ⟨h.1, ih h.2.2⟩

end MallocLab.Mem
