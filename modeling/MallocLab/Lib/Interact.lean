/-
Programs that put queries and go on with the replies. A program is a
tree, with a query at each node and a branch for each reply it may get.

`play` runs a program against a handler, which has state and may stop;
`Behaves` is what can come of it under rules that leave the replies open.
A handler that keeps the rules simulates them: whatever it makes of a
program, the rules allow (`play_pays`). It need only keep them within its
means, for programs that stay within them.
-/
import MallocLab.Lib.Triple

namespace MallocLab.Interact

open Hoare

/-- A program that ends in an `α`: queries in `Q`, and a reply in `A q` to
the query `q`. -/
inductive Prog (Q : Type) (A : Q → Type) (α : Type) : Type
  | done (a : α)
  | ask (q : Q) (next : A q → Prog Q A α)

variable {Q : Type} {A : Q → Type} {α ε σ L T : Type}

/-- Every query of the program meets `P`, whatever the replies. -/
def Prog.All (P : Q → Prop) : Prog Q A α → Prop
  | .done _ => True
  | .ask q next => P q ∧ ∀ x, (next x).All P

/-- The queries of the program cost `b` at most, whatever the replies. -/
def Prog.Within (cost : Q → Nat) : Nat → Prog Q A α → Prop
  | _, .done _ => True
  | b, .ask q next => cost q ≤ b ∧ ∀ x, (next x).Within cost (b - cost q)

/-- Run the program against a handler, which carries an `L` along. -/
def Prog.play (handle : L → (q : Q) → EStateM ε σ (A q × L)) :
    L → Prog Q A α → EStateM ε σ α
  | _, .done a => pure a
  | l, .ask q next => do
      let (x, l) ← handle l q
      (next x).play handle l

/-- What may come of a program where `rule t q x t'` allows the reply `x`
to `q` in `t`, and goes on from `t'`. -/
inductive Prog.Behaves (rule : T → (q : Q) → A q → T → Prop) :
    T → Prog Q A α → α → Prop
  | done {t a} : Behaves rule t (.done a) a
  | ask {t t' q next x a} : rule t q x t' → Behaves rule t' (next x) a →
      Behaves rule t (.ask q next) a

/-- What is free is within any means. -/
theorem Prog.within_zero (b : Nat) (c : Prog Q A α) :
    c.Within (fun _ => 0) b := by
  induction c generalizing b with
  | done a => trivial
  | ask q next ih => exact ⟨Nat.zero_le b, fun x => ih x b⟩

/-- What rules allow, laxer rules allow. -/
theorem Prog.Behaves.mono {rule rule' : T → (q : Q) → A q → T → Prop}
    (h : ∀ t q x t', rule t q x t' → rule' t q x t') {t : T}
    {c : Prog Q A α} {a : α} (hc : c.Behaves rule t a) :
    c.Behaves rule' t a := by
  induction hc with
  | done => exact .done
  | ask hrule _ ih => exact .ask (h _ _ _ _ hrule) ih

/-- A handler that answers by the rules every query it can pay for, unless
it stops with `E`, makes of a program it can pay for what the rules allow,
unless it stops with `E`. -/
theorem play_pays (handle : L → (q : Q) → EStateM ε σ (A q × L))
    (rule : T → (q : Q) → A q → T → Prop) (cost : Q → Nat)
    {I : Nat → L → σ → T → Prop} {P : Q → Prop} {E : ε → σ → Prop}
    (hstep : ∀ b l s t q, I b l s t → P q → cost q ≤ b →
      (∃ x l' s' t', (handle l q).run s = .ok (x, l') s' ∧
        rule t q x t' ∧ I (b - cost q) l' s' t') ∨
      ∃ e s', (handle l q).run s = .error e s' ∧ E e s')
    {b : Nat} {l : L} {s : σ} {t : T} (c : Prog Q A α) (hI : I b l s t)
    (hP : c.All P) (hb : c.Within cost b) :
    (∃ a s', (c.play handle l).run s = .ok a s' ∧ c.Behaves rule t a) ∨
      ∃ e s', (c.play handle l).run s = .error e s' ∧ E e s' := by
  induction c generalizing b l s t with
  | done a => exact Or.inl ⟨a, s, rfl, .done⟩
  | ask q next ih =>
      obtain ⟨hq, hnext⟩ := hP
      obtain ⟨hcost, hrest⟩ := hb
      unfold Prog.play
      rcases hstep b l s t q hI hq hcost with
        ⟨x, l', s', t', hx, hrule, hI'⟩ | ⟨e, s', hx, hE⟩
      · rw [bind_ok hx]
        rcases ih x hI' (hnext x) (hrest x) with ⟨a, s'', ha, hb⟩ | hstop
        · exact Or.inl ⟨a, s'', ha, .ask hrule hb⟩
        · exact Or.inr hstop
      · exact Or.inr ⟨e, s', bind_error hx, hE⟩

end MallocLab.Interact
