import Mathlib.Data.List.Basic

/-!
# Sums of products with loads

Trees of sums and differences of products of operands, where an operand is a leaf or what is loaded
from the value of a sum, and the texts such a tree prints to.  The leaves, the values and the
arithmetic are parameters.

* `eval_isSome_iff` — **PROVED**: a tree has a value if and only if its leaves have one and its
  loads succeed;
* `eval_rel` — **PROVED**: readings of the leaves, the loads and the operations that agree up to a
  relation give values that do.
-/

namespace ArithmeticTree

inductive Kind where
  | operand
  | product
  | sum

inductive Sign where
  | plus
  | minus
  deriving DecidableEq

/-- Products and sums associate to the left; the first product of a sum may have a sign. -/
inductive Tree (α : Type) : Kind → Type where
  | leaf (a : α) : Tree α .operand
  | load (t : Tree α .sum) : Tree α .operand
  | one (f : Tree α .operand) : Tree α .product
  | times (p : Tree α .product) (f : Tree α .operand) : Tree α .product
  | first (sign : Option Sign) (p : Tree α .product) : Tree α .sum
  | next (t : Tree α .sum) (sign : Sign) (p : Tree α .product) : Tree α .sum

variable {α β γ : Type} {k : Kind}

namespace Tree

/-- How deep the loads nest. -/
def depth : {k : Kind} → Tree α k → ℕ
  | _, .leaf _ => 0
  | _, .load t => t.depth + 1
  | _, .one f => f.depth
  | _, .times p f => max p.depth f.depth
  | _, .first _ p => p.depth
  | _, .next t _ p => max t.depth p.depth

end Tree

/-! ### Values -/

/-- A reading of the leaves, the loads and the operations. -/
structure Reading (α β : Type) where
  leaf : α → Option β
  load : β → Option β
  times : β → β → β
  first : Sign → β → β
  next : Sign → β → β → β

namespace Tree

/-- The value of a tree, `none` where a leaf has none or a load fails. -/
def eval (r : Reading α β) : {k : Kind} → Tree α k → Option β
  | _, .leaf a => r.leaf a
  | _, .load t => (t.eval r).bind r.load
  | _, .one f => f.eval r
  | _, .times p f => (p.eval r).bind fun v => (f.eval r).map (r.times v)
  | _, .first sign p => (p.eval r).map (r.first (sign.getD .plus))
  | _, .next t sign p => (t.eval r).bind fun v => (p.eval r).map (r.next sign v)

/-- Every leaf has a value and every load succeeds. -/
def Resolves (r : Reading α β) : {k : Kind} → Tree α k → Prop
  | _, .leaf a => (r.leaf a).isSome
  | _, .load t => t.Resolves r ∧ ∀ v, t.eval r = some v → (r.load v).isSome
  | _, .one f => f.Resolves r
  | _, .times p f => p.Resolves r ∧ f.Resolves r
  | _, .first _ p => p.Resolves r
  | _, .next t _ p => t.Resolves r ∧ p.Resolves r

theorem eval_isSome_iff (r : Reading α β) (t : Tree α k) : (t.eval r).isSome ↔ t.Resolves r := by
  induction t with
  | leaf a => rfl
  | load t ih =>
    rw [eval, Resolves, ← ih]
    cases t.eval r <;> simp
  | one f ih => exact ih
  | times p f ihp ihf =>
    rw [eval, Resolves, ← ihp, ← ihf]
    cases p.eval r <;> cases f.eval r <;> simp
  | first sign p ih =>
    rw [eval, Resolves, ← ih, Option.isSome_map]
  | next t sign p iht ihp =>
    rw [eval, Resolves, ← iht, ← ihp]
    cases t.eval r <;> cases p.eval r <;> simp

section Rel

variable {β' γ' : Type} {R : β → γ → Prop} {R' : β' → γ' → Prop} {v : Option β} {w : Option γ}

theorem rel_bind (h : Option.Rel R v w) {f : β → Option β'} {g : γ → Option γ'}
    (hf : ∀ {a b}, R a b → Option.Rel R' (f a) (g b)) : Option.Rel R' (v.bind f) (w.bind g) := by
  cases h with
  | none => exact .none
  | some hv => exact hf hv

theorem rel_map (h : Option.Rel R v w) {f : β → β'} {g : γ → γ'}
    (hf : ∀ {a b}, R a b → R' (f a) (g b)) : Option.Rel R' (v.map f) (w.map g) := by
  cases h with
  | none => exact .none
  | some hv => exact .some (hf hv)

end Rel

/-- Readings that agree up to a relation. -/
structure Agrees (R : Kind → β → γ → Prop) (r : Reading α β) (r' : Reading α γ) : Prop where
  leaf : ∀ a, Option.Rel (R .operand) (r.leaf a) (r'.leaf a)
  load : ∀ {v v'}, R .sum v v' → Option.Rel (R .operand) (r.load v) (r'.load v')
  one : ∀ {v v'}, R .operand v v' → R .product v v'
  times : ∀ {v v' w w'}, R .product v v' → R .operand w w' →
    R .product (r.times v w) (r'.times v' w')
  first : ∀ sign {v v'}, R .product v v' → R .sum (r.first sign v) (r'.first sign v')
  next : ∀ sign {v v' w w'}, R .sum v v' → R .product w w' →
    R .sum (r.next sign v w) (r'.next sign v' w')

theorem eval_rel {R : Kind → β → γ → Prop} {r : Reading α β} {r' : Reading α γ}
    (h : Agrees R r r') (t : Tree α k) : Option.Rel (R k) (t.eval r) (t.eval r') := by
  induction t with
  | leaf a => exact h.leaf a
  | load t ih => exact rel_bind ih h.load
  | one f ih =>
    have hmap := rel_map ih (f := id) (g := id) h.one
    rwa [Option.map_id, Option.map_id] at hmap
  | times p f ihp ihf => exact rel_bind ihp fun hv => rel_map ihf fun hw => h.times hv hw
  | first sign p ih => exact rel_map ih fun hv => h.first _ hv
  | next t sign p iht ihp => exact rel_bind iht fun hv => rel_map ihp fun hw => h.next _ hv hw

end Tree

/-! ### Texts -/

/-- The characters of a text that are no leaf's. -/
structure Marks (γ : Type) where
  opening : γ
  closing : γ
  star : γ
  sign : Sign → γ
  blank : γ → Bool

def Marks.Blanks (m : Marks γ) (s : List γ) : Prop := ∀ c ∈ s, m.blank c = true

namespace Tree

/-- The texts of a tree: blanks may stand before every token. -/
def Prints (m : Marks γ) (text : α → List γ) : {k : Kind} → Tree α k → List γ → Prop
  | _, .leaf a, s => s = text a
  | _, .load t, s => ∃ w blanks, t.Prints m text w ∧ m.Blanks blanks ∧
      s = m.opening :: (w ++ blanks ++ [m.closing])
  | _, .one f, s => ∃ blanks w, m.Blanks blanks ∧ f.Prints m text w ∧ s = blanks ++ w
  | _, .times p f, s => ∃ front blanks blanks' w, p.Prints m text front ∧ m.Blanks blanks ∧
      m.Blanks blanks' ∧ f.Prints m text w ∧ s = front ++ blanks ++ m.star :: (blanks' ++ w)
  | _, .first none p, s => p.Prints m text s
  | _, .first (some sign) p, s => ∃ blanks w, m.Blanks blanks ∧ p.Prints m text w ∧
      s = blanks ++ m.sign sign :: w
  | _, .next t sign p, s => ∃ front blanks w, t.Prints m text front ∧ m.Blanks blanks ∧
      p.Prints m text w ∧ s = front ++ blanks ++ m.sign sign :: w

/-- The texts of a sum that stands alone: blanks may stand after it too. -/
def PrintsLine (m : Marks γ) (text : α → List γ) (t : Tree α .sum) (s : List γ) : Prop :=
  ∃ w blanks, t.Prints m text w ∧ m.Blanks blanks ∧ s = w ++ blanks

end Tree

end ArithmeticTree
