import Stepwise.Proofs.Decimal.Value
import Stepwise.Proofs.LinearSystem.Collect
import Stepwise.Proofs.Reduction.Plain

/-! What the terms of an equation add up to. A tree of numbers, linear polynomials and operators has a
value for every choice of its variables. Main statement: when no number was rounded on the way, the
terms that are collected are the left side of the equation less its right side. -/
namespace Stepwise

open Decimal (IsRational Unrounded rational?)
open Loop (Leads)

def horner (x : ℚ) : List Float → Option ℚ
  | [] => some 0
  | c :: rest => do
    let c ← rational? c
    let q ← horner x rest
    return c + x * q

/-- The value for a choice of the variables. The terms of calls have none. -/
def Quantity.at? (v : Char → ℚ) : Quantity → Option ℚ
  | constant x => rational? x
  | polynomial p => horner (v p.letter) p.coefficients.toList
  | fraction n d => do
    let p ← n.at? v
    let q ← d.at? v
    if q = 0 then none else return p / q
  | trig _ | log _ => none

/-- The operators as operations on fractions. An exponent has to be whole. -/
def Token.Kind.apply? : Token.Kind → ℚ → ℚ → Option ℚ
  | .plus, p, q => some (p + q)
  | .minus, p, q => some (p - q)
  | .times, p, q => some (p * q)
  | .divide, p, q => if q = 0 then none else some (p / q)
  | .power, p, q => if q.den = 1 ∧ (p ≠ 0 ∨ 0 ≤ q) then some (p ^ q.num) else none
  | _, _, _ => none

namespace Tree

def at? (v : Char → ℚ) : Tree Mark → Option ℚ
  | leaf a => a.value.bind (Quantity.at? v)
  | group _ inner => inner.at? v
  | fork a left right => do
    let p ← left.at? v
    let q ← right.at? v
    a.token.kind.apply? p q

/-- The left side of an equation less its right side; the value of a tree that is not an equation. -/
def balance? (v : Char → ℚ) : Tree Mark → Option ℚ
  | fork a left right =>
    if a.token.kind = .equals then do
      let p ← left.at? v
      let q ← right.at? v
      return p - q
    else (fork a left right).at? v
  | x => x.at? v

def Unmarked (x : Tree Mark) : Prop := ∀ a ∈ x.flatten, a.call = none

def Sided (x : Tree Mark) : Prop := ∀ a ∈ x.flatten, a.token.kind ≠ .equals

/-- There is no equals sign but on top. -/
def IsEquation (x : Tree Mark) : Prop := ∀ a ∈ x.flatten.tail, a.token.kind ≠ .equals

instance (x : Tree Mark) : Decidable x.Unmarked := inferInstanceAs (Decidable (∀ a ∈ x.flatten, _))

instance (x : Tree Mark) : Decidable x.IsEquation := inferInstanceAs (Decidable (∀ a ∈ x.flatten.tail, _))

end Tree

namespace LinearSystem

namespace Terms

def sum (terms : Terms) (key : Key) : Float := (terms.lookup key).getD 0.0

def weight (v : Char → ℚ) : Key → ℚ
  | .letter name => v name
  | .constant => -1

/-- The coefficients times their variables, less the constant. -/
def total? (v : Char → ℚ) : Terms → Option ℚ
  | [] => some 0
  | (key, x) :: rest => do
    let p ← rational? x
    let q ← total? v rest
    return p * weight v key + q

def keys (terms : Terms) : List Key := terms.map Prod.fst

end Terms

section Exactness

def ExactLeaf (value : Option Quantity) (factor : Float) (terms : Terms) : Prop :=
  match value with
  | some (.polynomial p) =>
    let slope := factor * p.coefficient 1
    let offset := factor * p.coefficient 0
    let before := terms.sum (.letter p.letter)
    let constant := (terms.add (.letter p.letter) slope).sum .constant
    Unrounded (· * ·) factor (p.coefficient 1) slope ∧ Unrounded (· + ·) before slope (before + slope) ∧
      Unrounded (· * ·) factor (p.coefficient 0) offset ∧
      Unrounded (· - ·) constant offset (constant - offset)
  | some q =>
    let x := q.value?.getD 0.0
    Unrounded (· * ·) factor x (factor * x) ∧
      Unrounded (· - ·) (terms.sum .constant) (factor * x) (terms.sum .constant - factor * x)
  | none => True

instance : ∀ value factor terms, Decidable (ExactLeaf value factor terms)
  | some (.polynomial _), _, _ =>
    inferInstanceAs (Decidable (Unrounded .. ∧ Unrounded .. ∧ Unrounded .. ∧ Unrounded ..))
  | some (.constant _), _, _ | some (.trig _), _, _ | some (.log _), _, _ | some (.fraction _ _), _, _ =>
    inferInstanceAs (Decidable (Unrounded .. ∧ Unrounded ..))
  | none, _, _ => inferInstanceAs (Decidable True)

def ExactFactor (kind : Token.Kind) (left right : Option Float) (factor : Float) : Prop :=
  (kind = .times → ∀ k ∈ left.or right, Unrounded (· * ·) factor k (factor * k)) ∧
    (kind = .divide → ∀ k ∈ right, k != 0.0 → Unrounded (· / ·) factor k (factor / k))

instance (kind : Token.Kind) (left right : Option Float) (factor : Float) :
    Decidable (ExactFactor kind left right factor) :=
  inferInstanceAs (Decidable ((_ → ∀ k ∈ left.or right, _) ∧ (_ → ∀ k ∈ right, _ → _)))

def ExactStep (e : Formula) : List Part × Terms → Prop
  | ([], _) => True
  | ((id, factor) :: _, terms) =>
    let node := e.node id
    if node.isLeaf then ExactLeaf node.value factor terms
    else ExactFactor node.token.kind (node.left.bind (constantAt? e)) (node.right.bind (constantAt? e)) factor

instance (e : Formula) : DecidablePred (ExactStep e)
  | ([], _) => inferInstanceAs (Decidable True)
  | ((id, factor) :: _, terms) =>
    inferInstanceAs (Decidable (if (e.node id).isLeaf then ExactLeaf (e.node id).value factor terms
      else ExactFactor (e.node id).token.kind ((e.node id).left.bind (constantAt? e))
        ((e.node id).right.bind (constantAt? e)) factor))

/-- The run ends within `n` steps, and nothing is rounded in them. -/
def ExactWithin (e : Formula) : ℕ → List Part × Terms → Prop
  | 0, _ => False
  | n + 1, state => ExactStep e state ∧
    match collectStep e state with
    | .more next => ExactWithin e n next
    | .done _ => True

instance decidableExactWithin (e : Formula) : ∀ n state, Decidable (ExactWithin e n state)
  | 0, _ => inferInstanceAs (Decidable False)
  | n + 1, state => match step : collectStep e state with
    | .more next =>
      have := decidableExactWithin e n next
      decidable_of_iff (ExactStep e state ∧ ExactWithin e n next) (by rw [ExactWithin, step])
    | .done _ => decidable_of_iff (ExactStep e state) (by rw [ExactWithin, step, and_true])

def ExactFrom (e : Formula) (state : List Part × Terms) : Prop := ∃ n, ExactWithin e n state

def ExactCollection (e : Formula) : Prop := ExactFrom e ([(e.root, 1.0)], [])

theorem ExactFrom.step {e : Formula} {state : List Part × Terms} (exact : ExactFrom e state) :
    ExactStep e state := by
  obtain ⟨n, within⟩ := exact
  cases n with
  | zero => cases within
  | succ n => exact within.1

theorem ExactFrom.next {e : Formula} {state next : List Part × Terms} (exact : ExactFrom e state)
    (step : collectStep e state = .more next) : ExactFrom e next := by
  obtain ⟨n, within⟩ := exact
  cases n with
  | zero => cases within
  | succ n =>
    rw [ExactWithin, step] at within
    exact ⟨n, within.2⟩

theorem ExactFrom.leads {e : Formula} {n : ℕ} {state last : List Part × Terms} (exact : ExactFrom e state)
    (leads : Leads (collectStep e) n state last) : ExactFrom e last := by
  induction leads with
  | refl => exact exact
  | later step _ ih => exact ih (exact.next step)

end Exactness

section Sums

variable {terms : Terms} {key : Key} {x : Float} {p : ℚ} {v : Char → ℚ}

theorem Terms.sum_cons_self (sum : Float) (rest : Terms) : Terms.sum ((key, sum) :: rest) key = sum := by
  simp [Terms.sum]

theorem Terms.sum_cons_other {other : Key} (apart : other ≠ key) (sum : Float) (rest : Terms) :
    Terms.sum ((other, sum) :: rest) key = Terms.sum rest key := by
  have different : (key == other) = false := by simpa using apart.symm
  simp [Terms.sum, List.lookup_cons, different]

theorem Terms.total_cons {term : Key × Float} {rest : Terms} {s : ℚ} :
    Terms.total? v (term :: rest) = some s ↔
      ∃ p, IsRational term.2 p ∧ ∃ q, Terms.total? v rest = some q ∧ p * weight v term.1 + q = s := by
  simp [Terms.total?, IsRational, Option.bind_eq_some_iff]

def Terms.combine (op : Float → Float → Float) (key : Key) (x : Float) : Terms → Terms
  | [] => [(key, op 0.0 x)]
  | (k, sum) :: rest => if k = key then (k, op sum x) :: rest else (k, sum) :: Terms.combine op key x rest

theorem Terms.add_eq (terms : Terms) (key : Key) (x : Float) :
    terms.add key x = terms.combine (· + ·) key x := by
  induction terms with
  | nil => rfl
  | cons term rest ih => simp only [Terms.add, Terms.combine, ih]

theorem Terms.sub_eq (terms : Terms) (key : Key) (x : Float) :
    terms.sub key x = terms.combine (· - ·) key x := by
  induction terms with
  | nil => rfl
  | cons term rest ih => simp only [Terms.sub, Terms.combine, ih]

variable {op : Float → Float → Float} {f : ℚ → ℚ → ℚ}

theorem Terms.total_combine (value : IsRational x p) (linear : ∀ q, f q p = q + f 0 p)
    (exact : Unrounded f (terms.sum key) x (op (terms.sum key) x)) {s : ℚ} (total : terms.total? v = some s) :
    (terms.combine op key x).total? v = some (s + f 0 p * weight v key) := by
  induction terms generalizing s with
  | nil =>
    obtain rfl : 0 = s := Option.some.inj total
    exact Terms.total_cons.mpr ⟨_, exact.value .zero value, 0, rfl, by ring⟩
  | cons term rest ih =>
    obtain ⟨k, sum⟩ := term
    obtain ⟨q, before, r, others, rfl⟩ := Terms.total_cons.mp total
    by_cases same : k = key
    · subst same
      rw [Terms.sum_cons_self] at exact
      rw [Terms.combine, if_pos rfl]
      exact Terms.total_cons.mpr ⟨_, exact.value before value, r, others, by rw [linear q]; ring⟩
    · rw [Terms.sum_cons_other same] at exact
      rw [Terms.combine, if_neg same]
      exact Terms.total_cons.mpr ⟨q, before, _, ih exact others, by ring⟩

theorem Terms.keys_cons (term : Key × Float) (rest : Terms) :
    Terms.keys (term :: rest) = term.1 :: Terms.keys rest :=
  rfl

theorem Terms.mem_keys_combine {other : Key} :
    other ∈ (terms.combine op key x).keys ↔ other = key ∨ other ∈ terms.keys := by
  induction terms with
  | nil => simp [Terms.combine, Terms.keys]
  | cons term rest ih =>
    obtain ⟨k, sum⟩ := term
    rw [Terms.combine]
    split
    · next same =>
      subst same
      simp [Terms.keys_cons]
    · rw [Terms.keys_cons, Terms.keys_cons, List.mem_cons, List.mem_cons, ih]
      exact or_left_comm

theorem Terms.nodup_keys_combine (distinct : terms.keys.Nodup) : (terms.combine op key x).keys.Nodup := by
  induction terms with
  | nil => exact List.nodup_singleton key
  | cons term rest ih =>
    obtain ⟨k, sum⟩ := term
    rw [Terms.keys_cons] at distinct
    obtain ⟨fresh, distinct'⟩ := List.nodup_cons.mp distinct
    rw [Terms.combine]
    split
    · exact distinct
    · next apart =>
      refine List.nodup_cons.mpr ⟨fun member => ?_, ih distinct'⟩
      rcases Terms.mem_keys_combine.mp member with same | later
      · exact apart same
      · exact fresh later

end Sums

section Values

variable {e : Formula} {x : Tree Mark} {v : Char → ℚ}

theorem horner_linear {p : Polynomial} (linear : p.degree ≤ 1) {a b : ℚ}
    (constant : IsRational (p.coefficient 0) b) (slope : IsRational (p.coefficient 1) a) (x : ℚ) :
    horner x p.coefficients.toList = some (b + a * x) := by
  obtain ⟨⟨coefficients⟩, letter⟩ := p
  match coefficients with
  | [] =>
    obtain rfl := IsRational.zero.unique constant
    obtain rfl := IsRational.zero.unique slope
    simp [horner]
  | [c] =>
    obtain rfl := IsRational.zero.unique slope
    have lowest : rational? c = some b := constant
    simp [horner, lowest]
  | [c, d] =>
    have lowest : rational? c = some b := constant
    have highest : rational? d = some a := slope
    simp [horner, lowest, highest, mul_comm]
  | c :: d :: e :: rest =>
    simp [Polynomial.degree] at linear

/-- The number on a leaf is its value. -/
theorem at_constant (plain : x.Plain) (unmarked : x.Unmarked) {k : Float}
    (found : x.constant? = some k) {p : ℚ} (value : IsRational k p) : x.at? v = some p := by
  cases x with
  | group a inner => simp [Tree.constant?] at found
  | fork a left right => simp [Tree.constant?] at found
  | leaf a =>
    have call := unmarked a (List.mem_singleton_self a)
    simp only [Tree.constant?, call, Option.isNone_none, if_true] at found
    obtain ⟨q, settled, number⟩ := Option.bind_eq_some_iff.mp found
    have plain := plain a (List.mem_singleton_self a) call q settled
    rw [Tree.at?, settled, Option.bind_some]
    cases q with
    | constant x =>
      obtain rfl := Option.some.inj number
      exact value
    | polynomial p =>
      simp only [Quantity.value?] at number
      split at number
      · next flat =>
        obtain rfl := Option.some.inj number
        have none : p.coefficient 1 = 0.0 := by
          have short : p.coefficients.size ≤ 1 := by
            unfold Polynomial.degree at flat
            omega
          simp [Polynomial.coefficient, Array.getD, Nat.not_lt.mpr short]
        have slope : IsRational (p.coefficient 1) 0 := none ▸ IsRational.zero
        rw [Quantity.at?, horner_linear (by omega) value slope, zero_mul, add_zero]
      · cases number
    | trig t => cases plain
    | log t => cases plain
    | fraction n d => cases plain

theorem sound_leaf {a : Mark} (plain : a.IsPlain) (unmarked : a.call = none)
    {factor : Float} {f : ℚ} (value : IsRational factor f) {terms terms' : Terms}
    {s : ℚ} (total : terms.total? v = some s) (exact : ExactLeaf a.value factor terms)
    (found : leafTerms? (ofMark a) factor terms = some terms') :
    ∃ q, (Tree.leaf a).at? v = some q ∧ terms'.total? v = some (s + f * q) := by
  have settled : (ofMark a).value = a.value := rfl
  have uncalled : (ofMark a).call = none := unmarked
  simp only [leafTerms?, settled, uncalled] at found
  cases written : a.value with
  | none => simp [written] at found
  | some q =>
    have plain := plain unmarked q written
    rw [written] at exact found
    rw [Tree.at?, written, Option.bind_some]
    cases q with
    | constant x =>
      obtain ⟨⟨_, before, p, number, product⟩, sum⟩ := exact
      obtain rfl := value.unique before
      have number : rational? x = some p := number
      obtain rfl := Option.some.inj found
      refine ⟨p, number, ?_⟩
      rw [Terms.sub_eq, Terms.total_combine product (fun q => by ring) sum total]
      simp [Terms.weight]
    | polynomial p =>
      obtain ⟨⟨_, before, a, slope, product⟩, sum, ⟨_, before', b, constant, product'⟩, sum'⟩ := exact
      obtain rfl := value.unique before
      obtain rfl := value.unique before'
      simp only at found
      split at found
      · next linear =>
        obtain rfl := Option.some.inj found
        refine ⟨b + a * v p.letter, horner_linear linear constant slope _, ?_⟩
        have added := Terms.total_combine product (fun q => by ring) sum total
        rw [Terms.sub_eq, Terms.total_combine product' (fun q => by ring) sum' (Terms.add_eq .. ▸ added)]
        simp only [Terms.weight]
        exact congrArg some (by ring)
      · cases found
    | trig t => cases plain
    | log t => cases plain
    | fraction n d => cases plain

theorem unmarked_fork {a : Mark} {left right : Tree Mark} :
    (Tree.fork a left right).Unmarked ↔ a.call = none ∧ left.Unmarked ∧ right.Unmarked := by
  simp [Tree.Unmarked, Tree.flatten, or_imp, forall_and]

theorem sided_fork {a : Mark} {left right : Tree Mark} :
    (Tree.fork a left right).Sided ↔ a.token.kind ≠ .equals ∧ left.Sided ∧ right.Sided := by
  simp [Tree.Sided, Tree.flatten, or_imp, forall_and]

/-- Collecting a tree adds its value to the balance of the terms, times the factor it counts with. -/
def Sound (e : Formula) (v : Char → ℚ) (t : Tree NodeId) : Prop :=
  ∀ {factor : Float} {f : ℚ} {rest : List Part} {terms terms' : Terms} {s : ℚ}, IsRational factor f →
    terms.total? v = some s → ExactFrom e ((t.top, factor) :: rest, terms) →
    collect? (e.view t) factor terms = some terms' →
    ∃ q, (e.view t).at? v = some q ∧ terms'.total? v = some (s + f * q)

/-- The right operand is collected with its own factor, and then the left one. -/
theorem sound_sides {id : NodeId} {left right : Tree NodeId} (spans : e.Spans (.fork id left right))
    (formed : (e.view (.fork id left right)).Formed) (first : Sound e v left)
    (second : Sound e v right) {factor factor' : Float} {f f' : ℚ} (value : IsRational factor f)
    (value' : IsRational factor' f') {rest : List Part} {terms terms' : Terms} {s : ℚ}
    (total : terms.total? v = some s) (exact : ExactFrom e ((id, factor) :: rest, terms))
    (split : splitParts e id left.top right.top factor =
      .ok [(right.top, factor'), (left.top, factor)])
    (collected : (collect? (e.view right) factor' terms).bind (collect? (e.view left) factor) =
      some terms') :
    ∃ p q, (e.view left).at? v = some p ∧ (e.view right).at? v = some q ∧
      terms'.total? v = some (s + f' * q + f * p) := by
  obtain ⟨middle, collectedr, collectedl⟩ := Option.bind_eq_some_iff.mp collected
  have step : collectStep e ((id, factor) :: rest, terms) =
      .more ((right.top, factor') :: (left.top, factor) :: rest, terms) := by
    rw [collectStep_fork spans formed.1, split]
    rfl
  have exact := exact.next step
  have collects := collects_subtree spans.right formed.2.2 factor' ((left.top, factor) :: rest) terms
  rw [collectedr] at collects
  obtain ⟨k, _, leads⟩ := collects
  obtain ⟨q, valuer, totalr⟩ := second value' total exact collectedr
  obtain ⟨p, valuel, totall⟩ := first value totalr (exact.leads leads) collectedl
  exact ⟨p, q, valuel, valuer, totall⟩

theorem ExactFrom.factor {id : NodeId} {left right : Tree NodeId}
    (spans : e.Spans (.fork id left right)) {factor : Float} {rest : List Part} {terms : Terms}
    (exact : ExactFrom e ((id, factor) :: rest, terms)) :
    ExactFactor (e.node id).token.kind (e.view left).constant? (e.view right).constant? factor := by
  have isLeaf : (e.node id).isLeaf = false := spans.links.isLeaf_eq
  have first : (e.node id).left = some left.top := spans.links.1
  have second : (e.node id).right = some right.top := spans.links.2.1
  have step := exact.step
  simpa [ExactStep, isLeaf, first, second, constantAt_eq spans.left.links,
    constantAt_eq spans.right.links] using step

/-- One operand is collected with a factor of its own. The other operand is a constant, and part of
that factor. -/
theorem sound_side {id : NodeId} {left right side : Tree NodeId}
    (spans : e.Spans (.fork id left right)) (formed : (e.view (.fork id left right)).Formed)
    (sound : Sound e v side) {factor factor' : Float} {f' : ℚ} (value' : IsRational factor' f')
    {rest : List Part} {terms terms' : Terms}
    {s : ℚ} (total : terms.total? v = some s) (exact : ExactFrom e ((id, factor) :: rest, terms))
    (split : splitParts e id left.top right.top factor = .ok [(side.top, factor')])
    (collected : collect? (e.view side) factor' terms = some terms') :
    ∃ q, (e.view side).at? v = some q ∧ terms'.total? v = some (s + f' * q) := by
  have step : collectStep e ((id, factor) :: rest, terms) = .more ((side.top, factor') :: rest, terms) := by
    rw [collectStep_fork spans formed.1, split]
    rfl
  exact sound value' total (exact.next step) collected

/-- A product needs a constant operand, which is looked for on the left first. -/
theorem sound_times {id : NodeId} {left right : Tree NodeId} (spans : e.Spans (.fork id left right))
    (formed : (e.view (.fork id left right)).Formed) (plain : (e.view (.fork id left right)).Plain)
    (unmarked : (e.view (.fork id left right)).Unmarked) (times : (e.node id).token.kind = .times)
    (first : Sound e v left) (second : Sound e v right) : Sound e v (.fork id left right) := by
  intro factor f rest terms terms' s value total exact collected
  rw [Expression.view_fork] at plain unmarked collected ⊢
  obtain ⟨_, plainl, plainr⟩ := Tree.plain_fork.mp plain
  obtain ⟨_, unmarkedl, unmarkedr⟩ := unmarked_fork.mp unmarked
  obtain ⟨product, -⟩ := exact.factor spans
  have foundl := constantAt_eq spans.left.links
  have foundr := constantAt_eq spans.right.links
  have label : (e.node id).label.token.kind = .times := times
  simp only [collect?, label] at collected
  rw [Tree.at?, label]
  cases constantl : (e.view left).constant? with
  | some k =>
    simp only [constantl] at collected
    obtain ⟨_, before, p, number, scaled⟩ := product times k (by rw [constantl]; rfl)
    obtain rfl := value.unique before
    obtain ⟨q, valuer, sum⟩ := sound_side spans formed second scaled total exact
      (by simp only [splitParts, times, foundl, constantl]) collected
    have valuel := at_constant (v := v) plainl unmarkedl constantl number
    exact ⟨p * q, by simp [valuel, valuer, Token.Kind.apply?], by rw [sum]; exact congrArg some (by ring)⟩
  | none =>
    cases constantr : (e.view right).constant? with
    | none => simp [constantl, constantr] at collected
    | some k =>
      simp only [constantl, constantr] at collected
      obtain ⟨_, before, q, number, scaled⟩ := product times k (by rw [constantl, constantr]; rfl)
      obtain rfl := value.unique before
      obtain ⟨p, valuel, sum⟩ := sound_side spans formed first scaled total exact
        (by simp only [splitParts, times, foundl, foundr, constantl, constantr]) collected
      have valuer := at_constant (v := v) plainr unmarkedr constantr number
      exact ⟨p * q, by simp [valuel, valuer, Token.Kind.apply?], by rw [sum]; exact congrArg some (by ring)⟩

/-- A divisor is a constant other than zero. -/
theorem sound_divide {id : NodeId} {left right : Tree NodeId} (spans : e.Spans (.fork id left right))
    (formed : (e.view (.fork id left right)).Formed) (plain : (e.view (.fork id left right)).Plain)
    (unmarked : (e.view (.fork id left right)).Unmarked) (divide : (e.node id).token.kind = .divide)
    (first : Sound e v left) : Sound e v (.fork id left right) := by
  intro factor f rest terms terms' s value total exact collected
  rw [Expression.view_fork] at plain unmarked collected ⊢
  obtain ⟨_, _, plainr⟩ := Tree.plain_fork.mp plain
  obtain ⟨_, _, unmarkedr⟩ := unmarked_fork.mp unmarked
  obtain ⟨-, quotient⟩ := exact.factor spans
  have foundr := constantAt_eq spans.right.links
  have label : (e.node id).label.token.kind = .divide := divide
  simp only [collect?, label] at collected
  rw [Tree.at?, label]
  cases constantr : (e.view right).constant? with
  | none => simp [constantr] at collected
  | some k =>
    simp only [constantr] at collected
    split at collected
    · next nonzero =>
      obtain ⟨_, before, q, number, scaled⟩ := quotient divide k constantr nonzero
      obtain rfl := value.unique before
      have divisor : q ≠ 0 := fun zero => by
        have equal := (IsRational.beq_iff number .zero).mpr zero
        simp [bne, equal] at nonzero
      obtain ⟨p, valuel, sum⟩ := sound_side spans formed first scaled total exact
        (by simp only [splitParts, divide, foundr, constantr, nonzero, if_true]) collected
      have valuer := at_constant (v := v) plainr unmarkedr constantr number
      exact ⟨p / q, by simp [valuel, valuer, Token.Kind.apply?, divisor],
        by rw [sum]; exact congrArg some (by ring)⟩
    · cases collected

/-- A subtree without keywords and equals signs adds its value, times the factor it counts with. -/
theorem sound_subtree {t : Tree NodeId} (spans : e.Spans t) (formed : (e.view t).Formed)
    (plain : (e.view t).Plain) (unmarked : (e.view t).Unmarked) (sided : (e.view t).Sided) :
    Sound e v t := by
  induction t with
  | leaf id =>
    intro factor f rest terms terms' s value total exact collected
    have isLeaf : (e.node id).isLeaf = true := spans.links.isLeaf_eq
    have step : ExactLeaf (e.node id).label.value factor terms := by
      have step := exact.step
      rwa [ExactStep, Tree.top_leaf, if_pos isLeaf] at step
    exact sound_leaf (plain _ (List.mem_singleton_self _)) (unmarked _ (List.mem_singleton_self _))
      value total step collected
  | group id inner ih =>
    intro factor f rest terms terms' s value total exact collected
    rw [Expression.view_group, collect?] at collected
    split at collected
    · next bracket =>
      have step := (collectStep_group spans factor rest terms).trans (if_pos bracket)
      exact ih spans.group formed.2 (fun a member => plain a (List.mem_cons_of_mem _ member))
        (fun a member => unmarked a (List.mem_cons_of_mem _ member))
        (fun a member => sided a (List.mem_cons_of_mem _ member)) value total (exact.next step) collected
    · cases collected
  | fork id left right ihl ihr =>
    obtain ⟨_, plainl, plainr⟩ := Tree.plain_fork.mp plain
    obtain ⟨_, unmarkedl, unmarkedr⟩ := unmarked_fork.mp unmarked
    obtain ⟨other, sidedl, sidedr⟩ := sided_fork.mp sided
    have first : Sound e v left := ihl spans.left formed.2.1 plainl unmarkedl sidedl
    have second : Sound e v right := ihr spans.right formed.2.2 plainr unmarkedr sidedr
    have label : (e.node id).label.token.kind = (e.node id).token.kind := rfl
    rw [label] at other
    intro factor f rest terms terms' s value total exact collected
    cases kind : (e.node id).token.kind
    case equals => exact absurd kind other
    case times =>
      exact sound_times spans formed plain unmarked kind first second value total exact collected
    case divide =>
      exact sound_divide spans formed plain unmarked kind first value total exact collected
    -- no other operator than a sum or a difference is collected
    all_goals
      rw [Expression.view_fork] at collected ⊢
      simp only [collect?, label, kind, reduceCtorEq] at collected
    case plus =>
      obtain ⟨p, q, valuel, valuer, sum⟩ :=
        sound_sides spans formed first second value value total exact
          (by simp only [splitParts, kind]) collected
      rw [Tree.at?, label, kind]
      exact ⟨p + q, by simp [valuel, valuer, Token.Kind.apply?],
        by rw [sum]; exact congrArg some (by ring)⟩
    case minus =>
      obtain ⟨p, q, valuel, valuer, sum⟩ :=
        sound_sides spans formed first second value value.neg total exact
          (by simp only [splitParts, kind]) collected
      rw [Tree.at?, label, kind]
      exact ⟨p - q, by simp [valuel, valuer, Token.Kind.apply?],
        by rw [sum]; exact congrArg some (by ring)⟩

/-- Every key has one coefficient. -/
theorem nodup_collect {x : Tree Mark} {factor : Float} {terms terms' : Terms} (distinct : terms.keys.Nodup)
    (collected : collect? x factor terms = some terms') : terms'.keys.Nodup := by
  induction x generalizing factor terms terms' with
  | leaf a =>
    simp only [collect?, leafTerms?] at collected
    split at collected
    · split at collected
      · obtain rfl := Option.some.inj collected
        rw [Terms.sub_eq, Terms.add_eq]
        exact Terms.nodup_keys_combine (Terms.nodup_keys_combine distinct)
      · cases collected
    · split at collected
      · obtain rfl := Option.some.inj collected
        rw [Terms.sub_eq]
        exact Terms.nodup_keys_combine distinct
      · cases collected
    · cases collected
  | group a inner ih =>
    rw [collect?] at collected
    split at collected
    · exact ih distinct collected
    · cases collected
  | fork a left right ihl ihr =>
    have both {factor' : Float}
        (collected : (collect? right factor' terms).bind (collect? left factor) = some terms') :
        terms'.keys.Nodup := by
      obtain ⟨middle, one, two⟩ := Option.bind_eq_some_iff.mp collected
      exact ihl (ihr distinct one) two
    rw [collect?] at collected
    split at collected
    · exact both collected
    · exact both collected
    · exact both collected
    · split at collected
      · exact ihr distinct collected
      · exact ihl distinct collected
      · cases collected
    · split at collected
      · split at collected
        · exact ihl distinct collected
        · cases collected
      · cases collected
    · cases collected

/-- The whole tree adds the difference of its sides, or its value when it is no equation. -/
theorem sound_equation {t : Tree NodeId} (spans : e.Spans t) (formed : (e.view t).Formed)
    (plain : (e.view t).Plain) (unmarked : (e.view t).Unmarked)
    (equation : (e.view t).IsEquation) {terms : Terms} (exact : ExactFrom e ([(t.top, 1.0)], []))
    (collected : collect? (e.view t) 1.0 [] = some terms) :
    ∃ q, (e.view t).balance? v = some q ∧ terms.total? v = some q := by
  have alone (sided : (e.view t).Sided) : ∃ q, (e.view t).at? v = some q ∧ terms.total? v = some q := by
    obtain ⟨q, value, sum⟩ := sound_subtree spans formed plain unmarked sided .one rfl exact collected
    exact ⟨q, value, by simpa using sum⟩
  cases t with
  | leaf id =>
    have isLeaf : (e.node id).isLeaf = true := spans.links.isLeaf_eq
    have step : ExactLeaf (e.node id).label.value 1.0 [] := by
      have step := exact.step
      rwa [ExactStep, Tree.top_leaf, if_pos isLeaf] at step
    obtain ⟨q, value, sum⟩ := sound_leaf (v := v) (plain _ (List.mem_singleton_self _))
      (unmarked _ (List.mem_singleton_self _)) .one rfl step collected
    exact ⟨q, value, by simpa using sum⟩
  | group id inner =>
    refine alone fun a member => ?_
    rcases List.mem_cons.mp member with rfl | inside
    · have opening : (e.node id).label.token.kind = .opening := formed.1
      simp [opening]
    · exact equation a inside
  | fork id left right =>
    rw [Expression.view_fork] at plain unmarked equation collected alone ⊢
    have label : (e.node id).label.token.kind = (e.node id).token.kind := rfl
    have inside : ∀ a ∈ (e.view left).flatten ++ (e.view right).flatten, a.token.kind ≠ .equals := equation
    have sided := List.forall_mem_append.mp inside
    by_cases kind : (e.node id).token.kind = .equals
    · have first : Sound e v left :=
        sound_subtree spans.left formed.2.1 (Tree.plain_fork.mp plain).2.1
          (unmarked_fork.mp unmarked).2.1 sided.1
      have second : Sound e v right :=
        sound_subtree spans.right formed.2.2 (Tree.plain_fork.mp plain).2.2
          (unmarked_fork.mp unmarked).2.2 sided.2
      simp only [collect?, label, kind] at collected
      obtain ⟨p, q, valuel, valuer, sum⟩ := sound_sides spans formed first second .one (.neg .one) rfl exact
        (by simp only [splitParts, kind]) collected
      refine ⟨p - q, ?_, by rw [sum]; exact congrArg some (by ring)⟩
      rw [Tree.balance?, label, if_pos kind, valuel, valuer]
      rfl
    · rw [Tree.balance?, label, if_neg kind]
      exact alone (sided_fork.mpr ⟨kind, sided⟩)

end Values

/-- The terms of an equation without keywords. When no product, quotient or sum is rounded, every
variable has one coefficient, and the left side less the right side is what the coefficients times
their variables add up to, less the constant. Without an equals sign this is the value of the whole
tree. -/
theorem collectTerms_balance {text : String} {source e : Formula} {x : Tree Mark} {terms : Terms}
    (parsed : Expression.ofText text = .ok source) (prepared : Formula.prepare source = (e, .ok ()))
    (displays : e.Displays x) (unmarked : x.Unmarked) (equation : x.IsEquation) (exact : ExactCollection e)
    (collected : collectTerms e = .ok terms) :
    terms.keys.Nodup ∧ ∀ v, ∃ q, x.balance? v = some q ∧ terms.total? v = some q := by
  obtain ⟨formed, plain⟩ := Formula.displays_prepared parsed prepared displays
  have same := collectTerms_eq displays formed
  rw [collected] at same
  obtain ⟨t, spans, root, rfl⟩ := displays
  refine ⟨nodup_collect (show Terms.keys [] |>.Nodup from List.nodup_nil) same.symm, fun v => ?_⟩
  rw [ExactCollection, ← root] at exact
  exact sound_equation spans formed plain unmarked equation exact same.symm

/-- A factor and a divisor at a bracket, a negated side and a constant on each side. -/
theorem collectTerms_balance_scaled : ∃ (source e : Formula) (x : Tree Mark) (terms : Terms),
    Expression.ofText "2*(x-3)/4-5=-y" = .ok source ∧ Formula.prepare source = (e, .ok ()) ∧
      e.Displays x ∧ x.Unmarked ∧
      x.IsEquation ∧ ExactCollection e ∧ collectTerms e = .ok terms ∧
      terms.keys.Nodup ∧ ∀ v, ∃ q, x.balance? v = some q ∧ terms.total? v = some q := by
  have runs : (Expression.ofText "2*(x-3)/4-5=-y" : Except GrammarError Formula).toOption.any fun source =>
      (Formula.prepare source).2.isOk && (collectTerms (Formula.prepare source).1).isOk &&
        decide (ExactWithin (Formula.prepare source).1 30
            ([((Formula.prepare source).1.root, 1.0)], [])) := by
    decide +kernel
  have shape : (Tree.ofText "2*(x-3)/4-5=-y" : Except GrammarError (Tree Mark)).toOption.all fun y =>
      decide (y.prepare.1.Unmarked ∧ y.prepare.1.IsEquation) := by
    decide +kernel
  cases parsed : (Expression.ofText "2*(x-3)/4-5=-y" : Except GrammarError Formula) with
  | error error => simp [parsed, Except.toOption] at runs
  | ok source =>
    obtain ⟨y, built, shown, formed⟩ := Formula.displays_of_parsed parsed
    simp only [parsed, built, Except.toOption, Option.any_some, Option.all_some, Bool.and_eq_true,
      decide_eq_true_eq] at runs shape
    obtain ⟨⟨done, collects⟩, exact⟩ := runs
    obtain ⟨displays, _⟩ := Formula.prepare_eq shown formed
    cases prepared : Formula.prepare source with
    | mk e ended =>
    rw [prepared] at done collects exact displays
    cases ended with
    | error error => cases done
    | ok _ =>
      cases collected : collectTerms e with
      | error error => simp [collected, Except.isOk, Except.toBool] at collects
      | ok terms =>
        exact ⟨source, e, y.prepare.1, terms,
          rfl, prepared, displays, shape.1, shape.2, ⟨30, exact⟩, collected,
          collectTerms_balance parsed prepared displays shape.1 shape.2 ⟨30, exact⟩ collected⟩

end LinearSystem

end Stepwise
