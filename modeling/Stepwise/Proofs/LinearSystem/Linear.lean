import Stepwise.LinearSystem.Table
import Stepwise.Proofs.LinearSystem.Balance
import Stepwise.Proofs.Reduction.Expand

/-! Linear equations as they are written: sums and differences of integers and of letters with an
integer in front of them, and integer multiples and fractions of such sides. Main statement: a
linear side is prepared to a tree of the same value, and its terms are collected. -/
namespace Stepwise

open Decimal (IsRational IsWhole)
open LinearSystem (collect? leafTerms? ofMark Terms Key unmarked_fork sided_fork)

variable {ν : Type}

def unsigned (text : String) : List Char :=
  match text.toList with
  | '-' :: digits => digits
  | digits => digits

theorem isLiteral_iff {text : String} :
    IsLiteral text ↔ unsigned text ≠ [] ∧ ∀ c ∈ unsigned text, c.isDigit := by
  constructor
  · rintro ⟨digits, nonempty, all, plain | minus⟩
    · have same : unsigned text = digits := by
        rw [unsigned, plain]
        split
        · exact absurd (all '-' (List.mem_cons_self ..)) (by decide)
        · rfl
      exact same ▸ ⟨nonempty, all⟩
    · have same : unsigned text = digits := by simp only [unsigned, minus]
      exact same ▸ ⟨nonempty, all⟩
  · rintro ⟨nonempty, all⟩
    refine ⟨_, nonempty, all, ?_⟩
    unfold unsigned
    split
    · next same => exact .inr same
    · exact .inl rfl

instance (text : String) : Decidable (IsLiteral text) :=
  decidable_of_iff (unsigned text ≠ [] ∧ (unsigned text).all Char.isDigit)
    (by rw [isLiteral_iff, List.all_eq_true])

namespace Tree

section Written

def IsInteger : Tree (Label ν) → Prop
  | leaf a => a.call = none ∧ a.token.kind = .number ∧ IsLiteral a.token.text
  | _ => False

instance : DecidablePred (IsInteger (ν := ν))
  | leaf a => inferInstanceAs (Decidable (a.call = none ∧ _ ∧ _))
  | group _ _ | fork _ _ _ => inferInstanceAs (Decidable False)

def integer : Tree (Label ν) → ℤ
  | leaf a => literal a.token.text
  | _ => 0

/-- The integer and the letter of `n * v ^ 1`, which is how a letter is read. -/
def term? : Tree (Label ν) → Option (ℤ × Char)
  | fork a n (fork b (leaf c) k) =>
    if (a.call = none ∧ a.token.kind = .times ∧ n.IsInteger) ∧
        (b.call = none ∧ b.token.kind = .power ∧ k.IsInteger ∧ k.integer = 1) ∧ c.call = none ∧
        c.token.kind = .letter then
      c.token.text.toList.head?.map (n.integer, ·)
    else none
  | _ => none

/-- Integers, letters with an integer in front of them, and their sums, differences, integer
multiples and fractions. -/
def IsLinear : Tree (Label ν) → Prop
  | leaf a => (leaf a).IsInteger
  | group _ _ => False
  | fork a left right => (fork a left right).term?.isSome ∨ a.call = none ∧
    match a.token.kind with
    | .plus | .minus => left.IsLinear ∧ right.IsLinear
    | .times => left.IsInteger ∧ right.IsLinear ∨ left.IsLinear ∧ right.IsInteger
    | .divide => left.IsLinear ∧ right.IsInteger ∧ right.integer ≠ 0
    | _ => False

instance decidableIsLinear : DecidablePred (IsLinear (ν := ν))
  | leaf a => inferInstanceAs (Decidable (leaf a).IsInteger)
  | group _ _ => inferInstanceAs (Decidable False)
  | fork a left right =>
    have := decidableIsLinear left
    have := decidableIsLinear right
    have : Decidable (match a.token.kind with
      | .plus | .minus => left.IsLinear ∧ right.IsLinear
      | .times => left.IsInteger ∧ right.IsLinear ∨ left.IsLinear ∧ right.IsInteger
      | .divide => left.IsLinear ∧ right.IsInteger ∧ right.integer ≠ 0
      | _ => False) := by cases a.token.kind <;> infer_instance
    inferInstanceAs (Decidable (_ ∨ a.call = none ∧ _))

def IsLinearEquation : Tree (Label ν) → Prop
  | fork a left right => a.call = none ∧ a.token.kind = .equals ∧ left.IsLinear ∧ right.IsLinear
  | _ => False

instance : DecidablePred (IsLinearEquation (ν := ν))
  | leaf _ | group _ _ => inferInstanceAs (Decidable False)
  | fork a _ _ => inferInstanceAs (Decidable (a.call = none ∧ _ ∧ _ ∧ _))

/-- The value for a choice of the variables. An equation counts as its left side less its right side. -/
def exact (v : Char → ℚ) : Tree (Label ν) → ℚ
  | leaf a =>
    if a.token.kind = .letter then (a.token.text.toList.head?.map v).getD 0
      else literal a.token.text
  | group _ inner => inner.exact v
  | fork a left right =>
    match a.token.kind with
    | .plus => left.exact v + right.exact v
    | .minus | .equals => left.exact v - right.exact v
    | .times => left.exact v * right.exact v
    | .divide => left.exact v / right.exact v
    | .power => left.exact v ^ (right.exact v).num
    | _ => 0

def coefficient (x : Tree (Label ν)) (letter : Char) : ℚ := x.exact (Pi.single letter 1) - x.exact 0

/-- The letters, but those with a literal zero in front of them. -/
def letters : Tree (Label ν) → List Char
  | leaf _ => []
  | group _ inner => inner.letters
  | fork a left right =>
    match (fork a left right).term? with
    | some (n, letter) => if n = 0 then [] else [letter]
    | none => left.letters ++ right.letters

def ReadsExactly (x : Tree (Label ν)) : Prop :=
  ∀ a ∈ x.flatten, a.token.kind = .number → Exact (literal a.token.text)

instance : DecidablePred (ReadsExactly (ν := ν)) :=
  fun x => inferInstanceAs (Decidable (∀ a ∈ x.flatten, _ → _))

theorem readsExactly_fork {a : Label ν} {left right : Tree (Label ν)}
    (reads : (fork a left right).ReadsExactly) :
    left.ReadsExactly ∧ right.ReadsExactly :=
  ⟨fun b member => reads b (List.mem_cons_of_mem _ (List.mem_append_left _ member)),
    fun b member => reads b (List.mem_cons_of_mem _ (List.mem_append_right _ member))⟩

theorem IsInteger.exact_eq {x : Tree (Label ν)} (isInteger : x.IsInteger) (v : Char → ℚ) :
    x.exact v = x.integer := by
  cases x with
  | leaf a => rw [exact, if_neg (by simp [isInteger.2.1]), integer]
  | group a inner => exact isInteger.elim
  | fork a left right => exact isInteger.elim

/-- A term is an integer in front of a letter. -/
theorem term_cases {x : Tree (Label ν)} {n : ℤ} {letter : Char} (found : x.term? = some (n, letter)) :
    ∃ a m b c k, x = fork a m (fork b (leaf c) k) ∧ (a.call = none ∧ a.token.kind = .times) ∧
      (m.IsInteger ∧ m.integer = n) ∧
      b.token.kind = .power ∧ (k.IsInteger ∧ k.integer = 1) ∧ (c.call = none ∧ c.token.kind = .letter) ∧
      c.token.text.toList.head? = some letter := by
  unfold term? at found
  split at found
  · next a m b c k =>
    split at found
    · next shape =>
      obtain ⟨_, named, same⟩ := Option.map_eq_some_iff.mp found
      obtain ⟨rfl, rfl⟩ := Prod.mk.inj same
      obtain ⟨⟨call, times, isInteger⟩, ⟨_, power, one⟩, bare⟩ := shape
      exact ⟨a, m, b, c, k, rfl, ⟨call, times⟩, ⟨isInteger, rfl⟩, power, one, bare, named⟩
    · cases found
  · cases found

theorem exact_term {x : Tree (Label ν)} {n : ℤ} {letter : Char} (found : x.term? = some (n, letter))
    (v : Char → ℚ) :
    x.exact v = n * v letter := by
  obtain ⟨a, m, b, c, k, rfl, ⟨_, times⟩, ⟨isInteger, rfl⟩, power, ⟨one, value⟩, ⟨_, kind⟩,
    named⟩ := term_cases found
  have height : k.exact v = 1 := by rw [one.exact_eq, value, Int.cast_one]
  simp [exact, times, power, kind, named, height, isInteger.exact_eq]

end Written

section Prepared

variable {x y left right : Tree Mark} {a : Mark}

structure Collected (x : Tree (Label ν)) (y : Tree Mark) : Prop where
  value : ∀ v, y.at? v = some (x.exact v)
  unmarked : y.Unmarked
  sided : y.Sided
  terms : ∀ factor terms, ∃ terms', collect? y factor terms = some terms' ∧
    ∀ letter, .letter letter ∈ terms'.keys ↔ .letter letter ∈ terms.keys ∨ letter ∈ x.letters
  settled : y.constant?.isSome → x.letters = []

theorem IsInteger.numberLeaf (isInteger : x.IsInteger) (reads : x.ReadsExactly) :
    ∃ c, x.numberLeaf? = some c ∧ IsWhole c x.integer := by
  cases x with
  | leaf a =>
    obtain ⟨call, kind, isLiteral⟩ := isInteger
    obtain ⟨c, read, whole⟩ := isLiteral.read (reads a (List.mem_singleton_self a) kind)
    exact ⟨c, by rw [numberLeaf?, if_pos ⟨kind, by simp [call]⟩, read], whole⟩
  | group a inner => exact isInteger.elim
  | fork a left right => exact isInteger.elim

theorem attachQuantities_collapse {a : Mark} (call : a.call = none) (q : Quantity) :
    (leaf (a.collapse q)).attachQuantities = leaf (a.collapse q) := by
  have number : (a.collapse q).attachNumber = a.collapse q := rfl
  rw [attachQuantities, number, attachCall_unmarked (x := leaf (a.collapse q)) call, top_leaf]

/-- An integer is prepared to its number. -/
theorem IsInteger.prepared (isInteger : x.IsInteger) (fresh : x.Fresh) (reads : x.ReadsExactly) :
    ∃ (a : Mark) (c : Float),
      x.recognize.attachQuantities = leaf (a.collapse (.constant c)) ∧ a.call = none ∧
      IsRational c x.integer := by
  cases x with
  | leaf a =>
    obtain ⟨call, kind, isLiteral⟩ := isInteger
    obtain ⟨c, read, whole⟩ := isLiteral.read (reads a (List.mem_singleton_self a) kind)
    have none : (leaf a).recognized? = none := by simp [recognized?, monomial?, isLeaf, kind]
    have number : a.attachNumber = a.collapse (.constant c) := by
      simp [Label.attachNumber, (fresh a (List.mem_singleton_self a)).value, kind, read]
    refine ⟨a, c, ?_, call, whole.isRational⟩
    rw [recognize, none]
    simp only
    rw [attachQuantities, number, attachCall_unmarked (x := leaf (a.collapse _)) call, top_leaf]
  | group a inner => exact isInteger.elim
  | fork a left right => exact isInteger.elim

/-- A number on a leaf. -/
theorem Collected.constant {a : Mark} {c : Float} {n : ℚ} (call : a.call = none)
    (number : IsRational c n) {x : Tree (Label ν)} (value : ∀ v, x.exact v = n)
    (none : x.letters = []) : Collected x (leaf (a.collapse (.constant c))) where
  value v := by rw [value, at?]; exact number
  unmarked b member := List.mem_singleton.mp member ▸ call
  sided b member := by
    obtain rfl := List.mem_singleton.mp member
    have kind : (a.collapse (.constant c)).token.kind = .number := rfl
    simp [kind]
  terms factor terms := by
    have uncalled : (ofMark (a.collapse (.constant c))).call = Option.none := call
    refine ⟨terms.sub .constant (factor * c), ?_, fun letter => ?_⟩
    · simp [collect?, leafTerms?, ofMark, Label.collapse, Quantity.isConstant, Quantity.value?] at uncalled ⊢
      exact uncalled
    · rw [Terms.sub_eq, Terms.mem_keys_combine, none]
      simp
  settled _ := none

/-- A letter on a leaf, with what stands in front of it. -/
theorem Collected.polynomial {a : Mark} {p : Polynomial}
    {n : ℚ} (call : a.call = none) (linear : p.degree = 1) (offset : IsRational (p.coefficient 0) 0)
    (slope : IsRational (p.coefficient 1) n) {x : Tree (Label ν)}
    (value : ∀ v, x.exact v = n * v p.letter) (single : x.letters = [p.letter]) :
    Collected x (leaf (a.collapse (.polynomial p))) where
  value v := by
    rw [value, at?]
    exact (LinearSystem.horner_linear linear.le offset slope _).trans (by rw [zero_add])
  unmarked b member := List.mem_singleton.mp member ▸ call
  sided b member := by
    obtain rfl := List.mem_singleton.mp member
    have kind : (a.collapse (.polynomial p)).token.kind = .polynomial := rfl
    simp [kind]
  terms factor terms := by
    refine ⟨(terms.add (.letter p.letter) (factor * p.coefficient 1)).sub .constant
      (factor * p.coefficient 0), ?_, fun letter => ?_⟩
    · simp [collect?, leafTerms?, ofMark, Label.collapse, linear]
    · rw [Terms.sub_eq, Terms.add_eq, Terms.mem_keys_combine, Terms.mem_keys_combine, single]
      simp [or_comm]
  settled number := by simp [constant?, Label.collapse, call, Quantity.value?, linear] at number

/-- A letter is prepared to a polynomial, or to zero when zero stands in front of it. -/
theorem collected_term {n : ℤ} {letter : Char} (found : x.term? = some (n, letter))
    (reads : x.ReadsExactly) (fresh : x.Fresh) :
    Collected x x.recognize.attachQuantities := by
  have value := exact_term found
  have letters : x.letters = if n = 0 then [] else [letter] := by
    cases x with
    | leaf a => cases found
    | group a inner => cases found
    | fork a left right => rw [Tree.letters, found]
  obtain ⟨a, m, b, c, k, rfl, ⟨call, times⟩, ⟨isInteger, rfl⟩, power, ⟨one, height⟩,
      ⟨uncalled, kind⟩, named⟩ :=
    term_cases found
  obtain ⟨readsm, inner⟩ := readsExactly_fork reads
  obtain ⟨y, number, whole⟩ := isInteger.numberLeaf readsm
  obtain ⟨z, number', whole'⟩ := one.numberLeaf (readsExactly_fork inner).2
  rw [height] at whole'
  have exponent : polynomialPower? z = some 1 := by
    simp [polynomialPower?, whole'.toWhole, maxPolynomialPower]
  have bare : (leaf c).letterLeaf? = some letter := by
    rw [letterLeaf?, if_pos ⟨kind, by simp [uncalled]⟩, named]
  have settled := (fresh a (List.mem_cons_self ..)).value
  have recognized : (fork a m (fork b (leaf c) k)).recognized? =
      some (Quantity.polynomial (.monomial y 1 letter)).normalized := by
    simp [recognized?, monomial?, times, settled, number, power, bare, number', exponent]
  rw [recognize, recognized]
  simp only
  rw [attachQuantities_collapse call]
  obtain ⟨spells, named'⟩ := Polynomial.monomial_spells whole 1 letter
  have degree := spells.degree
  rw [pow_one] at spells degree
  by_cases zero : m.integer = 0
  · have flat : (Polynomial.monomial y 1 letter).degree = 0 := by rw [degree, zero]; simp
    have offset := (spells.whole 0).isRational
    rw [zero] at offset
    simp only [map_zero, zero_mul, Polynomial.coeff_zero, Int.cast_zero] at offset
    rw [Quantity.normalized, if_pos flat]
    exact .constant call offset (fun v => by rw [value, zero]; simp) (by rw [letters, if_pos zero])
  · have linear : (Polynomial.monomial y 1 letter).degree = 1 := by
      rw [degree, Polynomial.natDegree_C_mul_X _ zero]
    have offset := (spells.whole 0).isRational
    have slope := (spells.whole 1).isRational
    simp only [Polynomial.mul_coeff_zero, Polynomial.coeff_X_zero, mul_zero, Int.cast_zero] at offset
    simp only [Polynomial.coeff_C_mul, Polynomial.coeff_X_one, mul_one] at slope
    rw [Quantity.normalized, if_neg (by omega)]
    exact .polynomial call linear offset slope (fun v => by rw [value, named'])
      (by rw [letters, if_neg zero, named'])

/-- An operator over two sides stands for what it makes of them. -/
theorem Collected.operator {a : Mark} {left right : Tree (Label ν)} {l r : Tree Mark} {b : Label ν}
    (first : Collected left l) (second : Collected right r) (call : a.call = none)
    (other : a.token.kind ≠ .equals)
    (value : ∀ v, a.token.kind.apply? (left.exact v) (right.exact v) =
      some ((fork b left right).exact v))
    (terms : ∀ factor terms, ∃ terms', collect? (fork a l r) factor terms = some terms' ∧
      ∀ letter, .letter letter ∈ terms'.keys ↔ .letter letter ∈ terms.keys ∨
      letter ∈ (fork b left right).letters) :
    Collected (fork b left right) (fork a l r) where
  value v := by
    rw [at?, first.value, second.value]
    exact value v
  unmarked := unmarked_fork.mpr ⟨call, first.unmarked, second.unmarked⟩
  sided := sided_fork.mpr ⟨other, first.sided, second.sided⟩
  terms := terms
  settled number := by cases number

/-- The terms of both sides. -/
theorem Collected.both {left right : Tree (Label ν)} {l r : Tree Mark} (first : Collected left l)
    (second : Collected right r) (factor factor' : Float) (terms : Terms) :
    ∃ terms', (collect? r factor' terms).bind (collect? l factor) = some terms' ∧
      ∀ letter, .letter letter ∈ terms'.keys ↔ .letter letter ∈ terms.keys ∨
      letter ∈ left.letters ++ right.letters := by
  obtain ⟨middle, collected, keys⟩ := second.terms factor' terms
  obtain ⟨terms', collected', keys'⟩ := first.terms factor middle
  refine ⟨terms', by rw [collected]; exact collected', fun letter => ?_⟩
  rw [keys', keys, List.mem_append, or_assoc, or_comm (a := letter ∈ right.letters)]

theorem letters_fork {a : Label ν} {left right : Tree (Label ν)} (bare : (fork a left right).term? = none) :
    (fork a left right).letters = left.letters ++ right.letters := by
  rw [letters, bare]

theorem term_eq_none {a : Label ν} (other : a.token.kind ≠ .times) (left right : Tree (Label ν)) :
    (fork a left right).term? = none := by
  unfold term?
  split
  · next same =>
    cases same
    simp [other]
  · rfl

theorem Collected.sum {a : Mark} {left right l r : Tree Mark}
    (first : Collected left l) (second : Collected right r) (call : a.call = none)
    (kind : a.token.kind = .plus ∨ a.token.kind = .minus) :
    Collected (fork a left right) (fork a l r) := by
  have bare : (fork a left right).term? = none :=
    term_eq_none (by rcases kind with kind | kind <;> simp [kind]) left right
  refine first.operator second call (by rcases kind with kind | kind <;> simp [kind])
    (fun v => by rcases kind with kind | kind <;> simp [kind, Token.Kind.apply?, exact])
    fun factor terms => ?_
  rw [letters_fork bare]
  rcases kind with kind | kind <;> simp only [collect?, kind]
  · exact first.both second factor factor terms
  · exact first.both second factor (-factor) terms

theorem IsInteger.letters_eq {x : Tree (Label ν)} (isInteger : x.IsInteger) : x.letters = [] := by
  cases x with
  | leaf a => rfl
  | group a inner => exact isInteger.elim
  | fork a left right => exact isInteger.elim

theorem IsInteger.isLinear {x : Tree (Label ν)} (isInteger : x.IsInteger) : x.IsLinear := by
  cases x with
  | leaf a => exact isInteger
  | group a inner => exact isInteger.elim
  | fork a left right => exact isInteger.elim

/-- Only a term is a power, so nothing with a linear right side is recognized as a monomial. -/
theorem recognized_fork {a : Mark} (linear : right.IsLinear) : (fork a left right).recognized? = none := by
  have none : (fork a left right).monomial? = none := by
    cases right with
    | leaf b => rfl
    | group b inner => rfl
    | fork b base exponent =>
      have other : b.token.kind ≠ .power := fun power => by
        rw [IsLinear, term_eq_none (by simp [power]), power] at linear
        simp at linear
      simp [monomial?, other]
  simp [recognized?, none, isLeaf]

theorem prepared_fork {a : Mark} (call : a.call = none) (linear : right.IsLinear) :
    (fork a left right).recognize.attachQuantities =
    fork a left.recognize.attachQuantities right.recognize.attachQuantities := by
  rw [recognize, recognized_fork linear]
  simp only
  rw [attachQuantities, attachCall_unmarked (x := fork a left.recognize right.recognize) call, top_fork]

theorem IsInteger.foldFactorials (isInteger : x.IsInteger) : x.foldFactorials = (x, .ok ()) := by
  cases x with
  | leaf a => simp [Tree.foldFactorials, isInteger.2.1]
  | group a inner => exact isInteger.elim
  | fork a left right => exact isInteger.elim

theorem IsLinear.foldFactorials (linear : x.IsLinear) : x.foldFactorials = (x, .ok ()) := by
  induction x with
  | leaf a => exact IsInteger.foldFactorials linear
  | group a inner ih => exact linear.elim
  | fork a left right ihl ihr =>
    have sides (first : left.IsLinear) (second : right.IsLinear) :
        (fork a left right).foldFactorials = (fork a left right, .ok ()) := by
      simp [Tree.foldFactorials, ihl first, ihr second]
    rcases linear with term | ⟨call, linear⟩
    · obtain ⟨⟨n, letter⟩, found⟩ := Option.isSome_iff_exists.mp term
      obtain ⟨a, m, b, c, k, same, _, ⟨isInteger, _⟩, _, ⟨one, _⟩, ⟨_, kind⟩, _⟩ := term_cases found
      cases same
      simp [Tree.foldFactorials, isInteger.foldFactorials, one.foldFactorials, kind]
    · split at linear
      · exact sides linear.1 linear.2
      · exact sides linear.1 linear.2
      · exact linear.elim (fun h => sides h.1.isLinear h.2) fun h => sides h.1 h.2.isLinear
      · exact sides linear.1 linear.2.1.isLinear
      · exact linear.elim

theorem IsInteger.collected (isInteger : x.IsInteger) (fresh : x.Fresh) (reads : x.ReadsExactly) :
    Collected x x.recognize.attachQuantities ∧
      ∃ c, x.recognize.attachQuantities.constant? = some c ∧ IsRational c x.integer := by
  obtain ⟨a, c, prepared, call, number⟩ := isInteger.prepared fresh reads
  rw [prepared]
  exact ⟨.constant call number isInteger.exact_eq isInteger.letters_eq, c,
    by simp [constant?, Label.collapse, call, Quantity.value?], number⟩

/-- A linear side is prepared to a tree of the same value whose terms are collected. -/
theorem IsLinear.collected (linear : x.IsLinear) (fresh : x.Fresh) (reads : x.ReadsExactly) :
    Collected x x.recognize.attachQuantities := by
  induction x with
  | leaf a => exact (IsInteger.collected linear fresh reads).1
  | group a inner ih => exact linear.elim
  | fork a left right ihl ihr =>
    obtain ⟨_, freshl, freshr⟩ := fresh_fork.mp fresh
    obtain ⟨readsl, readsr⟩ := readsExactly_fork reads
    cases found : (fork a left right).term? with
    | some term => exact collected_term found reads fresh
    | none =>
      have letters := letters_fork found
      obtain ⟨call, linear⟩ := linear.resolve_left (by simp [found])
      cases kind : a.token.kind <;> simp only [kind] at linear
      case plus =>
        rw [prepared_fork call linear.2]
        exact (ihl linear.1 freshl readsl).sum (ihr linear.2 freshr readsr) call (.inl kind)
      case minus =>
        rw [prepared_fork call linear.2]
        exact (ihl linear.1 freshl readsl).sum (ihr linear.2 freshr readsr) call (.inr kind)
      case times =>
        have value (v : Char → ℚ) :
            a.token.kind.apply? (left.exact v) (right.exact v) = some ((fork a left right).exact v) := by
          simp [kind, Token.Kind.apply?, exact]
        rcases linear with ⟨l, r⟩ | ⟨l, r⟩
        · obtain ⟨first, c, constant, _⟩ := l.collected freshl readsl
          have second := ihr r freshr readsr
          rw [prepared_fork call r]
          refine first.operator second call (by simp [kind]) value fun factor terms => ?_
          rw [letters, l.letters_eq, List.nil_append]
          simp only [collect?, kind, constant]
          exact second.terms _ terms
        · have first := ihl l freshl readsl
          obtain ⟨second, c, constant, _⟩ := r.collected freshr readsr
          rw [prepared_fork call r.isLinear]
          refine first.operator second call (by simp [kind]) value fun factor terms => ?_
          rw [letters, r.letters_eq, List.append_nil]
          simp only [collect?, kind, constant]
          cases settled : left.recognize.attachQuantities.constant? with
          | some k =>
            obtain ⟨terms', collected, keys⟩ := second.terms (factor * k) terms
            exact ⟨terms', collected,
              fun letter => by rw [keys, first.settled (by simp [settled]), r.letters_eq]⟩
          | none => exact first.terms _ terms
      case divide =>
        obtain ⟨l, r, other⟩ := linear
        have first := ihl l freshl readsl
        obtain ⟨second, c, constant, number⟩ := r.collected freshr readsr
        have nonzero : (c != 0.0) = true := by
          have different : ¬ (c == 0.0) = true := fun equal => by
            have zero := (IsRational.beq_iff number .zero).mp equal
            exact other (by exact_mod_cast zero)
          simpa [bne] using different
        rw [prepared_fork call r.isLinear]
        refine first.operator second call (by simp [kind]) (fun v => ?_) fun factor terms => ?_
        · have different : ((right.integer : ℤ) : ℚ) ≠ 0 := by exact_mod_cast other
          simp [kind, Token.Kind.apply?, exact, r.exact_eq, different]
        · rw [letters, r.letters_eq, List.append_nil]
          simp only [collect?, kind, constant, nonzero, if_true]
          exact first.terms _ terms

/-- An equation is prepared to one with the same sides, and its terms are collected. -/
theorem IsLinearEquation.collected (equation : x.IsLinearEquation) (fresh : x.Fresh)
    (reads : x.ReadsExactly) :
    ∃ y, x.prepare = (y, .ok ()) ∧ y.Unmarked ∧ y.IsEquation ∧ (∀ v, y.balance? v = some (x.exact v)) ∧
      ∃ terms, collect? y 1.0 [] = some terms ∧ ∀ letter, .letter letter ∈ terms.keys ↔
      letter ∈ x.letters := by
  cases x with
  | leaf a => exact equation.elim
  | group a inner => exact equation.elim
  | fork a left right =>
    obtain ⟨call, kind, l, r⟩ := equation
    obtain ⟨_, freshl, freshr⟩ := fresh_fork.mp fresh
    obtain ⟨readsl, readsr⟩ := readsExactly_fork reads
    have first := l.collected freshl readsl
    have second := r.collected freshr readsr
    have folded : (fork a left right).foldFactorials = (fork a left right, .ok ()) := by
      simp [Tree.foldFactorials, l.foldFactorials, r.foldFactorials]
    obtain ⟨terms, collected, keys⟩ := first.both second 1.0 (-1.0) []
    refine ⟨fork a left.recognize.attachQuantities right.recognize.attachQuantities, ?_,
      unmarked_fork.mpr ⟨call, first.unmarked, second.unmarked⟩, ?_, fun v => ?_, terms, ?_, fun letter => ?_⟩
    · simp only [prepare, folded]
      rw [prepared_fork call r]
    · exact List.forall_mem_append.mpr ⟨first.sided, second.sided⟩
    · rw [balance?, if_pos kind, first.value, second.value, exact, kind]
      rfl
    · simp only [collect?, kind]
      exact collected
    · rw [keys, letters_fork (term_eq_none (by simp [kind]) left right)]
      simp [Terms.keys]

end Prepared

end Tree

namespace LinearSystem

def CollectsExactly (text : String) : Prop :=
  ∀ source e, Expression.ofText text = .ok source → Formula.prepare source = (e, .ok ()) → ExactCollection e

theorem collectsExactly_of_within {equations : List String} (n : ℕ)
    (within : equations.all fun text =>
      (Expression.ofText text : Except GrammarError Formula).toOption.all fun source =>
        decide (ExactWithin (Formula.prepare source).1 n
          ([((Formula.prepare source).1.root, 1.0)], []))) :
    ∀ text ∈ equations, CollectsExactly text := by
  intro text member source e parsed prepared
  have within := List.all_eq_true.mp within text member
  rw [parsed] at within
  have exact : ExactWithin (Formula.prepare source).1 n ([((Formula.prepare source).1.root, 1.0)], []) :=
    of_decide_eq_true within
  rw [prepared] at exact
  exact ⟨n, exact⟩

/-- A linear equation has terms. They add up to its left side less its right side, and every letter has one
coefficient. -/
theorem termsOfText_linear {text : String} {x : Tree Mark} (parsed : Tree.ofText text = .ok x)
    (equation : x.IsLinearEquation) (reads : x.ReadsExactly) (exact : CollectsExactly text) :
    ∃ terms, termsOfText text = .ok terms ∧ terms.keys.Nodup ∧
      (∀ letter, .letter letter ∈ terms.keys ↔ letter ∈ x.letters) ∧
      ∀ v, terms.total? v = some (x.exact v) := by
  obtain ⟨source, read, _⟩ := Expression.ofText_of_tree parsed
  obtain ⟨x', parsed', shown, formed⟩ := Formula.displays_of_parsed read
  obtain rfl := Except.ok.inj (parsed.symm.trans parsed')
  obtain ⟨y, prepared, unmarked, isEquation, balance, terms, collected, keys⟩ :=
    equation.collected (Tree.ofText_grammatical parsed).fresh reads
  obtain ⟨displays, ended⟩ := Formula.prepare_eq shown formed
  cases run : Formula.prepare source with
  | mk e result =>
  rw [run, prepared] at displays ended
  obtain rfl : result = .ok () := ended
  obtain ⟨formed, plain⟩ := Formula.displays_prepared read run displays
  have same := (collectTerms_eq displays formed).trans collected
  have collects : collectTerms e = .ok terms := by
    cases found : collectTerms e with
    | error error => simp [found, Except.toOption] at same
    | ok terms' =>
      rw [found] at same
      exact congrArg Except.ok (Option.some.inj same)
  obtain ⟨t, spans, root, rfl⟩ := displays
  have exact := exact source e read run
  rw [ExactCollection, ← root] at exact
  refine ⟨terms, by simp only [termsOfText, read, run, collects]; rfl,
    nodup_collect (show Terms.keys [] |>.Nodup from List.nodup_nil) collected, keys, fun v => ?_⟩
  obtain ⟨q, value, total⟩ := sound_equation (v := v) spans formed plain unmarked isEquation exact collected
  rw [balance v] at value
  rw [total, Option.some.inj value]

end LinearSystem

end Stepwise
