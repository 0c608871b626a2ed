import Stepwise.Proofs.LinearSystem.Classify
import Stepwise.Proofs.Reduction.Intact

/-! Calls in a linear system. A call is a keyword on the root of its argument. Collecting looks for
it on leaves and on brackets and refuses every power, but it splits a sum, a product with a number
and a quotient by a number without a look, and it takes the derivative of a linear term for the
term. Main statement: a call that stands nowhere else is an error, and nothing is solved. -/
namespace Stepwise

def Tree.subtrees {α : Type} : Tree α → List (Tree α)
  | leaf a => [leaf a]
  | group a inner => group a inner :: inner.subtrees
  | fork a left right => fork a left right :: (left.subtrees ++ right.subtrees)

namespace Tree

section Subtrees

variable {α β : Type}

theorem self_mem_subtrees (t : Tree α) : t ∈ t.subtrees := by
  cases t <;> simp [subtrees]

theorem subtrees_map (f : α → β) (t : Tree α) : (t.map f).subtrees = t.subtrees.map (map f) := by
  induction t with
  | leaf a => rfl
  | group a inner ih => simp [map, subtrees, ih]
  | fork a left right ihl ihr => simp [map, subtrees, ihl, ihr]

theorem subtrees_trans {r s t : Tree α} (first : r ∈ s.subtrees) (second : s ∈ t.subtrees) :
    r ∈ t.subtrees := by
  induction t with
  | leaf a =>
    obtain rfl := List.mem_singleton.mp second
    exact first
  | group a inner ih =>
    rcases List.mem_cons.mp second with rfl | second
    · exact first
    · exact List.mem_cons_of_mem _ (ih second)
  | fork a left right ihl ihr =>
    rcases List.mem_cons.mp second with rfl | second
    · exact first
    · exact List.mem_cons_of_mem _ (List.mem_append.mpr ((List.mem_append.mp second).imp ihl ihr))

end Subtrees

def IsZeroDivision : Tree Mark → Prop
  | fork a _ right => a.token.kind = .divide ∧ ∃ k, right.constant? = some k ∧ (k == 0.0) = true
  | _ => False

/-- The tree has a polynomial at its root that collecting accepts. -/
def IsLinearTerm (x : Tree Mark) : Prop := ∃ p, x.top.value = some (.polynomial p) ∧ p.degree ≤ 1

def isPower : Tree Mark → Bool
  | fork a _ _ => a.token.kind == .power
  | _ => false

/-- Collecting does not split the tree at its root: it is no sum, no product with a number and no
quotient by one. A power of a letter does not stand on its own, since every letter has a
coefficient. -/
def isWhole : Tree Mark → Bool
  | leaf _ | group _ _ => true
  | fork a left right =>
    match a.token.kind with
    | .times => (left.prepare.1.constant?.isNone && right.prepare.1.constant?.isNone) || right.isPower
    | .divide => right.prepare.1.constant?.isNone
    | .power => left.letterLeaf?.isNone
    | _ => false

/-- A call around an argument that is not split, and that is no linear term when its derivative is taken. -/
structure IsWholeCall (x : Tree Mark) : Prop where
  marked : ∃ keyword, x.top.call = some keyword ∧ keyword.kind.IsMark ∧
    (keyword.kind = .diff → ¬ x.prepare.1.IsLinearTerm)
  whole : x.isWhole

section Prepared

variable {x y left right : Tree Mark} {a : Mark}

theorem prepare_of_ok (folded : x.foldFactorials.2 = .ok ()) :
    x.prepare.1 = x.foldFactorials.1.recognize.attachQuantities := by
  unfold prepare
  cases result : x.foldFactorials with
  | mk y ended =>
    rw [result] at folded
    obtain rfl : ended = .ok () := folded
    rfl

theorem folded_of_prepare (prepared : x.prepare.2 = .ok ()) : x.foldFactorials.2 = .ok () := by
  unfold prepare at prepared
  cases result : x.foldFactorials with
  | mk y ended =>
    rw [result] at prepared
    cases ended with
    | ok done => rfl
    | error error => exact prepared

theorem foldFactorials_fork (folded : (fork a left right).foldFactorials.2 = .ok ()) :
    left.foldFactorials.2 = .ok () ∧ right.foldFactorials.2 = .ok () ∧
      (fork a left right).foldFactorials.1 = fork a left.foldFactorials.1 right.foldFactorials.1 := by
  rw [foldFactorials] at folded ⊢
  split at folded
  · cases folded
  · next y done => exact ⟨by rw [done], folded, by rw [done]⟩

theorem call_foldFactorials (x : Tree Mark) : x.foldFactorials.1.top.call = x.top.call := by
  cases x with
  | leaf a =>
    unfold foldFactorials
    split
    · split <;> rfl
    · rfl
  | group a inner => rfl
  | fork a left right =>
    unfold foldFactorials
    split <;> rfl

theorem call_recognize (x : Tree Mark) : x.recognize.top.call = x.top.call := by
  cases x with
  | leaf a =>
    unfold recognize
    split <;> rfl
  | group a inner => rfl
  | fork a left right =>
    unfold recognize
    split <;> rfl

theorem call_attachCall (x : Tree Mark) : x.attachCall.call = x.top.call := by
  unfold attachCall
  split
  · split <;> rfl
  · split <;> rfl

theorem call_attachNumber (a : Mark) : a.attachNumber.call = a.call := by
  unfold Label.attachNumber
  split
  · split <;> rfl
  · rfl

theorem top_attachQuantities (x : Tree Mark) :
    x.attachQuantities.top.call = x.top.call ∧ x.attachQuantities.top.HasTerm := by
  cases x with
  | leaf a => exact ⟨(call_attachCall _).trans (call_attachNumber a), (attachCall_top _).2.2.1⟩
  | group a inner => exact ⟨call_attachCall _, (attachCall_top _).2.2.1⟩
  | fork a left right => exact ⟨call_attachCall _, (attachCall_top _).2.2.1⟩

/-- Preparing keeps the keyword at the root and gives it its term. -/
theorem top_prepare (folded : x.foldFactorials.2 = .ok ()) :
    x.prepare.1.top.call = x.top.call ∧ x.prepare.1.top.HasTerm := by
  rw [prepare_of_ok folded]
  obtain ⟨call, term⟩ := top_attachQuantities x.foldFactorials.1.recognize
  exact ⟨call.trans ((call_recognize _).trans (call_foldFactorials x)), term⟩

theorem prepare_leaf (folded : (leaf a).foldFactorials.2 = .ok ()) : ∃ b, (leaf a).prepare.1 = leaf b := by
  rw [prepare_of_ok folded]
  unfold foldFactorials at folded ⊢
  split
  · split
    · unfold recognize
      split <;> exact ⟨_, rfl⟩
    · unfold recognize
      split <;> exact ⟨_, rfl⟩
  · unfold recognize
    split <;> exact ⟨_, rfl⟩

theorem prepare_group {inner : Tree Mark} (folded : (group a inner).foldFactorials.2 = .ok ()) :
    ∃ b, (group a inner).prepare.1 = group b inner.prepare.1 := by
  have below : inner.foldFactorials.2 = .ok () := folded
  exact ⟨_, by rw [prepare_of_ok folded, prepare_of_ok below]; rfl⟩

/-- An operator becomes a term, or it stays over its prepared operands. -/
theorem prepare_fork (folded : (fork a left right).foldFactorials.2 = .ok ()) :
    ((fork a left.foldFactorials.1 right.foldFactorials.1).recognized?.isSome ∧
        ∃ b, (fork a left right).prepare.1 = leaf b) ∨
      ∃ b : Mark, b.token = a.token ∧
          (fork a left right).prepare.1 = fork b left.prepare.1 right.prepare.1 := by
  obtain ⟨first, second, both⟩ := foldFactorials_fork folded
  rw [prepare_of_ok folded, prepare_of_ok first, prepare_of_ok second, both, recognize]
  cases found : (fork a left.foldFactorials.1 right.foldFactorials.1).recognized? with
  | some term => exact .inl ⟨rfl, _, rfl⟩
  | none => exact .inr ⟨_, (attachCall_top _).1, rfl⟩

/-- Folding factorials makes no leaf of another tree and no letter. -/
theorem foldFactorials_eq_leaf {b : Mark} (folded : x.foldFactorials.1 = leaf b) :
    ∃ a, x = leaf a ∧ a.call = b.call ∧ (b.token.kind = .letter → a = b) := by
  cases x with
  | leaf a =>
    refine ⟨a, rfl, ?_⟩
    unfold foldFactorials at folded
    split at folded
    · split at folded
      · obtain rfl := leaf.inj folded
        exact ⟨rfl, fun letter => by cases letter⟩
      · obtain rfl := leaf.inj folded
        exact ⟨rfl, fun _ => rfl⟩
    · obtain rfl := leaf.inj folded
      exact ⟨rfl, fun _ => rfl⟩
  | group a inner => cases folded
  | fork a left right =>
    unfold foldFactorials at folded
    split at folded <;> cases folded

theorem not_wholeCall_leaf (call : a.call = none) : ¬ (leaf a).IsWholeCall := fun whole => by
  obtain ⟨keyword, marked, _⟩ := whole.marked
  rw [top_leaf, call] at marked
  cases marked

theorem numberLeaf_foldFactorials {n : Float} (found : x.foldFactorials.1.numberLeaf? = some n) :
    ∃ a, x = leaf a ∧ a.call = none := by
  cases folded : x.foldFactorials.1 with
  | leaf b =>
    obtain ⟨a, rfl, call, _⟩ := foldFactorials_eq_leaf folded
    rw [folded] at found
    refine ⟨a, rfl, call.trans ?_⟩
    by_contra marked
    simp [numberLeaf?, marked] at found
  | group b inner => simp [folded, numberLeaf?] at found
  | fork b left right => simp [folded, numberLeaf?] at found

theorem letterLeaf_foldFactorials {letter : Char} (found : x.foldFactorials.1.letterLeaf? = some letter) :
    x.letterLeaf? = some letter ∧ ∃ a, x = leaf a ∧ a.call = none := by
  cases folded : x.foldFactorials.1 with
  | leaf b =>
    obtain ⟨a, rfl, _, same⟩ := foldFactorials_eq_leaf folded
    rw [folded] at found
    obtain ⟨⟨kind, call⟩, _⟩ : (b.token.kind = .letter ∧ b.call = none) ∧ _ := by
      simpa [letterLeaf?] using found
    obtain rfl := same kind
    exact ⟨found, a, rfl, call⟩
  | group b inner => simp [folded, letterLeaf?] at found
  | fork b left right => simp [folded, letterLeaf?] at found

/-- What is recognized as a monomial has no whole calls below it. -/
theorem not_wholeCall_of_recognized (folded : (fork a left right).foldFactorials.2 = .ok ())
    (found : (fork a left.foldFactorials.1 right.foldFactorials.1).recognized?.isSome)
    (below : y ∈ left.subtrees ++ right.subtrees) : ¬ y.IsWholeCall := by
  obtain ⟨_, second, _⟩ := foldFactorials_fork folded
  obtain ⟨term, monomial⟩ :
      ∃ term, (fork a left.foldFactorials.1 right.foldFactorials.1).monomial? = some term := by
    refine Option.isSome_iff_exists.mp ?_
    by_contra none
    simp [recognized?, isLeaf, Option.not_isSome_iff_eq_none.mp none] at found
  cases right with
  | leaf b =>
    rw [foldFactorials] at monomial
    split at monomial
    · split at monomial <;> cases monomial
    · cases monomial
  | group b inner => cases monomial
  | fork b base exponent =>
    rw [(foldFactorials_fork second).2.2] at monomial
    simp only [monomial?] at monomial
    split at monomial
    · cases monomial
    obtain ⟨n, coefficient, monomial⟩ := Option.bind_eq_some_iff.mp monomial
    split at monomial
    · cases monomial
    next power =>
    obtain ⟨letter, named, monomial⟩ := Option.bind_eq_some_iff.mp monomial
    obtain ⟨k, raised, _⟩ := Option.map_eq_some_iff.mp monomial
    obtain ⟨m, number, _⟩ := Option.bind_eq_some_iff.mp raised
    obtain ⟨c, rfl, bare⟩ := numberLeaf_foldFactorials coefficient
    obtain ⟨letter', c', rfl, bare'⟩ := letterLeaf_foldFactorials named
    obtain ⟨c'', rfl, bare''⟩ := numberLeaf_foldFactorials number
    simp only [subtrees, List.cons_append, List.nil_append, List.mem_cons, List.not_mem_nil,
      or_false] at below
    rcases below with rfl | rfl | rfl | rfl
    · exact not_wholeCall_leaf bare
    · intro whole
      have none := whole.whole
      simp [isWhole, not_not.mp power, letter'] at none
    · exact not_wholeCall_leaf bare'
    · exact not_wholeCall_leaf bare''

section Collecting

open LinearSystem

theorem leafTerms_call (call : a.call.isSome) (other : ∀ p, a.value = some (.polynomial p) → ¬ p.degree ≤ 1)
    (factor : Float) (terms : Terms) : leafTerms? (ofMark a) factor terms = none := by
  have marked : a.call.isNone = false := by simpa using call
  unfold leafTerms? ofMark
  cases found : a.value with
  | none => rfl
  | some q =>
    cases q with
    | polynomial p => exact if_neg (other p found)
    | _ => simp [marked]

/-- A number is collected as one. -/
theorem collect_constant {k : Float} (constant : x.constant? = some k) (factor : Float) (terms : Terms) :
    (collect? x factor terms).isSome := by
  cases x with
  | leaf a =>
    obtain ⟨call, value⟩ : a.call.isNone ∧ a.value.bind Quantity.value? = some k := by
      simpa [constant?] using constant
    obtain ⟨q, settled, value⟩ := Option.bind_eq_some_iff.mp value
    have isConstant : q.isConstant := by rw [Quantity.isConstant_eq, value]; rfl
    cases q with
    | polynomial p =>
      have flat : p.degree = 0 := by simpa [Quantity.isConstant] using isConstant
      simp [collect?, leafTerms?, ofMark, settled, flat]
    | _ => simp_all [collect?, leafTerms?, ofMark]
  | group a inner => cases constant
  | fork a left right => cases constant

def IsRefused (x : Tree Mark) : Prop := ∀ factor terms, collect? x factor terms = none

theorem IsRefused.constant (refused : x.IsRefused) : x.constant? = none := by
  cases constant : x.constant? with
  | none => rfl
  | some k => simpa [refused 0 []] using collect_constant constant 0 []

/-- A power is refused. -/
theorem refused_of_power (power : x.isPower) (folded : x.foldFactorials.2 = .ok ()) :
    x.prepare.1.IsRefused := by
  cases x with
  | leaf a => cases power
  | group a inner => cases power
  | fork a left right =>
    have power : a.token.kind = .power := by simpa [isPower] using power
    rcases prepare_fork folded with ⟨found, _⟩ | ⟨b, token, prepared⟩
    · have none (y : Tree Mark) : (Tree.fork a left.foldFactorials.1 y).monomial? = none := by
        cases y <;> simp [monomial?, power]
      simp [recognized?, none, isLeaf] at found
    · rw [prepared]
      intro factor terms
      simp only [collect?, token, power]

/-- An operator over a part that is refused is refused. -/
theorem IsRefused.fork (refused : left.IsRefused ∨ right.IsRefused) : (fork a left right).IsRefused := by
  intro factor terms
  have both (factor factor' : Float) : (collect? right factor' terms).bind (collect? left factor) = none := by
    rcases refused with first | second
    · have : collect? left factor = fun _ => none := funext (first factor)
      simp [this]
    · simp [second factor' terms]
  rw [collect?]
  split
  · exact both ..
  · exact both ..
  · exact both ..
  · split
    · next k constant =>
      exact refused.elim (fun first => by simp [first.constant] at constant) fun second => second _ _
    · next k constant =>
      exact refused.elim (fun first => first _ _) fun second => by simp [second.constant] at constant
    · rfl
  · split
    · next k constant =>
      split
      · exact refused.elim (fun first => first _ _) fun second => by simp [second.constant] at constant
      · rfl
    · rfl
  · rfl

/-- A call that is not split is refused. -/
theorem IsWholeCall.refused (call : y.IsWholeCall) (folded : y.foldFactorials.2 = .ok ()) :
    y.prepare.1.IsRefused := by
  obtain ⟨⟨keyword, marked, mark, derivative⟩, whole⟩ := call
  obtain ⟨kept, term⟩ := top_prepare folded
  rw [marked] at kept
  have leaf {b : Mark} (prepared : y.prepare.1 = leaf b) : y.prepare.1.IsRefused := by
    rw [prepared] at kept term derivative ⊢
    have kept : b.call = some keyword := kept
    refine leafTerms_call (by rw [kept]; rfl) fun p value linear => ?_
    by_cases diff : keyword.kind = .diff
    · exact derivative diff ⟨p, value, linear⟩
    · have term := term (by simp [Label.termKeyword?, kept, or_assoc.mpr mark |>.resolve_right diff])
      rw [top_leaf, value] at term
      cases term
  cases y with
  | leaf a =>
    obtain ⟨b, prepared⟩ := prepare_leaf folded
    exact leaf prepared
  | group a inner =>
    obtain ⟨b, prepared⟩ := prepare_group folded
    rw [prepared] at kept ⊢
    intro factor terms
    rw [collect?, if_neg]
    simp [show b.call = some keyword from kept]
  | fork a left right =>
    rcases prepare_fork folded with ⟨_, b, prepared⟩ | ⟨b, token, prepared⟩
    · exact leaf prepared
    · rw [prepared]
      intro factor terms
      rw [collect?, token]
      simp only [isWhole] at whole
      cases kind : a.token.kind <;>
        simp only [kind, Bool.or_eq_true, Bool.and_eq_true, Option.isNone_iff_eq_none,
          Bool.false_eq_true] at whole ⊢
      case times =>
        rcases whole with ⟨first, second⟩ | power
        · rw [first, second]
        · have refused := refused_of_power power (foldFactorials_fork folded).2.1
          rw [refused.constant]
          cases left.prepare.1.constant? with
          | some k => exact refused (factor * k) terms
          | none => rfl
      case divide => rw [whole]

/-- An expression with a call in it that is not split is refused. -/
theorem refused_of_call (folded : x.foldFactorials.2 = .ok ()) (below : y ∈ x.subtrees)
    (call : y.IsWholeCall) :
    x.prepare.1.IsRefused := by
  induction x with
  | leaf a =>
    obtain rfl := List.mem_singleton.mp below
    exact call.refused folded
  | group a inner ih =>
    rcases List.mem_cons.mp below with rfl | below
    · exact call.refused folded
    · obtain ⟨b, prepared⟩ := prepare_group folded
      rw [prepared]
      intro factor terms
      rw [collect?]
      split
      · exact ih folded below factor terms
      · rfl
  | fork a left right ihl ihr =>
    rcases List.mem_cons.mp below with rfl | below
    · exact call.refused folded
    · rcases prepare_fork folded with ⟨found, _⟩ | ⟨b, _, prepared⟩
      · exact absurd call (not_wholeCall_of_recognized folded found below)
      · obtain ⟨first, second, _⟩ := foldFactorials_fork folded
        rw [prepared]
        exact .fork ((List.mem_append.mp below).imp (ihl first) (ihr second))

end Collecting

end Prepared

theorem Formed.subtree {ν : Type} {s x : Tree (Label ν)} (formed : x.Formed)
    (below : s ∈ x.subtrees) : s.Formed := by
  induction x with
  | leaf a =>
    obtain rfl := List.mem_singleton.mp below
    exact formed
  | group a inner ih =>
    rcases List.mem_cons.mp below with rfl | below
    · exact formed
    · exact ih formed.2 below
  | fork a left right ihl ihr =>
    rcases List.mem_cons.mp below with rfl | below
    · exact formed
    · exact (List.mem_append.mp below).elim (ihl formed.2.1) (ihr formed.2.2)

end Tree

theorem Expression.Spans.subtree {ν : Type} {e : Expression ν} {s t : Tree NodeId} (spans : e.Spans t)
    (below : s ∈ t.subtrees) : e.Spans s := by
  induction t with
  | leaf id =>
    obtain rfl := List.mem_singleton.mp below
    exact spans
  | group id inner ih =>
    rcases List.mem_cons.mp below with rfl | below
    · exact spans
    · exact ih spans.group below
  | fork id left right ihl ihr =>
    rcases List.mem_cons.mp below with rfl | below
    · exact spans
    · exact (List.mem_append.mp below).elim (ihl spans.left) (ihr spans.right)

namespace LinearSystem

open Loop (Ends)

/-- Why an equation is not collected: a part is not linear, or it is divided by zero. -/
inductive Refuses (x : Tree Mark) : ComputationError → Prop
  | nonLinear (text : String) : Refuses x (.nonLinear text)
  | zeroDenominator {s : Tree Mark} (below : s ∈ x.subtrees) (division : s.IsZeroDivision) :
      Refuses x .zeroDenominator

theorem Refuses.mono {x y : Tree Mark} {error : ComputationError} (refuses : Refuses x error)
    (sub : ∀ s ∈ x.subtrees, s ∈ y.subtrees) : Refuses y error := by
  cases refuses with
  | nonLinear text => exact .nonLinear text
  | zeroDenominator below division => exact .zeroDenominator (sub _ below) division

section Errors

variable {e : Formula} {t : Tree NodeId}

def Below (t : Tree NodeId) (parts : List Part) : Prop := ∀ part ∈ parts, ∃ s ∈ t.subtrees, s.top = part.1

/-- An operator splits into its operands, or its formula is refused. -/
theorem splitParts_sound {id : NodeId} {left right : Tree NodeId}
    (spans : e.Spans (.fork id left right)) (factor : Float) :
    match splitParts e id left.top right.top factor with
    | .ok parts => ∀ part ∈ parts, part.1 = left.top ∨ part.1 = right.top
    | .error error => Refuses (e.view (.fork id left right)) error := by
  have nonLinear : Refuses (e.view (.fork id left right)) (.nonLinear (e.renderAt id).text) := .nonLinear _
  unfold splitParts
  cases kind : (e.node id).token.kind
  case times =>
    simp only
    cases constantAt? e left.top with
    | some k => simp
    | none =>
      cases constantAt? e right.top with
      | some k => simp
      | none => exact nonLinear
  case divide =>
    simp only
    cases constant : constantAt? e right.top with
    | none => exact nonLinear
    | some k =>
      by_cases nonzero : (k != 0.0) = true
      · simp [nonzero]
      · simp only [nonzero]
        refine .zeroDenominator (Tree.self_mem_subtrees _) ⟨kind, k, ?_, by simpa [bne] using nonzero⟩
        exact (constantAt_eq spans.right.links).symm.trans constant
  all_goals first | exact nonLinear | simp

def IsSound (e : Formula) (t : Tree NodeId) :
    Loop.Progress (List Part × Terms) (Except ComputationError Terms) → Prop
  | .more state => Below t state.1
  | .done (.ok _) => True
  | .done (.error error) => Refuses (e.view t) error

theorem Below.append {first second : List Part} (one : Below t first) (two : Below t second) :
    Below t (first ++ second) :=
  fun part member => (List.mem_append.mp member).elim (one part) (two part)

theorem collectStep_sound (spans : e.Spans t) (formed : (e.view t).Formed) {state : List Part × Terms}
    (below : Below t state.1) : IsSound e t (collectStep e state) := by
  obtain ⟨parts, terms⟩ := state
  cases parts with
  | nil => trivial
  | cons part rest =>
    obtain ⟨id, factor⟩ := part
    obtain ⟨s, inside, top⟩ := below (id, factor) (List.mem_cons_self ..)
    obtain rfl : s.top = id := top
    have rest_below : Below t rest := fun part member => below part (List.mem_cons_of_mem _ member)
    have here := spans.subtree inside
    have shown : e.view s ∈ (e.view t).subtrees := by
      rw [Expression.view, Expression.view, Tree.subtrees_map]
      exact List.mem_map_of_mem inside
    have operand {u : Tree NodeId} (of : u ∈ s.subtrees) : ∃ s ∈ t.subtrees, s.top = u.top :=
      ⟨u, Tree.subtrees_trans of inside, rfl⟩
    cases s with
    | leaf id =>
      rw [Tree.top_leaf, collectStep_leaf here]
      cases leafTerms? (ofMark (e.node id).label) factor terms with
      | some terms => exact rest_below
      | none => exact .nonLinear _
    | group id inner =>
      rw [Tree.top_group, collectStep_group here]
      split
      · have inner_below := operand (List.mem_cons_of_mem _ (Tree.self_mem_subtrees inner))
        exact List.forall_mem_cons.mpr ⟨inner_below, rest_below⟩
      · exact .nonLinear _
    | fork id left right =>
      have rank : (e.node id).token.kind.rank?.isSome := (formed.subtree shown).1
      have split := splitParts_sound here factor
      rw [Tree.top_fork, collectStep_fork here rank]
      cases parts : splitParts e id left.top right.top factor with
      | ok operands =>
        rw [parts] at split
        refine Below.append (fun part member => ?_) rest_below
        rcases split part member with top | top
        · exact top ▸ operand (by simp [Tree.subtrees, Tree.self_mem_subtrees])
        · exact top ▸ operand (by simp [Tree.subtrees, Tree.self_mem_subtrees])
      | error error =>
        rw [parts] at split
        exact split.mono fun s below => Tree.subtrees_trans below shown

/-- What an error in the collection is due to. -/
theorem refuses_of_ends (spans : e.Spans t) (formed : (e.view t).Formed)
    {n : ℕ} {state : List Part × Terms} {error : ComputationError} (below : Below t state.1)
    (ends : Ends (collectStep e) n state (.error error)) :
    Refuses (e.view t) error := by
  generalize answer : (Except.error error : Except ComputationError Terms) = result at ends
  induction ends with
  | now step =>
    have sound := collectStep_sound spans formed below
    rw [step, ← answer] at sound
    exact sound
  | later step _ ih =>
    have sound := collectStep_sound spans formed below
    rw [step] at sound
    exact ih sound answer

theorem collectTerms_error {x : Tree Mark} (displays : e.Displays x) (formed : x.Formed)
    {error : ComputationError} (failed : collectTerms e = .error error) : Refuses x error := by
  have same := collectTerms_eq displays formed
  obtain ⟨t, spans, root, rfl⟩ := displays
  rw [failed] at same
  have collects := collects_subtree spans formed 1.0 [] []
  rw [← same] at collects
  obtain ⟨k, error', few, ends⟩ := collects
  have positive := t.size_pos
  have run := Loop.run_of_ends ends (spans.steps_lt (by omega))
  rw [root] at run
  rw [collectTerms, run] at failed
  obtain rfl : error' = error := Except.error.inj failed
  exact refuses_of_ends spans formed (by simpa [Below] using ⟨t, Tree.self_mem_subtrees t, rfl⟩) ends

end Errors

theorem eq_ok_of_toOption {ε α : Type} {result : Except ε α} {x : α} (found : result.toOption = some x) :
    result = .ok x := by
  cases result with
  | error error => cases found
  | ok y => exact congrArg Except.ok (Option.some.inj found)

section Systems

variable {text : String} {equations : List String} {x : Tree Mark} {trees : List (Tree Mark)}

/-- The terms of an equation are those of its prepared tree, or the equation is refused. -/
theorem termsOfText_sound (parsed : Tree.ofText text = .ok x) (prepared : x.prepare.2 = .ok ()) :
    (∃ terms, termsOfText text = .ok terms ∧ collect? x.prepare.1 1.0 [] = some terms) ∨
      ∃ error, termsOfText text = .error (.computation error) ∧ Refuses x.prepare.1 error := by
  obtain ⟨source, read, _⟩ := Expression.ofText_of_tree parsed
  obtain ⟨x', parsed', shown, formed⟩ := Formula.displays_of_parsed read
  obtain rfl := Except.ok.inj (parsed.symm.trans parsed')
  obtain ⟨displays, ended⟩ := Formula.prepare_eq shown formed
  rw [prepared] at ended
  cases run : Formula.prepare source with
  | mk e result =>
  rw [run] at displays ended
  obtain rfl : result = .ok () := ended
  have formed := (Formula.displays_prepared read run displays).1
  have same := collectTerms_eq displays formed
  simp only [termsOfText, read, run]
  cases collected : collectTerms e with
  | ok terms =>
    rw [collected] at same
    exact .inl ⟨terms, rfl, same.symm⟩
  | error error => exact .inr ⟨error, rfl, collectTerms_error displays formed collected⟩

/-- A system with an equation that is refused has no table. -/
theorem pushTexts_refused
    (parsed : List.Forall₂ (fun text x => Tree.ofText text = .ok x) equations trees)
    (prepared : ∀ x ∈ trees, x.prepare.2 = .ok ()) (refused : ∃ x ∈ trees, x.prepare.1.IsRefused)
    (table : Table) :
    ∃ x ∈ trees, ∃ error, table.pushTexts equations = .error (.computation error) ∧
      Refuses x.prepare.1 error := by
  induction parsed generalizing table with
  | nil => simp at refused
  | @cons text x texts rest here _ ih =>
    have first := List.mem_cons_self (a := x) (l := rest)
    rcases termsOfText_sound here (prepared x first) with ⟨terms, read, collected⟩ | ⟨error, failed, refuses⟩
    · obtain ⟨y, member, refused⟩ := refused
      rcases List.mem_cons.mp member with rfl | member
      · simp [refused 1.0 []] at collected
      · obtain ⟨z, below, error, failed, refuses⟩ :=
          ih (fun x member => prepared x (List.mem_cons_of_mem _ member)) ⟨y, member, refused⟩
            (table.push terms)
        exact ⟨z, List.mem_cons_of_mem _ below, error, by rw [Table.pushTexts, read]; exact failed, refuses⟩
    · exact ⟨x, first, error, by rw [Table.pushTexts, failed], refuses⟩

/-- A system is not solved when some call in it is not split. The error names a part that is not
linear, unless one of the equations divides by zero. -/
theorem solve_call (parsed : equations.mapM Tree.ofText = .ok trees)
    (prepared : ∀ x ∈ trees, x.prepare.2 = .ok ()) (member : x ∈ trees) {y : Tree Mark}
    (below : y ∈ x.subtrees) (call : y.IsWholeCall) :
    (∃ part, solve equations = .error (.computation (.nonLinear part))) ∨
      solve equations = .error (.computation .zeroDenominator) ∧
        ∃ z ∈ trees, ∃ s ∈ z.prepare.1.subtrees, s.IsZeroDivision := by
  have parsed := forall_parsed parsed
  have nonempty : equations ≠ [] := fun none => by
    subst none
    cases parsed
    cases member
  have folded := Tree.folded_of_prepare (prepared x member)
  obtain ⟨z, inside, error, failed, refuses⟩ :=
    pushTexts_refused parsed prepared ⟨x, member, Tree.refused_of_call folded below call⟩ {}
  have solved : solve equations = .error (.computation error) := by rw [solve, if_neg nonempty, failed]
  cases refuses with
  | nonLinear part => exact .inl ⟨part, solved⟩
  | zeroDenominator below division => exact .inr ⟨solved, z, inside, _, below, division⟩

/-- The lines for a system whose table has the given letters. -/
theorem solve_run (names : List Char) {lines : List String} (nonempty : equations ≠ [])
    (sorted : names.Pairwise (· ≤ ·))
    (runs : (Table.pushTexts {} equations).toOption.any fun table =>
      decide (table.names.Perm names) && (table.matrixOver names).toOption.any fun m =>
        decide (m.rref.generalSolution names = lines)) :
    solve equations = .ok lines := by
  obtain ⟨table, pushed, runs⟩ := (Option.any_eq_true ..).mp runs
  obtain ⟨perm, runs⟩ := Bool.and_eq_true_iff.mp runs
  obtain ⟨m, formed, answer⟩ := (Option.any_eq_true ..).mp runs
  have named : table.letters = names := Table.mergeSort_eq (of_decide_eq_true perm) sorted
  rw [solve, if_neg nonempty, eq_ok_of_toOption pushed]
  simp only [Table.toMatrix_eq, named, eq_ok_of_toOption formed, of_decide_eq_true answer]

/-- The argument is a product of two variables. -/
theorem solve_call_product : ∃ (trees : List (Tree Mark)) (x y : Tree Mark),
    ["x+y=3", "2cos(x*y)+x=1"].mapM Tree.ofText = .ok trees ∧
    (∀ x ∈ trees, x.prepare.2 = .ok ()) ∧ x ∈ trees ∧
      y ∈ x.subtrees ∧ y.IsWholeCall ∧
      ((∃ part, solve ["x+y=3", "2cos(x*y)+x=1"] = .error (.computation (.nonLinear part))) ∨
        solve ["x+y=3", "2cos(x*y)+x=1"] = .error (.computation .zeroDenominator) ∧
          ∃ z ∈ trees, ∃ s ∈ z.prepare.1.subtrees, s.IsZeroDivision) := by
  obtain ⟨trees, parsed, prepared, x, member, y, below, marked, whole⟩ := exists_trees ["x+y=3",
    "2cos(x*y)+x=1"] (Q := fun trees => (∀ x ∈ trees, x.prepare.2.toOption = some ()) ∧ ∃ x ∈ trees,
    ∃ y ∈ x.subtrees, y.top.call.map Token.kind = some .trig ∧ y.isWhole) (by decide +kernel)
  have prepared (x : Tree Mark) (member : x ∈ trees) : x.prepare.2 = .ok () :=
    eq_ok_of_toOption (prepared x member)
  obtain ⟨keyword, found, kind⟩ := Option.map_eq_some_iff.mp marked
  have call : y.IsWholeCall := ⟨⟨keyword, found, .inl kind, fun diff => by simp [kind] at diff⟩, whole⟩
  exact ⟨trees, x, y, parsed, prepared, member, below, call, solve_call parsed prepared member below call⟩

/-- A call on a sum is not looked at, and the sum is solved in its place. -/
theorem solve_call_sum : ∃ (trees : List (Tree Mark)) (x y : Tree Mark) (keyword : Token),
    ["sin(x+y)=1"].mapM Tree.ofText = .ok trees ∧ (∀ x ∈ trees, x.prepare.2 = .ok ()) ∧ x ∈ trees ∧
    y ∈ x.subtrees ∧
      y.top.call = some keyword ∧ keyword.kind = .trig ∧ y.letters = ['x', 'y'] ∧
      solve ["sin(x+y)=1"] = .ok ["x = -z + 1", "y = z"] := by
  obtain ⟨trees, parsed, prepared, x, member, y, below, marked, letters⟩ := exists_trees ["sin(x+y)=1"]
    (Q := fun trees => (∀ x ∈ trees, x.prepare.2.toOption = some ()) ∧ ∃ x ∈ trees, ∃ y ∈ x.subtrees,
      y.top.call.map Token.kind = some .trig ∧ y.letters = ['x', 'y']) (by decide +kernel)
  obtain ⟨keyword, found, kind⟩ := Option.map_eq_some_iff.mp marked
  refine ⟨trees, x, y, keyword, parsed, fun x member => eq_ok_of_toOption (prepared x member),
    member, below, found, kind, letters, ?_⟩
  exact solve_run ['x', 'y'] (by simp) (by decide) (by decide +kernel)

end Systems

end LinearSystem

end Stepwise
