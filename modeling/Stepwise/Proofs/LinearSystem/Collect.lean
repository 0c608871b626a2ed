import Stepwise.LinearSystem.Terms
import Stepwise.Proofs.Reduction.Prepare

/-! Collecting terms by recursion. Main statement: the stack of parts and factors collects what the
recursion over the displayed tree does. -/
namespace Stepwise

open Loop (Leads Ends)

def Tree.constant? : Tree Mark → Option Float
  | leaf a => if a.call.isNone then a.value.bind Quantity.value? else none
  | _ => none

namespace LinearSystem

def ofMark (a : Mark) : Node Quantity := { token := a.token, call := a.call, value := a.value }

/-- The terms of a tree by recursion, those of the right operand first. -/
def collect? : Tree Mark → Float → Terms → Option Terms
  | .leaf a, factor, terms => leafTerms? (ofMark a) factor terms
  | .group a inner, factor, terms =>
    if a.token.kind = .opening ∧ a.call.isNone then collect? inner factor terms else none
  | .fork a left right, factor, terms =>
    match a.token.kind with
    | .equals | .minus => (collect? right (-factor) terms).bind (collect? left factor)
    | .plus => (collect? right factor terms).bind (collect? left factor)
    | .times =>
      match left.constant?, right.constant? with
      | some k, _ => collect? right (factor * k) terms
      | none, some k => collect? left (factor * k) terms
      | none, none => none
    | .divide =>
      match right.constant? with
      | some k => if k != 0.0 then collect? left (factor / k) terms else none
      | none => none
    | _ => none

variable {e : Formula}

theorem leafTerms_congr {a b : Node Quantity} (value : a.value = b.value) (call : a.call = b.call)
    (factor : Float) (terms : Terms) : leafTerms? a factor terms = leafTerms? b factor terms := by
  simp only [leafTerms?, value, call]

theorem constantAt_eq {t : Tree NodeId} (links : e.Links t) : constantAt? e t.top = (e.view t).constant? := by
  have isLeaf := links.isLeaf_eq
  cases t <;> simp_all [constantAt?, Tree.constant?, Expression.view_leaf, Expression.view_group,
    Expression.view_fork, Tree.isLeaf, Node.label]

def Collects (e : Formula) (size : ℕ) (state : List Part × Terms) (rest : List Part) : Option Terms → Prop
  | some terms => ∃ k, k ≤ size ∧ Leads (collectStep e) k state (rest, terms)
  | none => ∃ k error, k ≤ size ∧ Ends (collectStep e) k state (.error error)

theorem Collects.later {size size' : ℕ} {state next : List Part × Terms} {rest : List Part}
    {result : Option Terms} (collects : Collects e size next rest result)
    (step : collectStep e state = .more next) (few : size + 1 ≤ size') :
    Collects e size' state rest result := by
  cases result with
  | some terms =>
    obtain ⟨k, bound, leads⟩ := collects
    exact ⟨k + 1, by omega, .later step leads⟩
  | none =>
    obtain ⟨k, error, bound, ends⟩ := collects
    exact ⟨k + 1, error, by omega, .later step ends⟩

theorem Ends.of_leads {σ ρ : Type} {step : σ → Loop.Progress σ ρ} {m n : ℕ} {first middle : σ}
    {answer : ρ} (leads : Leads step m first middle) (ends : Ends step n middle answer) :
    Ends step (m + n) first answer := by
  induction leads with
  | refl => rwa [Nat.zero_add]
  | later h _ ih => rw [Nat.succ_add]; exact .later h (ih ends)

theorem Collects.bind {m n : ℕ} {state : List Part × Terms} {part : Part}
    {rest : List Part} {first : Option Terms}
    {second : Terms → Option Terms} (one : Collects e m state (part :: rest) first)
    (two : ∀ terms, Collects e n (part :: rest, terms) rest (second terms)) :
    Collects e (m + n) state rest (first.bind second) := by
  cases first with
  | none =>
    obtain ⟨k, error, few, ends⟩ := one
    exact ⟨k, error, by omega, ends⟩
  | some terms =>
    obtain ⟨k, few, leads⟩ := one
    change Collects e (m + n) state rest (second terms)
    have := two terms
    cases result : second terms with
    | none =>
      rw [result] at this
      obtain ⟨l, error, few', ends⟩ := this
      exact ⟨k + l, error, by omega, Ends.of_leads leads ends⟩
    | some terms' =>
      rw [result] at this
      obtain ⟨l, few', leads'⟩ := this
      exact ⟨k + l, by omega, leads.trans leads'⟩

theorem collectStep_leaf {id : NodeId} (spans : e.Spans (.leaf id)) (factor : Float)
    (rest : List Part) (terms : Terms) :
    collectStep e ((id, factor) :: rest, terms) =
      match leafTerms? (ofMark (e.node id).label) factor terms with
      | some terms => .more (rest, terms)
      | none => .done (nonLinearAt e id) := by
  have isLeaf : (e.node id).isLeaf = true := spans.links.isLeaf_eq
  have same : leafTerms? (ofMark (e.node id).label) factor terms = leafTerms? (e.node id) factor terms :=
    leafTerms_congr rfl rfl factor terms
  rw [same]
  cases found : leafTerms? (e.node id) factor terms with
  | some terms' => simp [collectStep, isLeaf, found]
  | none => simp [collectStep, isLeaf, found]

theorem collectStep_group {id : NodeId} {inner : Tree NodeId} (spans : e.Spans (.group id inner))
    (factor : Float) (rest : List Part) (terms : Terms) :
    collectStep e ((id, factor) :: rest, terms) =
      if (e.node id).token.kind = .opening ∧ (e.node id).call.isNone then
      .more ((inner.top, factor) :: rest, terms)
      else .done (nonLinearAt e id) := by
  have isLeaf : (e.node id).isLeaf = false := spans.links.isLeaf_eq
  have first : (e.node id).left = some inner.top := spans.links.1
  have second : (e.node id).right = none := spans.links.2.1
  by_cases bracket : (e.node id).token.kind = .opening ∧ (e.node id).call.isNone
  · simp [collectStep, isLeaf, innerParts, bracket.1, Option.isNone_iff_eq_none.mp bracket.2, first]
  · have other : ¬ ((e.node id).token.kind = .opening ∧ (e.node id).call.isNone ∧ (e.node id).left.isSome) :=
      fun all => bracket ⟨all.1, all.2.1⟩
    have parts : innerParts e id factor = nonLinearAt e id := by
      unfold innerParts
      rw [if_neg other]
      simp only [first, second]
    rw [if_neg bracket]
    simp only [collectStep, isLeaf, parts, nonLinearAt]
    rfl

theorem collectStep_fork {id : NodeId} {left right : Tree NodeId} (spans : e.Spans (.fork id left right))
    (rank : (e.node id).token.kind.rank?.isSome) (factor : Float) (rest : List Part) (terms : Terms) :
    collectStep e ((id, factor) :: rest, terms) = match splitParts e id left.top right.top factor with
      | .ok parts => .more (parts ++ rest, terms)
      | .error error => .done (.error error) := by
  have isLeaf : (e.node id).isLeaf = false := spans.links.isLeaf_eq
  have first : (e.node id).left = some left.top := spans.links.1
  have second : (e.node id).right = some right.top := spans.links.2.1
  have other : ¬ ((e.node id).token.kind = .opening ∧ (e.node id).call.isNone ∧
      (e.node id).left.isSome) := fun all => by
    simp [all.1, Token.Kind.rank?] at rank
  have inner : innerParts e id factor = splitParts e id left.top right.top factor := by
    unfold innerParts
    rw [if_neg other]
    simp only [first, second]
  simp only [collectStep, isLeaf, inner]
  rfl

/-- A subtree on top of the stack is collected as its tree is. -/
theorem collects_subtree {t : Tree NodeId} (spans : e.Spans t) (formed : (e.view t).Formed) (factor : Float)
    (rest : List Part) (terms : Terms) :
    Collects e t.size ((t.top, factor) :: rest, terms) rest (collect? (e.view t) factor terms) := by
  induction t generalizing factor rest terms with
  | leaf id =>
    have step := collectStep_leaf spans factor rest terms
    rw [Expression.view_leaf, collect?]
    cases found : leafTerms? (ofMark (e.node id).label) factor terms with
    | some terms' => exact ⟨1, Nat.le_refl _, .once (by rw [Tree.top_leaf, step, found])⟩
    | none =>
      exact ⟨1, .nonLinear (e.renderAt id).text, Nat.le_refl _,
        .now (by rw [Tree.top_leaf, step, found]; rfl)⟩
  | group id inner ih =>
    have step := collectStep_group spans factor rest terms
    have label : (e.node id).label.token = (e.node id).token ∧
      (e.node id).label.call = (e.node id).call := ⟨rfl, rfl⟩
    rw [Expression.view_group, collect?, label.1, label.2]
    split
    · next bracket =>
      exact (ih spans.group formed.2 factor rest terms).later
        (by rw [Tree.top_group, step, if_pos bracket]) (Nat.le_refl _)
    · next other =>
      exact ⟨1, .nonLinear (e.renderAt id).text, by simp [Tree.size],
        .now (by rw [Tree.top_group, step, if_neg other]; rfl)⟩
  | fork id left right ihl ihr =>
    have rank : (e.node id).token.kind.rank?.isSome := formed.1
    have step := collectStep_fork spans rank factor rest terms
    have ihl := ihl spans.left formed.2.1
    have ihr := ihr spans.right formed.2.2
    have refused {error : ComputationError}
        (split : splitParts e id left.top right.top factor = .error error) :
        Collects e (Tree.fork id left right).size ((id, factor) :: rest, terms) rest none :=
      ⟨1, error, by simp only [Tree.size]; omega, .now (by rw [step, split])⟩
    have both (factor' : Float)
        (split : splitParts e id left.top right.top factor = .ok [(right.top, factor'), (left.top, factor)]) :
        Collects e (Tree.fork id left right).size ((id, factor) :: rest, terms) rest
          ((collect? (e.view right) factor' terms).bind (collect? (e.view left) factor)) :=
      ((ihr factor' ((left.top, factor) :: rest) terms).bind fun terms => ihl factor rest terms).later
        (by rw [step, split]; rfl) (by simp only [Tree.size]; omega)
    have one {side : Tree NodeId}
        {factor' : Float} {result : Option Terms} (few : side.size ≤ left.size + right.size)
        (collects : Collects e side.size ((side.top, factor') :: rest, terms) rest result)
        (split : splitParts e id left.top right.top factor = .ok [(side.top, factor')]) :
        Collects e (Tree.fork id left right).size ((id, factor) :: rest, terms) rest result :=
      collects.later (by rw [step, split]; rfl) (by simp only [Tree.size]; omega)
    have label : (e.node id).label.token.kind = (e.node id).token.kind := rfl
    rw [Expression.view_fork, collect?, Tree.top_fork, label, ← constantAt_eq spans.left.links,
      ← constantAt_eq spans.right.links]
    cases kind : (e.node id).token.kind <;>
      simp only [kind, Token.Kind.rank?, Option.isSome_none, Bool.false_eq_true] at rank
    case equals => exact both (-factor) (by simp only [splitParts, kind])
    case minus => exact both (-factor) (by simp only [splitParts, kind])
    case plus => exact both factor (by simp only [splitParts, kind])
    case power => exact refused (by simp only [splitParts, kind]; rfl)
    case times =>
      cases foundl : constantAt? e left.top with
      | some k =>
        exact one (Nat.le_add_left ..) (ihr (factor * k) rest terms)
          (by simp only [splitParts, kind, foundl])
      | none =>
        cases foundr : constantAt? e right.top with
        | some k =>
          exact one (Nat.le_add_right ..) (ihl (factor * k) rest terms)
            (by simp only [splitParts, kind, foundl, foundr])
        | none => exact refused (by simp only [splitParts, kind, foundl, foundr]; rfl)
    case divide =>
      cases foundr : constantAt? e right.top with
      | some k =>
        by_cases nonzero : k != 0.0
        · simp only [nonzero, if_true]
          exact one (Nat.le_add_right ..) (ihl (factor / k) rest terms)
            (by simp only [splitParts, kind, foundr, nonzero, if_true])
        · simp only [nonzero]
          exact refused (by simp only [splitParts, kind, foundr, nonzero]; rfl)
      | none => exact refused (by simp only [splitParts, kind, foundr]; rfl)

/-- Collecting the terms of a formula collects those of the tree it displays. -/
theorem collectTerms_eq {x : Tree Mark} (displays : e.Displays x) (formed : x.Formed) :
    (collectTerms e).toOption = collect? x 1.0 [] := by
  obtain ⟨t, spans, root, rfl⟩ := displays
  have collects := collects_subtree spans formed 1.0 [] []
  rw [collectTerms, ← root]
  cases found : collect? (e.view t) 1.0 [] with
  | some terms =>
    rw [found] at collects
    obtain ⟨k, few, leads⟩ := collects
    have positive := t.size_pos
    rw [Loop.run_of_leads leads rfl (spans.steps_lt (by omega))]
    rfl
  | none =>
    rw [found] at collects
    obtain ⟨k, error, few, ends⟩ := collects
    rw [Loop.run_of_ends ends (spans.steps_lt (by omega))]
    rfl

end LinearSystem

end Stepwise
