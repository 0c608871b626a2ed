import Stepwise.Proofs.Reduction.Replace
import Stepwise.Proofs.Tree.Grammar

/-! Preparing a tree by recursion. Main statement: preparing a formula prepares the tree it displays.
Factorials stand on leaves only, so replacing them leaves the links of the nodes as they are. -/
namespace Stepwise

namespace Tree

/-- Replaces the factorials from left to right, up to the first that fails. -/
def foldFactorials : Tree Mark → Tree Mark × Except ComputationError Unit
  | leaf a =>
    if a.token.kind = .factorial then
      match factorial ((Decimal.read? a.token.text).getD Decimal.nan) with
      | .ok value => (leaf (a.collapse (.constant value)), .ok ())
      | .error error => (leaf a, .error error)
    else (leaf a, .ok ())
  | group a inner => (group a inner.foldFactorials.1, inner.foldFactorials.2)
  | fork a left right =>
    match left.foldFactorials with
    | (y, .error error) => (fork a y right, .error error)
    | (y, .ok ()) => (fork a y right.foldFactorials.1, right.foldFactorials.2)

def numberLeaf? : Tree Mark → Option Float
  | leaf a => if a.token.kind = .number ∧ a.call.isNone then Decimal.read? a.token.text else none
  | _ => none

def letterLeaf? : Tree Mark → Option Char
  | leaf a => if a.token.kind = .letter ∧ a.call.isNone then a.token.text.toList.head? else none
  | _ => none

def monomial? : Tree Mark → Option Quantity
  | fork a left (fork b base exponent) =>
    if a.token.kind ≠ .times ∨ a.value.isSome then none
    else left.numberLeaf?.bind fun coefficient =>
      if b.token.kind ≠ .power then none
      else base.letterLeaf?.bind fun letter =>
        (exponent.numberLeaf?.bind polynomialPower?).map fun power =>
          (Quantity.polynomial (.monomial coefficient power letter)).normalized
  | _ => none

def recognized? (x : Tree Mark) : Option Quantity :=
  match x.monomial? with
  | some term => some term
  | none =>
    if x.isLeaf ∧ x.top.token.kind = .letter then
      x.top.token.text.toList.head?.map fun letter => .polynomial (.monomial 1.0 1 letter)
    else none

/-- Turns variable terms into polynomial leaves, from the root down. -/
def recognize : Tree Mark → Tree Mark
  | leaf a =>
    match (leaf a).recognized? with
    | some term => leaf (a.collapse term)
    | none => leaf a
  | group a inner => group a inner.recognize
  | fork a left right =>
    match (fork a left right).recognized? with
    | some term => leaf (a.collapse term)
    | none => fork a left.recognize right.recognize

end Tree

namespace Label

def attachNumber (a : Mark) : Mark :=
  if a.value.isNone ∧ a.token.kind = .number then
    match Decimal.read? a.token.text with
    | some x => a.collapse (.constant x)
    | none => a
  else a

end Label

namespace Tree

def attachCall (x : Tree Mark) : Mark :=
  match x.top.termKeyword? with
  | some keyword =>
    if x.top.value.any Formula.isTerm then x.top
    else { x.top with value := some (x.callTerm keyword none), reduced := x.isLeaf }
  | none => if x.top.isDerivative then { x.top with reduced := false } else x.top

def attachQuantities : Tree Mark → Tree Mark
  | leaf a => leaf (leaf a.attachNumber).attachCall
  | group a inner => group (group a inner).attachCall inner.attachQuantities
  | fork a left right => fork (fork a left right).attachCall left.attachQuantities right.attachQuantities

def prepare (x : Tree Mark) : Tree Mark × Except ComputationError Unit :=
  match x.foldFactorials with
  | (y, .ok ()) => (y.recognize.attachQuantities, .ok ())
  | failed => failed

/-- Without a factorial there is nothing to replace. -/
theorem foldFactorials_absent {x : Tree Mark} (absent : ∀ a ∈ x.flatten, a.token.kind ≠ .factorial) :
    x.foldFactorials = (x, .ok ()) := by
  induction x with
  | leaf a => simp [foldFactorials, absent a (by simp [flatten])]
  | group a inner ih => simp [foldFactorials, ih fun b member => absent b (List.mem_cons_of_mem _ member)]
  | fork a left right ihl ihr =>
    have first := ihl fun b member => absent b (List.mem_cons_of_mem _ (List.mem_append_left _ member))
    have second := ihr fun b member => absent b (List.mem_cons_of_mem _ (List.mem_append_right _ member))
    simp [foldFactorials, first, second]

/-- Without a letter there is nothing to recognize. -/
theorem recognize_absent {x : Tree Mark} (absent : ∀ a ∈ x.flatten, a.token.kind ≠ .letter) :
    x.recognize = x := by
  have letterLeaf {y : Tree Mark} (other : y.top.token.kind ≠ .letter) : y.letterLeaf? = none := by
    cases y with
    | leaf a => exact if_neg fun letter => other letter.1
    | group | fork => rfl
  induction x with
  | leaf a => simp [recognize, recognized?, monomial?, absent a (by simp [flatten])]
  | group a inner ih => rw [recognize, ih fun b member => absent b (List.mem_cons_of_mem _ member)]
  | fork a left right ihl ihr =>
    have first := ihl fun b member => absent b (List.mem_cons_of_mem _ (List.mem_append_left _ member))
    have second := ihr fun b member => absent b (List.mem_cons_of_mem _ (List.mem_append_right _ member))
    have none : (fork a left right).monomial? = none := by
      cases right with
      | leaf | group => rfl
      | fork b base exponent =>
        have inside : base.top ∈ (fork a left (fork b base exponent)).flatten := by
          simp [flatten, base.top_mem]
        simp [monomial?, letterLeaf (absent _ inside)]
    simp [recognize, recognized?, none, isLeaf, first, second]

theorem attachCall_unmarked {x : Tree Mark} (unmarked : x.top.call = none) : x.attachCall = x.top := by
  simp [attachCall, Label.termKeyword?, Label.isDerivative, unmarked]

end Tree

namespace Formula

open Expression Loop

variable {e f g : Formula}

structure Relabels (e f : Formula) (changed : List NodeId) : Prop where
  size : f.size = e.size
  root : f.root = e.root
  links : ∀ id, (f.node id).left = (e.node id).left ∧ (f.node id).right = (e.node id).right
  frame : ∀ id, id ∉ changed → f.node id = e.node id

namespace Relabels

theorem refl (e : Formula) (changed : List NodeId) : Relabels e e changed :=
  ⟨rfl, rfl, fun _ => ⟨rfl, rfl⟩, fun _ _ => rfl⟩

theorem trans {first second : List NodeId} (one : Relabels e f first) (two : Relabels f g second) :
    Relabels e g (first ++ second) where
  size := two.size.trans one.size
  root := two.root.trans one.root
  links id := ⟨(two.links id).1.trans (one.links id).1, (two.links id).2.trans (one.links id).2⟩
  frame id outside := by
    simp only [List.mem_append, not_or] at outside
    rw [two.frame id outside.2, one.frame id outside.1]

theorem weaken {first second : List NodeId} (one : Relabels e f first) (sub : first ⊆ second) :
    Relabels e f second where
  size := one.size
  root := one.root
  links := one.links
  frame id outside := one.frame id fun member => outside (sub member)

theorem spans {changed : List NodeId} (relabels : Relabels e f changed) {t : Tree NodeId}
    (spans : e.Spans t) :
    f.Spans t where
  links := spans.links.congr fun id _ => relabels.links id
  nodup := spans.nodup
  inside id member := relabels.size ▸ spans.inside id member

theorem regrown {changed : List NodeId} (relabels : Relabels e f changed) {t : Tree NodeId}
    (spans : e.Spans t) (sub : changed ⊆ t.flatten) : Regrown e f t.flatten t where
  spans := relabels.spans spans
  grown := Nat.le_of_eq relabels.size.symm
  known _ member := .inl member
  frame id _ outside := relabels.frame id fun member => outside (sub member)

theorem view {changed : List NodeId} (relabels : Relabels e f changed) {t : Tree NodeId}
    (apart : ∀ id ∈ t.flatten, id ∉ changed) : f.view t = e.view t :=
  view_frame fun id member => relabels.frame id (apart id member)

/-- A change of one node that keeps its links. -/
theorem modify {id : NodeId} {change : Node Quantity → Node Quantity}
    (links : (change (e.node id)).left = (e.node id).left ∧ (change (e.node id)).right = (e.node id).right) :
    Relabels e (e.modify id change) [id] where
  size := size_modify ..
  root := rfl
  links other := by
    rw [node_modify]
    split
    · next here => rw [here.1]; exact links
    · exact ⟨rfl, rfl⟩
  frame other outside := node_modify_other e _ (by simpa using outside)

end Relabels

/-- The operands of a fork are relabelled one after the other. -/
theorem Relabels.fork {id : NodeId} {left right : Tree NodeId} (spans : e.Spans (.fork id left right))
    (one : Relabels e f left.flatten) (two : Relabels f g right.flatten) :
    Relabels e g (left.flatten ++ right.flatten) ∧ f.view right = e.view right ∧
      g.view (.fork id left right) = .fork (e.node id).label (f.view left) (g.view right) := by
  have disjoint := (List.nodup_append.mp (List.nodup_cons.mp spans.nodup).2).2.2
  have outside := (List.nodup_cons.mp spans.nodup).1
  have both := one.trans two
  refine ⟨both, one.view fun j member other => disjoint j other j member rfl, ?_⟩
  rw [view_fork, both.frame id outside, two.view fun j member other => disjoint j member j other rfl]

theorem collapse_relabels {id : NodeId} (links : e.Links (.leaf id)) (value : Quantity) :
    Relabels e (e.collapse id value) [id] :=
  .modify ⟨links.1.symm, links.2.symm⟩

theorem view_collapse {id : NodeId} (inside : id < e.size) (value : Quantity) :
    (e.collapse id value).view (.leaf id) = .leaf ((e.node id).label.collapse value) := by
  rw [view_leaf, Expression.collapse, node_modify_self e _ inside]
  rfl

theorem foldFactorials_eq {t : Tree NodeId} (spans : e.Spans t) (formed : (e.view t).Formed)
    (rest : List NodeId) :
    ∃ f, Relabels e f t.flatten ∧ f.view t = (e.view t).foldFactorials.1 ∧
      foldFactorials (t.flatten ++ rest) e = match (e.view t).foldFactorials.2 with
        | .ok () => foldFactorials rest f
        | .error error => (f, .error error) := by
  induction t generalizing e rest with
  | leaf id =>
    have label : (e.node id).label.token = (e.node id).token := rfl
    simp only [Tree.flatten, List.singleton_append, foldFactorials, view_leaf, Tree.foldFactorials, label]
    by_cases kind : (e.node id).token.kind = .factorial
    · simp only [kind, if_true]
      cases factorial ((Decimal.read? (e.node id).token.text).getD Decimal.nan) with
      | ok value =>
        have inside := spans.inside id (by simp [Tree.flatten])
        exact ⟨_, collapse_relabels spans.links _, view_collapse inside _, rfl⟩
      | error error => exact ⟨e, .refl e _, rfl, rfl⟩
    · simp only [kind, if_false]
      exact ⟨e, .refl e _, rfl, rfl⟩
  | group id inner ih =>
    obtain ⟨f, relabels, view, folded⟩ := ih spans.group formed.2 rest
    have opening : (e.node id).token.kind = .opening := formed.1
    have kind : (e.node id).token.kind ≠ .factorial := by simp [opening]
    have outside := (List.nodup_cons.mp spans.nodup).1
    refine ⟨f, relabels.weaken (List.subset_cons_self ..), ?_, ?_⟩
    · rw [view_group, relabels.frame id outside, view]
      rfl
    · simp only [Tree.flatten, List.cons_append, foldFactorials, kind, if_false]
      exact folded
  | fork id left right ihl ihr =>
    obtain ⟨f, one, view, folded⟩ := ihl spans.left formed.2.1 (right.flatten ++ rest)
    have kind : (e.node id).token.kind ≠ .factorial := fun factorial => by
      have rank : (e.node id).token.kind.rank?.isSome := formed.1
      simp [factorial, Token.Kind.rank?] at rank
    have whole : foldFactorials ((Tree.fork id left right).flatten ++ rest) e =
        foldFactorials (left.flatten ++ (right.flatten ++ rest)) e := by
      simp only [Tree.flatten, List.cons_append, List.append_assoc, foldFactorials, kind, if_false]
    have before := Relabels.fork spans one (.refl f right.flatten)
    rw [whole, folded, view_fork, Tree.foldFactorials]
    cases result : (e.view left).foldFactorials with
    | mk y ended =>
      rw [result] at view
      cases ended with
      | error error =>
        refine ⟨f, before.1.weaken (List.subset_cons_self ..), ?_, rfl⟩
        rw [before.2.2, view, before.2.1]
      | ok =>
        obtain ⟨g, two, view', folded'⟩ := ihr (one.spans spans.right) (before.2.1 ▸ formed.2.2) rest
        have after := Relabels.fork spans one two
        refine ⟨g, after.1.weaken (List.subset_cons_self ..), ?_, ?_⟩
        · rw [after.2.2, view, view', after.2.1]
        · simp only [folded', before.2.1]

theorem numberLeaf_eq {t : Tree NodeId} (links : e.Links t) :
    numberLeaf? e t.top = (e.view t).numberLeaf? := by
  have isLeaf := links.isLeaf_eq
  cases t <;> simp_all [numberLeaf?, Tree.numberLeaf?, view_leaf, view_group, view_fork,
    Tree.isLeaf, Node.label]

theorem letterLeaf_eq {t : Tree NodeId} (links : e.Links t) :
    letterLeaf? e t.top = (e.view t).letterLeaf? := by
  have isLeaf := links.isLeaf_eq
  cases t <;> simp_all [letterLeaf?, Tree.letterLeaf?, view_leaf, view_group, view_fork,
    Tree.isLeaf, Node.label]

theorem monomialAt_eq {t : Tree NodeId} (links : e.Links t) : monomialAt? e t.top = (e.view t).monomial? := by
  cases t with
  | leaf id => simp [monomialAt?, view_leaf, Tree.monomial?, links.1]
  | group id inner => simp [monomialAt?, view_group, Tree.monomial?, links.1, links.2.1]
  | fork id left right =>
    cases right with
    | leaf b =>
      simp [monomialAt?, view_leaf, view_fork, Tree.monomial?, links.1, links.2.1, links.2.2.2.1]
    | group b inner =>
      simp [monomialAt?, view_group, view_fork, Tree.monomial?, links.1, links.2.1, links.2.2.2.1,
        links.2.2.2.2.1]
    | fork b base exponent =>
      have number := numberLeaf_eq links.2.2.1
      have letter := letterLeaf_eq links.2.2.2.2.2.1
      have degree := numberLeaf_eq links.2.2.2.2.2.2
      simp only [monomialAt?, Tree.top_fork, links.1, links.2.1, view_fork, Tree.monomial?,
        ← number, ← letter, ← degree]
      by_cases other : (e.node id).token.kind ≠ .times ∨ (e.node id).value.isSome
      · simp [other, Node.label]
      · by_cases power : (e.node b).token.kind = .power
        · simp only [other, power, Node.label, if_false, ne_eq, not_true_eq_false, Option.bind_eq_bind,
            Option.bind_some, links.2.2.2.1, links.2.2.2.2.1]
          cases numberLeaf? e exponent.top with
          | none => rfl
          | some n =>
            simp only [Option.bind_some]
            cases polynomialPower? n <;> rfl
        · simp [other, power, Node.label]

theorem recognized_eq {t : Tree NodeId} (links : e.Links t) :
    recognized? e t.top = (e.view t).recognized? := by
  have top : (e.view t).top = (e.node t.top).label := by simp [Expression.view]
  have isLeaf : (e.view t).isLeaf = (e.node t.top).isLeaf := by simp [Expression.view, links.isLeaf_eq]
  simp only [recognized?, Tree.recognized?, monomialAt_eq links, top, isLeaf]
  rfl

/-- What a walk over a subtree leaves in its place. -/
theorem leads_recognize {t : Tree NodeId} (spans : e.Spans t) (stack : List NodeId) :
    ∃ n f, n ≤ t.size ∧ Replaces e t f (e.view t).recognize ∧
      Leads recognizeStep n (t.top :: stack, e) (stack, f) := by
  have stop {t : Tree NodeId} {e : Formula} (spans : e.Spans t) (stack : List NodeId) {term : Quantity}
      (found : (e.view t).recognized? = some term) :
      Replaces e t (e.collapse t.top term) (.leaf ((e.node t.top).label.collapse term)) ∧
        Leads recognizeStep 1 (t.top :: stack, e) (stack, e.collapse t.top term) := by
    obtain ⟨regrown, view⟩ := regrown_collapse spans term
    refine ⟨.of_regrown regrown view rfl rfl, .once ?_⟩
    simp [recognizeStep, recognized_eq spans.links, found]
  induction t generalizing e stack with
  | leaf id =>
    cases found : (e.view (.leaf id)).recognized? with
    | some term =>
      obtain ⟨replaces, walk⟩ := stop spans stack found
      rw [view_leaf] at found
      exact ⟨1, _, Nat.le_refl _, by simpa [view_leaf, Tree.recognize, found] using replaces, walk⟩
    | none =>
      refine ⟨1, e, Nat.le_refl _,
        ⟨.leaf id, rfl, (Relabels.refl e []).regrown spans (List.nil_subset _), ?_, rfl⟩, .once ?_⟩
      · rw [view_leaf] at found ⊢
        simp [Tree.recognize, found]
      · have here : recognized? e id = none := (recognized_eq spans.links).trans found
        simp [recognizeStep, here, pushOperands, spans.links.1, spans.links.2]
  | group id inner ih =>
    have found : (e.view (.group id inner)).recognized? = none := by
      simp [view_group, Tree.recognized?, Tree.monomial?, Tree.isLeaf]
    have here : recognized? e id = none := (recognized_eq spans.links).trans found
    obtain ⟨n, f, few, replaces, walk⟩ := ih spans.group stack
    refine ⟨n + 1, f, by simp only [Tree.size]; omega, replaces.group spans, .later ?_ walk⟩
    simp [recognizeStep, here, pushOperands, spans.links.1, spans.links.2.1]
  | fork id left right ihl ihr =>
    cases found : (e.view (.fork id left right)).recognized? with
    | some term =>
      obtain ⟨replaces, walk⟩ := stop spans stack found
      rw [view_fork] at found
      exact ⟨1, _, by simp only [Tree.size]; omega,
        by simpa [view_fork, Tree.recognize, found] using replaces, walk⟩
    | none =>
      have here : recognized? e id = none := (recognized_eq spans.links).trans found
      have first : recognizeStep (id :: stack, e) = .more (left.top :: right.top :: stack, e) := by
        simp [recognizeStep, here, pushOperands, spans.links.1, spans.links.2.1]
      rw [view_fork] at found
      obtain ⟨m, f, fewl, replacesl, walkl⟩ := ihl spans.left (right.top :: stack)
      have disjoint := (List.nodup_append.mp (List.nodup_cons.mp spans.nodup).2).2.2
      obtain ⟨kept, same⟩ := replacesl.frame spans.right fun j member other => disjoint j other j member rfl
      obtain ⟨n, g, fewr, replacesr, walkr⟩ := ihr kept stack
      refine ⟨m + n + 1, g, by simp only [Tree.size]; omega, ?_, .later first (walkl.trans walkr)⟩
      have recognized : (e.view (.fork id left right)).recognize =
          .fork (e.node id).label (e.view left).recognize (e.view right).recognize := by
        rw [view_fork, Tree.recognize, found]
      rw [recognized, ← same]
      exact replacesl.both spans replacesr

theorem recognizePolynomials_eq {t : Tree NodeId} (spans : e.Spans t) (root : t.top = e.root) :
    Replaces e t (recognizePolynomials e) (e.view t).recognize := by
  obtain ⟨n, f, few, replaces, walk⟩ := leads_recognize spans []
  have pos := t.size_pos
  rw [recognizePolynomials, ← root, run_of_leads walk rfl (spans.steps_lt (by omega))]
  exact replaces

theorem attachCall_eq {t : Tree NodeId} (spans : e.Spans t) :
    Relabels e (attachCall e t.top) [t.top] ∧
      ((attachCall e t.top).node t.top).label = (e.view t).attachCall := by
  have inside := spans.inside _ t.top_mem
  have top : (e.view t).top = (e.node t.top).label := by simp [Expression.view]
  have isLeaf : (e.view t).isLeaf = (e.node t.top).isLeaf := by simp [Expression.view, spans.links.isLeaf_eq]
  have keyword : (e.node t.top).label.termKeyword? = termKeyword? (e.node t.top) := rfl
  have derivative : (e.node t.top).label.isDerivative = isDerivative (e.node t.top) := rfl
  have value : (e.node t.top).label.value = (e.node t.top).value := rfl
  simp only [attachCall, Tree.attachCall, top, keyword, derivative, value, isLeaf]
  cases termKeyword? (e.node t.top) with
  | some name =>
    simp only
    split
    · exact ⟨.refl e _, rfl⟩
    · rw [callTerm_eq spans]
      exact ⟨.modify ⟨rfl, rfl⟩, by rw [node_modify_self e _ inside]; rfl⟩
  | none =>
    simp only
    split
    · exact ⟨.modify ⟨rfl, rfl⟩, by rw [node_modify_self e _ inside]; rfl⟩
    · exact ⟨.refl e _, rfl⟩

theorem attachNumber_leaf {id : NodeId} (spans : e.Spans (.leaf id)) :
    Relabels e (attachNumber e id) [id] ∧
      ((attachNumber e id).node id).label = (e.node id).label.attachNumber := by
  have inside := spans.inside id (by simp [Tree.flatten])
  have isLeaf : (e.node id).isLeaf = true := spans.links.isLeaf_eq
  have token : (e.node id).label.token = (e.node id).token := rfl
  have value : (e.node id).label.value = (e.node id).value := rfl
  simp only [attachNumber, Label.attachNumber, isLeaf, true_and, token, value]
  split
  · cases Decimal.read? (e.node id).token.text with
    | some x => exact ⟨collapse_relabels spans.links _, Tree.leaf.inj (view_collapse inside _)⟩
    | none => exact ⟨.refl e _, rfl⟩
  · exact ⟨.refl e _, rfl⟩

theorem attachNumber_inner {id : NodeId} (inner : (e.node id).isLeaf = false) : attachNumber e id = e := by
  simp [attachNumber, inner]

/-- Quantities are attached to the nodes of a subtree one after the other. -/
theorem attach_eq {t : Tree NodeId} (spans : e.Spans t) :
    Relabels e (t.flatten.foldl (fun e id => attachCall (attachNumber e id) id) e) t.flatten ∧
      (t.flatten.foldl (fun e id => attachCall (attachNumber e id) id) e).view t =
      (e.view t).attachQuantities := by
  induction t generalizing e with
  | leaf id =>
    obtain ⟨one, label⟩ := attachNumber_leaf spans
    obtain ⟨two, label'⟩ := attachCall_eq (one.spans spans)
    refine ⟨(one.trans two).weaken (by simp [Tree.flatten]), ?_⟩
    rw [view_leaf] at label'
    exact congrArg Tree.leaf (label'.trans (by rw [label]))
  | group id inner ih =>
    have isLeaf : (e.node id).isLeaf = false := spans.links.isLeaf_eq
    obtain ⟨one, label⟩ := attachCall_eq spans
    have outside := (List.nodup_cons.mp spans.nodup).1
    obtain ⟨two, view⟩ := ih (one.spans spans).group
    have same := one.view (t := inner) fun j member here => by
      obtain rfl : j = id := List.mem_singleton.mp here
      exact outside member
    simp only [Tree.flatten, List.foldl_cons, attachNumber_inner isLeaf, Tree.top_group]
      at one label two view same ⊢
    refine ⟨one.trans two, ?_⟩
    rw [view_group, two.frame id outside, label, view, same, view_group]
    rfl
  | fork id left right ihl ihr =>
    have isLeaf : (e.node id).isLeaf = false := spans.links.isLeaf_eq
    obtain ⟨one, label⟩ := attachCall_eq spans
    have outside := (List.nodup_cons.mp spans.nodup).1
    have apart : ∀ j ∈ left.flatten ++ right.flatten, j ∉ [id] := fun j member here =>
      outside (List.mem_singleton.mp here ▸ member)
    have samel := one.view fun j member => apart j (List.mem_append_left _ member)
    have samer := one.view fun j member => apart j (List.mem_append_right _ member)
    obtain ⟨two, viewl⟩ := ihl (one.spans spans).left
    obtain ⟨three, viewr⟩ := ihr (two.spans (one.spans spans).right)
    obtain ⟨both, kept, view⟩ := Relabels.fork (one.spans spans) two three
    simp only [Tree.flatten, List.foldl_cons, List.foldl_append, attachNumber_inner isLeaf,
      Tree.top_fork] at *
    refine ⟨one.trans both, ?_⟩
    rw [view, label, viewl, viewr, kept, samel, samer, view_fork]
    rfl

theorem attachQuantities_eq {t : Tree NodeId} (spans : e.Spans t) (root : t.top = e.root) :
    Relabels e (attachQuantities e) t.flatten ∧
      (attachQuantities e).view t = (e.view t).attachQuantities := by
  rw [attachQuantities, ← root, preorder_eq spans]
  exact attach_eq spans

/-- Preparing a formula prepares the tree it displays. -/
theorem prepare_eq {x : Tree Mark} (displays : e.Displays x) (formed : x.Formed) :
    (prepare e).1.Displays x.prepare.1 ∧ (prepare e).2 = x.prepare.2 := by
  obtain ⟨t, spans, root, rfl⟩ := displays
  obtain ⟨f, relabels, view, folded⟩ := foldFactorials_eq spans formed []
  have kept := relabels.spans spans
  have root' : t.top = f.root := root.trans relabels.root.symm
  rw [List.append_nil] at folded
  rw [prepare, Tree.prepare, ← root, preorder_eq spans, folded]
  cases result : (e.view t).foldFactorials with
  | mk y ended =>
    rw [result] at view
    cases ended with
    | error error => exact ⟨⟨t, kept, root', view⟩, rfl⟩
    | ok done =>
      cases done
      obtain ⟨u, top, regrown, recognized, same⟩ := recognizePolynomials_eq kept root'
      have root'' : u.top = (recognizePolynomials f).root := top.trans (root'.trans same.symm)
      obtain ⟨attached, view'⟩ := attachQuantities_eq regrown.spans root''
      refine ⟨⟨u, attached.spans regrown.spans, root''.trans attached.root.symm, ?_⟩, rfl⟩
      change (attachQuantities (recognizePolynomials f)).view u = y.recognize.attachQuantities
      rw [view', recognized, view]

end Formula

end Stepwise
