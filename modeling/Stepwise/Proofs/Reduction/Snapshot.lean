import Stepwise.Proofs.Reduction.Intact
import Stepwise.Proofs.Subtree.Shape

/-! The argument that the term of a call is given. Main statement: on a leaf it describes what stands
there, because a node that is combined gives its term a new argument; above operands that could not be
combined it still is the expression that stood there when the formula was prepared, whatever the operands
have been reduced to since. -/
namespace Stepwise

namespace Expression

variable {ν μ : Type} {e f g : Expression ν}

/-- Operators and brackets of the second expression that carry a keyword were such nodes before, with the
same keyword and the same value. -/
structure Inherits (e f : Expression ν) : Prop where
  kept : ∀ id, (f.node id).isLeaf = false → (f.node id).call.isSome →
    (e.node id).isLeaf = false ∧ (f.node id).call = (e.node id).call ∧ (f.node id).value = (e.node id).value

namespace Inherits

theorem refl (e : Expression ν) : Inherits e e := ⟨fun _ inner _ => ⟨inner, rfl, rfl⟩⟩

theorem trans (first : Inherits e f) (second : Inherits f g) : Inherits e g := by
  refine ⟨fun id inner called => ?_⟩
  obtain ⟨inner', call, value⟩ := second.kept id inner called
  obtain ⟨inner'', call', value'⟩ := first.kept id inner' (call ▸ called)
  exact ⟨inner'', call.trans call', value.trans value'⟩

/-- A change of one node that leaves no operator with a keyword, or the one that was there. -/
theorem modify {id : NodeId} {change : Node ν → Node ν}
    (kept : (change (e.node id)).isLeaf = false → (change (e.node id)).call.isSome →
      (e.node id).isLeaf = false ∧ (change (e.node id)).call = (e.node id).call ∧
        (change (e.node id)).value = (e.node id).value) : Inherits e (e.modify id change) := by
  refine ⟨fun other inner called => ?_⟩
  rw [node_modify] at inner called ⊢
  split at inner
  · next here =>
    rw [if_pos here] at called ⊢
    rw [here.1] at inner called ⊢
    exact kept inner called
  · next away =>
    rw [if_neg away]
    exact ⟨inner, rfl, rfl⟩

theorem setParent (id parent : NodeId) : Inherits e (e.setParent id parent) :=
  modify fun inner _ => ⟨inner, rfl, rfl⟩

theorem push {node : Node ν} (plain : node.call = none) : Inherits e (e.push node) := by
  refine ⟨fun id inner called => ?_⟩
  by_cases new : id = e.size
  · subst new
    rw [node_push_self, plain] at called
    simp at called
  · have same : (e.push node).node id = e.node id := by
      simp only [size] at new
      simp only [node_eq, Expression.push, Array.getElem?_push]
      rw [if_neg new]
    rw [same] at inner ⊢
    exact ⟨inner, rfl, rfl⟩

theorem pushBinary (token : Token) (left right : NodeId) : Inherits e (e.pushBinary token left right) :=
  (push rfl).trans ((setParent ..).trans (setParent ..))

theorem pushValue [Content ν] (value : ν) : Inherits e (e.pushValue value) := push rfl

theorem collapse [Content ν] (id : NodeId) (value : ν) : Inherits e (e.collapse id value) :=
  modify fun inner => by simp [Node.isLeaf] at inner

theorem replaceChildren {id : NodeId} (inner : (e.node id).isLeaf = false) (left right : NodeId) :
    Inherits e (e.replaceChildren id left right) :=
  (modify fun _ _ => ⟨inner, rfl, rfl⟩).trans ((setParent ..).trans (setParent ..))

end Inherits

theorem isLeaf_beyond {id : NodeId} (outside : e.size ≤ id) : (e.node id).isLeaf = true := by
  simp only [size] at outside
  simp [node_eq, outside]
  rfl

theorem isLeaf_collapse [Content ν] (e : Expression ν) (id : NodeId) (value : ν) :
    ((e.collapse id value).node id).isLeaf := by
  rw [Expression.collapse, node_modify]
  split
  · rfl
  · next away => exact isLeaf_beyond (Nat.le_of_not_lt fun inside => away ⟨rfl, inside⟩)

/-- Operators stay operators when nodes are added. -/
theorem inner_push {id : NodeId} (node : Node ν) (inner : (e.node id).isLeaf = false) :
    ((e.push node).node id).isLeaf = false := by
  have inside : id < e.size := by
    refine Nat.lt_of_not_le fun outside => ?_
    rw [isLeaf_beyond outside] at inner
    cases inner
  rw [node_push_other e node inside]
  exact inner

theorem inner_pushBinary {id : NodeId} (token : Token) (left right : NodeId)
    (inner : (e.node id).isLeaf = false) :
    ((e.pushBinary token left right).node id).isLeaf = false := by
  have kept := inner_push { token, left := some left, right := some right } inner
  simpa [Expression.pushBinary, Node.isLeaf] using kept

/-- A tree has its own shape. -/
theorem sameShape_self {t : Tree NodeId} (spans : e.Spans t) : e.sameShape t.top e t.top :=
  (sameShape_iff spans.hasSubtree spans.hasSubtree).mpr (matches_iff.mpr rfl)

end Expression

namespace Tree

theorem spans_outline_leaf (a : Mark) : (leaf a).outline.Spans (leaf 0) where
  links := ⟨rfl, rfl⟩
  nodup := by simp [flatten]
  inside := by simp [flatten, outline, Expression.extend, outlineNodes, Expression.modify, Expression.size]

theorem attachCall_term {x : Tree Mark} {keyword : String} (value : x.top.value = none)
    (term : x.attachCall.termKeyword? = some keyword) :
    x.attachCall.value = some (x.callTerm keyword none) := by
  unfold attachCall at term ⊢
  cases here : x.top.termKeyword? with
  | some name =>
    simp only [here, value, Option.any_none, Bool.false_eq_true, if_false] at term ⊢
    have same : x.top.termKeyword? = some keyword := term
    rw [Option.some.inj (here.symm.trans same)]
  | none =>
    simp only [here] at term
    have same : x.top.termKeyword? = some keyword := by
      split at term
      · exact term
      · exact term
    simp [here] at same

end Tree

namespace Formula

open Expression

variable {e f g : Formula}

theorem isolate_inherits {id : NodeId} (inner : (e.node id).isLeaf = false) :
    Inherits e (isolate e id).1 := by
  have settles : Inherits e (settleEquation e id) := .modify fun inner _ => ⟨inner, rfl, rfl⟩
  unfold isolate
  split
  · split
    · exact (Inherits.pushBinary ..).trans ((Inherits.pushValue _).trans
        (.replaceChildren (inner_push _ (inner_pushBinary _ _ _ inner)) _ _))
    · split
      · split
        · rw [moveOffset_eq]
          exact (Inherits.pushValue _).trans ((Inherits.pushValue _).trans ((Inherits.pushBinary ..).trans
            (.replaceChildren (inner_pushBinary _ _ _ (inner_push _ (inner_push _ inner))) _ _)))
        · split
          · exact (Inherits.pushValue _).trans ((Inherits.pushValue _).trans ((Inherits.pushBinary ..).trans
              (.replaceChildren (inner_pushBinary _ _ _ (inner_push _ (inner_push _ inner))) _ _)))
          · exact settles
      · exact settles
  · exact settles

theorem settle_inherits (e : Formula) (id : NodeId) (value : Quantity) : Inherits e (settle e id value) := by
  have leaf : ((e.collapse id value).node id).isLeaf := isLeaf_collapse e id value
  have onLeaf {change : Node Quantity → Node Quantity} (links : ∀ node, (change node).isLeaf = node.isLeaf) :
      Inherits e ((e.collapse id value).modify id change) :=
    (Inherits.collapse id value).trans (.modify fun inner => by simp [links, leaf] at inner)
  unfold settle
  simp only
  split
  · exact onLeaf fun _ => rfl
  · split
    · exact onLeaf fun _ => rfl
    · exact .collapse id value

/-- A reduction leaves operators with keywords as they are, or turns them into leaves. -/
theorem reduce_inherits {id : NodeId} (reduced : reduce e id = .ok f) : Inherits e f := by
  have defers : Inherits e (defer e id) := .modify fun inner _ => ⟨inner, rfl, rfl⟩
  unfold reduce at reduced
  simp only at reduced
  split at reduced
  · next leaf =>
    obtain rfl := Except.ok.inj reduced
    unfold differentiate
    split
    · exact (Inherits.modify fun inner called => by simp at called).trans (.collapse ..)
    · exact defers
  · next inner =>
    split at reduced
    · exact Except.ok.inj reduced ▸ isolate_inherits (by simpa using inner)
    · split at reduced
      · exact Except.ok.inj reduced ▸ settle_inherits ..
      · exact Except.ok.inj reduced ▸ defers
      · cases reduced

theorem Passes.inherits (passes : Passes e f) : Inherits e f := by
  induction passes with
  | prepared => exact .refl e
  | reduced _ _ _ reduced ih => exact ih.trans (reduce_inherits reduced)
  | simplified _ _ simplified ih =>
    refine ih.trans ?_
    unfold simplifyRoot at simplified
    split at simplified
    · obtain ⟨constant, _, rfl⟩ := of_map_ok simplified
      exact (Inherits.modify fun inner called => by simp at called).trans (.collapse ..)
    · exact Except.ok.inj simplified ▸ .refl _

def argument? : Quantity → Option Argument
  | .trig t => some t.argument
  | .log t => some t.argument
  | _ => none

/-- The argument is an expression of the shape of the subtree at `id`, or the number that stands there. -/
def Describes (e : Formula) (id : NodeId) : Argument → Prop
  | .numeric x => (e.node id).isLeaf ∧ ∃ q : Quantity, q.value? = some x ∧ (e.node id).token = Content.token q
  | .symbolic o => (e.extract id).sameShape (e.extract id).root o o.root

/-- The expression at `id` when the terms of the calls are formed: factorials have their values and
variable terms are recognized. -/
def snapshot (e : Formula) (id : NodeId) : Outline :=
  (recognizePolynomials (foldFactorials (e.preorder e.root) e).1).extract id

theorem argument_callTerm (x : Tree Mark) (keyword : String) (before : Option Quantity) :
    argument? (x.callTerm keyword before) = some (match x.isLeaf, x.top.value.bind Quantity.value? with
      | true, some n => Argument.numeric n
      | _, _ => Argument.symbolic x.outline) := by
  unfold Tree.callTerm
  cases TrigFunction.ofName? keyword <;> rfl

theorem leaf_current {t : Tree NodeId} (spans : e.Spans t) (sound : (e.view t).Sound) {id : NodeId}
    (member : id ∈ t.flatten) (isLeaf : (e.node id).isLeaf) :
    e.Spans (.leaf id) ∧ (e.node id).label.Current := by
  induction t with
  | leaf id' =>
    obtain rfl := List.mem_singleton.mp member
    exact ⟨spans, sound.2⟩
  | group id' inner ih =>
    rcases List.mem_cons.mp member with rfl | member
    · have inner : (e.node id).isLeaf = false := spans.links.isLeaf_eq
      simp [inner] at isLeaf
    · exact ih spans.group sound.2.2.2 member
  | fork id' left right ihl ihr =>
    rcases List.mem_cons.mp member with rfl | member
    · have inner : (e.node id).isLeaf = false := spans.links.isLeaf_eq
      simp [inner] at isLeaf
    · rcases List.mem_append.mp member with member | member
      · exact ihl spans.left sound.2.2.1 member
      · exact ihr spans.right sound.2.2.2 member

/-- The term of a call on a leaf describes the leaf. -/
theorem describes_leaf {id : NodeId}
    (spans : e.Spans (.leaf id)) (current : (e.node id).label.Current) {keyword : String}
    (called : termKeyword? (e.node id) = some keyword) :
    ∃ a, (e.node id).value.bind argument? = some a ∧ Describes e id a := by
  obtain ⟨b, q, before, label⟩ := current keyword called
  have value : (e.node id).value = some ((Tree.leaf (b.collapse q)).callTerm keyword before) :=
    congrArg Label.value label
  have token : (e.node id).token = Content.token q := congrArg Label.token label
  have isLeaf : (e.node id).isLeaf = true := spans.links.isLeaf_eq
  have copy : e.extract id = (Tree.leaf (b.collapse q)).outline := by
    have extracted := extract_eq spans
    rw [view_leaf, label] at extracted
    exact extracted
  have stands : (Tree.leaf (b.collapse q)).top.value = some q := rfl
  have argument := argument_callTerm (Tree.leaf (b.collapse q)) keyword before
  rw [stands, Option.bind_some] at argument
  rw [value, Option.bind_some, argument]
  cases number : q.value? with
  | some n => exact ⟨.numeric n, rfl, isLeaf, q, number, token⟩
  | none =>
    refine ⟨.symbolic (Tree.leaf (b.collapse q)).outline, rfl, ?_⟩
    have root : (Tree.leaf (b.collapse q)).outline.root = 0 := rfl
    have shape := sameShape_self (Tree.spans_outline_leaf (b.collapse q))
    rw [Tree.top_leaf] at shape
    rw [Describes, copy, root]
    exact shape

/-- Preparation gives a call above operands the expression that stands there. -/
theorem attached_inner {p : Mark → Prop} {t : Tree NodeId}
    (spans : e.Spans t) (raw : (e.view t).Raw p) (attached : f.view t = (e.view t).attachQuantities)
    {id : NodeId} (member : id ∈ t.flatten) (inner : (e.node id).isLeaf = false) {keyword : String}
    (called : termKeyword? (f.node id) = some keyword) :
    (f.node id).value.bind argument? = some (.symbolic (e.extract id)) := by
  have here {s : Tree NodeId} (spans : e.Spans s) (inner : s.isLeaf = false)
      (none : (e.node s.top).value = none) (label : (f.node s.top).label = (e.view s).attachCall)
      (called : termKeyword? (f.node s.top) = some keyword) :
      (f.node s.top).value.bind argument? = some (.symbolic (e.extract s.top)) := by
    have top : (e.view s).top.value = Option.none := by simpa [Expression.view, Node.label] using none
    have isLeaf : (e.view s).isLeaf = false := by simpa [Expression.view] using inner
    have value : (f.node s.top).value = some ((e.view s).callTerm keyword Option.none) :=
      (congrArg Label.value label).trans (Tree.attachCall_term top (label ▸ called))
    rw [value, Option.bind_some, argument_callTerm, extract_eq spans, isLeaf]
  induction t with
  | leaf id' =>
    obtain rfl := List.mem_singleton.mp member
    have isLeaf : (e.node id).isLeaf = true := spans.links.isLeaf_eq
    simp [isLeaf] at inner
  | group id' below ih =>
    obtain ⟨label, rest⟩ := Tree.group.inj attached
    rcases List.mem_cons.mp member with rfl | member
    · exact here spans rfl raw.1.1 label called
    · exact ih spans.group raw.2.2 rest member
  | fork id' left right ihl ihr =>
    obtain ⟨label, first, second⟩ := Tree.fork.inj attached
    rcases List.mem_cons.mp member with rfl | member
    · exact here spans rfl raw.1.1 label called
    · rcases List.mem_append.mp member with member | member
      · exact ihl spans.left raw.2.1 first member
      · exact ihr spans.right raw.2.2 second member

/-- The argument of the term of a call describes the leaf that it is on. Above operands it is the
expression that stood there when the formula was prepared, so it describes the operands as long as they
have kept that shape. -/
theorem call_argument {text : String}
    (parsed : Expression.ofText text = .ok e) (prepared : prepare e = (f, .ok ()))
    (passes : Passes f g) {id : NodeId} (reached : g.Reaches g.root id) {keyword : String}
    (called : termKeyword? (g.node id) = some keyword) :
    ∃ a, (g.node id).value.bind argument? = some a ∧
      if (g.node id).isLeaf then Describes g id a else a = .symbolic (snapshot e id) := by
  obtain ⟨t, recognized⟩ := recognized_of_parsed parsed prepared
  obtain ⟨u, stands⟩ :=
    passes.stands recognized.spans' recognized.root (recognized.attached ▸ recognized.raw.sound)
  have member := (reaches_iff stands.spans.links).mp (stands.root ▸ reached)
  cases isLeaf : (g.node id).isLeaf with
  | true =>
    obtain ⟨spans, current⟩ := leaf_current stands.spans stands.sound member isLeaf
    exact describes_leaf spans current called
  | false =>
    have hasCall : (g.node id).call.isSome := by
      unfold termKeyword? at called
      split at called
      · next call => simp [call]
      · cases called
    obtain ⟨inner, call, value⟩ := passes.inherits.kept id isLeaf hasCall
    have old : id ∈ t.flatten := by
      refine (stands.known id member).resolve_right fun new => ?_
      rw [isLeaf_beyond new] at inner
      cases inner
    have called' : termKeyword? (f.node id) = some keyword := by rwa [termKeyword?, ← call]
    have inner' :
        ((recognizePolynomials (foldFactorials (e.preorder e.root) e).1).node id).isLeaf = false := by
      rwa [Node.isLeaf, ← (recognized.links id).1, ← (recognized.links id).2]
    exact ⟨_, value ▸ attached_inner recognized.spans recognized.raw recognized.attached old inner'
      called', rfl⟩

/-- A text whose evaluation ends with a formula that passes a test. -/
theorem passes_last (text : String) (p : Formula → Bool)
    (tested : (Expression.ofText text).toOption.any fun e => (prepare e).2.isOk && p (trace e).1.formula) :
    ∃ e f, Expression.ofText text = .ok e ∧ prepare e = (f, .ok ()) ∧ Passes f (trace e).1.formula ∧
      p (trace e).1.formula := by
  cases parsed : (Expression.ofText text : Except GrammarError Formula) with
  | error error => simp [parsed, Except.toOption] at tested
  | ok e =>
    simp only [parsed, Except.toOption, Option.any_some, Bool.and_eq_true] at tested
    cases prepared : prepare e with
    | mk f ended =>
      cases ended with
      | error error => simp [prepared, Except.isOk, Except.toBool] at tested
      | ok done =>
        cases done
        obtain ⟨t, spans, root, sound⟩ := stands_of_parsed parsed prepared
        exact ⟨e, f, rfl, prepared, (trace_passes prepared spans root sound).1, tested.2⟩

/-- An argument that is put off keeps its snapshot. -/
theorem call_argument_deferred : ∃ (e f g : Formula) (id : NodeId) (keyword : String),
    Expression.ofText "sin(x+(1+1)*y)" = .ok e ∧ prepare e = (f, .ok ()) ∧ Passes f g ∧ g.Reaches g.root id ∧
      termKeyword? (g.node id) = some keyword ∧ ∃ a, (g.node id).value.bind argument? = some a ∧
        if (g.node id).isLeaf then Describes g id a else a = .symbolic (snapshot e id) := by
  obtain ⟨e, f, parsed, prepared, passes, called⟩ := passes_last "sin(x+(1+1)*y)"
    (fun g => (termKeyword? (g.node g.root)).isSome) (by decide +kernel)
  obtain ⟨keyword, called⟩ := Option.isSome_iff_exists.mp called
  exact ⟨e, f, _, _, keyword, parsed, prepared, passes, .here _, called,
    call_argument parsed prepared passes (.here _) called⟩

def isStale (e : Formula) (id : NodeId) : Bool :=
  match (e.node id).value.bind argument? with
  | some (.symbolic o) => !(e.extract id).sameShape (e.extract id).root o o.root
  | _ => false

/-- The sum in the argument is put off after its second operand has been reduced, and the term of the
sine still stands around the operand as it was. -/
theorem stale_argument : ∃ (e f g : Formula) (id : NodeId) (keyword : String) (a : Argument),
    Expression.ofText "sin(x+(1+1)*y)" = .ok e ∧ prepare e = (f, .ok ()) ∧ Passes f g ∧ g.Reaches g.root id ∧
      termKeyword? (g.node id) = some keyword ∧ (g.node id).isSettled ∧
      (g.node id).value.bind argument? = some a ∧ ¬ Describes g id a := by
  obtain ⟨e, f, parsed, prepared, passes, found⟩ := passes_last "sin(x+(1+1)*y)"
    (fun g => (termKeyword? (g.node g.root)).isSome && (g.node g.root).isSettled &&
    isStale g g.root) (by decide +kernel)
  simp only [Bool.and_eq_true] at found
  obtain ⟨⟨called, settled⟩, stale⟩ := found
  obtain ⟨keyword, called⟩ := Option.isSome_iff_exists.mp called
  unfold isStale at stale
  split at stale
  · next o argument =>
    exact ⟨e, f, _, _, keyword, _, parsed, prepared, passes, .here _, called, settled, argument,
      by simpa [Describes] using stale⟩
  · cases stale

end Formula

end Stepwise
