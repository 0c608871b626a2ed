import Stepwise.Proofs.Decimal.Numeral
import Stepwise.Proofs.Reduction.Termination
import Stepwise.Proofs.Tree.Grammatical

/-! What holds of the node array at every moment of an evaluation. Main statement: from the end of
preparation on, the root reaches a finite tree whose leaves have values and whose reduced nodes are leaves
and equations, nothing is pending below the node that is reduced next, and nothing at all is pending when
the evaluation has ended well. -/
namespace Stepwise

namespace Label

def Numbered (a : Mark) : Prop :=
  (∃ (b : Mark) (q : Quantity), Formula.isTerm q = false ∧ a = b.collapse q) ∨
    a.value = none ∧ a.token.kind = .number ∧ (Decimal.read? a.token.text).isSome

def Lettered (a : Mark) : Prop := a.token.kind = .letter ∧ a.token.text.toList.head?.isSome

def Written (a : Mark) : Prop := a.Numbered ∨ a.Lettered ∨ a.token.kind = .factorial

/-- The term of a call on a leaf stands around the value that the leaf was given before. -/
def Current (a : Mark) : Prop :=
  ∀ keyword, a.termKeyword? = some keyword →
    ∃ (b : Mark) (q : Quantity) (before : Option Quantity),
    a = { b.collapse q with value := some ((Tree.leaf (b.collapse q)).callTerm keyword before) }

theorem current_of_no_term {a : Mark} (none : a.termKeyword? = none) : a.Current := fun keyword some => by
  simp [none] at some

end Label

namespace Tree

def Raw (p : Mark → Prop) : Tree Mark → Prop
  | leaf a => p a
  | group a inner => (a.value = none ∧ a.isSettled = false) ∧ a.token.kind = .opening ∧ inner.Raw p
  | fork a left right => (a.value = none ∧ a.isSettled = false) ∧ left.Raw p ∧ right.Raw p

theorem Raw.mapTop {p : Mark → Prop} {x : Tree Mark} (raw : x.Raw p)
    {f : Mark → Mark} (here : ∀ a, p a → p (f a)) (token : ∀ a, (f a).token = a.token)
    (value : ∀ a, (f a).value = a.value) (settled : ∀ a, (f a).isSettled = a.isSettled) :
    (x.mapTop f).Raw p := by
  cases x with
  | leaf a => exact here a raw
  | group a inner =>
    exact ⟨⟨(value a).trans raw.1.1, (settled a).trans raw.1.2⟩, (token a).symm ▸ raw.2.1, raw.2.2⟩
  | fork a left right => exact ⟨⟨(value a).trans raw.1.1, (settled a).trans raw.1.2⟩, raw.2⟩

theorem numbered_numeral {token : Token} {digits : List Char}
    (kind : token.kind = .number) (numeral : Token.IsNumeral digits)
    (spelled : token.text.toList = digits ∨ token.text.toList = '-' :: digits) :
    Label.Numbered { token } := .inr ⟨rfl, kind, Decimal.read_numeral numeral spelled⟩

theorem Written.called {a : Mark} (written : a.Written) (call : Option Token) :
    Label.Written { a with call } := by
  rcases written with (⟨b, q, other, rfl⟩ | number) | other
  · exact .inl (.inl ⟨{ b with call }, q, other, rfl⟩)
  · exact .inl (.inr number)
  · exact .inr other

theorem Grammatical.raw {x : Tree Mark} (grammatical : x.Grammatical) : x.Raw Label.Written := by
  induction grammatical with
  | @number token kind spelled =>
    have numeral : Token.IsNumeral token.text.toList := by simpa [Token.Spelled, kind] using spelled
    exact .inl (numbered_numeral kind numeral (.inl rfl))
  | negative numeral position => exact .inl (numbered_numeral rfl numeral (.inr (by simp)))
  | factorial kind _ _ => exact .inr (.inr kind)
  | @power letter _ _ isLetter named _ _ _ ih =>
    obtain ⟨c, _, _, text⟩ : ∃ c, 'a' ≤ c ∧ c ≤ 'z' ∧ letter.text.toList = [c] := by
      simpa [Token.Spelled, isLetter] using named
    exact ⟨⟨rfl, rfl⟩, .inr (.inl ⟨isLetter, by simp [text]⟩), ih⟩
  | sign _ _ _ ih =>
    have zero : Token.IsNumeral "0".toList := .whole (by simp) (by simp)
    exact ⟨⟨rfl, rfl⟩, .inl (numbered_numeral rfl zero (.inl rfl)), ih⟩
  | operator _ _ _ _ _ ihl ihr => exact ⟨⟨rfl, rfl⟩, ihl, ihr⟩
  | @call keyword x mark _ _ ih =>
    cases call : x.top.call with
    | none =>
      rw [applyCall_unmarked mark call]
      exact ih.mapTop (fun _ here => Written.called here _) (fun _ => rfl) (fun _ => rfl) fun _ => rfl
    | some _ =>
      rw [applyCall_marked mark (by simp [call])]
      exact ⟨⟨rfl, rfl⟩, rfl, ih⟩

theorem Raw.foldFactorials {p q : Mark → Prop} {x : Tree Mark} (raw : x.Raw p)
    (folded : x.foldFactorials.2 = .ok ()) (number : ∀ (a : Mark) v, q (a.collapse (.constant v)))
    (other : ∀ a, p a → a.token.kind ≠ .factorial → q a) :
    x.foldFactorials.1.Raw q := by
  induction x with
  | leaf a =>
    simp only [Tree.foldFactorials] at folded ⊢
    split at folded
    · next kind =>
      rw [if_pos kind]
      split at folded
      · exact number a _
      · simp at folded
    · next kind =>
      rw [if_neg kind]
      exact other a raw kind
  | group a inner ih => exact ⟨raw.1, raw.2.1, ih raw.2.2 folded⟩
  | fork a left right ihl ihr =>
    simp only [Tree.foldFactorials] at folded ⊢
    cases first : left.foldFactorials with
    | mk y ended =>
      rw [first] at folded ihl
      cases ended with
      | error error => simp at folded
      | ok done => exact ⟨raw.1, ihl raw.2.1 rfl, ihr raw.2.2 folded⟩

theorem recognized_not_term {x : Tree Mark} {v : Quantity} (found : x.recognized? = some v) :
    Formula.isTerm v = false := by
  have monomial : ∀ v, x.monomial? = some v → Formula.isTerm v = false := by
    intro v found
    unfold monomial? at found
    split at found
    · split at found
      · cases found
      · obtain ⟨coefficient, _, found⟩ := Option.bind_eq_some_iff.mp found
        split at found
        · cases found
        · obtain ⟨letter, _, found⟩ := Option.bind_eq_some_iff.mp found
          obtain ⟨power, _, rfl⟩ := Option.map_eq_some_iff.mp found
          unfold Quantity.normalized
          split <;> rfl
    · cases found
  unfold recognized? at found
  split at found
  · next term same => exact monomial v (same.trans found)
  · split at found
    · obtain ⟨letter, _, rfl⟩ := Option.map_eq_some_iff.mp found
      rfl
    · cases found

theorem Raw.recognize {p q : Mark → Prop} {x : Tree Mark} (raw : x.Raw p)
    (term : ∀ (a : Mark) v, Formula.isTerm v = false → q (a.collapse v))
    (other : ∀ a, p a → (leaf a).recognized? = none → q a) : x.recognize.Raw q := by
  induction x with
  | leaf a =>
    simp only [Tree.recognize]
    split
    · next found => exact term a _ (recognized_not_term found)
    · next found => exact other a raw found
  | group a inner ih => exact ⟨raw.1, raw.2.1, ih raw.2.2⟩
  | fork a left right ihl ihr =>
    simp only [Tree.recognize]
    split
    · next found => exact term a _ (recognized_not_term found)
    · exact ⟨raw.1, ihl raw.2.1, ihr raw.2.2⟩

/-- Leaves have values, and calls on leaves stand around them, a group is never reduced and an
operator only as an equation, and below a settled node nothing is pending. -/
def Sound : Tree Mark → Prop
  | leaf a => a.value.isSome ∧ a.Current
  | group a inner => a.token.kind = .opening ∧ a.reduced = false ∧ (a.isSettled → inner.Idle) ∧ inner.Sound
  | fork a left right =>
    (a.reduced → a.token.kind = .equals) ∧ (a.isSettled → left.Idle ∧ right.Idle) ∧ left.Sound ∧ right.Sound

theorem attachNumber_collapsed {a : Mark} (numbered : a.Numbered) :
    ∃ (b : Mark) (q : Quantity), Formula.isTerm q = false ∧ a.attachNumber = b.collapse q := by
  rcases numbered with ⟨b, q, other, rfl⟩ | ⟨value, kind, read⟩
  · exact ⟨b, q, other, by simp [Label.attachNumber, Label.collapse]⟩
  · obtain ⟨x, same⟩ := Option.isSome_iff_exists.mp read
    exact ⟨a, .constant x, rfl, by simp [Label.attachNumber, value, kind, same]⟩

theorem attachCall_current {b : Mark} {q : Quantity} (other : Formula.isTerm q = false) :
    (leaf (b.collapse q)).attachCall.value.isSome ∧ (leaf (b.collapse q)).attachCall.Current := by
  have value : (b.collapse q).value = some q := rfl
  unfold attachCall
  simp only [top_leaf]
  cases term : (b.collapse q).termKeyword? with
  | some keyword =>
    simp only [value, Option.any_some, other, Bool.false_eq_true, if_false]
    refine ⟨rfl, fun keyword' same => ?_⟩
    have same : (b.collapse q).termKeyword? = some keyword' := same
    obtain rfl := Option.some.inj (term.symm.trans same)
    exact ⟨b, q, none, rfl⟩
  | none =>
    by_cases derivative : (b.collapse q).isDerivative
    · simp only [derivative, if_true]
      exact ⟨rfl, Label.current_of_no_term term⟩
    · simp only [derivative]
      exact ⟨rfl, Label.current_of_no_term term⟩

/-- A call settles leaves only. -/
theorem settled_attachCall {x : Tree Mark} (inner : x.isLeaf = false) (unsettled : x.top.isSettled = false) :
    x.attachCall.isSettled = false := by
  obtain ⟨_, deferred⟩ := Bool.or_eq_false_iff.mp unsettled
  unfold attachCall
  split
  · split
    · exact unsettled
    · simp [Label.isSettled, inner, deferred]
  · split
    · simp [Label.isSettled, deferred]
    · exact unsettled

theorem Raw.sound {x : Tree Mark} (raw : x.Raw Label.Numbered) : x.attachQuantities.Sound := by
  induction x with
  | leaf a =>
    obtain ⟨b, q, other, collapsed⟩ := attachNumber_collapsed raw
    rw [Tree.attachQuantities, collapsed]
    exact attachCall_current other
  | group a inner ih =>
    obtain ⟨token, _⟩ := attachCall_top (group a inner)
    have settled := settled_attachCall (x := group a inner) rfl raw.1.2
    exact ⟨token ▸ raw.2.1, (Bool.or_eq_false_iff.mp settled).1,
      fun here => by simp [settled] at here, ih raw.2.2⟩
  | fork a left right ihl ihr =>
    have settled := settled_attachCall (x := fork a left right) rfl raw.1.2
    exact ⟨fun reduced => by simp [(Bool.or_eq_false_iff.mp settled).1] at reduced,
      fun here => by simp [settled] at here, ihl raw.2.1, ihr raw.2.2⟩

theorem Raw.recognized {x z : Tree Mark} (raw : x.Raw Label.Written)
    (folded : x.foldFactorials = (z, .ok ())) :
    z.recognize.Raw Label.Numbered := by
  have kept : z.Raw fun a => a.Numbered ∨ a.Lettered := by
    have raw := raw.foldFactorials (congrArg Prod.snd folded) (q := fun a => a.Numbered ∨ a.Lettered)
      (fun a v => .inl (.inl ⟨a, _, rfl, rfl⟩)) fun a written kind => written.imp_right fun h =>
      h.resolve_right kind
    rwa [folded] at raw
  refine kept.recognize (fun a v other => .inl ⟨a, v, other, rfl⟩) fun a written unknown => ?_
  refine written.resolve_right fun letter => ?_
  obtain ⟨c, head⟩ := Option.isSome_iff_exists.mp letter.2
  simp [recognized?, monomial?, isLeaf, letter.1, head] at unknown

namespace Sound

theorem value (q : Quantity) : (value q).Sound := ⟨rfl, Label.current_of_no_term rfl⟩

theorem operator {kind : Token.Kind} {text : String} {left right : Tree Mark} (l : left.Sound)
    (r : right.Sound) :
    (fork { token := .inserted kind text } left right).Sound :=
  ⟨fun reduced => by simp at reduced, fun settled => by simp [Label.isSettled] at settled, l, r⟩

theorem settled (a : Mark) (q : Quantity) : (settled a q).Sound := by
  unfold Tree.settled
  cases term : a.termKeyword? with
  | some keyword =>
    refine ⟨rfl, fun keyword' same => ?_⟩
    have same : a.termKeyword? = some keyword' := same
    obtain rfl := Option.some.inj (term.symm.trans same)
    exact ⟨a, q, a.value, rfl⟩
  | none =>
    simp only
    split
    · exact ⟨rfl, Label.current_of_no_term term⟩
    · exact ⟨rfl, Label.current_of_no_term term⟩

theorem defer {x : Tree Mark} (sound : x.Sound) (rested : x.Rested) (pending : x.isPending) :
    x.defer.Sound := by
  cases x with
  | leaf a =>
    have derivative : a.isDerivative := by
      simp only [isPending, isLeaf, Bool.not_true, Bool.false_or, Bool.and_eq_true] at pending
      exact pending.2
    have other : a.termKeyword? = none := by
      refine Option.not_isSome_iff_eq_none.mp fun term => ?_
      simp [Label.isDerivative_of_term term] at derivative
    exact ⟨sound.1, Label.current_of_no_term other⟩
  | group a inner => exact ⟨sound.1, sound.2.1, fun _ => rested, sound.2.2.2⟩
  | fork a left right => exact ⟨sound.1, fun _ => rested, sound.2.2⟩

theorem differentiate {x : Tree Mark} (sound : x.Sound) (rested : x.Rested) (pending : x.isPending) :
    x.differentiate.Sound := by
  unfold Tree.differentiate
  split
  · exact ⟨rfl, Label.current_of_no_term rfl⟩
  · exact sound.defer rested pending

theorem isolate {x : Tree Mark} (sound : x.Sound) (rested : x.Rested) (pending : x.isPending)
    (equation : x.top.token.kind = .equals) (inner : x.isLeaf = false) : x.isolate.Sound := by
  cases x with
  | leaf a => simp [isLeaf] at inner
  | group a inner =>
    rw [top_group, sound.1] at equation
    simp at equation
  | fork a left right =>
    have unsettled : a.isSettled = false := by
      simpa [isPending, isLeaf] using pending
    obtain ⟨_, _, l, r⟩ := sound
    rcases isolate_cases Sound.value (fun _ _ _ _ _ => Sound.operator) l
      r with isolated | ⟨first, second, l', r', moved⟩
    · rw [isolated a]
      exact ⟨fun _ => equation, fun _ => rested, l, r⟩
    · rw [moved a]
      exact ⟨fun _ => equation, fun settled => by simp [unsettled] at settled, l', r'⟩

theorem reduceTop {x y : Tree Mark} (sound : x.Sound) (rested : x.Rested) (pending : x.isPending)
    (reduced : x.reduceTop = .ok y) : y.Sound := by
  unfold Tree.reduceTop at reduced
  split at reduced
  · obtain rfl := Except.ok.inj reduced
    exact sound.differentiate rested pending
  · next inner =>
    split at reduced
    · next equation =>
      obtain rfl := Except.ok.inj reduced
      exact sound.isolate rested pending equation (by simpa using inner)
    · split at reduced
      · obtain rfl := Except.ok.inj reduced
        exact Sound.settled _ _
      · obtain rfl := Except.ok.inj reduced
        exact sound.defer rested pending
      · simp at reduced

/-- A step keeps a tree sound: below a settled node there is none. -/
theorem step {x y : Tree Mark} (sound : x.Sound) (stepped : x.step? = some (.ok y)) : y.Sound := by
  induction x generalizing y with
  | leaf a =>
    obtain ⟨pending, reduced⟩ := step_leaf_cases stepped
    exact sound.reduceTop trivial pending reduced.symm
  | group a inner ih =>
    rcases step_group_cases stepped with ⟨r, here, result⟩ | ⟨idle, pending, reduced⟩
    · obtain ⟨z, rfl, rfl⟩ := of_map_ok result.symm
      refine ⟨sound.1, sound.2.1, fun settled => ?_, ih sound.2.2.2 here⟩
      simp [(step_none_iff inner).mpr (sound.2.2.1 settled)] at here
    · exact sound.reduceTop idle pending reduced.symm
  | fork a left right ihl ihr =>
    have ⟨reduced, rest, l, r⟩ := sound
    rcases step_fork_cases
      stepped with ⟨r', here, result⟩ | ⟨r', here, result⟩ | ⟨first, second, pending, outcome⟩
    · obtain ⟨z, rfl, rfl⟩ := of_map_ok result.symm
      refine ⟨reduced, fun settled => ?_, ihl l here, r⟩
      simp [(step_none_iff left).mpr (rest settled).1] at here
    · obtain ⟨z, rfl, rfl⟩ := of_map_ok result.symm
      refine ⟨reduced, fun settled => ?_, l, ihr r here⟩
      simp [(step_none_iff right).mpr (rest settled).2] at here
    · exact sound.reduceTop ⟨first, second⟩ pending outcome.symm

/-- When the root is not pending, nothing is. -/
theorem idle {x : Tree Mark} (sound : x.Sound) (settled : x.isPending = false) : x.Idle := by
  cases x with
  | leaf a => exact idle_leaf.mpr settled
  | group a inner =>
    have here : a.isSettled := by simpa [isPending, isLeaf] using settled
    exact idle_group.mpr ⟨sound.2.2.1 here, settled⟩
  | fork a left right =>
    have here : a.isSettled := by simpa [isPending, isLeaf] using settled
    exact idle_fork.mpr ⟨(sound.2.1 here).1, (sound.2.1 here).2, settled⟩

end Sound

end Tree

namespace Expression

variable {ν : Type}

/-- A tree of ids holds what its root reaches. -/
theorem reaches_iff {e : Expression ν} {t : Tree NodeId} (links : e.Links t) {found : NodeId} :
    e.Reaches t.top found ↔ found ∈ t.flatten := by
  rw [(joins_binary.mpr links).reaches_iff t.root_binary, Tree.preorder_binary]

end Expression

namespace Formula

open Expression

variable {e f g : Formula}

/-- The formulas at which an evaluation stands once the first one is prepared: after every reduction of
its loop, and after a term at the root has been replaced. -/
inductive Passes (e : Formula) : Formula → Prop
  | prepared : Passes e e
  | reduced {f g : Formula} {id : NodeId} (earlier : Passes e f) (pending : isPending (f.node f.root))
      (found : deepestPending f = some id) (reduced : reduce f id = .ok g) : Passes e g
  | simplified {f g : Formula} (earlier : Passes e f) (settled : isPending (f.node f.root) = false)
      (simplified : simplifyRoot f = .ok g) : Passes e g

/-- A leaf has a value, any other node has two operands or is a bracket with one, and only leaves and
equations are reduced. -/
structure NodeIntact (node : Node Quantity) : Prop where
  leaf : node.isLeaf → node.value.isSome
  inner : node.isLeaf = false →
    (node.left.isSome ∧ node.right.isSome) ∨
    (node.token.kind = .opening ∧ node.left.isSome ∧ node.right = none)
  reduced : node.reduced → node.isLeaf ∨ node.token.kind = .equals

/-- The nodes that the root reaches hang together as a finite tree of ids that lie in the array and are
not shared, each node is as it should be, and nothing is pending below the node to be reduced next. -/
structure Intact (e : Formula) : Prop where
  tree : ∃ t, e.Spans t ∧ t.top = e.root ∧ ∀ id, e.Reaches e.root id ↔ id ∈ t.flatten
  nodes : ∀ id, e.Reaches e.root id → NodeIntact (e.node id)
  next : ∀ id, deepestPending e = some id → e.Reaches e.root id ∧ isPending (e.node id) ∧
    ∀ other, e.Reaches id other → other ≠ id → isPending (e.node other) = false

theorem isPending_of_idle {t : Tree NodeId} (links : e.Links t) (idle : (e.view t).Idle) {id : NodeId}
    (member : id ∈ t.flatten) : isPending (e.node id) = false := by
  induction t with
  | leaf id' =>
    obtain rfl := List.mem_singleton.mp member
    exact (isPending_view links).symm.trans (Tree.idle_leaf.mp idle)
  | group id' inner ih =>
    obtain ⟨below, here⟩ := Tree.idle_group.mp idle
    rcases List.mem_cons.mp member with rfl | member
    · exact (isPending_view links).symm.trans here
    · exact ih links.2.2 below member
  | fork id' left right ihl ihr =>
    obtain ⟨l, r, here⟩ := Tree.idle_fork.mp idle
    rcases List.mem_cons.mp member with rfl | member
    · exact (isPending_view links).symm.trans here
    · rcases List.mem_append.mp member with member | member
      · exact ihl links.2.2.1 l member
      · exact ihr links.2.2.2 r member

theorem nodeIntact {t : Tree NodeId} (links : e.Links t) (sound : (e.view t).Sound) {id : NodeId}
    (member : id ∈ t.flatten) : NodeIntact (e.node id) := by
  induction t with
  | leaf id' =>
    obtain rfl := List.mem_singleton.mp member
    have isLeaf : (e.node id).isLeaf = true := links.isLeaf_eq
    exact ⟨fun _ => sound.1, fun inner => by simp [isLeaf] at inner, fun _ => .inl isLeaf⟩
  | group id' inner ih =>
    rcases List.mem_cons.mp member with rfl | member
    · have isLeaf : (e.node id).isLeaf = false := links.isLeaf_eq
      refine ⟨fun leaf => by simp [isLeaf] at leaf,
        fun _ => .inr ⟨sound.1, by simp [links.1], links.2.1⟩, fun reduced => ?_⟩
      exact absurd (sound.2.1.symm.trans reduced) (by simp)
    · exact ih links.2.2 sound.2.2.2 member
  | fork id' left right ihl ihr =>
    rcases List.mem_cons.mp member with rfl | member
    · have isLeaf : (e.node id).isLeaf = false := links.isLeaf_eq
      exact ⟨fun leaf => by simp [isLeaf] at leaf, fun _ => .inl ⟨by simp [links.1], by simp [links.2.1]⟩,
        fun reduced => .inr (sound.1 reduced)⟩
    · rcases List.mem_append.mp member with member | member
      · exact ihl links.2.2.1 sound.2.2.1 member
      · exact ihr links.2.2.2 sound.2.2.2 member

theorem finding_none {t : Tree NodeId} : finding e t = none ↔ (e.view t).Idle := by
  rw [Tree.Idle, ← finding_depth, Option.map_eq_none_iff]

def Ready (e : Formula) (t : Tree NodeId) (id : NodeId) : Prop :=
  ∃ s : Tree NodeId, s.top = id ∧ e.Links s ∧ s.flatten ⊆ t.flatten ∧ (e.view s).isPending ∧ (e.view s).Rested

theorem Ready.mono {t u : Tree NodeId} {id : NodeId} (ready : Ready e t id) (inside : t.flatten ⊆ u.flatten) :
    Ready e u id := by
  obtain ⟨s, top, links, subset, rest⟩ := ready
  exact ⟨s, top, links, fun _ member => inside (subset member), rest⟩

theorem own_ready {t : Tree NodeId} (links : e.Links t) (rested : (e.view t).Rested) {hit : NodeId × Nat}
    (found : own? e t = some hit) : Ready e t hit.1 := by
  unfold own? at found
  split at found
  · next pending =>
    obtain rfl := Option.some.inj found
    exact ⟨t, rfl, links, List.Subset.refl _, pending, rested⟩
  · cases found

/-- What the search finds is ready to be reduced. -/
theorem finding_ready {t : Tree NodeId} (links : e.Links t) {hit : NodeId × Nat}
    (found : finding e t = some hit) :
    Ready e t hit.1 := by
  have below {hit found : NodeId × Nat} (same : below 1 found = hit) : found.1 = hit.1 := same ▸ rfl
  induction t generalizing hit with
  | leaf id => exact own_ready links trivial found
  | group id inner ih =>
    have inside : inner.flatten ⊆ (Tree.group id inner).flatten :=
      fun _ member => List.mem_cons_of_mem _ member
    rw [finding] at found
    cases here : finding e inner with
    | none =>
      rw [here] at found
      exact own_ready links (finding_none.mp here) found
    | some deeper =>
      rw [here] at found
      exact below (Option.some.inj found) ▸ (ih links.2.2 here).mono inside
  | fork id left right ihl ihr =>
    have insidel : left.flatten ⊆ (Tree.fork id left right).flatten := fun _ member =>
      List.mem_cons_of_mem _ (List.mem_append_left _ member)
    have insider : right.flatten ⊆ (Tree.fork id left right).flatten := fun _ member =>
      List.mem_cons_of_mem _ (List.mem_append_right _ member)
    rw [finding] at found
    split at found
    · obtain ⟨deeper, here, same⟩ := Option.map_eq_some_iff.mp found
      exact below same ▸ (ihl links.2.2.1 here).mono insidel
    · next first =>
      cases here : finding e right with
      | none =>
        rw [here] at found
        have idle := finding_none.mp here
        exact own_ready links ⟨Tree.idle_of_not_deeper first idle, idle⟩ found
      | some deeper =>
        rw [here] at found
        exact below (Option.some.inj found) ▸ (ihr links.2.2.2 here).mono insider

structure Stands (e : Formula) (t : Tree NodeId) (f : Formula) (u : Tree NodeId) : Prop where
  spans : f.Spans u
  root : u.top = f.root
  sound : (f.view u).Sound
  grown : e.size ≤ f.size
  known : ∀ id ∈ u.flatten, id ∈ t.flatten ∨ e.size ≤ id

/-- A formula is intact while its tree is sound. -/
theorem Stands.intact {t u : Tree NodeId} (stands : Stands e t f u) : Intact f := by
  obtain ⟨spans, root, sound, _, _⟩ := stands
  have reaches {id : NodeId} : f.Reaches f.root id ↔ id ∈ u.flatten := root ▸ reaches_iff spans.links
  refine ⟨⟨u, spans, root, fun _ => reaches⟩, fun id reached =>
    nodeIntact spans.links sound (reaches.mp reached), fun id found => ?_⟩
  rw [deepestPending_eq spans root] at found
  obtain ⟨hit, here, rfl⟩ := Option.map_eq_some_iff.mp found
  obtain ⟨s, top, links, inside, pending, rested⟩ := finding_ready spans.links here
  rw [← top]
  refine ⟨reaches.mpr (inside s.top_mem), (isPending_view links).symm.trans pending,
    fun other reached apart => ?_⟩
  have member := (reaches_iff links).mp reached
  cases s with
  | leaf id => exact absurd (List.mem_singleton.mp member) apart
  | group id inner => exact isPending_of_idle links.2.2 rested ((List.mem_cons.mp member).resolve_left apart)
  | fork id left right =>
    rcases List.mem_append.mp ((List.mem_cons.mp member).resolve_left apart) with member | member
    · exact isPending_of_idle links.2.2.1 rested.1 member
    · exact isPending_of_idle links.2.2.2 rested.2 member

theorem Stands.replaced {t u : Tree NodeId} {y : Tree Mark} (stands : Stands e t f u)
    (replaces : Replaces f u g y) (sound : y.Sound) : ∃ v, Stands e t g v := by
  obtain ⟨v, top, regrown, rfl, root⟩ := replaces
  refine ⟨v, regrown.spans, top.trans (stands.root.trans root.symm), sound,
    Nat.le_trans stands.grown regrown.grown, fun id member => ?_⟩
  rcases regrown.known id member with old | new
  · exact stands.known id old
  · exact .inr (Nat.le_trans stands.grown new)

/-- The formulas that an evaluation passes have sound trees. -/
theorem Passes.stands {t : Tree NodeId} (spans : e.Spans t) (root : t.top = e.root) (sound : (e.view t).Sound)
    (passes : Passes e f) : ∃ u, Stands e t f u := by
  induction passes with
  | prepared => exact ⟨t, spans, root, sound, Nat.le_refl _, fun _ member => .inl member⟩
  | @reduced f g id _ _ found reduced ih =>
    obtain ⟨u, stands⟩ := ih
    have alike := step_alike stands.spans
    rw [deepestPending_eq stands.spans stands.root, target?] at found
    obtain ⟨hit, here, rfl⟩ := Option.map_eq_some_iff.mp found
    rw [here] at alike
    obtain ⟨result, stepped, alike⟩ := alike
    cases result with
    | error error => simp [reduced, Alike] at alike
    | ok y => exact stands.replaced (by simpa [reduced, Alike] using alike) (stands.sound.step stepped)
  | @simplified f g _ _ simplified ih =>
    obtain ⟨u, stands⟩ := ih
    unfold simplifyRoot at simplified
    split at simplified
    · obtain ⟨constant, _, rfl⟩ := of_map_ok simplified
      rw [← stands.root]
      exact stands.replaced (uncall_replaces stands.spans constant) ⟨rfl, Label.current_of_no_term rfl⟩
    · exact Except.ok.inj simplified ▸ ⟨u, stands⟩

theorem Reductions.passes {n : Nat} {ended : Except ComputationError Unit} (earlier : Passes e f)
    (reductions : Reductions f n g ended) :
    Passes e g ∧ (ended = .ok () → isPending (g.node g.root) = false) := by
  induction reductions with
  | done settled => exact ⟨earlier, fun _ => settled⟩
  | fails pending found failed => exact ⟨earlier, fun ok => by cases ok⟩
  | goes pending found reduced rest ih => exact ih (.reduced earlier pending found reduced)

/-- A term that is replaced at the root leaves a root that is not pending. -/
theorem simplifyRoot_settled {t : Tree NodeId} (spans : e.Spans t) (root : t.top = e.root)
    (settled : isPending (e.node e.root) = false) (simplified : simplifyRoot e = .ok f) :
    isPending (f.node f.root) = false := by
  unfold simplifyRoot at simplified
  split at simplified
  · obtain ⟨constant, _, rfl⟩ := of_map_ok simplified
    have inside : e.root < e.size := root ▸ spans.inside _ t.top_mem
    simp [Expression.collapse, node_modify_self, inside, isPending, Node.isSettled]
  · exact Except.ok.inj simplified ▸ settled

/-- An evaluation stands at each of its formulas until it ends, and when it ends well its root is not
pending. -/
theorem trace_passes {t : Tree NodeId} (prepared : prepare e = (f, .ok ())) (spans : f.Spans t)
    (root : t.top = f.root) (sound : (f.view t).Sound) :
    Passes f (trace e).1.formula ∧
      ((trace e).2 = .ok () → isPending ((trace e).1.formula.node (trace e).1.formula.root) = false) := by
  have displays : f.Displays (f.view t) := ⟨t, spans, root, rfl⟩
  obtain ⟨n, g, ended, few, reductions⟩ := reductions_of_displays displays
  obtain ⟨same, outcome⟩ :=
    reductions.loop (Nat.le_trans few (effort_le_limit displays)) (t := .opening f) rfl
  obtain ⟨passes, settled⟩ := reductions.passes .prepared
  obtain ⟨u, stands⟩ := passes.stands spans root sound
  rw [trace, prepared]
  simp only
  generalize (Trace.opening f).reduceWhilePending (reductionLimit f) = reduced at same outcome ⊢
  obtain ⟨t, stop⟩ := reduced
  obtain rfl : t.formula = g := same
  obtain rfl : stop = ended := outcome
  cases stop with
  | error error => exact ⟨passes, fun ok => by cases ok⟩
  | ok done =>
    cases done
    simp only
    cases simplified : simplifyRoot t.formula with
    | error error => exact ⟨passes, fun ok => by cases ok⟩
    | ok h =>
      have later : Passes f h := .simplified passes (settled rfl) simplified
      have recorded : (t.record h).formula = h := record_formula t h
      have rest := simplifyRoot_settled stands.spans stands.root (settled rfl) simplified
      simp only
      split <;> exact ⟨recorded.symm ▸ later, fun _ => recorded.symm ▸ rest⟩

structure Recognized (e f : Formula) (u : Tree NodeId) : Prop where
  spans : e.Spans u
  raw : (e.view u).Raw Label.Numbered
  spans' : f.Spans u
  root : u.top = f.root
  links : ∀ id, (f.node id).left = (e.node id).left ∧ (f.node id).right = (e.node id).right
  attached : f.view u = (e.view u).attachQuantities

theorem recognized_of_parsed {text : String} (parsed : Expression.ofText text = .ok e)
    (prepared : prepare e = (f, .ok ())) :
    ∃ u, Recognized (recognizePolynomials (foldFactorials (e.preorder e.root) e).1) f u := by
  obtain ⟨x, built, ⟨t, spans, root, rfl⟩, formed⟩ := displays_of_parsed parsed
  have raw := (Tree.ofText_grammatical built).raw
  obtain ⟨h, relabels, view, folded⟩ := foldFactorials_eq spans formed []
  rw [List.append_nil, ← preorder_eq spans, root] at folded
  have kept := relabels.spans spans
  have root' : t.top = h.root := root.trans relabels.root.symm
  cases result : (e.view t).foldFactorials with
  | mk y ended =>
    rw [result] at view folded
    cases ended with
    | error error => simp [prepare, folded] at prepared
    | ok done =>
      cases done
      simp only [foldFactorials] at folded view
      rw [prepare, folded] at prepared
      obtain rfl := (Prod.mk.inj prepared).1
      obtain ⟨u, top, regrown, recognized, same⟩ := recognizePolynomials_eq kept root'
      have root'' : u.top = (recognizePolynomials h).root := top.trans (root'.trans same.symm)
      obtain ⟨attached, view'⟩ := attachQuantities_eq regrown.spans root''
      have numbered : ((recognizePolynomials h).view u).Raw Label.Numbered := by
        rw [recognized, view]
        exact raw.recognized result
      rw [folded]
      exact ⟨u, regrown.spans, numbered, attached.spans regrown.spans,
        root''.trans attached.root.symm, attached.links, view'⟩

/-- Preparing a formula that comes from a text leaves a sound tree. -/
theorem stands_of_parsed {text : String} (parsed : Expression.ofText text = .ok e)
    (prepared : prepare e = (f, .ok ())) :
    ∃ t, f.Spans t ∧ t.top = f.root ∧ (f.view t).Sound := by
  obtain ⟨u, recognized⟩ := recognized_of_parsed parsed prepared
  exact ⟨u, recognized.spans', recognized.root, recognized.attached ▸ recognized.raw.sound⟩

/-- Once a formula that comes from a text is prepared, it stays intact to the end of its evaluation, and
nothing in it is pending when the evaluation has ended well. -/
theorem evaluation_intact {text : String} (parsed : Expression.ofText text = .ok e)
    (prepared : prepare e = (f, .ok ())) :
    (∀ g, Passes f g → Intact g) ∧ Passes f (trace e).1.formula ∧
      ((trace e).2 = .ok () → ∀ id, (trace e).1.formula.Reaches (trace e).1.formula.root id →
        isPending ((trace e).1.formula.node id) = false) := by
  obtain ⟨t, spans, root, sound⟩ := stands_of_parsed parsed prepared
  obtain ⟨last, settled⟩ := trace_passes prepared spans root sound
  refine ⟨fun g passes => ?_, last, fun ok id reached => ?_⟩
  · obtain ⟨u, stands⟩ := passes.stands spans root sound
    exact stands.intact
  · obtain ⟨u, spans, root, sound, _⟩ := last.stands spans root sound
    have still : ((trace e).1.formula.view u).isPending = false :=
      (isPending_view spans.links).trans (root ▸ settled ok)
    exact isPending_of_idle spans.links (sound.idle still) ((reaches_iff spans.links).mp (root ▸ reached))

/-- An equation whose sides are a call and a term. -/
theorem evaluation_intact_equation :
    ∃ e f : Formula, Expression.ofText "sin(x+1)=2*x" = .ok e ∧ prepare e = (f, .ok ()) ∧
    (∀ g, Passes f g → Intact g) ∧ Passes f (trace e).1.formula ∧
      ((trace e).2 = .ok () → ∀ id, (trace e).1.formula.Reaches (trace e).1.formula.root id →
        isPending ((trace e).1.formula.node id) = false) := by
  have folds : ((Expression.ofText "sin(x+1)=2*x" : Except GrammarError Formula).toOption.any fun e =>
      (foldFactorials (e.preorder e.root) e).2.isOk) := by cbv
  cases parsed : (Expression.ofText "sin(x+1)=2*x" : Except GrammarError Formula) with
  | error error => simp [parsed, Except.toOption] at folds
  | ok e =>
    have folded : (foldFactorials (e.preorder e.root) e).2.isOk := by
      simpa [parsed, Except.toOption] using folds
    cases outcome : foldFactorials (e.preorder e.root) e with
    | mk f ended =>
      cases ended with
      | error error => simp [outcome, Except.isOk, Except.toBool] at folded
      | ok done =>
        have prepared : prepare e = (attachQuantities (recognizePolynomials f), .ok ()) := by
          rw [prepare, outcome]
        exact ⟨e, _, rfl, prepared, evaluation_intact parsed prepared⟩

end Formula

end Stepwise
