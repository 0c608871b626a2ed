import Stepwise.Proofs.Tree.Parents
import Stepwise.Proofs.Tree.Proper

/-! The shape of the expression that a text denotes. Main statement: every node of its array is
reached from the root exactly once and names the one node that lists it, and what it stands for
tells what it has for operands. -/
namespace Stepwise.Expression

variable {ν : Type} {e : Expression ν} {t : Tree NodeId} {id : NodeId}

theorem view_eq_leaf {a : Label ν} (view : e.view t = .leaf a) :
    ∃ id, t = .leaf id ∧ (e.node id).label = a := by
  cases t with
  | leaf id => exact ⟨id, rfl, Tree.leaf.inj view⟩
  | group id inner => cases view
  | fork id left right => cases view

theorem view_eq_group {a : Label ν} {x : Tree (Label ν)} (view : e.view t = .group a x) :
    ∃ id inner, t = .group id inner ∧ (e.node id).label = a ∧ e.view inner = x := by
  cases t with
  | leaf id => cases view
  | group id inner => exact ⟨id, inner, rfl, Tree.group.inj view⟩
  | fork id left right => cases view

theorem view_eq_fork {a : Label ν} {x y : Tree (Label ν)} (view : e.view t = .fork a x y) :
    ∃ id left right, t = .fork id left right ∧ (e.node id).label = a ∧ e.view left = x ∧
      e.view right = y := by
  cases t with
  | leaf id => cases view
  | group id inner => cases view
  | fork id left right => exact ⟨id, left, right, rfl, Tree.fork.inj view⟩

/-- A node is an operand, an operator over two operands, or a bracket around a second call; a sign
stands over a zero that was put in for it; and a letter stands behind its coefficient and in front
of its exponent. -/
structure IsShaped (e : Expression ν) (id : NodeId) : Prop where
  operands : (e.node id).isLeaf ∨ ((e.node id).left.isSome ∧ (e.node id).right.isSome) ∨
    ((e.node id).token.kind = .opening ∧ (e.node id).left.isSome ∧ (e.node id).right = none ∧
    (e.node id).call.isSome)
  sign : (e.node id).unary → ((e.node id).token.kind = .plus ∨ (e.node id).token.kind = .minus) ∧
    ∃ left, (e.node id).left = some left ∧ (e.node left).isLeaf ∧ (e.node left).token = .inserted .number "0"
  letter : (e.node id).isLeaf → (e.node id).token.kind = .letter → ∃ product coefficient power,
    (e.node product).token = .inserted .times "*" ∧ (e.node product).left = some coefficient ∧
    (e.node product).right = some power ∧ (e.node coefficient).isLeaf ∧
    (e.node coefficient).token.kind = .number ∧
    (e.node power).token.kind = .power ∧ (e.node power).left = some id

namespace IsShaped

theorem leaf (leaf : (e.node id).isLeaf) (unsigned : (e.node id).unary = false)
    (plain : (e.node id).token.kind ≠ .letter) :
    e.IsShaped id :=
  ⟨.inl leaf, fun sign => absurd sign (by simp [unsigned]), fun _ letter => absurd letter plain⟩

theorem operator {left right : NodeId} (first : (e.node id).left = some left)
    (second : (e.node id).right = some right) (unsigned : (e.node id).unary = false) :
    e.IsShaped id :=
  ⟨.inr (.inl ⟨by simp [first], by simp [second]⟩), fun sign => absurd sign (by simp [unsigned]),
    fun leaf => absurd leaf (by simp [Node.isLeaf, first])⟩

end IsShaped

theorem isLeaf_of_links (links : e.Links (.leaf id)) : (e.node id).isLeaf := by
  simp [Node.isLeaf, links.1, links.2]

/-- The nodes of a proper tree have the shapes that its labels ask for. -/
theorem isShaped_of_proper {x : Tree (Label ν)} (proper : x.Proper) (links : e.Links t)
    (view : e.view t = x) :
    ∀ id ∈ t.flatten, e.IsShaped id := by
  induction proper generalizing t with
  | leaf plain unsigned =>
    obtain ⟨id, rfl, rfl⟩ := view_eq_leaf view
    intro other member
    obtain rfl : other = id := by simpa [Tree.flatten] using member
    exact .leaf (isLeaf_of_links links) unsigned plain
  | group bracket called unsigned _ ih =>
    obtain ⟨id, inner, rfl, rfl, below⟩ := view_eq_group view
    obtain ⟨first, second, links⟩ := links
    intro other member
    rcases List.mem_cons.mp member with rfl | member
    · refine ⟨.inr (.inr ⟨bracket, by simp [first], second, called⟩), fun sign => absurd sign ?_,
        fun leaf => absurd leaf ?_⟩
      · simpa [Node.label] using unsigned
      · simp [Node.isLeaf, first]
    · exact ih links below other member
  | operator unsigned _ _ ihl ihr =>
    obtain ⟨id, left, right, rfl, rfl, viewl, viewr⟩ := view_eq_fork view
    obtain ⟨first, second, linksl, linksr⟩ := links
    intro other member
    simp only [Tree.flatten, List.mem_cons, List.mem_append] at member
    rcases member with rfl | member | member
    · exact .operator first second unsigned
    · exact ihl linksl viewl other member
    · exact ihr linksr viewr other member
  | sign kind _ ih =>
    obtain ⟨id, left, right, rfl, rfl, viewl, viewr⟩ := view_eq_fork view
    obtain ⟨left, rfl, inserted⟩ := view_eq_leaf viewl
    obtain ⟨first, second, linksl, linksr⟩ := links
    have token : (e.node left).token = .inserted .number "0" := congrArg Label.token inserted
    have unsigned : (e.node left).unary = false := congrArg Label.unary inserted
    intro other member
    simp only [Tree.flatten, List.mem_cons, List.mem_append, List.not_mem_nil, or_false] at member
    rcases member with rfl | rfl | member
    · refine ⟨.inr (.inl ⟨by simp [first], by simp [second]⟩),
        fun _ => ⟨kind, _, first, isLeaf_of_links linksl, token⟩, ?_⟩
      exact fun leaf => absurd leaf (by simp [Node.isLeaf, first])
    · exact .leaf (isLeaf_of_links linksl) unsigned (by rw [token]; exact Token.Kind.noConfusion)
    · exact ih linksr viewr other member
  | term product unsigned number isLetter isCaret _ ih =>
    obtain ⟨id, left, right, rfl, rfl, viewl, viewr⟩ := view_eq_fork view
    obtain ⟨coefficient, rfl, scales⟩ := view_eq_leaf viewl
    obtain ⟨power, base, exponent, rfl, raises, viewb, viewe⟩ := view_eq_fork viewr
    obtain ⟨letter, rfl, names⟩ := view_eq_leaf viewb
    obtain ⟨first, second, linksl, third, fourth, linksb, linkse⟩ := links
    have number : (e.node coefficient).token.kind = .number := (congrArg (·.token.kind) scales).trans number
    have isLetter : (e.node letter).token.kind = .letter := (congrArg (·.token.kind) names).trans isLetter
    have isCaret : (e.node power).token.kind = .power := (congrArg (·.token.kind) raises).trans isCaret
    intro other member
    simp only [Tree.flatten, List.mem_cons, List.mem_append, List.not_mem_nil, or_false] at member
    rcases member with rfl | rfl | rfl | rfl | member
    · exact .operator first second unsigned
    · exact .leaf (isLeaf_of_links linksl) (congrArg Label.unary scales) (by simp [number])
    · exact .operator third fourth (congrArg Label.unary raises)
    · exact ⟨.inl (isLeaf_of_links linksb), fun sign =>
        absurd sign (by simp [show (e.node other).unary = false from congrArg Label.unary names]),
        fun _ _ => ⟨id, coefficient, power, product, first, second, isLeaf_of_links linksl, number,
        isCaret, third⟩⟩
    · exact ih linkse viewe other member

/-- Below its top, every node of a tree is listed by another. -/
theorem Links.listed (links : e.Links t) : ∀ id ∈ t.flatten, id = t.top ∨ ∃ above, e.Lists above id := by
  induction t with
  | leaf id => exact fun other member => .inl (by simpa [Tree.flatten] using member)
  | group id inner ih =>
    obtain ⟨first, -, links⟩ := links
    intro other member
    rcases List.mem_cons.mp member with rfl | member
    · exact .inl rfl
    · rcases ih links other member with rfl | listed
      · exact .inr ⟨id, .inl first⟩
      · exact .inr listed
  | fork id left right ihl ihr =>
    obtain ⟨first, second, linksl, linksr⟩ := links
    intro other member
    simp only [Tree.flatten, List.mem_cons, List.mem_append] at member
    rcases member with rfl | member | member
    · exact .inl rfl
    · rcases ihl linksl other member with rfl | listed
      · exact .inr ⟨id, .inl first⟩
      · exact .inr listed
    · rcases ihr linksr other member with rfl | listed
      · exact .inr ⟨id, .inr second⟩
      · exact .inr listed

/-- The array is one tree: a node is reached from the root in one way, its parent is the one node
that has it for an operand, and it has the operands that what it stands for asks for. -/
structure IsProper (e : Expression ν) : Prop where
  reached : ∃ t, e.Links t ∧ t.top = e.root ∧ t.flatten.Perm (List.range e.size)
  root : (e.node e.root).parent = none
  parents : ∀ id < e.size, id ≠ e.root → ∃ parent, (e.node id).parent = some parent ∧
    ∀ above, e.Lists above id ↔ above = parent
  shaped : ∀ id < e.size, e.IsShaped id

theorem Fills.isProper {x : Tree (Label ν)} (fills : e.Fills x) (proper : x.Proper) : e.IsProper := by
  obtain ⟨t, spans, top, view⟩ := fills.displays
  have length : t.size = e.size := by rw [fills.size, ← view, Expression.view, Tree.size_map]
  have all : t.flatten.Perm (List.range e.size) := by
    refine (spans.nodup.subperm fun id member =>
      List.mem_range.mpr (spans.inside id member)).perm_of_length_le ?_
    rw [List.length_range, Tree.length_flatten, length]
  have within {id : NodeId} (inside : id < e.size) : id ∈ t.flatten :=
    all.mem_iff.mpr (List.mem_range.mpr inside)
  refine ⟨⟨t, spans.links, top, all⟩, fills.root, fun id inside below => ?_, fun id inside => ?_⟩
  · obtain ⟨parent, lists⟩ := (spans.links.listed id (within inside)).resolve_left (top ▸ below)
    have known := fills.reciprocal lists
    refine ⟨parent, known, fun above => ⟨fun other => ?_, fun same => same ▸ lists⟩⟩
    exact Option.some.inj ((fills.reciprocal other).symm.trans known)
  · exact isShaped_of_proper proper spans.links view id (within inside)

/-- The expression that a text denotes is one proper tree. -/
theorem ofText_isProper {text : String} {e : Expression ν} (parsed : ofText text = .ok e) : e.IsProper := by
  obtain ⟨x, built, fills⟩ := ofText_fills parsed
  exact fills.isProper (.of_text built)

/-- A sign over a variable term, a call in a call and a factorial that is spelled out. -/
theorem ofText_isProper_nested :
    ∃ e : Expression Unit, ofText "-2x^3+sin(cos(4!))" = .ok e ∧ e.size = 16 ∧ e.IsProper := by
  have accepted : (ofText "-2x^3+sin(cos(4!))" : Except GrammarError (Expression Unit)).toOption.map
      size = some 16 := by
    decide +kernel
  cases parsed : (ofText "-2x^3+sin(cos(4!))" : Except GrammarError (Expression Unit)) with
  | error error => simp [parsed, Except.toOption] at accepted
  | ok e => exact ⟨e, rfl, by simpa [parsed, Except.toOption] using accepted, ofText_isProper parsed⟩

end Stepwise.Expression
