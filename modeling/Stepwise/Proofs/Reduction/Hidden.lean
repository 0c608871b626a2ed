import Stepwise.Proofs.Phrase.Telling
import Stepwise.Proofs.Reduction.Likewise
import Stepwise.Proofs.Tree.Expansion

/-! What a text hides of the tree that it is written for. Main statement: trees with the same core
resemble each other when the same is hidden at the same places of both. -/
namespace Stepwise

namespace Tree

variable {x y left left' right right' : Tree Mark} {a b : Mark}

instance : DecidablePred NotOne := fun x =>
  decidable_of_iff (x.isLeaf ∧ x.top.token.kind = .number ∧ x.top.call = none ∧ x.top.token.text ≠ "1" ∧
      x.top.attachNumber.token.text ≠ "1")
    ⟨fun ⟨isLeaf, number, unmarked, text, attached⟩ => ⟨isLeaf, number, unmarked, text, attached⟩,
      fun factor => ⟨factor.isLeaf, factor.number, factor.unmarked, factor.text, factor.attached⟩⟩

inductive Trait
  | plain
  /-- A number has its sign on it. -/
  | folded
  /-- A coefficient `1 *` is left out. A keyword may stand on the product. -/
  | coefficient (marked : Bool)
  /-- The sign of a product may have been put in. -/
  | product (inserted : Bool)
  deriving DecidableEq

/-- What is hidden at the root. Whether the sign of a product was put in counts where the first
factor may be 1. -/
def trait : Tree Mark → Trait
  | leaf a => if a.token.negative?.isSome then .folded else .plain
  | group _ _ => .plain
  | fork a left _ =>
    if isUnit a left then .coefficient a.call.isSome
    else if a.token.kind = .times ∧ ¬ left.NotOne then .product a.token.isInserted
    else .plain

def hidden : Tree Mark → List Trait
  | leaf a => [(leaf a).trait]
  | group a inner => (group a inner).trait :: inner.hidden
  | fork a left right =>
    (fork a left right).trait :: if isUnit a left then right.hidden else left.hidden ++ right.hidden

/-- A tree as texts denote them: the sign of a number stands in front of its digits, a bracket has a
keyword, and the coefficient that is left out is the number 1. -/
def Textual : Tree Mark → Prop
  | leaf a => a.Fresh ∧ ∀ digits, a.token.negative? = some digits → Token.IsNumeral digits.toList
  | group a inner => a.Fresh ∧ a.token.kind = .opening ∧ a.call.isSome ∧ inner.Textual
  | fork a left right =>
    a.Fresh ∧ (isUnit a left → a.token.text = "*" ∧ left.top.token.kind = .number) ∧ left.Textual ∧
      right.Textual

/-- The number 1 is no factorial that stays one. -/
theorem Grammatical.one {x : Tree Mark} (grammatical : x.Grammatical) (isLeaf : x.isLeaf)
    (unmarked : x.top.call = none) (text : x.top.token.text = "1") :
    x.top.token.kind = .number := by
  cases grammatical with
  | number kind spelled => exact kind
  | negative numeral place => rfl
  | factorial kind spelled large =>
    rw [top_leaf] at text
    rw [text] at large
    exact absurd large (by decide +kernel)
  | power | sign | operator => cases isLeaf
  | @call keyword argument mark =>
    cases call : argument.top.call with
    | none => simp [applyCall_unmarked mark call] at unmarked
    | some _ => simp [applyCall_marked mark (x := argument) (by simp [call])] at unmarked

theorem Textual.marked (textual : x.Textual) {keyword : Token} (mark : keyword.kind.IsMark) :
    (x.applyCall (some keyword)).Textual := by
  cases call : x.top.call with
  | some _ =>
    rw [applyCall_marked mark (by simp [call])]
    exact ⟨⟨rfl, rfl, rfl, fun sign => by cases sign⟩, rfl, rfl, textual⟩
  | none =>
    have kept (a : Mark) (fresh : a.Fresh) : ({ a with call := some keyword } : Mark).Fresh :=
      ⟨fresh.value, fresh.reduced, fresh.deferred, fresh.unary⟩
    rw [applyCall_unmarked mark call]
    cases x with
    | leaf a => exact ⟨kept a textual.1, textual.2⟩
    | group a inner => exact ⟨kept a textual.1, textual.2.1, rfl, textual.2.2.2⟩
    | fork a left right => exact ⟨kept a textual.1, textual.2⟩

theorem Grammatical.textual (grammatical : x.Grammatical) : x.Textual := by
  have plain (token : Token) : ({ token } : Mark).Fresh := ⟨rfl, rfl, rfl, fun sign => by cases sign⟩
  have other {token : Token} (kind : token.kind ≠ .number) : (leaf ({ token } : Mark)).Textual :=
    ⟨plain _, fun digits signed => by simp [Token.negative?, kind] at signed⟩
  induction grammatical with
  | @number token kind spelled =>
    have numeral : Token.IsNumeral token.text.toList := by
      simp only [Token.Spelled, kind] at spelled
      exact spelled
    exact ⟨plain _, fun digits signed => by cases (Token.negative_numeral numeral _ _).symm.trans signed⟩
  | @negative digits numeral position =>
    refine ⟨plain _, fun digits' signed => ?_⟩
    obtain rfl := Option.some.inj ((Token.negative_minus position).symm.trans signed)
    exact numeral
  | factorial kind => exact other (by simp [kind])
  | power isLetter named isCaret spelled exponent ih =>
    exact ⟨plain _, fun unit => by simp [isUnit, isCaret] at unit, other (by simp [isLetter]), ih⟩
  | sign kind spelled operand ih =>
    refine ⟨⟨rfl, rfl, rfl, fun _ => kind⟩, fun unit => ?_, ⟨plain _, fun digits signed => ?_⟩, ih⟩
    · rcases kind with kind | kind <;> simp [isUnit, kind] at unit
    · cases signed
  | @operator token left right rank spelled first second factor ihl ihr =>
    refine ⟨plain _, fun unit => ?_, ihl, ihr⟩
    simp only [isUnit, Bool.and_eq_true, beq_iff_eq, Option.isNone_iff_eq_none] at unit
    obtain ⟨⟨times, -⟩, ⟨isLeaf, unmarked⟩, text⟩ := unit
    have symbol := Token.spelled_symbol spelled rank
    rw [times] at symbol
    exact ⟨symbol, first.one isLeaf unmarked text⟩
  | call mark spelled argument ih => exact ih.marked mark

/-! Labels that differ in places only resemble each other. -/

theorem resembles_of_unplaced (same : a.unplaced = b.unplaced) : a.Resembles b := by
  cases a
  cases b
  simp only [Label.unplaced, Label.mk.injEq] at same
  obtain ⟨token, call, rfl, rfl, rfl, rfl⟩ := same
  exact ⟨token, call, rfl, rfl, rfl, rfl⟩

def Calling (x : Tree Mark) : Prop := ∀ b inner, x = group b inner → b.call.isSome

theorem mapTop_unmarked {x : Tree Mark} (unmarked : x.top.call = none) (call : Option Token) :
    (x.mapTop fun a => { a with call := call }).mapTop (fun a => { a with call := none }) = x := by
  cases x <;> simp only [mapTop, top_leaf, top_group, top_fork] at unmarked ⊢ <;> rw [← unmarked]

/-- The brackets of a call are not taken for its argument. -/
theorem not_marked {keyword keyword' : Token} (calling : y.Calling) (marked : x.top.call.isSome)
    (unmarked : ¬ y.top.call.isSome) :
    x.marked (some keyword) ≠ y.marked (some keyword') := by
  intro same
  rw [Tree.marked, Tree.marked, if_pos marked, if_neg unmarked] at same
  cases y with
  | leaf | fork => cases same
  | group b inner => exact unmarked (calling b inner rfl)

/-- A keyword can be taken off. -/
theorem marked_injective {call call' : Option Token} (calls : call.isSome = call'.isSome)
    (calling : x.Calling) (calling' : y.Calling) (same : x.marked call = y.marked call') :
    call = call' ∧ x = y := by
  cases call with
  | none =>
    obtain rfl : call' = none := Option.not_isSome_iff_eq_none.mp (by simp [← calls])
    exact ⟨rfl, same⟩
  | some keyword =>
    obtain ⟨keyword', rfl⟩ := Option.isSome_iff_exists.mp calls.symm
    by_cases outer : x.top.call.isSome <;> by_cases outer' : y.top.call.isSome
    · simp only [Tree.marked, if_pos outer, if_pos outer', group.injEq, Label.mk.injEq, and_true,
        true_and] at same
      exact same
    · exact absurd same (not_marked calling' outer outer')
    · exact absurd same.symm (not_marked calling outer' outer)
    · simp only [Tree.marked, if_neg outer, if_neg outer'] at same
      have keywords := congrArg (fun x : Tree Mark => x.top.call) same
      have bare := congrArg (mapTop fun a : Mark => { a with call := none }) same
      rw [mapTop_unmarked (Option.not_isSome_iff_eq_none.mp outer),
        mapTop_unmarked (Option.not_isSome_iff_eq_none.mp outer')] at bare
      rw [top_mapTop, top_mapTop] at keywords
      exact ⟨keywords, bare⟩

theorem Calling.marked (calling : x.Calling) (call : Option Token) : (x.marked call).Calling := by
  cases call with
  | none => exact calling
  | some keyword =>
    intro b inner same
    have top : (x.marked (some keyword)).top = b := by rw [same, top_group]
    exact top ▸ call_marked

theorem Textual.calling (textual : x.Textual) : x.core.Calling := by
  induction x with
  | leaf a =>
    intro b inner same
    rw [core] at same
    split at same <;> cases same
  | group a below ih =>
    intro b inner same
    obtain ⟨rfl, -⟩ := Tree.group.inj same
    exact (Option.isSome_map ..).trans textual.2.2.1
  | fork a left right ihl ihr =>
    by_cases unit : isUnit a left
    · rw [core_unit unit]
      exact (ihr textual.2.2.2).marked _
    · rw [core_fork unit]
      exact fun b inner same => by cases same

/-! The same core and the same hidden things, part for part. -/

theorem trait_leaf (a : Mark) : (leaf a).trait = .plain ∨ (leaf a).trait = .folded := by
  rw [trait]
  split
  · exact .inr rfl
  · exact .inl rfl

theorem trait_unit (unit : isUnit a left) (right : Tree Mark) :
    (fork a left right).trait = .coefficient a.call.isSome := by
  rw [trait, if_pos unit]

theorem hidden_unit (unit : isUnit a left) (right : Tree Mark) :
    (fork a left right).hidden = .coefficient a.call.isSome :: right.hidden := by
  rw [hidden, trait_unit unit, if_pos unit]

theorem hidden_fork (unit : ¬ isUnit a left) (right : Tree Mark) :
    (fork a left right).hidden = (fork a left right).trait :: (left.hidden ++ right.hidden) := by
  rw [hidden, if_neg unit]

theorem trait_fork (unit : ¬ isUnit a left) (right : Tree Mark) : (fork a left right).trait ≠ .folded ∧
    ∀ marked, (fork a left right).trait ≠ .coefficient marked := by
  rw [trait, if_neg unit]
  split <;> exact ⟨nofun, nofun⟩

/-- The sign and the digits of a number make up its token. -/
theorem negative_eq {token : Token} {digits : String} (negative : token.negative? = some digits) :
    token.unplaced = .inserted .number ("-" ++ digits) := by
  obtain ⟨kind, text, place⟩ := token
  unfold Token.negative? at negative
  split at negative
  · next _ _ chars number characters =>
    obtain rfl : kind = .number := number
    have characters : text.toList = '-' :: chars := characters
    obtain rfl := Option.some.inj negative
    have textEq : text = "-" ++ String.ofList chars := by
      rw [← String.toList_inj, characters]
      simp
    rw [textEq]
    rfl
  · cases negative

theorem resembles_of_folded {digits digits' : String} (fresh : a.Fresh) (fresh' : b.Fresh)
    (negative : a.token.negative? = some digits) (negative' : b.token.negative? = some digits')
    (same : (leaf a).core = (leaf b).core) : a.Resembles b := by
  have unsigned {a : Mark} {digits : String} (fresh : a.Fresh)
      (negative : a.token.negative? = some digits) : a.unary = false := by
    have kind := congrArg Token.kind (negative_eq negative)
    have kind : a.token.kind = .number := kind
    by_contra sign
    rcases fresh.unary (by simpa using sign) with plus | minus <;> simp_all
  rw [core_negative negative, core_negative negative'] at same
  simp only [fork.injEq, leaf.injEq, Label.mk.injEq, and_true, true_and, Label.unplaced,
    Token.inserted, Token.mk.injEq] at same
  obtain ⟨⟨call, value, reduced, deferred⟩, rfl⟩ := same
  refine ⟨(negative_eq negative).trans (negative_eq negative').symm, call, congrArg _ value,
    reduced, deferred, ?_⟩
  rw [unsigned fresh negative, unsigned fresh' negative']

/-- The coefficient that is left out. -/
theorem resembles_of_unit (textual : (fork a left right).Textual)
    (textual' : (fork b left' right').Textual) (unit : isUnit a left) (unit' : isUnit b left')
    (call : a.call.map Token.unplaced = b.call.map Token.unplaced) :
    a.Resembles b ∧ left.Resembles left' ∧ a.token.isInserted = b.token.isInserted := by
  obtain ⟨fresh, one, first, -⟩ := textual
  obtain ⟨fresh', one', first', -⟩ := textual'
  obtain ⟨star, number⟩ := one unit
  obtain ⟨star', number'⟩ := one' unit'
  simp only [isUnit, Bool.and_eq_true, beq_iff_eq, Option.isNone_iff_eq_none] at unit unit'
  obtain ⟨⟨times, inserted⟩, ⟨isLeaf, unmarked⟩, text⟩ := unit
  obtain ⟨⟨times', inserted'⟩, ⟨isLeaf', unmarked'⟩, text'⟩ := unit'
  have unsigned {a : Mark} (fresh : a.Fresh) (plus : a.token.kind ≠ .plus)
      (minus : a.token.kind ≠ .minus) : a.unary = false := by
    by_contra sign
    rcases fresh.unary (by simpa using sign) with kind | kind
    · exact plus kind
    · exact minus kind
  have label {a b : Mark} (fresh : a.Fresh) (fresh' : b.Fresh) (kind : a.token.kind = b.token.kind)
      (text : a.token.text = b.token.text) (plus : a.token.kind ≠ .plus) (minus : a.token.kind ≠ .minus)
      (call : a.call.map Token.unplaced = b.call.map Token.unplaced) : a.Resembles b := by
    refine ⟨?_, call, by rw [fresh.value, fresh'.value], by rw [fresh.reduced, fresh'.reduced],
      by rw [fresh.deferred, fresh'.deferred], ?_⟩
    · rw [Token.unplaced, Token.unplaced, kind, text]
    · rw [unsigned fresh plus minus, unsigned fresh' (kind ▸ plus) (kind ▸ minus)]
  refine ⟨label fresh fresh' (times.trans times'.symm) (star.trans star'.symm) (by simp [times])
    (by simp [times]) call, ?_, inserted.trans inserted'.symm⟩
  cases left with
  | leaf l =>
    cases left' with
    | leaf l' =>
      have number : l.token.kind = .number := number
      exact .leaf (label first.1 first'.1
        (number.trans number'.symm) (text.trans text'.symm) (by simp [number]) (by simp [number])
        (by rw [show l.call = none from unmarked, show l'.call = none from unmarked']))
    | group | fork => cases isLeaf'
  | group | fork => cases isLeaf

/-! Nodes with the same core and the same trait are of one kind. -/

theorem unit_of_plain (plain : (fork a left right).trait = .plain) : ¬ isUnit a left := fun unit => by
  rw [trait_unit unit] at plain
  cases plain

theorem leaf_ne_group {inner : Tree Mark} (core : (leaf a).core = (group b inner).core) : False := by
  rw [Tree.core, Tree.core] at core
  split at core <;> cases core

theorem leaf_ne_fork (core : (leaf a).core = (fork b left right).core)
    (trait : (leaf a).trait = (fork b left right).trait) :
    False := by
  rcases trait_leaf a with plain | folded
  · have unsigned : a.token.negative? = none := by
      by_contra signed
      rw [Tree.trait, if_pos (Option.isSome_iff_ne_none.mpr signed)] at plain
      cases plain
    rw [core_number unsigned, core_fork (unit_of_plain (trait ▸ plain))] at core
    cases core
  · rw [folded] at trait
    by_cases unit : isUnit b left
    · rw [trait_unit unit] at trait
      cases trait
    · exact (trait_fork unit right).1 trait.symm

theorem group_ne_fork {inner : Tree Mark} (core : (group a inner).core = (fork b left right).core)
    (trait : (group a inner).trait = (fork b left right).trait) : False := by
  rw [core_fork (unit_of_plain trait.symm)] at core
  cases core

theorem isUnit_of_trait (trait : (fork a left right).trait = (fork b left' right').trait) :
    isUnit a left = isUnit b left' := by
  by_cases unit : isUnit a left <;> by_cases unit' : isUnit b left'
  · rw [unit, unit']
  · rw [trait_unit unit] at trait
    exact absurd trait.symm ((trait_fork unit' right').2 _)
  · rw [trait_unit unit'] at trait
    exact absurd trait ((trait_fork unit right).2 _)
  · rw [Bool.eq_false_iff.mpr unit, Bool.eq_false_iff.mpr unit']

/-- The sign of a product was put in on both sides, or its first factor is not 1. -/
theorem product_of_trait (unit : ¬ isUnit a left) (unit' : ¬ isUnit b left')
    (trait : (fork a left right).trait = (fork b left' right').trait) (times : a.token.kind = .times) :
    a.token.isInserted = b.token.isInserted ∨ left.NotOne := by
  by_cases factor : left.NotOne
  · exact .inr factor
  · refine .inl ?_
    rw [Tree.trait, if_neg unit, if_pos ⟨times, factor⟩, Tree.trait, if_neg unit'] at trait
    split at trait
    · exact Trait.product.inj trait
    · cases trait

theorem head_hidden (x : Tree Mark) (s : List Trait) : (x.hidden ++ s).head? = some x.trait := by
  cases x <;> rfl

theorem trait_eq {s t : List Trait} (hidden : x.hidden ++ s = y.hidden ++ t) : x.trait = y.trait := by
  have heads := congrArg List.head? hidden
  rw [head_hidden, head_hidden] at heads
  exact Option.some.inj heads

/-- Trees with the same core resemble each other, when the same is hidden in both, whatever is
hidden behind them. -/
theorem Resembles.of_hidden (textual : x.Textual) (textual' : y.Textual) (core : x.core = y.core)
    {s t : List Trait} (hidden : x.hidden ++ s = y.hidden ++ t) : x.Resembles y ∧ s = t := by
  induction x generalizing y s t with
  | leaf a =>
    cases y with
    | leaf b =>
      have traits := trait_eq hidden
      refine ⟨.leaf ?_, (List.cons.inj hidden).2⟩
      cases negative : a.token.negative? with
      | some digits =>
        have folded : b.token.negative?.isSome := by
          by_contra plain
          simp [Tree.trait, negative, plain] at traits
        obtain ⟨digits', negative'⟩ := Option.isSome_iff_exists.mp folded
        exact resembles_of_folded textual.1 textual'.1 negative negative' core
      | none =>
        have plain : b.token.negative? = none := by
          by_contra folded
          simp [Tree.trait, negative, Option.isSome_iff_ne_none.mpr folded] at traits
        rw [core_number negative, core_number plain] at core
        exact resembles_of_unplaced (Tree.leaf.inj core)
    | group b below => exact (leaf_ne_group core).elim
    | fork b left right => exact (leaf_ne_fork core (trait_eq hidden)).elim
  | group a inner ih =>
    cases y with
    | leaf b => exact (leaf_ne_group core.symm).elim
    | group b below =>
      obtain ⟨label, same⟩ := Tree.group.inj core
      obtain ⟨resembles, rest⟩ := ih textual.2.2.2 textual'.2.2.2 same (List.cons.inj hidden).2
      exact ⟨.group (resembles_of_unplaced label) textual.2.1 resembles, rest⟩
    | fork b left right => exact (group_ne_fork core (trait_eq hidden)).elim
  | fork a left right ihl ihr =>
    cases y with
    | leaf b => exact (leaf_ne_fork core.symm (trait_eq hidden).symm).elim
    | group b below => exact (group_ne_fork core.symm (trait_eq hidden).symm).elim
    | fork b left' right' =>
      have traits := trait_eq hidden
      have units := isUnit_of_trait traits
      by_cases unit : Tree.isUnit a left
      · have unit' : Tree.isUnit b left' := units ▸ unit
        rw [trait_unit unit, trait_unit unit'] at traits
        rw [core_unit unit, core_unit unit'] at core
        rw [hidden_unit unit, hidden_unit unit'] at hidden
        obtain ⟨call, same⟩ :=
          marked_injective (by simpa using traits) textual.2.2.2.calling textual'.2.2.2.calling core
        obtain ⟨second, rest⟩ := ihr textual.2.2.2 textual'.2.2.2 same (List.cons.inj hidden).2
        obtain ⟨label, first, inserted⟩ := resembles_of_unit textual textual' unit unit' call
        exact ⟨.fork label (fun _ => .inl inserted) first second, rest⟩
      · have unit' : ¬ Tree.isUnit b left' := units ▸ unit
        rw [core_fork unit, core_fork unit'] at core
        rw [hidden_fork unit, hidden_fork unit', List.cons_append, List.cons_append,
          List.append_assoc, List.append_assoc] at hidden
        obtain ⟨label, firsts, seconds⟩ := Tree.fork.inj core
        obtain ⟨first, rest⟩ := ihl textual.2.2.1 textual'.2.2.1 firsts (List.cons.inj hidden).2
        obtain ⟨second, rest⟩ := ihr textual.2.2.2 textual'.2.2.2 seconds rest
        have label := resembles_of_unplaced label
        exact ⟨.fork label (product_of_trait unit unit' traits) first second, rest⟩

end Tree

end Stepwise
