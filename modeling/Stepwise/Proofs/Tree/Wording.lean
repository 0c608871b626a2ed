import Stepwise.Proofs.Phrase.Writing
import Stepwise.Proofs.Tree.Walk

/-! Texts in which neither an infinity nor NaN is written. Main statement: a tree is written in such
a text when what is written on its nodes is, and only an equation has a blank behind its first
character. -/
namespace Stepwise

namespace Text

/-- There is no capital letter and no letter right behind an `n`. -/
structure IsSober (text : List Char) : Prop where
  capital : ∀ c ∈ text, c.isUpper = false
  chain : text.IsChain fun c d => c = 'n' → d.isAlpha = false

def IsHeaded (text : List Char) : Prop := ∃ c rest, text = c :: rest ∧ c ≠ ' '

structure IsWord (text : List Char) : Prop where
  sober : IsSober text
  headed : IsHeaded text
  tight : ∀ c d rest, text = c :: d :: rest → d ≠ ' '

namespace IsSober

variable {first second : List Char}

theorem append (l : IsSober first) (r : IsSober second)
    (junction : ∀ c ∈ first.getLast?, ∀ d ∈ second.head?, c = 'n' → d.isAlpha = false) :
    IsSober (first ++ second) where
  capital c member := (List.mem_append.mp member).elim (l.capital c) (r.capital c)
  chain := l.chain.append r.chain junction

/-- No letter, so no word either. -/
theorem of_letterless {text : List Char} (letterless : ∀ c ∈ text, c.isAlpha = false) : IsSober text where
  capital c member := (Bool.or_eq_false_iff.mp (letterless c member)).1
  chain := by
    induction text with
    | nil => exact .nil
    | cons c rest ih =>
      refine List.isChain_cons.mpr
        ⟨fun d member _ => ?_, ih fun d member => letterless d (List.mem_cons_of_mem _ member)⟩
      exact letterless d (List.mem_cons_of_mem _ (List.mem_of_mem_head? member))

theorem cons {c : Char} (letter : c.isAlpha = false) (r : IsSober second) : IsSober (c :: second) := by
  refine @append [c] second (of_letterless (by simpa using letter)) r ?_
  rintro _ member _ - rfl
  obtain rfl := Option.mem_some_iff.mp member
  cases letter

/-- Two sober texts with something else than a letter between them. -/
theorem append_cons {c : Char} (l : IsSober first) (letter : c.isAlpha = false) (r : IsSober second) :
    IsSober (first ++ c :: second) :=
  l.append (r.cons letter) fun _ _ _ member _ => Option.mem_some_iff.mp member ▸ letter

theorem no_infinity {text : List Char} (sober : IsSober text) : ¬ "inf".toList <:+: text := fun inside => by
  have chain := List.IsChain.infix sober.chain inside
  exact absurd chain (by decide)

theorem no_nan {text : List Char} (sober : IsSober text) : ¬ "NaN".toList <:+: text := fun inside =>
  absurd (sober.capital 'N' (inside.subset (by decide))) (by decide)

end IsSober

namespace IsWord

variable {first second : List Char}

/-- What goes on behind the head of a text. -/
theorem append_cons {c : Char} (l : IsWord first) (letter : c.isAlpha = false) (blank : c ≠ ' ')
    (r : IsSober second) :
    IsWord (first ++ c :: second) where
  sober := l.sober.append_cons letter r
  headed := by
    obtain ⟨d, rest, rfl, nonblank⟩ := l.headed
    exact ⟨d, rest ++ c :: second, rfl, nonblank⟩
  tight d e rest same := by
    obtain ⟨f, others, rfl, -⟩ := l.headed
    cases others with
    | nil =>
      obtain rfl := (List.cons.inj (List.cons.inj same).2).1
      exact blank
    | cons g others =>
      obtain rfl := (List.cons.inj (List.cons.inj same).2).1
      exact l.tight f g others rfl

theorem cons {c : Char} (letter : c.isAlpha = false) (blank : c ≠ ' ') (sober : IsSober second)
    (headed : IsHeaded second) :
    IsWord (c :: second) where
  sober := sober.cons letter
  headed := ⟨c, second, rfl, blank⟩
  tight d e rest same := by
    obtain ⟨f, others, rfl, nonblank⟩ := headed
    obtain rfl := (List.cons.inj (List.cons.inj same).2).1
    exact nonblank

end IsWord

end Text

open Text

namespace Rendered

/-- Only an equation has a blank behind its first character. -/
structure IsDecent (r : Rendered) : Prop where
  sober : IsSober r.text.toList
  headed : IsHeaded r.text.toList
  word : r.precedence ≠ .equation → IsWord r.text.toList

theorem IsDecent.of_word {r : Rendered} (word : IsWord r.text.toList) : r.IsDecent :=
  ⟨word.sober, word.headed, fun _ => word⟩

/-- Brackets keep an equation from its surroundings. -/
theorem IsDecent.within {r : Rendered} (decent : r.IsDecent) {required : Precedence}
    (loose : required ≠ .equation) :
    IsWord (r.within required).toList := by
  unfold Rendered.within
  split
  · have text : ("(" ++ r.text ++ ")").toList = '(' :: (r.text.toList ++ [')']) := by simp
    rw [text]
    have sober : IsSober (r.text.toList ++ [')']) := decent.sober.append_cons rfl (.of_letterless (by simp))
    refine .cons rfl (by decide) sober ?_
    obtain ⟨c, rest, same, nonblank⟩ := decent.headed
    exact ⟨c, rest ++ [')'], by rw [same]; rfl, nonblank⟩
  · next tight =>
    refine decent.word fun equation => tight ?_
    rw [equation]
    cases required with
    | equation => exact absurd rfl loose
    | _ => decide

structure IsPart (r : Rendered) : Prop where
  word : IsWord r.text.toList
  closed : r.precedence ≠ .equation

theorem IsPart.decent {r : Rendered} (part : r.IsPart) : r.IsDecent := .of_word part.word

end Rendered

variable {ν : Type}

structure Content.IsWorded [Content ν] (v : ν) : Prop where
  rendered : (Content.rendered v).IsPart
  around (argument : String) : IsSober argument.toList → IsHeaded argument.toList →
    (Content.around v argument).IsPart

structure Label.IsWorded [Content ν] (a : Label ν) : Prop where
  call : ∀ keyword ∈ a.call, keyword.kind.IsMark ∧ keyword.Spelled
  value : ∀ v ∈ a.value, Content.IsWorded v

/-- A name with its argument in brackets. -/
theorem isWord_call {name argument : String} (known : name ∈ ["sin", "cos", "tan", "log", "diff"])
    (sober : IsSober argument.toList) : IsWord (name ++ "(" ++ argument ++ ")").toList := by
  have text : (name ++ "(" ++ argument ++ ")").toList =
      name.toList ++ '(' :: (argument.toList ++ [')']) := by
    simp
  have named : IsWord name.toList := by
    have : ∀ name ∈ ["sin", "cos", "tan", "log", "diff"],
        name.toList.any Char.isUpper = false ∧ (name.toList.IsChain fun c d => c = 'n' → d.isAlpha = false) ∧
          ∃ c d rest, name.toList = c :: d :: rest ∧ c ≠ ' ' ∧ d ≠ ' ' := by
      simp only [List.forall_mem_cons]
      refine ⟨?_, ?_, ?_, ?_, ?_, by simp⟩ <;>
        exact ⟨by decide, by decide, _, _, _, rfl, by decide, by decide⟩
    obtain ⟨capital, chain, c, d, rest, same, first, second⟩ := this name known
    have capital : ∀ c ∈ name.toList, c.isUpper = false := fun c member =>
      Bool.eq_false_iff.mpr (List.any_eq_false.mp capital c member)
    refine ⟨⟨capital, chain⟩, ⟨c, d :: rest, same, first⟩, fun e f others equal => ?_⟩
    rw [same] at equal
    exact (List.cons.inj (List.cons.inj equal).2).1 ▸ second
  rw [text]
  exact named.append_cons rfl (by decide) (sober.append_cons rfl (.of_letterless (by simp)))

theorem Token.Kind.IsMark.name {keyword : Token} (mark : keyword.kind.IsMark) (spelled : keyword.Spelled) :
    keyword.text ∈ ["sin", "cos", "tan", "log", "diff"] := by
  unfold Token.Spelled at spelled
  rcases mark with kind | kind | kind <;> simp only [kind] at spelled
  · rcases spelled with text | text | text <;> simp [text]
  · simp [spelled]
  · simp [spelled]

namespace Tree

open Rendered

variable {a : Label ν} {left right : Tree (Label ν)}

/-- The sign of an operator. -/
theorem symbol_nonletter {kind : Token.Kind} (rank : kind.rank?.isSome) :
    kind.symbol.isAlpha = false ∧ kind.symbol ≠ ' ' := by
  cases kind <;> first | exact absurd rank (by decide) | decide

theorem isDecent_operator (rank : a.token.kind.rank?.isSome) (spelled : a.token.Spelled)
    {l r : Rendered} (first : l.IsDecent) (second : r.IsDecent) :
    (operatorRendered a left l r).IsDecent := by
  obtain ⟨letter, blank⟩ := symbol_nonletter rank
  have symbol : a.token.text.toList = [a.token.kind.symbol] := by
    rw [Token.spelled_symbol spelled rank]
    simp
  unfold operatorRendered
  split
  · have operand := second.within (show Precedence.product ≠ .equation by simp)
    refine .of_word ?_
    rw [String.toList_append, symbol]
    exact .cons letter blank operand.sober operand.headed
  · split
    · exact second
    · split
      · next kind =>
        have text : (l.text ++ " = " ++ r.text).toList = l.text.toList ++ ' ' :: '=' :: ' ' ::
            r.text.toList := by
          simp
        refine ⟨?_, ?_, fun other => absurd rfl other⟩
        · rw [text]
          exact first.sober.append_cons rfl ((second.sober.cons rfl).cons rfl)
        · rw [text]
          obtain ⟨c, rest, same, nonblank⟩ := first.headed
          exact ⟨c, _, by rw [same]; rfl, nonblank⟩
      · exact first
      · next equals _ =>
        obtain ⟨own, tightl, tightr, order, low, high, written⟩ := infixed_eq rank equals
        have closed {p : Precedence} {tier : Nat} (low : tier ≤ p.rank) (nonzero : tier ≠ 0) :
            p ≠ .equation := by
          rintro rfl
          exact nonzero (Nat.le_zero.mp low)
        have asks : a.token.kind.leftTier ≠ 0 ∧ a.token.kind.rightTier ≠ 0 := by
          cases kind : a.token.kind <;>
            first
            | exact absurd kind equals
            | (rw [kind] at rank; exact absurd rank (by decide))
            | decide
        have operandl := first.within (closed low asks.1)
        have operandr := second.within (closed high asks.2)
        rw [written l r a.token rfl]
        refine .of_word ?_
        simp only [String.toList_append, symbol, List.append_assoc, List.singleton_append]
        exact operandl.append_cons letter blank operandr.sober

variable [Content ν]

def IsWorded : Tree (Label ν) → Prop
  | leaf a => a.IsWorded ∧ IsWord a.token.text.toList
  | group a inner => a.IsWorded ∧ (a.token.kind = .opening ∧ a.unary = false) ∧ inner.IsWorded
  | fork a left right =>
    a.IsWorded ∧ (a.token.kind.rank?.isSome ∧ a.token.Spelled) ∧ left.IsWorded ∧ right.IsWorded

theorem isPart_call {keyword : Token} (worded : a.IsWorded)
    (mark : keyword.kind.IsMark) (spelled : keyword.Spelled) (isLeaf : Bool) {argument : String}
    (sober : IsSober argument.toList) (headed : IsHeaded argument.toList) :
    (callRendered a keyword isLeaf argument).IsPart := by
  have plain : (⟨keyword.text ++ "(" ++ argument ++ ")", .atom⟩ : Rendered).IsPart :=
    ⟨isWord_call (mark.name spelled) sober, by simp⟩
  unfold callRendered
  cases value : a.value with
  | none =>
    simp only
    split <;> first | exact plain | simp_all
  | some v =>
    have part := worded.value v value
    rcases mark with kind | kind | kind <;> simp only [kind]
    · split
      · exact part.rendered
      · exact part.around argument sober headed
    · split
      · exact part.rendered
      · exact part.around argument sober headed
    · split
      · exact ⟨@isWord_call "diff" _ (by simp) part.rendered.word.sober, by simp⟩
      · exact plain

theorem isPart_leaf (worded : (leaf a).IsWorded) : (leafRendered a).IsPart := by
  obtain ⟨label, token⟩ := worded
  unfold leafRendered
  cases call : a.call with
  | some keyword =>
    obtain ⟨mark, spelled⟩ := label.call keyword call
    exact isPart_call label mark spelled true token.sober token.headed
  | none =>
    cases value : a.value with
    | some v => exact (label.value v value).rendered
    | none =>
      simp only [Expression.renderToken]
      split
      · refine ⟨?_, by simp⟩
        rw [String.toList_append]
        exact token.append_cons rfl (by decide) (.of_letterless (by simp))
      · refine ⟨token, ?_⟩
        simp only
        split <;> simp
      · exact ⟨token, by simp⟩

theorem isDecent_inner {written : Rendered} (worded : a.IsWorded) (decent : written.IsDecent) :
    (innerRendered a written).IsDecent := by
  unfold innerRendered
  cases call : a.call with
  | some keyword =>
    obtain ⟨mark, spelled⟩ := worded.call keyword call
    exact (isPart_call worded mark spelled false decent.sober decent.headed).decent
  | none => exact decent

theorem IsWorded.copy {x : Tree (Label ν)} (worded : x.IsWorded) : (x.map Label.copy).IsWorded := by
  have label {a : Label ν} (here : a.IsWorded) : a.copy.IsWorded := ⟨here.call, (by simp)⟩
  induction x with
  | leaf a => exact ⟨label worded.1, worded.2⟩
  | group a inner ih => exact ⟨label worded.1, worded.2.1, ih worded.2.2⟩
  | fork a left right ihl ihr => exact ⟨label worded.1, worded.2.1, ihl worded.2.2.1, ihr worded.2.2.2⟩

/-- The copy of a worded tree displays a worded tree. -/
theorem IsWorded.outline {x : Tree (Label ν)} (worded : x.IsWorded) :
    ∃ y : Tree (Label Empty), x.outline.Displays y ∧ y.IsWorded := by
  refine ⟨_, x.outline_displays, ?_⟩
  have copied := worded.copy
  generalize x.map Label.copy = y at copied
  cases y with
  | leaf a => exact ⟨⟨(by simp), copied.1.value⟩, copied.2⟩
  | group a inner => exact ⟨⟨(by simp), copied.1.value⟩, copied.2⟩
  | fork a left right => exact ⟨⟨(by simp), copied.1.value⟩, copied.2⟩

/-- A worded tree is written without an infinity or NaN. -/
theorem IsWorded.rendered {x : Tree (Label ν)} (worded : x.IsWorded) : x.rendered.IsDecent := by
  induction x with
  | leaf a => exact (isPart_leaf worded).decent
  | group a inner ih =>
    obtain ⟨label, ⟨opening, unary⟩, inside⟩ := worded
    have written : operatorRendered a inner inner.rendered Expression.unwritten = inner.rendered := by
      simp [operatorRendered, unary, isUnit, opening]
    exact isDecent_inner label (written.symm ▸ ih inside)
  | fork a left right ihl ihr =>
    obtain ⟨label, ⟨rank, spelled⟩, l, r⟩ := worded
    exact isDecent_inner label (isDecent_operator rank spelled (ihl l) (ihr r))

end Tree

end Stepwise
