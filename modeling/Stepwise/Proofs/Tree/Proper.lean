import Stepwise.Proofs.Tree.Written

/-! The trees that texts denote: brackets stand for second calls only, signs stand over a zero that
was put in for them, and a letter is found only in a term with its coefficient and its exponent. -/
namespace Stepwise

variable {ν : Type}

inductive Tree.Proper : Tree (Label ν) → Prop
  | leaf {a : Label ν} (plain : a.token.kind ≠ .letter) (unsigned : a.unary = false) : Proper (.leaf a)
  | group {a : Label ν} (bracket : a.token.kind = .opening) (called : a.call.isSome)
      (unsigned : a.unary = false)
      (inner : Proper x) : Proper (.group a x)
  | operator {a : Label ν} (unsigned : a.unary = false) (left : Proper x) (right : Proper y) :
      Proper (.fork a x y)
  | sign {a : Label ν} (kind : a.token.kind = .plus ∨ a.token.kind = .minus) (right : Proper y) :
      Proper (.fork a (.leaf { token := .inserted .number "0" }) y)
  | term {a : Label ν} {coefficient letter caret : Token} (product : a.token = .inserted .times "*")
      (unsigned : a.unary = false)
      (number : coefficient.kind = .number) (isLetter : letter.kind = .letter) (isCaret : caret.kind = .power)
      (exponent : Proper x) :
      Proper (.fork a (.leaf { token := coefficient })
      (.fork { token := caret } (.leaf { token := letter }) x))

def Waiting.Proper (w : Waiting (Label ν)) : Prop := ∀ ⦃y⦄, y.Proper → (Tree.fork w.1 w.2 y).Proper

namespace Tree.Proper

variable {x y : Tree (Label ν)} {token : Token}

theorem number (kind : token.kind = .number) : (Tree.leaf { token } : Tree (Label ν)).Proper :=
  .leaf (by simp [kind]) rfl

/-- A keyword changes no more than the label it is put on. -/
theorem called (keyword : Token) (proper : x.Proper) :
    (x.mapTop fun a => { a with call := some keyword }).Proper := by
  cases proper with
  | leaf plain unsigned => exact .leaf plain unsigned
  | group bracket _ unsigned inner => exact .group bracket rfl unsigned inner
  | operator unsigned left right => exact .operator unsigned left right
  | sign kind right => exact .sign kind right
  | term product unsigned number isLetter isCaret exponent =>
    exact .term product unsigned number isLetter isCaret exponent

theorem applyCall (call : Option Token) (proper : x.Proper) : (x.applyCall call).Proper := by
  cases call with
  | none => exact proper
  | some keyword =>
    rw [Tree.applyCall]
    split
    · exact .operator rfl proper (.operator rfl (.number rfl) (.number rfl))
    · split
      · exact .group rfl rfl rfl proper
      · exact proper.called keyword

theorem factorialFrom (proper : x.Proper) (k count : Nat) : (x.factorialFrom k count).Proper := by
  induction count generalizing x k with
  | zero => exact proper
  | succ count ih => exact ih (.operator rfl (.number rfl) proper) (k + 1)

theorem ofFactorial (kind : token.kind = .factorial) : (Tree.ofFactorial token : Tree (Label ν)).Proper := by
  unfold Tree.ofFactorial
  split
  · exact factorialFrom (.number rfl) 2 _
  · exact .leaf (by simp [kind]) rfl

theorem close {waiting : List (Waiting (Label ν))} (proper : ∀ w ∈ waiting, w.Proper) (last : x.Proper) :
    (Waiting.close waiting x).Proper := by
  induction waiting generalizing x with
  | nil => exact last
  | cons w outer ih =>
    obtain ⟨here, outer⟩ := List.forall_mem_cons.mp proper
    exact ih outer (here last)

theorem closeWhile {waiting : List (Waiting (Label ν))} (closes : Label ν → Bool)
    (proper : ∀ w ∈ waiting, w.Proper) (last : x.Proper) :
    (∀ w ∈ (Waiting.closeWhile closes waiting x).1, w.Proper) ∧
      (Waiting.closeWhile closes waiting x).2.Proper := by
  induction waiting generalizing x with
  | nil => exact ⟨proper, last⟩
  | cons w outer ih =>
    rw [Waiting.closeWhile]
    split
    · obtain ⟨here, outer⟩ := List.forall_mem_cons.mp proper
      exact ih outer (here last)
    · exact ⟨proper, last⟩

end Tree.Proper

structure Frame.Proper (frame : Frame ν) : Prop where
  waiting : ∀ w ∈ frame.waiting, w.Proper
  base : ∀ coefficient letter caret, frame.base = some (coefficient, letter, caret) →
    coefficient.kind = .number ∧ letter.kind = .letter ∧ caret.kind = .power

theorem Frame.Proper.bare {waiting : List (Waiting (Label ν))} (call : Option Token)
    (proper : ∀ w ∈ waiting, w.Proper) :
    Frame.Proper { waiting, call } :=
  ⟨proper, fun _ _ _ absurd => (by cases absurd)⟩

theorem Frame.Proper.fill {frame : Frame ν} {x : Tree (Label ν)} (proper : frame.Proper) (inner : x.Proper) :
    (frame.fill x).Proper := by
  obtain ⟨waiting, call, base⟩ := frame
  cases base with
  | none => exact inner.applyCall call
  | some base =>
    obtain ⟨coefficient, letter, caret⟩ := base
    obtain ⟨number, isLetter, isCaret⟩ := proper.base coefficient letter caret rfl
    exact Tree.Proper.applyCall call (.term rfl rfl number isLetter isCaret inner)

def Slot.Proper : Slot ν → Prop
  | .gap _ held => ∀ coefficient ∈ held, coefficient.kind = .number
  | .full x => x.Proper

/-- A run keeps the operators that wait proper, and ends with a proper tree. -/
theorem Run.proper {frames : List (Frame ν)} {waiting : List (Waiting (Label ν))} {slot : Slot ν}
    {tokens : List Token} {r : Tree (Label ν)} (run : Run frames waiting slot tokens r)
    (around : ∀ frame ∈ frames, frame.Proper) (before : ∀ w ∈ waiting, w.Proper)
    (here : slot.Proper) : r.Proper := by
  have free : Slot.Proper (.gap none none : Slot ν) := fun _ absurd => (by cases absurd)
  induction run with
  | finish _ => exact .close before here
  | number kind _ ih => exact ih around before (.number kind)
  | factorial kind _ ih => exact ih around before (.ofFactorial kind)
  | factor kind _ _ ih =>
    exact ih around
      (List.forall_mem_cons.mpr ⟨fun _ right => .operator rfl (.number kind) right, before⟩) free
  | negative _ _ _ ih => exact ih around before (.number rfl)
  | sign kind _ _ ih =>
    exact ih around (List.forall_mem_cons.mpr ⟨fun _ right => .sign kind right, before⟩) free
  | operator _ _ _ ih =>
    obtain ⟨outer, left⟩ := Tree.Proper.closeWhile _ before here
    exact ih around (List.forall_mem_cons.mpr ⟨fun _ right => .operator rfl left right, outer⟩) free
  | call _ _ ih => exact ih around before free
  | opening _ _ ih =>
    exact ih (List.forall_mem_cons.mpr ⟨.bare _ before, around⟩) (List.forall_mem_nil _) free
  | closing _ _ ih =>
    obtain ⟨frame, around⟩ := List.forall_mem_cons.mp around
    exact ih around frame.waiting (frame.fill (.close before here))
  | coefficient kind _ _ ih =>
    refine ih around before ?_
    rintro _ ⟨⟩
    exact kind
  | letter kind _ _ ih =>
    exact ih around before (.applyCall _ (.term rfl rfl (BuiltInto.number_held here) kind rfl (.number rfl)))
  | power kind isCaret digits _ ih =>
    exact ih around before
      (.applyCall _ (.term rfl rfl (BuiltInto.number_held here) kind isCaret (.number digits)))
  | raised kind isCaret _ _ ih =>
    refine ih (List.forall_mem_cons.mpr ⟨⟨before, ?_⟩, around⟩) (List.forall_mem_nil _) free
    rintro _ _ _ ⟨⟩
    exact ⟨BuiltInto.number_held here, kind, isCaret⟩

/-- What a text denotes is a proper tree. -/
theorem Tree.Proper.of_text {text : String} {x : Tree (Label ν)}
    (built : Tree.ofText text = .ok x) : x.Proper := by
  cases scanned : Token.scan text with
  | error error => simp [Tree.ofText, Token.ofText, scanned, Except.map] at built
  | ok tokens =>
    exact (run_of_text scanned built).proper (List.forall_mem_nil _) (List.forall_mem_nil _)
      fun _ absurd => (by cases absurd)

end Stepwise
