import Stepwise.Matrix.Request
import Stepwise.Proofs.Matrix.Literal
import Stepwise.Proofs.Text.Cut
import Stepwise.Session.Entry

/-! Matrix requests as they are written. An operand is read from a factor, the name of an operation
and a matrix, and blanks around an operand do not count. Whatever is read as an operand holds one
closing bracket, and nothing but blanks behind it, so a request can tell where its first operand
ends. Main statement: the text of a request is read as the request that its parts make up. -/
namespace Stepwise.Matrix

open Text (isBlank trim trimList)
open Decimal (isFigure read?)

/-- What succeeds after a first part, succeeds because the first part did. -/
theorem exists_ok_of_bind {ε α β : Type} {first : Except ε α} {next : α → Except ε β} {b : β}
    (done : (first >>= next) = .ok b) :
    ∃ a, first = .ok a ∧ next a = .ok b := by
  cases first with
  | error e => cases done
  | ok a => exact ⟨a, rfl, done⟩

section Front

/-- What stands in front of a matrix: the name of an operation, if there is one, and before it the
factor and an asterisk, if there is one. Blanks may stand around each of the two. -/
inductive IsFront : List Char → Option UnaryOperation → Float → Prop
  | factored {factor code : List Char} {unary : Option UnaryOperation} {x : Float}
      (read : read? (trim (String.ofList factor)) = some x)
      (named : unaryOfText (String.ofList code) = .ok unary) :
      IsFront (factor ++ '*' :: code) unary x
  | bare {code : List Char} {unary : Option UnaryOperation}
      (named : unaryOfText (String.ofList code) = .ok unary) :
      IsFront code unary 1.0

variable {code code' front front' : List Char} {unary : Option UnaryOperation} {x : Float}

theorem unaryOfText_congr (same : trimList code' = trimList code) :
    unaryOfText (String.ofList code') = unaryOfText (String.ofList code) := by
  simp only [unaryOfText, UnaryOperation.ofText, trim, String.toList_ofList, same]

/-- The names of operations are words. -/
theorem figure_of_named (named : unaryOfText (String.ofList code) = .ok unary) :
    ∀ c ∈ trimList code, isFigure c := by
  have spelled : (trim (String.ofList code)).toList = trimList code := by
    rw [trim, String.toList_ofList, String.toList_ofList]
  rw [← spelled]
  unfold unaryOfText at named
  split at named
  · next none =>
    rw [String.isEmpty_iff.mp none]
    simp
  · unfold UnaryOperation.ofText at named
    split at named
    all_goals first | (next name => simp [name, isFigure]) | cases named

/-- Nothing in front of a matrix is a bracket. -/
theorem IsFront.spelled (isFront : IsFront front unary x) :
    ∀ c ∈ front, isFigure c ∨ isBlank c ∨ c = '*' := by
  have worded {code : List Char} {unary} (named : unaryOfText (String.ofList code) = .ok unary) :
      ∀ c ∈ code, isFigure c ∨ isBlank c ∨ c = '*' := fun c member =>
    (Text.mem_trimList_or_blank member).imp (figure_of_named named c) .inl
  cases isFront with
  | bare named => exact worded named
  | factored read named =>
    intro c member
    rcases List.mem_append.mp member with before | behind
    · refine (Text.mem_trimList_or_blank before).imp (fun member => ?_) .inl
      exact Decimal.figure_of_read read c (by simpa [trim] using member)
    · rcases List.mem_cons.mp behind with rfl | code
      · exact .inr (.inr rfl)
      · exact worded named c code

theorem IsFront.congr (isFront : IsFront front unary x) (same : trimList front' = trimList front) :
    IsFront front' unary x := by
  cases isFront with
  | bare named => exact .bare ((unaryOfText_congr same).trans named)
  | @factored factor code _ _ read named =>
    obtain ⟨factor', code', rfl, before, behind⟩ := Text.exists_mark (show isBlank '*' = false by decide) same
    refine .factored ?_ ((unaryOfText_congr (Text.trimList_of_rdropWhile behind)).trans named)
    rw [← read]
    simp only [trim, String.toList_ofList, Text.trimList_of_dropWhile before]

def splitFront (malformed : ComputationError) (front : String) : Except ComputationError (Float × String) :=
  match Text.cut? "*" front with
  | some (factor, code) =>
    match read? (trim factor) with
    | some x => .ok (x, code)
    | none => .error malformed
  | none => .ok (1.0, front)

theorem IsFront.not_mem {c : Char} (isFront : IsFront front unary x) (other : isFigure c = false)
    (dark : isBlank c = false) (mark : c ≠ '*') : c ∉ front := by
  intro member
  rcases isFront.spelled c member with figure | blank | same
  · simp [figure] at other
  · simp [blank] at dark
  · exact mark same

theorem asterisk_not_mem {text : List Char} (figures : ∀ c ∈ trimList text, isFigure c) :
    '*' ∉ text := fun member =>
  (Text.mem_trimList_or_blank member).elim (fun stays => absurd (figures _ stays) (by decide))
    (absurd · (by decide))

theorem splitFront_bare (malformed : ComputationError) (absent : '*' ∉ code) :
    splitFront malformed (String.ofList code) = .ok (1.0, String.ofList code) := by
  rw [splitFront, Text.cut_none (show "*".toList = '*' :: [] by decide) (by rwa [String.toList_ofList])]

theorem splitFront_factored (malformed : ComputationError) {factor : List Char}
    (absent : '*' ∉ factor) (code : List Char) :
    splitFront malformed (String.ofList (factor ++ '*' :: code)) =
      match read? (trim (String.ofList factor)) with
      | some x => .ok (x, String.ofList code)
      | none => .error malformed := by
  have joined : String.ofList (factor ++ '*' :: code) = String.ofList factor ++ "*" ++ String.ofList code :=
    String.ext (by simp)
  rw [splitFront, joined,
    Text.cut_mark (show "*".toList = '*' :: [] by decide) (by rwa [String.toList_ofList])]

/-- The factor is what stands before the first asterisk. -/
theorem isFront_iff (malformed : ComputationError) : IsFront front unary x ↔
    ∃ code, splitFront malformed (String.ofList front) = .ok (x, code) ∧ unaryOfText code = .ok unary := by
  constructor
  · intro isFront
    cases isFront with
    | bare named => exact ⟨_, splitFront_bare malformed (asterisk_not_mem (figure_of_named named)), named⟩
    | factored read named =>
      refine ⟨_, ?_, named⟩
      have figures := Decimal.figure_of_read read
      rw [trim, String.toList_ofList, String.toList_ofList] at figures
      rw [splitFront_factored malformed (asterisk_not_mem figures), read]
  · rintro ⟨code, split, named⟩
    by_cases present : '*' ∈ front
    · obtain ⟨factor, behind, rfl, absent⟩ := List.eq_append_cons_of_mem present
      rw [splitFront_factored malformed absent] at split
      split at split
      · next read =>
        obtain ⟨rfl, rfl⟩ := Prod.mk.inj (Except.ok.inj split)
        exact .factored read named
      · cases split
    · rw [splitFront_bare malformed present] at split
      obtain ⟨rfl, rfl⟩ := Prod.mk.inj (Except.ok.inj split)
      exact .bare named

end Front

namespace Operand

variable {operand : Operand} {text text' : String}

theorem ofText_eq (text : String) : Operand.ofText text =
    if (text.toList.dropWhile (· ≠ '[')).isEmpty then .error (.malformedLiteral .matrixOperand text)
    else do
      let (factor, code) ← splitFront (.malformedLiteral .matrixOperand text)
        (String.ofList (text.toList.takeWhile (· ≠ '[')))
      let unary ← unaryOfText code
      let matrix ← Matrix.ofText (String.ofList (text.toList.dropWhile (· ≠ '[')))
      return ⟨matrix, unary, factor⟩ := by
  unfold Operand.ofText splitFront
  simp only
  cases Text.cut? "*" (String.ofList (text.toList.takeWhile (· ≠ '['))) with
  | none => simp only
  | some cut =>
    simp only
    cases read? (trim cut.1) <;> simp only

/-- What is read as an operand is what stands in front of its first bracket, and the matrix. -/
theorem ofText_eq_ok_iff :
    Operand.ofText text = .ok operand ↔ ∃ front rest, text.toList = front ++ '[' :: rest ∧
    IsFront front operand.unary operand.factor ∧
      Matrix.ofText (String.ofList ('[' :: rest)) = .ok operand.matrix := by
  rw [ofText_eq]
  constructor
  · intro read
    split at read
    · cases read
    · next nonempty =>
      obtain ⟨⟨factor, code⟩, front, read⟩ := exists_ok_of_bind read
      obtain ⟨unary, named, read⟩ := exists_ok_of_bind read
      obtain ⟨matrix, literal, same⟩ := exists_ok_of_bind read
      obtain rfl := Except.ok.inj same
      have opened : text.toList.dropWhile (· ≠ '[') = '[' :: (text.toList.dropWhile (· ≠ '[')).tail := by
        have first := List.head?_dropWhile_not (· ≠ '[') text.toList
        cases shape : text.toList.dropWhile (· ≠ '[') with
        | nil => exact absurd (by rw [shape]; rfl) nonempty
        | cons c rest =>
          rw [shape] at first
          simpa using first
      refine ⟨_, _, ?_, (isFront_iff _).mpr ⟨code, front, named⟩, opened ▸ literal⟩
      rw [← opened, List.takeWhile_append_dropWhile]
  · rintro ⟨front, rest, split, isFront, read⟩
    have absent : ∀ c ∈ front, decide (c ≠ '[') := fun c member => decide_eq_true fun same =>
      isFront.not_mem (by decide) (by decide) (by decide) (same ▸ member)
    have before : text.toList.takeWhile (· ≠ '[') = front := by
      rw [split, List.takeWhile_append_of_pos absent]
      simp
    have behind : text.toList.dropWhile (· ≠ '[') = '[' :: rest := by
      rw [split, List.dropWhile_append_of_pos absent]
      simp
    obtain ⟨code, split, named⟩ := (isFront_iff (.malformedLiteral .matrixOperand text)).mp isFront
    simp only [before, behind, split, read, named, bind, Except.bind]
    rfl

theorem trimList_opened (rest : List Char) : trimList ('[' :: rest) = '[' :: rest.rdropWhile isBlank :=
  Text.trimList_mark (by decide) [] rest

/-- Blanks around an operand do not count. -/
theorem ofText_congr (read : Operand.ofText text = .ok operand)
    (same : trimList text'.toList = trimList text.toList) :
    Operand.ofText text' = .ok operand := by
  obtain ⟨front, rest, split, isFront, read⟩ := ofText_eq_ok_iff.mp read
  rw [split] at same
  obtain ⟨front', rest', split', before, behind⟩ := Text.exists_mark (show isBlank '[' = false by decide) same
  refine ofText_eq_ok_iff.mpr ⟨front', rest', split', isFront.congr (Text.trimList_of_dropWhile before),
    Matrix.ofText_congr ?_ read⟩
  rw [String.toList_ofList, String.toList_ofList, trimList_opened, trimList_opened, behind]

/-- The closing bracket of an operand is its last character but for blanks. -/
theorem exists_closing (read : Operand.ofText text = .ok operand) :
    ∃ before gap, text.toList = before ++ ']' :: gap ∧ ']' ∉ before ∧ ∀ c ∈ gap, isBlank c := by
  obtain ⟨front, rest, split, isFront, read⟩ := ofText_eq_ok_iff.mp read
  obtain ⟨body, trimmed, between⟩ := exists_body read
  rw [String.toList_ofList, trimList_opened] at trimmed
  have closed : rest = body ++ ']' :: rest.rtakeWhile isBlank := by
    conv_lhs => rw [← List.rdropWhile_append_rtakeWhile (p := isBlank) (l := rest), (List.cons.inj trimmed).2]
    simp
  refine ⟨front ++ '[' :: body, rest.rtakeWhile isBlank, ?_, ?_, fun c => List.mem_rtakeWhile_imp⟩
  · rw [split, List.append_assoc, List.cons_append, ← closed]
  · intro member
    rcases List.mem_append.mp member with before | inside
    · exact isFront.not_mem (by decide) (by decide) (by decide) before
    · rcases List.mem_cons.mp inside with same | within
      · cases same
      · exact absurd (between _ within) (by simp [IsBetween, isFigure, isBlank])

/-- An operand as it is written: a factor and an asterisk, the name of an operation, and the matrix.
The factor and the name may be left out. Blanks may stand around each part, as a factor is trimmed
before it is read, and a name and a matrix are trimmed in the reading. -/
inductive IsWritten : Operand → String → Prop
  | factored {factor code literal : String} {m : Matrix} {unary : Option UnaryOperation} {x : Float}
      (factor_read : read? (trim factor) = some x) (named : unaryOfText code = .ok unary)
      (read : Matrix.ofText literal = .ok m) :
      IsWritten ⟨m, unary, x⟩ (factor ++ "*" ++ code ++ literal)
  | bare {code literal : String} {m : Matrix} {unary : Option UnaryOperation}
      (named : unaryOfText code = .ok unary)
      (read : Matrix.ofText literal = .ok m) : IsWritten ⟨m, unary, 1.0⟩ (code ++ literal)

/-- The name of an operation takes the blanks before the matrix behind it. -/
theorem exists_opening {code literal : String} {m : Matrix} {unary : Option UnaryOperation}
    (named : unaryOfText code = .ok unary) (read : Matrix.ofText literal = .ok m) :
    ∃ front rest, code.toList ++ literal.toList = front ++ '[' :: rest ∧
      unaryOfText (String.ofList front) = .ok unary ∧
      Matrix.ofText (String.ofList ('[' :: rest)) = .ok m := by
  obtain ⟨body, trimmed, -⟩ := exists_body read
  obtain ⟨gap, back, gap_blank, back_blank, whole⟩ := Text.exists_gaps literal.toList
  rw [trimmed] at whole
  refine ⟨code.toList ++ gap, body ++ ']' :: back, by simp [whole], ?_, ?_⟩
  · rw [unaryOfText_congr (Text.trimList_append_gap gap_blank _), String.ofList_toList]
    exact named
  · have same : '[' :: (body ++ ']' :: back) = ('[' :: (body ++ [']'])) ++ back := by simp
    refine Matrix.ofText_congr ?_ read
    rw [String.toList_ofList, same, Text.trimList_append_gap back_blank, ← trimmed, Text.trimList_trimList]

/-- An operand is read from what is written for it. -/
theorem IsWritten.read (written : IsWritten operand text) : Operand.ofText text = .ok operand := by
  cases written with
  | bare named read =>
    obtain ⟨front, rest, split, named, read⟩ := exists_opening named read
    exact ofText_eq_ok_iff.mpr ⟨front, rest, by rw [String.toList_append, split], .bare named, read⟩
  | @factored factor _ _ _ _ _ factor_read named read =>
    obtain ⟨front, rest, split, named, read⟩ := exists_opening named read
    refine ofText_eq_ok_iff.mpr ⟨factor.toList ++ '*' :: front, rest, ?_, .factored ?_ named, read⟩
    · simp [split]
    · rw [String.ofList_toList, factor_read]

end Operand

def BinaryOperation.sign : BinaryOperation → Char
  | add => '+'
  | subtract => '-'
  | multiply => '*'

theorem BinaryOperation.ofText_sign (operation : BinaryOperation) :
    BinaryOperation.ofText operation.sign.toString = .ok operation := by
  cases operation <;> rfl

/-- A code that stands for an operation on one matrix: its name, or `N` for none. -/
def IsCode (code : String) (unary : Option UnaryOperation) : Prop :=
  unaryOfText code = .ok unary ∨ trim code = "N" ∧ unary = none

namespace Request

variable {first second : Operand} {before behind : String}

/-- The first operand ends with its closing bracket. -/
theorem ofText_append (read : Operand.ofText before = .ok first) (rest : List Char) :
    Request.ofText (before ++ String.ofList rest) = match trimList rest with
      | [] => .ok ⟨first, none⟩
      | operation :: rest => do
        let binary ← BinaryOperation.ofText operation.toString
        let second ← Operand.ofText (String.ofList rest)
        return ⟨first, some (binary, second)⟩ := by
  obtain ⟨front, gap, split, absent, blank⟩ := Operand.exists_closing read
  have kept : isBlank ']' = false := by decide
  have trimmed : trim (before ++ String.ofList rest) = String.ofList (front.dropWhile isBlank) ++ "]" ++
      String.ofList ((gap ++ rest).rdropWhile isBlank) := by
    have whole : (before ++ String.ofList rest).toList = front ++ ']' :: (gap ++ rest) := by simp [split]
    rw [trim, whole, Text.trimList_mark kept]
    exact String.ext (by simp)
  have absent' : ']' ∉ (String.ofList (front.dropWhile isBlank)).toList := by
    rw [String.toList_ofList]
    exact fun member => absent ((List.dropWhile_sublist _).subset member)
  have operand : Operand.ofText (String.ofList (front.dropWhile isBlank) ++ "]") = .ok first := by
    refine Operand.ofText_congr read ?_
    have closed : (String.ofList (front.dropWhile isBlank) ++ "]").toList =
        front.dropWhile isBlank ++ ']' :: [] := by
      simp
    rw [closed, split, Text.trimList_mark kept, Text.trimList_mark kept, Text.rdropWhile_all blank,
      List.dropWhile_idempotent, List.rdropWhile_nil]
  have remaining : trimList ((gap ++ rest).rdropWhile isBlank) = trimList rest := by
    rw [Text.trimList_rdropWhile, Text.trimList_gap_append blank]
  unfold Request.ofText
  simp only [trimmed, Text.cut_mark (show "]".toList = ']' :: [] by decide) absent', operand,
    String.toList_ofList, remaining]
  rfl

/-- The text of two operands and the sign between them is read as the request that they make up. -/
theorem ofText_sign (read : Operand.ofText before = .ok first) (read' : Operand.ofText behind = .ok second)
    (operation : BinaryOperation) :
    Request.ofText (before ++ operation.sign.toString ++ behind) = .ok ⟨first, some (operation, second)⟩ := by
  have whole : before ++ operation.sign.toString ++ behind =
      before ++ String.ofList (operation.sign :: behind.toList) :=
    String.ext (by simp)
  have trimmed : trimList (operation.sign :: behind.toList) =
      operation.sign :: behind.toList.rdropWhile isBlank :=
    Text.trimList_mark (by cases operation <;> decide) [] _
  have operand : Operand.ofText (String.ofList (behind.toList.rdropWhile isBlank)) = .ok second :=
    Operand.ofText_congr read' (by rw [String.toList_ofList, Text.trimList_rdropWhile])
  rw [whole, ofText_append read, trimmed]
  simp only [BinaryOperation.ofText_sign, operand]
  rfl

theorem ofText_single (read : Operand.ofText before = .ok first) :
    Request.ofText before = .ok ⟨first, none⟩ := by
  have whole := ofText_append read []
  rw [show String.ofList [] = "" from rfl, String.append_empty] at whole
  exact whole

theorem ofCodes_sign {code code' : String} (named : IsCode code first.unary)
    (named' : IsCode code' second.unary) (operation : BinaryOperation) :
    Request.ofCodes first.matrix (some second.matrix) (code, operation.sign.toString, code')
      (first.factor, second.factor) =
      .ok ⟨first, some (operation, second)⟩ := by
  have slot {code : String} {unary : Option UnaryOperation} (named : IsCode code unary) :
      (if trim code = "N" then .ok none else unaryOfText code :
      Except ComputationError (Option UnaryOperation)) = .ok unary := by
    rcases named with named | ⟨letter, rfl⟩
    · split
      · next letter =>
        have unknown : unaryOfText code = .error (.unknownMatrixOperator "N") := by
          unfold unaryOfText UnaryOperation.ofText
          rw [letter]
          rfl
        rw [unknown] at named
        cases named
      · exact named
    · rw [if_pos letter]
  unfold Request.ofCodes
  simp only [slot named, slot named', BinaryOperation.ofText_sign]
  rfl

theorem direct_outcome (input : String) (answer : Except ComputationError String) :
    (Computation.direct input answer).outcome = answer.mapError .computation := by
  cases answer <;> rfl

/-- A matrix request is trimmed, read and answered, and the answer is written. -/
theorem outcome_eq (input : String) : (Entry.compute .matrix input).outcome =
    ((Request.ofText input >>= Request.answer).map Matrix.text).mapError .computation := by
  have trimmed : Request.ofText (trim input) = Request.ofText input := by
    unfold Request.ofText
    rw [Text.trim_trim]
  simp only [Entry.compute, Computation.ofText, Computation.ofMatrices, direct_outcome, trimmed]
  cases Request.ofText input with
  | error e => rfl
  | ok request =>
    simp only [bind, Except.bind]
    cases request.answer <;> rfl

/-- The text of a request and its codes make the same request, which has one answer. -/
theorem ofText_eq_ofCodes (written : first.IsWritten before) (written' : second.IsWritten behind)
    (operation : BinaryOperation) {code code' : String} (named : IsCode code first.unary)
    (named' : IsCode code' second.unary) :
    Request.ofText (before ++ operation.sign.toString ++ behind) = .ok ⟨first, some (operation, second)⟩ ∧
      Request.ofCodes first.matrix (some second.matrix) (code, operation.sign.toString, code')
      (first.factor, second.factor) =
        .ok ⟨first, some (operation, second)⟩ ∧
      (Entry.compute .matrix (before ++ operation.sign.toString ++ behind)).outcome =
        ((Request.ofCodes first.matrix (some second.matrix) (code, operation.sign.toString, code')
          (first.factor, second.factor) >>= Request.answer).map Matrix.text).mapError .computation := by
  have read := ofText_sign written.read written'.read operation
  have made := ofCodes_sign named named' operation
  refine ⟨read, made, ?_⟩
  rw [outcome_eq, read, made]

theorem ofText_eq_ofCodes_spaced :
    ∃ m m', Matrix.ofText "[1,2;3,4]" = .ok m ∧ Matrix.ofText " [1,0;0,1] " = .ok m' ∧
    Request.ofText "2 * I[1,2;3,4] - -0.5* [1,0;0,1] " =
      .ok ⟨⟨m, some .inverse, 2.0⟩, some (.subtract, ⟨m', none, -0.5⟩)⟩ ∧
    Request.ofCodes m (some m') ("I", "-", "N") (2.0, -0.5) =
      .ok ⟨⟨m, some .inverse, 2.0⟩, some (.subtract, ⟨m', none, -0.5⟩)⟩ ∧
    (Entry.compute .matrix "2 * I[1,2;3,4] - -0.5* [1,0;0,1] ").outcome =
      ((Request.ofCodes m (some m') ("I", "-", "N") (2.0, -0.5) >>= Request.answer).map
      Matrix.text).mapError .computation := by
  have present (literal : String) (read : (Matrix.ofText literal).toOption.isSome) :
      ∃ m, Matrix.ofText literal = .ok m := by
    cases shape : Matrix.ofText literal with
    | error e => simp [shape, Except.toOption] at read
    | ok m => exact ⟨m, rfl⟩
  obtain ⟨m, read⟩ := present "[1,2;3,4]" (by decide +kernel)
  obtain ⟨m', read'⟩ := present " [1,0;0,1] " (by decide +kernel)
  have spaced : Matrix.ofText "[1,2;3,4] " = .ok m := Matrix.ofText_congr (by decide) read
  have text : "2 * I[1,2;3,4] - -0.5* [1,0;0,1] " =
      "2 " ++ "*" ++ " I" ++ "[1,2;3,4] " ++ BinaryOperation.subtract.sign.toString ++
      (" -0.5" ++ "*" ++ "" ++ " [1,0;0,1] ") := by
    decide
  have left : Operand.IsWritten ⟨m, some .inverse, 2.0⟩ ("2 " ++ "*" ++ " I" ++ "[1,2;3,4] ") :=
    .factored (by decide +kernel) rfl spaced
  have right : Operand.IsWritten ⟨m', none, -0.5⟩ (" -0.5" ++ "*" ++ "" ++ " [1,0;0,1] ") :=
    .factored (by decide +kernel) rfl read'
  rw [text]
  exact ⟨m, m', read, read', ofText_eq_ofCodes left right .subtract (.inl rfl) (.inr ⟨rfl, rfl⟩)⟩

end Request

end Stepwise.Matrix
