import Stepwise.Proofs.Phrase.Build
import Stepwise.Proofs.Tree.Core

/-! Reading the tokens of a phrase as they are written: a letter is an operand like any other, and
no implicit product is spelled out. Main statement: phrases that are written alike have the same
core. -/
namespace Stepwise

open Token (symbol inserted)

variable {ν : Type}

namespace Draft

/-- Takes a written token. What cannot stand where it does is left out. -/
def take (d : Draft (Label ν)) (token : Token) : Draft (Label ν) :=
  match token.kind with
  | .number | .factorial | .letter | .polynomial => d.attach (.leaf { token := token.unplaced })
  | .trig | .log | .sqrt | .diff => { d with level := { d.level with call := some token.unplaced } }
  | .opening => ⟨{}, d.level :: d.outer⟩
  | .closing =>
    match d.outer, d.level.tree? with
    | level :: outer, some x => attach ⟨level, outer⟩ (x.marked level.call)
    | _, _ => d
  | .equals | .plus | .minus | .times | .divide | .power =>
    match d.level.last with
    | none =>
      let sign : Waiting (Label ν) :=
        ({ token := token.unplaced, unary := true }, .leaf { token := inserted .number "0" })
      { d with level := { waiting := sign :: d.level.waiting } }
    | some x =>
      let (waiting, left) := Waiting.closeWhile (yields token) d.level.waiting x
      { d with level := { waiting := ({ token := token.unplaced }, left) :: waiting } }
  | .finish => d

variable {waiting : List (Waiting (Label ν))} {outer : List (Spine (Label ν))} {token : Token}
  {last : Tree (Label ν)}

theorem take_operand (kind : token.kind = .number ∨ token.kind = .factorial ∨ token.kind = .letter) :
    take ⟨{ waiting }, outer⟩ token =
      ⟨{ waiting, last := some (.leaf { token := token.unplaced }) }, outer⟩ := by
  rcases kind with h | h | h <;> simp [take, h, attach]

theorem take_call (call : token.kind.IsCall) :
    take ⟨{ waiting }, outer⟩ token = ⟨{ waiting, call := some token.unplaced }, outer⟩ := by
  rcases call with h | h | h | h <;> simp [take, h]

theorem take_opening {level : Spine (Label ν)} (opening : token.kind = .opening) :
    take ⟨level, outer⟩ token = ⟨{}, level :: outer⟩ := by
  simp [take, opening]

theorem take_closing {call : Option Token} {inside : List (Waiting (Label ν))}
    (closing : token.kind = .closing) :
    take ⟨{ waiting := inside, last := some last }, { waiting, call } :: outer⟩ token =
      ⟨{ waiting, last := some ((Waiting.close inside last).marked call) }, outer⟩ := by
  simp [take, closing, Spine.tree?, attach]

theorem take_sign (sign : token.kind = .plus ∨ token.kind = .minus) :
    take ⟨{ waiting }, outer⟩ token =
      ⟨{ waiting :=
        ({ token := token.unplaced, unary := true }, .leaf { token := inserted .number "0" }) ::
          waiting }, outer⟩ := by
  rcases sign with h | h <;> simp [take, h]

theorem take_operator (rank : token.kind.rank?.isSome) :
    take ⟨{ waiting, last := some last }, outer⟩ token =
      ⟨{ waiting := ({ token := token.unplaced }, (Waiting.closeWhile (yields token) waiting last).2) ::
        (Waiting.closeWhile (yields token) waiting last).1 }, outer⟩ := by
  unfold take
  cases kind : token.kind <;> rw [kind] at rank <;> simp [Token.Kind.rank?] at rank ⊢

end Draft

namespace Phrase

/-- No operator takes an operand that binds too loosely. The exponent of a letter is an operand like
any other. -/
def Fits : Phrase → Prop
  | number _ | factorial _ | letter _ => True
  | power _ _ | raised _ _ => False
  | call kind _ argument => kind.IsCall ∧ argument.Fits
  | bracket inner => inner.Fits
  | sign kind operand => (kind = .plus ∨ kind = .minus) ∧ 2 ≤ operand.tier ∧ operand.Fits
  | operator kind left right =>
    kind.rank?.isSome ∧ left.Fits ∧ right.Fits ∧ kind.leftTier ≤ left.tier ∧ kind.rightTier ≤ right.tier

/-- The tree of a phrase without places, brackets and hidden coefficients. -/
def core : Phrase → Tree (Label ν)
  | number digits => .leaf { token := inserted .number digits }
  | factorial digits => .leaf { token := inserted .factorial digits }
  | letter name => .leaf { token := inserted .letter name }
  | power name digits =>
    .fork { token := inserted .power "^" } (.leaf { token := inserted .letter name })
      (.leaf { token := inserted .number digits })
  | raised name exponent =>
    .fork { token := inserted .power "^" } (.leaf { token := inserted .letter name }) exponent.core
  | call kind keyword argument => argument.core.marked (some (inserted kind keyword))
  | bracket inner => inner.core
  | sign kind operand =>
    .fork { token := inserted kind kind.symbol.toString, unary := true }
      (.leaf { token := inserted .number "0" }) operand.core
  | operator kind left right => .fork { token := inserted kind kind.symbol.toString } left.core right.core

/-- Where an operand is expected, the tokens of the phrase put its tree there. Some of its operators
may still wait. -/
def ReadAnywhere (p : Phrase) (ν : Type) : Prop :=
  ∀ (position : Nat) (waiting : List (Waiting (Label ν))) (outer : List (Spine (Label ν))),
    Waiting.Admits p.tier waiting →
    ∃ added last, (∀ w ∈ added, w.Binds p.tier) ∧ Waiting.close added last = p.core ∧
      (p.tokens position).foldl Draft.take ⟨{ waiting }, outer⟩ =
      ⟨{ waiting := added ++ waiting, last := some last }, outer⟩

theorem read_operand {p : Phrase} {kind : Token.Kind}
    {text : String} (kinds : kind = .number ∨ kind = .factorial ∨ kind = .letter)
    (tokensEq : ∀ position, p.tokens position = [⟨kind, text, some position⟩])
    (coreEq : (p.core : Tree (Label ν)) = .leaf { token := inserted kind text }) :
    p.ReadAnywhere ν := by
  intro position waiting outer admits
  refine ⟨[], _, fun _ absurd => (by cases absurd), coreEq.symm, ?_⟩
  rw [tokensEq, List.foldl_cons, List.foldl_nil, Draft.take_operand kinds]
  rfl

/-- In a bracket the phrase is read by itself. -/
theorem read_inside {p : Phrase} (inside : p.ReadAnywhere ν) {opening closing : Token}
    (opens : opening.kind = .opening) (closes : closing.kind = .closing) (position : Nat)
    (waiting : List (Waiting (Label ν))) (call : Option Token) (outer : List (Spine (Label ν))) :
    (opening :: p.tokens position ++ [closing]).foldl Draft.take ⟨{ waiting, call }, outer⟩ =
      ⟨{ waiting, last := some (p.core.marked call) }, outer⟩ := by
  obtain ⟨added, last, -, whole, goes⟩ :=
    inside position [] ({ waiting, call } :: outer) fun _ absurd => (by cases absurd)
  rw [List.cons_append, List.foldl_cons, Draft.take_opening opens, List.foldl_append, goes,
    List.append_nil, List.foldl_cons, List.foldl_nil, Draft.take_closing closes, whole]

theorem read_sign {kind : Token.Kind} {operand : Phrase} (isSign : kind = .plus ∨ kind = .minus)
    (tight : 2 ≤ operand.tier) (inner : operand.ReadAnywhere ν) :
    (sign kind operand).ReadAnywhere ν := by
  intro position waiting outer admits
  have rank : kind.rank? = some 1 := by rcases isSign with rfl | rfl <;> rfl
  have free : Waiting.Admits operand.tier (({ token := (symbol kind position).unplaced, unary := true },
      .leaf { token := inserted .number "0" }) :: waiting : List (Waiting (Label ν))) := by
    intro w first
    obtain rfl := Option.some.inj first
    exact .inr ⟨1, rank, tight⟩
  obtain ⟨added, last, binds, whole, goes⟩ := inner (position + 1) _ outer free
  refine ⟨added ++ [({ token := (symbol kind position).unplaced, unary := true },
    .leaf { token := inserted .number "0" })], last, ?_, ?_, ?_⟩
  · intro w member
    rcases List.mem_append.mp member with member | member
    · exact (binds w member).mono (Nat.le_trans (show 1 ≤ 2 by decide) tight)
    · obtain rfl := List.mem_singleton.mp member
      exact ⟨1, rank, Nat.le_refl 1⟩
  · rw [Waiting.close_append, whole]
    rfl
  · rw [tokens, List.foldl_cons, Draft.take_sign isSign, goes, List.append_assoc]
    rfl

theorem read_operator {kind : Token.Kind} {left right : Phrase} (rank : kind.rank?.isSome)
    (fitl : kind.leftTier ≤ left.tier) (fitr : kind.rightTier ≤ right.tier)
    (first : left.ReadAnywhere ν) (second : right.ReadAnywhere ν) :
    (operator kind left right).ReadAnywhere ν := by
  intro position waiting outer admits
  obtain ⟨n, known⟩ := Option.isSome_iff_exists.mp rank
  have tierEq : (operator kind left right).tier = n := by simp [tier, known]
  rw [tierEq] at admits ⊢
  have lefts : n ≤ left.tier := by
    cases kind <;> simp [Token.Kind.rank?] at known <;> subst known <;>
      simp [Token.Kind.leftTier] at fitl <;> omega
  have rights : n < right.tier ∨ 3 ≤ right.tier := by
    cases kind <;> simp [Token.Kind.rank?] at known <;> subst known <;>
      simp [Token.Kind.rightTier] at fitr <;> omega
  have low : n ≤ right.tier := by
    cases kind <;> simp [Token.Kind.rank?] at known <;> subst known <;> omega
  let middle := position + left.width + (gap kind).length
  obtain ⟨addedl, lastl, bindsl, wholel, goesl⟩ := first position waiting outer (admits.mono lefts)
  have closed : Waiting.closeWhile (Draft.yields (symbol kind middle)) (addedl ++ waiting) lastl =
      (waiting, left.core) := by
    rw [Waiting.closeWhile_append fun w member =>
      Waiting.yields_of_binds rank fitl (bindsl w member) middle, wholel]
    exact Waiting.closeWhile_stop (fun w head => Waiting.not_yields_of_admits known admits middle head) _
  have free : Waiting.Admits right.tier (({ token := (symbol kind middle).unplaced }, left.core) ::
      waiting : List (Waiting (Label ν))) := by
    intro w head
    obtain rfl := Option.some.inj head
    rcases rights with less | large
    · exact .inr ⟨n, known, less⟩
    · exact .inl large
  obtain ⟨addedr, lastr, bindsr, wholer, goesr⟩ := second (middle + 1 + (gap kind).length) _ outer free
  refine ⟨addedr ++ [({ token := (symbol kind middle).unplaced }, left.core)], lastr, ?_, ?_, ?_⟩
  · intro w member
    rcases List.mem_append.mp member with member | member
    · exact (bindsr w member).mono low
    · obtain rfl := List.mem_singleton.mp member
      exact ⟨n, known, Nat.le_refl n⟩
  · rw [Waiting.close_append, wholer]
    rfl
  · have ranked : (symbol kind middle).kind.rank?.isSome := rank
    rw [tokens, List.foldl_append, goesl, List.foldl_cons, Draft.take_operator ranked, closed,
      goesr, List.append_assoc]
    rfl

/-- The tokens of a phrase are read as its core. -/
theorem readAnywhere {p : Phrase} (fits : p.Fits) : p.ReadAnywhere ν := by
  induction p with
  | number digits => exact read_operand (.inl rfl) (fun _ => rfl) rfl
  | factorial digits => exact read_operand (.inr (.inl rfl)) (fun _ => rfl) rfl
  | letter name => exact read_operand (.inr (.inr rfl)) (fun _ => rfl) rfl
  | power name digits => exact fits.elim
  | raised name exponent ih => exact fits.elim
  | call kind keyword argument ih =>
    intro position waiting outer admits
    refine ⟨[], _, fun _ absurd => (by cases absurd), rfl, ?_⟩
    have isCall : (⟨kind, keyword, some position⟩ : Token).kind.IsCall := fits.1
    have inside := read_inside (ih fits.2)
      (show (symbol .opening (position + keyword.toList.length)).kind = .opening from rfl)
      (show (symbol .closing (position + keyword.toList.length + 1 + argument.width)).kind =
      .closing from rfl) (position + keyword.toList.length + 1) waiting
      (some (inserted kind keyword)) outer
    rw [tokens, List.cons_append, List.foldl_cons, Draft.take_call isCall]
    exact inside
  | bracket inner ih =>
    intro position waiting outer admits
    exact ⟨[], _, fun _ absurd => (by cases absurd), rfl,
      read_inside (ih fits) rfl rfl (position + 1) waiting none outer⟩
  | sign kind operand ih => exact read_sign fits.1 fits.2.1 (ih fits.2.2)
  | operator kind left right ihl ihr =>
    exact read_operator fits.1 fits.2.2.2.1 fits.2.2.2.2 (ihl fits.2.1) (ihr fits.2.2.1)

/-- Phrases that are written alike have the same core. -/
theorem core_unique {p q : Phrase} (written : p.Spelled) (written' : q.Spelled) (fits : p.Fits)
    (fits' : q.Fits) (same : p.chars = q.chars) : (p.core : Tree (Label ν)) = q.core := by
  have width : p.width = q.width := congrArg List.length same
  have scanned := scan_chars written
  rw [same, scan_chars written', width] at scanned
  have tokens : q.tokens 0 = p.tokens 0 := List.append_cancel_right (Except.ok.inj scanned)
  obtain ⟨added, last, -, whole, goes⟩ :=
    readAnywhere fits 0 ([] : List (Waiting (Label ν))) [] fun _ absurd => (by cases absurd)
  obtain ⟨added', last', -, whole', goes'⟩ :=
    readAnywhere fits' 0 ([] : List (Waiting (Label ν))) [] fun _ absurd => (by cases absurd)
  rw [tokens, goes] at goes'
  rw [List.append_nil, List.append_nil] at goes'
  have level := congrArg Draft.level goes'
  have waiting : added = added' := congrArg Spine.waiting level
  have lastEq : some last = some last' := congrArg Spine.last level
  rw [← whole, ← whole', waiting, Option.some.inj lastEq]

end Phrase

end Stepwise
