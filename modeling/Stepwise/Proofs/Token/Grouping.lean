import Stepwise.Proofs.Token.Spelling

/-! Spelling out implicit products from left to right. Main statement: the grouping puts out its tokens
one after the other, and holds back no more than a number that may turn out to be a coefficient. -/
namespace Stepwise.Token

def openedTerm (coefficient letter : Token) : List Token :=
  [inserted .opening "(", coefficient, inserted .times "*", letter]

def unitExponent : List Token := [inserted .power "^", inserted .number "1", inserted .closing ")"]

/-- The exponent of a letter that `rest` follows: the tokens put out for it, the depths at which exponents
then end, and what is left of `rest`. -/
def takenExponent (depth : Nat) (waiting : List Nat) (rest : List Token) :
    List Token × List Nat × List Token :=
  match rest with
  | caret :: exponent :: after =>
    if caret.kind = .power ∧ exponent.kind = .number then
      ([caret, exponent, inserted .closing ")"], waiting, after)
    else if caret.kind = .power ∧ exponent.kind = .opening then ([caret], depth :: waiting, exponent :: after)
    else (unitExponent, waiting, rest)
  | _ => (unitExponent, waiting, rest)

theorem length_takenExponent (depth : Nat) (waiting : List Nat) (rest : List Token) :
    (takenExponent depth waiting rest).2.2.length ≤ rest.length := by
  unfold takenExponent
  repeat' split
  all_goals simp
  all_goals omega

/-- The depths at which exponents end behind a bracket that closes, and the bracket that it closes with it. -/
def endedExponent (depth : Nat) (waiting : List Nat) : List Nat × List Token :=
  match waiting with
  | next :: outer => if next = depth then (outer, [inserted .closing ")"]) else (waiting, [])
  | [] => ([], [])

theorem endedExponent_brackets (depth : Nat) (waiting : List Nat) :
    (endedExponent depth waiting).2 = [] ∨ (endedExponent depth waiting).2 = [inserted .closing ")"] := by
  unfold endedExponent
  split
  · split
    · exact .inr rfl
    · exact .inl rfl
  · exact .inl rfl

/-- The tokens with their implicit products spelled out, behind the number that is held back. Exponents end
where a bracket closes at a depth in `waiting`. -/
def spelledOut (depth : Nat) (waiting : List Nat) (held : Option Token) (tokens : List Token) : List Token :=
  match tokens with
  | [] => held.toList
  | token :: rest =>
    if token.kind = .letter then
      let taken := takenExponent depth waiting rest
      openedTerm (held.getD (inserted .number "1")) token ++ taken.1 ++
        spelledOut depth taken.2.1 none taken.2.2
    else if token.kind = .number then held.toList ++ spelledOut depth waiting (some token) rest
    else if token.kind.IsCall then
      held.toList ++ (held.map fun _ => inserted .times "*").toList ++ token ::
        spelledOut depth waiting none rest
    else if token.kind = .opening then held.toList ++ token :: spelledOut (depth + 1) waiting none rest
    else if token.kind = .closing then
      let ended := endedExponent (depth - 1) waiting
      held.toList ++ token :: ended.2 ++ spelledOut (depth - 1) ended.1 none rest
    else held.toList ++ token :: spelledOut depth waiting none rest
termination_by tokens.length
decreasing_by
  · exact Nat.lt_succ_of_le (length_takenExponent ..)
  all_goals simp

namespace Grouping

structure Holds (g : Grouping) (held : Option Token) (before : List Token) : Prop where
  out : g.out = held.toList ++ before
  number : ∀ token, held = some token → token.kind = .number
  other : held = none → ∀ token, before.head? = some token → token.kind ≠ .number

variable {g : Grouping} {held : Option Token} {before : List Token}

/-- Nothing is held back behind a token that is no number. -/
theorem Holds.other_last {token : Token} (out : g.out = token :: before) (other : token.kind ≠ .number) :
    g.Holds none (token :: before) :=
  ⟨out, fun _ absurd => (by cases absurd), fun _ _ first => Option.some.inj first ▸ other⟩

theorem Holds.openGroup (holds : g.Holds held before) (letter : Token) :
    (g.openGroup letter).out.reverse =
    before.reverse ++ openedTerm (held.getD (inserted .number "1")) letter := by
  unfold Grouping.openGroup
  rw [holds.out]
  cases held with
  | some token => simp [holds.number token rfl, openedTerm]
  | none =>
    cases before with
    | nil => simp [openedTerm]
    | cons last before => simp [holds.other rfl last rfl, openedTerm]

theorem Holds.takeExponent (g : Grouping) (rest : List Token) :
    (g.takeExponent rest).1.out.reverse = g.out.reverse ++ (takenExponent g.depth g.waiting rest).1 ∧
      (g.takeExponent rest).1.depth = g.depth ∧
      (g.takeExponent rest).1.waiting = (takenExponent g.depth g.waiting rest).2.1 ∧
      (g.takeExponent rest).2 = (takenExponent g.depth g.waiting rest).2.2 ∧
      (g.takeExponent rest).1.Holds none (g.takeExponent rest).1.out := by
  have closed (h : Grouping) : h.closeGroup.Holds none h.closeGroup.out := Holds.other_last rfl (by decide)
  have unit : (g.unitExponent.closeGroup).out.reverse = g.out.reverse ++ Token.unitExponent := by
    simp [Grouping.put, closeGroup, Grouping.unitExponent, Token.unitExponent]
  match rest with
  | [] => exact ⟨unit, rfl, rfl, rfl, closed _⟩
  | [caret] => exact ⟨unit, rfl, rfl, rfl, closed _⟩
  | caret :: exponent :: after =>
    simp only [Grouping.takeExponent, takenExponent]
    by_cases number : caret.kind = .power ∧ exponent.kind = .number
    · rw [if_pos number, if_pos number]
      exact ⟨by simp [Grouping.put, closeGroup], rfl, rfl, rfl, closed _⟩
    · rw [if_neg number, if_neg number]
      by_cases opening : caret.kind = .power ∧ exponent.kind = .opening
      · rw [if_pos opening, if_pos opening]
        refine ⟨by simp [Grouping.put], rfl, rfl, rfl, rfl, fun _ absurd => (by cases absurd),
          fun _ token first => ?_⟩
        obtain rfl := Option.some.inj first
        simp [opening.1]
      · rw [if_neg opening, if_neg opening]
        exact ⟨unit, rfl, rfl, rfl, closed _⟩

theorem openGroup_depth (g : Grouping) (letter : Token) :
    (g.openGroup letter).depth = g.depth ∧ (g.openGroup letter).waiting = g.waiting := by
  constructor <;> rfl

theorem closeBracket_eq (g : Grouping) (bracket : Token) :
    (g.closeBracket bracket).out.reverse =
        g.out.reverse ++ bracket :: (endedExponent (g.depth - 1) g.waiting).2 ∧
      (g.closeBracket bracket).depth = g.depth - 1 ∧
      (g.closeBracket bracket).waiting = (endedExponent (g.depth - 1) g.waiting).1 ∧
      (bracket.kind ≠ .number → (g.closeBracket bracket).Holds none (g.closeBracket bracket).out) := by
  obtain ⟨out, depth, waiting⟩ := g
  cases waiting with
  | nil =>
    exact ⟨by simp [closeBracket, Grouping.put, endedExponent], rfl, rfl,
      fun other => Holds.other_last rfl other⟩
  | cons next outer =>
    simp only [closeBracket, endedExponent]
    by_cases ends : next = depth - 1
    · rw [if_pos ends, if_pos ends]
      exact ⟨by simp [closeGroup, Grouping.put], rfl, rfl, fun _ => Holds.other_last rfl (by decide)⟩
    · rw [if_neg ends, if_neg ends]
      exact ⟨by simp [Grouping.put], rfl, rfl, fun other => Holds.other_last rfl other⟩

/-- The grouping goes on by spelling out what is left. -/
theorem run_eq (holds : g.Holds held before) (tokens : List Token) :
    g.run tokens = before.reverse ++ spelledOut g.depth g.waiting held tokens := by
  fun_induction run g tokens generalizing held before with
  | case1 g =>
    rw [spelledOut, holds.out]
    cases held <;> simp
  | case2 g token rest letter ended =>
    rename_i ih
    obtain ⟨out, depth, waiting, left, next⟩ := Holds.takeExponent (g.openGroup token) rest
    obtain ⟨same, same'⟩ := openGroup_depth g token
    rw [same, same'] at out waiting left
    rw [ih next, out, holds.openGroup, depth, waiting, left, same, spelledOut, if_pos letter]
    simp only [List.append_assoc]
  | case3 g token rest letter ih =>
    rw [spelledOut, if_neg letter]
    by_cases number : token.kind = .number
    · have put : g.putOther token = g.put token := by simp [putOther, number, Kind.IsCall]
      have next : (g.put token).Holds (some token) g.out :=
        ⟨rfl, fun _ same => Option.some.inj same ▸ number, fun absurd => (by cases absurd)⟩
      rw [put] at ih ⊢
      rw [ih next, if_pos number, holds.out]
      cases held <;> simp [Grouping.put]
    · rw [if_neg number]
      by_cases call : token.kind.IsCall
      · rw [if_pos call]
        have put : g.putOther token = g.putCall token := by simp [putOther, call]
        rw [put] at ih ⊢
        cases held with
        | some coefficient =>
          have here : g.out = coefficient :: before := holds.out
          have factor : g.putCall token = (g.put (inserted .times "*")).put token := by
            simp [putCall, here, holds.number coefficient rfl]
          rw [factor] at ih ⊢
          rw [ih (Holds.other_last rfl number)]
          simp [Grouping.put, here]
        | none =>
          have here : g.out = before := holds.out
          have alone : g.putCall token = g.put token := by
            unfold putCall
            rw [here]
            split
            · next last _ => simp [holds.other rfl last rfl]
            · rfl
          rw [alone] at ih ⊢
          rw [ih (Holds.other_last rfl number)]
          simp [Grouping.put, here]
      · rw [if_neg call]
        by_cases opening : token.kind = .opening
        · rw [if_pos opening]
          have put : g.putOther token = g.openBracket token := by simp [putOther, opening, Kind.IsCall]
          rw [put] at ih ⊢
          rw [ih (Holds.other_last rfl number), holds.out]
          cases held <;> simp [Grouping.put, openBracket]
        · rw [if_neg opening]
          by_cases closing : token.kind = .closing
          · rw [if_pos closing]
            have put : g.putOther token = g.closeBracket token := by simp [putOther, closing, Kind.IsCall]
            obtain ⟨out, depth, waiting, next⟩ := closeBracket_eq g token
            rw [put] at ih ⊢
            rw [ih (next number), out, depth, waiting, holds.out]
            cases held <;> simp
          · rw [if_neg closing]
            have put : g.putOther token = g.put token := by simp [putOther, call, opening, closing]
            rw [put] at ih ⊢
            rw [ih (Holds.other_last rfl number), holds.out]
            cases held <;> simp [Grouping.put]

end Grouping

theorem groupProducts_eq (tokens : List Token) : groupProducts tokens = spelledOut 0 [] none tokens := by
  have start : ({} : Grouping).Holds none [] :=
    ⟨rfl, fun _ absurd => (by cases absurd), fun _ _ absurd => (by cases absurd)⟩
  exact Grouping.run_eq start tokens

/-- A letter is followed by a caret, and the sign of an implicit product by a letter or a keyword. -/
structure Allows (token : Token) (next : Option Token) : Prop where
  letter : token.kind = .letter → ∃ caret, next = some caret ∧ caret.kind = .power
  product : token.kind = .times → token.isInserted → ∃ factor, next = some factor ∧
    (factor.kind = .letter ∨ factor.kind.IsCall)

def Chained : List Token → Prop
  | [] => True
  | token :: rest => token.Allows rest.head? ∧ Chained rest

theorem Chained.free {rest : List Token} (chained : Chained rest) (token : Token)
    (letter : token.kind ≠ .letter) (product : token.kind ≠ .times ∨ token.isInserted = false) :
    Chained (token :: rest) := by
  refine ⟨⟨fun same => absurd same letter, fun times isInserted => ?_⟩, chained⟩
  rcases product with other | written
  · exact absurd times other
  · simp [isInserted] at written

theorem Chained.drop {tokens : List Token} (chained : Chained tokens) (count : Nat) :
    Chained (tokens.drop count) := by
  induction count generalizing tokens with
  | zero => exact chained
  | succ count ih =>
    cases tokens with
    | nil => exact chained
    | cons token rest => exact ih chained.2

theorem Chained.openedTerm {coefficient letter caret : Token}
    {rest : List Token} (chained : Chained (caret :: rest)) (number : coefficient.kind = .number)
    (isLetter : letter.kind = .letter) (power : caret.kind = .power) :
    Chained (openedTerm coefficient letter ++ caret :: rest) := by
  have raised : Chained (letter :: caret :: rest) :=
    ⟨⟨fun _ => ⟨caret, rfl, power⟩, fun times => by simp [isLetter] at times⟩, chained⟩
  have product : Chained (inserted .times "*" :: letter :: caret :: rest) :=
    ⟨⟨fun same => by simp [inserted] at same, fun _ _ => ⟨letter, rfl, .inl isLetter⟩⟩, raised⟩
  have factor : Chained (coefficient :: inserted .times "*" :: letter :: caret :: rest) :=
    product.free coefficient (by simp [number]) (.inl (by simp [number]))
  exact factor.free _ (by decide) (.inl (by decide))

theorem takenExponent_chained {coefficient letter : Token} (number : coefficient.kind = .number)
    (isLetter : letter.kind = .letter) (depth : Nat) (waiting : List Nat) (rest : List Token)
    {more : List Token} (chained : Chained more) :
    Chained (Token.openedTerm coefficient letter ++ (takenExponent depth waiting rest).1 ++ more) := by
  have closed : Chained (inserted .closing ")" :: more) := chained.free _ (by decide) (.inl (by decide))
  have unit : Chained (unitExponent ++ more) :=
    (closed.free (inserted .number "1") (by decide) (.inl (by decide))).free _ (by decide) (.inl (by decide))
  rw [List.append_assoc]
  unfold takenExponent
  split
  · next caret exponent after =>
    split
    · next power =>
      have raised := closed.free exponent (by simp [power.2]) (.inl (by simp [power.2]))
      exact (raised.free caret (by simp [power.1]) (.inl (by simp [power.1]))).openedTerm number
        isLetter power.1
    · split
      · next power =>
        exact (chained.free caret (by simp [power.1]) (.inl (by simp [power.1]))).openedTerm number
          isLetter power.1
      · exact unit.openedTerm number isLetter rfl
  · exact unit.openedTerm number isLetter rfl

theorem takenExponent_subset (depth : Nat) (waiting : List Nat) (rest : List Token) {token : Token}
    (member : token ∈ (takenExponent depth waiting rest).2.2) : token ∈ rest := by
  unfold takenExponent at member
  split at member
  · split at member
    · exact List.mem_cons_of_mem _ (List.mem_cons_of_mem _ member)
    · split at member
      · exact List.mem_cons_of_mem _ member
      · exact member
  · exact member

theorem Chained.held {held : Option Token} {rest : List Token} (chained : Chained rest)
    (number : ∀ token, held = some token → token.kind = .number) : Chained (held.toList ++ rest) := by
  cases held with
  | none => exact chained
  | some token => exact chained.free token (by simp [number token rfl]) (.inl (by simp [number token rfl]))

/-- The tokens of implicit products come in order. -/
theorem spelledOut_chained {depth : Nat} {waiting : List Nat} {held : Option Token}
    {tokens : List Token} (written : ∀ token ∈ tokens, token.isInserted = false)
    (number : ∀ token, held = some token → token.kind = .number) :
    Chained (spelledOut depth waiting held tokens) := by
  have nothing (token : Token) (absurd : none = some token) : token.kind = .number := by cases absurd
  fun_induction spelledOut depth waiting held tokens with
  | case1 depth waiting held =>
    have nil : Chained [] := trivial
    simpa using nil.held number
  | case2 depth waiting held token rest letter taken =>
    rename_i ih
    have coefficient : (held.getD (inserted .number "1")).kind = .number := by
      cases held with
      | none => rfl
      | some token => exact number token rfl
    exact takenExponent_chained coefficient letter depth waiting rest
      (ih (fun t member =>
      written t (List.mem_cons_of_mem _ (takenExponent_subset depth waiting rest member))) nothing)
  | case3 depth waiting held token rest letter isNumber ih =>
    refine Chained.held (ih (fun t member => written t (List.mem_cons_of_mem _ member)) ?_) number
    intro t same
    exact Option.some.inj same ▸ isNumber
  | case4 depth waiting held token rest letter isNumber call ih =>
    have later := ih (fun t member => written t (List.mem_cons_of_mem _ member)) nothing
    have keyword : Chained (token :: spelledOut depth waiting none rest) :=
      later.free token letter (.inr (written token (List.mem_cons_self ..)))
    cases held with
    | none => exact keyword
    | some coefficient =>
      have product : Chained (inserted .times "*" :: token :: spelledOut depth waiting none rest) :=
        ⟨⟨fun same => by simp [inserted] at same, fun _ _ => ⟨token, rfl, .inr call⟩⟩, keyword⟩
      exact product.held number
  | case5 depth waiting held token rest letter isNumber call opening ih =>
    have later := ih (fun t member => written t (List.mem_cons_of_mem _ member)) nothing
    exact (later.free token letter (.inr (written token (List.mem_cons_self ..)))).held number
  | case6 depth waiting held token rest letter isNumber call opening closing ended =>
    rename_i ih
    have later := ih (fun t member => written t (List.mem_cons_of_mem _ member)) nothing
    have behind : Chained (ended.2 ++ spelledOut (depth - 1) ended.1 none rest) := by
      rcases endedExponent_brackets (depth - 1) waiting with alone | closed
      · rw [alone]
        exact later
      · rw [closed]
        exact later.free _ (by decide) (.inl (by decide))
    rw [List.append_assoc]
    exact (behind.free token letter (.inr (written token (List.mem_cons_self ..)))).held number
  | case7 depth waiting held token rest letter isNumber call opening closing ih =>
    have later := ih (fun t member => written t (List.mem_cons_of_mem _ member)) nothing
    exact (later.free token letter (.inr (written token (List.mem_cons_self ..)))).held number

/-- The tokens that spell out an implicit product are spelled as their kinds ask for. -/
theorem inserted_spelled : (inserted .opening "(").Spelled ∧ (inserted .closing ")").Spelled ∧
    (inserted .times "*").Spelled ∧ (inserted .power "^").Spelled ∧ (inserted .number "1").Spelled := by
  refine ⟨rfl, rfl, rfl, rfl, .whole (by decide) ?_⟩
  intro c member
  obtain rfl : c = '1' := by simpa [inserted] using member
  rfl

theorem takenExponent_spelled (depth : Nat) (waiting : List Nat) {rest : List Token}
    (spelled : ∀ token ∈ rest, token.Spelled) :
    ∀ token ∈ (takenExponent depth waiting rest).1, token.Spelled := by
  obtain ⟨_, closing, _, power, one⟩ := inserted_spelled
  have unit : ∀ token ∈ unitExponent, token.Spelled := by
    simpa only [unitExponent, List.forall_mem_cons] using ⟨power, one, closing,
      fun _ member => absurd member List.not_mem_nil⟩
  unfold takenExponent
  split
  · simp only [List.forall_mem_cons] at spelled
    split
    · simpa only [List.forall_mem_cons] using ⟨spelled.1, spelled.2.1, closing,
        fun _ member => absurd member List.not_mem_nil⟩
    · split
      · simpa only [List.forall_mem_cons] using ⟨spelled.1, fun _ member => absurd member List.not_mem_nil⟩
      · exact unit
  · exact unit

/-- Spelling out implicit products keeps the tokens spelled as their kinds ask for. -/
theorem spelledOut_spelled {depth : Nat} {waiting : List Nat} {held : Option Token} {tokens : List Token}
    (spelled : ∀ token ∈ tokens, token.Spelled) (before : ∀ token ∈ held.toList, token.Spelled) :
    ∀ token ∈ spelledOut depth waiting held tokens, token.Spelled := by
  obtain ⟨opening, closing, times, _, one⟩ := inserted_spelled
  have nothing : ∀ token ∈ (none : Option Token).toList, token.Spelled := fun _ absurd => (by cases absurd)
  have joined {first second : List Token} (left : ∀ token ∈ first, token.Spelled)
      (right : ∀ token ∈ second, token.Spelled) :
      ∀ token ∈ first ++ second, token.Spelled := fun token member =>
    (List.mem_append.mp member).elim (left token) (right token)
  fun_induction spelledOut depth waiting held tokens with
  | case1 depth waiting held => exact before
  | case2 depth waiting held token rest letter taken =>
    rename_i ih
    obtain ⟨here, others⟩ := List.forall_mem_cons.mp spelled
    have coefficient : (held.getD (inserted .number "1")).Spelled := by
      cases held with
      | none => exact one
      | some token => exact before token (List.mem_cons_self ..)
    have opened : ∀ t ∈ openedTerm (held.getD (inserted .number "1")) token, t.Spelled := by
      simpa only [openedTerm, List.forall_mem_cons] using
        ⟨opening, coefficient, times, here, fun _ member => absurd member List.not_mem_nil⟩
    exact joined (joined opened (takenExponent_spelled depth waiting others))
      (ih (fun t member => others t (takenExponent_subset depth waiting rest member)) nothing)
  | case3 depth waiting held token rest letter number ih =>
    obtain ⟨here, others⟩ := List.forall_mem_cons.mp spelled
    exact joined before (ih others fun t member => List.mem_singleton.mp member ▸ here)
  | case4 depth waiting held token rest letter number call ih =>
    obtain ⟨here, others⟩ := List.forall_mem_cons.mp spelled
    have product : ∀ t ∈ (held.map fun _ => inserted .times "*").toList, t.Spelled := by
      cases held with
      | none => exact nothing
      | some _ => exact fun t member => List.mem_singleton.mp member ▸ times
    exact joined (joined before product) (List.forall_mem_cons.mpr ⟨here, ih others nothing⟩)
  | case5 depth waiting held token rest letter number call notOpening ih =>
    obtain ⟨here, others⟩ := List.forall_mem_cons.mp spelled
    exact joined before (List.forall_mem_cons.mpr ⟨here, ih others nothing⟩)
  | case6 depth waiting held token rest letter number call notOpening notClosing ended =>
    rename_i ih
    obtain ⟨here, others⟩ := List.forall_mem_cons.mp spelled
    have brackets : ∀ t ∈ ended.2, t.Spelled := by
      intro t member
      rcases endedExponent_brackets (depth - 1) waiting with alone | closed
      · exact absurd (alone ▸ member) List.not_mem_nil
      · exact List.mem_singleton.mp (closed ▸ member) ▸ closing
    exact joined (joined before (List.forall_mem_cons.mpr ⟨here, brackets⟩)) (ih others nothing)
  | case7 depth waiting held token rest letter number call notOpening notClosing ih =>
    obtain ⟨here, others⟩ := List.forall_mem_cons.mp spelled
    exact joined before (List.forall_mem_cons.mpr ⟨here, ih others nothing⟩)

/-- The tokens that an expression is built from. -/
theorem ofText_spelled {text : String} {tokens : List Token} (read : ofText text = .ok tokens) :
    Chained tokens ∧ ∀ token ∈ tokens, token.Spelled := by
  unfold ofText at read
  cases scanned : scan text with
  | error error => simp [scanned, Except.map] at read
  | ok written =>
    rw [scanned] at read
    obtain rfl := Except.ok.inj read
    rw [groupProducts_eq]
    constructor
    · exact spelledOut_chained (fun token member => (scan_from scanned token member).written)
        (fun _ absurd => by cases absurd)
    · exact spelledOut_spelled (fun token member => (scan_from scanned token member).spelled)
        (fun _ member => absurd member List.not_mem_nil)

def IsPlain (token : Token) : Prop := token.kind ≠ .letter ∧ ¬ token.kind.IsCall

theorem spelledOut_plain {tokens : List Token} (plain : ∀ token ∈ tokens, token.IsPlain) (depth : Nat)
    (held : Option Token) : spelledOut depth [] held tokens = held.toList ++ tokens := by
  induction tokens generalizing depth held with
  | nil => simp [spelledOut]
  | cons token rest ih =>
    obtain ⟨letter, call⟩ := plain token (List.mem_cons_self ..)
    have later := ih fun t member => plain t (List.mem_cons_of_mem _ member)
    rw [spelledOut, if_neg letter, if_neg call]
    simp only [endedExponent, later]
    repeat' split
    all_goals simp

/-- Tokens without letters and keywords are left as they are. -/
theorem groupProducts_plain {tokens : List Token} (plain : ∀ token ∈ tokens, token.IsPlain) :
    groupProducts tokens = tokens := by
  rw [groupProducts_eq, spelledOut_plain plain]
  rfl

/-- Tokens of a text in which no implicit product is spelled out. -/
theorem ofText_plain {text : String} {T : Token → Prop} (known : ∀ token, token.From text.toList → T token)
    (plain : ∀ token, T token → token.IsPlain) {tokens : List Token} (read : ofText text = .ok tokens) :
    ∀ token ∈ tokens, T token := by
  unfold ofText at read
  cases scanned : scan text with
  | error error => simp [scanned, Except.map] at read
  | ok written =>
    have all (token : Token) (member : token ∈ written) : T token :=
      known token (scan_from scanned token member)
    rw [scanned] at read
    obtain rfl := Except.ok.inj read
    rwa [groupProducts_plain fun token member => plain token (all token member)]

end Stepwise.Token
