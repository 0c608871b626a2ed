import Stepwise.Proofs.Token.Grouping

/-! The brackets of implicit products. Main statement: spelling out implicit products loses no
written token, and between balanced brackets it puts in balanced ones, each pair around one variable
term. -/
namespace Stepwise.Token

/-- Inside `depth` brackets, the tokens close these and every bracket that they open. -/
def Closes : Nat → List Token → Prop
  | depth, [] => depth = 0
  | depth, token :: rest =>
    if token.kind = .opening then Closes (depth + 1) rest
    else if token.kind = .closing then 0 < depth ∧ Closes (depth - 1) rest
    else Closes depth rest

/-- What stands in front of the exponent of a variable term: a written number or an inserted one,
and a letter. -/
structure IsTerm (coefficient letter caret : Token) : Prop where
  number : coefficient.kind = .number
  unit : coefficient.isInserted → coefficient = inserted .number "1"
  isLetter : letter.kind = .letter
  isCaret : caret.kind = .power

/-- Written brackets stand around groups, and inserted ones around variable terms, whose exponent is
a number or a group in written brackets. -/
inductive Grouped : List Token → Prop
  | nil : Grouped []
  | single {token : Token} {rest : List Token} (opening : token.kind ≠ .opening)
      (closing : token.kind ≠ .closing)
      (behind : Grouped rest) : Grouped (token :: rest)
  | bracket {opening closing : Token} {inner rest : List Token} (opens : opening.kind = .opening)
      (closes : closing.kind = .closing) (written : opening.isInserted = false)
      (written' : closing.isInserted = false)
      (group : Grouped inner) (behind : Grouped rest) : Grouped (opening :: (inner ++ closing :: rest))
  | power {coefficient letter caret exponent : Token} {rest : List Token}
      (term : IsTerm coefficient letter caret)
      (digits : exponent.kind = .number) (behind : Grouped rest) :
      Grouped (openedTerm coefficient letter ++ caret :: exponent :: inserted .closing ")" :: rest)
  | raised {coefficient letter caret opening closing : Token} {inner rest : List Token}
      (term : IsTerm coefficient letter caret)
      (opens : opening.kind = .opening) (closes : closing.kind = .closing)
      (written : opening.isInserted = false)
      (written' : closing.isInserted = false) (group : Grouped inner) (behind : Grouped rest) :
      Grouped (openedTerm coefficient letter ++ caret :: opening ::
      (inner ++ closing :: inserted .closing ")" :: rest))

section Closes

variable {token : Token} {depth : Nat} {rest : List Token}

theorem closes_opening (kind : token.kind = .opening) :
    Closes depth (token :: rest) ↔ Closes (depth + 1) rest := by
  rw [Closes, if_pos kind]

theorem closes_closing (kind : token.kind = .closing) :
    Closes depth (token :: rest) ↔ ∃ outer, depth = outer + 1 ∧ Closes outer rest := by
  rw [Closes, if_neg (by simp [kind]), if_pos kind]
  cases depth with
  | zero => simp
  | succ outer => simp

theorem closes_other (opening : token.kind ≠ .opening) (closing : token.kind ≠ .closing) :
    Closes depth (token :: rest) ↔ Closes depth rest := by
  rw [Closes, if_neg opening, if_neg closing]

end Closes

theorem IsTerm.closes {coefficient letter caret : Token} (term : IsTerm coefficient letter caret)
    {depth : Nat} {rest : List Token} :
    Closes depth (openedTerm coefficient letter ++ caret :: rest) ↔ Closes (depth + 1) rest := by
  obtain ⟨number, _, isLetter, isCaret⟩ := term
  simp only [openedTerm, List.cons_append, List.nil_append]
  rw [closes_opening rfl, closes_other (by simp [number]) (by simp [number]),
    closes_other (by decide) (by decide), closes_other (by simp [isLetter]) (by simp [isLetter]),
    closes_other (by simp [isCaret]) (by simp [isCaret])]

/-- Groups and variable terms are balanced. -/
theorem Grouped.closes {tokens : List Token} (grouped : Grouped tokens) {depth : Nat}
    {rest : List Token} (closes : Closes depth rest) :
    Closes depth (tokens ++ rest) := by
  induction grouped generalizing depth rest with
  | nil => exact closes
  | single opening closing _ ih => exact (closes_other opening closing).mpr (ih closes)
  | bracket opens ends _ _ _ _ ihg ihb =>
    rw [List.cons_append, List.append_assoc, List.cons_append, closes_opening opens]
    exact ihg ((closes_closing ends).mpr ⟨depth, rfl, ihb closes⟩)
  | power term digits _ ih =>
    rw [List.append_assoc, List.cons_append, term.closes, List.cons_append,
      closes_other (by simp [digits]) (by simp [digits])]
    exact (closes_closing rfl).mpr ⟨depth, rfl, ih closes⟩
  | raised term opens ends _ _ _ _ ihg ihb =>
    rw [List.append_assoc, List.cons_append, term.closes, List.cons_append, closes_opening opens,
      List.append_assoc, List.cons_append, List.cons_append]
    refine ihg ((closes_closing ends).mpr ⟨depth + 1, rfl, ?_⟩)
    exact (closes_closing rfl).mpr ⟨depth, rfl, ihb closes⟩

theorem isInserted_inserted (kind : Kind) (text : String) : (inserted kind text).isInserted = true := rfl

theorem filter_takenExponent (depth : Nat) (waiting : List Nat) {rest : List Token}
    (written : ∀ token ∈ rest, token.isInserted = false) :
    (takenExponent depth waiting rest).1.filter (fun token => !token.isInserted) ++
    (takenExponent depth waiting rest).2.2 =
      rest := by
  have unit : unitExponent.filter (fun token => !token.isInserted) = [] := rfl
  unfold takenExponent
  split
  · next caret exponent after =>
    simp only [List.forall_mem_cons] at written
    obtain ⟨caretWritten, exponentWritten, _⟩ := written
    split
    · simp [caretWritten, exponentWritten, isInserted_inserted]
    · split
      · simp [caretWritten]
      · rw [unit, List.nil_append]
  · rw [unit, List.nil_append]

/-- No written token is lost or moved. -/
theorem filter_spelledOut {depth : Nat} {waiting : List Nat} {held : Option Token}
    {tokens : List Token} (written : ∀ token ∈ tokens, token.isInserted = false)
    (before : ∀ token ∈ held.toList, token.isInserted = false) :
    (spelledOut depth waiting held tokens).filter (fun token => !token.isInserted) =
    held.toList ++ tokens := by
  have nothing : ∀ token ∈ (none : Option Token).toList, token.isInserted = false :=
    fun _ absurd => (by cases absurd)
  have keep {held : Option Token} (before : ∀ token ∈ held.toList, token.isInserted = false) :
      held.toList.filter (fun token => !token.isInserted) = held.toList :=
    List.filter_eq_self.mpr fun token member => by simp [before token member]
  fun_induction spelledOut depth waiting held tokens with
  | case1 depth waiting held => rw [keep before, List.append_nil]
  | case2 depth waiting held token rest letter taken ih =>
    obtain ⟨here, others⟩ := List.forall_mem_cons.mp written
    have opened : (openedTerm (held.getD (inserted .number "1")) token).filter
        (fun token => !token.isInserted) = held.toList ++ [token] := by
      cases held with
      | none => simp [openedTerm, here, isInserted_inserted]
      | some coefficient =>
        simp [openedTerm, here, before coefficient (List.mem_cons_self ..), isInserted_inserted]
    have exponent := filter_takenExponent depth waiting others
    rw [List.filter_append, List.filter_append, opened,
      ih (fun t member => others t (takenExponent_subset depth waiting rest member)) nothing,
      List.append_assoc]
    simpa [taken] using exponent
  | case3 depth waiting held token rest letter number ih =>
    obtain ⟨here, others⟩ := List.forall_mem_cons.mp written
    rw [List.filter_append, keep before, ih others fun t member => List.mem_singleton.mp member ▸ here]
    rfl
  | case4 depth waiting held token rest letter number call ih =>
    obtain ⟨here, others⟩ := List.forall_mem_cons.mp written
    have product : ((held.map fun _ => inserted .times "*").toList).filter
        (fun token => !token.isInserted) = [] := by
      cases held <;> rfl
    rw [List.filter_append, List.filter_append, keep before, product, List.append_nil,
      List.filter_cons_of_pos (by simp [here]), ih others nothing]
    rfl
  | case5 depth waiting held token rest letter number call opening ih =>
    obtain ⟨here, others⟩ := List.forall_mem_cons.mp written
    rw [List.filter_append, keep before, List.filter_cons_of_pos (by simp [here]), ih others nothing]
    rfl
  | case6 depth waiting held token rest letter number call opening closing ended ih =>
    obtain ⟨here, others⟩ := List.forall_mem_cons.mp written
    have brackets : ended.2.filter (fun token => !token.isInserted) = [] := by
      rcases endedExponent_brackets (depth - 1) waiting with alone | closed
      · rw [show ended.2 = [] from alone]
        rfl
      · rw [show ended.2 = [inserted .closing ")"] from closed]
        rfl
    rw [List.filter_append, List.filter_append, keep before,
      List.filter_cons_of_pos (by simp [here]), brackets, ih others nothing]
    simp
  | case7 depth waiting held token rest letter number call opening closing ih =>
    obtain ⟨here, others⟩ := List.forall_mem_cons.mp written
    rw [List.filter_append, keep before, List.filter_cons_of_pos (by simp [here]), ih others nothing]
    rfl

def BehindGroup (depth : Nat) (waiting : List Nat) (size : Nat) (tail : List Token) : Prop :=
  match depth with
  | 0 => tail = []
  | outer + 1 => ∃ bracket rest, bracket.kind = .closing ∧ bracket.isInserted = false ∧ Closes outer rest ∧
      (∀ token ∈ rest, token.isInserted = false) ∧ rest.length < size ∧
      tail = bracket :: (endedExponent outer waiting).2 ++ spelledOut outer
      (endedExponent outer waiting).1 none rest

theorem BehindGroup.mono {depth : Nat} {waiting : List Nat} {size more : Nat} {tail : List Token}
    (le : size ≤ more) (behind : BehindGroup depth waiting size tail) :
    BehindGroup depth waiting more tail := by
  cases depth with
  | zero => exact behind
  | succ outer =>
    obtain ⟨bracket, rest, closing, written, closes, written', shorter, same⟩ := behind
    exact ⟨bracket, rest, closing, written, closes, written', Nat.lt_of_lt_of_le shorter le, same⟩

/-- No exponent ends where all that wait for an end began further out. -/
theorem endedExponent_below {depth : Nat} {waiting : List Nat} (below : ∀ d ∈ waiting, d < depth) :
    endedExponent depth waiting = (waiting, []) := by
  unfold endedExponent
  split
  · next next outer =>
    rw [if_neg (Nat.ne_of_lt (below next (List.mem_cons_self ..)))]
  · rfl

def Divides (depth : Nat) (waiting : List Nat) (size : Nat) (out : List Token) : Prop :=
  ∃ inner tail, out = inner ++ tail ∧ Grouped inner ∧ BehindGroup depth waiting size tail

section Divides

variable {depth size more : Nat} {waiting : List Nat} {between out : List Token}

theorem Divides.behind {before : List Token} (divides : Divides depth waiting size out)
    (le : size ≤ more) (grouped : ∀ {inner}, Grouped inner → Grouped (before ++ inner)) :
    Divides depth waiting more (before ++ out) := by
  obtain ⟨inner, tail, rfl, group, behind⟩ := divides
  exact ⟨before ++ inner, tail, (List.append_assoc ..).symm, grouped group, behind.mono le⟩

/-- The group that a bracket opens is followed by what is left of the group around it. -/
theorem Divides.enclosed {waiting' : List Nat} (divides : Divides (depth + 1) waiting' size out)
    (before : List Token) (le : size ≤ more)
    (ends : endedExponent depth waiting' = (waiting, between))
    (outside : ∀ {rest}, rest.length < size →
      Closes depth rest → (∀ token ∈ rest, token.isInserted = false) →
      Divides depth waiting rest.length (spelledOut depth waiting none rest))
    (grouped : ∀ {inner behind : List Token} {closing : Token}, closing.kind = .closing →
      closing.isInserted = false → Grouped inner → Grouped behind →
      Grouped (before ++ (inner ++ closing :: (between ++ behind)))) :
    Divides depth waiting more (before ++ out) := by
  obtain ⟨inner, _, rfl, group, closing, rest, kind, read, closes, written, shorter, rfl⟩ := divides
  obtain ⟨inner', tail, same, group', behind⟩ := outside shorter closes written
  rw [ends]
  refine ⟨before ++ (inner ++ closing :: (between ++ inner')), tail, ?_,
    grouped kind read group group', behind.mono (by omega)⟩
  rw [same]
  simp

end Divides

def HoldsNumber (held : Option Token) : Prop :=
  ∀ token ∈ held.toList, token.kind = .number ∧ token.isInserted = false

theorem HoldsNumber.behind {held : Option Token} (number : HoldsNumber held) {rest : List Token}
    (grouped : Grouped rest) :
    Grouped (held.toList ++ rest) := by
  cases held with
  | none => exact grouped
  | some token =>
    have kind := (number token (List.mem_cons_self ..)).1
    exact .single (by simp [kind]) (by simp [kind]) grouped

theorem HoldsNumber.isTerm {held : Option Token} (number : HoldsNumber held) {letter caret : Token}
    (isLetter : letter.kind = .letter) (isCaret : caret.kind = .power) :
    IsTerm (held.getD (inserted .number "1")) letter caret := by
  cases held with
  | none => exact ⟨rfl, fun _ => rfl, isLetter, isCaret⟩
  | some coefficient =>
    obtain ⟨kind, read⟩ := number coefficient (List.mem_cons_self ..)
    exact ⟨kind, fun absurd => by simp [read] at absurd, isLetter, isCaret⟩

/-- Fewer than `size` tokens are divided wherever they stand. The exponents that wait for their end
began outside of the open group. -/
def DividesBelow (size : Nat) : Prop :=
  ∀ {depth : Nat} {waiting : List Nat} {held : Option Token} {tokens : List Token}, tokens.length < size →
    Closes depth tokens → (∀ d ∈ waiting, d < depth) →
    (∀ token ∈ tokens, token.isInserted = false) → HoldsNumber held →
      Divides depth waiting tokens.length (spelledOut depth waiting held tokens)

section Step

variable {depth : Nat} {waiting : List Nat} {held : Option Token} {token : Token} {rest tokens : List Token}

theorem holdsNumber_none : HoldsNumber none := fun _ absurd => (by cases absurd)

/-- A letter is put out as a variable term. -/
theorem divides_letter (ih : DividesBelow (token :: rest).length)
    (closes : Closes depth (token :: rest)) (below : ∀ d ∈ waiting, d < depth)
    (written : ∀ token ∈ rest, token.isInserted = false) (number : HoldsNumber held)
    (letter : token.kind = .letter) :
    Divides depth waiting (token :: rest).length (openedTerm (held.getD (inserted .number "1")) token ++
      (takenExponent depth waiting rest).1 ++
        spelledOut depth (takenExponent depth waiting rest).2.1 none
        (takenExponent depth waiting rest).2.2) := by
  rw [closes_other (by simp [letter]) (by simp [letter])] at closes
  have unit : Divides depth waiting (token :: rest).length
      (openedTerm (held.getD (inserted .number "1")) token ++ unitExponent ++
      spelledOut depth waiting none rest) := by
    refine (ih (Nat.lt_succ_self _) closes below written holdsNumber_none).behind
      (Nat.le_succ _) fun grouped => ?_
    rw [List.append_assoc]
    exact .power (number.isTerm letter rfl) rfl grouped
  unfold takenExponent
  split
  · next caret exponent after =>
    simp only [List.forall_mem_cons] at written
    obtain ⟨_, exponentWritten, afterWritten⟩ := written
    have shorter : after.length < (token :: caret :: exponent :: after).length := by simp; omega
    split
    · next power =>
      rw [closes_other (by simp [power.1]) (by simp [power.1]),
        closes_other (by simp [power.2]) (by simp [power.2])] at closes
      refine (ih shorter closes below afterWritten holdsNumber_none).behind (Nat.le_of_lt shorter)
        fun grouped => ?_
      rw [List.append_assoc]
      exact .power (number.isTerm letter power.1) power.2 grouped
    · split
      · next power =>
        rw [closes_other (by simp [power.1]) (by simp [power.1]), closes_opening power.2] at closes
        have opened : spelledOut depth (depth :: waiting) none (exponent :: after) =
            exponent :: spelledOut (depth + 1) (depth :: waiting) none after := by
          rw [spelledOut, if_neg (by simp [power.2]), if_neg (by simp [power.2]),
            if_neg (by simp [power.2, Kind.IsCall]), if_pos power.2]
          rfl
        have ends :
            endedExponent depth (depth :: waiting) = (waiting, [inserted .closing ")"]) := by
          simp [endedExponent]
        have within : ∀ d ∈ depth :: waiting, d < depth + 1 :=
          List.forall_mem_cons.mpr ⟨Nat.lt_succ_self _, fun d member => Nat.lt_succ_of_lt (below d member)⟩
        have enclosed := (ih shorter closes within afterWritten holdsNumber_none).enclosed
          (openedTerm (held.getD (inserted .number "1")) token ++ [caret, exponent])
          (Nat.le_of_lt shorter) ends
          (fun less closes written => ih (Nat.lt_trans less shorter) closes below written holdsNumber_none)
          (fun kind read group behind => by
            rw [List.append_assoc]
            exact .raised (number.isTerm letter power.1) power.2 kind exponentWritten read group behind)
        dsimp only
        rw [opened]
        simpa using enclosed
      · exact unit
  · exact unit

/-- Any other token is put out as it is, behind the number that is held back. -/
theorem divides_single (ih : DividesBelow (token :: rest).length)
    (closes : Closes depth (token :: rest)) (below : ∀ d ∈ waiting, d < depth)
    (written : ∀ token ∈ rest, token.isInserted = false) (number : HoldsNumber held)
    (opening : token.kind ≠ .opening) (closing : token.kind ≠ .closing) :
    Divides depth waiting (token :: rest).length
      (held.toList ++ token :: spelledOut depth waiting none rest) := by
  rw [closes_other opening closing] at closes
  have single : Divides depth waiting (token :: rest).length
      ((held.toList ++ [token]) ++ spelledOut depth waiting none rest) :=
    (ih (Nat.lt_succ_self _) closes below written holdsNumber_none).behind (Nat.le_succ _) fun grouped => by
      rw [List.append_assoc]
      exact number.behind (.single opening closing grouped)
  simpa using single

/-- Up to the end of the open group, groups and variable terms are put out. -/
theorem spelledOut_divides (closes : Closes depth tokens) (below : ∀ d ∈ waiting, d < depth)
    (written : ∀ token ∈ tokens, token.isInserted = false) (number : HoldsNumber held) :
    Divides depth waiting tokens.length (spelledOut depth waiting held tokens) := by
  induction size : tokens.length using Nat.strong_induction_on generalizing depth waiting held tokens with
  | _ size ih =>
    subst size
    replace ih : DividesBelow tokens.length := fun shorter closes below written number =>
      ih _ shorter closes below written number rfl
    cases tokens with
    | nil =>
      obtain rfl : depth = 0 := closes
      exact ⟨held.toList, [], by rw [spelledOut, List.append_nil], by simpa using number.behind .nil, rfl⟩
    | cons token rest =>
      obtain ⟨here, others⟩ := List.forall_mem_cons.mp written
      have shorter : rest.length < (token :: rest).length := Nat.lt_succ_self _
      rw [spelledOut]
      by_cases letter : token.kind = .letter
      · rw [if_pos letter]
        exact divides_letter ih closes below others number letter
      rw [if_neg letter]
      by_cases isNumber : token.kind = .number
      · rw [if_pos isNumber]
        rw [closes_other (by simp [isNumber]) (by simp [isNumber])] at closes
        refine (ih shorter closes below others fun t member => ?_).behind (Nat.le_succ _) number.behind
        exact List.mem_singleton.mp member ▸ ⟨isNumber, here⟩
      rw [if_neg isNumber]
      by_cases call : token.kind.IsCall
      · have other : token.kind ≠ .opening ∧ token.kind ≠ .closing := by
          rcases call with h | h | h | h <;> simp [h]
        have single := divides_single ih closes below others holdsNumber_none other.1 other.2
        rw [if_pos call]
        refine single.behind (Nat.le_refl _) fun grouped => ?_
        rw [List.append_assoc]
        refine number.behind ?_
        cases held with
        | none => exact grouped
        | some _ => exact .single (by simp [inserted]) (by simp [inserted]) grouped
      rw [if_neg call]
      by_cases opening : token.kind = .opening
      · rw [if_pos opening]
        rw [closes_opening opening] at closes
        have within : ∀ d ∈ waiting, d < depth + 1 := fun d member => Nat.lt_succ_of_lt (below d member)
        have enclosed := (ih shorter closes within others holdsNumber_none).enclosed (held.toList ++ [token])
          (Nat.le_succ _) (endedExponent_below below)
          (fun less closes written => ih (Nat.lt_trans less shorter) closes below written holdsNumber_none)
          (fun kind read group behind => by
            rw [List.append_assoc]
            exact number.behind (.bracket opening kind here read group behind))
        simpa using enclosed
      rw [if_neg opening]
      by_cases closing : token.kind = .closing
      · rw [if_pos closing]
        obtain ⟨outer, rfl, inside⟩ := (closes_closing closing).mp closes
        exact ⟨held.toList, _, List.append_assoc .., by simpa using number.behind .nil, token, rest,
          closing, here, inside, others, shorter, rfl⟩
      · rw [if_neg closing]
        exact divides_single ih closes below others number opening closing

end Step

/-- From the tokens of a text, those that spell out its implicit products can be deleted again, and
nothing else has changed. If the brackets of the text are balanced, so are all brackets, and each
inserted pair encloses a number, `*`, a letter, `^`, and a number or a group in brackets. -/
theorem groupProducts_scanned {text : String} {raw : List Token} (scanned : scan text = .ok raw) :
    (groupProducts raw).filter (fun token => !token.isInserted) = raw ∧
      (Closes 0 raw → Closes 0 (groupProducts raw) ∧ Grouped (groupProducts raw)) := by
  have written (token : Token) (member : token ∈ raw) : token.isInserted = false :=
    (scan_from scanned token member).written
  rw [groupProducts_eq]
  refine ⟨filter_spelledOut written fun _ absurd => (by cases absurd), fun closes => ?_⟩
  obtain ⟨inner, tail, same, grouped, ends⟩ :=
    spelledOut_divides closes (List.forall_mem_nil _) written holdsNumber_none
  obtain rfl : tail = [] := ends
  rw [same, List.append_nil]
  have closed : Closes 0 (inner ++ []) := grouped.closes rfl
  exact ⟨by simpa using closed, grouped⟩

/-- The exponent of `x` holds a variable term itself. -/
theorem groupProducts_scanned_nested : ∃ raw, scan "2x^(y+1)" = .ok raw ∧ Closes 0 raw ∧
    (groupProducts raw).map text =
    ["(", "2", "*", "x", "^", "(", "(", "1", "*", "y", "^", "1", ")", "+", "1", ")", ")", ""] ∧
      (groupProducts raw).filter (fun token => !token.isInserted) = raw ∧ Closes 0 (groupProducts raw) ∧
      Grouped (groupProducts raw) := by
  have scanned : scan "2x^(y+1)" = .ok [⟨.number, "2", some 0⟩, ⟨.letter, "x", some 1⟩, ⟨.power, "^", some 2⟩,
      ⟨.opening, "(", some 3⟩, ⟨.letter, "y", some 4⟩, ⟨.plus, "+", some 5⟩, ⟨.number, "1", some 6⟩,
      ⟨.closing, ")", some 7⟩, ⟨.finish, "", some 8⟩] := by cbv
  have closes : Closes 0 [⟨.number, "2", some 0⟩, ⟨.letter, "x", some 1⟩, ⟨.power, "^", some 2⟩,
      ⟨.opening, "(", some 3⟩, ⟨.letter, "y", some 4⟩, ⟨.plus, "+", some 5⟩, ⟨.number, "1", some 6⟩,
      ⟨.closing, ")", some 7⟩, ⟨.finish, "", some 8⟩] := by simp [Closes]
  obtain ⟨lossless, balanced⟩ := groupProducts_scanned scanned
  exact ⟨_, scanned, closes, by cbv, lossless, balanced closes⟩

end Stepwise.Token
