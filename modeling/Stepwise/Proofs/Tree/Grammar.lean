import Stepwise.Proofs.Token.Grouping
import Stepwise.Proofs.Tree.Draft

/-! What every tree built from tokens has in common. A property holds of all of them when it holds
of the operands and is kept by operators, signs and calls. A letter is only ever the base of a power,
and neither an equation nor a factorial is ever the right factor of an implicit product. -/
namespace Stepwise

open Expression.Builder (fail isLoneNumber climbsOver)

variable {ν : Type}

def Token.IsProduct (token : Token) : Prop := token.kind = .times ∧ token.isInserted

/-- An equation or a factorial only as the argument of a keyword. -/
def Tree.IsFactor (x : Tree (Label ν)) : Prop :=
  x.top.token.kind = .equals ∨ x.top.token.kind = .factorial → x.top.call.isSome

/-- A property that building a tree from tokens with the property `T` keeps. -/
structure Builds (T : Token → Prop) (P : Tree (Label ν) → Prop) : Prop where
  operand : ∀ token, T token → token.kind = .number ∨ token.kind = .polynomial → P (.leaf { token })
  negative : ∀ number position, T number → number.kind = .number →
    P (.leaf { token := ⟨.number, "-" ++ number.text, position⟩ })
  factorial : ∀ token, T token → token.kind = .factorial → P (.ofFactorial token)
  power : ∀ letter caret right, T letter → letter.kind = .letter → T caret → caret.kind = .power → P right →
    P (.fork { token := caret } (.leaf { token := letter }) right)
  operator : ∀ token left right, T token → token.kind.rank?.isSome → P left → P right →
    (token.IsProduct → right.IsFactor) →
    P (.fork { token } left right)
  sign : ∀ token right, T token → token.kind = .plus ∨ token.kind = .minus → P right →
    P (.fork { token, unary := true } (.leaf { token := .inserted .number "0" }) right)
  call : ∀ keyword x, T keyword → keyword.kind.IsCall → P x → P (x.applyCall (some keyword))

namespace Waiting

def Keep (P : Tree (Label ν) → Prop) : List (Waiting (Label ν)) → Prop
  | [] => True
  | w :: outer =>
    (∀ right, P right → (w.1.token.IsProduct → right.IsFactor) → P (.fork w.1 w.2 right)) ∧
      w.1.token.kind.rank?.isSome ∧ (outer ≠ [] → w.1.token.kind ≠ .equals) ∧ Keep P outer

def Accepts (waiting : List (Waiting (Label ν))) (x : Tree (Label ν)) : Prop :=
  ∀ w, waiting.head? = some w → w.1.token.IsProduct → x.IsFactor

variable {P : Tree (Label ν) → Prop} {w : Waiting (Label ν)}
  {outer waiting : List (Waiting (Label ν))} {x : Tree (Label ν)}

theorem Keep.fork (keep : Keep P (w :: outer)) (here : P x) (accepts : Accepts (w :: outer) x) :
    P (.fork w.1 w.2 x) ∧ Accepts outer (.fork w.1 w.2 x) := by
  constructor
  · exact keep.1 x here (accepts w rfl)
  · intro v first _ equation
    have inner : outer ≠ [] := fun empty => by simp [empty] at first
    rcases equation with equation | factorial
    · exact absurd equation (keep.2.2.1 inner)
    · have rank := keep.2.1
      simp [show w.1.token.kind = .factorial from factorial, Token.Kind.rank?] at rank

theorem Keep.close (keep : Keep P waiting) (here : P x) (accepts : Accepts waiting x) :
    P (close waiting x) := by
  induction waiting generalizing x with
  | nil => exact here
  | cons w outer ih =>
    obtain ⟨kept, accepted⟩ := keep.fork here accepts
    exact ih keep.2.2.2 kept accepted

theorem Keep.closeWhile (keep : Keep P waiting) (here : P x) (accepts : Accepts waiting x)
    (closes : Label ν → Bool) :
    Keep P (closeWhile closes waiting x).1 ∧ P (closeWhile closes waiting x).2 := by
  induction waiting generalizing x with
  | nil => exact ⟨keep, here⟩
  | cons w outer ih =>
    obtain ⟨a, left⟩ := w
    by_cases closed : closes a
    · simp only [Waiting.closeWhile, closed, if_true]
      obtain ⟨kept, accepted⟩ := keep.fork here accepts
      exact ih keep.2.2.2 kept accepted
    · simp only [Waiting.closeWhile, closed]
      exact ⟨keep, here⟩

end Waiting

/-- Whatever a level becomes in front of the token `next` keeps the property. -/
structure Spine.Keeps (T : Token → Prop) (P : Tree (Label ν) → Prop) (s : Spine (Label ν))
    (next : Option Token) : Prop where
  waiting : Waiting.Keep P s.waiting
  last : ∀ x, s.last = some x → Waiting.Accepts s.waiting x ∧ (P x ∨
    ∃ letter caret, x = .leaf { token := letter } ∧ T letter ∧ letter.kind = .letter ∧
    next = some caret ∧ caret.kind = .power)
  call : ∀ keyword, s.call = some keyword → T keyword ∧ keyword.kind.IsCall
  product : s.last = none → ∀ w, s.waiting.head? = some w → w.1.token.IsProduct → ∃ token, next = some token ∧
    (s.call.isSome ∧ token.kind = .opening ∨ token.kind = .letter ∨ token.kind.IsCall)

structure Draft.Keeps (T : Token → Prop) (P : Tree (Label ν) → Prop) (d : Draft (Label ν))
    (next : Option Token) : Prop where
  level : d.level.Keeps T P next
  outer : ∀ s ∈ d.outer, s.last = none ∧ ∃ bracket : Token, bracket.kind = .opening ∧
    s.Keeps T P (some bracket)

variable {T : Token → Prop} {P : Tree (Label ν) → Prop}

namespace Spine

variable {s : Spine (Label ν)} {next : Option Token}

theorem Keeps.tree (kept : s.Keeps T P next) (other : ∀ token, next = some token → token.kind ≠ .power)
    {x : Tree (Label ν)} (whole : s.tree? = some x) : P x := by
  obtain ⟨last, found, rfl⟩ := Option.map_eq_some_iff.mp whole
  obtain ⟨accepts, here | ⟨_, caret, _, _, _, behind, power⟩⟩ := kept.last last found
  · exact kept.waiting.close here accepts
  · exact absurd power (other caret behind)

theorem empty_keeps : ({} : Spine (Label ν)).Keeps T P next :=
  ⟨trivial, fun _ absurd => (by cases absurd), fun _ absurd => (by cases absurd), fun _ _ absurd =>
    (by cases absurd)⟩

/-- Only a bracket, a letter or a keyword can follow the sign of an implicit product. -/
theorem Keeps.accepts {token : Token} (kept : s.Keeps T P (some token)) (awaiting : s.last = none)
    (opening : token.kind ≠ .opening) (letter : token.kind ≠ .letter) (call : ¬ token.kind.IsCall)
    (x : Tree (Label ν)) :
    Waiting.Accepts s.waiting x := by
  intro w first product
  obtain ⟨_, same, factor⟩ := kept.product awaiting w first product
  obtain rfl := Option.some.inj same
  rcases factor with ⟨_, here⟩ | here | here
  · exact absurd here opening
  · exact absurd here letter
  · exact absurd here call

end Spine

theorem isLoneNumber_head {rest : List Token} (alone : isLoneNumber rest) :
    ∃ number, rest.head? = some number ∧ number ∈ rest ∧ number.kind = .number := by
  match rest with
  | [] => simp [isLoneNumber] at alone
  | [number] => exact ⟨number, rfl, List.mem_cons_self .., by simpa [isLoneNumber] using alone⟩
  | number :: _ :: _ =>
    simp only [isLoneNumber, Bool.and_eq_true, beq_iff_eq] at alone
    exact ⟨number, rfl, List.mem_cons_self .., alone.1.1.1⟩

theorem Tree.isFactor_applyCall (keyword : Token) (x : Tree (Label ν)) :
    (x.applyCall (some keyword)).IsFactor := by
  intro equation
  simp only [Tree.applyCall] at equation ⊢
  split at equation
  · rcases equation with equation | factorial
    · simp [Token.inserted] at equation
    · simp [Token.inserted] at factorial
  · next other =>
    rw [if_neg other]
    split
    · rfl
    · simp

namespace Draft

variable {d later : Draft (Label ν)} {token : Token} {rest : List Token}

theorem awaiting_none : d.awaiting = true ↔ d.level.last = none := Option.isNone_iff_eq_none

theorem Keeps.attach {next next' : Option Token} (kept : d.Keeps T P next) {x : Tree (Label ν)}
    (accepts : Waiting.Accepts d.level.waiting x) (here : P x) : (d.attach x).Keeps T P next' := by
  refine ⟨⟨kept.level.waiting, fun y equal => ?_, fun _ absurd => (by cases absurd),
    fun absurd => (by cases absurd)⟩, kept.outer⟩
  obtain rfl := Option.some.inj equal
  exact ⟨accepts, .inl here⟩

/-- An operator waits in front of what is there of its level. -/
theorem Keeps.wait {next next' : Option Token} (kept : d.Keeps T P next) {w : Waiting (Label ν)}
    {waiting : List (Waiting (Label ν))} (keep : Waiting.Keep P (w :: waiting))
    (product : w.1.token.IsProduct → ∃ token, next' = some token ∧
      (token.kind = .letter ∨ token.kind.IsCall)) :
    Keeps T P { d with level := { waiting := w :: waiting } } next' := by
  refine ⟨⟨keep, fun _ absurd => (by cases absurd), fun _ absurd => (by cases absurd),
    fun _ v first times => ?_⟩, kept.outer⟩
  obtain rfl := Option.some.inj first
  obtain ⟨token, behind, factor⟩ := product times
  exact ⟨token, behind, .inr factor⟩

theorem openBracket_keeps (kept : d.Keeps T P (some token)) (opening : token.kind = .opening)
    (placed : d.openBracket token = .ok later) : later.Keeps T P rest.head? := by
  unfold openBracket fail at placed
  split at placed
  · simp at placed
  · next awaiting =>
    split at placed
    · simp at placed
    · obtain rfl := Except.ok.inj placed
      refine ⟨Spine.empty_keeps, fun s member => ?_⟩
      rcases List.mem_cons.mp member with rfl | member
      · exact ⟨awaiting_none.mp (by simpa using awaiting), token, opening, kept.level⟩
      · exact kept.outer s member

theorem openCall_keeps (kept : d.Keeps T P (some token)) (good : T token) (call : token.kind.IsCall)
    (placed : d.openCall token rest.head? = .ok later) : later.Keeps T P rest.head? := by
  unfold openCall fail at placed
  split at placed
  · simp at placed
  · next awaiting =>
    have empty : d.level.last = none := awaiting_none.mp (by simpa using awaiting)
    split at placed
    · next bracket =>
      obtain rfl := Except.ok.inj placed
      refine ⟨⟨kept.level.waiting, fun x absurd => ?_,
        fun _ equal => Option.some.inj equal ▸ ⟨good, call⟩, fun _ _ _ _ => ?_⟩, kept.outer⟩
      · simp [empty] at absurd
      · obtain ⟨opening, behind, kind⟩ := (Option.any_eq_true ..).mp bracket
        exact ⟨opening, behind, .inl ⟨rfl, by simpa using kind⟩⟩
    · simp at placed

variable (builds : Builds T P)
include builds

theorem closeBracket_keeps (kept : d.Keeps T P (some token)) (closing : token.kind = .closing)
    (placed : d.closeBracket token rest.head? = .ok later) : later.Keeps T P rest.head? := by
  obtain ⟨level, outer⟩ := d
  unfold closeBracket fail at placed
  cases outer with
  | nil => simp at placed
  | cons around outer =>
    cases whole : level.tree? with
    | none => simp [whole] at placed
    | some x =>
      simp only [whole] at placed
      obtain rfl := Except.ok.inj placed
      have inner : P x := kept.level.tree (fun next same => Option.some.inj same ▸ by simp [closing]) whole
      obtain ⟨empty, bracket, opening, outside⟩ := kept.outer around (List.mem_cons_self ..)
      have outside : Keeps T P ⟨around, outer⟩ (some bracket) :=
        ⟨outside, fun s member => kept.outer s (List.mem_cons_of_mem _ member)⟩
      cases call : around.call with
      | none =>
        refine outside.attach (fun w first product => ?_) inner
        obtain ⟨_, same, factor⟩ := outside.level.product empty w first product
        obtain rfl := Option.some.inj same
        simp [call, opening, Token.Kind.IsCall] at factor
      | some keyword =>
        obtain ⟨good, kind⟩ := outside.level.call keyword call
        exact outside.attach (fun _ _ _ => Tree.isFactor_applyCall keyword x)
          (builds.call keyword x good kind inner)

theorem operand_keeps (kept : d.Keeps T P (some token)) (good : T token) (allows : token.Allows rest.head?)
    (kind : token.kind = .number ∨ token.kind = .letter ∨ token.kind = .polynomial ∨ token.kind = .factorial)
    (placed : d.operand token = .ok later) : later.Keeps T P rest.head? := by
  unfold operand fail at placed
  split at placed
  · simp at placed
  · next awaiting =>
    have empty : d.level.last = none := awaiting_none.mp (by simpa using awaiting)
    have opening : token.kind ≠ .opening := fun same => by simp [same] at kind
    have call : ¬ token.kind.IsCall := fun same => by
      rcases same with same | same | same | same <;> simp [same] at kind
    by_cases factorial : token.kind = .factorial
    · rw [if_pos factorial] at placed
      obtain rfl := Except.ok.inj placed
      exact kept.attach (kept.level.accepts empty opening (by simp [factorial]) call _)
        (builds.factorial token good factorial)
    · rw [if_neg factorial] at placed
      obtain rfl := Except.ok.inj placed
      by_cases letter : token.kind = .letter
      · obtain ⟨caret, behind, power⟩ := allows.letter letter
        refine ⟨⟨kept.level.waiting, fun x equal => ?_, fun _ absurd => (by cases absurd),
          fun absurd => (by cases absurd)⟩, kept.outer⟩
        obtain rfl := Option.some.inj equal
        refine ⟨fun _ _ _ other => ?_, .inr ⟨token, caret, rfl, good, letter, behind, power⟩⟩
        rcases other with same | same <;> exact absurd (letter.symm.trans same) (by decide)
      · have plain : token.kind = .number ∨ token.kind = .polynomial := by
          rcases kind with h | h | h | h
          · exact .inl h
          · exact absurd h letter
          · exact .inr h
          · exact absurd h factorial
        exact kept.attach (kept.level.accepts empty opening letter call _) (builds.operand token good plain)

/-- An operator takes what it climbs over as its left operand. -/
theorem placeOperator_keeps (kept : d.Keeps T P (some token)) (full : d.awaiting = false)
    (good : T token) (rank : token.kind.rank?.isSome) (allows : token.Allows rest.head?) :
    (d.placeOperator token).Keeps T P rest.head? := by
  have product (times : token.IsProduct) := allows.product times.1 times.2
  cases last : d.level.last with
  | none => simp [awaiting, last] at full
  | some x =>
    simp only [placeOperator, last]
    obtain ⟨accepts, here | ⟨letter, caret, rfl, goodLetter, isLetter, same, power⟩⟩ := kept.level.last x last
    · obtain ⟨keep, left⟩ := kept.level.waiting.closeWhile here accepts (yields token)
      refine kept.wait ⟨fun right here => builds.operator token _ right good rank left here, rank,
        fun inner equation => ?_, keep⟩ product
      have all : yields (ν := ν) token = fun _ => true := by
        funext above
        simp [yields, show token.kind = .equals from equation]
      exact inner (by rw [all, Waiting.closeWhile_true])
    · obtain rfl := Option.some.inj same
      have stays (waiting : List (Waiting (Label ν))) (x : Tree (Label ν)) :
          Waiting.closeWhile (yields token) waiting x = (waiting, x) := by
        cases waiting with
        | nil => rfl
        | cons w outer =>
          have other : yields token w.1 = false := by
            simp only [yields, power, climbsOver, Token.Kind.rank?]
            cases w.1.token.kind <;> simp
          simp [Waiting.closeWhile, other]
      rw [stays]
      refine kept.wait ⟨fun right here _ => builds.power letter token right goodLetter isLetter good
        power here, rank, ?_, kept.level.waiting⟩ product
      exact fun _ equation => absurd (power.symm.trans equation) (by decide)

theorem operator_keeps (kept : d.Keeps T P (some token)) {taken : Nat} (good : T token)
    (rank : token.kind.rank?.isSome) (allows : token.Allows rest.head?) (goods : ∀ token ∈ rest, T token)
    (placed : d.operator token rest = .ok (later, taken)) : later.Keeps T P (rest.drop taken).head? := by
  unfold operator fail at placed
  by_cases awaiting : d.awaiting
  · have empty := awaiting_none.mp awaiting
    have accepts := kept.level.accepts empty (fun same => by simp [same, Token.Kind.rank?] at rank)
      (fun same => by simp [same, Token.Kind.rank?] at rank) (fun same => by
        rcases same with same | same | same | same <;> simp [same, Token.Kind.rank?] at rank)
    simp only [awaiting, Bool.not_true, Bool.false_eq_true, if_false] at placed
    by_cases alone : token.kind = .minus ∧ isLoneNumber rest
    · rw [if_pos alone] at placed
      obtain ⟨rfl, _⟩ := Prod.mk.inj (Except.ok.inj placed)
      obtain ⟨number, first, member, kind⟩ := isLoneNumber_head alone.2
      refine kept.attach (accepts _) ?_
      rw [first]
      exact builds.negative number token.position (goods number member) kind
    · rw [if_neg alone] at placed
      by_cases sign : token.kind = .plus ∨ token.kind = .minus
      · rw [if_pos sign] at placed
        obtain ⟨rfl, rfl⟩ := Prod.mk.inj (Except.ok.inj placed)
        refine kept.wait ⟨fun right here _ => builds.sign token right good sign here, rank,
          fun _ equation => ?_, kept.level.waiting⟩ ?_
        · rcases sign with same | same <;> exact absurd (same.symm.trans equation) (by decide)
        · rintro ⟨times, _⟩
          rcases sign with same | same <;> exact absurd (same.symm.trans times) (by decide)
      · rw [if_neg sign] at placed
        simp at placed
  · simp only [awaiting, Bool.not_false, if_true] at placed
    obtain ⟨rfl, rfl⟩ := Prod.mk.inj (Except.ok.inj placed)
    exact placeOperator_keeps builds kept (by simpa using awaiting) good rank allows

theorem place_keeps (kept : d.Keeps T P (some token)) {taken : Nat}
    (good : T token) (allows : token.Allows rest.head?) (goods : ∀ token ∈ rest, T token)
    (more : token.kind ≠ .finish) (placed : d.place token rest = .ok (later, taken)) :
    later.Keeps T P (rest.drop taken).head? := by
  have first {x : Outcome ν} (mapped : x.map (·, 0) = .ok (later, taken)) : x = .ok later ∧ taken = 0 := by
    cases x with
    | error error => simp [Except.map] at mapped
    | ok d =>
      obtain ⟨same, zero⟩ := Prod.mk.inj (Except.ok.inj mapped)
      exact ⟨congrArg Except.ok same, zero.symm⟩
  unfold place at placed
  cases kind : token.kind <;> simp only [kind] at placed
  case opening =>
    obtain ⟨done, rfl⟩ := first placed
    exact openBracket_keeps kept kind done
  case closing =>
    obtain ⟨done, rfl⟩ := first placed
    exact closeBracket_keeps builds kept kind done
  case trig | log | sqrt | diff =>
    obtain ⟨done, rfl⟩ := first placed
    exact openCall_keeps kept good (by simp [kind, Token.Kind.IsCall]) done
  case number | letter | polynomial | factorial =>
    obtain ⟨done, rfl⟩ := first placed
    exact operand_keeps builds kept good allows (by simp [kind]) done
  case equals | plus | minus | times | divide | power =>
    exact operator_keeps builds kept good (by simp [kind, Token.Kind.rank?]) allows goods placed
  case finish => exact absurd kind more

omit builds in
theorem complete_keeps {next : Option Token} (kept : d.Keeps T P next)
    (other : ∀ token, next = some token → token.kind ≠ .power) {position : Option Nat} {x : Tree (Label ν)}
    (built : d.complete position = .ok x) : P x := by
  unfold complete at built
  split at built
  · simp at built
  · cases whole : d.level.tree? with
    | none => simp [whole] at built
    | some y =>
      simp only [whole] at built
      exact Except.ok.inj built ▸ kept.level.tree other whole

/-- A tree built from tokens has every property that building keeps. -/
theorem build_keeps {tokens : List Token} (kept : d.Keeps T P tokens.head?) (chained : Token.Chained tokens)
    (goods : ∀ token ∈ tokens, T token) {x : Tree (Label ν)} (built : d.build tokens = .ok x) : P x := by
  fun_induction Draft.build d tokens with
  | case1 d => exact complete_keeps kept (fun _ absurd => by cases absurd) built
  | case2 d token rest finish =>
    exact complete_keeps kept (fun _ same => Option.some.inj same ▸ by simp [finish]) built
  | case3 d token rest finish next taken placed ih =>
    obtain ⟨good, others⟩ := List.forall_mem_cons.mp goods
    exact ih (place_keeps builds kept good chained.1 others finish placed) (chained.2.drop taken)
      (fun token member => others token (List.mem_of_mem_drop member)) built
  | case4 d token rest finish error placed => simp at built

end Draft

/-- Whatever building keeps holds of the tree that a text denotes. -/
theorem Tree.ofText_keeps (builds : Builds T P) {text : String}
    (goods : ∀ tokens, Token.ofText text = .ok tokens → ∀ token ∈ tokens, T token) {x : Tree (Label ν)}
    (parsed : Tree.ofText text = .ok x) : P x := by
  unfold Tree.ofText at parsed
  split at parsed
  · next tokens read =>
    exact Draft.build_keeps builds ⟨Spine.empty_keeps, fun _ member => absurd member List.not_mem_nil⟩
      (Token.ofText_spelled read).1 (goods tokens read) parsed
  · simp at parsed

namespace Tree

def Formed : Tree (Label ν) → Prop
  | leaf _ => True
  | group a inner => a.token.kind = .opening ∧ inner.Formed
  | fork a left right => a.token.kind.rank?.isSome ∧ left.Formed ∧ right.Formed

theorem Formed.mapTop {x : Tree (Label ν)} (formed : x.Formed) {f : Label ν → Label ν}
    (same : ∀ a, (f a).token = a.token) : (x.mapTop f).Formed := by
  cases x with
  | leaf a => trivial
  | group a inner => exact ⟨(same a).symm ▸ formed.1, formed.2⟩
  | fork a left right => exact ⟨(same a).symm ▸ formed.1, formed.2⟩

theorem formed_factorialFrom {chain : Tree (Label ν)} (formed : chain.Formed) (k count : Nat) :
    (factorialFrom chain k count).Formed := by
  induction count generalizing chain k with
  | zero => exact formed
  | succ count ih =>
    have product (factor : Label ν) : (fork { token := .inserted .times "*" } (leaf factor) chain).Formed :=
      ⟨rfl, trivial, formed⟩
    exact ih (product _) (k + 1)

theorem Formed.applyCall {x : Tree (Label ν)} (formed : x.Formed) (keyword : Token) :
    (x.applyCall (some keyword)).Formed := by
  simp only [Tree.applyCall]
  split
  · exact ⟨rfl, formed, rfl, trivial, trivial⟩
  · split
    · exact ⟨rfl, formed⟩
    · exact formed.mapTop fun _ => rfl

theorem formed_builds : Builds (ν := ν) (fun _ => True) Formed where
  operand _ _ _ := trivial
  negative _ _ _ _ := trivial
  factorial token _ _ := by
    unfold ofFactorial
    split
    · exact formed_factorialFrom (show Formed (leaf _) from trivial) _ _
    · trivial
  power _ caret _ _ _ _ power right := ⟨by simp [power, Token.Kind.rank?], trivial, right⟩
  operator _ _ _ _ rank left right _ := ⟨rank, left, right⟩
  sign token _ _ sign right := ⟨by rcases sign with h | h <;> simp [h, Token.Kind.rank?], trivial, right⟩
  call keyword _ _ _ formed := formed.applyCall keyword

theorem ofText_formed {text : String} {x : Tree (Label ν)} (parsed : Tree.ofText text = .ok x) : x.Formed :=
  ofText_keeps formed_builds (fun _ _ _ _ => trivial) parsed

end Tree

end Stepwise
