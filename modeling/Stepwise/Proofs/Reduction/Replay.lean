import Stepwise.Proofs.Reduction.Intact
import Stepwise.Proofs.Reduction.Reread

/-! Replaying a trace. A line of a trace is read again as a tree that need not be the one it shows:
a fraction comes back as a quotient, a negative number as a sign over a number, and a sign over a
number as a negative number. Main statement: the lines that follow are the same, if every number on
the way is printed faithfully and no sign is read into a zero. -/
namespace Stepwise

open Quantity (constant fraction Same)
open Decimal (IsRational)

namespace Tree

variable {w x y z t l r left right : Tree Mark} {a b : Mark} {q : Quantity} {operation : Operation}

def FaithfulLeaves : Tree Mark → Prop
  | leaf a => ∀ q, a.value = some q → q.IsFaithful
  | group _ inner => inner.FaithfulLeaves
  | fork _ left right => left.FaithfulLeaves ∧ right.FaithfulLeaves

def UnsignedZeros (x : Tree Mark) : Prop := ∀ a ∈ x.flatten, a.token.text ≠ "-0"

theorem unsignedZeros_fork :
    (fork a left right).UnsignedZeros ↔ a.token.text ≠ "-0" ∧ left.UnsignedZeros ∧
      right.UnsignedZeros := by
  simp only [UnsignedZeros, flatten, List.mem_cons, List.mem_append, or_imp, forall_and, forall_eq]

/-- A tree that is written like the other one. What is read of the text has reductions in common with it. -/
structure Replays (t y : Tree Mark) : Prop where
  numeric : t.Numeric
  rendered : t.rendered = y.rendered
  meets : ∀ w : Tree Mark, w.Numeric → w.core = t.core → w.UnsignedZeros → ∃ z, y.Lags z ∧
    w.attachQuantities.Lags z

theorem settled_of_faithful (faithful : q.IsFaithful) (number : IsNumber q) : q.IsSettled := by
  rcases number with ⟨x, rfl⟩ | ⟨x, y, rfl, ratio⟩
  · exact .number faithful.isFinite
  · exact .ratio ratio

/-- A number is replayed. -/
theorem replays_number (faithful : q.IsFaithful) (number : IsNumber q) (call : a.call = none)
    (value : a.value = some q) :
    ∃ t, Replays t (leaf a) := by
  obtain ⟨t, numeric, rendered, lags⟩ := rereads_number faithful number
  refine ⟨t, numeric, rendered.trans (rendered_value call value).symm, fun w numeric core _ => ?_⟩
  obtain ⟨v, same, lags⟩ := lags w numeric core
  exact ⟨leaf { a with value := some v }, .number call call value rfl
    (settled_of_faithful faithful number) same, lags { a with value := some v } call rfl⟩

/-- An operator over what is replayed is replayed. -/
theorem Replays.operator (operates : a.Operates operation) (binary : a.unary = false)
    (blind : SignBlind operation) (first : Replays l left) (second : Replays r right) :
    Replays (fork { token := a.token } l r) (fork a left right) := by
  have operatesAgain : ({ token := a.token } : Mark).Operates operation :=
    operates_fresh operates.known operates.spelled operates.written
  refine ⟨.operator operates.known operates.spelled operates.written first.numeric second.numeric,
    operates.rendered_congr operatesAgain binary.symm first.rendered second.rendered,
    fun w numeric core unsigned => ?_⟩
  rw [core_operation operates.written] at core
  obtain ⟨token, left', right', operation', rfl, symbol, known, spelled, written, numericl,
      numericr, corel, corer⟩ :=
    numeric.of_core_operator core
  obtain ⟨-, unsignedl, unsignedr⟩ := unsignedZeros_fork.mp unsigned
  obtain ⟨z, lags, lags'⟩ := first.meets left' numericl corel unsignedl
  obtain ⟨u, lagsr, lagsr'⟩ := second.meets right' numericr corer unsignedr
  have kind : token.unplaced.kind = a.token.unplaced.kind := by rw [symbol]
  have operates' : ({ token } : Mark).Operates operation :=
    operates_fresh (kind ▸ operates.known) spelled written
  rw [attach_fork]
  exact ⟨fork { token } z u, .operator operates operates' binary.symm blind lags lagsr,
    .operator operates' operates' rfl blind lags' lagsr'⟩

/-- What is written without a sign is positive, unless it is written 0. -/
theorem positive_of_written {m n : Float} {p : ℚ} {digits : String} (value : IsRational n p)
    (text : Decimal.sixPlaces n = digits) (numeral : Token.IsNumeral digits.toList)
    (magnitude : Decimal.readMagnitude? digits.toList = some m) (value' : IsRational m p)
    (nonzero : digits ≠ "0") : 0 < p := by
  rcases lt_trichotomy p 0 with negative | rfl | positive
  · obtain ⟨digits', m', p', -, magnitude', value'', ⟨text', -⟩ | ⟨text', zero⟩⟩ := value.written
    · exact absurd (by simp [← text, text']) numeral.head_ne_minus
    · rw [← text', text, magnitude] at magnitude'
      obtain rfl := Option.some.inj magnitude'
      exact absurd ((value'.unique value'').trans (zero negative)) negative.ne
  · exact absurd (text.symm.trans (Decimal.sixPlaces_zero value)) nonzero
  · exact positive

/-- A sign in front of a number that is read as a part of it. -/
theorem Replays.folded {digits : String} (operates : a.Operates .subtract) (unary : a.unary = true)
    (minus : a.token.text = "-") (call : b.call = none) (value : b.value = some (constant 0.0))
    (second : Replays r right) (numeral : Token.IsNumeral digits.toList)
    (core : r.core = leaf { token := .inserted .number digits }) (nonzero : digits ≠ "0")
    (position : Option Nat) :
    ∃ z, (fork a (leaf b) right).Lags z ∧
      (leaf { token := ⟨.number, "-" ++ digits, position⟩ } :
        Tree Mark).attachQuantities.Lags z := by
  obtain ⟨n, magnitude, read⟩ := read_numeral numeral
  have signed : (leaf { token := ⟨.number, "-" ++ digits, position⟩ } : Tree Mark).attachQuantities = _ :=
    attach_read rfl (Decimal.read_negated magnitude)
  obtain ⟨token, rfl, kind, text⟩ := second.numeric.of_core_number core
  have unsigned : (numberLeaf digits).UnsignedZeros := fun c member zero => by
    obtain rfl := List.mem_singleton.mp member
    exact numeral.head_ne_minus (by rw [show digits = "-0" from zero]; rfl)
  obtain ⟨z, lags, lags'⟩ := second.meets (numberLeaf digits) (.number rfl numeral)
    ((core_unsigned numeral).trans core.symm) unsigned
  rw [numberLeaf, attach_read rfl read] at lags'
  cases lags' with
  | @number _ c _ q' _ callc valuen valuec settled same =>
    cases valuen
    obtain ⟨m, p, rfl, value', value''⟩ :=
      same.of_constant (by cases settled with | number finite => exact finite)
    have shown : Decimal.sixPlaces m = digits := by
      have texts := (congrArg Rendered.text
        (second.rendered.trans (lags.rendered.trans (rendered_value callc valuec)))).symm
      simp only [rendered_leaf, Expression.renderToken, kind, text] at texts
      exact texts
    have positive := positive_of_written value'' shown numeral magnitude value' nonzero
    obtain ⟨d, difference, valued⟩ := Quantity.zero_sub_constant .zero value''
    refine ⟨leaf (c.collapse (constant d)), ?_, ?_⟩
    · refine .reduced operates (fun power => by cases power) (.number call call value value
        (.number IsRational.zero.isFinite) (.refl _)) lags value valuec difference callc rfl ?_
      rw [rendered_sign operates.call unary, minus, rendered_value callc valuec,
        Quantity.rendered_zero_sub value'' valued positive (shown ▸ nonzero)]
    · rw [signed]
      exact .number rfl callc rfl rfl (.number value'.neg.isFinite) (.number value'.neg valued)

/-- A sign over what is replayed is replayed. -/
theorem Replays.sign (operates : a.Operates operation)
    (sign : operation = .add ∨ operation = .subtract) (unary : a.unary = true)
    (call : b.call = none) (value : b.value = some (constant 0.0)) (second : Replays r right) :
    Replays (fork { token := a.token, unary := true } (leaf { token := .inserted .number "0" }) r)
      (fork a (leaf b) right) := by
  have kind : a.token.kind = .plus ∨ a.token.kind = .minus := by
    have known := operates.known
    rcases sign with rfl | rfl <;> cases here : a.token.kind <;> simp [here, Operation.ofKind?] at known ⊢
  have blind : SignBlind operation := fun power => by rcases sign with rfl | rfl <;> cases power
  have zero : ∀ {c : Mark}, c.call = none → c.value = some (constant 0.0) →
      (leaf b).Lags (leaf c) := fun call' value' =>
    .number call call' value value' (.number IsRational.zero.isFinite) (.refl _)
  refine ⟨.sign kind operates.spelled operates.written second.numeric, ?_, fun w numeric core unsigned => ?_⟩
  · rw [rendered_sign rfl rfl, rendered_sign operates.call unary, second.rendered]
  rw [core_sign operates.written] at core
  rcases numeric.of_core_sign core with
    ⟨token, right', rfl, symbol, -, spelled, written, numericr, corer⟩ | ⟨digits, position, rfl,
      numeral, symbol, corer⟩
  · obtain ⟨c, attached, callc, valuec⟩ := attach_sign token right'
    obtain ⟨-, -, unsignedr⟩ := unsignedZeros_fork.mp unsigned
    obtain ⟨z, lags, lags'⟩ := second.meets right' numericr corer unsignedr
    have kind : token.unplaced.kind = a.token.unplaced.kind := by rw [symbol]
    have operates' : ({ token, unary := true } : Mark).Operates operation :=
      operates_fresh (kind ▸ operates.known) spelled written
    rw [attached]
    exact ⟨fork { token, unary := true } (leaf c) z, .operator operates operates' unary.symm blind
      (zero callc valuec) lags, .operator operates' operates' rfl blind
      (.number callc callc valuec valuec (.number IsRational.zero.isFinite) (.refl _)) lags'⟩
  · have minus : a.token.unplaced.kind = .minus ∧ a.token.unplaced.text = "-" := by
      rw [symbol]; exact ⟨rfl, rfl⟩
    have subtract : operation = .subtract := by
      have known := operates.known
      rw [show a.token.kind = .minus from minus.1] at known
      exact (Option.some.inj known).symm
    subst subtract
    have nonzero : digits ≠ "0" := fun same => unsigned _ (List.mem_singleton.mpr rfl) (by rw [same]; rfl)
    exact second.folded operates unary minus.2 call value numeral corer nonzero position

theorem mem_within {r : Rendered} {c : Char} (member : c ∈ r.text.toList) (required : Precedence) :
    c ∈ (r.within required).toList := by
  unfold Rendered.within
  split
  · simp [member]
  · exact member

/-- An operator is written with its operands. The zero under a sign is not. -/
theorem mem_text (operates : a.Operates operation) (left right : Tree Mark) {c : Char} :
    (c ∈ a.token.text.toList → c ∈ (fork a left right).text.toList) ∧
      (c ∈ right.text.toList → c ∈ (fork a left right).text.toList) ∧
        (a.unary = false → c ∈ left.text.toList → c ∈ (fork a left right).text.toList) := by
  cases unary : a.unary with
  | true =>
    rw [Tree.text, rendered_sign operates.call unary]
    simp only [String.toList_append, List.mem_append]
    exact ⟨.inl, fun member => .inr (mem_within member _), fun signless => by cases signless⟩
  | false =>
    obtain ⟨rank, other⟩ := rank_of_operation operates.known
    obtain ⟨_, _, _, -, -, -, writtenInfix⟩ := infixed_eq rank other
    rw [Tree.text, rendered_fork operates.call unary (not_unit operates.written left) rank other,
      writtenInfix _ _ _ rfl]
    simp only [String.toList_append, List.mem_append]
    exact ⟨fun member => .inl (.inr member), fun member => .inr (mem_within member _),
      fun _ member => .inl (.inl (mem_within member _))⟩

/-- Numbers and operators on them are replayed. -/
theorem Reckoned.replays (reckoned : y.Reckoned) (faithful : y.FaithfulLeaves)
    (signs : '^' ∈ y.text.toList → ∀ u v, Decimal.PowIgnoresSigns u v) : ∃ t, Replays t y := by
  induction reckoned with
  | number call value number => exact replays_number (faithful _ value) number call value
  | @operator a operation left right operates sign first second ihl ihr =>
    obtain ⟨symbol, inr, inl⟩ := mem_text operates left right (c := '^')
    obtain ⟨r, replaysr⟩ := ihr faithful.2 (signs ∘ inr)
    cases unary : a.unary with
    | true =>
      obtain ⟨looser, b, rfl, value⟩ := sign unary
      cases first with
      | number call => exact ⟨_, replaysr.sign operates looser unary call value⟩
    | false =>
      obtain ⟨l, replaysl⟩ := ihl faithful.1 (signs ∘ inl unary)
      refine ⟨_, replaysl.operator operates unary (fun power => signs (symbol ?_)) replaysr⟩
      have caret : a.token.kind = .power := by
        have known := operates.known
        cases here : a.token.kind <;> simp [here, power, Operation.ofKind?] at known ⊢
      have spelled := operates.spelled
      simp only [Token.Spelled, caret] at spelled
      rw [spelled]
      decide

/-- The text of a tree that is replayed is read as a tree that shows the same lines from there on. -/
theorem Replays.lines (replays : Replays t y) (shallow : Token.Shallow y.text) :
    ∃ w : Tree Mark, Tree.ofText y.text = .ok w ∧ w.Numeric ∧
      (w.UnsignedZeros → w.attachQuantities.text = y.text ∧
      fresh w.attachQuantities.text (w.attachQuantities.run.1.map text) =
      fresh y.text (y.run.1.map text)) := by
  have same : t.text = y.text := congrArg Rendered.text replays.rendered
  obtain ⟨w, read, numeric, -, core⟩ := replays.numeric.again (same ▸ shallow)
  refine ⟨w, same ▸ read, numeric, fun unsigned => ?_⟩
  obtain ⟨z, lags, lags'⟩ := replays.meets w numeric core unsigned
  exact ⟨lags'.text.trans lags.text.symm, lags'.lines.trans lags.lines.symm⟩

/-- A line that is shown is the text of a tree of the run, and the run goes on from that tree. -/
theorem fresh_run (x : Tree Mark) (last : String) {i : Nat}
    (inside : i < (fresh last (x.run.1.map text)).length) : ∃ y ∈ x.run.1,
    (fresh last (x.run.1.map text))[i] = y.text ∧
      (fresh last (x.run.1.map text)).drop (i + 1) = fresh y.text (y.run.1.map text) := by
  induction effort : x.effort using Nat.strong_induction_on generalizing x last i with
  | _ n ih =>
    cases goes : x.next? with
    | none => simp [run_done goes, fresh] at inside
    | some result =>
      cases result with
      | error error => simp [run_fails goes, fresh] at inside
      | ok y =>
        have less := effort ▸ effort_next goes
        simp only [run_goes goes, List.map_cons, fresh] at inside ⊢
        by_cases silent : y.text = last
        · simp only [silent, if_true] at inside ⊢
          obtain ⟨z, member, here, rest⟩ := ih _ less y last inside rfl
          exact ⟨z, List.mem_cons_of_mem _ member, here, rest⟩
        · simp only [silent, if_false] at inside ⊢
          cases i with
          | zero => exact ⟨y, List.mem_cons_self .., rfl, rfl⟩
          | succ i =>
            obtain ⟨z, member, here, rest⟩ := ih _ less y y.text (Nat.lt_of_succ_lt_succ inside) rfl
            exact ⟨z, List.mem_cons_of_mem _ member, here, rest⟩

/-- The lines that follow a line of a run are shown again after it is read. -/
theorem Numeric.replays (numeric : x.Numeric)
    (faithful : ∀ y ∈ x.attachQuantities.run.1, y.FaithfulLeaves) {i : Nat}
    (inside : i + 1 < (x.attachQuantities.linesWith []).length)
    (shallow : Token.Shallow (x.attachQuantities.linesWith [])[i + 1])
    (signs : '^' ∈ (x.attachQuantities.linesWith [])[i + 1].toList →
      ∀ u v, Decimal.PowIgnoresSigns u v) :
    ∃ w : Tree Mark, Tree.ofText (x.attachQuantities.linesWith [])[i + 1] = .ok w ∧ w.Numeric ∧
      (w.UnsignedZeros → w.attachQuantities.linesWith [] =
        ("Expression: " ++ (x.attachQuantities.linesWith [])[i + 1]) ::
        (x.attachQuantities.linesWith []).drop (i + 2)) := by
  simp only [linesWith_nil, List.singleton_append, List.length_cons, Nat.add_lt_add_iff_right,
    List.getElem_cons_succ, List.drop_succ_cons] at inside shallow signs ⊢
  obtain ⟨y, member, here, rest⟩ := fresh_run x.attachQuantities _ inside
  rw [here] at shallow signs ⊢
  obtain ⟨t, replays⟩ := (numeric.reckoned.run y member).replays (faithful y member) signs
  obtain ⟨w, read, numericw, same⟩ := replays.lines shallow
  refine ⟨w, read, numericw, fun unsigned => ?_⟩
  obtain ⟨text, lines⟩ := same unsigned
  rw [lines, rest, opening, text]

end Tree

namespace Formula

open Expression

variable {e f g : Formula} {x : Tree Mark}

/-- The formulas that an evaluation passes display the trees of the run. -/
theorem passes_of_run (passes : Passes e f) (displays : f.Displays x) :
    ∀ y ∈ x.run.1, ∃ g, Passes e g ∧ g.Displays y := by
  induction effort : x.effort using Nat.strong_induction_on generalizing x f with
  | _ n ih =>
    obtain ⟨root, alike⟩ := next_alike displays
    cases goes : x.next? with
    | none => simp [Tree.run_done goes]
    | some result =>
      cases result with
      | error error => simp [Tree.run_fails goes]
      | ok y =>
        have less := effort ▸ Tree.effort_next goes
        unfold Tree.next? at goes
        split at goes
        · next pending =>
          cases found : deepestPending f with
          | none => simp [found, goes] at alike
          | some id =>
            rw [found] at alike
            obtain ⟨result, stepped, alike⟩ := alike
            obtain rfl := Option.some.inj (goes.symm.trans stepped)
            cases reduced : reduce f id with
            | error error => simp [reduced, Alike] at alike
            | ok h =>
              have displays' : h.Displays y := by simpa [reduced, Alike] using alike
              have later : Passes e h := .reduced passes (root.trans pending) found reduced
              have goes : x.next? = some (.ok y) := by rw [Tree.next?, if_pos pending, goes]
              rw [Tree.run_goes goes]
              exact List.forall_mem_cons.mpr ⟨⟨h, later, displays'⟩, ih _ less later displays' rfl⟩
        · cases goes

/-- Every value that stands on a leaf after the preparation, between the reductions and at the end
of an evaluation is printed faithfully. -/
def PrintsFaithfully (e : Formula) : Prop :=
  ∀ f g id q, prepare e = (f, .ok ()) → Passes f g → g.Reaches g.root id → (g.node id).isLeaf →
    (g.node id).value = some q →
    q.IsFaithful

theorem faithfulLeaves_view {t : Tree NodeId} (links : g.Links t)
    (faithful : ∀ id ∈ t.flatten, (g.node id).isLeaf → ∀ q, (g.node id).value = some q →
      q.IsFaithful) :
    (g.view t).FaithfulLeaves := by
  induction t with
  | leaf id => exact faithful id (List.mem_singleton.mpr rfl) links.isLeaf_eq
  | group id inner ih => exact ih links.2.2 fun other member => faithful other (List.mem_cons_of_mem _ member)
  | fork id left right ihl ihr =>
    exact ⟨ihl links.2.2.1 fun other member => faithful other
      (List.mem_cons_of_mem _ (List.mem_append_left _ member)), ihr links.2.2.2 fun other member =>
      faithful other (List.mem_cons_of_mem _ (List.mem_append_right _ member))⟩

/-- Reading a line between the first and the last one and evaluating it shows the lines that follow,
if the numbers on the way are printed faithfully and the line has no minus sign that is read as a
part of a zero. -/
theorem evaluate_replays {text : String} (parsed : Expression.ofText text = .ok e)
    (characters : ∀ c ∈ text.toList, Text.IsNumeric c)
    (faithful : e.PrintsFaithfully) {i : Nat} (first : 1 ≤ i)
    (last : i + 1 < (evaluate e).steps.size) (shallow : Token.Shallow (evaluate e).steps[i])
    (signs : '^' ∈ (evaluate e).steps[i].toList → ∀ x y, Decimal.PowIgnoresSigns x y) :
    ∃ g, Expression.ofText (evaluate e).steps[i] = .ok g ∧
      ((∀ id, g.Reaches g.root id → (g.node id).token.text ≠ "-0") →
        (evaluate g).steps.toList = ("Expression: " ++ (evaluate e).steps[i]) ::
        (evaluate e).steps.toList.drop (i + 1)) := by
  obtain ⟨x, built, displays, formed⟩ := displays_of_parsed parsed
  have numeric := Tree.ofText_numeric characters built
  obtain ⟨-, steps, -⟩ := evaluate_eq displays formed
  have lines : (evaluate e).steps.toList = x.attachQuantities.linesWith [] := by
    rcases numeric.trace_eq.2 with lines | ⟨-, two⟩
    · exact steps.trans lines
    · rw [← steps, Array.length_toList] at two
      omega
  have prepared : prepare e = ((prepare e).1, .ok ()) := by
    obtain ⟨-, ended⟩ := prepare_eq displays formed
    rw [numeric.prepare] at ended
    exact Prod.ext rfl ended
  have faithful : ∀ y ∈ x.attachQuantities.run.1, y.FaithfulLeaves := by
    have start := (prepare_eq displays formed).1
    rw [numeric.prepare] at start
    intro y member
    obtain ⟨g, passes, t, spans, root, rfl⟩ := passes_of_run .prepared start y member
    exact faithfulLeaves_view spans.links fun id inside isLeaf q value =>
      faithful _ g id q prepared passes (root ▸ (reaches_iff spans.links).mpr inside) isLeaf value
  obtain ⟨j, rfl⟩ : ∃ j, i = j + 1 := ⟨i - 1, by omega⟩
  have inside : j + 1 < (x.attachQuantities.linesWith []).length := by
    rw [← lines, Array.length_toList]
    omega
  have line : (evaluate e).steps[j + 1] = (x.attachQuantities.linesWith [])[j + 1] := by
    simp only [← lines, Array.getElem_toList]
  rw [line] at shallow signs ⊢
  obtain ⟨w, built', numeric', replays⟩ := numeric.replays faithful inside shallow signs
  obtain ⟨g, parsed', displays'⟩ := ofText_of_tree built'
  obtain ⟨-, steps', -⟩ := evaluate_eq displays' (Tree.ofText_formed built')
  refine ⟨g, parsed', fun unsigned => ?_⟩
  have zeros : w.UnsignedZeros := by
    obtain ⟨t, spans, root, rfl⟩ := displays'
    intro a member
    rw [view, Tree.flatten_map] at member
    obtain ⟨id, inside, rfl⟩ := List.mem_map.mp member
    exact unsigned id (root ▸ (reaches_iff spans.links).mpr inside)
  have replayed := replays zeros
  rcases numeric'.trace_eq.2 with lines' | ⟨single, -⟩
  · rw [steps', lines', replayed, lines]
  · rw [replayed, List.length_cons, List.length_drop, ← lines, Array.length_toList] at single
    omega

def leavesFaithful (e : Formula) : Bool :=
  (List.range e.size).all fun id => !(e.node id).isLeaf || (e.node id).value.all fun q => decide q.IsFaithful

/-- No more than `fuel` reductions are needed, all numbers are printed faithfully, and no term is
left at the root. -/
def runsFaithfully : Nat → Formula → Bool
  | 0, e => leavesFaithful e && !isPending (e.node e.root) && (rootNumber? e).isNone
  | fuel + 1, e => leavesFaithful e &&
    if isPending (e.node e.root) then
      match deepestPending e with
      | none => true
      | some id =>
        match reduce e id with
        | .ok f => runsFaithfully fuel f
        | .error _ => true
    else (rootNumber? e).isNone

theorem printsFaithfully_of_runs {t : Tree NodeId} (spans : e.Spans t) (root : t.top = e.root)
    (sound : (e.view t).Sound) {fuel : Nat} (runs : runsFaithfully fuel e) (passes : Passes e f) :
    ∀ id, f.Reaches f.root id → (f.node id).isLeaf → ∀ q, (f.node id).value = some q → q.IsFaithful := by
  have along : ∃ fuel, runsFaithfully fuel f := by
    induction passes with
    | prepared => exact ⟨fuel, runs⟩
    | @reduced f g id _ pending found reduced ih =>
      obtain ⟨fuel, runs⟩ := ih
      cases fuel with
      | zero => simp [runsFaithfully, pending] at runs
      | succ fuel =>
        simp only [runsFaithfully, pending, found, reduced, if_true, Bool.and_eq_true] at runs
        exact ⟨fuel, runs.2⟩
    | @simplified f g earlier settled simplified ih =>
      obtain ⟨fuel, runs⟩ := ih
      have none : rootNumber? f = none := by
        cases fuel <;> simp_all [runsFaithfully]
      rw [simplifyRoot, none] at simplified
      exact ⟨fuel, Except.ok.inj simplified ▸ runs⟩
  obtain ⟨fuel, runs⟩ := along
  have leaves : leavesFaithful f := by
    cases fuel <;> simp only [runsFaithfully, Bool.and_eq_true] at runs
    · exact runs.1.1
    · exact runs.1
  obtain ⟨u, stands⟩ := passes.stands spans root sound
  intro id reached isLeaf q value
  have inside := stands.spans.inside id ((reaches_iff stands.spans.links).mp (stands.root ▸ reached))
  simp only [leavesFaithful, List.all_eq_true, List.mem_range] at leaves
  simpa [isLeaf, value] using leaves id inside

theorem printsFaithfully_of_parsed {text : String} (parsed : Expression.ofText text = .ok e) {fuel : Nat}
    (runs : runsFaithfully fuel (prepare e).1) : e.PrintsFaithfully := by
  intro f g id q prepared passes reached isLeaf value
  obtain ⟨t, spans, root, sound⟩ := stands_of_parsed parsed prepared
  exact printsFaithfully_of_runs spans root sound (by simpa [prepared] using runs) passes id reached
    isLeaf q value

/-- A negative fraction, which is read as a quotient with a sign over it. -/
theorem evaluate_replays_fraction :
    ∃ e g : Formula, Expression.ofText "1/2-1+3" = .ok e ∧ e.PrintsFaithfully ∧
    (evaluate e).steps = #["Expression: 1/2-1+3", "-1/2+3", "5/2"] ∧ Token.Shallow "-1/2+3" ∧
    Expression.ofText "-1/2+3" = .ok g ∧
      (∀ id, g.Reaches g.root id → (g.node id).token.text ≠ "-0") ∧
      (evaluate g).steps.toList = ["Expression: -1/2+3", "5/2"] := by
  have tested : (Expression.ofText "1/2-1+3" : Except GrammarError Formula).toOption.any fun e =>
      runsFaithfully 8 (prepare e).1 &&
        decide ((evaluate e).steps = #["Expression: 1/2-1+3", "-1/2+3", "5/2"]) := by decide +kernel
  have unsigned : (Expression.ofText "-1/2+3" : Except GrammarError Formula).toOption.any fun g =>
      (List.range g.size).all fun id => (g.node id).token.text != "-0" := by decide +kernel
  cases parsed : (Expression.ofText "1/2-1+3" : Except GrammarError Formula) with
  | error error => simp [parsed, Except.toOption] at tested
  | ok e =>
    simp only [parsed, Except.toOption, Option.any_some, Bool.and_eq_true, decide_eq_true_eq] at tested
    obtain ⟨runs, steps⟩ := tested
    have faithful := printsFaithfully_of_parsed parsed runs
    have shallow : Token.Shallow "-1/2+3" := Token.shallow_of_flat (by simp [Text.IsNumeric]) (by decide)
    have line (inside : 1 < (evaluate e).steps.size) : (evaluate e).steps[1] = "-1/2+3" := by simp [steps]
    obtain ⟨g, parsed', replays⟩ :=
      evaluate_replays parsed (by simp [Text.IsNumeric]) faithful (i := 1) (Nat.le_refl _)
      (by rw [steps]; decide) (line _ ▸ shallow) (fun power => absurd (line _ ▸ power) (by decide))
    rw [line] at parsed' replays
    have plain : ∀ id, g.Reaches g.root id → (g.node id).token.text ≠ "-0" := fun id reached => by
      obtain ⟨x, -, ⟨t, spans, root, -⟩, -⟩ := displays_of_parsed parsed'
      have inside := spans.inside id ((reaches_iff spans.links).mp (root ▸ reached))
      simp only [parsed', Except.toOption, Option.any_some, List.all_eq_true, List.mem_range,
        bne_iff_ne] at unsigned
      exact unsigned id inside
    refine ⟨e, g, rfl, faithful, steps, shallow, parsed', plain, ?_⟩
    rw [replays plain, steps]
    rfl

/-- A sign over a zero is read as a part of it, and a zero is shown without one. -/
theorem evaluate_negative_zero : ∃ e g : Formula, Expression.ofText "-0*4" = .ok e ∧ e.PrintsFaithfully ∧
    (evaluate e).steps = #["Expression: -0*4", "-0", "0"] ∧ Token.Shallow "-0" ∧
    Expression.ofText "-0" = .ok g ∧
      (evaluate g).steps.toList = ["Expression: 0", "0"] ∧
      (evaluate g).steps.toList ≠ ["Expression: -0", "0"] := by
  have tested : (Expression.ofText "-0*4" : Except GrammarError Formula).toOption.any fun e =>
      runsFaithfully 8 (prepare e).1 &&
        decide ((evaluate e).steps = #["Expression: -0*4", "-0", "0"]) := by decide +kernel
  have again : (Expression.ofText "-0" : Except GrammarError Formula).toOption.any fun g =>
      decide ((evaluate g).steps.toList = ["Expression: 0", "0"]) := by decide +kernel
  cases parsed : (Expression.ofText "-0*4" : Except GrammarError Formula) with
  | error error => simp [parsed, Except.toOption] at tested
  | ok e =>
    cases parsed' : (Expression.ofText "-0" : Except GrammarError Formula) with
    | error error => simp [parsed', Except.toOption] at again
    | ok g =>
      simp only [parsed, Except.toOption, Option.any_some, Bool.and_eq_true, decide_eq_true_eq] at tested
      simp only [parsed', Except.toOption, Option.any_some, decide_eq_true_eq] at again
      refine ⟨e, g, rfl, printsFaithfully_of_parsed parsed tested.1, tested.2,
        Token.shallow_of_flat (by simp [Text.IsNumeric]) (by decide), rfl, again, ?_⟩
      rw [again]
      decide

end Formula

end Stepwise
