import Stepwise.Matrix.Solution
import Stepwise.Proofs.Matrix.Exact

/-! The general solution of a reduced system. Before its numbers are written, the right side of a
line is an affine form in the parameters. A choice of the parameters is a solution, and every
solution is one choice. -/
namespace Stepwise

open Decimal (IsRational rational? isFinite)

/-- A sum of multiples of parameters and a constant. -/
structure AffineForm where
  terms : List (Float × String)
  constant : Float

namespace AffineForm

def text (form : AffineForm) : String :=
  let terms := form.terms.map fun term => Matrix.parameterTerm term.1 term.2
  let terms := if form.constant != 0.0 then terms ++ [Decimal.sixPlaces form.constant] else terms
  if terms.isEmpty then "0" else String.intercalate " + " terms

def eval (form : AffineForm) (choice : String → ℚ) : ℚ :=
  (form.terms.map fun term => (rational? term.1).getD 0 * choice term.2).sum +
    (rational? form.constant).getD 0

end AffineForm

namespace Matrix

def columnNames (m : Matrix) (letters : List Char) : List (Option String) :=
  nameParameters (freeLetters letters)
    ((List.range letters.length).map fun col => (col, m.basicRow? letters.length col))

def parameters (m : Matrix) (letters : List Char) : List String := (m.columnNames letters).filterMap id

def parameter? (m : Matrix) (letters : List Char) (col : ℕ) : Option String :=
  (m.columnNames letters)[col]?.join

def basicForm (m : Matrix) (row : ℕ) (names : List (Option String)) : AffineForm where
  terms := names.zipIdx.filterMap fun (parameter, col) =>
    parameter.bind fun name => if m.get row col != 0.0 then some (-m.get row col, name) else none
  constant := m.constantOf row

def solutionForm (m : Matrix) (letters : List Char) (col : ℕ) : AffineForm :=
  match m.parameter? letters col, m.basicRow? letters.length col with
  | some parameter, _ => ⟨[(1.0, parameter)], 0.0⟩
  | none, some row => m.basicForm row (m.columnNames letters)
  | none, none => ⟨[], 0.0⟩

def chosen (m : Matrix) (letters : List Char) (choice : String → ℚ) (col : Fin letters.length) : ℚ :=
  (m.solutionForm letters col).eval choice

def solutionLines (m : Matrix) (letters : List Char) : List String :=
  letters.zipIdx.map fun (letter, col) => letter.toString ++ " = " ++ (m.solutionForm letters col).text

theorem basicSide_eq (m : Matrix) (row : ℕ) (names : List (Option String)) :
    m.basicSide row names = (m.basicForm row names).text := by
  have terms : (names.zipIdx.filterMap fun (parameter, col) =>
      parameter.bind fun name => if m.get row col != 0.0 then some (-m.get row col, name) else none).map
        (fun term => parameterTerm term.1 term.2) =
      names.zipIdx.filterMap fun (parameter, col) =>
        parameter.bind fun name => if m.get row col != 0.0 then
            some (parameterTerm (-m.get row col) name) else none := by
    rw [List.map_filterMap]
    congr 1
    funext ⟨parameter, col⟩
    cases parameter with
    | none => rfl
    | some name =>
      simp only [Option.bind_some]
      split <;> rfl
  simp only [basicSide, basicForm, AffineForm.text, terms]

section Names

/-- A name beyond the letters. -/
theorem toList_numbered (col : ℕ) : s!"t{col + 1}".toList = 't' :: Nat.toDigits 10 (col + 1) := by
  have digits : (toString (col + 1)).toList = Nat.toDigits 10 (col + 1) := Nat.toList_repr
  simp only [String.toList_append, digits]
  simp [toString]

theorem numbered_ne_letter (col : ℕ) (letter : Char) : s!"t{col + 1}" ≠ letter.toString := by
  intro equal
  have chars := congrArg String.toList equal
  rw [toList_numbered] at chars
  have single : letter.toString.toList = [letter] := by simp
  rw [single] at chars
  exact Nat.toDigits_ne_nil (List.cons.inj chars).2

theorem numbered_injective {a b : ℕ} (equal : s!"t{a + 1}" = s!"t{b + 1}") : a = b := by
  have chars := congrArg String.toList equal
  rw [toList_numbered, toList_numbered] at chars
  have values := congrArg (Nat.ofDigitChars 10 · 0) (List.cons.inj chars).2
  simp only [Nat.ofDigitChars_ten_toDigits] at values
  exact Nat.succ.inj values

theorem toString_letter_injective {a b : Char} (equal : a.toString = b.toString) : a = b := by
  have := congrArg String.toList equal
  simpa using this

/-- Where a parameter's name comes from. -/
theorem mem_nameParameters {letters : List Char} {columns : List (ℕ × Option ℕ)} {name : String}
    (member : some name ∈ nameParameters letters columns) :
    (∃ letter ∈ letters, name = letter.toString) ∨ ∃ col ∈ columns.map Prod.fst, name = s!"t{col + 1}" := by
  induction columns generalizing letters with
  | nil => simp [nameParameters] at member
  | cons column rest ih =>
    obtain ⟨col, _ | row⟩ := column
    · cases letters with
      | nil =>
        rcases List.mem_cons.mp member with same | later
        · exact .inr ⟨col, List.mem_cons_self .., Option.some.inj same⟩
        · rcases ih later with ⟨letter, impossible, _⟩ | ⟨col, inside, same⟩
          · cases impossible
          · exact .inr ⟨col, List.mem_cons_of_mem _ inside, same⟩
      | cons letter letters =>
        rcases List.mem_cons.mp member with same | later
        · exact .inl ⟨letter, List.mem_cons_self .., Option.some.inj same⟩
        · rcases ih later with ⟨letter, inside, same⟩ | ⟨col, inside, same⟩
          · exact .inl ⟨letter, List.mem_cons_of_mem _ inside, same⟩
          · exact .inr ⟨col, List.mem_cons_of_mem _ inside, same⟩
    · rcases List.mem_cons.mp member with impossible | later
      · cases impossible
      · rcases ih later with found | ⟨col, inside, same⟩
        · exact .inl found
        · exact .inr ⟨col, List.mem_cons_of_mem _ inside, same⟩

/-- No name is given twice. -/
theorem nodup_nameParameters {letters : List Char} {columns : List (ℕ × Option ℕ)}
    (distinct : letters.Nodup) (columns_distinct : (columns.map Prod.fst).Nodup) :
    ((nameParameters letters columns).filterMap id).Nodup := by
  induction columns generalizing letters with
  | nil => exact List.nodup_nil
  | cons column rest ih =>
    obtain ⟨fresh, rest_distinct⟩ := List.nodup_cons.mp columns_distinct
    obtain ⟨col, _ | row⟩ := column
    · cases letters with
      | nil =>
        refine List.nodup_cons.mpr ⟨fun again => ?_, ih distinct rest_distinct⟩
        obtain ⟨_, member, rfl⟩ := List.mem_filterMap.mp again
        rcases mem_nameParameters member with ⟨letter, impossible, _⟩ | ⟨other, inside, same⟩
        · cases impossible
        · exact fresh (numbered_injective same ▸ inside)
      | cons letter letters =>
        obtain ⟨new, distinct⟩ := List.nodup_cons.mp distinct
        refine List.nodup_cons.mpr ⟨fun again => ?_, ih distinct rest_distinct⟩
        obtain ⟨_, member, rfl⟩ := List.mem_filterMap.mp again
        rcases mem_nameParameters member with ⟨other, inside, same⟩ | ⟨other, inside, same⟩
        · exact new (toString_letter_injective same ▸ inside)
        · exact numbered_ne_letter other letter same.symm
    · exact ih distinct rest_distinct

/-- There are as many names as columns without a leading entry. -/
theorem length_filterMap_nameParameters (letters : List Char) (columns : List (ℕ × Option ℕ)) :
    ((nameParameters letters columns).filterMap id).length = columns.countP fun column =>
    column.2.isNone := by
  induction columns generalizing letters with
  | nil => rfl
  | cons column rest ih =>
    obtain ⟨col, _ | row⟩ := column
    · cases letters with
      | nil => simpa [nameParameters] using ih []
      | cons letter letters => simpa [nameParameters] using ih letters
    · simpa [nameParameters] using ih letters

theorem length_nameParameters (letters : List Char) (columns : List (ℕ × Option ℕ)) :
    (nameParameters letters columns).length = columns.length := by
  induction columns generalizing letters with
  | nil => rfl
  | cons column rest ih =>
    obtain ⟨col, _ | row⟩ := column
    · cases letters <;> exact congrArg (· + 1) (ih _)
    · exact congrArg (· + 1) (ih _)

/-- A column has a name when it has no row of its own. -/
theorem getElem_nameParameters (letters : List Char) (columns : List (ℕ × Option ℕ)) (i : ℕ)
    (column : ℕ × Option ℕ) (here : columns[i]? = some column) :
    ∃ name, (nameParameters letters columns)[i]? = some name ∧ (name = none ↔ column.2.isSome) := by
  induction columns generalizing letters i with
  | nil => simp at here
  | cons first rest ih =>
    obtain ⟨col, _ | row⟩ := first
    · cases i with
      | zero =>
        obtain rfl := Option.some.inj here
        cases letters <;> exact ⟨_, rfl, by simp⟩
      | succ i => cases letters <;> exact ih _ i here
    · cases i with
      | zero =>
        obtain rfl := Option.some.inj here
        exact ⟨none, rfl, by simp⟩
      | succ i => exact ih _ i here

theorem nodup_freeLetters (letters : List Char) : (freeLetters letters).Nodup := by
  have alphabet : "zyxwvutsrqponmlkjihgfedcba".toList.Nodup := by decide
  exact alphabet.filter _

theorem mem_freeLetters {letters : List Char} {letter : Char}
    (free : letter ∈ freeLetters letters) : letter ∉ letters := by
  have := (List.mem_filter.mp free).2
  simpa using this

variable (m : Matrix) (letters : List Char)

theorem parameters_nodup : (m.parameters letters).Nodup := by
  refine nodup_nameParameters (nodup_freeLetters letters) ?_
  rw [List.map_map]
  have : Prod.fst ∘ (fun col => (col, m.basicRow? letters.length col)) = id := rfl
  rw [this, List.map_id]
  exact List.nodup_range

theorem parameters_fresh {name : String} (member : name ∈ m.parameters letters) :
    ∀ letter ∈ letters, name ≠ letter.toString := by
  rintro letter inside rfl
  obtain ⟨_, named, rfl⟩ := List.mem_filterMap.mp member
  rcases mem_nameParameters named with ⟨other, free, same⟩ | ⟨col, -, same⟩
  · exact mem_freeLetters free (toString_letter_injective same ▸ inside)
  · exact numbered_ne_letter col letter same.symm

@[simp] theorem length_columnNames : (m.columnNames letters).length = letters.length := by
  rw [columnNames, length_nameParameters, List.length_map, List.length_range]

theorem length_parameters : (m.parameters letters).length =
    (List.range letters.length).countP fun col => (m.basicRow? letters.length col).isNone := by
  rw [parameters, columnNames, length_filterMap_nameParameters, List.countP_map]
  rfl

variable {m letters} {col : ℕ}

theorem parameter_eq_none (inside : col < letters.length) :
    m.parameter? letters col = none ↔ (m.basicRow? letters.length col).isSome := by
  obtain ⟨name, here, named⟩ := getElem_nameParameters (freeLetters letters)
    ((List.range letters.length).map fun col => (col, m.basicRow? letters.length col)) col
    (col, m.basicRow? letters.length col) (by simp [inside])
  rw [parameter?, columnNames, here, ← named]
  rfl

theorem mem_parameters {name : String} :
    name ∈ m.parameters letters ↔ ∃ col < letters.length, m.parameter? letters col = some name := by
  constructor
  · intro member
    obtain ⟨_, named, rfl⟩ := List.mem_filterMap.mp member
    obtain ⟨col, inside, here⟩ := List.mem_iff_getElem.mp named
    refine ⟨col, by simpa using inside, ?_⟩
    rw [parameter?, List.getElem?_eq_getElem inside, here]
    rfl
  · rintro ⟨col, inside, here⟩
    refine List.mem_filterMap.mpr ⟨some name, ?_, rfl⟩
    exact List.mem_of_getElem? (Option.join_eq_some_iff.mp here)

theorem parameter_injective {a b : ℕ} {name : String} (first : m.parameter? letters a = some name)
    (second : m.parameter? letters b = some name) : a = b := by
  have distinct := List.pairwise_filterMap.mp (m.parameters_nodup letters)
  have apart (i j : ℕ) (less : i < j) (left : m.parameter? letters i = some name)
      (right : m.parameter? letters j = some name) : False := by
    obtain ⟨inside, left⟩ := List.getElem?_eq_some_iff.mp (Option.join_eq_some_iff.mp left)
    obtain ⟨inside', right⟩ := List.getElem?_eq_some_iff.mp (Option.join_eq_some_iff.mp right)
    exact List.pairwise_iff_getElem.mp distinct i j inside inside' less name left name right rfl
  rcases Nat.lt_trichotomy a b with less | same | more
  · exact (apart a b less first second).elim
  · exact same
  · exact (apart b a more second first).elim

end Names

section Leading

variable {m : Matrix} {n row col : ℕ}

def Leads (m : Matrix) (row col : ℕ) : Prop := (∀ j < col, m.value row j = 0) ∧ m.value row col ≠ 0

theorem Leads.unique {a b : ℕ} (first : m.Leads row a) (second : m.Leads row b) : a = b := by
  rcases Nat.lt_trichotomy a b with less | same | more
  · exact absurd (second.1 a less) first.2
  · exact same
  · exact absurd (first.1 b more) second.2

theorem IsFinite.isRational (finite : m.IsFinite) (inside : row < m.rows) (width : col < m.cols) :
    IsRational (m.get row col) (m.value row col) := finite.holds row inside col width

theorem IsFinite.test (finite : m.IsFinite) (inside : row < m.rows) (width : col < m.cols) :
    m.get row col != 0.0 ↔ m.value row col ≠ 0 := by
  have test := (finite.isRational inside width).beq_iff .zero
  simpa [bne] using not_congr test

theorem leadingColumn_eq_some (finite : m.IsFinite) (inside : row < m.rows) (width : n ≤ m.cols) :
    m.leadingColumn? n row = some col ↔ col < n ∧ m.Leads row col := by
  rw [leadingColumn?, List.find?_range_eq_some, List.mem_range]
  constructor
  · rintro ⟨nonzero, here, before⟩
    refine ⟨here, fun j less => ?_, (finite.test inside (by omega)).mp nonzero⟩
    by_contra other
    have := before j less
    rw [(finite.test inside (by omega)).mpr other] at this
    cases this
  · rintro ⟨here, before, nonzero⟩
    refine ⟨(finite.test inside (by omega)).mpr nonzero, here, fun j less => ?_⟩
    have := mt (finite.test inside (by omega)).mp (not_not.mpr (before j less))
    simpa using this

theorem leadingColumn_eq_none (finite : m.IsFinite) (inside : row < m.rows) (width : n ≤ m.cols) :
    m.leadingColumn? n row = none ↔ ∀ j < n, m.value row j = 0 := by
  rw [leadingColumn?, List.find?_eq_none]
  refine forall_congr' fun j => ?_
  rw [List.mem_range]
  refine imp_congr_right fun less => ?_
  rw [finite.test inside (by omega), not_not]

theorem isInconsistent_iff (finite : m.IsFinite) (width : m.cols = n + 1) :
    m.isInconsistent n ↔ ∃ row < m.rows, (∀ j < n, m.value row j = 0) ∧ m.value row n ≠ 0 := by
  rw [isInconsistent, List.any_eq_true]
  refine exists_congr fun row => ?_
  rw [List.mem_range]
  refine and_congr_right fun inside => ?_
  have last : m.constantOf row = m.get row n := by rw [constantOf, width, Nat.add_sub_cancel]
  rw [Bool.and_eq_true, Option.isNone_iff_eq_none, leadingColumn_eq_none finite inside (by omega), last,
    finite.test inside (by omega)]

theorem basicRow_eq_none (finite : m.IsFinite) (width : n ≤ m.cols) (here : col < n) :
    m.basicRow? n col = none ↔ ∀ row < m.rows, ¬ m.Leads row col := by
  rw [basicRow?, List.find?_eq_none]
  refine forall_congr' fun row => ?_
  rw [List.mem_reverse, List.mem_range]
  refine imp_congr_right fun inside => ?_
  rw [beq_iff_eq, leadingColumn_eq_some finite inside width]
  simp [here]

theorem leads_of_basicRow (finite : m.IsFinite) (width : n ≤ m.cols) (basic : m.basicRow? n col = some row) :
    row < m.rows ∧ col < n ∧ m.Leads row col := by
  have inside : row < m.rows := by simpa using List.mem_of_find?_eq_some basic
  have leading := List.find?_some basic
  rw [beq_iff_eq, leadingColumn_eq_some finite inside width] at leading
  exact ⟨inside, leading⟩

end Leading

section Solutions

variable {m : Matrix} {n : ℕ}

theorem isLeadingEntry_iff {row col : ℕ} (inside : row < m.rows) (width : col < n + 1) :
    (m.values m.rows (n + 1)).IsLeadingEntry ⟨row, inside⟩ ⟨col, width⟩ ↔ m.Leads row col := by
  refine and_congr ⟨fun before j less => ?_, fun before j less => before j less⟩ Iff.rfl
  exact before ⟨j, less.trans width⟩ less

variable (finite : m.IsFinite) (width : m.cols = n + 1)

include finite width

/-- A leading entry is that of the row found for its column. -/
theorem basicRow_of_leads (echelon : (m.values m.rows (n + 1)).IsRowEchelon) {row col : ℕ}
    (inside : row < m.rows) (here : col < n) (leads : m.Leads row col) :
    m.basicRow? n col = some row := by
  cases found : m.basicRow? n col with
  | none => exact absurd leads ((basicRow_eq_none finite (by omega) here).mp found row inside)
  | some other =>
    obtain ⟨inside', -, leads'⟩ := leads_of_basicRow finite (by omega) found
    have apart {a b : ℕ} (above : a < b) (second : b < m.rows) (upper : m.Leads a col)
        (lower : m.Leads b col) : False := by
      have zero := @echelon ⟨a, above.trans second⟩ ⟨b, second⟩ above ⟨col, by omega⟩ fun j less =>
        upper.1 j less
      exact lower.2 zero
    rcases Nat.lt_trichotomy other row with less | same | more
    · exact (apart less inside leads' leads).elim
    · rw [same]
    · exact (apart more inside' leads leads').elim

theorem row_unit (reduced : (m.values m.rows (n + 1)).IsReducedRowEchelon) {row col : ℕ}
    (basic : m.basicRow? n col = some row) : m.value row col = 1 := by
  obtain ⟨inside, here, leads⟩ := leads_of_basicRow finite (by omega) basic
  have unit := reduced.eq_one ((isLeadingEntry_iff inside (Nat.lt_succ_of_lt here)).mpr leads)
  exact unit

/-- The column of a leading entry is zero in every other row. -/
theorem row_zero (reduced : (m.values m.rows (n + 1)).IsReducedRowEchelon)
    {row other a b : ℕ} (different : a ≠ b) (first : m.basicRow? n a = some row)
    (second : m.basicRow? n b = some other) : m.value row b = 0 := by
  obtain ⟨inside, -, leads⟩ := leads_of_basicRow finite (by omega) first
  obtain ⟨inside', here', leads'⟩ := leads_of_basicRow finite (by omega) second
  have apart : (⟨row, inside⟩ : Fin m.rows) ≠ ⟨other, inside'⟩ := fun equal => by
    obtain rfl := Fin.mk.inj equal
    exact different (leads.unique leads')
  have zero := reduced.eq_zero_of_ne_of_isLeadingEntry apart
    ((isLeadingEntry_iff inside' (Nat.lt_succ_of_lt here')).mpr leads')
  exact zero

/-- The equation of a row with a leading entry says what its variable is. -/
theorem row_sum (reduced : (m.values m.rows (n + 1)).IsReducedRowEchelon) (x : Fin n → ℚ) {row : ℕ}
    {col : Fin n} (basic : m.basicRow? n col = some row) :
    ∑ j : Fin n, m.value row j * x j =
      x col + ∑ j : Fin n, if (m.basicRow? n j).isNone then m.value row j * x j else 0 := by
  have single : x col = ∑ j : Fin n, if j = col then x j else 0 := by simp
  rw [single, ← Finset.sum_add_distrib]
  refine Finset.sum_congr rfl fun j _ => ?_
  by_cases same : j = col
  · subst same
    rw [row_unit finite width reduced basic, basic, one_mul, if_pos rfl]
    simp
  · rw [if_neg same, zero_add]
    cases found : m.basicRow? n j with
    | none => simp
    | some other =>
      rw [row_zero finite width reduced (fun equal => same (Fin.ext equal.symm)) basic found]
      simp

/-- The solutions of a consistent system: the free variables are free and decide the others. -/
theorem solves_iff (reduced : (m.values m.rows (n + 1)).IsReducedRowEchelon)
    (consistent : ¬ m.isInconsistent n) (x : Fin n → ℚ) :
    Solves (m.values m.rows (n + 1)) x ↔ ∀ (col : Fin n) (row : ℕ), m.basicRow? n col = some row →
      x col = m.value row n - ∑ j : Fin n, if (m.basicRow? n j).isNone then m.value row j * x j else 0 := by
  constructor
  · intro solves col row basic
    obtain ⟨inside, -, -⟩ := leads_of_basicRow finite (by omega) basic
    have equation : ∑ j : Fin n, m.value row j * x j = m.value row n := solves ⟨row, inside⟩
    rw [row_sum finite width reduced x basic] at equation
    linarith
  · rintro solved ⟨row, inside⟩
    change ∑ j : Fin n, m.value row j * x j = m.value row n
    cases leading : m.leadingColumn? n row with
    | none =>
      have zeros := (leadingColumn_eq_none finite inside (by omega)).mp leading
      have constant : m.value row n = 0 := by
        by_contra other
        exact consistent ((isInconsistent_iff finite width).mpr ⟨row, inside, zeros, other⟩)
      rw [constant]
      exact Finset.sum_eq_zero fun j _ => by rw [zeros j j.isLt, zero_mul]
    | some col =>
      obtain ⟨here, leads⟩ := (leadingColumn_eq_some finite inside (by omega)).mp leading
      have basic := basicRow_of_leads finite width reduced.isRowEchelon inside here leads
      have sum := row_sum finite width reduced x
        (show m.basicRow? n (⟨col, here⟩ : Fin n) = some row from basic)
      rw [sum, solved ⟨col, here⟩ row basic]
      ring

theorem unsolvable_of_inconsistent (inconsistent : m.isInconsistent n) (x : Fin n → ℚ) :
    ¬ Solves (m.values m.rows (n + 1)) x := by
  obtain ⟨row, inside, zeros, other⟩ := (isInconsistent_iff finite width).mp inconsistent
  intro solves
  have equation : ∑ j : Fin n, m.value row j * x j = m.value row n := solves ⟨row, inside⟩
  refine other (equation.symm.trans (Finset.sum_eq_zero fun j _ => ?_))
  rw [zeros j j.isLt, zero_mul]

end Solutions

section Forms

variable {m : Matrix} {letters : List Char}

theorem sum_terms (finite : m.IsFinite) {row : ℕ} (inside : row < m.rows) (choice : String → ℚ)
    (names : List (Option String)) (first : ℕ) (width : first + names.length ≤ m.cols) :
    (((names.zipIdx first).filterMap fun (parameter, col) =>
      parameter.bind fun name => if m.get row col != 0.0 then some (-m.get row col, name) else none).map
        fun term => (rational? term.1).getD 0 * choice term.2).sum =
      ∑ j ∈ Finset.range names.length, (names[j]?.join).elim 0 fun name =>
          -m.value row (first + j) * choice name := by
  induction names generalizing first with
  | nil => simp
  | cons parameter rest ih =>
    rw [List.length_cons] at width
    have later := ih (first + 1) (by omega)
    rw [List.length_cons, Finset.sum_range_succ', List.zipIdx_cons]
    simp only [List.getElem?_cons_succ, List.getElem?_cons_zero, ← Nat.add_assoc,
      Nat.add_right_comm first _ 1, Nat.add_zero]
    rw [← later]
    cases parameter with
    | none => simp
    | some name =>
      have entry := finite.isRational inside (show first < m.cols by omega)
      by_cases nonzero : m.get row first != 0.0
      · have negated : rational? (-m.get row first) = some (-m.value row first) := entry.neg
        simp [nonzero, negated, add_comm]
      · have zero : m.value row first = 0 := not_not.mp (mt (finite.test inside (by omega)).mpr nonzero)
        simp [nonzero, zero]

theorem chosen_parameter (choice : String → ℚ) {col : Fin letters.length} {name : String}
    (named : m.parameter? letters col = some name) : m.chosen letters choice col = choice name := by
  have one : rational? 1.0 = some 1 := IsRational.one
  have zero : rational? 0.0 = some 0 := IsRational.zero
  simp [chosen, solutionForm, named, AffineForm.eval, one, zero]

theorem parameter_of_free {col : ℕ} (inside : col < letters.length)
    (free : m.basicRow? letters.length col = none) :
    ∃ name, m.parameter? letters col = some name := by
  refine Option.ne_none_iff_exists'.mp fun none => ?_
  rw [parameter_eq_none inside, free] at none
  cases none

theorem parameter_of_basic {col row : ℕ} (inside : col < letters.length)
    (basic : m.basicRow? letters.length col = some row) :
    m.parameter? letters col = none := by
  rw [parameter_eq_none inside, basic]
  rfl

/-- Only the names of columns are used. -/
theorem terms_parameters {col : ℕ} (inside : col < letters.length) :
    ∀ term ∈ (m.solutionForm letters col).terms, term.2 ∈ m.parameters letters := by
  intro term member
  unfold solutionForm at member
  cases named : m.parameter? letters col with
  | some name =>
    rw [named] at member
    obtain rfl := List.mem_singleton.mp member
    exact mem_parameters.mpr ⟨col, inside, named⟩
  | none =>
    rw [named] at member
    cases basic : m.basicRow? letters.length col with
    | none =>
      rw [basic] at member
      cases member
    | some row =>
      rw [basic] at member
      obtain ⟨⟨parameter, j⟩, listed, found⟩ := List.mem_filterMap.mp member
      obtain ⟨name, rfl, entry⟩ := Option.bind_eq_some_iff.mp found
      have here : some name ∈ m.columnNames letters := List.fst_mem_of_mem_zipIdx listed
      split at entry
      · obtain rfl := Option.some.inj entry
        exact List.mem_filterMap.mpr ⟨_, here, rfl⟩
      · cases entry

theorem line_ne_noSolution (letter : Char) (side : String) :
    letter.toString ++ " = " ++ side ≠ noSolution := by
  intro equal
  have chars := congrArg (fun text => text.toList[1]?) equal
  simp [noSolution] at chars

theorem text_parameter (name : String) : (⟨[(1.0, name)], 0.0⟩ : AffineForm).text = name := by
  have unit : ((1.0 : Float) == 1.0) = true := rfl
  have none : ((0.0 : Float) != 0.0) = false := rfl
  simp only [AffineForm.text, parameterTerm, unit, none, List.map_cons, List.map_nil, if_true]
  rfl

theorem text_nothing : (⟨[], 0.0⟩ : AffineForm).text = "0" := by
  have none : ((0.0 : Float) != 0.0) = false := rfl
  simp [AffineForm.text, none]

theorem generalSolution_eq (width : m.cols = letters.length + 1)
    (consistent : ¬ m.isInconsistent letters.length) :
    m.generalSolution letters = m.solutionLines letters := by
  have count : min letters.length (m.cols - 1) = letters.length := by omega
  unfold generalSolution
  simp only [count, consistent, Bool.false_eq_true, if_false]
  refine List.ext_getElem (by simp [solutionLines, length_nameParameters]) fun i first second => ?_
  have inside : i < letters.length := by simpa [solutionLines] using second
  have bound : i < (m.columnNames letters).length := by simpa using inside
  have named : m.parameter? letters i = (m.columnNames letters)[i] := by
    rw [parameter?, List.getElem?_eq_getElem bound]
    rfl
  unfold columnNames at named bound
  simp only [solutionLines, List.getElem_map, List.getElem_zip, List.getElem_zipIdx,
    List.getElem_range, Nat.zero_add]
  rw [← named, solutionForm]
  cases m.parameter? letters i with
  | some name => exact congrArg (letters[i].toString ++ " = " ++ ·) (text_parameter name).symm
  | none =>
    cases m.basicRow? letters.length i with
    | some row => exact congrArg (letters[i].toString ++ " = " ++ ·) (m.basicSide_eq row _)
    | none => exact congrArg (letters[i].toString ++ " = " ++ ·) text_nothing.symm

/-- The one line without an equals sign stands for an inconsistent system. -/
theorem generalSolution_eq_noSolution (width : m.cols = letters.length + 1) :
    m.generalSolution letters = [noSolution] ↔ m.isInconsistent letters.length := by
  by_cases consistent : m.isInconsistent letters.length
  · have count : min letters.length (m.cols - 1) = letters.length := by omega
    simp [generalSolution, count, consistent]
  · refine iff_of_false (fun message => ?_) consistent
    rw [generalSolution_eq width consistent, solutionLines, List.map_eq_singleton_iff] at message
    obtain ⟨⟨letter, col⟩, -, line⟩ := message
    exact absurd line (line_ne_noSolution letter _)

variable (finite : m.IsFinite) (width : m.cols = letters.length + 1)

include finite width

theorem eval_basicForm {row : ℕ} (inside : row < m.rows) (choice : String → ℚ) :
    (m.basicForm row (m.columnNames letters)).eval choice =
      m.value row letters.length + ∑ j : Fin letters.length,
        (m.parameter? letters j).elim 0 fun name => -m.value row j * choice name := by
  have terms := sum_terms finite inside choice (m.columnNames letters) 0 (by rw [length_columnNames]; omega)
  have constant : rational? (m.constantOf row) = some (m.value row letters.length) := by
    rw [constantOf, width, Nat.add_sub_cancel]
    exact finite.isRational inside (by omega)
  rw [AffineForm.eval, basicForm, terms, constant, Option.getD_some, length_columnNames,
    Finset.sum_range, add_comm]
  simp only [Nat.zero_add, parameter?]

theorem chosen_basic (choice : String → ℚ) {col : Fin letters.length} {row : ℕ}
    (basic : m.basicRow? letters.length col = some row) : m.chosen letters choice col =
      m.value row letters.length - ∑ j : Fin letters.length,
        if (m.basicRow? letters.length j).isNone then m.value row j * m.chosen letters choice j else 0 := by
  obtain ⟨inside, -, -⟩ := leads_of_basicRow finite (by omega) basic
  have form : m.solutionForm letters col = m.basicForm row (m.columnNames letters) := by
    rw [solutionForm, parameter_of_basic col.isLt basic, basic]
  rw [chosen, form, eval_basicForm finite width inside, sub_eq_add_neg, ← Finset.sum_neg_distrib]
  congr 1
  refine Finset.sum_congr rfl fun j _ => ?_
  cases found : m.basicRow? letters.length j with
  | none =>
    obtain ⟨name, named⟩ := parameter_of_free j.isLt found
    rw [named, chosen_parameter choice named]
    simp
  | some other =>
    rw [parameter_of_basic j.isLt found]
    simp

end Forms

/-- A consistent reduced system is solved by its lines: every choice of the parameters is a
solution, and every solution comes from one choice. An inconsistent one has no solution. -/
theorem generalSolution_affine (m : Matrix)
    (letters : List Char) (finite : m.IsFinite) (width : m.cols = letters.length + 1)
    (reduced : (m.values m.rows (letters.length + 1)).IsReducedRowEchelon) :
    (m.generalSolution letters = [noSolution] ↔ ¬ ∃ x, Solves (m.values m.rows (letters.length + 1)) x) ∧
      ((∃ x, Solves (m.values m.rows (letters.length + 1)) x) →
        m.generalSolution letters = m.solutionLines letters ∧
        (m.parameters letters).Nodup ∧
        (∀ name ∈ m.parameters letters, ∀ letter ∈ letters, name ≠ letter.toString) ∧
        (∀ col < letters.length, ∀ term ∈ (m.solutionForm letters col).terms, term.2 ∈ m.parameters letters) ∧
        (∀ choice, Solves (m.values m.rows (letters.length + 1)) (m.chosen letters choice)) ∧
        ∀ x, Solves (m.values m.rows (letters.length + 1)) x → ∃ choice, m.chosen letters choice = x ∧
          ∀ other, m.chosen letters other = x → ∀ name ∈ m.parameters letters, other name = choice name) := by
  have solution (consistent : ¬ m.isInconsistent letters.length) (choice : String → ℚ) :
      Solves (m.values m.rows (letters.length + 1)) (m.chosen letters choice) :=
    (solves_iff finite width reduced consistent _).mpr fun col row basic =>
      chosen_basic finite width choice basic
  refine ⟨?_, fun ⟨x, solves⟩ => ?_⟩
  · rw [generalSolution_eq_noSolution width]
    refine ⟨fun inconsistent ⟨x, solves⟩ =>
      unsolvable_of_inconsistent finite width inconsistent x solves, fun unsolvable => ?_⟩
    by_contra consistent
    exact unsolvable ⟨_, solution consistent fun _ => 0⟩
  have consistent : ¬ m.isInconsistent letters.length := fun inconsistent =>
    unsolvable_of_inconsistent finite width inconsistent x solves
  refine ⟨generalSolution_eq width consistent, m.parameters_nodup letters, fun name =>
    m.parameters_fresh letters, fun col inside => terms_parameters inside, solution consistent,
    fun x solves => ?_⟩
  let choice (name : String) : ℚ :=
    ∑ j : Fin letters.length, if m.parameter? letters j = some name then x j else 0
  have chosen {col : Fin letters.length} {name : String} (named : m.parameter? letters col = some name) :
      choice name = x col := by
    refine (Finset.sum_eq_single col (fun j _ different => if_neg fun also => ?_) (by simp)).trans
      (if_pos named)
    exact different (Fin.ext (parameter_injective also named))
  refine ⟨choice, funext fun col => ?_, fun other same name member => ?_⟩
  · have free {j : Fin letters.length} (none : m.basicRow? letters.length j = none) :
        m.chosen letters choice j = x j := by
      obtain ⟨name, named⟩ := parameter_of_free j.isLt none
      rw [chosen_parameter choice named, chosen named]
    cases basic : m.basicRow? letters.length col with
    | none => exact free basic
    | some row =>
      rw [chosen_basic finite width choice basic,
        (solves_iff finite width reduced consistent x).mp solves col row basic]
      congr 1
      refine Finset.sum_congr rfl fun j _ => ?_
      split
      · next none => rw [free (Option.isNone_iff_eq_none.mp none)]
      · rfl
  · obtain ⟨col, inside, named⟩ := mem_parameters.mp member
    have named : m.parameter? letters (⟨col, inside⟩ : Fin letters.length) = some name := named
    rw [← chosen_parameter other named, same, chosen named]

def solved : Matrix :=
  ofFn 3 4 fun i j => ([[1.0, 2.0, 0.0, 3.0], [0.0, 0.0, 1.0, -1.0]].getD i []).getD j 0.0

theorem generalSolution_affine_solved : solved.IsFinite ∧ (solved.values 3 4).IsReducedRowEchelon ∧
    solved.generalSolution ['x', 'y', 'w'] = ["x = -2z + 3", "y = z", "w = -1"] ∧
    solved.parameters ['x', 'y', 'w'] = ["z"] ∧
    ∀ choice, Solves (solved.values 3 4) (solved.chosen ['x', 'y', 'w'] choice) := by
  have finite : solved.IsFinite := by decide +kernel
  have echelon : Echelon (solved.value · · = 0) 3 4 [(1, 2), (0, 0)] := by
    refine ⟨by simp [Descending], by decide, by decide, by decide +kernel, by decide +kernel,
      fun i low high => ?_⟩
    obtain rfl : i = 2 := Nat.le_antisymm (Nat.le_of_lt_succ high) low
    decide +kernel
  have reduced := echelon.isReduced (by decide +kernel) (by decide +kernel)
  have lines : solved.generalSolution ['x', 'y', 'w'] = ["x = -2z + 3", "y = z", "w = -1"] := by
    decide +kernel
  obtain ⟨message, parametrized⟩ := generalSolution_affine solved ['x', 'y', 'w'] finite rfl reduced
  have solvable : ∃ x, Solves (solved.values 3 4) x := by
    by_contra unsolvable
    have := lines.symm.trans (message.mpr unsolvable)
    simp at this
  obtain ⟨-, -, -, -, solutions, -⟩ := parametrized solvable
  exact ⟨finite, reduced, lines, by decide +kernel, solutions⟩

end Matrix

end Stepwise
