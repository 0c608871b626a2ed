import Stepwise.Proofs.LinearSystem.Linear
import Stepwise.Proofs.LinearSystem.Table
import Stepwise.Proofs.Matrix.Classify

/-! What is answered about a system of linear equations with integer coefficients. Main statement:
while nothing is rounded before the reduction and zeros are told apart in it, a system without
solutions is answered so, and the answer to any other has one parameter for each variable that the
rank leaves free. -/
namespace Stepwise.LinearSystem

open Decimal (IsRational rational?)

def letters (trees : List (Tree Mark)) : List Char :=
  (trees.flatMap Tree.letters).dedup.mergeSort fun a b => a ≤ b

def Solvable (trees : List (Tree Mark)) : Prop := ∃ v : Char → ℚ, ∀ x ∈ trees, x.exact v = 0

def coefficients (trees : List (Tree Mark)) : RationalMatrix trees.length (letters trees).length :=
  fun i j => trees[i].coefficient (letters trees)[j]

def matrix? (equations : List String) : Option Matrix :=
  (Table.pushTexts {} equations).toOption.bind fun table => table.toMatrix.toOption

/-- Every literal and every coefficient is a double, zeros are told apart when the matrix is
reduced, and no number overflows there. -/
structure Reliable (equations : List String) (trees : List (Tree Mark)) : Prop where
  reads : ∀ x ∈ trees, x.ReadsExactly
  collects : ∀ text ∈ equations, CollectsExactly text
  discerning : ∀ m, matrix? equations = some m → m.Discerning
  finite : ∀ m, matrix? equations = some m → m.rref.IsFinite

section Rows

variable {trees : List (Tree Mark)} {ts : List Terms}

structure Spells (x : Tree Mark) (terms : Terms) : Prop where
  distinct : terms.keys.Nodup
  keys : ∀ letter, .letter letter ∈ terms.keys ↔ letter ∈ x.letters
  total : ∀ v, terms.total? v = some (x.exact v)

/-- Every equation of a system has its terms. -/
theorem exists_terms {equations : List String}
    (parsed : List.Forall₂ (fun text x => Tree.ofText text = .ok x) equations trees)
    (linear : ∀ x ∈ trees, x.IsLinearEquation) (reads : ∀ x ∈ trees, x.ReadsExactly)
    (collects : ∀ text ∈ equations, CollectsExactly text) :
    ∃ ts, List.Forall₂ (fun text terms => termsOfText text = .ok terms) equations ts ∧
      List.Forall₂ Spells trees ts := by
  induction parsed with
  | nil => exact ⟨[], .nil, .nil⟩
  | @cons text x texts rest here _ ih =>
    obtain ⟨ts, first, second⟩ := ih (fun y member => linear y (List.mem_cons_of_mem _ member))
      (fun y member => reads y (List.mem_cons_of_mem _ member))
      fun other member => collects other (List.mem_cons_of_mem _ member)
    obtain ⟨terms, collected, distinct, keys, total⟩ :=
      termsOfText_linear here (linear x (List.mem_cons_self ..)) (reads x (List.mem_cons_self ..))
      (collects text (List.mem_cons_self ..))
    exact ⟨terms :: ts, .cons collected first, .cons ⟨distinct, keys, total⟩ second⟩

theorem mem_letters {letter : Char} : letter ∈ letters trees ↔ ∃ x ∈ trees, letter ∈ x.letters := by
  simp [letters]

theorem nodup_letters : (letters trees).Nodup :=
  (List.mergeSort_perm ..).nodup_iff.mpr (List.nodup_dedup _)

/-- The table has a column for every letter of the system. -/
theorem letters_eq {table : Table} (spells : List.Forall₂ Spells trees ts)
    (tabulates : table.Tabulates ts []) :
    table.letters = letters trees := by
  have members (letter : Char) : letter ∈ table.letters ↔ letter ∈ letters trees := by
    rw [Table.mem_letters, tabulates.keys, mem_letters]
    simp only [List.not_mem_nil, false_or]
    clear tabulates
    induction spells with
    | nil => simp
    | cons here _ ih => simp only [List.mem_cons, exists_eq_or_imp, here.keys, ih]
  have perm := (List.perm_ext_iff_of_nodup (Table.nodup_letters tabulates.distinct) nodup_letters).mpr members
  rw [Table.letters_eq]
  exact Table.mergeSort_eq ((List.mergeSort_perm ..).symm.trans perm) (List.pairwise_mergeSort' (· ≤ ·) _)

/-- The value of an equation, from the fractions in its row. -/
theorem exact_eq {x : Tree Mark} {terms : Terms} (spells : Spells x terms) (member : x ∈ trees)
    (v : Char → ℚ) :
    x.exact v = ∑ j : Fin (letters trees).length,
      (rational? (terms.sum (.letter (letters trees)[j]))).getD 0 *
      v (letters trees)[j] - (rational? (terms.sum .constant)).getD 0 := by
  have once : ((letters trees).map Key.letter ++ [Key.constant]).Nodup := by
    refine List.nodup_append'.mpr
      ⟨nodup_letters.map fun a b same => Key.letter.inj same, List.nodup_singleton _, ?_⟩
    simp
  have all : ∀ key ∈ terms.keys, key ∈ (letters trees).map Key.letter ++ [Key.constant] := by
    intro key here
    cases key with
    | constant => simp
    | letter name =>
      have known := mem_letters.mpr ⟨x, member, (spells.keys name).mp here⟩
      simpa using known
  rw [Terms.total_eq_sum spells.distinct once all (spells.total v), List.map_append,
    List.sum_append, List.map_map]
  have sum : ∑ j : Fin (letters trees).length,
      (rational? (terms.sum (.letter (letters trees)[j]))).getD 0 * v (letters trees)[j] =
      ((letters trees).map fun name =>
      (rational? (terms.sum (.letter name))).getD 0 * v name).sum :=
    Fin.sum_univ_fun_getElem (letters trees) fun name =>
      (rational? (terms.sum (.letter name))).getD 0 * v name
  rw [sum]
  simp [Terms.weight, Function.comp_def, sub_eq_add_neg]

end Rows

section System

variable {m : Matrix} {trees : List (Tree Mark)}

structure Represents (m : Matrix) (trees : List (Tree Mark)) : Prop where
  rows : m.rows = trees.length
  cols : m.cols = (letters trees).length + 1
  exact_eq : ∀ i (row : i < trees.length) v, trees[i].exact v =
    ∑ j : Fin (letters trees).length, m.value i j * v (letters trees)[j] - m.value i (letters trees).length

def assign (trees : List (Tree Mark)) (x : Fin (letters trees).length → ℚ) (letter : Char) : ℚ :=
  if member : letter ∈ letters trees then
    x ⟨(letters trees).idxOf letter, List.idxOf_lt_length_of_mem member⟩ else 0

theorem assign_letter (x : Fin (letters trees).length → ℚ) (j : Fin (letters trees).length) :
    assign trees x (letters trees)[j] = x j := by
  have member : (letters trees)[j] ∈ letters trees := List.getElem_mem j.isLt
  rw [assign, dif_pos member]
  congr 1
  exact Fin.ext (nodup_letters.idxOf_getElem j.val j.isLt)

namespace Represents

/-- A solution of the matrix is a solution of the equations. -/
theorem solvable_iff (represents : Represents m trees) :
    Solvable trees ↔ ∃ x, Solves (m.values m.rows ((letters trees).length + 1)) x := by
  have row (i : ℕ) (inside : i < trees.length) (v : Char → ℚ) : trees[i].exact v = 0 ↔
      ∑ j : Fin (letters trees).length, m.value i j * v (letters trees)[j] =
      m.value i (letters trees).length := by
    rw [represents.exact_eq i inside, sub_eq_zero]
  constructor
  · rintro ⟨v, solves⟩
    refine ⟨fun j => v (letters trees)[j], fun i => ?_⟩
    have inside : i.val < trees.length := represents.rows ▸ i.isLt
    exact (row i inside v).mp (solves _ (List.getElem_mem inside))
  · rintro ⟨x, solves⟩
    refine ⟨assign trees x, fun y member => ?_⟩
    obtain ⟨i, inside, rfl⟩ := List.mem_iff_getElem.mp member
    refine (row i inside _).mpr ?_
    simp only [assign_letter]
    exact solves ⟨i, represents.rows ▸ inside⟩

theorem coefficient_eq (represents : Represents m trees) {i : ℕ} (row : i < trees.length)
    (j : Fin (letters trees).length) :
    trees[i].coefficient (letters trees)[j] = m.value i j := by
  have single (k : Fin (letters trees).length) :
      (Pi.single (letters trees)[j] 1 : Char → ℚ) (letters trees)[k] = if k = j then 1 else 0 := by
    rw [Pi.single_apply]
    refine if_congr ⟨fun same => ?_, fun same => same ▸ rfl⟩ rfl rfl
    exact Fin.ext ((List.Nodup.getElem_inj_iff nodup_letters).mp same)
  rw [Tree.coefficient, represents.exact_eq i row, represents.exact_eq i row]
  simp only [single, Pi.zero_apply, mul_ite, mul_one, mul_zero, Finset.sum_const_zero, Finset.sum_ite_eq',
    Finset.mem_univ, if_true]
  ring

theorem rank_eq (represents : Represents m trees) :
    (m.values m.rows (letters trees).length).rank = (coefficients trees).rank := by
  have same : coefficients trees = block trees.length (letters trees).length m.value := by
    funext i j
    exact represents.coefficient_eq i.isLt j
  rw [same, Matrix.values, represents.rows]

end Represents

/-- The trees of a list of texts. -/
theorem forall_parsed {equations : List String} (parsed : equations.mapM Tree.ofText = .ok trees) :
    List.Forall₂ (fun text x => Tree.ofText text = .ok x) equations trees := by
  induction equations generalizing trees with
  | nil =>
    obtain rfl : [] = trees := Except.ok.inj parsed
    exact .nil
  | cons text rest ih =>
    rw [List.mapM_cons] at parsed
    cases here : (Tree.ofText text : Except GrammarError (Tree Mark)) with
    | error error => simp [here, bind, Except.bind] at parsed
    | ok x =>
      cases later : rest.mapM (Tree.ofText (ν := Quantity)) with
      | error error => simp [here, later, bind, Except.bind] at parsed
      | ok others =>
        rw [here, later] at parsed
        obtain rfl : x :: others = trees := Except.ok.inj parsed
        exact .cons here (ih later)

/-- A system of linear equations is solved by its matrix. -/
theorem exists_matrix {equations : List String} (nonempty : equations ≠ [])
    (parsed : equations.mapM Tree.ofText = .ok trees) (linear : ∀ x ∈ trees, x.IsLinearEquation)
    (reads : ∀ x ∈ trees, x.ReadsExactly) (collects : ∀ text ∈ equations, CollectsExactly text) :
    ∃ m, matrix? equations = some m ∧
      solve equations = .ok (m.rref.generalSolution (letters trees)) ∧ Represents m trees := by
  obtain ⟨ts, collected, spells⟩ := exists_terms (forall_parsed parsed) linear reads collects
  obtain ⟨table, pushed, tabulates⟩ := Table.Tabulates.empty.pushTexts collected
  rw [List.nil_append] at tabulates
  have named := letters_eq spells tabulates
  have more : ts ≠ [] := fun none => nonempty (by subst none; cases collected; rfl)
  obtain ⟨m, formed, rows, cols, entries⟩ := tabulates.toMatrix_ok more
  simp only [named] at cols entries
  refine ⟨m, by simp [matrix?, pushed, formed, Except.toOption], ?_,
    rows.trans spells.length_eq.symm, cols, fun i row v => ?_⟩
  · rw [solve, if_neg nonempty, pushed]
    simp only [formed, named]
  · have inside : i < ts.length := spells.length_eq ▸ row
    have here : Spells trees[i] ts[i] := spells.get row inside
    obtain ⟨values, constant⟩ := entries i inside
    rw [exact_eq here (List.getElem_mem row), Matrix.value, constant]
    refine congrArg (· - _) (Finset.sum_congr rfl fun j _ => ?_)
    rw [Matrix.value, values j j.isLt]
    rfl

end System

section Runs

theorem letters_of_perm {trees : List (Tree Mark)} {names : List Char}
    (perm : (trees.flatMap Tree.letters).dedup.Perm names) (sorted : names.Pairwise (· ≤ ·)) :
    letters trees = names :=
  Table.mergeSort_eq perm sorted

theorem exists_run (equations : List String) (names : List Char) (sorted : names.Pairwise (· ≤ ·))
    {P : Matrix → Prop} [DecidablePred P]
    (runs : (Table.pushTexts {} equations).toOption.any fun table =>
      decide (table.names.Perm names) &&
        (table.matrixOver names).toOption.any fun m => decide (P m)) :
    ∃ m, matrix? equations = some m ∧ P m := by
  obtain ⟨table, pushed, runs⟩ := (Option.any_eq_true ..).mp runs
  obtain ⟨perm, runs⟩ := Bool.and_eq_true_iff.mp runs
  obtain ⟨m, formed, holds⟩ := (Option.any_eq_true ..).mp runs
  have named : table.letters = names := Table.mergeSort_eq (of_decide_eq_true perm) sorted
  exact ⟨m, by rw [matrix?, pushed, Option.bind_some, Table.toMatrix_eq, named, formed],
    of_decide_eq_true holds⟩

theorem exists_trees (equations : List String) {Q : List (Tree Mark) → Prop} [DecidablePred Q]
    (runs : (equations.mapM (Tree.ofText (ν := Quantity))).toOption.any fun trees => decide (Q trees)) :
    ∃ trees, equations.mapM (Tree.ofText (ν := Quantity)) = .ok trees ∧ Q trees := by
  obtain ⟨trees, parsed, holds⟩ := (Option.any_eq_true ..).mp runs
  refine ⟨trees, ?_, of_decide_eq_true holds⟩
  cases result : equations.mapM (Tree.ofText (ν := Quantity)) with
  | error error => simp [result, Except.toOption] at parsed
  | ok others =>
    rw [result] at parsed
    exact congrArg Except.ok (Option.some.inj parsed)

theorem rank_block_two {A : ℕ → ℕ → ℚ} (det : A 0 0 * A 1 1 - A 0 1 * A 1 0 ≠ 0) :
    (block 2 2 A).rank = 2 := by
  have unit : IsUnit (block 2 2 A) := by
    rw [Matrix.isUnit_iff_isUnit_det, Matrix.det_fin_two]
    exact isUnit_iff_ne_zero.mpr det
  simpa using Matrix.rank_of_isUnit _ unit

end Runs

end Stepwise.LinearSystem
