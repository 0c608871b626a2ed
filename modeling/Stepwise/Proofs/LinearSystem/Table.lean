import Stepwise.LinearSystem.Table
import Stepwise.Proofs.LinearSystem.Balance
import Stepwise.Proofs.Matrix.Entries

/-! The table that the terms of a system are collected in. Main statement: its matrix has a row for
every equation, with the coefficients of the letters that occur, in the order of the alphabet, and
the constant. -/
namespace Stepwise.LinearSystem

open Decimal (rational?)

namespace Terms

variable {terms : Terms} {key : Key} {v : Char → ℚ}

/-- A key that is missing counts as zero. -/
theorem sum_of_not_mem (absent : key ∉ terms.keys) : terms.sum key = 0.0 := by
  have none : terms.lookup key = none := List.lookup_eq_none_iff.mpr fun term member => by
    rw [bne_iff_ne]
    exact fun same => absent (List.mem_map.mpr ⟨term, member, same.symm⟩)
  rw [sum, none]
  rfl

/-- The value of the terms, key by key. -/
theorem total_eq_sum {keys : List Key} (distinct : terms.keys.Nodup) (once : keys.Nodup)
    (all : ∀ key ∈ terms.keys, key ∈ keys) {s : ℚ} (total : terms.total? v = some s) :
    s = (keys.map fun key => (rational? (terms.sum key)).getD 0 * weight v key).sum := by
  induction terms generalizing keys s with
  | nil =>
    obtain rfl : 0 = s := Option.some.inj total
    refine (List.sum_eq_zero fun q member => ?_).symm
    obtain ⟨key, _, rfl⟩ := List.mem_map.mp member
    have zero : rational? (Terms.sum [] key) = some 0 := Decimal.IsRational.zero
    rw [zero, Option.getD_some, zero_mul]
  | cons term rest ih =>
    obtain ⟨k, x⟩ := term
    obtain ⟨p, value, q, others, rfl⟩ := total_cons.mp total
    obtain ⟨fresh, distinct⟩ := List.nodup_cons.mp distinct
    have here : k ∈ keys := all k (List.mem_cons_self ..)
    have later := ih distinct (once.erase k) (fun key member => (once.mem_erase_iff).mpr
      ⟨fun same => fresh (same ▸ member), all key (List.mem_cons_of_mem _ member)⟩) others
    have value : rational? x = some p := value
    rw [← List.sum_map_erase _ here, sum_cons_self, value, Option.getD_some, later]
    congr 2
    refine List.map_congr_left fun key member => ?_
    rw [sum_cons_other ((once.mem_erase_iff).mp member).1.symm]

end Terms

namespace Table

def keys (table : Table) : List Key := table.columns.map Prod.fst

/-- The table of the equations with the given terms. Columns for `early` are there already. -/
structure Tabulates (table : Table) (ts : List Terms) (early : List Key) : Prop where
  equations : table.equations = ts.length
  distinct : table.keys.Nodup
  keys : ∀ key, key ∈ table.keys ↔ key ∈ early ∨ ∃ terms ∈ ts, key ∈ terms.keys
  columns : ∀ entry ∈ table.columns, entry.2 = ts.map (·.sum entry.1)

variable {table : Table} {ts : List Terms} {early : List Key}

theorem lookup_isSome {key : Key} : (table.columns.lookup key).isSome ↔ key ∈ table.keys := by
  rw [List.lookup_isSome_iff, keys, List.mem_map]
  exact ⟨fun ⟨entry, member, same⟩ => ⟨entry, member, (eq_of_beq same).symm⟩,
    fun ⟨entry, member, same⟩ => ⟨entry, member, beq_iff_eq.mpr same.symm⟩⟩

theorem mem_of_lookup {α β : Type} [BEq α] [LawfulBEq α] {l : List (α × β)} {a : α} {b : β}
    (found : l.lookup a = some b) :
    (a, b) ∈ l := by
  obtain ⟨before, after, rfl, _⟩ := List.lookup_eq_some_iff.mp found
  simp

namespace Tabulates

theorem empty : Tabulates {} [] [] where
  equations := rfl
  distinct := .nil
  keys key := by simp [Table.keys]
  columns entry member := by cases member

theorem ensure (tabulates : table.Tabulates ts early) (key : Key) :
    (table.ensure key).Tabulates ts (key :: early) := by
  unfold Table.ensure
  split
  · next present =>
    refine ⟨tabulates.equations, tabulates.distinct, fun other => ?_, tabulates.columns⟩
    rw [List.mem_cons, or_assoc, ← tabulates.keys]
    exact ⟨.inr, fun either => either.elim (fun same => same ▸ lookup_isSome.mp present) id⟩
  · next absent =>
    have absent : key ∉ table.keys := mt lookup_isSome.mpr absent
    have grown : Table.keys
      { table with columns := table.columns ++ [(key, List.replicate table.equations 0.0)] } =
        table.keys ++ [key] := by simp [Table.keys]
    refine ⟨tabulates.equations, ?_, fun other => ?_, fun entry member => ?_⟩
    · rw [grown]
      exact List.nodup_append'.mpr
        ⟨tabulates.distinct, List.nodup_singleton key, List.disjoint_singleton.mpr absent⟩
    · rw [grown, List.mem_append, tabulates.keys, List.mem_singleton, List.mem_cons, or_comm, or_assoc]
    · rcases List.mem_append.mp member with earlier | here
      · exact tabulates.columns entry earlier
      · obtain rfl := List.mem_singleton.mp here
        rw [tabulates.equations, ← List.map_const']
        refine List.map_congr_left fun terms member => (Terms.sum_of_not_mem fun here => absent ?_).symm
        exact (tabulates.keys key).mpr (.inr ⟨terms, member, here⟩)

theorem ensureAll (tabulates : table.Tabulates ts early) (terms : Terms) :
    (terms.foldl (fun table term => table.ensure term.1) table).Tabulates ts
    (terms.keys.reverse ++ early) := by
  induction terms generalizing table early with
  | nil => exact tabulates
  | cons term rest ih =>
    have := ih (tabulates.ensure term.1)
    simpa [Terms.keys] using this

/-- An equation is a row of its own. -/
theorem push (tabulates : table.Tabulates ts []) (terms : Terms) :
    (table.push terms).Tabulates (ts ++ [terms]) [] := by
  obtain ⟨equations, distinct, keys, columns⟩ := tabulates.ensureAll terms
  have same : (table.push terms).keys = (terms.foldl (fun table term => table.ensure term.1) table).keys := by
    simp [Table.push, Table.keys]
  refine ⟨?_, same ▸ distinct, fun key => ?_, fun entry member => ?_⟩
  · simp [Table.push, equations]
  · rw [same, keys]
    simp [or_and_right, exists_or, or_comm]
  · obtain ⟨⟨key, column⟩, earlier, rfl⟩ := List.mem_map.mp member
    obtain rfl : column = ts.map (·.sum key) := columns _ earlier
    simp [Terms.sum]

theorem pushTexts {equations : List String} {more : List Terms} (tabulates : table.Tabulates ts [])
    (collected : List.Forall₂ (fun text terms => termsOfText text = .ok terms) equations more) :
    ∃ table', table.pushTexts equations = .ok table' ∧ table'.Tabulates (ts ++ more) [] := by
  induction collected generalizing table ts with
  | nil => exact ⟨table, rfl, by simpa using tabulates⟩
  | @cons text terms texts rest here _ ih =>
    obtain ⟨table', pushed, tabulates⟩ := ih (tabulates.push terms)
    exact ⟨table', by rw [Table.pushTexts, here]; exact pushed, by simpa using tabulates⟩

end Tabulates

def names (table : Table) : List Char :=
  table.columns.filterMap fun (key, _) =>
    match key with
    | .letter name => some name
    | .constant => none

theorem letters_eq (table : Table) : table.letters = table.names.mergeSort fun a b => a ≤ b := rfl

theorem mem_letters {letter : Char} : letter ∈ table.letters ↔ .letter letter ∈ table.keys := by
  rw [letters_eq, List.mem_mergeSort, names, List.mem_filterMap, keys, List.mem_map]
  constructor
  · rintro ⟨⟨key, column⟩, member, found⟩
    cases key with
    | constant => cases found
    | letter name =>
      obtain rfl := Option.some.inj found
      exact ⟨_, member, rfl⟩
  · rintro ⟨⟨key, column⟩, member, rfl⟩
    exact ⟨_, member, rfl⟩

theorem nodup_letters (distinct : table.keys.Nodup) : table.letters.Nodup := by
  have names : table.names = table.keys.filterMap fun
      | .letter name => some name
      | .constant => none := by
    rw [keys, List.filterMap_map]
    rfl
  have once : table.names.Nodup := names ▸ distinct.filterMap fun a b name first second => by
    cases a <;> cases b <;> simp_all
  exact (List.mergeSort_perm ..).nodup_iff.mpr once

/-- Letters that are in order already. -/
theorem mergeSort_eq {names order : List Char} (perm : names.Perm order) (sorted : order.Pairwise (· ≤ ·)) :
    (names.mergeSort fun a b => a ≤ b) = order :=
  ((List.mergeSort_perm ..).trans perm).eq_of_pairwise' (List.pairwise_mergeSort' (· ≤ ·) names) sorted

def order (names : List Char) : List Key := names.map Key.letter ++ [.constant]

def matrixOver (table : Table) (names : List Char) : Except ComputationError Matrix :=
  Matrix.ofRows ((List.range table.equations).map fun row =>
    (order names).map fun key => ((table.column? key).bind (·[row]?)).getD 0.0)

theorem toMatrix_eq (table : Table) : table.toMatrix = table.matrixOver table.letters := rfl

theorem Tabulates.matrixOver_eq (tabulates : table.Tabulates ts []) (names : List Char) :
    table.matrixOver names = Matrix.ofRows (ts.map fun terms => (order names).map terms.sum) := by
  refine congrArg Matrix.ofRows ?_
  refine List.ext_getElem (by simp [tabulates.equations]) fun row first second => ?_
  rw [List.getElem_map, List.getElem_map, List.getElem_range]
  refine List.map_congr_left fun key _ => ?_
  have inside : row < ts.length := by simpa using second
  cases found : table.columns.lookup key with
  | none =>
    have absent : key ∉ table.keys := fun member => by simpa [found] using lookup_isSome.mpr member
    have missing : key ∉ ts[row].keys := fun member =>
      absent ((tabulates.keys key).mpr (.inr ⟨_, List.getElem_mem inside, member⟩))
    rw [Terms.sum_of_not_mem missing, column?, found]
    rfl
  | some column =>
    have listed : column = ts.map (·.sum key) := tabulates.columns _ (mem_of_lookup found)
    simp [column?, found, listed, inside]

/-- The matrix of a system with equations. -/
theorem Tabulates.toMatrix_ok (tabulates : table.Tabulates ts []) (nonempty : ts ≠ []) :
    ∃ m, table.toMatrix = .ok m ∧ m.rows = ts.length ∧ m.cols = table.letters.length + 1 ∧
      ∀ i (row : i < ts.length),
      (∀ j (col : j < table.letters.length), m.get i j = ts[i].sum (.letter table.letters[j])) ∧
        m.get i table.letters.length = ts[i].sum .constant := by
  have length : (order table.letters).length = table.letters.length + 1 := by simp [order]
  have rowsNonempty : (ts.map fun terms => (order table.letters).map terms.sum) ≠ [] := by
    simpa using nonempty
  obtain ⟨m, formed, rows, cols, entries⟩ :=
    Matrix.ofRows_ok rowsNonempty (Nat.succ_pos table.letters.length) (by simp [length])
  refine ⟨m, by rw [toMatrix_eq, tabulates.matrixOver_eq, formed], by simpa using rows, cols,
    fun i row => ⟨fun j col => ?_, ?_⟩⟩
  · rw [entries i (by simpa using row) j (by simp [length]; omega)]
    simp [order, List.getElem_append_left, col]
  · rw [entries i (by simpa using row) _ (by simp [length])]
    simp [order]

end Table

end Stepwise.LinearSystem
