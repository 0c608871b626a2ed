import Stepwise.Proofs.LinearSystem.Table

/-! Tables whose terms and columns are in no particular order. Each equation lists its terms in an
order of its own, and the columns change theirs from one equation to the next. Main statement: every
such table of the same equations has the same letters, columns and matrix, and every column has one
entry for each equation, zero where the equation lacks the key. -/
namespace Stepwise.LinearSystem

variable {ts : List Terms} {terms listed : Terms} {key : Key}

/-- A key that is listed once has the coefficient it is listed with. -/
theorem Terms.lookup_of_mem {x : Float} (once : terms.keys.Nodup) (member : (key, x) ∈ terms) :
    terms.lookup key = some x := by
  have present : (terms.lookup key).isSome := List.lookup_isSome_iff.mpr ⟨_, member, beq_self_eq_true key⟩
  obtain ⟨y, found⟩ := Option.isSome_iff_exists.mp present
  have same := List.inj_on_of_nodup_map once (Table.mem_of_lookup found) member rfl
  rw [found, (Prod.mk.inj same).2]

theorem Terms.sum_perm (once : terms.keys.Nodup) (perm : listed.Perm terms) :
    Terms.sum listed = terms.sum := by
  funext key
  by_cases present : key ∈ terms.keys
  · obtain ⟨⟨_, x⟩, member, rfl⟩ := List.mem_map.mp present
    have listedOnce : listed.keys.Nodup := (perm.map Prod.fst).nodup_iff.mpr once
    rw [Terms.sum, Terms.sum, lookup_of_mem once member, lookup_of_mem listedOnce (perm.mem_iff.mpr member)]
  · have unlisted : key ∉ listed.keys := fun member => present ((perm.map Prod.fst).mem_iff.mp member)
    rw [sum_of_not_mem present, sum_of_not_mem unlisted]

namespace Table

/-- A table that the given equations were pushed into, one after the other. -/
inductive Gathered : List Terms → Table → Prop where
  | new : Gathered [] {}
  /-- The terms of an equation come in any order. -/
  | push {ts : List Terms} {table : Table} {terms listed : Terms} (before : Gathered ts table)
      (order : listed.Perm terms) :
      Gathered (ts ++ [terms]) (table.push listed)
  /-- The columns are kept in any order, and in another one later. -/
  | rearrange {ts : List Terms} {table : Table} {columns : List (Key × List Float)}
      (before : Gathered ts table)
      (order : columns.Perm table.columns) : Gathered ts { table with columns }

variable {table other : Table}

namespace Tabulates

/-- The order of the terms of the last equation makes no difference. -/
theorem relist (tabulates : table.Tabulates (ts ++ [listed]) []) (once : terms.keys.Nodup)
    (order : listed.Perm terms) :
    table.Tabulates (ts ++ [terms]) [] := by
  have keys (key : Key) : key ∈ listed.keys ↔ key ∈ terms.keys := (order.map Prod.fst).mem_iff
  refine ⟨by simpa using tabulates.equations, tabulates.distinct, fun key => ?_, fun entry member => ?_⟩
  · simpa [or_and_right, exists_or, keys] using tabulates.keys key
  · simpa [Terms.sum_perm once order] using tabulates.columns entry member

theorem rearrange (tabulates : table.Tabulates ts []) {columns : List (Key × List Float)}
    (order : columns.Perm table.columns) :
    Tabulates { table with columns } ts [] where
  equations := tabulates.equations
  distinct := (order.map Prod.fst).nodup_iff.mpr tabulates.distinct
  keys key := (order.map Prod.fst).mem_iff.trans (tabulates.keys key)
  columns entry member := tabulates.columns entry (order.mem_iff.mp member)

theorem column_eq (tabulates : table.Tabulates ts []) (key : Key) :
    table.column? key = if ∃ terms ∈ ts, key ∈ terms.keys then some (ts.map (·.sum key)) else none := by
  have occurs : key ∈ table.keys ↔ ∃ terms ∈ ts, key ∈ terms.keys := by simpa using tabulates.keys key
  split
  · next present =>
    obtain ⟨column, found⟩ := Option.isSome_iff_exists.mp (lookup_isSome.mpr (occurs.mpr present))
    rw [column?, found, ← tabulates.columns _ (mem_of_lookup found)]
  · next absent =>
    exact Option.not_isSome_iff_eq_none.mp (mt lookup_isSome.mp (mt occurs.mp absent))

theorem mem_letters_iff (tabulates : table.Tabulates ts []) {letter : Char} :
    letter ∈ table.letters ↔ ∃ terms ∈ ts, .letter letter ∈ terms.keys := by
  rw [mem_letters, tabulates.keys]
  simp

theorem increasing (tabulates : table.Tabulates ts []) : table.letters.Pairwise (· < ·) := by
  have sorted : table.letters.Pairwise (· ≤ ·) := List.pairwise_mergeSort' (· ≤ ·) table.names
  exact (sorted.and (nodup_letters tabulates.distinct)).imp fun both => lt_of_le_of_ne both.1 both.2

theorem letters_unique (first : table.Tabulates ts []) (second : other.Tabulates ts []) :
    table.letters = other.letters :=
  ((List.perm_ext_iff_of_nodup (nodup_letters first.distinct) (nodup_letters second.distinct)).mpr fun _ =>
    first.mem_letters_iff.trans second.mem_letters_iff.symm).eq_of_pairwise' first.increasing
      second.increasing

theorem toMatrix_unique (first : table.Tabulates ts []) (second : other.Tabulates ts []) :
    table.toMatrix = other.toMatrix := by
  rw [toMatrix_eq, toMatrix_eq, first.matrixOver_eq, second.matrixOver_eq, first.letters_unique second]

end Tabulates

theorem Gathered.tabulates (gathered : Gathered ts table) (once : ∀ terms ∈ ts, terms.keys.Nodup) :
    table.Tabulates ts [] := by
  induction gathered with
  | new => exact .empty
  | @push ts table terms listed before order ih =>
    have earlier := ih fun terms member => once terms (List.mem_append_left _ member)
    exact (earlier.push listed).relist
      (once terms (List.mem_append_right _ (List.mem_singleton_self _))) order
  | rearrange before order ih => exact (ih once).rearrange order

/-- The table of a system is one of these, with the terms of each equation as they were collected. -/
theorem Gathered.pushTexts {equations : List String} (gathered : Gathered ts table)
    (pushed : table.pushTexts equations = .ok other) :
    ∃ more, List.Forall₂ (fun text terms => termsOfText text = .ok terms) equations more ∧
      Gathered (ts ++ more) other := by
  induction equations generalizing ts table with
  | nil =>
    obtain rfl : table = other := Except.ok.inj pushed
    exact ⟨[], .nil, by simpa using gathered⟩
  | cons text texts ih =>
    rw [Table.pushTexts] at pushed
    split at pushed
    · next terms collected =>
      obtain ⟨more, all, gathered⟩ := ih (gathered.push (.refl terms)) pushed
      exact ⟨terms :: more, .cons collected all, by simpa using gathered⟩
    · cases pushed

/-- A table of equations is rectangular, and depends on no order but that of the equations. -/
theorem gathered_rectangular (once : ∀ terms ∈ ts, terms.keys.Nodup) (gathered : Gathered ts table) :
    table.equations = ts.length ∧ (∀ entry ∈ table.columns, entry.2.length = ts.length) ∧
      (∀ key, table.column? key = if ∃ terms ∈ ts, key ∈ terms.keys then
      some (ts.map (·.sum key)) else none) ∧
      table.letters.Pairwise (· < ·) ∧
      (∀ letter, letter ∈ table.letters ↔ ∃ terms ∈ ts, .letter letter ∈ terms.keys) ∧
      (ts ≠ [] → ∃ m, table.toMatrix = .ok m ∧ m.rows = ts.length ∧ m.cols = table.letters.length + 1 ∧
        ∀ i (row : i < ts.length),
          (∀ j (col : j < table.letters.length), m.get i j = ts[i].sum (.letter table.letters[j])) ∧
          m.get i table.letters.length = ts[i].sum .constant ∧
          (.constant ∉ ts[i].keys → m.get i table.letters.length = 0.0)) ∧
      ∀ other, Gathered ts other →
        other.letters = table.letters ∧ (∀ key, other.column? key = table.column? key) ∧
        other.toMatrix = table.toMatrix := by
  have tabulates := gathered.tabulates once
  refine ⟨tabulates.equations, fun entry member => ?_, tabulates.column_eq, tabulates.increasing,
    fun letter => tabulates.mem_letters_iff, fun nonempty => ?_, fun other regathered => ?_⟩
  · rw [tabulates.columns entry member, List.length_map]
  · obtain ⟨m, formed, rows, cols, entries⟩ := tabulates.toMatrix_ok nonempty
    refine ⟨m, formed, rows, cols, fun i row => ⟨(entries i row).1, (entries i row).2, fun absent => ?_⟩⟩
    rw [(entries i row).2, Terms.sum_of_not_mem absent]
  · have again := regathered.tabulates once
    exact ⟨again.letters_unique tabulates, fun key => by rw [again.column_eq, tabulates.column_eq],
      again.toMatrix_unique tabulates⟩

/-- `2x+w=6` and `x-3y=0`, each with its terms out of order, and the columns rearranged between the two. -/
def shuffled : Table :=
  let first : Table := push {} [(.constant, 6.0), (.letter 'w', 1.0), (.letter 'x', 2.0)]
  push { first with columns := first.columns.reverse } [(.letter 'y', -3.0), (.letter 'x', 1.0)]

theorem gathered_rectangular_shuffled :
    ∃ first second : Terms, (∀ terms ∈ [first, second], terms.keys.Nodup) ∧
    Gathered [first, second] shuffled ∧ shuffled.column? (.letter 'w') = some [1.0, 0.0] ∧
    shuffled.column? (.letter 'y') = some [0.0, -3.0] ∧ shuffled.letters = ['w', 'x', 'y'] ∧
    ∃ m, shuffled.toMatrix = .ok m ∧ m.rows = 2 ∧ m.cols = 4 ∧ m.get 1 2 = -3.0 ∧ m.get 1 3 = 0.0 := by
  let first : Terms := [(.letter 'x', 2.0), (.letter 'w', 1.0), (.constant, 6.0)]
  let second : Terms := [(.letter 'x', 1.0), (.letter 'y', -3.0)]
  have once : ∀ terms ∈ [first, second], terms.keys.Nodup := by decide
  have gathered : Gathered [first, second] shuffled :=
    .push (.rearrange (.push .new (List.reverse_perm first)) (List.reverse_perm _)) (List.reverse_perm second)
  have letters : shuffled.letters = ['w', 'x', 'y'] := mergeSort_eq (by decide) (by decide)
  obtain ⟨-, -, columns, -, -, matrix, -⟩ := gathered_rectangular once gathered
  obtain ⟨m, formed, rows, cols, entries⟩ := matrix (by decide)
  rw [letters] at cols
  obtain ⟨row, -, zero⟩ := entries 1 (by decide)
  simp only [letters] at row zero
  exact ⟨first, second, once, gathered, columns (.letter 'w'), columns (.letter 'y'), letters, m,
    formed, rows, cols, row 2 (by decide), zero (by decide)⟩

end Table

end Stepwise.LinearSystem
