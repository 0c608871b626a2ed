import Stepwise.NumberSet
import Stepwise.Proofs.Decimal.Equality

/-! The elements of a set of numbers, and where the result of an operation has them from. A number
is an element of a list if it equals one of the numbers listed, so that zero has no sign. Main
statement: an operation on lists is the operation on the sets of their elements, it lists no element
twice, and it has each of them from the place where its source lists it first. -/
namespace Stepwise.NumberSet

open Decimal (beq_symm beq_trans beq_congr)

section Membership

def elements (items : List Float) : Set Float := {x | items.contains x}

/-- A test that does not tell equal numbers apart. -/
def Respects (test : Float → Bool) : Prop := ∀ x y, x == y → test x = test y

theorem contains_iff {items : List Float} {x : Float} : items.contains x ↔ ∃ y ∈ items, x == y := by
  rw [List.contains_eq_any_beq, List.any_eq_true]

theorem respects_contains (items : List Float) : Respects items.contains := by
  intro x y equal
  rw [Bool.eq_iff_iff, contains_iff, contains_iff]
  exact exists_congr fun z => and_congr_right fun _ => by rw [beq_congr equal]

theorem contains_append (a b : List Float) (x : Float) :
    (a ++ b).contains x = (a.contains x || b.contains x) := by
  simp [List.contains_eq_any_beq]

theorem contains_filter {test : Float → Bool} (respects : Respects test) (items : List Float) (x : Float) :
    (items.filter test).contains x = (items.contains x && test x) := by
  rw [Bool.eq_iff_iff, Bool.and_eq_true, contains_iff, contains_iff]
  constructor
  · rintro ⟨y, member, equal⟩
    obtain ⟨listed, passes⟩ := List.mem_filter.mp member
    exact ⟨⟨y, listed, equal⟩, (respects x y equal).trans passes⟩
  · rintro ⟨⟨y, listed, equal⟩, passes⟩
    exact ⟨y, List.mem_filter.mpr ⟨listed, (respects x y equal).symm.trans passes⟩, equal⟩

end Membership

section Distinct

theorem distinct_concat (items : List Float) (x : Float) :
    distinct (items ++ [x]) = insertNew (distinct items) x := by
  simp [distinct]

theorem contains_insertNew (set : List Float) (x y : Float) :
    (insertNew set x).contains y = (set.contains y || y == x) := by
  unfold insertNew
  split
  · next present =>
    -- A number that equals one already there changes nothing.
    rw [Bool.eq_iff_iff, Bool.or_eq_true]
    refine ⟨.inl, fun either => either.elim id fun equal => ?_⟩
    rwa [respects_contains set y x equal]
  · rw [contains_append]
    simp

/-- Nothing is lost, and nothing is added. -/
theorem contains_distinct (items : List Float) (x : Float) :
    (distinct items).contains x = items.contains x := by
  induction items using List.reverseRecOn with
  | nil => rfl
  | append_singleton items y ih =>
    rw [distinct_concat, contains_insertNew, contains_append, ih]
    simp

theorem pairwise_insertNew {set : List Float} (apart : set.Pairwise fun x y => (x == y) = false) (x : Float) :
    (insertNew set x).Pairwise fun x y => (x == y) = false := by
  unfold insertNew
  split
  · exact apart
  · next absent =>
    refine List.pairwise_append.mpr ⟨apart, List.pairwise_singleton .., fun y member z last => ?_⟩
    obtain rfl := List.mem_singleton.mp last
    exact Bool.eq_false_iff.mpr fun equal => absent (contains_iff.mpr ⟨y, member, beq_symm equal⟩)

theorem pairwise_distinct (items : List Float) : (distinct items).Pairwise fun x y => (x == y) = false := by
  induction items using List.reverseRecOn with
  | nil => exact List.Pairwise.nil
  | append_singleton items y ih => exact distinct_concat items y ▸ pairwise_insertNew ih y

end Distinct

section First

def firstAt (test : Float → Bool) (source : List Float) (i : Nat) : Option Float :=
  source[i]?.filter fun x => test x && !(source.take i).contains x

/-- The numbers of a list that pass a test, each as it stands in the place where it occurs first. -/
def firstOccurrences (test : Float → Bool) (source : List Float) : List Float :=
  (List.range source.length).filterMap (firstAt test source)

theorem firstAt_append (test : Float → Bool) {source : List Float} (more : List Float) {i : Nat}
    (inside : i < source.length) :
    firstAt test (source ++ more) i = firstAt test source i := by
  rw [firstAt, firstAt, List.getElem?_append_left inside, List.take_append_of_le_length inside.le]

theorem firstAt_last (test : Float → Bool) (source : List Float) (x : Float) :
    firstAt test (source ++ [x]) source.length = if test x && !source.contains x then some x else none := by
  simp [firstAt, Option.filter]

theorem firstOccurrences_concat (test : Float → Bool) (source : List Float) (x : Float) :
    firstOccurrences test (source ++ [x]) =
      if test x && !source.contains x then firstOccurrences test source ++ [x]
      else firstOccurrences test source := by
  have before : ∀ i ∈ List.range source.length, firstAt test (source ++ [x]) i = firstAt test source i :=
    fun i inside => firstAt_append test [x] (List.mem_range.mp inside)
  have last := firstAt_last test source x
  rw [firstOccurrences, List.length_append, List.length_singleton, List.range_succ, List.filterMap_append,
    List.filterMap_congr before, ← firstOccurrences]
  by_cases kept : (test x && !source.contains x) = true
  · rw [if_pos kept] at last ⊢
    rw [List.filterMap_cons_some last, List.filterMap_nil]
  · rw [if_neg kept] at last ⊢
    rw [List.filterMap_cons_none last, List.filterMap_nil, List.append_nil]

/-- What passes a test, without repetitions, has each number from its first place in the whole list. -/
theorem distinct_filter {test : Float → Bool} (respects : Respects test) (source : List Float) :
    distinct (source.filter test) = firstOccurrences test source := by
  induction source using List.reverseRecOn with
  | nil => rfl
  | append_singleton source x ih =>
    rw [List.filter_append, firstOccurrences_concat, ← ih]
    by_cases passes : test x
    · have present : (distinct (source.filter test)).contains x = source.contains x := by
        rw [contains_distinct, contains_filter respects, passes, Bool.and_true]
      rw [List.filter_cons_of_pos passes, List.filter_nil, distinct_concat, insertNew, present, passes]
      cases source.contains x <;> rfl
    · simp [passes]

end First

namespace Operation

def onSets : Operation → Set Float → Set Float → Set Float
  | union => (· ∪ ·)
  | intersection => (· ∩ ·)
  | difference => (· \ ·)

/-- The list that the result has its numbers from, in this order. -/
def source : Operation → List Float → List Float → List Float
  | union, a, b => a ++ b
  | intersection, _, b => b
  | difference, a, _ => a

def keeps : Operation → List Float → List Float → Float → Bool
  | union, _, _, _ => true
  | intersection, a, _, x => a.contains x
  | difference, _, b, x => !b.contains x

theorem respects_keeps (operation : Operation) (a b : List Float) : Respects (operation.keeps a b) := by
  intro x y equal
  cases operation with
  | union => rfl
  | intersection => exact respects_contains a x y equal
  | difference => exact congrArg not (respects_contains b x y equal)

end Operation

theorem apply_eq_distinct (operation : Operation) (a b : List Float) :
    apply operation a b = distinct ((operation.source a b).filter (operation.keeps a b)) := by
  cases operation with
  | union => exact congrArg distinct (List.filter_true _).symm
  | intersection | difference => rfl

theorem elements_apply (operation : Operation) (a b : List Float) :
    elements (apply operation a b) = operation.onSets (elements a) (elements b) := by
  ext x
  rw [apply_eq_distinct, elements, Set.mem_ofPred_eq, contains_distinct,
    contains_filter (operation.respects_keeps a b)]
  cases operation with
  | union => simp [Operation.source, Operation.keeps, Operation.onSets, elements]
  | intersection => simp [Operation.source, Operation.keeps, Operation.onSets, elements, and_comm]
  | difference => simp [Operation.source, Operation.keeps, Operation.onSets, elements]

/-- The result of an operation on two lists has the elements that the operation on sets gives, and
none of them twice. Each is the very number that stands where the element occurs first in the list
that the operation goes by, and they stand in the order of that list. What a list has not in common
with another and what it has, put together, are its own elements. -/
theorem apply_firstOccurrences (operation : Operation) (a b : List Float) :
    (apply operation a b).Pairwise (fun x y => (x == y) = false) ∧
      elements (apply operation a b) = operation.onSets (elements a) (elements b) ∧
      apply operation a b = firstOccurrences (operation.keeps a b) (operation.source a b) ∧
      elements (apply .union (apply .difference a b) (apply .intersection a b)) = elements (distinct a) := by
  refine ⟨?_, elements_apply operation a b, ?_, ?_⟩
  · rw [apply_eq_distinct]
    exact pairwise_distinct _
  · rw [apply_eq_distinct, distinct_filter (operation.respects_keeps a b)]
  · have same : elements (distinct a) = elements a := Set.ext fun x => by
      rw [elements, elements, Set.mem_ofPred_eq, Set.mem_ofPred_eq, contains_distinct]
    rw [elements_apply, elements_apply, elements_apply, same]
    exact Set.sdiff_union_inter (elements a) (elements b)

/-- The intersection has zero with the sign that it has in the right set where it stands first. -/
example :
    (apply .intersection [1.0, 0.0] [-0.0, 2.0, 0.0, 1.0]).map Float.toBits =
      [-0.0, 1.0].map Float.toBits := by
  decide +kernel

end Stepwise.NumberSet
