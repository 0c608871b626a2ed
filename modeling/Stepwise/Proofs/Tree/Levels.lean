import Stepwise.Proofs.Tree.Draft
import Stepwise.Proofs.Tree.Grow

/-! A bracket level in the array: operators that wait for their right operand, joined from the
innermost out, over the operand placed last. Climbing from that operand closes waiting operators,
and a new operand is hung below the innermost one. -/
namespace Stepwise

namespace Waiting

def ids (waiting : List (Waiting NodeId)) : List NodeId := waiting.flatMap fun w => w.1 :: w.2.flatten

def tip? (waiting : List (Waiting NodeId)) : Option NodeId := waiting.head?.map Prod.fst

def root : List (Waiting NodeId) → NodeId → NodeId
  | [], id => id
  | (a, _) :: outer, _ => root outer a

theorem length_le_ids (waiting : List (Waiting NodeId)) : waiting.length ≤ (ids waiting).length := by
  induction waiting with
  | nil => simp
  | cons w outer ih => simp [ids] at ih ⊢; omega

end Waiting

namespace Spine

def ids (s : Spine NodeId) : List NodeId := Waiting.ids s.waiting ++ s.last.elim [] Tree.flatten

def level (s : Spine NodeId) : Expression.Level where
  spine := match s.last, s.waiting with
    | some t, waiting => some (Waiting.root waiting t.top, t.top)
    | none, (a, _) :: outer => some (Waiting.root outer a, a)
    | none, [] => none
  awaiting := s.last.isNone
  call := s.call

end Spine

namespace Draft

def ids (d : Draft NodeId) : List NodeId := d.level.ids ++ d.outer.flatMap Spine.ids

theorem map_congr {α : Type} {f g : NodeId → α} {d : Draft NodeId} (same : ∀ id ∈ d.ids, f id = g id) :
    d.map f = d.map g := by
  have spine {s : Spine NodeId} (agree : ∀ id ∈ s.ids, f id = g id) : s.map f = s.map g := by
    obtain ⟨waiting, last, call⟩ := s
    simp only [Spine.map, Spine.mk.injEq, and_true]
    constructor
    · refine List.map_congr_left fun w member => ?_
      have here : ∀ id ∈ w.1 :: w.2.flatten, f id = g id := fun id belongs =>
        agree id (List.mem_append_left _ (List.mem_flatMap.mpr ⟨w, member, belongs⟩))
      rw [Waiting.map, Waiting.map, here w.1 (List.mem_cons_self ..),
        Tree.map_congr fun id belongs => here id (List.mem_cons_of_mem _ belongs)]
    · cases last with
      | none => rfl
      | some t =>
        exact congrArg some
          (Tree.map_congr fun id belongs => agree id (List.mem_append_right _ belongs))
  simp only [Draft.map, Draft.mk.injEq]
  exact ⟨spine fun id member => same id (List.mem_append_left _ member), List.map_congr_left fun s member =>
    spine fun id belongs => same id (List.mem_append_right _ (List.mem_flatMap.mpr ⟨s, member, belongs⟩))⟩

def builder {ν : Type} (d : Draft NodeId) (nodes : Expression ν) : Expression.Builder ν :=
  ⟨nodes, d.level.level, d.outer.map Spine.level⟩

end Draft

namespace Expression

variable {ν : Type}

/-- Waiting operators are joined to their left operands and to each other, the innermost to `child`. -/
def Holds (e : Expression ν) : List (Waiting NodeId) → Option NodeId → Prop
  | [], _ => True
  | (a, left) :: outer, child =>
    (e.node a).left = some left.top ∧ (e.node a).right = child ∧ (e.node a).parent = Waiting.tip? outer ∧
      e.Links left ∧ e.Holds outer (some a)

structure Stands (e : Expression ν) (s : Spine NodeId) : Prop where
  holds : e.Holds s.waiting (s.last.map Tree.top)
  last : ∀ t, s.last = some t → e.Links t ∧ (e.node t.top).parent = Waiting.tip? s.waiting

structure Fits (e : Expression ν) (d : Draft NodeId) : Prop where
  level : e.Stands d.level
  outer : ∀ s ∈ d.outer, e.Stands s ∧ s.last = none
  nodup : d.ids.Nodup
  inside : ∀ id ∈ d.ids, id < e.size

theorem Links.frame {e f : Expression ν} {t : Tree NodeId} (links : e.Links t)
    (same : ∀ id ∈ t.flatten, f.node id = e.node id) : f.Links t :=
  links.congr fun id member => by simp [same id member]

theorem Holds.frame {e f : Expression ν} {waiting : List (Waiting NodeId)} {child : Option NodeId}
    (holds : e.Holds waiting child) (same : ∀ id ∈ Waiting.ids waiting, f.node id = e.node id) :
    f.Holds waiting child := by
  induction waiting generalizing child with
  | nil => trivial
  | cons w outer ih =>
    obtain ⟨a, left⟩ := w
    obtain ⟨l, r, p, links, rest⟩ := holds
    have here := same a (by simp [Waiting.ids])
    refine ⟨by rw [here, l], by rw [here, r], by rw [here, p],
      links.frame fun id member => same id (by simp [Waiting.ids, member]),
      ih rest fun id member => same id (by simp [Waiting.ids] at member ⊢; exact .inr (.inr member))⟩

theorem Stands.frame {e f : Expression ν} {s : Spine NodeId} (stands : e.Stands s)
    (same : ∀ id ∈ s.ids, f.node id = e.node id) : f.Stands s where
  holds := stands.holds.frame fun id member => same id (by simp [Spine.ids, member])
  last t last := by
    obtain ⟨links, parent⟩ := stands.last t last
    have here : ∀ id ∈ t.flatten, f.node id = e.node id :=
      fun id member => same id (by simp [Spine.ids, last, member])
    exact ⟨links.frame here, by rw [here t.top t.top_mem, parent]⟩

structure Hung (e : Expression ν) (waiting : List (Waiting NodeId)) (t : Tree NodeId) : Prop where
  holds : e.Holds waiting (some t.top)
  links : e.Links t
  parent : (e.node t.top).parent = Waiting.tip? waiting

theorem Hung.closeWhile {e : Expression ν} {waiting : List (Waiting NodeId)} {t : Tree NodeId}
    (hung : e.Hung waiting t) (closes : NodeId → Bool) :
    e.Hung (Waiting.closeWhile closes waiting t).1 (Waiting.closeWhile closes waiting t).2 := by
  induction waiting generalizing t with
  | nil => exact hung
  | cons w outer ih =>
    obtain ⟨a, left⟩ := w
    simp only [Waiting.closeWhile]
    split
    · obtain ⟨l, r, p, links, rest⟩ := hung.holds
      exact ih ⟨rest, ⟨l, r, links, hung.links⟩, p⟩
    · exact hung

theorem closeWhile_ids (closes : NodeId → Bool) (waiting : List (Waiting NodeId)) (t : Tree NodeId) :
    (Waiting.ids (Waiting.closeWhile closes waiting t).1 ++
    (Waiting.closeWhile closes waiting t).2.flatten).Perm
      (Waiting.ids waiting ++ t.flatten) := by
  induction waiting generalizing t with
  | nil => exact .refl _
  | cons w outer ih =>
    obtain ⟨a, left⟩ := w
    simp only [Waiting.closeWhile]
    split
    · refine (ih (.fork a left t)).trans ?_
      simp only [Waiting.ids, List.flatMap_cons, Tree.flatten, List.cons_append]
      refine List.perm_middle.trans (.cons a ?_)
      rw [List.append_assoc]
      exact List.perm_append_comm_assoc ..
    · exact .refl _

theorem root_closeWhile (closes : NodeId → Bool) (waiting : List (Waiting NodeId)) (t : Tree NodeId) :
    Waiting.root (Waiting.closeWhile closes waiting t).1 (Waiting.closeWhile closes waiting t).2.top =
      Waiting.root waiting t.top := by
  induction waiting generalizing t with
  | nil => rfl
  | cons w outer ih =>
    obtain ⟨a, left⟩ := w
    simp only [Waiting.closeWhile]
    split
    · exact ih (.fork a left t)
    · rfl

theorem Hung.climb {e : Expression ν} {waiting : List (Waiting NodeId)} {t : Tree NodeId}
    (hung : e.Hung waiting t) (kind : Token.Kind) {fuel : Nat} (enough : waiting.length ≤ fuel) :
    Builder.climb e kind fuel t.top =
      (Waiting.closeWhile (fun a => Builder.climbsOver kind (e.node a).token.kind) waiting t).2.top := by
  induction waiting generalizing t fuel with
  | nil =>
    cases fuel with
    | zero => rfl
    | succ fuel => simp [Builder.climb, hung.parent, Waiting.tip?, Waiting.closeWhile]
  | cons w outer ih =>
    obtain ⟨a, left⟩ := w
    obtain ⟨l, r, p, links, rest⟩ := hung.holds
    cases fuel with
    | zero => simp at enough
    | succ fuel =>
      simp only [Builder.climb, hung.parent, Waiting.tip?, List.head?_cons, Option.map_some,
        Waiting.closeWhile]
      split
      · exact ih (t := .fork a left t) ⟨rest, ⟨l, r, links, hung.links⟩, p⟩ (Nat.le_of_succ_le_succ enough)
      · rfl

/-- What an operator takes as its left operand. -/
theorem Hung.anchor {e : Expression ν} {waiting : List (Waiting NodeId)} {t : Tree NodeId}
    (hung : e.Hung waiting t) (token : Token) (enough : waiting.length ≤ e.size) :
    Builder.anchor e token (Waiting.root waiting t.top) t.top =
      (Waiting.closeWhile (fun a => Draft.yields token (e.node a).label) waiting t).2.top := by
  unfold Builder.anchor Draft.yields
  by_cases equals : token.kind = .equals
  · have whole := root_closeWhile (fun _ => true) waiting t
    simp only [Waiting.closeWhile_true, Waiting.root] at whole
    simp [equals, Waiting.closeWhile_true, whole]
  · have other : (token.kind == .equals) = false := beq_eq_false_iff_ne.mpr equals
    by_cases inserted : token.isInserted
    · have stays : Waiting.closeWhile (fun _ => false) waiting t = (waiting, t) := by
        cases waiting <;> rfl
      simp [equals, other, inserted, stays]
    · simpa [equals, other, inserted, Node.label] using hung.climb token.kind enough

def join (e : Expression ν) (waiting : List (Waiting NodeId)) (id : NodeId) : Expression ν :=
  match Waiting.tip? waiting with
  | some tip => e.modify tip fun node => { node with right := some id }
  | none => e

@[simp] theorem size_join (e : Expression ν) (waiting : List (Waiting NodeId)) (id : NodeId) :
    (e.join waiting id).size = e.size := by
  unfold join; split <;> simp

@[simp] theorem label_join (e : Expression ν) (waiting : List (Waiting NodeId)) (id other : NodeId) :
    ((e.join waiting id).node other).label = (e.node other).label := by
  unfold join
  split
  · rw [node_modify]; split <;> rfl
  · rfl

theorem node_join (e : Expression ν) {waiting : List (Waiting NodeId)} (id : NodeId) {other : NodeId}
    (outside : other ∉ Waiting.ids waiting) : (e.join waiting id).node other = e.node other := by
  cases waiting with
  | nil => rfl
  | cons w outer =>
    refine node_modify_other e _ fun equal => outside ?_
    simp [equal, Waiting.ids]

theorem Holds.join {e : Expression ν} {waiting : List (Waiting NodeId)} {child : Option NodeId}
    (holds : e.Holds waiting child) (nodup : (Waiting.ids waiting).Nodup)
    (inside : ∀ id ∈ Waiting.ids waiting, id < e.size) (id : NodeId) :
    (e.join waiting id).Holds waiting (some id) := by
  cases waiting with
  | nil => trivial
  | cons w outer =>
    obtain ⟨a, left⟩ := w
    obtain ⟨l, r, p, links, rest⟩ := holds
    simp only [Waiting.ids, List.flatMap_cons, List.cons_append, List.nodup_cons, List.mem_append,
      not_or] at nodup
    have here : (e.join ((a, left) :: outer) id).node a = { e.node a with right := some id } :=
      node_modify_self e _ (inside a (by simp [Waiting.ids]))
    have apart {others : List NodeId} (outside : a ∉ others) :
        ∀ j ∈ others, (e.join ((a, left) :: outer) id).node j = e.node j := fun j member =>
      node_modify_other e _ fun equal : j = a => outside (equal ▸ member)
    exact ⟨by rw [here, l], by rw [here], by rw [here, p], links.frame (apart nodup.1.1),
      rest.frame (apart nodup.1.2)⟩

def hang (e : Expression ν) (waiting : List (Waiting NodeId)) (id : NodeId) : Expression ν :=
  match Waiting.tip? waiting with
  | some tip => (e.join waiting id).setParent id tip
  | none => e

@[simp] theorem size_hang (e : Expression ν) (waiting : List (Waiting NodeId)) (id : NodeId) :
    (e.hang waiting id).size = e.size := by
  unfold hang; split <;> simp

@[simp] theorem label_hang (e : Expression ν) (waiting : List (Waiting NodeId)) (id other : NodeId) :
    ((e.hang waiting id).node other).label = (e.node other).label := by
  unfold hang; split <;> simp

theorem node_hang (e : Expression ν) {waiting : List (Waiting NodeId)} {id other : NodeId}
    (outside : other ∉ Waiting.ids waiting) (apart : other ≠ id) :
    (e.hang waiting id).node other = e.node other := by
  unfold hang
  split
  · rw [node_setParent_other _ _ apart, node_join e id outside]
  · rfl

theorem same_hang (e : Expression ν) {waiting : List (Waiting NodeId)} (id : NodeId) {other : NodeId}
    (outside : other ∉ Waiting.ids waiting) : e.Same (e.hang waiting id) other := by
  unfold hang
  split
  · exact (Same.of_eq (node_join e id outside)).setParent ..
  · exact .of_eq rfl

theorem Holds.hang {e : Expression ν} {waiting : List (Waiting NodeId)} {child : Option NodeId}
    (holds : e.Holds waiting child) (nodup : (Waiting.ids waiting).Nodup)
    (inside : ∀ id ∈ Waiting.ids waiting, id < e.size) {id : NodeId} (outside : id ∉ Waiting.ids waiting) :
    (e.hang waiting id).Holds waiting (some id) := by
  cases waiting with
  | nil => trivial
  | cons w outer =>
    refine (holds.join nodup inside id).frame fun j member => ?_
    exact node_setParent_other _ _ fun equal => outside (equal ▸ member)

theorem parent_hang {e : Expression ν} (waiting : List (Waiting NodeId)) {id : NodeId} (inside : id < e.size)
    (orphan : (e.node id).parent = none) : ((e.hang waiting id).node id).parent = Waiting.tip? waiting := by
  cases waiting with
  | nil => exact orphan
  | cons w outer => exact parent_setParent _ _ (by simpa using inside)

end Expression

end Stepwise
