import Stepwise.Proofs.Reduction.Closed

/-! Reductions at nodes of which neither is below the other. Main statement: they may be made in
either order, with the same formula in the end but for the ids of the nodes they push; a reduction
changes nothing but its node and what is below, and one that fails leaves the formula where it
stood. -/
namespace Stepwise

def Node.renamed {ν : Type} (π : NodeId → NodeId) (node : Node ν) : Node ν :=
  { node with left := node.left.map π, right := node.right.map π, parent := node.parent.map π }

theorem Node.renamed_of_inScope {ν : Type} {π : NodeId → NodeId} {node : Node ν} {n : Nat}
    (scope : node.InScope n) (fixes : ∀ k < n, π k = k) : node.renamed π = node := by
  have same {link : Option NodeId} (inside : ∀ k, link = some k → k < n) : link.map π = link := by
    cases link with
    | none => rfl
    | some k => exact congrArg some (fixes k (inside k rfl))
  rw [renamed, same fun k link => scope k (.inl link), same fun k link => scope k (.inr (.inl link)),
    same fun k link => scope k (.inr (.inr link))]

namespace Expression

variable {ν : Type} {e f : Expression ν}

/-- The second expression is the first with its nodes at other places. -/
structure Renames (π : Equiv.Perm NodeId) (e f : Expression ν) : Prop where
  size : f.size = e.size
  root : f.root = π e.root
  node : ∀ j, f.node (π j) = (e.node j).renamed π

/-- What one node of a tree reaches and what another reaches have nothing in common, unless one of
them reaches the other. -/
theorem Spans.apart {t : Tree NodeId} (spans : e.Spans t) {a b k : NodeId} (first : a ∈ t.flatten)
    (second : b ∈ t.flatten) (above : ¬ e.Reaches a b) (below : ¬ e.Reaches b a)
    (reached : e.Reaches a k) : ¬ e.Reaches b k := by
  induction t with
  | leaf id =>
    obtain rfl := List.mem_singleton.mp first
    obtain rfl := List.mem_singleton.mp second
    exact absurd (.here _) above
  | group id inner ih =>
    have top {j : NodeId} (member : j ∈ (Tree.group id inner).flatten) : e.Reaches id j :=
      (reaches_iff spans.links).mpr member
    rcases List.mem_cons.mp first with rfl | first'
    · exact absurd (top second) above
    · rcases List.mem_cons.mp second with rfl | second'
      · exact absurd (top first) below
      · exact ih spans.group first' second'
  | fork id left right ihl ihr =>
    have top {j : NodeId} (member : j ∈ (Tree.fork id left right).flatten) : e.Reaches id j :=
      (reaches_iff spans.links).mpr member
    have within {t : Tree NodeId} (links : e.Links t)
      {i : NodeId} (member : i ∈ t.flatten) (reached : e.Reaches i k) : k ∈ t.flatten :=
      (reaches_iff links).mp (((reaches_iff links).mpr member).trans reached)
    have disjoint : ∀ j ∈ left.flatten, j ∉ right.flatten := fun j l r =>
      (List.nodup_append.mp (List.nodup_cons.mp spans.nodup).2).2.2 j l j r rfl
    rcases List.mem_cons.mp first with rfl | first'
    · exact absurd (top second) above
    · rcases List.mem_cons.mp second with rfl | second'
      · exact absurd (top first) below
      · rcases List.mem_append.mp first' with l | r <;> rcases List.mem_append.mp second' with l' | r'
        · exact ihl spans.left l l'
        · exact fun other =>
            disjoint k (within spans.left.links l reached) (within spans.right.links r' other)
        · exact fun other =>
            disjoint k (within spans.left.links l' other) (within spans.right.links r reached)
        · exact ihr spans.right r r'

/-- Neither operand of a node reaches the other. -/
theorem Spans.operands_apart {t : Tree NodeId} (spans : e.Spans t) {a b : NodeId}
    (left : (e.node t.top).left = some a) (right : (e.node t.top).right = some b) :
    ¬ e.Reaches a b ∧ ¬ e.Reaches b a := by
  cases t with
  | leaf id => simp [spans.links.1] at left
  | group id inner => simp [spans.links.2.1] at right
  | fork id l r =>
    obtain rfl : l.top = a := Option.some.inj (spans.links.1.symm.trans left)
    obtain rfl : r.top = b := Option.some.inj (spans.links.2.1.symm.trans right)
    have disjoint := (List.nodup_append.mp (List.nodup_cons.mp spans.nodup).2).2.2
    refine ⟨fun reached => ?_, fun reached => ?_⟩
    · exact disjoint _ ((reaches_iff spans.left.links).mp reached) _ r.top_mem rfl
    · exact disjoint _ l.top_mem _ ((reaches_iff spans.right.links).mp reached) rfl

end Expression

namespace Formula

open Expression

variable {e f g : Formula} {c d : Change} {id : NodeId}

/-- Two blocks change places: of `p` and of `q` ids behind the first `n`. -/
def exchange (n p q : Nat) : Equiv.Perm Nat where
  toFun j := if j < n then j else if j < n + p then j + q else if j < n + p + q then j - p else j
  invFun j := if j < n then j else if j < n + q then j + p else if j < n + q + p then j - q else j
  left_inv j := by
    simp only
    split_ifs <;> omega
  right_inv j := by
    simp only
    split_ifs <;> omega

section Exchange
variable {n p q i : Nat}

theorem exchange_old (small : i < n) : exchange n p q i = i := by
  simp [exchange, small]

theorem exchange_first (small : i < p) : exchange n p q (n + i) = n + q + i := by
  simp only [exchange, Equiv.coe_fn_mk]
  split_ifs <;> omega

theorem exchange_second (small : i < q) : exchange n p q (n + p + i) = n + i := by
  simp only [exchange, Equiv.coe_fn_mk]
  split_ifs <;> omega

theorem exchange_beyond (large : n + p + q ≤ i) : exchange n p q i = i := by
  simp only [exchange, Equiv.coe_fn_mk]
  split_ifs <;> omega

end Exchange

namespace Change.Within

variable {π : NodeId → NodeId} {n m m' : Nat}

/-- What a change makes of an old node when the ids of the new ones are renamed. -/
theorem old_renamed (within : c.Within id n) (fixes : ∀ k < n, π k = k)
    (moves : ∀ i < c.count, π (m + i) = m' + i) (j : NodeId) (before : Node Quantity) :
    (c.old id m j before).renamed π = c.old id m' j (before.renamed π) := by
  cases c with
  | content node =>
    simp only [Change.old]
    split
    · exact Node.renamed_of_inScope (within.content node rfl) fixes
    · rfl
  | gather left right =>
    have first : π m = m' := moves 0 (Nat.succ_pos 1)
    have second : π (m + 1) = m' + 1 := moves 1 (Nat.lt_succ_self 1)
    simp only [Change.old]
    split
    · simp [Node.renamed, first, second]
    · split
      · simp [Node.renamed, first]
      · rfl
  | transfer right term amount operator =>
    have first : π m = m' := moves 0 (Nat.succ_pos 2)
    have last : π (m + 2) = m' + 2 := moves 2 (Nat.lt_succ_self 2)
    simp only [Change.old]
    split
    · simp [Node.renamed, first, last]
    · split
      · simp [Node.renamed, last]
      · rfl

/-- The new nodes when their ids are renamed. -/
theorem new_renamed (within : c.Within id n) (fixes : ∀ k < n, π k = k)
    (moves : ∀ i < c.count, π (m + i) = m' + i) (i : Nat) :
    (((c.new id m)[i]?).getD default).renamed π = ((c.new id m')[i]?).getD default := by
  have top := fixes id within.inside
  have all : (c.new id m).map (Node.renamed π) = c.new id m' := by
    cases c with
    | content node => rfl
    | gather left right =>
      simp [Change.new, Node.renamed, top, fixes left (within.operands left (by simp [Change.operands])),
        fixes right (within.operands right (by simp [Change.operands]))]
    | transfer right term amount operator =>
      have second : π (m + 1) = m' + 1 := moves 1 (Nat.succ_lt_succ (Nat.succ_pos 1))
      have last : π (m + 2) = m' + 2 := moves 2 (Nat.lt_succ_self 2)
      simp [Change.new, Node.renamed, top, second, last,
        fixes right (within.operands right (by simp [Change.operands]))]
  rw [← all, List.getElem?_map]
  cases (c.new id m)[i]? <;> rfl

end Change.Within

theorem node_perform_old {j : NodeId} (inside : j < e.size) :
    (perform e id c).node j = c.old id e.size j (e.node j) := by
  rw [node_perform, if_pos inside]

theorem node_perform_new (e : Formula) (id : NodeId) (c : Change) (i : Nat) :
    (perform e id c).node (e.size + i) = ((c.new id e.size)[i]?).getD default := by
  rw [node_perform, if_neg (Nat.not_lt_of_le (Nat.le_add_right _ _)), Nat.add_sub_cancel_left]

/-- A change leaves all nodes but its own and the operands it moves. -/
theorem node_perform_apart {j : NodeId} (inside : j < e.size) (apart : j ∉ id :: c.operands) :
    (perform e id c).node j = e.node j := by
  rw [node_perform_old inside, Change.old_of_apart apart]

/-- Changes that have no node in common can be made in either order. -/
theorem perform_exchange {a b : NodeId} (closed : e.Closed)
    (root : e.root < e.size) (first : c.Within a e.size) (second : d.Within b e.size)
    (apart : ∀ k ∈ a :: c.operands, k ∉ b :: d.operands) :
    Renames (exchange e.size c.count d.count) (perform (perform e a c) b d)
      (perform (perform e b d) a c) := by
  have fixes (k : NodeId) (small : k < e.size) : exchange e.size c.count d.count k = k := exchange_old small
  have new {c : Change} {id : NodeId} (within : c.Within id e.size) (i : Nat) :
      e.size + i ∉ id :: c.operands := by
    intro member
    have known : e.size + i < e.size := by
      rcases List.mem_cons.mp member with same | moved
      · exact same ▸ within.inside
      · exact within.operands _ moved
    exact absurd known (Nat.not_lt_of_le (Nat.le_add_right _ _))
  refine ⟨by simp only [size_perform, Nat.add_right_comm], (fixes e.root root).symm, fun j => ?_⟩
  rcases Nat.lt_or_ge j e.size with old | beyond
  · -- an old node is changed by one of the two at most
    have swap (x : Node Quantity) : c.old a (e.size + d.count) j (d.old b e.size j x) =
        d.old b e.size j (c.old a (e.size + d.count) j x) := by
      by_cases here : j ∈ a :: c.operands
      · rw [Change.old_of_apart (apart j here), Change.old_of_apart (apart j here)]
      · rw [Change.old_of_apart here, Change.old_of_apart here]
    have inside (id : NodeId) (c : Change) : j < (perform e id c).size :=
      size_perform e id c ▸ Nat.lt_add_right _ old
    rw [fixes j old, node_perform_old (inside b d), node_perform_old (inside a c), node_perform_old old,
      node_perform_old old, size_perform, size_perform, second.old_renamed fixes fun i small =>
      exchange_second small,
      first.old_renamed fixes fun i small =>
        exchange_first small, Node.renamed_of_inScope (closed j) fixes, swap]
  · obtain ⟨i, rfl⟩ := Nat.exists_eq_add_of_le beyond
    rcases Nat.lt_or_ge i c.count with one | later
    · have inside : e.size + i < (perform e a c).size := size_perform e a c ▸ Nat.add_lt_add_left one _
      have there := node_perform_new (perform e b d) a c i
      rw [size_perform] at there
      rw [exchange_first one, there, node_perform_apart inside (new second i), node_perform_new,
        first.new_renamed fixes fun i small => exchange_first small]
    · obtain ⟨i, rfl⟩ := Nat.exists_eq_add_of_le later
      have here := node_perform_new (perform e a c) b d i
      rw [size_perform] at here
      rw [← Nat.add_assoc, here, second.new_renamed fixes fun i small => exchange_second small]
      rcases Nat.lt_or_ge i d.count with two | outside
      · have inside : e.size + i < (perform e b d).size := size_perform e b d ▸ Nat.add_lt_add_left two _
        rw [exchange_second two, node_perform_apart inside (new first i), node_perform_new]
      · have none : (d.new b e.size)[i]? = none := List.getElem?_eq_none (d.length_new b e.size ▸ outside)
        have far : e.size + c.count + d.count ≤ e.size + c.count + i := Nat.add_le_add_left outside _
        rw [exchange_beyond far, none, node_outside (by simpa [Nat.add_right_comm] using far)]
        rfl

/-- Two reductions at trees that have no node in common. -/
theorem reduce_exchange {s t : Tree NodeId} (closed : e.Closed) (root : e.root < e.size)
    (one : e.Spans s) (two : e.Spans t) (disjoint : ∀ k ∈ s.flatten, k ∉ t.flatten)
    (first : reduce e s.top = .ok f) (second : reduce f t.top = .ok g) :
    ∃ f' g', reduce e t.top = .ok f' ∧ reduce f' s.top = .ok g' ∧
      ∃ π : Equiv.Perm NodeId, (∀ j < e.size, π j = j) ∧ Renames π g g' := by
  have listed {s : Tree NodeId} (spans : e.Spans s) {c : Change} (changed : change? e s.top = .ok c) :
      ∀ k ∈ s.top :: c.operands, k ∈ s.flatten := fun k member => (reaches_iff spans.links).mp <|
    (List.mem_cons.mp member).elim (fun same => same ▸ .here _) fun moved =>
      ((change_within changed).1 k moved).reaches
  -- what stands at one tree and right below its top is not touched by a change at the other
  have untouched {s t : Tree NodeId} (two : e.Spans t) (disjoint : ∀ k ∈ s.flatten, k ∉ t.flatten)
      {c : Change} (changed : ∀ k ∈ s.top :: c.operands, k ∈ s.flatten) :
      (perform e s.top c).Spans t ∧ change? (perform e s.top c) t.top = change? e t.top := by
    have same (k : NodeId) (member : k ∈ t.flatten) : (perform e s.top c).node k = e.node k :=
      node_perform_apart (two.inside k member) fun touched => disjoint k (changed k touched) member
    refine ⟨two.frame (by simp) same, change_congr (same _ t.top_mem) fun k lists => same k ?_⟩
    exact (reaches_iff two.links).mp lists.reaches
  rw [reduce_eq_perform one] at first
  obtain ⟨c, changed, rfl⟩ := of_map_ok first
  obtain ⟨spans, still⟩ := untouched two disjoint (listed one changed)
  rw [reduce_eq_perform spans, still] at second
  obtain ⟨d, changed', rfl⟩ := of_map_ok second
  obtain ⟨spans', still'⟩ :=
    untouched one (fun k member other => disjoint k other member) (listed two changed')
  refine ⟨perform e t.top d, perform (perform e t.top d) s.top c, ?_, ?_, exchange e.size c.count d.count,
    fun j small => exchange_old small, ?_⟩
  · rw [reduce_eq_perform two, changed']
    rfl
  · rw [reduce_eq_perform spans', still', changed]
    rfl
  · exact perform_exchange closed root (.of_change closed (one.inside _ s.top_mem) changed)
      (.of_change closed (two.inside _ t.top_mem) changed')
      fun k member other => disjoint k (listed one changed k member) (listed two changed' k other)

/-- Of one formula, only a node and what is below it differ in another. -/
structure ChangesBelow (e : Formula) (id : NodeId) (f : Formula) : Prop where
  root : f.root = e.root
  grown : e.size ≤ f.size
  frame : ∀ j < e.size, ¬ e.Reaches id j → f.node j = e.node j
  below : ∀ j, f.Reaches id j → e.Reaches id j ∨ e.size ≤ j

theorem reduce_below {t : Tree NodeId} (spans : e.Spans t) (reduced : reduce e t.top = .ok f) :
    ChangesBelow e t.top f := by
  have alike := reduce_alike spans
  rw [reduced] at alike
  cases result : (e.view t).reduceTop with
  | error error => simp [result, Alike] at alike
  | ok y =>
    obtain ⟨u, top, regrown, -, root⟩ : Replaces e t f y := by simpa [result, Alike] using alike
    refine ⟨root, regrown.grown, fun j small outside => ?_, fun j reached => ?_⟩
    · exact regrown.frame j small fun member => outside ((reaches_iff spans.links).mpr member)
    · rw [← top, reaches_iff regrown.spans.links] at reached
      exact (regrown.known j reached).imp_left (reaches_iff spans.links).mpr

/-- From every formula with a pending root that is passed, the reductions go on to where they end. -/
theorem Passes.ahead {t : Tree NodeId} (spans : e.Spans t) (root : t.top = e.root)
    (sound : (e.view t).Sound) (passes : Passes e f) (pending : isPending (f.node f.root)) {n : Nat}
    {ended : Except ComputationError Unit} (reductions : Reductions e n g ended) :
    ∃ m, Reductions f m g ended := by
  induction passes with
  | prepared => exact ⟨n, reductions⟩
  | reduced _ here found reduced ih =>
    obtain ⟨m, rest⟩ := ih here
    cases rest with
    | done settled => simp [settled] at here
    | fails _ found' failed =>
      obtain rfl := Option.some.inj (found.symm.trans found')
      simp [reduced] at failed
    | goes _ found' reduced' rest =>
      obtain rfl := Option.some.inj (found.symm.trans found')
      obtain rfl := Except.ok.inj (reduced.symm.trans reduced')
      exact ⟨_, rest⟩
  | simplified earlier settled simplified _ =>
    obtain ⟨u, stands⟩ := earlier.stands spans root sound
    simp [simplifyRoot_settled stands.spans stands.root settled simplified] at pending

/-- A reduction that fails ends the evaluation at the formula it was tried on. -/
theorem trace_failed {t : Tree NodeId} (prepared : prepare e = (f, .ok ()))
    (spans : f.Spans t) (root : t.top = f.root) (sound : (f.view t).Sound)
    (passes : Passes f g) (pending : isPending (g.node g.root)) {error : ComputationError}
    (found : deepestPending g = some id) (failed : reduce g id = .error error) :
    (trace e).1.formula = g ∧ (trace e).2 = .error error := by
  have displays : f.Displays (f.view t) := ⟨t, spans, root, rfl⟩
  obtain ⟨n, last, ended, few, reductions⟩ := reductions_of_displays displays
  obtain ⟨m, rest⟩ := passes.ahead spans root sound pending reductions
  obtain ⟨rfl, rfl⟩ : last = g ∧ ended = .error error := by
    cases rest with
    | done settled => simp [settled] at pending
    | fails _ found' failed' =>
      obtain rfl := Option.some.inj (found.symm.trans found')
      exact ⟨rfl, congrArg Except.error (Except.error.inj (failed'.symm.trans failed))⟩
    | goes _ found' reduced _ =>
      obtain rfl := Option.some.inj (found.symm.trans found')
      simp [reduced] at failed
  obtain ⟨same, outcome⟩ :=
    reductions.loop (Nat.le_trans few (effort_le_limit displays)) (t := .opening f) rfl
  rw [trace, prepared]
  simp only
  generalize (Trace.opening f).reduceWhilePending (reductionLimit f) = reduced at same outcome ⊢
  obtain ⟨trace, stop⟩ := reduced
  subst outcome
  exact ⟨same, rfl⟩

/-- At every formula that an evaluation passes, reductions at nodes of which neither is below the
other can be made in either order: if one order succeeds, so does the other, and the formulas differ
in the ids of the pushed nodes only. A reduction changes nothing but its node and what is below it,
and when one fails, the formula stays as it was. -/
theorem reductions_commute {text : String} (parsed : Expression.ofText text = .ok e)
    (prepared : prepare e = (f, .ok ())) (passes : Passes f g) :
    (∀ a b h k, g.Reaches g.root a → g.Reaches g.root b → ¬ g.Reaches a b → ¬ g.Reaches b a →
      reduce g a = .ok h → reduce h b = .ok k →
      ∃ h' k', reduce g b = .ok h' ∧ reduce h' a = .ok k' ∧
        ∃ π : Equiv.Perm NodeId, (∀ j < g.size, π j = j) ∧ Renames π k k') ∧
    (∀ a h, g.Reaches g.root a → reduce g a = .ok h → ChangesBelow g a h) ∧
    ∀ a error, isPending (g.node g.root) → deepestPending g = some a → reduce g a = .error error →
      (trace e).1.formula = g ∧ (trace e).2 = .error error := by
  obtain ⟨t, spans, root, sound⟩ := stands_of_parsed parsed prepared
  obtain ⟨u, stands⟩ := passes.stands spans root sound
  have tree {a : NodeId} (reached : g.Reaches g.root a) : ∃ s, g.Spans s ∧ s.top = a := by
    rw [← stands.root, reaches_iff stands.spans.links] at reached
    obtain ⟨s, below, top, -⟩ := stands.spans.below reached
    exact ⟨s, below, top⟩
  refine ⟨fun a b h k one two above below first second => ?_, fun a h reached reduced => ?_,
    fun a error pending found failed => ?_⟩
  · have member {a : NodeId} (reached : g.Reaches g.root a) : a ∈ u.flatten :=
      (reaches_iff stands.spans.links).mp (stands.root ▸ reached)
    have inside : g.root < g.size := stands.root ▸ stands.spans.inside _ u.top_mem
    have separate (k : NodeId) := stands.spans.apart (member one) (member two) above below (k := k)
    obtain ⟨s, spans_a, rfl⟩ := tree one
    obtain ⟨t, spans_b, rfl⟩ := tree two
    refine reduce_exchange (passes.closed parsed prepared) inside spans_a spans_b
      (fun k here there => ?_) first second
    exact separate k ((reaches_iff spans_a.links).mpr here) ((reaches_iff spans_b.links).mpr there)
  · obtain ⟨s, spans, rfl⟩ := tree reached
    exact reduce_below spans reduced
  · exact trace_failed prepared spans root sound passes pending found failed

/-- A text that is prepared as a formula that passes a test. -/
theorem prepares (text : String) (p : Formula → Bool)
    (tested : (Expression.ofText text).toOption.any fun e => (prepare e).2.isOk && p (prepare e).1) :
    ∃ e f, Expression.ofText text = .ok e ∧ prepare e = (f, .ok ()) ∧ p f := by
  cases parsed : (Expression.ofText text : Except GrammarError Formula) with
  | error error => simp [parsed, Except.toOption] at tested
  | ok e =>
    simp only [parsed, Except.toOption, Option.any_some, Bool.and_eq_true] at tested
    cases prepared : prepare e with
    | mk f ended =>
      rw [prepared] at tested
      cases ended with
      | error error => simp [Except.isOk, Except.toBool] at tested
      | ok done => exact ⟨e, f, rfl, prepared, tested.2⟩

/-- The operands of the root are pending, and reducing them from left to right pushes new nodes for both. -/
def pushesForBoth (e : Formula) : Bool :=
  match (e.node e.root).left, (e.node e.root).right with
  | some a, some b => isPending (e.node a) && isPending (e.node b) &&
    match reduce e a with
    | .ok f => e.size < f.size &&
      match reduce f b with
      | .ok g => f.size < g.size
      | .error _ => false
    | .error _ => false
  | _, _ => false

def failsSecond (e : Formula) : Bool :=
  match deepestPending e with
  | some a =>
    match reduce e a with
    | .ok f => isPending (e.node e.root) && isPending (f.node f.root) &&
      match deepestPending f with
      | some b => !(reduce f b).isOk
      | none => false
    | .error _ => false
  | none => false

/-- Two equations in a sum are rewritten in either order, and a division by zero fails. -/
theorem reductions_commute_equations :
    (∃ (e f : Formula) (a b : NodeId) (h k h' k' : Formula) (π : Equiv.Perm NodeId),
      Expression.ofText "sin(3x=6)+sin(y=x)" = .ok e ∧ prepare e = (f, .ok ()) ∧
        (f.node f.root).left = some a ∧ (f.node f.root).right = some b ∧ isPending (f.node a) ∧
        isPending (f.node b) ∧
        f.size < h.size ∧ h.size < k.size ∧ reduce f a = .ok h ∧ reduce h b = .ok k ∧ reduce f b = .ok h' ∧
        reduce h' a = .ok k' ∧ (∀ j < f.size, π j = j) ∧ Renames π k k') ∧
    ∃ (e f g : Formula) (a : NodeId) (error : ComputationError),
      Expression.ofText "1/(2-2)" = .ok e ∧ prepare e = (f, .ok ()) ∧ Passes f g ∧ deepestPending g = some a ∧
        reduce g a = .error error ∧ (trace e).1.formula = g ∧ (trace e).2 = .error error := by
  refine ⟨?_, ?_⟩
  · obtain ⟨e, f, parsed, prepared, found⟩ := prepares "sin(3x=6)+sin(y=x)" pushesForBoth (by decide +kernel)
    unfold pushesForBoth at found
    split at found
    · next a b left right =>
      simp only [Bool.and_eq_true] at found
      obtain ⟨⟨first, second⟩, found⟩ := found
      split at found
      · next h reduced =>
        simp only [Bool.and_eq_true, decide_eq_true_eq] at found
        obtain ⟨pushed, found⟩ := found
        split at found
        · next k reduced' =>
          obtain ⟨t, spans, root, -⟩ := stands_of_parsed parsed prepared
          obtain ⟨above, below⟩ := spans.operands_apart (root ▸ left) (root ▸ right)
          obtain ⟨h', k', one, two, π, fixes, renames⟩ :=
            (reductions_commute parsed prepared .prepared).1 a b h k (.left left (.here a))
            (.right right (.here b)) above below reduced reduced'
          exact ⟨e, f, a, b, h, k, h', k', π, parsed, prepared, left, right, first, second, pushed,
            by simpa using found, reduced, reduced', one, two, fixes, renames⟩
        · cases found
      · cases found
    · cases found
  · obtain ⟨e, f, parsed, prepared, found⟩ := prepares "1/(2-2)" failsSecond (by decide +kernel)
    unfold failsSecond at found
    split at found
    · next a sought =>
      split at found
      · next g reduced =>
        simp only [Bool.and_eq_true] at found
        obtain ⟨⟨pending, pending'⟩, found⟩ := found
        split at found
        · next b last =>
          have passes : Passes f g := .reduced .prepared pending sought reduced
          cases failed : reduce g b with
          | ok h => simp [failed, Except.isOk, Except.toBool] at found
          | error error =>
            exact ⟨e, f, g, b, error, parsed, prepared, passes, last, failed,
              (reductions_commute parsed prepared passes).2.2 b error pending' last failed⟩
        · cases found
      · cases found
    · cases found

end Formula

end Stepwise
