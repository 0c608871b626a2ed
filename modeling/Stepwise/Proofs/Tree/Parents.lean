import Stepwise.Proofs.Tree.Reciprocal

/-! The array that a text is built into. Main statement: it holds the tree of the text and nothing
else, its operands name their parents, and its root has none. -/
namespace Stepwise

section Sizes
variable {α : Type}

def Waiting.size (waiting : List (Waiting α)) : Nat := (waiting.map fun w => w.2.size + 1).sum

def Spine.size (s : Spine α) : Nat := Waiting.size s.waiting + s.last.elim 0 Tree.size

def Draft.size (d : Draft α) : Nat := d.level.size + (d.outer.map Spine.size).sum

namespace Waiting

@[simp] theorem size_nil : size ([] : List (Waiting α)) = 0 := rfl

@[simp] theorem size_cons (w : Waiting α) (outer : List (Waiting α)) :
    size (w :: outer) = w.2.size + 1 + size outer := by
  simp [size]

theorem size_close (waiting : List (Waiting α)) (t : Tree α) :
    (close waiting t).size = size waiting + t.size := by
  induction waiting generalizing t with
  | nil => simp [close]
  | cons w outer ih =>
    rw [close, ih, size_cons, Tree.size]
    omega

theorem size_closeWhile (closes : α → Bool) (waiting : List (Waiting α)) (t : Tree α) :
    size (closeWhile closes waiting t).1 + (closeWhile closes waiting t).2.size = size waiting + t.size := by
  induction waiting generalizing t with
  | nil => rfl
  | cons w outer ih =>
    rw [closeWhile]
    split
    · rw [ih, size_cons, Tree.size]
      omega
    · rfl

end Waiting

variable {ν : Type} {d : Draft (Label ν)}

theorem Tree.size_factorialFrom (x : Tree (Label ν)) (k count : Nat) :
    (x.factorialFrom k count).size = x.size + 2 * count := by
  induction count generalizing x k with
  | zero => rfl
  | succ count ih =>
    rw [factorialFrom, ih, size, size]
    omega

namespace Draft

theorem size_attach (awaiting : d.awaiting) (x : Tree (Label ν)) : (d.attach x).size = d.size + x.size := by
  have none : d.level.last = none := by simpa [Draft.awaiting] using awaiting
  simp only [attach, size, Spine.size, none, Option.elim]
  omega

theorem size_placeSign (awaiting : d.awaiting) (token : Token) : (d.placeSign token).size = d.size + 2 := by
  have none : d.level.last = none := by simpa [Draft.awaiting] using awaiting
  simp only [placeSign, size, Spine.size, none, Option.elim, Waiting.size_cons, Tree.size]
  omega

theorem size_placeOperator (behind : d.awaiting = false) (token : Token) :
    (d.placeOperator token).size = d.size + 1 := by
  obtain ⟨⟨waiting, last, call⟩, outer⟩ := d
  cases last with
  | none => cases behind
  | some x =>
    have kept := Waiting.size_closeWhile (yields token) waiting x
    simp only [placeOperator, size, Spine.size, Option.elim, Waiting.size_cons]
    omega

theorem size_closed (waiting : List (Waiting α)) (x : Tree α) (call : Option Token)
    (level : Spine α) (outer : List (Spine α)) :
    size ⟨⟨waiting, some x, call⟩, level :: outer⟩ =
      (Waiting.close waiting x).size + size ⟨level, outer⟩ := by
  simp [size, Spine.size, Waiting.size_close]

end Draft

end Sizes

namespace Expression

variable {ν : Type}

namespace Builder

@[simp] theorem size_attach (b : Builder ν) (id : NodeId) (awaiting : Bool) :
    (b.attach id awaiting).nodes.size = b.nodes.size := by
  obtain ⟨e, ⟨spine, waits, call⟩, outer⟩ := b
  cases spine with
  | none => rfl
  | some spine =>
    exact (size_setParent ..).trans (size_modify ..)

theorem size_expandFactorial (e : Expression ν) (chain : NodeId) (k count : Nat) :
    (expandFactorial e chain k count).1.size = e.size + 2 * count := by
  induction count generalizing e chain k with
  | zero => rfl
  | succ count ih =>
    rw [expandFactorial, ih, size_pushBinary, size_push]
    omega

theorem size_placeLeaf (b : Builder ν) (token : Token) :
    (b.placeLeaf token).nodes.size = b.nodes.size + 1 := by
  obtain ⟨e, level, outer⟩ := b
  rw [placeLeaf, size_attach, size_push]

theorem size_placeFactorial (b : Builder ν) (token : Token) :
    (b.placeFactorial token).nodes.size = b.nodes.size + (Tree.ofFactorial token : Tree (Label ν)).size := by
  obtain ⟨e, level, outer⟩ := b
  unfold placeFactorial Tree.ofFactorial
  cases smallWhole? token.text with
  | none => exact size_placeLeaf ..
  | some n =>
    rw [size_attach, Tree.size_factorialFrom]
    simp only [size_expandFactorial, size_push, Tree.size]
    omega

theorem size_placeSign (b : Builder ν) (token : Token) :
    (b.placeSign token).nodes.size = b.nodes.size + 2 := by
  obtain ⟨e, level, outer⟩ := b
  rw [placeSign, size_attach, size_push, size_push]

theorem size_placeOperator (b : Builder ν) (token : Token) (known : b.level.spine.isSome) :
    (b.placeOperator token).nodes.size = b.nodes.size + 1 := by
  obtain ⟨e, ⟨spine, waits, call⟩, outer⟩ := b
  cases spine with
  | none => cases known
  | some spine =>
    simp only [placeOperator]
    split <;> simp

/-- A keyword adds as many nodes to the array as to the tree it is put on. -/
theorem size_applyCall (e : Expression ν) (call : Option Token) {group : NodeId}
    {x : Tree (Label ν)} (same : (e.node group).call = x.top.call) :
    (applyCall e call group).1.size + x.size = e.size + (x.applyCall call).size := by
  cases call with
  | none => rfl
  | some keyword =>
    rw [applyCall, Tree.applyCall, same]
    split
    · simp only [size_pushBinary, size_push, Tree.size]
      omega
    · split
      · simp only [size_setParent, size_push, Tree.size]
        omega
      · rw [size_modify, Tree.size_mapTop]

/-- The builder is as far as the draft, its operands name their parents, and no node lies outside
the draft. -/
structure Tracks (b : Builder ν) (draft : Draft (Label ν)) : Prop where
  shows : b.Shows draft
  reciprocal : b.nodes.Reciprocal
  filled : b.nodes.size = draft.size

end Builder

namespace Fits

variable {e : Expression ν} {waiting : List (Waiting NodeId)} {t : Tree NodeId} {call : Option Token}
  {outer : List (Spine NodeId)}

/-- The operand placed last is at most a right operand. -/
theorem behind (fits : e.Fits ⟨⟨waiting, some t, call⟩, outer⟩) {above : NodeId}
    (parent : (e.node t.top).parent = some above) :
    (e.node above).right = some t.top ∧ (e.node above).left ≠ some t.top := by
  have hung := fits.hung
  cases waiting with
  | nil => cases hung.parent.symm.trans parent
  | cons w rest =>
    obtain ⟨a, left⟩ := w
    obtain rfl : a = above := Option.some.inj (hung.parent.symm.trans parent)
    obtain ⟨l, r, -⟩ := hung.holds
    refine ⟨r, fun same => ?_⟩
    have shared : left.top = t.top := Option.some.inj (l.symm.trans same)
    have nodup := (List.nodup_append.mp fits.nodup).1
    have apart := (List.nodup_append.mp nodup).2.2 left.top (by simp [Waiting.ids, left.top_mem])
      t.top t.top_mem
    exact apart shared

end Fits

namespace Builder

variable {b : Builder ν} {draft : Draft (Label ν)}

theorem Tracks.placeOperator (tracks : b.Tracks draft) (behind : draft.awaiting = false) (token : Token) :
    (b.placeOperator token).nodes.Reciprocal := by
  obtain ⟨⟨e, ⟨⟨waiting, last, call⟩, outer⟩, fits, rfl, rfl⟩, reciprocal, -⟩ := tracks
  cases last with
  | none => cases behind
  | some t =>
    let closes (a : NodeId) : Bool := Draft.yields token (e.node a).label
    have climbed := fits.closeWhile closes
    exact reciprocal.placeOperator token rfl (fits.hung.anchor token fits.few)
      (climbed.last_spans.inside _ (Tree.top_mem _)) fun above parent => climbed.behind parent

theorem Tracks.awaiting_eq (tracks : b.Tracks draft) : b.level.awaiting = draft.awaiting := by
  obtain ⟨⟨e, d, -, rfl, rfl⟩, -⟩ := tracks
  exact Builder.awaiting_eq e d

theorem Tracks.spine (tracks : b.Tracks draft) (behind : draft.awaiting = false) : b.level.spine.isSome := by
  obtain ⟨⟨e, ⟨⟨waiting, last, call⟩, outer⟩, -, rfl, rfl⟩, -⟩ := tracks
  cases last with
  | none => cases behind
  | some t => rfl

def Keeps (later : Builder ν) (d : Draft (Label ν)) : Prop :=
  later.nodes.Reciprocal ∧ later.nodes.size = d.size

theorem openBracket_keeps (tracks : b.Tracks draft) (token : Token) :
    Alike Keeps (b.openBracket token) (draft.openBracket token) := by
  obtain ⟨⟨e, d, -, rfl, rfl⟩, reciprocal, filled⟩ := tracks
  have length : (d.builder e).outer.length = (d.view e).outer.length := by
    simp [Draft.builder, Draft.view, Draft.map]
  simp only [openBracket, Draft.openBracket, Builder.awaiting_eq, length]
  split
  · rfl
  · split
    · rfl
    · refine ⟨reciprocal, filled.trans ?_⟩
      simp [Draft.size, Spine.size]

theorem openCall_keeps (tracks : b.Tracks draft) (token : Token) (next : Option Token) :
    Alike Keeps (b.openCall token next) (draft.openCall token next) := by
  simp only [openCall, Draft.openCall, tracks.awaiting_eq]
  split
  · rfl
  · split
    · exact ⟨tracks.reciprocal, tracks.filled⟩
    · rfl

/-- What stands in a bracket becomes an operand of the level around it. -/
theorem keeps_closed {e : Expression ν} {waiting : List (Waiting NodeId)}
    {t : Tree NodeId} {call : Option Token} {level : Spine NodeId} {outer : List (Spine NodeId)}
    (fits : e.Fits ⟨⟨waiting, some t, call⟩, level :: outer⟩) (reciprocal : e.Reciprocal)
    (filled : e.size = (Waiting.close waiting t).size + (Draft.view e ⟨level, outer⟩).size) :
    Keeps
      (attach
        ⟨(applyCall e level.call (Waiting.root waiting t.top)).1, level.level, outer.map Spine.level⟩
        (applyCall e level.call (Waiting.root waiting t.top)).2 false)
      ((Draft.view e ⟨level, outer⟩).attach ((e.view (Waiting.close waiting t)).applyCall level.call)) := by
  obtain ⟨alone, root⟩ := fits.closed
  rw [← root]
  generalize Waiting.close waiting t = group at alone filled
  have spans := alone.last_spans
  obtain ⟨u, top, becomes⟩ := applyCall_becomes level.call spans alone.hung.parent
  have kept := reciprocal.applyCall level.call (spans.inside _ group.top_mem) alone.hung.parent
  have room : (Draft.view e ⟨level, outer⟩).awaiting := by
    simp [Draft.awaiting, Draft.view, Draft.map, Spine.map, (fits.outer level (List.mem_cons_self ..)).2]
  have grown := size_applyCall e level.call
    (show (e.node group.top).call = (e.view group).top.call by simp [view, Node.label])
  refine ⟨Reciprocal.attach kept (top ▸ becomes.regrown.spans.inside _ u.top_mem)
    (top ▸ becomes.orphan) false, ?_⟩
  rw [size_attach, Draft.size_attach room]
  simp only [view, Tree.size_map] at grown ⊢
  omega

theorem closeBracket_keeps (tracks : b.Tracks draft) (token : Token) (next : Option Token) :
    Alike Keeps (b.closeBracket token next) (draft.closeBracket token next) := by
  obtain ⟨⟨e, ⟨⟨waiting, last, call⟩, outer⟩, fits, rfl, rfl⟩, reciprocal, filled⟩ := tracks
  cases outer with
  | nil => rfl
  | cons level outer =>
    cases last with
    | none => rfl
    | some t =>
      have placed := keeps_closed fits reciprocal <| by
        rw [← Tree.size_map fun id => (e.node id).label, Waiting.map_close]
        exact filled.trans (Draft.size_closed ..)
      rw [view, Waiting.map_close] at placed
      exact placed

theorem operand_keeps (tracks : b.Tracks draft) (token : Token) :
    Alike Keeps (b.operand token) (draft.operand token) := by
  simp only [operand, Draft.operand, tracks.awaiting_eq]
  cases awaiting : draft.awaiting with
  | false => rfl
  | true =>
    simp only [Bool.not_true, Bool.false_eq_true, if_false]
    split
    · exact ⟨tracks.reciprocal.placeFactorial token,
        by rw [size_placeFactorial, Draft.size_attach awaiting, tracks.filled]⟩
    · exact ⟨tracks.reciprocal.placeLeaf token,
        by rw [size_placeLeaf, Draft.size_attach awaiting, tracks.filled, Tree.size]⟩

abbrev KeepsWith (p : Builder ν × Nat) (q : Draft (Label ν) × Nat) : Prop := Keeps p.1 q.1

theorem operator_keeps (tracks : b.Tracks draft) (token : Token) (rest : List Token) :
    Alike KeepsWith (b.operator token rest) (draft.operator token rest) := by
  simp only [operator, Draft.operator, tracks.awaiting_eq]
  cases awaiting : draft.awaiting with
  | false =>
    refine ⟨tracks.placeOperator awaiting token, ?_⟩
    rw [size_placeOperator b token (tracks.spine awaiting), Draft.size_placeOperator awaiting, tracks.filled]
  | true =>
    simp only [Bool.not_true, Bool.false_eq_true, if_false]
    split
    · exact ⟨tracks.reciprocal.placeLeaf _,
        by rw [size_placeLeaf, Draft.size_attach awaiting, tracks.filled, Tree.size]⟩
    · split
      · exact ⟨tracks.reciprocal.placeSign token,
          by rw [size_placeSign, Draft.size_placeSign awaiting, tracks.filled]⟩
      · rfl

theorem place_keeps (tracks : b.Tracks draft) (token : Token) (rest : List Token) :
    Alike KeepsWith (b.place token rest) (draft.place token rest) := by
  have taken {x : Outcome ν} {y : Draft.Outcome ν} (alike : Alike Keeps x y) :
      Alike KeepsWith (x.map (·, 0)) (y.map (·, 0)) := alike.map fun _ _ kept => kept
  unfold place Draft.place
  cases token.kind with
  | opening => exact taken (openBracket_keeps tracks token)
  | closing => exact taken (closeBracket_keeps tracks token _)
  | trig | log | sqrt | diff => exact taken (openCall_keeps tracks token _)
  | number | letter | polynomial | factorial => exact taken (operand_keeps tracks token)
  | equals | plus | minus | times | divide | power => exact operator_keeps tracks token rest
  | finish => exact ⟨tracks.reciprocal, tracks.filled⟩

theorem place_tracks (tracks : b.Tracks draft) (token : Token) (rest : List Token) :
    Alike (fun p q => p.1.Tracks q.1 ∧ p.2 = q.2) (b.place token rest) (draft.place token rest) :=
  ((place_alike tracks.shows token rest).both (place_keeps tracks token rest)).mono fun _ _ both =>
    ⟨⟨both.1.1, both.2.1, both.2.2⟩, both.1.2⟩

end Builder

structure Fills (e : Expression ν) (x : Tree (Label ν)) : Prop where
  displays : e.Displays x
  reciprocal : e.Reciprocal
  root : (e.node e.root).parent = none
  size : e.size = x.size

theorem Builder.complete_fills {b : Builder ν} {draft : Draft (Label ν)} (tracks : b.Tracks draft)
    (position : Option Nat) :
    Alike Fills (b.complete position) (draft.complete position) := by
  have shown := complete_alike tracks.shows position
  have whole : Alike (fun e x => e.Reciprocal ∧ (e.node e.root).parent = none ∧ e.size = x.size)
      (b.complete position) (draft.complete position) := by
    obtain ⟨⟨e, ⟨⟨waiting, last, call⟩, outer⟩, fits, rfl, rfl⟩, reciprocal, filled⟩ := tracks
    cases outer with
    | cons level outer => simp [complete, Draft.complete, Draft.builder, Draft.view, Draft.map, Alike]
    | nil =>
      cases last with
      | none => rfl
      | some t =>
        obtain ⟨alone, root⟩ := fits.closed
        refine ⟨reciprocal, root ▸ alone.hung.parent, filled.trans ?_⟩
        simp [Draft.view, Draft.map, Draft.size, Spine.map, Spine.size, Waiting.size_close]
  exact (shown.both whole).mono fun _ _ both => ⟨both.1, both.2.1, both.2.2.1, both.2.2.2⟩

theorem Builder.tracks_empty : ({} : Builder ν).Tracks {} where
  shows := shows_empty
  reciprocal _ _ lists := by
    rw [Lists, node_outside (Nat.zero_le _)] at lists
    rcases lists with absurd | absurd <;> cases absurd
  filled := rfl

/-- A text denotes an expression that the tree of its tokens fills. -/
theorem ofText_fills {text : String} {e : Expression ν} (parsed : ofText text = .ok e) :
    ∃ x : Tree (Label ν), Tree.ofText text = .ok x ∧ e.Fills x := by
  unfold ofText at parsed
  unfold Tree.ofText
  cases read : Token.ofText text with
  | error error => simp [read] at parsed
  | ok tokens =>
    simp only [read] at parsed ⊢
    have alike := Builder.build_simulates Builder.place_tracks Builder.complete_fills tokens
      (Builder.tracks_empty (ν := ν))
    rw [ofTokens] at parsed
    rw [parsed] at alike
    cases built : Draft.build (ν := ν) {} tokens with
    | error error => simp [built, Alike] at alike
    | ok x => exact ⟨x, built, by simpa [built, Alike] using alike⟩

end Expression

end Stepwise
