import Markup.Annotate.Boundary

/-! Places. Whether whitespace on a side of a node shows depends on nothing but its content, that of
its parent and that of its siblings. -/
namespace Markup

/-- A node and what stands around it. -/
structure Place where
  self : Content
  parent : Option Content := none
  prev : Option Content := none
  next : Option Content := none
deriving DecidableEq, Repr

namespace Place

def flip (p : Place) : Place := { p with prev := p.next, next := p.prev }

/-- Text and expressions on both sides of the boundary before the node. -/
def continuesText (p : Place) : Bool :=
  p.self.kind.isTextLike && p.prev.any fun c => c.kind.isTextLike

/-- Whitespace right before the node shows, as far as the node, its parent and the sibling before it
can tell. -/
def keepsLeading (p : Place) : Bool :=
  if p.continuesText then true
  else
    match p.parent with
    | none => true
    | some parent =>
      if parent.display = .none || parent.isPreLike then true
      else
        match p.prev with
        | some prev => prev.display.keepsNextLeading
        | none =>
          !(parent.kind = .root || p.self.isPreLike || parent.isScriptLike ||
            !parent.display.keepsFirstChildLeading)

/-- Text and expressions on both sides of the boundary behind the node. -/
def textContinues (p : Place) : Bool :=
  p.self.kind.isTextLike && p.next.any fun c => c.kind.isTextLike

/-- Whitespace right behind the node shows, as far as the node, its parent and the sibling behind it
can tell. -/
def keepsTrailing (p : Place) : Bool :=
  if p.textContinues then true
  else
    match p.parent with
    | none => true
    | some parent =>
      if parent.display = .none || parent.isPreLike then true
      else
        match p.next with
        | some next => next.display.keepsPrevTrailing
        | none =>
          !(parent.kind = .root || p.self.isPreLike || parent.isScriptLike ||
            !parent.display.keepsLastChildTrailing)

end Place

namespace Store

def place (s : Store) (id : NodeId) : Except Error Place := do
  let n ← s.node id
  return { self := n.toContent
           parent := ← s.linked n.parent
           prev := ← s.linked n.prev
           next := ← s.linked n.next }

theorem linked_eq_ok {s : Store} {id : NodeId} {n : Node} (h : s.node? id = some n) :
    s.linked (some id) = .ok (some n.toContent) := by
  simp [linked, node_eq_ok h, Except.map]

theorem place_eq_ok {s : Store} {id : NodeId} {n : Node} {parent prev next : Option Content}
    (h : s.node? id = some n) (hparent : s.linked n.parent = .ok parent)
    (hprev : s.linked n.prev = .ok prev) (hnext : s.linked n.next = .ok next) :
    s.place id = .ok { self := n.toContent, parent, prev, next } := by
  simp [place, node_eq_ok h, hparent, hprev, hnext, bind, Except.bind, pure, Except.pure]

theorem node_of_place {s : Store} {id : NodeId} {p : Place} (h : s.place id = .ok p) :
    ∃ n, s.node id = .ok n ∧ n.toContent = p.self ∧ s.linked n.parent = .ok p.parent ∧
      s.linked n.prev = .ok p.prev ∧ s.linked n.next = .ok p.next := by
  obtain ⟨n, hn, h⟩ := Checked.bind_eq_ok.mp h
  obtain ⟨parent, hparent, h⟩ := Checked.bind_eq_ok.mp h
  obtain ⟨prev, hprev, h⟩ := Checked.bind_eq_ok.mp h
  obtain ⟨next, hnext, h⟩ := Checked.bind_eq_ok.mp h
  cases h
  exact ⟨n, hn, rfl, hparent, hprev, hnext⟩

end Store

namespace Annotate

variable {s : Store} {id : NodeId} {n : Node} {p : Place} {preLike : NodeId → Except Error Bool}

/-- What a side of a node depends on. -/
def Side.keeps (side : Side) (self : Content) (parent sibling : Option Content) : Bool :=
  if self.kind.isTextLike && sibling.any fun c => c.kind.isTextLike then true
  else
    match parent with
    | none => true
    | some parent =>
      if parent.display = .none || parent.isPreLike then true
      else
        match sibling with
        | some c => side.ofSibling c.display
        | none =>
          !(parent.kind = .root || self.isPreLike || parent.isScriptLike ||
            !side.ofParent parent.display)

theorem keepsBy_eq_ok (hpre : ∀ i n, s.node i = .ok n → preLike i = .ok n.toContent.isPreLike)
    (side : Side) {parent sibling : Option Content} (hn : s.node id = .ok n)
    (hparent : s.linked n.parent = .ok parent)
    (hsibling : s.linked (side.sibling n) = .ok sibling) :
    keepsBy preLike side s id = .ok (side.keeps n.toContent parent sibling) := by
  simp only [keepsBy, Side.keeps, hn, hsibling, bind, Except.bind, pure, Except.pure]
  split
  case isTrue => rfl
  case isFalse =>
    cases hlink : n.parent with
    | none =>
      rw [hlink] at hparent
      cases hparent
      rfl
    | some i =>
      cases hi : s.node i with
      | error e => simp [hlink, Store.linked, hi, Except.map] at hparent
      | ok m =>
        simp only [hlink, Store.linked, hi, Except.map, Except.ok.injEq] at hparent
        subst hparent
        simp only [hi, hpre i m hi, hpre id n hn]
        by_cases hnone : m.toContent.display = .none
        · simp [hnone]
        · cases hpreLike : m.toContent.isPreLike with
          | true => simp [hnone]
          | false =>
            cases sibling with
            | some c => simp [hnone]
            | none =>
              by_cases hroot : m.kind = .root
              · simp [hnone, hroot]
              · cases hself : n.toContent.isPreLike <;> simp [hnone, hroot]

theorem isPreLikeAt_eq_ok (i : NodeId) (n : Node) (hn : s.node i = .ok n) :
    isPreLikeAt s i = .ok n.toContent.isPreLike := by
  rw [isPreLikeAt, hn]
  rfl

theorem entry_preLikeTable (i : NodeId) (n : Node) (hn : s.node i = .ok n) :
    Checked.entry (preLikeTable s) i = .ok n.toContent.isPreLike := by
  refine Checked.entry_eq_ok ?_
  have hsome : s.nodes[i]? = some n := by
    rw [Store.node] at hn
    split at hn
    case h_1 m hm => rw [← Except.ok.inj hn]; exact hm
    case h_2 => cases hn
  rw [preLikeTable, Array.getElem?_map, hsome]
  rfl

section Place

variable (hp : s.place id = .ok p)
include hp

theorem keepsLeading_of_place : keepsLeading s id = .ok p.keepsLeading := by
  obtain ⟨n, hn, hself, hparent, hprev, -⟩ := Store.node_of_place hp
  rw [keepsLeading, keepsBy_eq_ok isPreLikeAt_eq_ok .leading hn hparent hprev, hself]
  rfl

theorem keepsTrailing_of_place : keepsTrailing s id = .ok p.keepsTrailing := by
  obtain ⟨n, hn, hself, hparent, -, hnext⟩ := Store.node_of_place hp
  rw [keepsTrailing, keepsBy_eq_ok isPreLikeAt_eq_ok .trailing hn hparent hnext, hself]
  rfl

theorem keepsBy_table_leading :
    keepsBy (Checked.entry (preLikeTable s)) .leading s id = .ok p.keepsLeading := by
  obtain ⟨n, hn, hself, hparent, hprev, -⟩ := Store.node_of_place hp
  rw [keepsBy_eq_ok entry_preLikeTable .leading hn hparent hprev, hself]
  rfl

theorem keepsBy_table_trailing :
    keepsBy (Checked.entry (preLikeTable s)) .trailing s id = .ok p.keepsTrailing := by
  obtain ⟨n, hn, hself, hparent, -, hnext⟩ := Store.node_of_place hp
  rw [keepsBy_eq_ok entry_preLikeTable .trailing hn hparent hnext, hself]
  rfl

end Place

theorem both_eq_ok (a b : Bool) : both (.ok a) (.ok b) = .ok (a && b) := by
  cases a <;> rfl

end Annotate

end Markup
