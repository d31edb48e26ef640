import Markup.Draft
import Markup.Proofs.Annotation

/-! Outlines: the document of a draft, grown as a tree. Finished nodes stand in lists and open
elements on a stack. A draft numbers its nodes as they are written and links them when the element
around them is closed; what it finishes is the store laid out from its outline. -/
namespace Markup

/-- An element that is not closed yet. -/
structure Outline.Frame where
  element : Element
  span : Span
  children : List Doc := []

structure Outline where
  text : String := ""
  top : List Doc := []
  frames : List Outline.Frame := []

namespace Outline

open Draft (startTag element single resolve)

def size (o : Outline) : Nat := o.text.utf8ByteSize

def write (o : Outline) (markup : String) : Outline × Span :=
  let next := { o with text := o.text ++ markup }
  (next, ⟨.ofOffset o.size, .ofOffset next.size⟩)

def push (o : Outline) (t : Doc) : Outline :=
  match o.frames with
  | [] => { o with top := o.top ++ [t] }
  | f :: fs => { o with frames := { f with children := f.children ++ [t] } :: fs }

def leaf (o : Outline) (kind : Kind) (markup : String) : Outline :=
  let (o, span) := o.write markup
  o.push (.leaf { kind, span })

def openTag (o : Outline) (name : String) (attrs : List Attribute) : Outline :=
  let (o, span) := o.write (startTag name attrs ">")
  { o with frames := { element := element name attrs span, span } :: o.frames }

def emptyElement (o : Outline) (name markup : String) (isClosed : Bool) : Outline :=
  let (o, span) := o.write markup
  o.push (.node (single name isClosed span) [])

def pop (o : Outline) (closeTag : Option Span) : Outline :=
  match o.frames with
  | [] => o
  | f :: fs =>
    let content :=
      { kind := .element { f.element with closeTag }
        span := { f.span with stop := .ofOffset o.size } }
    push { o with frames := fs } (.node content f.children)

def closeWith (o : Outline) (tag : String) : Outline :=
  let (o, span) := o.write tag
  o.pop (some span)

def openName (o : Outline) : String :=
  (o.frames.head?.map fun f => f.element.fullName).getD ""

def step (o : Outline) : Step → Outline
  | .text value => o.leaf (.text value) value
  | .comment value => o.leaf (.comment value) ("<!--" ++ value ++ "-->")
  | .cdata value => o.leaf (.cdata value) ("<![CDATA[" ++ value ++ "]]>")
  | .doctype value => o.leaf (.doctype value) ("<!" ++ value ++ ">")
  | .conditionalStart condition =>
    o.leaf (.conditionalStart condition) ("<!--[if " ++ condition ++ "]><!-->")
  | .conditionalEnd => o.leaf .conditionalEnd "<!--<![endif]-->"
  | .openTag name attrs => o.openTag name attrs
  | .close => o.closeWith ("</" ++ o.openName ++ ">")
  | .closeWith tag => o.closeWith tag
  | .closeImplied => o.pop none
  | .void name => o.emptyElement name (startTag name [] ">") false
  | .selfClosing name => o.emptyElement name (startTag name [] " />") true

def run (o : Outline) (steps : List Step) : Outline := steps.foldl step o

def closeAll (o : Outline) : Nat → Outline
  | 0 => o
  | n + 1 => closeAll (o.pop none) n

def toDoc (o : Outline) : Doc :=
  let o := o.closeAll o.frames.length
  let src := Source.ofString o.text
  .node { kind := .root, span := src.span 0 src.size } (o.top.map (Tree.map (resolve src)))

@[simp] theorem text_push (o : Outline) (t : Doc) : (o.push t).text = o.text := by
  rw [push]
  split <;> rfl

@[simp] theorem length_frames_push (o : Outline) (t : Doc) :
    (o.push t).frames.length = o.frames.length := by
  rw [push]
  split <;> simp [*]

@[simp] theorem text_pop (o : Outline) (closeTag : Option Span) :
    (o.pop closeTag).text = o.text := by
  rw [pop]
  split <;> simp

@[simp] theorem length_frames_pop (o : Outline) (closeTag : Option Span) :
    (o.pop closeTag).frames.length = o.frames.length - 1 := by
  rw [pop]
  split <;> simp [*]

theorem text_closeAll (o : Outline) (n : Nat) : (o.closeAll n).text = o.text := by
  induction n generalizing o with
  | zero => rfl
  | succ n ih => rw [closeAll, ih, text_pop]

theorem frames_closeAll (o : Outline) : (o.closeAll o.frames.length).frames = [] := by
  generalize hn : o.frames.length = n
  induction n generalizing o with
  | zero => exact List.eq_nil_of_length_eq_zero hn
  | succ n ih => exact ih _ (by simp [hn])

end Outline

namespace Tree

mutual
/-- Contents set from themselves alone are mapped. -/
theorem decorate_label (f : Content → Content) : ∀ (a : Surroundings) (t : Doc),
    decorate (fun _ t => f t.label) a t = t.map f
  | a, leaf c => by simp
  | a, node c ts => by
    rw [decorate_node, map_node, label_node, decorateAll_label]
theorem decorateAll_label (f : Content → Content) :
    ∀ (parent : Content) (isTop : Bool) (prev : Option Content) (ts : List Doc),
      decorateAll (fun _ t => f t.label) parent isTop prev ts = ts.map (Tree.map f)
  | _, _, _, [] => by simp
  | parent, isTop, prev, t :: ts => by
    rw [decorateAll_cons, decorate_label, decorateAll_label, List.map_cons]
end

end Tree

namespace Store

variable {s s' : Store} {id : Nat} {t : Doc} {ts : List Doc} {ids inner : List NodeId}
  {bound : Nat}

theorem Sits.relabel {parent prev next : Option NodeId} {c : Content} (f : Content → Content)
    (h : s.Sits parent prev next id (.node c ts)) :
    (s.adjust id fun n => { n with toContent := f n.toContent }).Sits parent prev next id
      (.node (f c) ts) := by
  obtain ⟨hn, hts⟩ := sits_node.mp h
  refine sits_node.mpr ⟨by rw [node?_adjust_self, hn]; rfl, hts.frame fun i hle _ => ?_⟩
  exact node?_adjust_of_ne s (Nat.ne_of_lt hle) _

/-- The list `ids` of an open node names its finished children, which stand behind it up to `bound`,
and then those of `inner`. -/
structure Level (s : Store) (id : NodeId) (ts : List Doc) (ids inner : List NodeId)
    (bound : Nat) : Prop where
  ids_eq : ids = rootIds (id + 1) ts ++ inner
  stands : s.StandsAll (id + 1) ts
  bound_eq : bound = id + 1 + Tree.sizeAll ts

theorem Level.frame (h : s.Level id ts ids inner bound)
    (hs : ∀ i < bound, s'.node? i = s.node? i) : s'.Level id ts ids inner bound :=
  ⟨h.ids_eq, h.stands.frame fun i _ hlt => hs i (h.bound_eq ▸ hlt), h.bound_eq⟩

theorem Level.list (h : s.Level id ts ids [] bound) :
    s.Level id ts (ids ++ [bound]) [bound] bound :=
  ⟨by rw [h.ids_eq, List.append_nil], h.stands, h.bound_eq⟩

theorem Level.grow (h : s.Level id ts ids [bound] bound) (ht : s.StandsAll bound [t]) :
    s.Level id (ts ++ [t]) ids [] (bound + t.size) := by
  have hbound := h.bound_eq
  refine ⟨?_, h.stands.append (hbound ▸ ht), ?_⟩
  · rw [h.ids_eq, rootIds_append, List.append_nil, ← hbound]
    rfl
  · rw [sizeAll_append, Tree.sizeAll_cons, Tree.sizeAll_nil, hbound]
    omega

end Store

namespace Draft

open Store

variable {s s' : Store} {top : List NodeId} {ts : List Doc} {fs : List Frame}
  {gs : List Outline.Frame} {inner : List NodeId} {bound : Nat} {d : Draft} {o : Outline} {t : Doc}

/-- The open nodes of a draft are those of an outline: each one is in the store, without its
children but with their numbers on its list, and the next one inwards follows behind them. -/
inductive Levels (s : Store) (top : List NodeId) (ts : List Doc) :
    List Frame → List Outline.Frame → List NodeId → Nat → Prop where
  | root {inner : List NodeId} {bound : Nat} (level : s.Level 0 ts top inner bound) :
      Levels s top ts [] [] inner bound
  | element {f : Frame} {fs : List Frame} {g : Outline.Frame} {gs : List Outline.Frame}
      {inner : List NodeId} {bound : Nat} (level : s.Level f.id g.children f.children inner bound)
      (opened : s.node? f.id = some (.ofContent { kind := .element g.element, span := g.span }))
      (outer : Levels s top ts fs gs [f.id] f.id) : Levels s top ts (f :: fs) (g :: gs) inner bound

theorem Levels.length_eq (h : Levels s top ts fs gs inner bound) : fs.length = gs.length := by
  induction h with
  | root => rfl
  | element _ _ _ ih => simp [ih]

theorem Levels.pos (h : Levels s top ts fs gs inner bound) : 0 < bound := by
  cases h with
  | root level => exact level.bound_eq ▸ Nat.lt_add_right _ (Nat.succ_pos _)
  | element level => exact level.bound_eq ▸ Nat.lt_add_right _ (Nat.succ_pos _)

theorem Levels.frame (h : Levels s top ts fs gs inner bound)
    (hs : ∀ i < bound, s'.node? i = s.node? i) : Levels s' top ts fs gs inner bound := by
  induction h with
  | root level => exact .root (level.frame hs)
  | @element f _ _ _ _ bound level opened outer ih =>
    have hlt : f.id < bound := by
      rw [level.bound_eq, Nat.add_assoc]
      exact Nat.lt_add_of_pos_right (by omega)
    exact .element (level.frame hs) ((hs _ hlt).trans opened) (ih fun i hi => hs i (hi.trans hlt))

@[simp] theorem store_push (d : Draft) (c : Content) :
    (d.push c).1.store = (d.store.alloc (.ofContent c)).1 := by
  cases hframes : d.frames <;> simp [Draft.push, hframes]

@[simp] theorem text_push (d : Draft) (c : Content) : (d.push c).1.text = d.text := by
  cases hframes : d.frames <;> simp [Draft.push, hframes]

@[simp] theorem snd_push (d : Draft) (c : Content) : (d.push c).2 = d.store.size := by
  cases hframes : d.frames <;> simp [Draft.push, hframes]

theorem Levels.push {c : Content} (h : Levels s d.top ts d.frames gs [] d.store.size) :
    Levels s (d.push c).1.top ts (d.push c).1.frames gs [d.store.size] d.store.size := by
  generalize hfs : d.frames = fs at h
  cases h with
  | root level => simpa [Draft.push, hfs] using Levels.root level.list
  | @element f fs g gs _ _ level opened outer =>
    simpa [Draft.push, hfs] using
      Levels.element (f := { f with children := f.children ++ [_] }) level.list opened outer

theorem Levels.grow (h : Levels s top o.top fs o.frames [bound] bound)
    (ht : s.StandsAll bound [t]) :
    Levels s top (o.push t).top fs (o.push t).frames [] (bound + t.size) := by
  generalize hgs : o.frames = gs at h
  cases h with
  | root level => simpa [Outline.push, hgs] using Levels.root (level.grow ht)
  | @element f fs g gs _ _ level opened outer =>
    simpa [Outline.push, hgs] using
      Levels.element (g := { g with children := g.children ++ [t] }) (level.grow ht) opened outer

/-- The document of the draft so far. -/
structure Draws (d : Draft) (o : Outline) : Prop where
  text : d.text = o.text
  root : d.store.node? 0 = some (.ofContent { kind := .root })
  levels : Levels d.store d.top o.top d.frames o.frames [] d.store.size

theorem Draws.empty : Draws {} {} where
  text := rfl
  root := rfl
  levels := .root ⟨rfl, trivial, rfl⟩

theorem Draws.size_eq (h : d.Draws o) : d.size = o.size := by
  rw [Draft.size, Outline.size, h.text]

theorem Draws.write (h : d.Draws o) (markup : String) :
    (d.write markup).1.Draws (o.write markup).1 ∧ (d.write markup).2 = (o.write markup).2 := by
  have htext : d.text ++ markup = o.text ++ markup := by rw [h.text]
  refine ⟨⟨htext, h.root, h.levels⟩, ?_⟩
  simp only [Draft.write, Outline.write, Draft.size, Outline.size, h.text]

theorem Draws.pos (h : d.Draws o) : 0 < d.store.size := by
  obtain ⟨hpos, -⟩ := Array.getElem?_eq_some_iff.mp h.root
  exact hpos

theorem Draws.root_push (h : d.Draws o) (c : Content) :
    (d.push c).1.store.node? 0 = some (.ofContent { kind := .root }) := by
  rw [store_push, node?_alloc_of_lt h.pos, h.root]

/-- What is listed in the draft and written in it before is there when one more node is. -/
theorem Draws.levels_push (h : d.Draws o) (c : Content) :
    Levels (d.push c).1.store (d.push c).1.top o.top (d.push c).1.frames o.frames [d.store.size]
      d.store.size := by
  refine (h.levels.push (c := c)).frame fun i hi => ?_
  rw [store_push, node?_alloc_of_lt hi]

theorem Draws.push (h : d.Draws o) (hsize : t.size = 1)
    (ht : ∀ s : Store, s.node? d.store.size = some (.ofContent t.label) →
      s.Sits none none none d.store.size t) :
    (d.push t.label).1.Draws (o.push t) where
  text := by rw [text_push, Outline.text_push, h.text]
  root := h.root_push t.label
  levels := by
    have hnode : (d.push t.label).1.store.node? d.store.size = some (.ofContent t.label) := by
      rw [store_push, node?_alloc_self]
    have hgrown := (h.levels_push t.label).grow ⟨⟨none, none, none, ht _ hnode⟩, trivial⟩
    rwa [hsize, ← size_alloc, ← store_push] at hgrown

theorem Draws.leaf (h : d.Draws o) {kind : Kind} (hkind : kind.isContainer = false)
    (markup : String) : (d.leaf kind markup).1.Draws (o.leaf kind markup) := by
  obtain ⟨hwrite, hspan⟩ := h.write markup
  have hleaf : o.leaf kind markup =
      (o.write markup).1.push (.leaf { kind, span := (o.write markup).2 }) := rfl
  rw [hleaf, ← hspan]
  refine hwrite.push (t := .leaf _) rfl fun s hs => sits_leaf.mpr ?_
  simpa [Node.ofContent, hkind] using hs

theorem Draws.emptyElement (h : d.Draws o) (name markup : String) (isClosed : Bool) :
    (d.emptyElement name markup isClosed).1.Draws (o.emptyElement name markup isClosed) := by
  obtain ⟨hwrite, hspan⟩ := h.write markup
  have hempty : o.emptyElement name markup isClosed =
      (o.write markup).1.push (.node (single name isClosed (o.write markup).2) []) := rfl
  rw [hempty, ← hspan]
  exact hwrite.push (t := .node _ []) rfl fun s hs => sits_node.mpr ⟨hs, sitsAll_nil⟩

theorem Draws.openTag (h : d.Draws o) (name : String) (attrs : List Attribute) :
    (d.openTag name attrs).1.Draws (o.openTag name attrs) := by
  obtain ⟨hwrite, hspan⟩ := h.write (startTag name attrs ">")
  generalize hnext : (d.write (startTag name attrs ">")).1 = next at hwrite
  generalize hspan' : (d.write (startTag name attrs ">")).2 = span at hspan
  have hopen : d.openTag name attrs =
      let c : Content := { kind := .element (element name attrs span), span }
      ({ (next.push c).1 with frames := { id := next.store.size } :: (next.push c).1.frames },
        next.store.size) := by
    rw [← snd_push next, ← hnext, ← hspan']
    rfl
  have hopen' : o.openTag name attrs =
      { (o.write (startTag name attrs ">")).1 with
        frames := { element := element name attrs span, span } :: o.frames } := by
    rw [hspan]
    rfl
  rw [hopen, hopen']
  refine ⟨by simpa using hwrite.text, hwrite.root_push _, ?_⟩
  refine .element ⟨rfl, trivial, by simp⟩ ?_ (hwrite.levels_push _)
  simp [node?_alloc]

theorem Draws.pop (h : d.Draws o) (closeTag : Option Span) :
    (d.pop closeTag).1.Draws (o.pop closeTag) := by
  have hlevels := h.levels
  generalize hfs : d.frames = fs at hlevels
  generalize hgs : o.frames = gs at hlevels
  cases hlevels with
  | root level => simpa [Draft.pop, Outline.pop, hfs, hgs] using h
  | @element f fs g gs _ _ level opened outer =>
    obtain ⟨hids, hstands, hbound⟩ := level
    rw [List.append_nil] at hids
    have hclosed := (hstands.sits_relist opened).relabel (closeAt closeTag (.ofOffset d.size))
    have hkept : ∀ i < f.id, ((d.store.relist f.id f.children).adjust f.id fun n =>
        { n with toContent := closeAt closeTag (.ofOffset d.size) n.toContent }).node? i =
          d.store.node? i := by
      intro i hi
      rw [node?_adjust_of_ne _ (Nat.ne_of_gt hi), node?_relist_of_notMem (Nat.ne_of_lt hi)]
      intro hmem
      rw [hids] at hmem
      exact absurd (mem_rootIds hmem).1 (Nat.not_le_of_lt (Nat.lt_succ_of_lt hi))
    rw [← hids] at hclosed
    have hgrown := (outer.frame hkept).grow (o := { o with frames := gs })
      ⟨⟨none, none, none, hclosed⟩, trivial⟩
    have hpop : o.pop closeTag = Outline.push { o with frames := gs } (.node
        (closeAt closeTag (.ofOffset d.size) { kind := .element g.element, span := g.span })
        g.children) := by
      rw [Outline.pop, hgs, h.size_eq]
      rfl
    rw [hpop, Draft.pop, hfs]
    refine ⟨?_, ?_, ?_⟩
    · rw [Outline.text_push]
      exact h.text
    · exact (hkept 0 outer.pos).trans h.root
    · rw [Tree.size_node, Nat.add_comm (Tree.sizeAll _), ← Nat.add_assoc, ← hbound] at hgrown
      simpa using hgrown

theorem Draws.closeWith (h : d.Draws o) (tag : String) :
    (d.closeWith tag).1.Draws (o.closeWith tag) := by
  obtain ⟨hwrite, hspan⟩ := h.write tag
  have hclose : o.closeWith tag = (o.write tag).1.pop (some (o.write tag).2) := rfl
  rw [hclose, ← hspan]
  exact hwrite.pop _

theorem Draws.openName_eq (h : d.Draws o) : d.openName = o.openName := by
  have hlevels := h.levels
  generalize hfs : d.frames = fs at hlevels
  generalize hgs : o.frames = gs at hlevels
  cases hlevels with
  | root level => simp [Draft.openName, Outline.openName, hfs, hgs]
  | element level opened outer =>
    simp [Draft.openName, Outline.openName, hfs, hgs, opened, Node.ofContent, Kind.element?]

theorem Draws.step (h : d.Draws o) (s : Step) : (d.step s).1.Draws (o.step s) := by
  cases s with
  | openTag name attrs => exact h.openTag name attrs
  | close =>
    rw [Draft.step, Outline.step, h.openName_eq]
    exact h.closeWith _
  | closeWith tag => exact h.closeWith tag
  | closeImplied => exact h.pop none
  | void name => exact h.emptyElement name _ false
  | selfClosing name => exact h.emptyElement name _ true
  | _ => exact h.leaf rfl _

theorem Draws.run (h : d.Draws o) (steps : List Step) : (d.run steps).Draws (o.run steps) := by
  induction steps generalizing d o with
  | nil => exact h
  | cons s steps ih => exact ih (h.step s)

theorem Draws.closeAll (h : d.Draws o) (n : Nat) : (d.closeAll n).Draws (o.closeAll n) := by
  induction n generalizing d o with
  | zero => exact h
  | succ n ih => exact ih (h.pop none)

/-- Once all elements are closed, the root takes over what stands outside of them. -/
theorem Draws.relist_eq (h : d.Draws o) (hframes : o.frames = []) :
    d.store.relist 0 d.top = .ofDoc (.node { kind := .root } o.top) := by
  have hlevels := h.levels
  generalize hfs : d.frames = fs at hlevels
  rw [hframes] at hlevels
  cases hlevels with
  | root level =>
    have hsits := level.stands.sits_relist h.root
    have hids := level.ids_eq
    rw [List.append_nil] at hids
    rw [← hids] at hsits
    refine eq_ofDoc_of_sits hsits ?_
    rw [size_relist, level.bound_eq, Tree.size_node, Nat.zero_add, Nat.add_comm]

theorem annotate_resolve (src : Source) (t : Doc) :
    (ofDoc t).annotate (fun _ n => .ok (resolve src n.toContent)) =
      .ok (ofDoc (t.map (resolve src))) := by
  rw [← Tree.decorate_label _ {}]
  refine annotate_ofDoc fun hseen => ?_
  rw [hseen.content]

/-- The store of a finished draft is laid out from its outline. -/
theorem Draws.finish_eq (h : d.Draws o) : d.finish = (o.text, .ofDoc o.toDoc) := by
  have hclosed := h.closeAll d.frames.length
  rw [h.levels.length_eq] at hclosed
  have hbuilt := hclosed.relist_eq o.frames_closeAll
  have htext : (d.closeAll o.frames.length).text = o.text := by
    rw [hclosed.text, Outline.text_closeAll]
  rw [Draft.finish, h.levels.length_eq]
  simp only [htext, hbuilt, annotate_resolve, Tree.map_node]
  congr 1
  generalize hsrc : Source.ofString o.text = src
  have hdoc : o.toDoc = .node { resolve src { kind := .root } with span := src.span 0 src.size }
      ((o.closeAll o.frames.length).top.map (Tree.map (resolve src))) := by
    rw [Outline.toDoc, Outline.text_closeAll, hsrc]
    rfl
  rw [hdoc]
  refine eq_ofDoc_of_sits ((sits_ofDoc _).relabel fun c => { c with span := _ }) ?_
  rw [size_adjust, size_ofDoc, Tree.size_node, Tree.size_node]

theorem finish_run (steps : List Step) : (run {} steps).finish =
    ((Outline.run {} steps).text, .ofDoc (Outline.run {} steps).toDoc) :=
  (Draws.empty.run steps).finish_eq

end Draft

end Markup
