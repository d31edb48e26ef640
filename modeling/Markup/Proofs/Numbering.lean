import Markup.Proofs.Outline

/-! The numbers that a draft hands out. Nodes are numbered in the order in which they are written,
and whatever is written behind a node, its number stands for it in the finished store. -/
namespace Markup

/-- The kind of a node, an element without its tags. -/
def Kind.untagged : Kind → Kind
  | .element e => .element { e with openTag := {}, closeTag := none }
  | kind => kind

namespace Step

/-- The kind of the node that a step writes; none if it closes an element. -/
def kind? : Step → Option Kind
  | .text value => some (.text value)
  | .comment value => some (.comment value)
  | .cdata value => some (.cdata value)
  | .doctype value => some (.doctype value)
  | .conditionalStart condition => some (.conditionalStart condition)
  | .conditionalEnd => some .conditionalEnd
  | .openTag name attrs => some (.element (Draft.element name attrs {}))
  | .void name | .selfClosing name => some (.element (Draft.element name [] {}))
  | .close | .closeWith _ | .closeImplied => none

/-- The numbers of the nodes that steps are about. Nodes that are written are counted from `next`
on. A step that closes an element is about the last one that is still open, or else about
the root. -/
def numbers : List NodeId → NodeId → List Step → List NodeId
  | _, _, [] => []
  | opened, next, .openTag _ _ :: steps => next :: numbers (next :: opened) (next + 1) steps
  | opened, next, .close :: steps | opened, next, .closeWith _ :: steps
  | opened, next, .closeImplied :: steps => opened.headD 0 :: numbers opened.tail next steps
  | opened, next, _ :: steps => next :: numbers opened (next + 1) steps

end Step

namespace Store

variable {s s' : Store} {id i : NodeId}

def kindAt (s : Store) (i : NodeId) : Option Kind := (s.node? i).map fun n => n.kind.untagged

/-- Nodes that have been there keep their kinds. -/
def KeepsKinds (s s' : Store) : Prop := ∀ i kind, s.kindAt i = some kind → s'.kindAt i = some kind

theorem keepsKinds_alloc (s : Store) (n : Node) : s.KeepsKinds (s.alloc n).1 := by
  intro i kind hkind
  obtain ⟨m, hm, -⟩ := Option.map_eq_some_iff.mp hkind
  have hlt : i < s.size := (Array.getElem?_eq_some_iff.mp hm).1
  rw [kindAt, node?_alloc_of_lt hlt]
  exact hkind

/-- The nodes of one store are those of another, in number and in kind. -/
structure SameKinds (s s' : Store) : Prop where
  size : s'.size = s.size
  kinds : ∀ i, s'.kindAt i = s.kindAt i

theorem SameKinds.trans {s'' : Store} (h : s.SameKinds s') (h' : s'.SameKinds s'') :
    s.SameKinds s'' :=
  ⟨h'.size.trans h.size, fun i => (h'.kinds i).trans (h.kinds i)⟩

theorem sameKinds_adjust {f : Node → Node}
    (hf : ∀ n, s.node? id = some n → (f n).kind.untagged = n.kind.untagged) :
    s.SameKinds (s.adjust id f) := by
  refine ⟨size_adjust .., fun i => ?_⟩
  rw [kindAt, kindAt, node?_adjust]
  split
  case isTrue hid =>
    subst hid
    cases hn : s.node? id with
    | none => rfl
    | some n => simp [hf n hn]
  case isFalse => rfl

theorem sameKinds_linkFrom {parent : NodeId} {prev : Option NodeId} {ids : List NodeId} :
    s.SameKinds (linkFrom parent prev ids s) := by
  induction ids generalizing s prev with
  | nil => exact ⟨rfl, fun _ => rfl⟩
  | cons id ids ih =>
    refine SameKinds.trans ?_ ih
    exact sameKinds_adjust fun _ _ => rfl

theorem sameKinds_relist (s : Store) (parent : NodeId) (ids : List NodeId) :
    s.SameKinds (s.relist parent ids) :=
  sameKinds_linkFrom.trans (sameKinds_adjust fun _ _ => rfl)

theorem sameKinds_annotate {f : Content → Content}
    (hf : ∀ c, (f c).kind.untagged = c.kind.untagged)
    (h : (s.annotate fun _ n => .ok (f n.toContent)) = .ok s') : s.SameKinds s' := by
  rw [annotate_eq] at h
  cases hdfs : s.dfs with
  | error e => simp [hdfs, Except.bind] at h
  | ok ids =>
    rw [hdfs] at h
    replace h : ids.foldlM (annotateAt fun _ n => .ok (f n.toContent)) s = .ok s' := h
    clear hdfs
    induction ids generalizing s with
    | nil =>
      obtain rfl := Except.ok.inj h
      exact ⟨rfl, fun _ => rfl⟩
    | cons id ids ih =>
      rw [List.foldlM_cons] at h
      cases hn : s.node? id with
      | none => simp [annotateAt, node, hn, bind, Except.bind] at h
      | some n =>
        rw [annotateAt_eq_ok hn rfl] at h
        refine (sameKinds_adjust fun m hm => ?_).trans (ih h)
        obtain rfl := Option.some.inj (hn.symm.trans hm)
        exact hf n.toContent

end Store

namespace Draft

open Store

variable {d : Draft}

def numbers (d : Draft) : List Step → List NodeId
  | [] => []
  | s :: steps => (d.step s).2 :: numbers (d.step s).1 steps

@[simp] theorem ids_frames_push (d : Draft) (c : Content) :
    (d.push c).1.frames.map Frame.id = d.frames.map Frame.id := by
  cases hframes : d.frames <;> simp [Draft.push, hframes]

@[simp] theorem snd_pop (d : Draft) (closeTag : Option Span) :
    (d.pop closeTag).2 = (d.frames.map Frame.id).headD 0 := by
  cases hframes : d.frames <;> simp [Draft.pop, hframes]

@[simp] theorem ids_frames_pop (d : Draft) (closeTag : Option Span) :
    (d.pop closeTag).1.frames.map Frame.id = (d.frames.map Frame.id).tail := by
  cases hframes : d.frames <;> simp [Draft.pop, hframes]

theorem untagged_closeAt (closeTag : Option Span) (stop : Location) (c : Content) :
    (closeAt closeTag stop c).kind.untagged = c.kind.untagged := by
  cases hkind : c.kind <;> simp [closeAt, hkind, Kind.untagged]

theorem untagged_resolve (src : Source) (c : Content) :
    (resolve src c).kind.untagged = c.kind.untagged := by
  cases hkind : c.kind <;> simp [resolve, hkind, Kind.untagged]

theorem sameKinds_pop (d : Draft) (closeTag : Option Span) :
    d.store.SameKinds (d.pop closeTag).1.store := by
  rw [Draft.pop]
  split
  case h_1 => exact ⟨rfl, fun _ => rfl⟩
  case h_2 f fs hframes =>
    exact (sameKinds_relist ..).trans (sameKinds_adjust fun n _ => untagged_closeAt _ _ n.toContent)

@[simp] theorem size_store_pop (d : Draft) (closeTag : Option Span) :
    (d.pop closeTag).1.store.size = d.store.size :=
  (sameKinds_pop d closeTag).size

theorem numbers_eq (d : Draft) (steps : List Step) :
    d.numbers steps = Step.numbers (d.frames.map Frame.id) d.store.size steps := by
  induction steps generalizing d with
  | nil => rfl
  | cons s steps ih =>
    rw [numbers, ih]
    cases s <;> simp [Draft.step, Step.numbers, Draft.leaf, Draft.emptyElement, Draft.openTag,
      Draft.closeWith, Draft.write]

theorem size_store_run (d : Draft) (steps : List Step) :
    (d.run steps).store.size = d.store.size + steps.countP fun s => s.kind?.isSome := by
  induction steps generalizing d with
  | nil => rfl
  | cons s steps ih =>
    have hstep : (d.step s).1.store.size = d.store.size + if s.kind?.isSome then 1 else 0 := by
      cases s <;> simp [Draft.step, Step.kind?, Draft.leaf, Draft.emptyElement, Draft.openTag,
        Draft.closeWith, Draft.write]
    have hrun : d.run (s :: steps) = (d.step s).1.run steps := rfl
    rw [hrun, ih, hstep, List.countP_cons]
    omega

theorem sameKinds_closeAll (d : Draft) (n : Nat) : d.store.SameKinds (d.closeAll n).store := by
  induction n generalizing d with
  | zero => exact ⟨rfl, fun _ => rfl⟩
  | succ n ih => exact (sameKinds_pop d none).trans (ih _)

/-- Finishing adds nothing: all nodes have been there, with their numbers. -/
theorem sameKinds_finish (d : Draft) : d.store.SameKinds d.finish.2 := by
  have hbuilt := (sameKinds_closeAll d d.frames.length).trans
    (sameKinds_relist _ 0 (d.closeAll d.frames.length).top)
  rw [finish]
  split
  case h_1 s hs =>
    refine hbuilt.trans ((sameKinds_annotate ?_ hs).trans (sameKinds_adjust fun _ _ => rfl))
    exact untagged_resolve _
  case h_2 => exact hbuilt

theorem keepsKinds_push (d : Draft) (c : Content) : d.store.KeepsKinds (d.push c).1.store := by
  rw [store_push]
  exact keepsKinds_alloc _ _

theorem keepsKinds_step (d : Draft) (s : Step) : d.store.KeepsKinds (d.step s).1.store := by
  cases s with
  | close | closeWith tag | closeImplied =>
    exact fun i kind hkind => ((sameKinds_pop _ _).kinds i).trans hkind
  | _ => exact keepsKinds_push (d.write _).1 _

theorem keepsKinds_run (d : Draft) (steps : List Step) :
    d.store.KeepsKinds (d.run steps).store := by
  induction steps generalizing d with
  | nil => exact fun _ _ hkind => hkind
  | cons s steps ih => exact fun i kind hkind => ih _ i kind (keepsKinds_step d s i kind hkind)

theorem kindAt_step {s : Step} {kind : Kind} (h : s.kind? = some kind) :
    (d.step s).1.store.kindAt (d.step s).2 = some kind := by
  cases s <;> simp [Step.kind?] at h <;> subst h <;>
    simp [Draft.step, Draft.leaf, Draft.emptyElement, Draft.openTag, Draft.write, kindAt,
      node?_alloc, Node.ofContent, Kind.untagged, single, element]

/-- The numbers that a draft hands out stand for the nodes that its steps have written. -/
theorem kindAt_of_mem_zip {steps : List Step} {s : Step} {id : NodeId} {kind : Kind}
    (hmem : (s, id) ∈ steps.zip (d.numbers steps)) (hkind : s.kind? = some kind) :
    (d.run steps).store.kindAt id = some kind := by
  induction steps generalizing d with
  | nil => simp at hmem
  | cons s' steps ih =>
    rw [numbers, List.zip_cons_cons, List.mem_cons] at hmem
    rcases hmem with hhead | htail
    · obtain ⟨rfl, rfl⟩ := Prod.mk.inj hhead
      exact keepsKinds_run _ steps _ _ (kindAt_step hkind)
    · exact ih htail

end Draft

end Markup
