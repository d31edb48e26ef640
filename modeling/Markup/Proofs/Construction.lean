import Markup.Proofs.WellFormed

/-! Building up a store command by command. A command changes the store in place, one node after
another, and may name any number at all. One that fails has changed nothing, and after any commands
links agree with child lists, no node is listed twice, and what hangs below the root is a tree. -/
namespace Markup.Store

variable {s s' : Store} {id parent child : NodeId}

/-- A change to a store in place. What was written before a failure stays written. -/
abbrev Edit := ExceptT Error (StateM Store)

namespace Edit

variable {α β : Type}

def look (id : NodeId) : Edit Node := do
  match (← get).node? id with
  | some n => return n
  | none => throw (.unknownNode id)

def write (id : NodeId) (f : Node → Node) : Edit Unit := do
  match (← get).node? id with
  | some _ => modify fun s => s.adjust id f
  | none => throw (.missingNode id)

/-- Hang up a node behind its new siblings, one write after another. -/
def hook (parent child : NodeId) (siblings : List NodeId) : Edit Unit := do
  let last := siblings.getLast?
  forM last fun l => write l fun n => { n with next := some child }
  write child fun n => { n with parent := some parent, prev := last, next := none }
  write parent fun n => { n with children := some (siblings ++ [child]) }

def appendChild (parent child : NodeId) : Edit Unit := do
  let c ← look child
  if child = 0 ∨ c.parent.isSome then throw (.alreadyAttached child)
  let p ← look parent
  match p.children with
  | none => throw (.notAContainer parent p.kind.name)
  | some siblings => hook parent child siblings

theorem run_bind_ok {x : Edit α} {a : α} (f : α → Edit β) (h : x.run s = (.ok a, s')) :
    (x >>= f).run s = (f a).run s' := by
  rw [ExceptT.run_bind]
  change StateT.bind x.run _ s = _
  rw [StateT.bind]
  simp only [bind, h]

theorem run_bind_error {x : Edit α} {e : Error} (f : α → Edit β) (h : x.run s = (.error e, s')) :
    (x >>= f).run s = (.error e, s') := by
  rw [ExceptT.run_bind]
  change StateT.bind x.run _ s = _
  rw [StateT.bind]
  simp only [bind, h]
  rfl

theorem run_look (s : Store) (id : NodeId) : (look id).run s =
    ((s.node? id).elim (.error (.unknownNode id)) .ok, s) := by
  change (match s.node? id with | some n => (pure n : Edit Node) | none => throw _).run s = _
  cases s.node? id <;> rfl

theorem run_write (f : Node → Node) (h : id < s.size) :
    (write id f).run s = (.ok (), s.adjust id f) := by
  obtain ⟨n, hn⟩ := exists_node?_of_lt h
  change (match s.node? id with | some _ => (modify _ : Edit Unit) | none => throw _).run s = _
  rw [hn]
  rfl

theorem run_hook {siblings : List NodeId} (hchild : child < s.size) (hparent : parent < s.size)
    (hlast : ∀ l, siblings.getLast? = some l → l < s.size) :
    (hook parent child siblings).run s = (.ok (),
      ((match siblings.getLast? with
        | none => s
        | some l => s.adjust l fun n => { n with next := some child }).adjust child fun n =>
          { n with parent := some parent, prev := siblings.getLast?, next := none }).adjust parent
            fun n => { n with children := some (siblings ++ [child]) }) := by
  rw [hook]
  cases hl : siblings.getLast? with
  | none =>
    rw [Option.forM_none, pure_bind, run_bind_ok _ (run_write _ hchild)]
    exact run_write _ (by rwa [size_adjust])
  | some l =>
    rw [Option.forM_some, run_bind_ok _ (run_write _ (hlast l hl)),
      run_bind_ok _ (run_write _ (by rwa [size_adjust]))]
    exact run_write _ (by simpa using hparent)

/-- In place the answer is the same, and a failure comes before the first write. -/
theorem run_appendChild (h : s.Hung) (parent child : NodeId) :
    (Edit.appendChild parent child).run s =
      match s.appendChild parent child with
      | .ok s' => (.ok (), s')
      | .error e => (.error e, s) := by
  rw [Edit.appendChild, Store.appendChild]
  have hchild := run_look s child
  have hparent := run_look s parent
  cases hc : s.node? child with
  | none =>
    rw [hc] at hchild
    exact run_bind_error _ hchild
  | some c =>
    rw [hc] at hchild
    rw [run_bind_ok _ hchild]
    by_cases hattached : child = 0 ∨ c.parent.isSome = true
    case pos =>
      simp only [if_pos hattached]
      rfl
    case neg =>
      simp only [if_neg hattached]
      cases hp : s.node? parent with
      | none =>
        rw [hp] at hparent
        exact run_bind_error _ hparent
      | some p =>
        rw [hp] at hparent
        rw [run_bind_ok _ hparent]
        cases hsiblings : p.children with
        | none =>
          simp only [hsiblings]
          rfl
        | some siblings =>
          simp only [hsiblings]
          refine run_hook (lt_size_of_node? hc) (lt_size_of_node? hp) fun l hl => ?_
          exact h.lt_size ⟨p, siblings, hp, hsiblings, List.mem_of_getLast? hl⟩

end Edit

/-- What a caller can do to build up a store. -/
inductive Command where
  | alloc (c : Content)
  | append (parent child : NodeId)
deriving DecidableEq, Repr

def Command.perform : Command → Edit Unit
  | alloc c => modify fun s => (s.alloc (.ofContent c)).1
  | append parent child => Edit.appendChild parent child

def afterAll (s : Store) : List Command → Store
  | [] => s
  | command :: commands => (command.perform.run s).2.afterAll commands

/-- A command succeeds and leaves a built store, or it fails and leaves the store as it was. -/
theorem Built.perform (h : s.Built) (command : Command) :
    (∃ s', command.perform.run s = (.ok (), s') ∧ s'.Built) ∨
      ∃ e, command.perform.run s = (.error e, s) := by
  cases command with
  | alloc c => exact .inl ⟨_, rfl, h.alloc c⟩
  | append parent child =>
    have hrun := Edit.run_appendChild h.hung parent child
    cases happend : s.appendChild parent child with
    | error e => exact .inr ⟨e, by rw [Command.perform, hrun, happend]⟩
    | ok s' => exact .inl ⟨s', by rw [Command.perform, hrun, happend], h.appendChild happend⟩

theorem Built.afterAll (h : s.Built) (commands : List Command) : (s.afterAll commands).Built := by
  induction commands generalizing s with
  | nil => exact h
  | cons command commands ih =>
    rw [Store.afterAll]
    rcases h.perform command with ⟨s', hrun, hs'⟩ | ⟨e, hrun⟩
    · rw [hrun]
      exact ih hs'
    · rw [hrun]
      exact ih h

/-- All child lists of the store, one behind the other. -/
def listed (s : Store) : List NodeId := s.nodes.toList.flatMap fun n => n.children.getD []

theorem lists_of_mem_getD {n : Node} {c : NodeId} (hn : s.node? id = some n)
    (hc : c ∈ n.children.getD []) : s.Lists id c := by
  cases hids : n.children with
  | none => simp [hids] at hc
  | some ids => exact ⟨n, ids, hn, hids, by simpa [hids] using hc⟩

theorem Hung.nodup_listed (h : s.Hung) : s.listed.Nodup := by
  rw [listed, List.nodup_flatMap]
  constructor
  · intro n hn
    obtain ⟨i, hi⟩ := List.mem_iff_getElem?.mp hn
    cases hids : n.children with
    | none => exact List.nodup_nil
    | some ids => exact h.nodup i n ids (by simpa [node?] using hi) hids
  · rw [List.pairwise_iff_getElem]
    intro i j hi hj hij c hci hcj
    have hlists : ∀ k (hk : k < s.nodes.toList.length),
        c ∈ s.nodes.toList[k].children.getD [] → s.Lists k c := fun k hk =>
      lists_of_mem_getD (Array.getElem?_eq_getElem hk)
    have hic := hlists i hi hci
    have hjc := hlists j hj hcj
    obtain ⟨n, hn⟩ := exists_node?_of_lt (h.lt_size hic)
    have heq : i = j := Option.some.inj ((h.parent_eq hic hn).symm.trans (h.parent_eq hjc hn))
    exact absurd heq (Nat.ne_of_lt hij)

theorem visit_of_dfs {ids : List NodeId} {budget : Nat} (h : s.dfs = .ok ids)
    (hbudget : ids.length ≤ budget) : s.visit budget [0] = .ok ids := by
  cases hunfold : s.unfold with
  | error e => simp [dfs, hunfold, bind, Except.bind] at h
  | ok t =>
    obtain rfl := Except.ok.inj (h.symm.trans (dfs_of_unfold hunfold))
    rw [List.length_map, Tree.length_preorder] at hbudget
    have hvisit := visit_of_unfoldFrom hunfold (budget - t.size) []
    rw [Nat.add_sub_cancel' hbudget] at hvisit
    rw [hvisit, visit]
    simp [Except.map]

theorem Hung.exists_dfs (h : s.Hung) :
    ∃ ids, s.dfs = .ok ids ∧ ids.Nodup ∧ ∀ id, id ∈ ids ↔ s.Reaches 0 id :=
  h.planted.exists_dfs

/-- A node that is listed nowhere can be hung up wherever there is a child list, be it its own or
one below it. -/
theorem Hung.exists_appendChild_iff (h : s.Hung) :
    (∃ s', s.appendChild parent child = .ok s') ↔ child < s.size ∧ child ≠ 0 ∧
      (∀ i, ¬ s.Lists i child) ∧ ∃ p ids, s.node? parent = some p ∧ p.children = some ids := by
  constructor
  · rintro ⟨s', happend⟩
    obtain ⟨siblings, hhangs⟩ := appendChild_eq_ok happend
    obtain ⟨c, hc, -⟩ := hhangs.detached
    obtain ⟨p, hp, hsiblings⟩ := hhangs.before
    refine ⟨lt_size_of_node? hc, hhangs.notRoot, ?_, p, siblings, hp, hsiblings⟩
    exact fun i hlists => h.ne_child hhangs hlists rfl
  · rintro ⟨hchild, hroot, hunlisted, p, ids, hp, hids⟩
    obtain ⟨n, hn⟩ := exists_node?_of_lt hchild
    obtain ⟨m, hm, hparent, -⟩ := h.unlisted child n hn hunlisted
    simp [Store.appendChild, hm, hroot, hparent, hp, hids]

theorem Hung.run_append_ok_iff (h : s.Hung) :
    ((Command.append parent child).perform.run s).1 = .ok () ↔
      ∃ s', s.appendChild parent child = .ok s' := by
  rw [Command.perform, Edit.run_appendChild h]
  cases s.appendChild parent child <;> simp

/-- A node that is hung up is listed behind its new siblings. No content changes, and no other child
list does. -/
theorem Hung.lists_append (h : s.Hung)
    (hok : ((Command.append parent child).perform.run s).1 = .ok ()) :
    ∃ p siblings, s.node? parent = some p ∧ p.children = some siblings ∧
      ∀ i, (((Command.append parent child).perform.run s).2.node? i).map
          (fun n => (n.toContent, n.children)) =
        (s.node? i).map fun n =>
          (n.toContent, if i = parent then some (siblings ++ [child]) else n.children) := by
  obtain ⟨s', happend⟩ := h.run_append_ok_iff.mp hok
  obtain ⟨siblings, hhangs⟩ := appendChild_eq_ok happend
  obtain ⟨p, hp, hsiblings⟩ := hhangs.before
  refine ⟨p, siblings, hp, hsiblings, fun i => ?_⟩
  rw [Command.perform, Edit.run_appendChild h, happend]
  simp [hhangs.nodes, hang, Function.comp_def, eq_comm]

/-- After any commands on a fresh store: a command that fails leaves the store as it is; no node is
listed twice, and links follow from child lists; the walk from the root ends and meets what hangs
there, each node once. This is so although any node but the root that is listed nowhere is accepted
below any node with a child list, be it the node itself or one below it. A node that is accepted is
listed last there. -/
theorem commands_keep_store_hung (span : Span) (commands : List Command) :
    let s := (Store.new span).afterAll commands
    (∀ (command : Command) e, (command.perform.run s).1 = .error e →
      (command.perform.run s).2 = s) ∧
      s.Hung ∧ s.listed.Nodup ∧
      (∃ ids, s.dfs = .ok ids ∧ ids.Nodup ∧ (∀ id, id ∈ ids ↔ s.Reaches 0 id) ∧
        ∀ budget, ids.length ≤ budget → s.visit budget [0] = .ok ids) ∧
      (∀ parent child, ((Command.append parent child).perform.run s).1 = .ok () ↔
        child < s.size ∧ child ≠ 0 ∧ (∀ i, ¬ s.Lists i child) ∧
          ∃ p ids, s.node? parent = some p ∧ p.children = some ids) ∧
      ∀ parent child, ((Command.append parent child).perform.run s).1 = .ok () →
        ∃ p siblings, s.node? parent = some p ∧ p.children = some siblings ∧
          ∀ i, (((Command.append parent child).perform.run s).2.node? i).map
              (fun n => (n.toContent, n.children)) =
            (s.node? i).map fun n =>
              (n.toContent, if i = parent then some (siblings ++ [child]) else n.children) := by
  intro s
  have hbuilt : s.Built := (Built.new span).afterAll commands
  have hhung := hbuilt.hung
  obtain ⟨ids, hdfs, hnodup, hreaches⟩ := hhung.exists_dfs
  refine ⟨?_, hhung, hhung.nodup_listed, ?_, ?_, fun parent child => hhung.lists_append⟩
  · intro command e herror
    rcases hbuilt.perform command with ⟨s', hrun, -⟩ | ⟨e', hrun⟩
    · simp [hrun] at herror
    · rw [hrun]
  · exact ⟨ids, hdfs, hnodup, hreaches, fun _ => visit_of_dfs hdfs⟩
  · exact fun parent child => hhung.run_append_ok_iff.trans hhung.exists_appendChild_iff

/-- Two elements below each other and one below itself, next to a text below the root. The last two
commands fail, since what they name is listed already. -/
def circleCommands : List Command :=
  let element (name : String) : Content := { kind := .element { name, openTag := {} } }
  [.alloc (element "b"), .alloc (element "i"), .append 1 2, .append 2 1, .alloc (element "u"),
   .append 3 3, .alloc { kind := .text "x" }, .append 0 4, .append 0 1, .append 4 3]

/-- Circles can be built, but they stay away from the root. -/
theorem commands_keep_store_hung_circleCommands :
    let s := (Store.new {}).afterAll circleCommands
    (s.nodes.toList.map fun n => (n.parent, n.children)) =
        [(none, some [4]), (some 2, some [2]), (some 1, some [1]), (some 3, some [3]),
         (some 0, none)] ∧
      s.Hung ∧ s.dfs.toOption = some [0, 4] := by
  obtain ⟨-, hhung, -⟩ := commands_keep_store_hung {} circleCommands
  exact ⟨by decide +kernel, hhung, by decide +kernel⟩

end Markup.Store
