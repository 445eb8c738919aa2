/-
# ApplyRule.Proofs.Expanding -- a definition's value, node by node

The value of a definition can be read into a document: its block becomes a fragment,
whose children move below a new rule, and what follows the block becomes another
fragment, whose children are taken out one by one, those that define sets to be read
in turn.  `Edit.expand` works like that, and drops all that it made if some part cannot
be read.

No edit of this is refused.  What it leaves beside the document is what `expand` says
of the value, in new trees, and the answer names them (`Edit.expand_ok`); or it is
nothing, and the answer is the failure that `expand` has (`Edit.expand_error`).
-/
import ApplyRule.Proofs.Aside
import ApplyRule.Proofs.Definitions
import ApplyRule.Proofs.Tidy

namespace ApplyRule

set_option autoImplicit false

open Document Text

theorem Forest.items_stamped (forest : Forest Node) (change : Item → Item) :
    (forest.map fun node => { node with item := change node.item }).items =
      forest.items.map change := by
  induction forest with
  | nil => rfl
  | cons node below rest ihc ihr =>
      rw [Forest.map, Forest.items_cons, ihc, ihr, Forest.items_cons, Forest.map]

theorem Forest.trees_append {α : Type} (first second : Forest α) :
    (first ++ second).trees = first.trees ++ second.trees := by
  induction first with
  | nil => rfl
  | cons label children rest _ ih => rw [cons_append, trees, ih, trees, List.cons_append]

/-- Where every identity stands once, the trees of a forest are found at its tops. -/
theorem Forest.forall₂_trees {forest : Forest Node} (nodup : forest.ids.Nodup) :
    List.Forall₂ (fun tree id => ∃ children, forest.find? id = some (tree.1, children) ∧
      children.items = tree.2) forest.items.trees forest.tops := by
  induction forest with
  | nil => exact .nil
  | cons node below rest _ ih =>
      obtain ⟨-, -, nodupRest, -⟩ := nodup_parts nodup
      refine .cons ⟨below, find?_cons_self .., rfl⟩ ((ih nodupRest).imp ?_)
      rintro tree id ⟨children, found, same⟩
      exact ⟨children, (find?_cons_rest nodup (mem_ids_of_find? found)).trans found, same⟩

/-! ## A rule from a fragment -/

namespace Edit

/-- Move the children of a fragment below a new rule for a set. -/
def buildSet (name : String) (fragment : NodeId) (source : Option Location) : Edit NodeId := do
  let item ← ask (·.item? fragment)
  let set ← create ⟨.rule (writtenName name),
    { semicolon := item.raws.semicolon, after := item.raws.after }, source⟩
  let children ← ask (·.children? fragment)
  children.forM (append set)
  destroy fragment
  return set

variable {document : Document} {fragment set : Node} {left done children : Forest Node}
  {fresh : Nat}

/-- The children of one tree move below another, in order. -/
theorem forM_append_aside
    (numbered : (document.aside (.tree fragment left ++ .tree set done) fresh).Numbered)
    (houses : set.item.kind.isContainer = true) :
    left.tops.forM (append set.id) (document.aside (.tree fragment left ++ .tree set done) fresh) =
      .ok () (document.aside (.tree fragment .nil ++ .tree set (done ++ left)) fresh) := by
  induction left generalizing done with
  | nil => rw [Forest.append_nil]; rfl
  | cons node below rest _ ih =>
      have nodup := numbered.nodup_aside
      simp only [Forest.ids_append, Forest.ids_tree, Forest.ids_cons, List.nodup_append',
        List.nodup_cons, List.mem_cons, List.mem_append, not_or, List.disjoint_cons_left,
        List.disjoint_cons_right] at nodup
      obtain ⟨⟨⟨fragmentNode, -⟩, ⟨nodeBelow, nodeRest⟩, -⟩, -,
        ⟨setFragment, setNode, setBelow, setRest⟩, -, nodeDone, -⟩ := nodup
      let before : Forest Node := .tree fragment (.cons node below rest) ++ .tree set done
      have held : before.find? set.id = some (set.item, done) := by
        have outside : set.id ∉ (Forest.tree fragment (.cons node below rest)).ids := by
          simp [Forest.ids_tree, setFragment, setNode, setBelow, setRest]
        rw [Forest.find?_append, Forest.find?_of_not_mem outside, Option.none_or]
        exact Forest.find?_cons_self ..
      have found : before.find? node.id = some (node.item, below) := by
        rw [Forest.find?_append, Forest.tree, Forest.find?, if_neg fragmentNode,
          Forest.find?_cons_self]
        rfl
      have stays : before.prune node.id = .tree fragment rest ++ .tree set done := by
        simp [before, Forest.tree, Forest.prune, fragmentNode, setNode,
          Forest.prune_of_not_mem nodeRest, Forest.prune_of_not_mem nodeDone]
      have put : Forest.adopt set.id (.tree node below) (.tree fragment rest ++ .tree set done) =
          .tree fragment rest ++ .tree set (done ++ .tree node below) := by
        have outside : set.id ∉ (Forest.tree fragment rest).ids := by
          simp [Forest.ids_tree, setFragment, setRest]
        rw [(Forest.local_adopt _ _).append_right outside]
        simp only [Forest.tree, Forest.adopt, if_true]
      have moved := append_aside numbered held houses found (by simp [setNode, setBelow])
      rw [stays, put] at moved
      have same :
          (.tree fragment rest ++ .tree set (done ++ .tree node below) : Forest Node).ids.Perm
          before.ids := by
        rw [List.perm_iff_count]
        intro other
        simp only [before, Forest.ids_append, Forest.ids_tree, Forest.ids_cons, List.count_append,
          List.count_cons]
        omega
      have next := ih (numbered.fewer same.subperm (Nat.le_refl _))
      rw [Forest.append_assoc] at next
      exact (bind_ok moved).trans next

theorem create_aside (document : Document) (item : Item) (more : Forest Node) (fresh : Nat) :
    create item (document.aside more fresh) =
      .ok ⟨fresh⟩ (document.aside (more ++ .tree ⟨⟨fresh⟩, item⟩ .nil) (fresh + 1)) := by
  rw [← aside_aside document more _ fresh]
  rfl

theorem numbered_create (numbered : (document.aside children fresh).Numbered) (item : Item) :
    (document.aside (children ++ .tree ⟨⟨fresh⟩, item⟩ .nil) (fresh + 1)).Numbered := by
  have planted := numbered.plant item .nil
  rw [plant_eq_aside, aside_aside] at planted
  exact planted

/-- A new node can take over the children of another. -/
theorem numbered_takeOver (numbered : (document.aside (.tree fragment children) fresh).Numbered)
    (item : Item) : (document.aside (.tree ⟨⟨fresh⟩, item⟩ children) (fresh + 1)).Numbered := by
  refine (numbered_create numbered item).fewer ?_ (Nat.le_refl _)
  rw [Forest.ids_append, Forest.ids_tree, Forest.ids_tree, Forest.ids_tree, Forest.ids_nil]
  exact (List.perm_append_singleton _ _).symm.subperm.trans
    ((List.sublist_cons_self ..).append_right _).subperm

/-- A fragment that stands apart gives way to a rule with its children. -/
theorem buildSet_aside (numbered : (document.aside (.tree fragment children) fresh).Numbered)
    (name : String) (source : Option Location) :
    buildSet name fragment.id source (document.aside (.tree fragment children) fresh) =
      .ok ⟨fresh⟩ (document.aside (.tree ⟨⟨fresh⟩, ⟨.rule (writtenName name),
        { semicolon := fragment.item.raws.semicolon, after := fragment.item.raws.after },
        source⟩⟩ children) (fresh + 1)) := by
  let set : Node := ⟨⟨fresh⟩, ⟨.rule (writtenName name),
    { semicolon := fragment.item.raws.semicolon, after := fragment.item.raws.after }, source⟩⟩
  have found : (document.aside (.tree fragment children) fresh).find? fragment.id =
      some (fragment.item, children) :=
    (numbered.find?_aside (by simp [Forest.ids_tree])).trans (Forest.find?_cons_self ..)
  have grown : (document.aside (.tree fragment children ++ .tree set .nil) (fresh + 1)).Numbered :=
    numbered_create numbered set.item
  have listed : (document.aside (.tree fragment children ++ .tree set .nil) (fresh + 1)).children?
      fragment.id = some children.tops := by
    rw [children?, grown.find?_aside (by simp [Forest.ids_append, Forest.ids_tree]),
      Forest.find?_append, Forest.tree, Forest.find?_cons_self]
    rfl
  have moved := forM_append_aside grown rfl
  have same : (.tree fragment .nil ++ .tree set (.nil ++ children) : Forest Node).ids.Perm
      (.tree fragment children ++ .tree set .nil : Forest Node).ids := by
    rw [List.perm_iff_count]
    intro other
    simp only [Forest.ids_append, Forest.ids_tree, Forest.ids_nil, Forest.nil_append,
      List.count_append, List.count_cons, List.count_nil]
    omega
  have left := grown.fewer same.subperm (Nat.le_refl _)
  have dropped : destroy fragment.id _ = _ :=
    destroy_aside left (by simp [Forest.ids_append, Forest.ids_tree])
  have rest :
      (.tree fragment .nil ++ .tree set (.nil ++ children) : Forest Node).prune fragment.id =
        .tree set children := by
    have nodup := grown.nodup_aside
    simp only [Forest.ids_append, Forest.ids_tree, List.nodup_append', List.nodup_cons,
      List.disjoint_cons_right, List.mem_cons, not_or] at nodup
    simp [Forest.tree, Forest.prune, nodup.2.2.1.1, Forest.prune_of_not_mem nodup.1.1]
  rw [rest] at dropped
  refine (bind_ok (ask_ok (item?_of_find? found))).trans ?_
  refine (bind_ok (create_aside document set.item _ fresh)).trans ?_
  refine (bind_ok (ask_ok listed)).trans ((bind_ok moved).trans ?_)
  exact (bind_ok dropped).trans rfl

theorem restamp_tree (numbered : (document.aside (.tree set children) fresh).Numbered)
    (source : Option Location) :
    restamp set.id source (document.aside (.tree set children) fresh) =
      .ok () (document.aside ((Forest.tree set children).map fun node =>
        { node with item := node.item.stamp source }) fresh) := by
  rw [restamp_aside numbered (by simp [Forest.ids_tree])]
  simp only [Forest.tree, Forest.updateTree, if_true, Forest.map]

/-! ## What follows a block -/

/-- Take nodes out of their places.  Those that define sets go, and the others stand
apart from then on. -/
def sortOut (source : Option Location) : List NodeId → Edit (List NodeId × List (String × String))
  | [] => return ([], [])
  | node :: rest => do
      detach node
      restamp node source
      match ((← get).kind? node).bind Kind.definition? with
      | some definition => do
          destroy node
          let (items, pending) ← sortOut source rest
          return (items, definition :: pending)
      | none => do
          let (items, pending) ← sortOut source rest
          return (node :: items, pending)

/-- The first child of a tree is taken out and stamped, and stands after what was kept. -/
theorem takeOut_aside {kept below rest : Forest Node} {node : Node} (source : Option Location)
    (numbered : (document.aside (.tree fragment (.cons node below rest) ++ kept) fresh).Numbered) :
    ∃ mid stamped, stamped = (Forest.tree node below).map (fun node =>
        { node with item := node.item.stamp source }) ∧
      detach node.id (document.aside (.tree fragment (.cons node below rest) ++ kept) fresh) =
        .ok () mid ∧
      restamp node.id source mid =
        .ok () (document.aside (.tree fragment rest ++ kept ++ stamped) fresh) ∧
      (document.aside (.tree fragment rest ++ kept ++ stamped) fresh).Numbered ∧
      node.id ∉ (.tree fragment rest ++ kept : Forest Node).ids := by
  have nodup := numbered.nodup_aside
  simp only [Forest.ids_append, Forest.ids_tree, Forest.ids_cons, List.nodup_append',
    List.nodup_cons, List.mem_cons, List.mem_append, not_or, List.disjoint_cons_left] at nodup
  obtain ⟨⟨⟨fragmentNode, -⟩, ⟨nodeBelow, nodeRest⟩, -⟩, -, -, nodeKept, -⟩ := nodup
  generalize known : (.tree fragment rest ++ kept : Forest Node) = apart
  have nodeApart : node.id ∉ apart.ids := by
    simp [← known, Forest.ids_append, Forest.ids_tree, Ne.symm fragmentNode, nodeRest, nodeKept]
  have stays : (.tree fragment (.cons node below rest) ++ kept : Forest Node).prune node.id =
      apart := by
    simp [← known, Forest.tree, Forest.prune, fragmentNode, Forest.prune_of_not_mem nodeRest,
      Forest.prune_of_not_mem nodeKept]
  have holds : (.tree fragment (.cons node below rest) ++ kept : Forest Node).find? fragment.id =
      some (fragment.item, .cons node below rest) := by
    rw [Forest.find?_append, Forest.tree, Forest.find?_cons_self, Option.some_or]
  have detached := detach_aside numbered holds
    (by simp : node.id ∈ (Forest.cons node below rest).tops) (Forest.find?_cons_self ..)
  rw [stays] at detached
  have same : (apart ++ .tree node below).ids.Perm
      (.tree fragment (.cons node below rest) ++ kept : Forest Node).ids := by
    rw [List.perm_iff_count]
    intro other
    simp only [← known, Forest.ids_append, Forest.ids_tree, Forest.ids_cons, List.count_append,
      List.count_cons]
    omega
  have unstamped := numbered.fewer same.subperm (Nat.le_refl _)
  have restamped := restamp_aside unstamped
    (by simp [Forest.ids_append, Forest.ids_tree] : node.id ∈ _) source
  have changed : (apart ++ .tree node below).updateTree node.id (Item.stamp source) =
      apart ++ (Forest.tree node below).map fun node =>
        { node with item := node.item.stamp source } := by
    rw [(Forest.local_updateTree _ _).append_right nodeApart]
    simp only [Forest.tree, Forest.updateTree, if_true, Forest.map]
  rw [← Forest.ids_updateTree node.id (Item.stamp source), changed] at same
  rw [changed] at restamped
  exact ⟨_, _, rfl, detached, restamped, numbered.fewer same.subperm (Nat.le_refl _), nodeApart⟩

/-- The children of a tree are sorted out, in order. -/
theorem sortOut_aside {kept : Forest Node} (source : Option Location)
    (numbered : (document.aside (.tree fragment left ++ kept) fresh).Numbered) :
    ∃ new : Forest Node, new.items = (left.items.map (·.stamp source)).undefining ∧
      new.ids.Sublist left.ids ∧
      sortOut source left.tops (document.aside (.tree fragment left ++ kept) fresh) =
        .ok (new.tops, (left.items.map (·.stamp source)).roots.filterMap
            fun item => item.kind.definition?)
          (document.aside (.tree fragment .nil ++ (kept ++ new)) fresh) := by
  induction left generalizing kept with
  | nil =>
      refine ⟨.nil, rfl, List.nil_sublist _, ?_⟩
      rw [Forest.append_nil]
      rfl
  | cons node below rest _ ih =>
      obtain ⟨mid, stamped, shape, detached, restamped, standing, nodeApart⟩ :=
        takeOut_aside source numbered
      have found : stamped.find? node.id = some (node.item.stamp source,
          below.map fun node => { node with item := node.item.stamp source }) := by
        rw [shape]
        exact Forest.find?_cons_self ..
      have member : node.id ∈ (.tree fragment rest ++ kept ++ stamped : Forest Node).ids := by
        rw [Forest.ids_append]
        exact List.mem_append_right _ (Forest.mem_ids_of_find? found)
      have known : (document.aside (.tree fragment rest ++ kept ++ stamped) fresh).kind? node.id =
          some (node.item.stamp source).kind := by
        have whole := Forest.find?_append node.id (.tree fragment rest ++ kept) stamped
        rw [Forest.find?_of_not_mem nodeApart, Option.none_or, found] at whole
        exact kind?_of_find? ((standing.find?_aside member).trans whole)
      have items : (Forest.cons node below rest).items.map (·.stamp source) =
          .cons (node.item.stamp source)
            (below.map fun node => { node with item := node.item.stamp source }).items
            (rest.items.map (·.stamp source)) := by
        rw [Forest.items_cons, Forest.map, Forest.items_stamped]
      rw [items, Forest.roots, List.filterMap_cons, Forest.undefining]
      cases defines : (node.item.stamp source).kind.definition? with
      | some definition =>
          have dropped := destroy_aside standing member
          rw [Forest.prune_append_right nodeApart] at dropped
          have gone : stamped.prune node.id = .nil := by
            simp [shape, Forest.tree, Forest.map, Forest.prune]
          rw [gone, Forest.append_nil] at dropped
          have fewer : (document.aside (.tree fragment rest ++ kept) fresh).Numbered :=
            standing.fewer (Forest.ids_append (.tree fragment rest ++ kept) _ ▸
              (List.sublist_append_left _ _).subperm) (Nat.le_refl _)
          obtain ⟨new, same, sublist, ran⟩ := ih fewer
          refine ⟨new, ?_, ?_, ?_⟩
          · simpa using same
          · rw [Forest.ids_cons]
            exact (sublist.trans (List.sublist_append_right _ _)).cons _
          · refine (bind_ok detached).trans ((bind_ok restamped).trans ?_)
            rw [bind_ok (get_ok _), known, Option.bind_some, defines]
            exact (bind_ok dropped).trans ((bind_ok ran).trans rfl)
      | none =>
          have later := standing
          rw [Forest.append_assoc] at later
          obtain ⟨new, same, sublist, ran⟩ := ih later
          refine ⟨stamped ++ new, ?_, ?_, ?_⟩
          · simp [same, shape, Forest.tree, Forest.map]
          · rw [Forest.ids_append, Forest.ids_cons, shape, Forest.ids_map, Forest.ids_tree,
              List.cons_append]
            exact ((List.Sublist.refl _).append sublist).cons_cons _
          · refine (bind_ok detached).trans ((bind_ok restamped).trans ?_)
            rw [bind_ok (get_ok _), known, Option.bind_some, defines, Forest.append_assoc]
            rw [Forest.append_assoc kept] at ran
            refine (bind_ok ran).trans ?_
            rw [shape]
            rfl

/-! ## Texts -/

/-- A rule for a set, from the text of its body. -/
def plantBody (name text : String) (source : Option Location) :
    Edit (Except ParseError NodeId) := do
  match ← parseFragment text with
  | .error error => return .error error
  | .ok body => return .ok (← buildSet name body source)

/-- A rule for a set, from the text of its body, all of which has the rule's source. -/
def plantText (name text : String) (source : Option Location) :
    Edit (Except ParseError NodeId) := do
  match ← plantBody name text source with
  | .error error => return .error error
  | .ok set =>
      restamp set source
      return .ok set

/-- The items in the text after a block, and the definitions there. -/
def readTrailing (text : String) (source : Option Location) :
    Edit (Except ParseError (List NodeId × List (String × String))) := do
  match ← parseFragment text with
  | .error error => return .error error
  | .ok fragment =>
      let sorted ← sortOut source (← ask (·.children? fragment))
      destroy fragment
      return .ok sorted

variable {text name : String} {source : Option Location} {body : Body} {error : ParseError}

theorem parseFragment_aside (numbered : document.Numbered) (parsed : Body.parse text = .ok body) :
    ∃ (children : Forest Node) (fresh : Nat), children.items = body.items ∧ document.fresh ≤ fresh ∧
      (document.aside (.tree ⟨⟨document.fresh⟩, body.root⟩ children) fresh).Numbered ∧
      parseFragment text document = .ok (.ok ⟨document.fresh⟩)
        (document.aside (.tree ⟨⟨document.fresh⟩, body.root⟩ children) fresh) := by
  refine ⟨body.items.number (document.fresh + 1), _, Forest.items_number _ _,
    Nat.le_add_right _ (Forest.tree body.root body.items).size, numbered.plant _ _,
    parseFragment_ok numbered parsed⟩

theorem plantBody_ok (name : String) (source : Option Location)
    (numbered : document.Numbered) (parsed : Body.parse text = .ok body) :
    ∃ (set : NodeId) (children : Forest Node) (fresh : Nat),
      plantBody name text source document = .ok (.ok set) (document.aside (.tree ⟨set,
        (SetRule.ofBody name source body).item⟩ children) fresh) ∧
      children.items = body.items ∧
      (document.aside (.tree ⟨set, (SetRule.ofBody name source body).item⟩ children)
        fresh).Numbered := by
  obtain ⟨children, fresh, items, -, planted, ran⟩ := parseFragment_aside numbered parsed
  refine ⟨⟨fresh⟩, children, fresh + 1, ?_, items, numbered_takeOver planted _⟩
  exact (bind_ok ran).trans ((bind_ok (buildSet_aside planted name source)).trans rfl)

theorem plantBody_error (name : String) (source : Option Location)
    (numbered : document.Numbered) (failed : Body.parse text = .error error) :
    ∃ fresh, document.fresh < fresh ∧
      plantBody name text source document = .ok (.error error) (document.aside .nil fresh) := by
  obtain ⟨fresh, later, ran⟩ := parseFragment_error numbered failed
  refine ⟨fresh, later, (bind_ok ran).trans ?_⟩
  rw [aside_nil]
  rfl

theorem plantText_ok (name : String) (source : Option Location)
    (numbered : document.Numbered) (parsed : Body.parse text = .ok body) :
    ∃ (set : NodeId) (children : Forest Node) (fresh : Nat),
      plantText name text source document = .ok (.ok set) (document.aside (.tree ⟨set,
        (SetRule.ofBody name source body).item⟩ children) fresh) ∧
      children.items = body.items.map (·.stamp source) ∧
      (document.aside (.tree ⟨set, (SetRule.ofBody name source body).item⟩ children)
        fresh).Numbered := by
  obtain ⟨set, children, fresh, ran, items, taken⟩ := plantBody_ok name source numbered parsed
  have stamped := restamp_tree taken source
  refine ⟨set, children.map fun node => { node with item := node.item.stamp source }, fresh,
    (bind_ok ran).trans ((bind_ok stamped).trans rfl), ?_, ?_⟩
  · rw [Forest.items_stamped, items]
  · refine taken.fewer (List.Perm.subperm ?_) (Nat.le_refl _)
    rw [Forest.ids_tree, Forest.ids_tree, Forest.ids_map]

theorem plantText_error (name : String) (source : Option Location)
    (numbered : document.Numbered) (failed : Body.parse text = .error error) :
    ∃ fresh, document.fresh < fresh ∧
      plantText name text source document = .ok (.error error) (document.aside .nil fresh) := by
  obtain ⟨fresh, later, ran⟩ := plantBody_error name source numbered failed
  exact ⟨fresh, later, (bind_ok ran).trans rfl⟩

theorem readTrailing_ok (source : Option Location) (numbered : document.Numbered)
    (parsed : Body.parse text = .ok body) :
    ∃ (new : Forest Node) (fresh : Nat),
      readTrailing text source document = .ok (.ok (new.tops,
        (body.items.map (·.stamp source)).roots.filterMap fun item => item.kind.definition?))
          (document.aside new fresh) ∧
      new.items = (body.items.map (·.stamp source)).undefining ∧
      (document.aside new fresh).Numbered := by
  obtain ⟨children, fresh, items, -, planted, ran⟩ := parseFragment_aside numbered parsed
  let fragment : Node := ⟨⟨document.fresh⟩, body.root⟩
  have alone : (.tree fragment children ++ .nil : Forest Node) = .tree fragment children :=
    Forest.append_nil _
  obtain ⟨new, same, sublist, sorted⟩ := sortOut_aside source (alone.symm ▸ planted)
  rw [alone, Forest.nil_append] at sorted
  have listed : (document.aside (.tree fragment children) fresh).children? fragment.id =
      some children.tops := by
    rw [children?, planted.find?_aside (Forest.mem_ids_tree.mpr List.mem_cons_self), Forest.tree,
      Forest.find?_cons_self]
    rfl
  have fewer : (.tree fragment .nil ++ new : Forest Node).ids.Sublist
      (Forest.tree fragment children).ids := by
    rw [Forest.ids_append, Forest.ids_tree, Forest.ids_tree, Forest.ids_nil]
    exact sublist.cons_cons _
  have left := planted.fewer fewer.subperm (Nat.le_refl _)
  have dropped : destroy fragment.id _ = _ := destroy_aside left (by simp [Forest.ids_tree])
  have gone : (.tree fragment .nil ++ new : Forest Node).prune fragment.id = new := by
    have nodup := left.nodup_aside
    rw [Forest.ids_append, Forest.ids_tree, List.nodup_append'] at nodup
    have absent : fragment.id ∉ new.ids := fun member => nodup.2.2 List.mem_cons_self member
    simp [Forest.tree, Forest.prune, Forest.prune_of_not_mem absent]
  rw [gone] at dropped
  refine ⟨new, fresh, ?_, items ▸ same, ?_⟩
  · refine (bind_ok ran).trans ((bind_ok (ask_ok listed)).trans ((bind_ok sorted).trans ?_))
    rw [items]
    exact (bind_ok dropped).trans rfl
  · refine left.fewer ?_ (Nat.le_refl _)
    rw [Forest.ids_append]
    exact (List.sublist_append_right _ _).subperm

theorem readTrailing_error (source : Option Location) (numbered : document.Numbered)
    (failed : Body.parse text = .error error) :
    ∃ fresh, document.fresh < fresh ∧
      readTrailing text source document = .ok (.error error) (document.aside .nil fresh) := by
  obtain ⟨fresh, later, ran⟩ := parseFragment_error numbered failed
  refine ⟨fresh, later, (bind_ok ran).trans ?_⟩
  rw [aside_nil]
  rfl

end Edit

/-! ## Definition by definition -/

namespace Expansion

variable (expansion : Expansion)

theorem append_empty : expansion.append {} = expansion := by
  rw [append, List.append_nil, Forest.append_nil]

theorem empty_append : append {} expansion = expansion := rfl

theorem append_assoc (first second third : Expansion) :
    (first.append second).append third = first.append (second.append third) := by
  simp only [append, List.append_assoc, Forest.append_assoc]

end Expansion

/-- The rules, each with its set's name, and the items that were made. -/
structure Made where
  sets : List (String × NodeId) := []
  items : List NodeId := []

def Made.ids (made : Made) : List NodeId :=
  made.sets.map Prod.snd ++ made.items

/-- What was made stands beside a document, and holds what an expansion says. -/
structure Makes (document : Document) (expansion : Expansion) (made : Made) (after : Document) :
    Prop where
  numbered : after.Numbered
  beside : ∃ more : Forest Node, after = document.aside more after.fresh ∧ more.tops.Perm made.ids
  sets : List.Forall₂ (fun set entry => entry.1 = set.name ∧
    after.Carries entry.2 set.item set.children) expansion.sets made.sets
  items : List.Forall₂ (fun tree id => after.Carries id tree.1 tree.2) expansion.items.trees
    made.items

namespace Makes

variable {document mid : Document} {expansion : Expansion} {made : Made} {more new : Forest Node}
  {fresh : Nat} {name : String} {set : Node} {children : Forest Node}

theorem begin (numbered : document.Numbered) : Makes document {} {} document :=
  ⟨numbered, ⟨.nil, (aside_nil document _).symm, List.Perm.refl _⟩, .nil, .nil⟩

theorem carries_aside {id : NodeId} {item : Item} {inner : Forest Item}
    (carries : mid.Carries id item inner) : (mid.aside new fresh).Carries id item inner := by
  obtain ⟨children, found, same⟩ := carries
  exact ⟨children, (find?_aside_old (Forest.mem_ids_of_find? found)).trans found, same⟩

theorem beside_aside (makes : Makes document expansion made mid) (new : Forest Node) (fresh : Nat) :
    ∃ more : Forest Node, mid.aside new fresh = document.aside more fresh ∧
      more.tops.Perm (made.ids ++ new.tops) := by
  obtain ⟨more, eq, perm⟩ := makes.beside
  refine ⟨more ++ new, ?_, ?_⟩
  · rw [eq, aside_aside]
  · rw [Forest.tops_append]
    exact perm.append_right _

/-- One more rule was made. -/
theorem addSet (makes : Makes document expansion made mid)
    (numbered : (mid.aside (.tree set children) fresh).Numbered) (name : String) :
    Makes document { expansion with sets := expansion.sets ++ [⟨name, set.item, children.items⟩] }
      { made with sets := made.sets ++ [(name, set.id)] }
      (mid.aside (.tree set children) fresh) := by
  obtain ⟨more, eq, perm⟩ := makes.beside_aside (.tree set children) fresh
  refine ⟨numbered, ⟨more, eq, perm.trans ?_⟩, ?_, ?_⟩
  · rw [List.perm_iff_count]
    intro other
    simp only [Made.ids, Forest.tree, Forest.tops_cons, Forest.tops_nil, List.map_append,
      List.map_cons, List.map_nil, List.count_append]
    omega
  · refine List.rel_append (makes.sets.imp fun _ _ => And.imp_right carries_aside) ?_
    refine .cons ⟨rfl, ?_⟩ .nil
    exact ⟨children, (numbered.find?_aside (Forest.mem_ids_tree.mpr List.mem_cons_self)).trans
      (Forest.find?_cons_self ..), rfl⟩
  · exact makes.items.imp fun _ _ => carries_aside

/-- More items were made, or nothing. -/
theorem addItems (makes : Makes document expansion made mid)
    (numbered : (mid.aside new fresh).Numbered) :
    Makes document { expansion with items := expansion.items ++ new.items }
      { made with items := made.items ++ new.tops } (mid.aside new fresh) := by
  obtain ⟨more, eq, perm⟩ := makes.beside_aside new fresh
  refine ⟨numbered, ⟨more, eq, perm.trans ?_⟩, ?_, ?_⟩
  · rw [Made.ids, Made.ids, List.append_assoc]
  · exact makes.sets.imp fun _ _ => And.imp_right carries_aside
  · rw [Forest.trees_append]
    refine List.rel_append (makes.items.imp fun _ _ => carries_aside) ?_
    exact (Forest.forall₂_trees numbered.nodup_aside).imp fun _ _ ⟨children, found, same⟩ =>
      ⟨children, (numbered.find?_aside (Forest.mem_ids_of_find? found)).trans found, same⟩

/-- Identities were given out, and nothing was made. -/
theorem idle (makes : Makes document expansion made mid) (later : mid.fresh ≤ fresh) :
    Makes document expansion made (mid.aside .nil fresh) := by
  have own : (mid.aside .nil mid.fresh).Numbered := by
    rw [aside_nil]
    exact makes.numbered
  have same := makes.addItems (own.fewer (List.Subperm.refl _) later)
  rwa [Forest.items_nil, Forest.append_nil, Forest.tops_nil, List.append_nil] at same

end Makes

namespace Edit

/-- Read one definition.  What is made is added to what was made before, also if
something cannot be read; the answer is the definitions after the block. -/
def expandOne (source : Option Location) (name value : String) (made : Made) :
    Edit (Except ParseError (List (String × String)) × Made) := do
  match split? .curly value.toList with
  | none => return (.error ⟨.unclosedBody, source.getD ⟨0, 0⟩⟩, made)
  | some split =>
      match ← plantText name (String.ofList split.body) source with
      | .error error => return (.error error, made)
      | .ok set =>
          let made := { made with sets := made.sets ++ [(name, set)] }
          if (trim split.after).isEmpty then return (.ok [], made)
          match ← readTrailing (String.ofList split.after) source with
          | .error error => return (.error error, made)
          | .ok (items, pending) => return (.ok pending, { made with items := made.items ++ items })

/-- Read definitions and those that follow from them, in order, in at most `rounds`
rounds, until one cannot be read. -/
def expandAll (source : Option Location) :
    Nat → List (String × String) → Made → Edit (Except ParseError Unit × Made)
  | _, [], made => return (.ok (), made)
  | 0, _, made => return (.ok (), made)
  | rounds + 1, (name, value) :: pending, made => do
      match ← expandOne source name value made with
      | (.error error, made) => return (.error error, made)
      | (.ok next, made) => expandAll source rounds (pending ++ next) made

/-- Read all that a definition's value defines.  If some part cannot be read, what was
made goes again. -/
def expand (source : Option Location) (name value : String) : Edit (Except ParseError Made) := do
  match ← expandAll source (value.length + 1) [(name, value)] {} with
  | (.ok (), made) => return .ok made
  | (.error error, made) => do
      made.ids.forM destroy
      return .error error

variable {document mid : Document} {expansion : Expansion} {made : Made}

theorem expandOne_cases (makes : Makes document expansion made mid) (source : Option Location)
    (name value : String) :
    (∃ one made' after, ApplyRule.expandOne source name value = .ok one ∧
      expandOne source name value made mid = .ok (.ok one.pending, made') after ∧
      Makes document (expansion.append ⟨[one.set], one.items⟩) made' after) ∨
    ∃ error expansion' made' after, ApplyRule.expandOne source name value = .error error ∧
      expandOne source name value made mid = .ok (.error error, made') after ∧
      Makes document expansion' made' after := by
  unfold expandOne ApplyRule.expandOne
  cases cut : split? .curly value.toList with
  | none => exact .inr ⟨_, expansion, made, mid, rfl, rfl, makes⟩
  | some split =>
      simp only
      cases parsed : Body.parse (String.ofList split.body) with
      | error error =>
          obtain ⟨fresh, later, ran⟩ := plantText_error name source makes.numbered parsed
          exact .inr ⟨error, expansion, made, _, rfl, bind_ok ran, makes.idle (Nat.le_of_lt later)⟩
      | ok body =>
          obtain ⟨set, children, fresh, ran, items, numbered⟩ :=
            plantText_ok name source makes.numbered parsed
          have added := makes.addSet numbered name
          rw [items] at added
          rw [bind_ok ran]
          simp only [bind, Except.bind]
          by_cases last : (trim split.after).isEmpty = true
          · rw [if_pos last, if_pos last]
            refine .inl ⟨_, _, _, rfl, rfl, ?_⟩
            rw [Expansion.append, Forest.append_nil]
            exact added
          · rw [if_neg last, if_neg last]
            cases trails : Body.parse (String.ofList split.after) with
            | error error =>
                obtain ⟨fresh', later, ran'⟩ := readTrailing_error source numbered trails
                exact .inr ⟨error, _, _, _, rfl, bind_ok ran', added.idle (Nat.le_of_lt later)⟩
            | ok after =>
                obtain ⟨new, fresh', ran', same, numbered'⟩ :=
                  readTrailing_ok source numbered trails
                have whole := added.addItems numbered'
                rw [same] at whole
                exact .inl ⟨_, _, _, rfl, bind_ok ran', whole⟩

theorem expandAll_cases (source : Option Location) (rounds : Nat)
    (pending : List (String × String)) (makes : Makes document expansion made mid) :
    (∃ more made' after, ApplyRule.expandAll source rounds pending = .ok more ∧
      expandAll source rounds pending made mid = .ok (.ok (), made') after ∧
      Makes document (expansion.append more) made' after) ∨
    ∃ error expansion' made' after, ApplyRule.expandAll source rounds pending = .error error ∧
      expandAll source rounds pending made mid = .ok (.error error, made') after ∧
      Makes document expansion' made' after := by
  induction rounds generalizing pending expansion made mid with
  | zero =>
      have same := expansion.append_empty.symm ▸ makes
      cases pending with
      | nil => exact .inl ⟨{}, made, mid, rfl, rfl, same⟩
      | cons _ _ => exact .inl ⟨{}, made, mid, rfl, rfl, same⟩
  | succ rounds ih =>
      cases pending with
      | nil => exact .inl ⟨{}, made, mid, rfl, rfl, expansion.append_empty.symm ▸ makes⟩
      | cons definition pending =>
          obtain ⟨name, value⟩ := definition
          rcases expandOne_cases makes source name value with
            ⟨one, made', after, read, ran, next⟩ |
            ⟨error, expansion', made', after, read, ran, last⟩
          · simp only [ApplyRule.expandAll, read, bind, Except.bind]
            rcases ih (pending ++ one.pending) next with
              ⟨more, made'', after', rest, ranRest, all⟩ |
              ⟨error, expansion', made'', after', rest, ranRest, last⟩
            · rw [Expansion.append_assoc] at all
              exact .inl ⟨_, made'', after', by rw [rest]; rfl, (bind_ok ran).trans ranRest, all⟩
            · exact .inr ⟨error, expansion', made'', after', by rw [rest],
                (bind_ok ran).trans ranRest, last⟩
          · refine .inr ⟨error, expansion', made', after, ?_, bind_ok ran, last⟩
            rw [ApplyRule.expandAll, read]
            rfl

/-- Node by node, too, more rounds than characters wait change nothing. -/
theorem expandAll_rounds {rounds : Nat} {pending : List (String × String)}
    (makes : Makes document expansion made mid) (enough : waiting pending < rounds)
    (source : Option Location) (extra : Nat) :
    expandAll source (rounds + extra) pending made mid =
      expandAll source rounds pending made mid := by
  induction rounds generalizing pending expansion made mid with
  | zero => cases enough
  | succ rounds ih =>
      rw [Nat.add_right_comm]
      cases pending with
      | nil => rfl
      | cons definition pending =>
          obtain ⟨name, value⟩ := definition
          unfold expandAll
          rcases expandOne_cases makes source name value with
            ⟨one, made', after, read, ran, next⟩ | ⟨_, _, _, _, _, ran, _⟩
          · rw [bind_ok ran, bind_ok ran]
            exact ih next (waiting_round read enough)
          · rw [bind_ok ran, bind_ok ran]

/-- What was made goes again. -/
theorem forM_destroy_aside {ids : List NodeId} {more : Forest Node} {fresh : Nat}
    (numbered : (document.aside more fresh).Numbered) (perm : more.tops.Perm ids) :
    ids.forM destroy (document.aside more fresh) = .ok () (document.aside .nil fresh) := by
  induction ids generalizing more with
  | nil =>
      have none_ : more.tops = [] := perm.eq_nil
      cases more with
      | nil => rfl
      | cons node below rest => cases none_
  | cons id rest ih =>
      have top : id ∈ more.tops := perm.mem_iff.mpr List.mem_cons_self
      have nodup := numbered.nodup_aside
      obtain ⟨before, after, old, new⟩ := Forest.tops_replace_of_mem nodup top
      have left : (more.prune id).tops.Perm rest := by
        rw [Forest.prune_eq_replace nodup, new, Forest.tops_nil, List.append_nil]
        exact (List.perm_middle.symm.trans (old ▸ perm)).cons_inv
      have fewer := numbered.fewer (more.ids_prune_sublist id).subperm (Nat.le_refl _)
      exact (bind_ok (destroy_aside numbered (Forest.mem_ids_of_mem_tops top))).trans
        (ih fewer left)

variable {source : Option Location} {name value : String} {error : ParseError}

/-- **Reading a definition's value node by node.**  Where the value can be read, the
rules and items of its expansion stand beside the document. -/
theorem expand_ok (numbered : document.Numbered)
    (read : ApplyRule.expand source name value = .ok expansion) :
    ∃ made after, expand source name value document = .ok (.ok made) after ∧
      Makes document expansion made after := by
  rcases expandAll_cases source (value.length + 1) [(name, value)] (.begin numbered) with
    ⟨more, made, after, read', ran, makes⟩ | ⟨error, _, _, _, failed, -⟩
  · cases read.symm.trans read'
    refine ⟨made, after, (bind_ok ran).trans rfl, ?_⟩
    rwa [Expansion.empty_append] at makes
  · cases read.symm.trans failed

/-- Where the value cannot be read, all is as it was, but for the identities that were
given out. -/
theorem expand_error (numbered : document.Numbered)
    (failed : ApplyRule.expand source name value = .error error) :
    ∃ fresh, expand source name value document =
        .ok (.error error) { document with fresh := fresh } ∧
      Numbered { document with fresh := fresh } := by
  rcases expandAll_cases source (value.length + 1) [(name, value)] (.begin numbered) with
    ⟨_, _, _, read, -⟩ | ⟨error', expansion', made, after, failed', ran, makes⟩
  · cases failed.symm.trans read
  · cases failed.symm.trans failed'
    obtain ⟨more, eq, perm⟩ := makes.beside
    have all := makes.numbered
    rw [eq] at all ran
    refine ⟨after.fresh, (bind_ok ran).trans ?_, ?_⟩ <;> rw [← aside_nil]
    · exact (bind_ok (forM_destroy_aside all perm)).trans rfl
    · exact all.fewer (List.nil_subperm) (Nat.le_refl _)

end Edit

end ApplyRule
