/-
# ApplyRule.Proofs.Building -- a tree built node by node

A body can be read into a tree that is there: every item is a new node, which is
made and appended to its container before its block is read, and what closes a body
is written into the container at the end.  `Body.build` reads like that, with any
`Builder`.

With the edits of a document this reading is never refused: it leaves the numbered
items of the body below the container, or answers the failure that `Body.read` has
(`build_eq`).  So a text that is read node by node is the document it parses to,
or a new tree in a document, or leaves the document as it was
(`Edit.parseFragment_ok`, `Edit.parseFragment_error`, `Edit.parse_eq`).
-/
import ApplyRule.Proofs.Copying
import ApplyRule.Proofs.ProperItems

namespace ApplyRule

set_option autoImplicit false

open Text Component

/-- What a reader does to the tree that it builds. -/
structure Builder (m : Type → Type) where
  create : Item → m NodeId
  append : NodeId → NodeId → m Unit
  touch : NodeId → (Item → Item) → m Unit

/-- A new last child. -/
def Builder.push {m : Type → Type} [Monad m] (tree : Builder m) (container : NodeId)
    (item : Item) : m NodeId := do
  let id ← tree.create item
  tree.append container id
  return id

/-- An item with the text at the end of its block, and whether the last statement
there ends with a semicolon. -/
def Item.close (after : List Char) (semicolon : Bool) (item : Item) : Item :=
  { item with raws := item.raws.enclose ⟨.nil, after, semicolon⟩ }

/-- An item with a semicolon of its own. -/
def Item.own (semicolon : Option String) (item : Item) : Item :=
  { item with raws.ownSemicolon := semicolon }

set_option linter.unusedVariables false in
/-- Read the body that components make up into a container. -/
def Body.build {m : Type → Type} [Monad m] (tree : Builder m) (container : NodeId)
    (semicolon : Bool) (components : List Component) : m (Except Failure Unit) :=
  match filled : components.dropWhile isFiller with
  | [] => do
      tree.touch container (Item.close (textOf components) semicolon)
      return .ok ()
  | component :: rest =>
      let before := String.ofList (textOf (components.takeWhile isFiller))
      let item (kind : Kind) (raws : Raws) : Item :=
        ⟨kind, { raws with before }, some component.start⟩
      let next := Piece.read component rest
      match found : next.1 with
      | .fault error => return .error ⟨error, next.2⟩
      | .simple kind raws ended => do
          let _ ← tree.push container (item kind raws)
          Body.build tree container (ended.getD semicolon) next.2
      | .block kind raws inner => do
          let node ← tree.push container (item kind raws)
          match ← Body.build tree node false inner with
          | .error failure => return .error (failure.leave component.start next.2)
          | .ok () =>
              let own := ownSemicolon kind next.2
              tree.touch node (Item.own own.1)
              Body.build tree container false own.2
termination_by sizeOf components
decreasing_by
  all_goals
    have whole := sizeOf_le_of_sublist (filled ▸ List.dropWhile_sublist isFiller)
    have after := sizeOf_le_of_sublist (Piece.read_sublist component rest)
    simp only [List.cons.sizeOf_spec] at whole
  · omega
  · have inside := Piece.sizeOf_read_lt found
    simp only [List.cons.sizeOf_spec] at inside
    omega
  · have following := sizeOf_le_of_sublist (ownSemicolon_sublist kind (Piece.read component rest).2)
    omega

namespace Body

section Cases

variable {m : Type → Type} [Monad m] {tree : Builder m} {container : NodeId} {semicolon : Bool}
  {components rest inner : List Component} {component : Component} {kind : Kind} {raws : Raws}
  {ended : Option Bool} {error : ParseError}

theorem build_done (fillers : components.dropWhile isFiller = []) :
    build tree container semicolon components = (do
      tree.touch container (Item.close (textOf components) semicolon)
      return .ok ()) := by
  rw [build]
  split
  · rfl
  · simp_all

theorem build_fault (filled : components.dropWhile isFiller = component :: rest)
    (found : (Piece.read component rest).1 = .fault error) :
    build tree container semicolon components =
      pure (.error ⟨error, (Piece.read component rest).2⟩) := by
  rw [build]
  split
  · simp_all
  · rename_i component' rest' filled'
    cases filled.symm.trans filled'
    dsimp only
    split
    · rename_i found'
      cases found.symm.trans found'
      rfl
    · simp_all
    · simp_all

theorem build_simple (filled : components.dropWhile isFiller = component :: rest)
    (found : (Piece.read component rest).1 = .simple kind raws ended) :
    build tree container semicolon components = (do
      let _ ← tree.push container ⟨kind,
        { raws with before := String.ofList (textOf (components.takeWhile isFiller)) },
        some component.start⟩
      build tree container (ended.getD semicolon) (Piece.read component rest).2) := by
  rw [build]
  split
  · simp_all
  · rename_i component' rest' filled'
    cases filled.symm.trans filled'
    dsimp only
    split
    · simp_all
    · rename_i found'
      cases found.symm.trans found'
      rfl
    · simp_all

theorem build_block (filled : components.dropWhile isFiller = component :: rest)
    (found : (Piece.read component rest).1 = .block kind raws inner) :
    build tree container semicolon components = (do
      let node ← tree.push container ⟨kind,
        { raws with before := String.ofList (textOf (components.takeWhile isFiller)) },
        some component.start⟩
      match ← build tree node false inner with
      | .error failure =>
          return .error (failure.leave component.start (Piece.read component rest).2)
      | .ok () =>
          tree.touch node (Item.own (ownSemicolon kind (Piece.read component rest).2).1)
          build tree container false (ownSemicolon kind (Piece.read component rest).2).2) := by
  rw [build]
  split
  · simp_all
  · rename_i component' rest' filled'
    cases filled.symm.trans filled'
    dsimp only
    split
    · simp_all
    · simp_all
    · rename_i found'
      cases found.symm.trans found'
      rfl

end Cases

end Body

/-! ## Following a reader -/

/-- The edits of a document build a tree. -/
def Edit.builder : Builder Edit := ⟨Edit.create, Edit.append, Edit.updateItem⟩

/-- The edits of an arena build a tree. -/
def Linking.builder : Builder Linking := ⟨Linking.create, Linking.append, Linking.touch⟩

theorem follows_push {document : Document} (numbered : document.Numbered) (container : NodeId)
    (item : Item) :
    Follows (Linking.builder.push container item) (Edit.builder.push container item) document := by
  refine (follows_create numbered item).bind fun id _ _ numbered => ?_
  refine (follows_append numbered container id).bind fun _ _ _ numbered => ?_
  exact Follows.pure numbered id

/-- A reader that edits an arena follows one that edits the document. -/
theorem follows_build (semicolon : Bool) (components : List Component) {document : Document}
    (numbered : document.Numbered) (container : NodeId) :
    Follows (Body.build Linking.builder container semicolon components)
      (Body.build Edit.builder container semicolon components) document := by
  induction semicolon, components using Body.read.induct generalizing document container with
  | case1 semicolon components filled =>
      rw [Body.build_done filled, Body.build_done filled]
      exact (follows_touch numbered container _).bind fun _ _ _ numbered => Follows.pure numbered _
  | case2 semicolon components component rest filled next error =>
      rename_i found
      rw [Body.build_fault filled found, Body.build_fault filled found]
      exact Follows.pure numbered _
  | case3 semicolon components component rest filled next kind raws ended =>
      rename_i found ih
      rw [Body.build_simple filled found, Body.build_simple filled found]
      refine (follows_push numbered container _).bind fun _ _ _ numbered => ?_
      exact ih numbered container
  | case4 semicolon components component rest filled next kind raws inner found ihInner =>
      rename_i ihRest
      rw [Body.build_block filled found, Body.build_block filled found]
      refine (follows_push numbered container _).bind fun node _ _ numbered => ?_
      refine (ihInner numbered node).bind fun answer _ _ numbered => ?_
      cases answer with
      | error failure => exact Follows.pure numbered _
      | ok _ =>
          refine (follows_touch numbered node _).bind fun _ _ _ numbered => ?_
          exact ihRest numbered container

/-! ## What a reader leaves -/

namespace Forest

variable {forest : Forest Node} {parent child : NodeId} {more tree : Forest Node}

theorem find?_adopt_new (absent : child ∉ forest.ids) :
    (adopt parent tree forest).find? child =
      if parent ∈ forest.ids then tree.find? child else none := by
  induction forest with
  | nil => rfl
  | cons node below rest ihc ihr =>
      simp only [ids_cons, List.mem_cons, List.mem_append, not_or] at absent
      have notNode : node.id ≠ child := fun eq => absent.1 eq.symm
      by_cases here : node.id = parent
      · rw [adopt, if_pos here, find?, if_neg notNode, find?_append,
          find?_of_not_mem absent.2.1, find?_of_not_mem absent.2.2, Option.none_or, Option.or_none,
          if_pos (by simp [here])]
      · rw [adopt, if_neg here, find?, if_neg notNode, ihc absent.2.1, ihr absent.2.2]
        by_cases inside : parent ∈ below.ids <;> by_cases later : parent ∈ rest.ids <;>
          simp [inside, later, Ne.symm here]

theorem prune_of_not_mem (absent : child ∉ forest.ids) : forest.prune child = forest := by
  induction forest with
  | nil => rfl
  | cons node below rest ihc ihr =>
      simp only [ids_cons, List.mem_cons, List.mem_append, not_or] at absent
      rw [prune, if_neg (fun eq => absent.1 eq.symm), ihc absent.2.1, ihr absent.2.2]

/-- What is put below a new node is put there before that node is put anywhere. -/
theorem adopt_inside (absent : child ∉ forest.ids) :
    adopt child more (adopt parent tree forest) = adopt parent (adopt child more tree) forest := by
  induction forest with
  | nil => rfl
  | cons node below rest ihc ihr =>
      simp only [ids_cons, List.mem_cons, List.mem_append, not_or] at absent
      have notNode : node.id ≠ child := fun eq => absent.1 eq.symm
      by_cases here : node.id = parent
      · rw [adopt, if_pos here, adopt, if_neg notNode, (local_adopt _ _).append_right absent.2.1,
          (local_adopt _ _).of_not_mem absent.2.2]
        rw [adopt, if_pos here]
      · rw [adopt, if_neg here, adopt, if_neg notNode, ihc absent.2.1, ihr absent.2.2]
        rw [adopt, if_neg here]

theorem update_append (id : NodeId) (change : Item → Item) (first second : Forest Node) :
    (first ++ second).update id change = first.update id change ++ second.update id change := by
  induction first with
  | nil => rfl
  | cons node below rest _ ih => rw [cons_append, update, update, ih, cons_append]

theorem update_inside {change : Item → Item} (absent : child ∉ forest.ids) :
    (adopt parent tree forest).update child change =
      adopt parent (tree.update child change) forest := by
  induction forest with
  | nil => rfl
  | cons node below rest ihc ihr =>
      simp only [ids_cons, List.mem_cons, List.mem_append, not_or] at absent
      have notNode : node.id ≠ child := fun eq => absent.1 eq.symm
      by_cases here : node.id = parent
      · rw [adopt, if_pos here, update, if_neg notNode, update_of_not_mem absent.2.2]
        rw [adopt, if_pos here, update_append, update_of_not_mem absent.2.1]
      · rw [adopt, if_neg here, update, if_neg notNode, ihc absent.2.1, ihr absent.2.2]
        rw [adopt, if_neg here]

end Forest

namespace Document

variable {document : Document} {container : NodeId} {item : Item} {below : Forest Node}

/-- The document with trees after the children of a node, and another identity to
give out next. -/
def grown (document : Document) (container : NodeId) (more : Forest Node) (fresh : Nat) :
    Document :=
  { document with forest := Forest.adopt container more document.forest, fresh := fresh }

theorem Numbered.grown_new (numbered : document.Numbered) (item : Item) (more : Forest Node)
    (fresh : Nat) :
    (document.extend container (.tree item .nil)).grown ⟨document.fresh⟩ more fresh =
      document.grown container (.tree ⟨⟨document.fresh⟩, item⟩ more) fresh := by
  rw [grown, Document.extend, Forest.adopt_inside numbered.new_not_mem]
  simp only [Forest.tree, Forest.number, Forest.adopt, if_true, Forest.nil_append]
  rfl

/-- New nodes below a new node. -/
theorem Numbered.extend_new (numbered : document.Numbered) (item : Item) (items : Forest Item) :
    (document.extend container (.tree item .nil)).extend ⟨document.fresh⟩ items =
      document.extend container (.tree item items) := by
  refine (numbered.grown_new item _ _).trans ?_
  refine congrArg (document.grown container _) ?_
  simp only [Document.extend, Forest.tree, Forest.size]
  omega

theorem Numbered.retouch_new (numbered : document.Numbered) (item : Item) (items : Forest Item)
    (change : Item → Item) :
    (document.extend container (.tree item items)).retouch ⟨document.fresh⟩ change =
      document.extend container (.tree (change item) items) := by
  have notBelow : (⟨document.fresh⟩ : NodeId) ∉ (items.number (document.fresh + 1)).ids :=
    fun member => Nat.lt_irrefl _ (Forest.mem_ids_number.mp member).1
  rw [Document.retouch, Document.extend, Forest.update_inside numbered.new_not_mem]
  simp only [Forest.tree, Forest.number, Forest.update, if_true, Forest.update_of_not_mem notBelow]
  rfl

theorem Numbered.find?_extend_new (numbered : document.Numbered)
    (found : document.find? container = some (item, below)) (top : Item) (items : Forest Item) :
    (document.extend container (.tree top items)).find? ⟨document.fresh⟩ =
      some (top, items.number (document.fresh + 1)) := by
  refine (Forest.find?_adopt_new numbered.new_not_mem).trans ?_
  rw [if_pos (Forest.mem_ids_of_find? found), Forest.tree, Forest.number, Forest.find?,
    if_pos rfl]

theorem grown_extend (document : Document) (container : NodeId) (items : Forest Item)
    (more : Forest Node) (fresh : Nat) :
    (document.extend container items).grown container more fresh =
      document.grown container (items.number document.fresh ++ more) fresh := by
  rw [grown, extend, Forest.adopt_adopt]
  rfl

end Document

theorem Edit.push_eq {document : Document} {container : NodeId} {holder : Item}
    {below : Forest Node} (numbered : document.Numbered)
    (found : document.find? container = some (holder, below))
    (houses : holder.kind.isContainer = true) (item : Item) :
    Edit.builder.push container item document =
      .ok ⟨document.fresh⟩ (document.extend container (.tree item .nil)) := by
  have planted := numbered.plant item .nil
  have alive := Forest.mem_ids_of_find? found
  have top := numbered.find?_plant_self item .nil
  have may : (document.plant item .nil).Insertable container ⟨document.fresh⟩ := by
    refine ⟨⟨holder, below, (Document.find?_plant item .nil alive).trans found, houses⟩,
      item, _, top, fun member => ?_⟩
    have same : container = ⟨document.fresh⟩ := by
      simpa [Forest.number] using member
    exact numbered.new_not_mem (same ▸ alive)
  refine (bind_ok (rfl : Edit.create item document = .ok ⟨document.fresh⟩ _)).trans ?_
  refine (bind_ok ((bind_ok (may.check planted.nodup)).trans (Edit.move_ok top))).trans ?_
  have put : (document.plant item .nil).moved ⟨document.fresh⟩ item
      (Forest.number (document.fresh + 1) .nil) (Forest.adopt container) =
        document.extend container (.tree item .nil) := by
    rw [Document.moved, Document.plant, Forest.prune_append,
      Forest.prune_of_not_mem numbered.new_not_mem]
    simp only [Forest.tree, Forest.number, Forest.prune, if_true, Forest.append_nil]
    rfl
  rw [put]
  rfl

/-- What reading node by node leaves: the numbered items of the body below the container,
or some nodes that stand there if the body cannot be read. -/
inductive Document.Built (document : Document) (container : NodeId) : Except Failure Body →
    EStateM.Result TreeError Document (Except Failure Unit) → Prop where
  | read (body : Body) : Built document container (.ok body) (.ok (.ok ())
      ((document.extend container body.items).retouch container
        (Item.close body.after body.semicolon)))
  | failed (failure : Failure) (more : Forest Node) {fresh : Nat} (later : document.fresh ≤ fresh) :
      Built document container (.error failure)
        (.ok (.error failure) (document.grown container more fresh))

/-- What is built after a first tree is built with it. -/
theorem Document.Built.cons {document : Document} {container : NodeId} {item : Item}
    {items : Forest Item} {read : Except Failure Body}
    {result : EStateM.Result TreeError Document (Except Failure Unit)}
    (built : (document.extend container (.tree item items)).Built container read result) :
    document.Built container (read.map (Body.cons item items)) result := by
  cases built with
  | read body =>
      rw [Document.extend_cons]
      exact .read (body.cons item items)
  | failed failure more later =>
      rw [Document.grown_extend]
      exact .failed failure _ (Nat.le_trans (Nat.le_add_right ..) later)

/-- **Reading node by node.**  A reader that edits a document leaves there what reading
the body comes to, and no edit is refused. -/
theorem Body.build_eq (semicolon : Bool) (components : List Component) {document : Document}
    {container : NodeId} {holder : Item} {below : Forest Node} (numbered : document.Numbered)
    (found : document.find? container = some (holder, below))
    (houses : holder.kind.isContainer = true) :
    document.Built container (Body.read semicolon components)
      (Body.build Edit.builder container semicolon components document) := by
  induction semicolon, components using Body.read.induct
    generalizing document container holder below with
  | case1 semicolon components filled =>
      have ended : document.Built container _ _ := .read ⟨.nil, textOf components, semicolon⟩
      rw [Document.extend_nil] at ended
      rw [Body.read_done filled, Body.build_done filled]
      exact (bind_ok (Edit.updateItem_ok found)).symm ▸ ended
  | case2 semicolon components component rest filled next error =>
      rename_i problem
      have stopped : document.Built container _ _ := .failed ⟨error, next.2⟩ .nil (Nat.le_refl _)
      rw [Document.grown, Forest.adopt_nil] at stopped
      rw [Body.read_fault filled problem, Body.build_fault filled problem]
      exact stopped
  | case3 semicolon components component rest filled next kind raws ended =>
      rename_i piece ih
      let item : Item := ⟨kind,
        { raws with before := String.ofList (textOf (components.takeWhile isFiller)) },
        some component.start⟩
      have pushed := Edit.push_eq numbered found houses item
      rw [Body.read_simple filled piece, Body.build_simple filled piece, bind_ok pushed]
      exact (ih (numbered.extend found _) (Forest.find?_adopt_self found _) houses).cons
  | case4 semicolon components component rest filled next kind raws inner piece ihInner =>
      rename_i ihRest
      let item : Item := ⟨kind,
        { raws with before := String.ofList (textOf (components.takeWhile isFiller)) },
        some component.start⟩
      obtain ⟨-, opens⟩ := (Piece.cut_of_read piece (by simp)).isContainer_block
      have pushed := Edit.push_eq numbered found houses item
      have top := numbered.find?_extend_new found item .nil
      have inside := ihInner (numbered.extend found _) top opens
      rw [Body.read_block filled piece, Body.build_block filled piece, bind_ok pushed]
      generalize Body.read false inner = read at inside ⊢
      generalize ran : Body.build Edit.builder _ false inner _ = result at inside
      cases inside with
      | read body =>
          -- The block is read: its end is written, and the rest follows.
          rw [numbered.extend_new, numbered.retouch_new] at ran
          have closed : Edit.builder.touch _ (Item.own (ownSemicolon kind next.2).1) _ = _ :=
            Edit.updateItem_ok (numbered.find?_extend_new found
              (item.close body.after body.semicolon) body.items)
          rw [numbered.retouch_new] at closed
          rw [bind_ok ran]
          dsimp only
          rw [bind_ok closed]
          exact (ihRest (numbered.extend found _) (Forest.find?_adopt_self found _) houses).cons
      | failed failure more later =>
          rw [bind_ok ran, numbered.grown_new]
          exact .failed _ _ (Nat.le_trans (Nat.le_add_right ..) later)

/-! ## Fragments and documents -/

/-- A root without children. -/
def Item.emptyRoot : Item := ⟨.root, {}, none⟩

/-- A document that holds nothing. -/
def Document.new : Document :=
  Document.plant ⟨.nil, ⟨1⟩, 1⟩ Item.emptyRoot .nil

namespace Document

variable {document : Document}

theorem Numbered.retouch_plant (numbered : document.Numbered) (item : Item)
    (items : Forest Item) (change : Item → Item) :
    (document.plant item items).retouch ⟨document.fresh⟩ change =
      document.plant (change item) items := by
  have notBelow : (⟨document.fresh⟩ : NodeId) ∉ (items.number (document.fresh + 1)).ids :=
    fun member => Nat.lt_irrefl _ (Forest.mem_ids_number.mp member).1
  rw [Document.retouch, Document.plant, Forest.update_append,
    Forest.update_of_not_mem numbered.new_not_mem]
  simp only [Forest.tree, Forest.number, Forest.update, if_true, Forest.update_of_not_mem notBelow]
  rfl

/-- Without its root, nothing is left of a new tree. -/
theorem Numbered.prune_grown (numbered : document.Numbered) (item : Item) (more : Forest Node)
    (fresh : Nat) :
    ((document.plant item .nil).grown ⟨document.fresh⟩ more fresh).forest.prune ⟨document.fresh⟩ =
      document.forest := by
  rw [grown, Document.plant, (Forest.local_adopt _ _).append_right numbered.new_not_mem,
    Forest.prune_append, Forest.prune_of_not_mem numbered.new_not_mem]
  simp only [Forest.tree, Forest.number, Forest.adopt, if_true, Forest.prune, Forest.append_nil]

end Document

/-- What comes of reading: what was built is given up if it failed. -/
def Body.settle {m : Type → Type} [Monad m] (giveUp : m Unit) :
    Except Failure Unit → m (Except ParseError Unit)
  | .ok () => return .ok ()
  | .error failure => do
      giveUp
      return .error failure.error

namespace Edit

/-- Read a text node by node below a new root that stands apart.  The root goes again
if the text cannot be read. -/
def parseFragment (css : String) : Edit (Except ParseError NodeId) := do
  let fragment ← create Item.emptyRoot
  let built ← Body.build builder fragment false (Component.read css.toList)
  return (← Body.settle (destroy fragment) built).map fun _ => fragment

/-- Read a text node by node into a new document, which takes the place of this one if
the text can be read. -/
def parse (css : String) : Edit (Except ParseError Unit) := do
  let before ← get
  set Document.new
  let built ← Body.build builder Document.new.root false (Component.read css.toList)
  Body.settle (set before) built

variable {document : Document} {css : String} {body : Body} {error : ParseError}

/-- Reading below a new root plants the body's tree, or some nodes below that root. -/
theorem build_plant (numbered : document.Numbered) (css : String) :
    (∃ body, Body.parse css = .ok body ∧
      Body.build builder ⟨document.fresh⟩ false (Component.read css.toList)
        (document.plant Item.emptyRoot .nil) =
          .ok (.ok ()) (document.plant body.root body.items)) ∨
    ∃ failure more fresh, Body.parse css = .error failure.error ∧ document.fresh < fresh ∧
      Body.build builder ⟨document.fresh⟩ false (Component.read css.toList)
        (document.plant Item.emptyRoot .nil) =
          .ok (.error failure) ((document.plant Item.emptyRoot .nil).grown ⟨document.fresh⟩
            more fresh) := by
  have built := Body.build_eq false (Component.read css.toList) (numbered.plant Item.emptyRoot .nil)
    (numbered.find?_plant_self _ _) rfl
  rw [Body.parse]
  generalize Body.read false (Component.read css.toList) = read at built ⊢
  generalize Body.build builder _ false (Component.read css.toList) _ = result at built ⊢
  cases built with
  | read body =>
      refine .inl ⟨body, rfl, ?_⟩
      rw [numbered.extend_plant, numbered.retouch_plant]
      rfl
  | failed failure more later =>
      exact .inr ⟨failure, more, _, rfl, Nat.lt_of_lt_of_le (Nat.lt_succ_self _) later, rfl⟩

theorem parseFragment_ok (numbered : document.Numbered) (parsed : Body.parse css = .ok body) :
    parseFragment css document =
      .ok (.ok ⟨document.fresh⟩) (document.plant body.root body.items) := by
  rcases build_plant numbered css with ⟨body', parsed', built⟩ | ⟨failure, more, fresh, failed, -⟩
  · cases parsed.symm.trans parsed'
    exact (bind_ok (rfl : create Item.emptyRoot document = .ok ⟨document.fresh⟩ _)).trans
      ((bind_ok built).trans rfl)
  · cases parsed.symm.trans failed

theorem parseFragment_error (numbered : document.Numbered)
    (failed : Body.parse css = .error error) :
    ∃ fresh, document.fresh < fresh ∧
      parseFragment css document = .ok (.error error) { document with fresh := fresh } := by
  rcases build_plant numbered css with
    ⟨body', parsed, -⟩ | ⟨failure, more, fresh, failed', later, built⟩
  · cases failed.symm.trans parsed
  · cases failed.symm.trans failed'
    refine ⟨fresh, later, ?_⟩
    refine (bind_ok (rfl : create Item.emptyRoot document = .ok ⟨document.fresh⟩ _)).trans
      ((bind_ok built).trans ?_)
    let built := (document.plant Item.emptyRoot .nil).grown ⟨document.fresh⟩ more fresh
    have found : built.find? ⟨document.fresh⟩ = some _ :=
      Forest.find?_adopt_self (numbered.find?_plant_self Item.emptyRoot .nil) more
    have gaveUp : Body.settle (destroy ⟨document.fresh⟩) (.error failure) built =
        .ok (.error failure.error) (built.pruned ⟨document.fresh⟩) :=
      (bind_ok (destroy_eq found)).trans rfl
    refine (bind_ok gaveUp).trans ?_
    rw [Document.pruned, numbered.prune_grown]
    rfl

/-- Reading node by node into a new document is parsing. -/
theorem parse_eq (css : String) (document : Document) :
    parse css document =
      match Document.parse css with
      | .ok parsed => .ok (.ok ()) parsed
      | .error error => .ok (.error error) document := by
  have numbered : (⟨.nil, ⟨1⟩, 1⟩ : Document).Numbered := ⟨List.nodup_nil, by simp⟩
  rcases build_plant numbered css with
    ⟨body, parsed, built⟩ | ⟨failure, more, fresh, failed, -, built⟩
  · rw [Document.parse, parsed]
    exact (bind_ok built).trans rfl
  · rw [Document.parse, failed]
    exact (bind_ok built).trans rfl

end Edit

end ApplyRule
