/-
# ApplyRule.Proofs.NodeByNode -- no node is lost in a pass

A host runs the steps of a pass in any order and on any node, and goes on after a
step that was refused.  Whatever it does, every registered set is a rule that
stands apart, the trees of the sets and of the root have no node in common, and
every node is in one of them (`partitioned_operate`).

The steps of a pass plant whole trees, so little comes up in them that could stay
behind.  The same steps are therefore followed with `Maker.byNode`, where the fragments
that texts are read into, what follows a block, what is made of a definition before it
fails, and the copies that references give way to are all nodes of the document.  Only the
three pieces that make trees differ: with those of the pass they are its steps
(`Maker.step_atOnce`).

* `Step.reads_body` and `Step.reads_value` -- in a tidy pass a text leaves the rules and
  items that it is read into, each a tree that stands apart, or it leaves nothing.
* `Maker.tidy_collectDeclaration` and `Maker.keeps_registerOne` -- those trees are all
  registered, put in place or dropped.
* `Maker.substitute_byNode` and `Maker.resolveNested_byNode` -- a reference gives way node
  by node as it does at once, and so do all those inside sets, however deep.
* `Maker.keeps` -- so each operation keeps a pass tidy, whether it succeeds or is refused.
-/
import ApplyRule.Proofs.Completion
import ApplyRule.Proofs.Making
import ApplyRule.Proofs.Reached

namespace ApplyRule

set_option autoImplicit false

open Document Text

/-! ## Trees beside a document -/

namespace Makes

variable {document after : Document} {tops : List NodeId} {expansion : Expansion} {made : Made}
  {id : NodeId}

/-- Every rule that was made is a set's. -/
theorem exists_set (makes : Makes document expansion made after)
    (member : id ∈ made.sets.map Prod.snd) :
    ∃ set ∈ expansion.sets, after.Carries id set.item set.children := by
  obtain ⟨entry, among, rfl⟩ := List.mem_map.mp member
  obtain ⟨set, isSet, -, carries⟩ := Step.exists_of_forall₂ makes.sets among
  exact ⟨set, isSet, carries⟩

/-- Every tree that was made can stand anywhere. -/
theorem exists_proper (makes : Makes document expansion made after) (proper : expansion.Proper)
    (member : id ∈ made.ids) :
    ∃ item inner, after.Carries id item inner ∧ (Forest.tree item inner).Proper := by
  rcases List.mem_append.mp member with isRule | isItem
  · obtain ⟨set, isSet, carries⟩ := makes.exists_set isRule
    exact ⟨set.item, set.children, carries, (proper.sets set isSet).tree⟩
  · obtain ⟨tree, isTree, carries⟩ := Step.exists_of_forall₂ makes.items isItem
    exact ⟨tree.1, tree.2, carries, proper.items.of_mem_trees isTree⟩

theorem sound (makes : Makes document expansion made after) (proper : expansion.Proper)
    (sound : document.Sound tops) : after.Sound (made.ids ++ tops) := by
  obtain ⟨more, eq, perm⟩ := makes.beside
  have numbered := makes.numbered
  rw [eq] at numbered
  have each : ∀ top ∈ more.tops, ∃ item children, more.find? top = some (item, children) ∧
      (Forest.tree item children.items).Proper := by
    intro top member
    obtain ⟨item, inner, ⟨children, found, rfl⟩, isProper⟩ :=
      makes.exists_proper proper (perm.mem_iff.mp member)
    rw [eq, numbered.find?_aside (Forest.mem_ids_of_mem_tops member)] at found
    exact ⟨item, children, found, isProper⟩
  rw [eq]
  exact (sound.beside numbered (Forest.proper_of_tops numbered.nodup_aside each)).perm
    (perm.append_right _)

/-- In a tidy pass, what was made stands apart, and nothing else is new. -/
theorem tidy {pass : Pass} (makes : Makes pass.document expansion made after)
    (proper : expansion.Proper) (tidy : pass.Tidy [] []) :
    ({ pass with document := after } : Pass).Tidy (made.sets.map Prod.snd) made.items ∧
      Step.Grown pass { pass with document := after } := by
  obtain ⟨more, eq, -⟩ := makes.beside
  have root : after.root = pass.document.root := by rw [eq]; rfl
  have old : ∀ id ∈ pass.document.forest.ids, after.find? id = pass.document.find? id := by
    intro id member
    rw [eq]
    exact find?_aside_old member
  refine ⟨⟨?_, ?_, tidy.names⟩, rfl, rfl, rfl, root, old⟩
  · show after.Sound (after.root :: _)
    rw [root]
    refine (makes.sound proper tidy.sound).perm ?_
    rw [List.perm_iff_count]
    intro other
    simp only [Made.ids, List.count_append, List.count_cons, List.count_nil]
    omega
  · intro id member
    show after.isKind Kind.isRule id = true
    rcases List.mem_append.mp member with registered | new
    · have registered : id ∈ pass.registry.ids := registered
      rw [isKind, kind?, item?, old id (tidy.sound.mem_ids (Step.mem_tops_of_registered registered))]
      exact tidy.rules id (List.mem_append_left _ registered)
    · obtain ⟨set, isSet, children, found, -⟩ := makes.exists_set new
      exact isKind_iff.mpr ⟨_, _, found, (proper.sets set isSet).rule⟩

end Makes

/-- Identities that were given out leave a pass tidy. -/
theorem Pass.Tidy.renumbered {pass : Pass} {sets items : List NodeId} {fresh : Nat}
    (tidy : pass.Tidy sets items) (numbered : Numbered { pass.document with fresh }) :
    ({ pass with document := { pass.document with fresh } } : Pass).Tidy sets items :=
  ⟨{ tidy.sound with given := numbered.given }, tidy.rules, tidy.names⟩

/-! ## Reading -/

namespace Step

variable {pass : Pass}

/-- A set's body is read node by node into one rule, or into nothing. -/
theorem reads_body (tidy : pass.Tidy [] []) (name text : String) (source : Option Location) :
    (∃ body set after, Body.parse text = .ok body ∧
      edit (Edit.plantBody name text source) pass = .ok (.ok set) after ∧ after.Tidy [set] []) ∨
    ∃ error after, Body.parse text = .error error ∧
      edit (Edit.plantBody name text source) pass = .ok (.error error) after ∧
        after.Tidy [] [] := by
  have numbered := tidy.sound.numbered
  cases parsed : Body.parse text with
  | ok body =>
      obtain ⟨set, children, fresh, ran, items, numberedAfter⟩ :=
        Edit.plantBody_ok name source numbered parsed
      have makes := (Makes.begin numbered).addSet numberedAfter name
      rw [items] at makes
      have proper : Expansion.Proper { sets := [SetRule.ofBody name source body] } := by
        refine ⟨fun other member => ?_, Forest.proper_nil⟩
        rw [List.mem_singleton.mp member]
        exact SetRule.proper_ofBody name source (proper_of_parse parsed)
      exact .inl ⟨body, set, _, rfl, edit_ok ran, (makes.tidy proper tidy).1⟩
  | error error =>
      obtain ⟨fresh, later, ran⟩ := Edit.plantBody_error name source numbered parsed
      have grown : Numbered { pass.document with fresh } :=
        ⟨numbered.nodup, fun id member => Nat.lt_trans (numbered.given id member) later⟩
      rw [aside_nil] at ran
      exact .inr ⟨error, _, rfl, edit_ok ran, tidy.renumbered grown⟩

/-- A definition's value is read node by node into what it expands to, or into nothing. -/
theorem reads_value (tidy : pass.Tidy [] []) (source : Option Location) (name value : String) :
    (∃ expansion made after, expand source name value = .ok expansion ∧
      edit (Edit.expand source name value) pass =
        .ok (.ok made) { pass with document := after } ∧
      Makes pass.document expansion made after ∧ expansion.Proper) ∨
    ∃ error after, expand source name value = .error error ∧
      edit (Edit.expand source name value) pass = .ok (.error error) after ∧
        after.Tidy [] [] := by
  have numbered := tidy.sound.numbered
  cases read : expand source name value with
  | ok expansion =>
      obtain ⟨made, after, ran, makes⟩ := Edit.expand_ok numbered read
      exact .inl ⟨expansion, made, after, rfl, edit_ok ran, makes, proper_expand read⟩
  | error error =>
      obtain ⟨fresh, ran, grown⟩ := Edit.expand_error numbered read
      exact .inr ⟨error, _, rfl, edit_ok ran, tidy.renumbered grown⟩

end Step

/-! ## Steps -/

namespace Maker

open Step

variable {pass : Pass} {id : NodeId}

/-- One set that the options give is registered or refused. -/
theorem keeps_registerOne (tidy : pass.Tidy [] []) (written text : String) :
    Keeps (byNode.registerOne written text) pass := by
  unfold registerOne
  refine .bind_of_ok get_ok ?_
  split
  · exact .pure tidy
  · cases setName? (writtenName (bareName written)) with
    | none =>
        have refused : (throw (.setName written) : Step Unit) pass = .error _ pass := rfl
        exact .of_error refused ⟨nofun, tidy⟩
    | some name =>
        simp only [Option.isNone_some]
        rcases reads_body tidy (bareName written) text none with
          ⟨body, set, planted, -, ran, tidy⟩ | ⟨error, after, -, ran, tidy⟩
        · obtain ⟨after, stored, done, -⟩ := tidy_store (bareName written) tidy
          exact .bind_of_ok ran (.of_ok stored done)
        · have refused : (throw (.predefinedSet (bareName written) error) : Step Unit) after =
              .error _ after := rfl
          exact .bind_of_ok ran (.of_error refused ⟨nofun, tidy⟩)

theorem keeps_registerPredefined (tidy : pass.Tidy [] []) :
    Keeps byNode.registerPredefined pass := by
  unfold registerPredefined
  exact .bind_of_ok get_ok (.forM tidy fun entry _ _ tidy => keeps_registerOne tidy entry.1 entry.2)

/-- A definition is taken out and what it brings finds its place, or it is only reported, or
left. -/
theorem tidy_collectDeclaration (tidy : pass.Tidy [] [])
    (attached : pass.document.isAttached id = true) :
    ∃ after, byNode.collectDeclaration id pass = .ok () after ∧ after.Tidy [] [] := by
  refine tidy_atDefinition tidy attached fun held name value source => ?_
  rcases reads_value tidy source name value with
    ⟨expansion, made, mid, -, ran, makes, proper⟩ | ⟨error, after, -, ran, tidy⟩
  · obtain ⟨apart, grown⟩ := makes.tidy proper tidy
    have moved := held.transfer grown.root (grown.found _ (Forest.mem_ids_of_find? held.under))
    obtain ⟨after, _, ranPlace, -, collected⟩ :=
      collected_giveWay apart moved makes.sets makes.items
    exact ⟨after, (bind_ok ran).trans ranPlace, collected.tidy⟩
  · exact ⟨_, (bind_ok ran).trans (warn_ok _ _), tidy.warned _⟩

theorem keeps_extractDeclarations (tidy : pass.Tidy [] []) :
    Keeps byNode.extractDeclarations pass := by
  obtain ⟨rootItem, below, rootFound, -⟩ := tidy.sound.root
  refine .bind_of_ok (underRoot_places rootFound Kind.isDeclaration) ?_
  exact keeps_forAttached _ (fun id pass tidy attached =>
    keeps_of_ok (tidy_collectDeclaration tidy attached)) tidy

/-- In a tidy pass, a reference gives way node by node as it does at once. -/
theorem substitute_byNode (tidy : pass.Tidy [] []) {set : NodeId} {item : Item}
    {children : Forest Node} (found : pass.document.find? id = some (item, children))
    (inside : id ∉ pass.document.root :: (pass.registry.ids ++ [] ++ []))
    (registered : set ∈ pass.registry.ids) :
    byNode.substitute id set pass = Step.substitute id set pass := by
  obtain ⟨after, ran, same⟩ := substitute_nodewise tidy found inside registered
  exact ran.trans same.symm

/-- A reference in the document is resolved, or reported, or left. -/
theorem tidy_resolve (tidy : pass.Tidy [] []) (id : NodeId) :
    ∃ after, byNode.resolve id pass = .ok () after ∧ after.Tidy [] [] := by
  refine tidy_atReference tidy id fun found inside registered => ?_
  obtain ⟨after, ran, done⟩ := tidy_substitute tidy found inside registered
  exact ⟨after, (substitute_byNode tidy found inside registered).trans ran, done⟩

/-! ### References inside sets -/

/-- From any point of the flattening, a call comes to the same as at once. -/
def Agrees (start : Pass) (waiting chain : List String) (name : String) : Prop :=
  ∀ flattened raised pass, Progress start chain flattened raised pass →
    byNode.flatten waiting chain name flattened pass =
      Step.flatten waiting chain name flattened pass

section Loop

variable {start before : Pass} {waiting chain flattened : List String} {name : String}
  {set : NodeId} {rule item : Item} {body : Forest Item} {forest children : Forest Node}
  {raised : List Warning} {target : Option String}

/-- One round of the loop over the references of a set comes to the same as at once. -/
theorem flattenOne_byNode
    (working : Working start before chain name set rule body flattened raised pass forest)
    (turn : Turn start waiting chain name)
    (agrees : ∀ other ∈ waiting, start.sets.Refers name other →
      Agrees start (waiting.erase other) (chain ++ [name]) other)
    (isFirst : ∀ more, ∃ changed, Forest.FirstReplaced id item children more forest changed)
    (refers : item.kind.reference? = some target) :
    byNode.flattenOne waiting (chain ++ [name]) flattened id pass =
      Step.flattenOne waiting (chain ++ [name]) flattened id pass := by
  obtain ⟨_, first⟩ := isFirst .nil
  obtain ⟨found, -⟩ := working.found_reference first refers
  obtain ⟨params, hasBlock, kind, rfl⟩ := Kind.reference?_eq_some refers
  have known : pass.document.kind? id = some (.atRule referenceRule params hasBlock) := by
    rw [kind?_of_find? found, kind]
  refine atNested_congr known fun target named waits => ?_
  rw [named] at refers
  have isName := ((turn.waits target).mp waits).1
  have among : target ∈ forest.items.targets := by
    obtain ⟨tail, eq, -⟩ := first.targets refers
    rw [eq]
    exact List.mem_cons_self
  have refersTo : start.sets.Refers name target := working.refers among
    (working.progress.origin.isSome_sets.mpr (Registry.lookup?_of_mem_names isName))
  -- What is brought is flattened first; the reference is still in its place then.
  obtain ⟨flattened', new, mid, ran, progress, -, grows, frame⟩ :=
    flattens (turn.next refersTo waits) flattened raised pass working.progress
  obtain ⟨found, inside⟩ := (working.resume progress grows frame).found_reference first refers
  obtain ⟨targetSet, lookup⟩ := Registry.lookup?_of_mem_names (progress.registry ▸ isName)
  have registered := Registry.mem_ids_of_lookup? lookup
  have ranNodes := (agrees target waits refersTo flattened raised pass working.progress).trans ran
  obtain ⟨after, ranCopy, -⟩ := tidy_substitute progress.tidy found inside registered
  have copied := (substitute_byNode progress.tidy found inside registered).trans ranCopy
  rw [bind_ok ranNodes, bind_ok ran, bind_ok get_ok, bind_ok get_ok, lookup]
  dsimp only
  rw [bind_ok copied, bind_ok ranCopy]

theorem foldlM_byNode_of_gone {ids : List NodeId}
    (gone : ∀ id ∈ ids, id ∉ pass.document.forest.ids) :
    ids.foldlM (byNode.flattenOne waiting chain) flattened pass = .ok flattened pass :=
  foldlM_atNested_of_gone waiting chain flattened ids _ gone

/-- The loop over the references of a set comes to the same as at once. -/
theorem loop_byNode (turn : Turn start waiting chain name)
    (agrees : ∀ other ∈ waiting, start.sets.Refers name other →
      Agrees start (waiting.erase other) (chain ++ [name]) other)
    (working : Working start before chain name set rule body flattened raised pass forest) :
    forest.references.foldlM (byNode.flattenOne waiting (chain ++ [name])) flattened pass =
      forest.references.foldlM (Step.flattenOne waiting (chain ++ [name])) flattened pass := by
  induction count : forest.references.length using Nat.strongRecOn
    generalizing forest flattened raised pass with
  | ind n ih =>
      by_cases plain : forest.items.Plain
      · rw [Forest.references_eq_nil.mpr plain]
        rfl
      · obtain ⟨id, item, children, target, refers, isFirst⟩ := Forest.exists_firstReplaced plain
        have same := flattenOne_byNode working turn agrees isFirst refers
        obtain ⟨flattened', new, more, changed, mid, ran, -, first, plainMore, left, gone⟩ :=
          working.flattenOne turn (fun other member refers => flattens (turn.next refers member))
            isFirst refers
        obtain ⟨tail, old, rest⟩ := first.references refers
        rw [Forest.references_eq_nil.mpr plainMore, List.nil_append] at rest
        have dead : ∀ other ∈ children.references, other ∉ mid.document.forest.ids := by
          intro other member
          refine gone other (List.mem_cons_of_mem _ ?_)
          exact (List.filter_sublist.map Node.id).subset member
        have fewer : changed.references.length < n := by
          rw [← count, old, rest]
          simp only [List.length_cons, List.length_append]
          omega
        rw [old, List.foldlM_cons, List.foldlM_cons, bind_ok (same.trans ran), bind_ok ran,
          List.foldlM_append, List.foldlM_append, bind_ok (foldlM_byNode_of_gone dead),
          bind_ok (foldlM_flattenOne_of_gone _ _ _ _ dead), ← rest]
        exact ih _ fewer left rfl

/-- A call of `flatten`, by recursion on the number of names that wait. -/
theorem agrees (turn : Turn start waiting chain name) : Agrees start waiting chain name := by
  induction count : waiting.length using Nat.strongRecOn generalizing waiting chain name with
  | ind n ih =>
      intro flattened raised pass progress
      rw [flatten_eq, Step.flatten_eq]
      by_cases done : name ∈ flattened
      · rw [if_pos done, if_pos done]
      · obtain ⟨set, known⟩ := Registry.lookup?_of_mem_names (turn.known name (by simp))
        have lookup : pass.registry.lookup? name = some set := progress.registry ▸ known
        obtain ⟨rule, forest, found⟩ := progress.tidy.exists_set lookup
        have asked : pass.document.select? (Kind.isAtRule referenceRule) set =
            some forest.references := by
          rw [select?, below?, found]
          rfl
        have inner : ∀ other ∈ waiting, start.sets.Refers name other →
            Agrees start (waiting.erase other) (chain ++ [name]) other := by
          intro other member refers
          refine ih _ ?_ (turn.next refers member) rfl
          rw [← count, List.length_erase_of_mem member]
          have := List.length_pos_of_mem member
          omega
        have working := working_begin progress turn.fresh done known found
        obtain ⟨flattened', new, final, after, ran, -⟩ :=
          working.loop turn fun other member refers => flattens (turn.next refers member)
        have ranNodes := (loop_byNode turn inner working).trans ran
        rw [if_neg done, if_neg done, bind_ok get_ok, bind_ok get_ok, lookup]
        simp only
        rw [bind_ok (ask_ok asked), bind_ok (ask_ok asked), bind_ok ranNodes, bind_ok ran]

end Loop

/-- The loop over the names, from any point of it. -/
theorem foldlM_byNode {start : Pass} {flattened : List String} {raised : List Warning}
    (tidy : start.Tidy [] []) (names : List String) (known : names ⊆ start.registry.names)
    (progress : Progress start [] flattened raised pass) :
    names.foldlM (fun flattened name =>
        byNode.flatten (start.registry.names.erase name) [] name flattened) flattened pass =
      names.foldlM (fun flattened name =>
        Step.flatten (start.registry.names.erase name) [] name flattened) flattened pass := by
  induction names generalizing flattened raised pass with
  | nil => rfl
  | cons name rest ih =>
      obtain ⟨isName, areNames⟩ := List.cons_subset.mp known
      have turn := turn_start tidy isName
      obtain ⟨flattened', more, mid, ran, reached, -⟩ := flattens turn flattened raised pass progress
      have ranNodes := (agrees turn flattened raised pass progress).trans ran
      rw [List.foldlM_cons, List.foldlM_cons, bind_ok ranNodes, bind_ok ran]
      exact ih areNames reached

/-- In a tidy pass, references between sets are resolved node by node as they are at once. -/
theorem resolveNested_byNode (tidy : pass.Tidy [] []) :
    byNode.resolveNested pass = Step.resolveNested pass := by
  obtain ⟨flattened, raised, after, ran, -⟩ :=
    progress_foldlM tidy _ (List.Subset.refl _) (progress_start tidy)
  have ranNodes := (foldlM_byNode tidy _ (List.Subset.refl _) (progress_start tidy)).trans ran
  unfold resolveNested Step.resolveNested
  rw [bind_ok get_ok, bind_ok get_ok, bind_ok ranNodes, bind_ok ran]

/-! ### Whole steps -/

theorem keeps_resolveNested (tidy : pass.Tidy [] []) : Keeps byNode.resolveNested pass := by
  unfold Keeps Outcome
  rw [resolveNested_byNode tidy]
  exact Step.keeps_resolveNested tidy

theorem keeps_prepare (tidy : pass.Tidy [] []) : Keeps byNode.prepare pass := by
  refine (keeps_registerPredefined tidy).bind fun _ _ tidy => ?_
  refine (keeps_extractDeclarations tidy).bind fun _ _ tidy => ?_
  exact (keeps_extractRules tidy).bind fun _ _ tidy => keeps_resolveNested tidy

theorem keeps_run (tidy : pass.Tidy [] []) : Keeps byNode.run pass := by
  refine (keeps_prepare tidy).bind fun _ pass tidy => ?_
  obtain ⟨rootItem, below, rootFound, -⟩ := tidy.sound.root
  refine .bind_of_ok (underRoot_places rootFound (Kind.isAtRule referenceRule)) ?_
  exact keeps_forAttached _ (fun id pass tidy _ => keeps_of_ok (tidy_resolve tidy id)) tidy

/-- What one operation keeps. -/
theorem keeps (operation : Operation) (tidy : pass.Tidy [] []) :
    Keeps (byNode.step operation) pass := by
  cases operation with
  | registerPredefined => exact keeps_registerPredefined tidy
  | extractDeclarations => exact keeps_extractDeclarations tidy
  | extractRules => exact keeps_extractRules tidy
  | resolveNested => exact keeps_resolveNested tidy
  | prepare => exact keeps_prepare tidy
  | run => exact keeps_run tidy
  | resolve id => exact keeps_of_ok (tidy_resolve tidy id)

theorem tidy_operate (operations : List Operation) (tidy : pass.Tidy [] []) :
    (byNode.operate pass operations).Tidy [] [] := by
  induction operations generalizing pass with
  | nil => exact tidy
  | cons operation rest ih => exact ih (keeps operation tidy).tidy_left

end Maker

/-! ## The results -/

/-- Where a text or a definition's value is read node by node, the trees of the rules and items
that are answered are all that is new in a document; where it cannot be read, nothing is. -/
structure Document.ReadsClean (document : Document) : Prop where
  body : ∀ {name text : String} {source : Option Location} {body : Body},
    Body.parse text = .ok body → ∃ set children fresh,
      Edit.plantBody name text source document = .ok (.ok set)
        (document.aside (.tree ⟨set, (SetRule.ofBody name source body).item⟩ children) fresh) ∧
      children.items = body.items ∧
      (document.aside (.tree ⟨set, (SetRule.ofBody name source body).item⟩ children)
        fresh).Numbered
  noBody : ∀ {name text : String} {source : Option Location} {error : ParseError},
    Body.parse text = .error error → ∃ fresh,
      Edit.plantBody name text source document = .ok (.error error) { document with fresh }
  value : ∀ {source : Option Location} {name value : String} {expansion : Expansion},
    expand source name value = .ok expansion → ∃ made after,
      Edit.expand source name value document = .ok (.ok made) after ∧
      Makes document expansion made after
  noValue : ∀ {source : Option Location} {name value : String} {error : ParseError},
    expand source name value = .error error → ∃ fresh,
      Edit.expand source name value document = .ok (.error error) { document with fresh }

theorem Document.Numbered.readsClean {document : Document} (numbered : document.Numbered) :
    document.ReadsClean where
  body parsed := Edit.plantBody_ok _ _ numbered parsed
  noBody failed := by
    obtain ⟨fresh, -, ran⟩ := Edit.plantBody_error _ _ numbered failed
    exact ⟨fresh, ran.trans (by rw [aside_nil])⟩
  value read := Edit.expand_ok numbered read
  noValue failed := by
    obtain ⟨fresh, ran, -⟩ := Edit.expand_error numbered failed
    exact ⟨fresh, ran⟩

/-- **No node is lost.**  After any operations on the pass of a parsed stylesheet,
whether they succeed or are refused, every node is in the tree of the root or of
one registered set.  That is so where the steps plant whole trees and where they make
all trees node by node: no fragment, nothing that was made of a definition that cannot be
read, no copy and no replaced set stays behind.

In every pass that can be reached, a text or a definition's value that is read node by node
leaves the trees that are answered and no other node, and only identities are given out if
it cannot be read; and where a reference gives way to a set node by node, what is left is
the same as at once. -/
theorem partitioned_operate {css : String} {document : Document}
    (parsed : Document.parse css = .ok document) (options : Options)
    (operations : List Operation) :
    (Pass.operate { document, options } operations).Partitioned ∧
      (Maker.byNode.operate { document, options } operations).Partitioned ∧
      ∀ pass, Pass.Reached { document, options } pass →
        pass.document.ReadsClean ∧ Step.Nodewise pass := by
  have tidy := Pass.tidy_of_parse parsed options
  refine ⟨(Pass.tidy_operate operations tidy).partitioned,
    (Maker.tidy_operate operations tidy).partitioned, fun pass reached => ?_⟩
  have reachedTidy := reached.tidy tidy
  exact ⟨reachedTidy.sound.numbered.readsClean, Step.nodewise_of_tidy reachedTidy⟩

/-- The pole of `partitioned_operate`: the run is refused at `--t`, when `--s` is
registered already, and what follows finds a set with a rule after it, a set that refers
back to it, and a definition that is read before the one after its block cannot be.  Of the
26 nodes that come up, 10 are left. -/
theorem partitioned_operate_refused :
    ∃ document after,
      Document.parse (":root\x7b--a:\x7b@apply --b;c:d\x7d p\x7bq:r\x7d;" ++
        "--b:\x7b@apply --a\x7d;--c:\x7bx:y\x7d --d:\x7bz\x7d\x7d") = .ok document ∧
      Maker.byNode.operate
        { document, options := { sets := ⟨[("s", "e:f"), ("t", "\x7d")]⟩ } }
        [.run, .extractDeclarations, .resolveNested, .resolve ⟨99⟩] = after ∧
      after.registry.names = ["s", "a", "b"] ∧ after.document.fresh = 27 ∧
      after.document.forest.ids.length = 10 ∧ after.Partitioned := by
  obtain ⟨document, parsed, computed⟩ := exists_ok_of_any
    (Document.parse (":root\x7b--a:\x7b@apply --b;c:d\x7d p\x7bq:r\x7d;" ++
      "--b:\x7b@apply --a\x7d;--c:\x7bx:y\x7d --d:\x7bz\x7d\x7d"))
    (fun document =>
      let after := Maker.byNode.operate
        { document, options := { sets := ⟨[("s", "e:f"), ("t", "\x7d")]⟩ } }
        [.run, .extractDeclarations, .resolveNested, .resolve ⟨99⟩]
      decide (after.registry.names = ["s", "a", "b"] ∧ after.document.fresh = 27 ∧
        after.document.forest.ids.length = 10)) (by decide +kernel)
  obtain ⟨names, fresh, live⟩ := of_decide_eq_true computed
  exact ⟨document, _, parsed, rfl, names, fresh, live, (partitioned_operate parsed _ _).2.1⟩

end ApplyRule
