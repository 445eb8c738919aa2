/-
# ApplyRule.Proofs.TextAfter -- what is written after the block of a definition

The text after a block is part of a definition's value.  When the definition is taken out,
the items of that text take its place in the scope, except those that the scope has already:
those that agree with one of its children (`Document.keeps`).

The definition is still one of these children then.  So an item that agrees with it, a
declaration of its own property, is left out although the definition goes, and it is lost
unless another child agrees with it, too.  No other item is lost (`collect_keeps`): the
comment before a definition and a scope that is left empty take nothing with them.
-/
import ApplyRule.Proofs.Brought
import ApplyRule.Proofs.Reached

namespace ApplyRule

set_option autoImplicit false

open Document Text

/-! ## Items that agree -/

namespace Kind

theorem agrees_self {kind : Kind} (notRoot : kind.isRoot = false) : kind.agrees kind = true := by
  cases kind with
  | root => cases notRoot
  | _ => simp [agrees]

/-- Whatever agree with one item agree. -/
theorem agrees_of_both {first second third : Kind} (one : first.agrees second = true)
    (other : third.agrees second = true) : first.agrees third = true := by
  cases second <;> cases first <;> cases third <;> simp_all [agrees]

theorem isComment_of_agrees {first second : Kind} (agrees : first.agrees second = true) :
    first.isComment = second.isComment := by
  cases first <;> cases second <;> first | rfl | cases agrees

end Kind

namespace Forest

/-- Of the children before a definition only a comment can go. -/
theorem mem_roots_uncommented {front : Forest Node} {node : Node} :
    (node ∈ front.uncommented.roots → node ∈ front.roots) ∧
      (node ∈ front.roots → node.item.kind.isComment = false → node ∈ front.uncommented.roots) := by
  rcases front.eq_nil_or_append_tree with rfl | ⟨others, last, inner, rfl⟩
  · exact ⟨id, fun member _ => member⟩
  · rw [uncommented_append_tree]
    split
    · rename_i comment
      rw [roots_append, List.mem_append]
      refine ⟨.inl, fun member plain => member.resolve_right fun isLast => ?_⟩
      rw [List.mem_singleton.mp isLast, comment] at plain
      cases plain
    · exact ⟨id, fun member _ => member⟩

/-- Each of the items that are put into a scope agrees with something that is there in the
end. -/
theorem exists_agrees_unmatched (items : Forest Item) (present : List Kind) {item : Item}
    (member : item ∈ items.roots) (notRoot : item.kind.isRoot = false) :
    (∃ kind ∈ present, kind.agrees item.kind = true) ∨
      ∃ new ∈ (items.unmatched present).roots, new.kind.agrees item.kind = true := by
  induction items generalizing present with
  | nil => cases member
  | cons first children rest _ ih =>
      rw [unmatched]
      rcases List.mem_cons.mp member with rfl | later
      · split
        · rename_i matched
          exact .inl (List.any_eq_true.mp matched)
        · exact .inr ⟨item, List.mem_cons_self, Kind.agrees_self notRoot⟩
      · split
        · exact ih present later
        · rcases ih (first.kind :: present) later with ⟨kind, among, agrees⟩ | ⟨new, among, agrees⟩
          · rcases List.mem_cons.mp among with rfl | old
            · exact .inr ⟨first, List.mem_cons_self, agrees⟩
            · exact .inl ⟨kind, old, agrees⟩
          · exact .inr ⟨new, List.mem_cons_of_mem _ among, agrees⟩

/-- None of the items that are put into a scope agrees with what is there before. -/
theorem not_agrees_of_unmatched (items : Forest Item) (present : List Kind) {new : Item}
    (member : new ∈ (items.unmatched present).roots) :
    ∀ kind ∈ present, kind.agrees new.kind = false := by
  induction items generalizing present with
  | nil => cases member
  | cons first children rest _ ih =>
      rw [unmatched] at member
      split at member
      · exact ih present member
      · rename_i unmatched_
        rcases List.mem_cons.mp member with rfl | later
        · intro kind among
          by_contra agrees
          exact unmatched_ (List.any_eq_true.mpr ⟨kind, among, by simpa using agrees⟩)
        · exact fun kind among => ih _ later kind (List.mem_cons_of_mem _ among)

/-- What stands for an item after its definition has given way: anything, or, where the
definition itself agrees with the item, another child of the scope. -/
theorem any_agrees_iff {front inner back more : Forest Node} {id : NodeId} {item wanted : Item}
    {items : Forest Item} (nodup : (front ++ .cons ⟨id, item⟩ inner back).ids.Nodup)
    (new : more.items = items.unmatched (front.uncommented ++ .cons ⟨id, item⟩ inner back).kinds)
    (plain : item.kind.isComment = false) (member : wanted ∈ items.roots)
    (notRoot : wanted.kind.isRoot = false) :
    (front.uncommented ++ (more ++ back)).kinds.any (·.agrees wanted.kind) = true ↔
      (item.kind.agrees wanted.kind = true →
        ∃ sibling ∈ (front ++ .cons ⟨id, item⟩ inner back).roots, sibling.id ≠ id ∧
          sibling.item.kind.agrees wanted.kind = true) := by
  have outsideFront : ∀ node ∈ front.roots, node.id ≠ id := fun node inside eq =>
    not_mem_front nodup (eq ▸ mem_ids_of_mem_tops (List.mem_map_of_mem inside))
  have outsideBack : ∀ node ∈ back.roots, node.id ≠ id := by
    rw [ids_append] at nodup
    have apart : id ∉ back.ids := (nodup_parts (List.nodup_append'.mp nodup).2.1).1.2
    exact fun node inside eq => apart (eq ▸ mem_ids_of_mem_tops (List.mem_map_of_mem inside))
  have newRoots : ∀ other, other ∈ more.kinds ↔ ∃ one ∈ (items.unmatched
      (front.uncommented ++ .cons ⟨id, item⟩ inner back).kinds).roots, one.kind = other := by
    intro other
    rw [← new, kinds, Forest.items, roots_map, List.mem_map]
    simp
  rw [List.any_eq_true]
  simp only [kinds_append, List.mem_append, roots_append, roots, List.mem_cons]
  constructor
  · rintro ⟨kind, inFront | isNew | inBack, agrees⟩ own
    · obtain ⟨node, inside, rfl⟩ := List.mem_map.mp inFront
      have inside := mem_roots_uncommented.1 inside
      exact ⟨node, .inl inside, outsideFront node inside, agrees⟩
    · -- A new item agrees with no child, so not with the definition.
      obtain ⟨one, inside, rfl⟩ := (newRoots kind).mp isNew
      have apart := not_agrees_of_unmatched _ _ inside item.kind (by simp)
      rw [Kind.agrees_of_both own agrees] at apart
      cases apart
    · obtain ⟨node, inside, rfl⟩ := List.mem_map.mp inBack
      exact ⟨node, .inr (.inr inside), outsideBack node inside, agrees⟩
  · intro excused
    rcases exists_agrees_unmatched items
      (front.uncommented ++ .cons ⟨id, item⟩ inner back).kinds member notRoot with
      ⟨kind, present, agrees⟩ | ⟨one, inside, agrees⟩
    · simp only [kinds_append, kinds_cons, List.mem_append, List.mem_cons] at present
      rcases present with inFront | rfl | inBack
      · exact ⟨kind, .inl inFront, agrees⟩
      · obtain ⟨sibling, inFront | rfl | inBack, other, same⟩ := excused agrees
        · have written : sibling.item.kind.isComment = false := by
            rw [Kind.isComment_of_agrees same, ← Kind.isComment_of_agrees agrees, plain]
          exact ⟨_, .inl (List.mem_map_of_mem (mem_roots_uncommented.2 inFront written)), same⟩
        · exact absurd rfl other
        · exact ⟨_, .inr (.inr (List.mem_map_of_mem inBack)), same⟩
      · exact ⟨kind, .inr (.inr inBack), agrees⟩
    · exact ⟨one.kind, .inr (.inl ((newRoots _).mpr ⟨one, inside, rfl⟩)), agrees⟩

end Forest

/-- Whether the rule `scope` is under the root and has a child that is the same to it as an
item of the kind. -/
def Document.keeps (document : Document) (scope : NodeId) (kind : Kind) : Bool :=
  document.isAttached scope && (document.find? scope).any fun (_, children) =>
    children.roots.any fun child => child.item.kind.agrees kind

/-- A scope in order has a child that agrees if one of its new children does. -/
theorem Document.keeps_settled {document : Document} {tops : List NodeId} {scope : NodeId}
    {rootItem rule : Item} {below old children : Forest Node} (sound : document.Sound tops)
    (under : document.find? document.root =
      some (rootItem, Forest.settled scope rule children below))
    (nodup : below.ids.Nodup) (found : below.find? scope = some (rule, old))
    (notRoot : scope ≠ document.root) (kind : Kind) :
    document.keeps scope kind = children.kinds.any (·.agrees kind) := by
  have attached : document.isAttached scope = true ↔ scope = document.root ∨
      scope ∈ (Forest.settled scope rule children below).ids := sound.isAttached_iff under
  rw [Forest.settled] at under attached
  cases last : children.roots.getLast? with
  | none =>
      -- The scope is gone, and nothing was in it.
      rw [last] at attached
      have gone : document.isAttached scope = false := by
        refine Bool.eq_false_iff.mpr fun there => ?_
        have within := (attached.mp there).resolve_left notRoot
        rw [Forest.ids_without, Forest.mem_ids_replace nodup found] at within
        rcases within with new | ⟨-, outside⟩
        · cases new
        · exact outside List.mem_cons_self
      rw [keeps, gone, Forest.kinds, List.getLast?_eq_none_iff.mp last]
      rfl
  | some node =>
      rw [last] at attached under
      have inside := Forest.find?_replace_self (Forest.closed node.item rule) children
        (Forest.mem_ids_of_find? found)
      have within := Forest.mem_ids_of_find? inside
      have stands : document.find? scope = some (Forest.closed node.item rule, children) :=
        (Forest.find?_eq_find? sound.nodup under within).trans inside
      rw [keeps, attached.mpr (.inr within), stands, Forest.kinds, List.any_map]
      rfl

namespace Step

variable {pass : Pass} {scope id : NodeId} {item : Item} {name value : String}
  {expansion : Expansion}

/-- **One definition under the root.**  It gives way to the items of its expansion that its
scope does not have, and the scope is put in order. -/
theorem collect_definition (tidy : pass.Tidy [] [])
    (defines : pass.document.DefinesIn scope id item name value)
    (attached : pass.document.isAttached id = true)
    (read : expand item.source name value = .ok expansion) :
    ∃ after rule front inner back more, collectDeclaration id pass = .ok () after ∧
      pass.document.find? scope = some (rule, front ++ .cons ⟨id, item⟩ inner back) ∧
      more.items =
        expansion.items.unmatched (front.uncommented ++ .cons ⟨id, item⟩ inner back).kinds ∧
      ∀ kind, after.document.keeps scope kind =
        (front.uncommented ++ (more ++ back)).kinds.any (·.agrees kind) := by
  obtain ⟨rootItem, below, rootFound, -⟩ := tidy.sound.root
  obtain ⟨place, member, rfl, accepted, kind, source⟩ :=
    defines.exists_place tidy.sound rootFound attached
  have expands : place.expansion? = some expansion := by
    rw [Place.expansion?, kind, defines.definition, source]
    simp only [if_pos accepted, read]
    rfl
  obtain ⟨left, stored, raised, after, ran, declared, collected⟩ :=
    collect_declaration tidy rootFound member
  cases declared with
  | idle _ unread => cases unread.symm.trans expands
  | dropped top =>
      -- A scope is no root.
      cases top.symm.trans accepted
  | @taken _ holder rule own front inner back more isRead found isScope new =>
      cases isRead.symm.trans expands
      have nodup := (Forest.nodup_below tidy.sound.nodup rootFound).2
      have within := Forest.mem_ids_of_find? found
      have inDocument : pass.document.find? holder =
          some (rule, front ++ .cons ⟨place.id, own⟩ inner back) :=
        (Forest.find?_eq_find? tidy.sound.nodup rootFound within).trans found
      have above : pass.document.parent? place.id = some (some holder) :=
        tidy.sound.parent?_child inDocument (by simp)
      cases above.symm.trans defines.parent
      have itself := (Forest.find?_eq_find? tidy.sound.nodup inDocument (by simp)).trans
        (Forest.find?_split (Forest.nodup_below tidy.sound.nodup inDocument).2)
      cases (item?_of_find? itself).symm.trans defines.found
      have notRoot : scope ≠ after.document.root := by
        rw [collected.root]
        exact fun eq => (Forest.nodup_below tidy.sound.nodup rootFound).1 (eq ▸ within)
      exact ⟨after, rule, front, inner, back, more, ran, inDocument, new, fun kind =>
        keeps_settled collected.tidy.sound collected.under nodup found notRoot kind⟩

end Step

/-- **Text after a block is kept, but for the definition's own property.**  In every pass that
can be reached, taking out a definition that is accepted and can be read leaves its scope with
a child that agrees with each item after a block in its value that defines no set -- unless
the item agrees with the definition itself, and with no other child of the scope. -/
theorem collect_keeps {css : String} {document : Document} {options : Options} {pass : Pass}
    {scope id : NodeId} {item : Item} {name value : String} {expansion : Expansion}
    (parsed : Document.parse css = .ok document)
    (reached : Pass.Reached { document, options } pass)
    (defines : pass.document.DefinesIn scope id item name value)
    (attached : pass.document.isAttached id = true)
    (read : expand item.source name value = .ok expansion) :
    ∃ after, Step.collectDeclaration id pass = .ok () after ∧
      ∀ held split body n, Brings value held → split? .curly held.toList = some split →
        Body.parse (String.ofList split.after) = .ok body → n ∈ body.items.roots →
        n.kind.definition? = none →
        (after.document.keeps scope n.kind = true ↔ (item.kind.agrees n.kind = true →
          ∃ rule children sibling, pass.document.find? scope = some (rule, children) ∧
            sibling ∈ children.roots ∧ sibling.id ≠ id ∧
            sibling.item.kind.agrees n.kind = true)) := by
  have tidy := reached.tidy (Pass.tidy_of_parse parsed options)
  obtain ⟨after, rule, front, inner, back, more, ran, found, new, keeps⟩ :=
    Step.collect_definition tidy defines attached read
  refine ⟨after, ran, fun held split body n brought cut parsed' member plain => ?_⟩
  obtain ⟨_, _, items, cut', -, trails, among⟩ := expand_brought read brought
  cases cut.symm.trans cut'
  cases trails.symm.trans (trailing?_of_parse parsed')
  have notRoot : n.kind.isRoot = false :=
    (proper_of_parse parsed').rootless n (Forest.roots_sublist _ |>.subset member)
  obtain ⟨property, isDeclaration⟩ := Kind.eq_declaration defines.definition
  have nodup := (Forest.nodup_below tidy.sound.nodup found).2
  rw [keeps, show n.kind = (n.stamp item.source).kind from rfl,
    Forest.any_agrees_iff nodup new (by rw [isDeclaration]; rfl) (among n member plain) notRoot]
  refine imp_congr_right fun _ => ⟨?_, ?_⟩
  · rintro ⟨sibling, inside, other, same⟩
    exact ⟨rule, _, sibling, found, inside, other, same⟩
  · rintro ⟨_, _, sibling, found', inside, other, same⟩
    cases found.symm.trans found'
    exact ⟨sibling, inside, other, same⟩

/-- The pole of `collect_keeps`: a rule after the block comes into the scope. -/
theorem collect_keeps_rule :
    ∃ document expansion after, ∃ n : Item,
      Document.parse ":root\x7b--a:\x7bx:y\x7dp\x7bq:r\x7d--a:red\x7d" = .ok document ∧
      document.DefinesIn ⟨2⟩ ⟨3⟩ ⟨.declaration "--a" "\x7bx:y\x7dp\x7bq:r\x7d--a:red",
        { between := ":" }, some ⟨1, 7⟩⟩ "a" "\x7bx:y\x7dp\x7bq:r\x7d--a:red" ∧
      document.isAttached ⟨3⟩ = true ∧
      expand (some ⟨1, 7⟩) "a" "\x7bx:y\x7dp\x7bq:r\x7d--a:red" = .ok expansion ∧
      Step.collectDeclaration ⟨3⟩ { document, options := {} } = .ok () after ∧
      n.kind = .rule "p" ∧ after.document.keeps ⟨2⟩ n.kind = true := by
  obtain ⟨document, parsed, holds⟩ := exists_ok_of_any
    (Document.parse ":root\x7b--a:\x7bx:y\x7dp\x7bq:r\x7d--a:red\x7d")
    (fun document => decide (document.DefinesIn ⟨2⟩ ⟨3⟩
      ⟨.declaration "--a" "\x7bx:y\x7dp\x7bq:r\x7d--a:red", { between := ":" }, some ⟨1, 7⟩⟩ "a"
        "\x7bx:y\x7dp\x7bq:r\x7d--a:red") && document.isAttached ⟨3⟩)
    (by decide +kernel)
  obtain ⟨defines, attached⟩ := Bool.and_eq_true_iff.mp holds
  obtain ⟨expansion, read, -⟩ := exists_ok_of_any
    (expand (some ⟨1, 7⟩) "a" "\x7bx:y\x7dp\x7bq:r\x7d--a:red") (fun _ => true) (by decide +kernel)
  obtain ⟨body, parsedAfter, first⟩ := exists_ok_of_any
    (Body.parse (String.ofList "p\x7bq:r\x7d--a:red".toList))
    (fun body => body.items.roots.head?.any fun n => n.kind = .rule "p") (by decide +kernel)
  obtain ⟨n, isHead, isRule⟩ := (Option.any_eq_true ..).mp first
  have isRule := of_decide_eq_true isRule
  have cut : split? .curly "\x7bx:y\x7dp\x7bq:r\x7d--a:red".toList =
      some ⟨[], "x:y".toList, "p\x7bq:r\x7d--a:red".toList⟩ := by decide +kernel
  obtain ⟨after, ran, kept⟩ :=
    collect_keeps parsed .start (of_decide_eq_true defines) attached read
  have same := kept _ _ body n .own cut parsedAfter (List.mem_of_head? isHead) (by rw [isRule]; rfl)
  refine ⟨document, expansion, after, n, parsed, of_decide_eq_true defines, attached, read, ran,
    isRule, same.mpr fun own => ?_⟩
  rw [isRule] at own
  cases own

/-- A declaration of the definition's own property after the block is lost, and with it the
scope. -/
theorem collect_keeps_not_own :
    ∃ document expansion after body, ∃ n : Item,
      Document.parse ":root\x7b--a:\x7bx:y\x7d --a:red\x7d.t\x7bc:d\x7d" = .ok document ∧
      document.DefinesIn ⟨2⟩ ⟨3⟩ ⟨.declaration "--a" "\x7bx:y\x7d --a:red", { between := ":" },
        some ⟨1, 7⟩⟩ "a" "\x7bx:y\x7d --a:red" ∧
      document.isAttached ⟨3⟩ = true ∧
      expand (some ⟨1, 7⟩) "a" "\x7bx:y\x7d --a:red" = .ok expansion ∧
      Step.collectDeclaration ⟨3⟩ { document, options := {} } = .ok () after ∧
      split? .curly "\x7bx:y\x7d --a:red".toList =
        some ⟨[], "x:y".toList, " --a:red".toList⟩ ∧
      Body.parse " --a:red" = .ok body ∧ n ∈ body.items.roots ∧
      n.kind = .declaration "--a" "red" ∧ n.kind.definition? = none ∧
      after.document.keeps ⟨2⟩ n.kind = false ∧ after.document.css = ".t\x7bc:d\x7d" := by
  obtain ⟨document, parsed, holds⟩ := exists_ok_of_any
    (Document.parse ":root\x7b--a:\x7bx:y\x7d --a:red\x7d.t\x7bc:d\x7d")
    (fun document => decide (document.DefinesIn ⟨2⟩ ⟨3⟩
      ⟨.declaration "--a" "\x7bx:y\x7d --a:red", { between := ":" }, some ⟨1, 7⟩⟩ "a"
        "\x7bx:y\x7d --a:red" ∧ document.isAttached ⟨3⟩ = true) &&
      (Step.collectDeclaration ⟨3⟩).leads (fun after => decide (
        after.document.keeps ⟨2⟩ (.declaration "--a" "red") = false ∧
          after.document.css = ".t\x7bc:d\x7d")) { document, options := {} })
    (by decide +kernel)
  obtain ⟨stands, runs⟩ := Bool.and_eq_true_iff.mp holds
  obtain ⟨defines, attached⟩ := of_decide_eq_true stands
  obtain ⟨after, ran, lost⟩ := Step.exists_of_leads runs
  obtain ⟨lost, printed⟩ := of_decide_eq_true lost
  obtain ⟨expansion, read, -⟩ := exists_ok_of_any
    (expand (some ⟨1, 7⟩) "a" "\x7bx:y\x7d --a:red") (fun _ => true) (by decide +kernel)
  obtain ⟨body, parsedAfter, first⟩ := exists_ok_of_any (Body.parse " --a:red")
    (fun body => body.items.roots.head?.any fun n => n.kind = .declaration "--a" "red")
    (by decide +kernel)
  obtain ⟨n, isHead, own⟩ := (Option.any_eq_true ..).mp first
  have own := of_decide_eq_true own
  exact ⟨document, expansion, after, body, n, parsed, defines, attached, read, ran,
    by decide +kernel, parsedAfter, List.mem_of_head? isHead, own, by rw [own]; decide +kernel,
    own ▸ lost, printed⟩

end ApplyRule
