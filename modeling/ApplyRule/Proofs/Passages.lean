/-
# ApplyRule.Proofs.Passages -- an item is printed where it was read

A `Passage` is an item with its own text and with all that the printer has written when it
comes to it; `Forest.passages` lists the passages of a forest in document order.  Inside a
container the children come after its opening (`Item.opening`).

A parsed document and its text agree up to what the end of the text leaves open, so what
is written before an item is the front of the text.  The item's source is the line and the
column where that front ends, and of two items the later one has the later source
(`sources_of_parse`).

The parts of a text are put together with `Located`: the passages of a part, read where
another part ends, are read in both.
-/
import ApplyRule.Proofs.LineBreaks
import ApplyRule.Proofs.PrintBack
import ApplyRule.Proofs.ProperItems

namespace ApplyRule

set_option autoImplicit false

open Text Component

/-! ## What is printed before an item -/

/-- The text of a container that holds others, up to the first of them. -/
def Item.opening (item : Item) : String :=
  match item.kind with
  | .rule selector => selector ++ item.raws.between ++ "\x7b"
  | .atRule name params _ =>
      "@" ++ name ++ (if params.isEmpty then "" else item.raws.afterName ++ params) ++
        item.raws.between ++ "\x7b"
  | _ => ""

/-- An item in a printed text: what is written before it, and what it is written as. -/
structure Passage where
  item : Item
  front : List Char
  text : List Char

/-- The passages of a forest that is printed after `front`, in document order. -/
def Forest.passages (terminated : Bool) (front : List Char) : Forest Item → List Passage
  | .nil => []
  | .cons item children rest =>
      let here := front ++ item.raws.before.toList
      let text := (item.print (rest.hasStatement || terminated)
        (children.print item.raws.semicolon)).toList
      ⟨item, here, text⟩ ::
        (children.passages item.raws.semicolon (here ++ item.opening.toList) ++
          rest.passages terminated (here ++ text))

/-- The passages of the tree under the root. -/
def Document.passages (document : Document) : List Passage :=
  ((document.find? document.root).map fun (item, children) =>
    children.items.passages item.raws.semicolon item.opening.toList).getD []

/-- A container's text is its opening, what it holds, and its end. -/
theorem Item.print_container {item : Item} (container : item.kind.isContainer = true) :
    ∃ back : String, ∀ (flag : Bool) (body : String),
      item.print flag body = item.opening ++ body ++ back := by
  obtain ⟨kind, raws, source⟩ := item
  cases kind with
  | root => exact ⟨raws.after, fun _ body => by simp [print, opening]⟩
  | rule selector =>
      refine ⟨raws.after ++ "\x7d" ++ raws.ownSemicolon.getD "", fun _ body => ?_⟩
      simp only [print, opening, Raws.block, String.append_assoc]
  | atRule name params hasBlock =>
      cases container
      refine ⟨raws.after ++ "\x7d", fun _ body => ?_⟩
      simp only [print, opening, Raws.block, if_true, String.append_assoc]
  | declaration property value => cases container
  | comment text => cases container

namespace Forest

theorem map_item_passages (items : Forest Item) (terminated : Bool) (front : List Char) :
    (items.passages terminated front).map Passage.item = items.labels := by
  induction items generalizing terminated front with
  | nil => rfl
  | cons item children rest ihc ihr => simp [passages, labels, ihc, ihr]

/-- **A passage is where it says** in the printed text: what is before it ends with the text
between it and the item before. -/
theorem passage_printed {items : Forest Item} (housed : items.Housed) (terminated : Bool)
    (front : List Char) {passage : Passage} (member : passage ∈ items.passages terminated front) :
    passage.item.raws.before.toList <:+ passage.front ∧
      ∃ back, front ++ (items.print terminated).toList =
        passage.front ++ passage.text ++ back := by
  induction items generalizing terminated front with
  | nil => cases member
  | cons item children rest ihc ihr =>
      obtain ⟨holds, inside, later⟩ := housed
      rcases List.mem_cons.mp member with rfl | among
      · exact ⟨List.suffix_append _ _, (rest.print terminated).toList, by simp [print]⟩
      rcases List.mem_append.mp among with below | after
      · obtain ⟨ends, back, printed⟩ := ihc inside _ _ below
        rcases holds with rfl | container
        · cases below
        · obtain ⟨closing, split⟩ := Item.print_container container
          refine ⟨ends, back ++ (closing.toList ++ (rest.print terminated).toList), ?_⟩
          rw [← List.append_assoc _ back, ← printed, print, split]
          simp
      · obtain ⟨ends, back, printed⟩ := ihr later _ _ after
        exact ⟨ends, back, by rw [← printed]; simp [print]⟩

end Forest

/-! ## Passages of a text -/

/-- A text that starts, and with no line break. -/
def Visible (text : List Char) : Prop :=
  ∃ c more, text = c :: more ∧ isNewline c = false

theorem Visible.append {first : List Char} (visible : Visible first) (second : List Char) :
    Visible (first ++ second) := by
  obtain ⟨c, more, rfl, solid⟩ := visible
  exact ⟨c, more ++ second, rfl, solid⟩

theorem Visible.of_append {first second : List Char} (visible : Visible (first ++ second))
    (some_ : first ≠ []) : Visible first := by
  obtain ⟨c, more, split, solid⟩ := visible
  cases first with
  | nil => exact absurd rfl some_
  | cons d rest =>
      cases split
      exact ⟨c, rest, rfl, solid⟩

/-- The passages of the part `text` of a text, which stands after `front`: each starts visibly
in that part, its item's source is where it starts, and each starts after those before it. -/
structure Located (front text : List Char) (passages : List Passage) : Prop where
  source : ∀ passage ∈ passages, passage.item.source = some (locate passage.front)
  after : ∀ passage ∈ passages, front <+: passage.front
  visible : ∀ passage ∈ passages, ∃ back,
    passage.front ++ back = front ++ text ∧ Visible back
  ordered : passages.Pairwise fun passage later => passage.front.length < later.front.length

theorem located_nil (front text : List Char) : Located front text [] :=
  ⟨nofun, nofun, nofun, .nil⟩

/-- An item that starts a part. -/
theorem located_one {front text printed : List Char} {item : Item}
    (start : item.source = some (locate front)) (visible : Visible text) :
    Located front text [⟨item, front, printed⟩] := by
  refine ⟨?_, ?_, ?_, List.pairwise_singleton _ _⟩ <;>
    refine fun passage member => List.mem_singleton.mp member ▸ ?_
  · exact start
  · exact List.prefix_refl front
  · exact ⟨text, rfl, visible⟩

namespace Located

variable {front text more : List Char} {first second : List Passage}

/-- The passages of one part, then those of the part after it. -/
theorem append (one : Located front text first) (other : Located (front ++ text) more second) :
    Located front (text ++ more) (first ++ second) := by
  refine ⟨?_, ?_, ?_, List.pairwise_append.mpr ⟨one.ordered, other.ordered, ?_⟩⟩
  · exact List.forall_mem_append.mpr ⟨one.source, other.source⟩
  · exact List.forall_mem_append.mpr
      ⟨one.after, fun passage member => (List.prefix_append _ _).trans (other.after passage member)⟩
  · refine List.forall_mem_append.mpr ⟨fun passage member => ?_, fun passage member => ?_⟩
    · obtain ⟨back, split, visible⟩ := one.visible passage member
      exact ⟨back ++ more, by rw [← List.append_assoc, split, List.append_assoc],
        visible.append more⟩
    · obtain ⟨back, split, visible⟩ := other.visible passage member
      exact ⟨back, by rw [split, List.append_assoc], visible⟩
  · intro passage member later among
    obtain ⟨_, split, c, rest, rfl, -⟩ := one.visible passage member
    have least := (other.after later among).length_le
    rw [← split, List.length_append, List.length_cons] at least
    omega

/-- Text without passages in front. -/
theorem lead (other : Located (front ++ text) more second) : Located front (text ++ more) second :=
  (located_nil front text).append other

/-- Text without passages behind. -/
theorem trail (one : Located front text first) (more : List Char) :
    Located front (text ++ more) first := by
  have whole := one.append (located_nil (front ++ text) more)
  rwa [List.append_nil] at whole

/-- A passage starts in the text. -/
theorem isPrefix (located : Located front text first) {passage : Passage}
    (member : passage ∈ first) : passage.front <+: front ++ text := by
  obtain ⟨back, split, -⟩ := located.visible passage member
  exact ⟨back, split⟩

/-- Later passages have later places. -/
theorem before (located : Located front text first) :
    first.Pairwise fun passage later => (locate passage.front).Before (locate later.front) := by
  refine located.ordered.imp_of_mem fun {passage later} member among shorter => ?_
  obtain ⟨_, split, c, rest, rfl, solid⟩ := located.visible passage member
  obtain ⟨back, whole⟩ := located.isPrefix among
  -- Both start the text, so the longer one goes on with the character of the shorter.
  have within : passage.front ++ [c] <+: front ++ text := ⟨rest, by rw [← split]; simp⟩
  have longer : passage.front ++ [c] <+: later.front := by
    refine List.prefix_of_prefix_length_le within ⟨back, whole⟩ ?_
    rw [List.length_append]
    exact shorter
  obtain ⟨others, same⟩ := longer
  rw [← same, List.append_assoc, List.singleton_append]
  exact Location.before_locate _ _ solid

end Located

/-! ## Where components stand -/

namespace Component

/-- Each component starts where the text before it ends, and the first after `front`. -/
inductive Standing : List Char → List Component → Prop where
  | nil {front : List Char} : Standing front []
  | leaf {front : List Char} {lexeme : Lexeme} {rest : List Component}
      (start : lexeme.start = locate front) (later : Standing (front ++ lexeme.text) rest) :
      Standing front (.leaf lexeme :: rest)
  | block {front : List Char} {opener : Lexeme} {body rest : List Component}
      {closer : Option Lexeme} (start : opener.start = locate front)
      (opens : opener.token.opens?.isSome = true)
      (inside : Standing (front ++ opener.text) body)
      (later : Standing (front ++ text (.block opener body closer)) rest) :
      Standing front (.block opener body closer :: rest)

/-- Levels that stand one after the other. -/
def StandingLevels : List Char → List Level → Prop
  | _, [] => True
  | front, level :: outer =>
      Standing front level.components ∧ StandingLevels (front ++ level.text) outer

theorem standing_levels {front : List Char} {lexemes : List Lexeme} (brackets : List Bracket)
    (standing : Lexeme.Standing front lexemes) :
    StandingLevels front ((levels brackets lexemes).1 :: (levels brackets lexemes).2) := by
  induction lexemes generalizing front brackets with
  | nil => exact ⟨.nil, trivial⟩
  | cons lexeme rest ih =>
      obtain ⟨start, later⟩ := standing
      have ih := fun brackets => ih brackets later
      rw [levels]
      split
      · have outside := ih brackets.tail
        exact ⟨.nil, by simpa [Level.text, textOf] using outside⟩
      · split
        · obtain ⟨inside, outside⟩ := ih brackets
          refine ⟨.leaf start inside, ?_⟩
          simpa [Level.cons, Level.text, textOf, text] using outside
        · rename_i bracket opens
          have found := ih (bracket :: brackets)
          generalize levels (bracket :: brackets) rest = answer at found ⊢
          obtain ⟨inner, outer⟩ := answer
          obtain ⟨inside, outside⟩ := found
          have isOpen : lexeme.token.opens?.isSome = true := by rw [opens]; rfl
          have whole : front ++ text (.block lexeme inner.components inner.closer) =
              front ++ lexeme.text ++ inner.text := by simp [text, Level.text]
          -- The level around the block is the next one, or nothing follows the block.
          cases outer with
          | nil => exact ⟨.block start isOpen inside .nil, trivial⟩
          | cons level more =>
              obtain ⟨around, beyond⟩ := outside
              refine ⟨.block start isOpen inside (whole ▸ around), ?_⟩
              simpa [Level.cons, Level.text, textOf, text] using beyond

/-- The components of a text stand in it. -/
theorem standing_read (text : List Char) : Standing [] (read text) :=
  (standing_levels [] (standing_lexemes text)).1

namespace Standing

variable {front : List Char} {component : Component} {rest : List Component}

/-- What follows components stands after their text. -/
theorem of_append {first second : List Component} (standing : Standing front (first ++ second)) :
    Standing (front ++ textOf first) second := by
  induction first generalizing front with
  | nil => simpa [textOf] using standing
  | cons component first ih =>
      rw [textOf, ← List.append_assoc]
      cases standing with
      | leaf start later => exact ih later
      | block start opens inside later => exact ih later

/-- What a block holds stands after its opener. -/
theorem inside {head body : List Component} {opener : Lexeme} {closer : Option Lexeme}
    (standing : Standing front (head ++ .block opener body closer :: rest)) :
    Standing (front ++ textOf head ++ opener.text) body := by
  cases standing.of_append with
  | block start opens inside later => exact inside

theorem start_eq (standing : Standing front (component :: rest)) :
    component.start = locate front := by
  cases standing <;> assumption

end Standing

end Component

/-- Only white space starts with a line break. -/
theorem visible_of_ne_whitespace {here : Location} {text : List Char} {lexeme : Lexeme}
    (found : lexeme ∈ lexemesFrom here text) (solid : lexeme.token ≠ .whitespace) :
    Visible lexeme.text := by
  fun_induction lexemesFrom here text with
  | case1 => cases found
  | case2 here c rest token length read own ih =>
      rcases List.mem_cons.mp found with rfl | later
      · refine ⟨c, rest.take length, rfl, Bool.eq_false_iff.mpr fun newline => solid ?_⟩
        have blank : Text.isBlank c = true := by simp [Text.isBlank, newline]
        unfold Token.read at read
        rw [if_pos blank] at read
        exact (congrArg Prod.fst read).symm
      · exact ih later

/-- A component that is no filler starts visibly. -/
theorem Component.Standing.visible {front text : List Char} {component : Component}
    {rest : List Component} (standing : Standing front (component :: rest))
    (sound : component.Sound (lexemes text)) (first : component.isFiller = false) :
    Visible component.text := by
  cases sound with
  | leaf own =>
      refine visible_of_ne_whitespace own fun white => ?_
      simp [isFiller, Component.isBlank, isLeaf, white] at first
  | @block opener body closer own closed inside =>
      cases standing with
      | block start opens inside later =>
          have solid : opener.token ≠ .whitespace := by
            intro white
            rw [white] at opens
            cases opens
          rw [Component.text, List.append_assoc]
          exact (visible_of_ne_whitespace own solid).append _

/-! ## Reading a body -/

/-- A piece takes at least one component. -/
theorem Piece.Cut.length_lt {components next : List Component} {piece : Piece}
    (cut : Piece.Cut components piece next) : next.length < components.length := by
  cases cut with
  | comment token => exact Nat.lt_succ_self _
  | openAtRule token within => exact Nat.lt_succ_of_le (Trimmed.trail_suffix _).length_le
  | atRule token split within ends =>
      simp only [split, List.length_cons, List.length_append]
      omega
  | blockAtRule token split within opens =>
      simp only [split, List.length_cons, List.length_append]
      omega
  | openDeclaration within found =>
      have least := (parts_trail_sublist found).length_le
      cases components with
      | nil => cases found
      | cons component rest => exact Nat.lt_succ_of_le least
  | declaration split within found ends =>
      simp only [split, List.length_cons, List.length_append]
      omega
  | rule split within opens ends =>
      simp only [split, List.length_cons, List.length_append]
      omega

/-- A statement with a block starts with its head and the bracket. -/
theorem opening_block {source : List Lexeme} (written : ∀ lexeme ∈ source, lexeme.Written)
    {components next inner : List Component} {kind : Kind} {raws : Raws}
    (cut : Piece.Cut components (.block kind raws inner) next)
    (sound : ∀ c ∈ components, c.Sound source) (plain : PlainKeyword components kind) :
    ∃ head opener closer, components = head ++ .block opener inner closer :: next ∧
      opener.text = ['{'] ∧
      ∀ item : Item, item.kind = kind → item.raws.between = raws.between →
        item.raws.afterName = raws.afterName → item.opening.toList = textOf head ++ ['{'] := by
  have bracket (opener : Lexeme) (closer : Option Lexeme)
      (own : .block opener inner closer ∈ components) (opens : opener.token = .opening .curly) :
      opener.text = ['{'] := by
    cases sound _ own with
    | block own closed inside => exact (written _ own).mark '{' (by rw [opens]; rfl)
  cases cut with
  | @blockAtRule keyword opener closer name components params inner next token split within opens =>
      subst split
      refine ⟨.leaf keyword :: params, opener, closer, rfl, ?_, ?_⟩
      · exact bracket opener closer (by simp) opens
      intro item kind between afterName
      have params := @print_params source written params fun c member =>
        sound c (by simp [member])
      have keyword := plain keyword name rfl rfl
      simp only [Item.opening, kind, between, afterName, textOf, Component.text, keyword, ← params]
      simp
  | @rule components whole inner next opener closer split within opens =>
      subst split
      refine ⟨whole, opener, closer, rfl, ?_, ?_⟩
      · exact bracket opener closer (by simp) opens
      intro item kind between _
      have selector := congrArg textOf (dropEnd_append_takeEnd Component.isBlank whole)
      rw [textOf_append] at selector
      simp [Item.opening, kind, between, ← selector]

/-- Where something follows an item, what is written up to there is what was read. -/
theorem Body.Reading.print_front {source : List Lexeme}
    (written : ∀ lexeme ∈ source, lexeme.Written) {semicolon flag : Bool}
    {used next : List Component} {item : Item} {children : Forest Item} {more : Body}
    (whole : Body.Reading semicolon (used ++ next) (more.cons item children))
    (later : Body.Reading flag next more) (sound : ∀ c ∈ used ++ next, c.Sound source)
    (open_ : OpenEnded (used ++ next)) (plain : PlainNames source (more.cons item children).items)
    (some_ : more.items ≠ .nil) :
    item.raws.before.toList ++ (item.print (more.items.hasStatement || more.semicolon)
      (children.print item.raws.semicolon)).toList = textOf used := by
  have filled : next ≠ [] := by
    rintro rfl
    rw [later.eq_of_fillers (by simp)] at some_
    exact some_ rfl
  have loose := loose_cons later item children used filled
  have first := print_reading written whole sound open_ plain
  have soundNext := fun c member => sound c (List.mem_append_right used member)
  have second := print_reading written later soundNext (open_.suffix (List.suffix_append _ _))
    plain.cons.2
  rw [print_cons, second] at first
  simp only [Body.cons, loose, textOf_append, ← List.append_assoc] at first
  exact List.append_cancel_right (List.append_cancel_right first)

/-- An item with its children is printed where it is read, and so is the rest of the body if it
is printed there. -/
theorem located_cons {text front : List Char} {semicolon flag : Bool}
    {lead used next : List Component} {item : Item} {children : Forest Item} {more : Body}
    (whole : Body.Reading semicolon (lead ++ used ++ next) (more.cons item children))
    (later : Body.Reading flag next more)
    (sound : ∀ c ∈ lead ++ used ++ next, c.Sound (lexemes text))
    (open_ : OpenEnded (lead ++ used ++ next))
    (plain : PlainNames (lexemes text) (more.cons item children).items)
    (before : item.raws.before.toList = textOf lead)
    (own : ∀ printed, Located (front ++ textOf lead) (textOf used)
      (⟨item, front ++ textOf lead, printed⟩ :: children.passages item.raws.semicolon
        (front ++ textOf lead ++ item.opening.toList)))
    (rest : Located (front ++ textOf (lead ++ used)) (textOf next)
      (more.items.passages more.semicolon (front ++ textOf (lead ++ used)))) :
    Located front (textOf (lead ++ used ++ next))
      ((more.cons item children).items.passages (more.cons item children).semicolon front) := by
  simp only [Body.cons, Forest.passages, before]
  by_cases alone : more.items = .nil
  · rw [alone, Forest.passages, List.append_nil, List.append_assoc, textOf_append, textOf_append]
    exact ((own _).trail _).lead
  · have printed :=
      whole.print_front (fun _ => written_of_mem_lexemes) later sound open_ plain alone
    rw [before, ← List.append_cancel_left_eq front, ← List.append_assoc] at printed
    rw [printed, textOf_append, ← List.cons_append]
    refine Located.append ?_ rest
    rw [textOf_append]
    exact (own _).lead

/-- An item with a block is printed where it is read, if the block is. -/
theorem located_block {text front : List Char} {component : Component}
    {rest next inner : List Component} {kind : Kind} {raws : Raws} {body : Body}
    (cut : Piece.Cut (component :: rest) (.block kind raws inner) next)
    (sound : ∀ c ∈ component :: rest, c.Sound (lexemes text))
    (plain : PlainKeyword (component :: rest) kind) (first : component.isFiller = false)
    (standing : Standing front (component :: rest))
    (inside : ∀ {front}, Standing front inner →
      Located front (textOf inner) (body.items.passages body.semicolon front)) :
    ∃ used, component :: rest = used ++ next ∧
      ∀ item : Item, item.kind = kind → item.raws.between = raws.between →
        item.raws.afterName = raws.afterName → item.source = some (locate front) →
        ∀ printed, Located front (textOf used) (⟨item, front, printed⟩ ::
          body.items.passages body.semicolon (front ++ item.opening.toList)) := by
  obtain ⟨head, opener, closer, split, bracket, opening⟩ :=
    opening_block (fun _ => written_of_mem_lexemes) cut sound plain
  have visible := standing.visible (sound component List.mem_cons_self) first
  have whole : textOf (head ++ [.block opener inner closer]) =
      textOf head ++ ['{'] ++ (textOf inner ++ (closer.map Lexeme.text).getD []) := by
    rw [textOf_append, textOf, Component.text, bracket]
    simp [textOf]
  refine ⟨head ++ [.block opener inner closer], by simpa using split, ?_⟩
  intro item isKind between afterName start printed
  -- The opening starts with the text of the component.
  have starts : Visible (textOf head ++ ['{']) := by
    have all : Visible (textOf (component :: rest)) := visible.append _
    rw [split, ← List.singleton_append, ← List.append_assoc, textOf_append, whole,
      List.append_assoc] at all
    exact all.of_append (List.concat_ne_nil _ _)
  rw [split] at standing
  have below := standing.inside
  rw [bracket, List.append_assoc front] at below
  rw [opening item isKind between afterName, whole]
  exact (located_one start starts).append ((inside below).trail _)

/-- **A body is printed where it is read.**  Where the components of a body stand in a text,
its items are printed, as long as the text before them is the same. -/
theorem located_reading {text : List Char} {semicolon : Bool} {components : List Component}
    {body : Body} (reading : Body.Reading semicolon components body)
    (sound : ∀ c ∈ components, c.Sound (lexemes text)) (open_ : OpenEnded components)
    (plain : PlainNames (lexemes text) body.items) {front : List Char}
    (standing : Standing front components) :
    Located front (textOf components) (body.items.passages body.semicolon front) := by
  induction reading generalizing front with
  | done fillers => exact located_nil _ _
  | @simple semicolon lead rest next component kind raws ended more fillers first cut later ih =>
      have whole := @Body.Reading.simple semicolon _ _ _ _ _ _ _ _ fillers first cut later
      have start := congrArg some standing.of_append.start_eq
      have visible := standing.of_append.visible (sound _ (by simp)) first
      obtain ⟨used, split⟩ := cut.suffix
      have shorter := cut.length_lt
      rw [← split, ← List.append_assoc] at whole sound open_ standing ⊢
      refine located_cons whole later sound open_ plain String.toList_ofList (fun printed => ?_)
        (ih (fun c member => sound c (List.mem_append_right _ member))
          (open_.suffix (List.suffix_append _ _)) plain.cons.2 standing.of_append)
      cases used with
      | nil =>
          rw [← split] at shorter
          exact absurd shorter (Nat.lt_irrefl _)
      | cons first used =>
          cases split
          exact located_one start (visible.append _)
  | @block semicolon lead rest next inner component kind raws body more fillers first cut inside
      later ihInner ihRest =>
      have whole := @Body.Reading.block semicolon _ _ _ _ _ _ _ _ _ fillers first cut inside later
      have start := congrArg some standing.of_append.start_eq
      have soundOwn := fun c member => sound c (List.mem_append_right lead member)
      have openOwn := open_.suffix (List.suffix_append lead _)
      obtain ⟨soundInner, openInner⟩ := cut.inside soundOwn openOwn
      obtain ⟨used, split, own⟩ := located_block cut soundOwn (plain.plainKeyword soundOwn) first
        standing.of_append (ihInner soundInner openInner plain.cons.1)
      obtain ⟨skipped, skips, -⟩ := ownSemicolon_append kind next
      have follows : component :: rest = used ++ skipped ++ (ownSemicolon kind next).2 := by
        rw [split, List.append_assoc, ← skips]
      rw [follows, ← List.append_assoc] at whole sound open_ standing ⊢
      refine located_cons whole later sound open_ plain String.toList_ofList (fun printed => ?_)
        (ihRest (fun c member => sound c (List.mem_append_right _ member))
          (open_.suffix (List.suffix_append _ _)) plain.cons.2 standing.of_append)
      rw [textOf_append]
      exact (own _ rfl rfl rfl start printed).trail _

/-! ## Documents -/

/-- One item's source is before another's. -/
def Item.SourceBefore (item later : Item) : Prop :=
  ∃ here there, item.source = some here ∧ later.source = some there ∧ here.Before there

namespace Document

/-- A parsed document holds the body of its text. -/
theorem eq_ofBody_of_parse {css : String} {document : Document}
    (parsed : Document.parse css = .ok document) :
    ∃ body, Body.parse css = .ok body ∧ document = .ofBody body := by
  unfold Document.parse at parsed
  cases read : Body.parse css with
  | error error =>
      rw [read] at parsed
      cases parsed
  | ok body =>
      rw [read] at parsed
      cases parsed
      exact ⟨body, rfl, rfl⟩

variable (body : Body)

theorem items_ofBody : (ofBody body).items = body.items := by
  simp [items, find?_root_ofBody]

theorem css_ofBody : (ofBody body).css.toList = body.print := by
  simp [css, print?, find?_root_ofBody, Item.printTree, Item.print, Body.root, Raws.enclose,
    Body.print]

theorem passages_ofBody : (ofBody body).passages = body.items.passages body.semicolon [] := by
  simp [passages, find?_root_ofBody, Forest.items_number, Body.root, Raws.enclose, Item.opening]

/-- The nodes below the root of a body are its items. -/
theorem below?_ofBody : ∃ nodes, (ofBody body).below? (ofBody body).root = some nodes ∧
    nodes.map Node.item = body.items.labels := by
  refine ⟨(body.items.number 2).labels, ?_, ?_⟩
  · rw [below?, find?_root_ofBody]
    rfl
  · rw [← Forest.labels_map, ← Forest.items, Forest.items_number]

end Document

/-- **Sources point at what is printed.**  Where every at-keyword that starts an at-rule is
written plainly, the nodes below the root of a parsed document are the passages of its
printed text.  What is written before a node ends with the node's own leading text and is the
front of the text that was parsed; the node's source is the line and the column, in UTF-16
units, where that front ends.  In document order, each source is after those before it. -/
theorem sources_of_parse {css : String} {document : Document}
    (parsed : Document.parse css = .ok document)
    (plain : PlainNames (lexemes css.toList) document.items) :
    ∃ nodes, document.below? document.root = some nodes ∧
      document.passages.map Passage.item = nodes.map Node.item ∧
      (∀ passage ∈ document.passages,
        passage.item.raws.before.toList <:+ passage.front ∧
        (∃ back, document.css.toList = passage.front ++ passage.text ++ back) ∧
        passage.front <+: css.toList ∧
        passage.item.source = some (locate passage.front)) ∧
      nodes.Pairwise fun node later => node.item.SourceBefore later.item := by
  obtain ⟨body, read, rfl⟩ := Document.eq_ofBody_of_parse parsed
  have reading := reading_of_parse read
  rw [Document.items_ofBody] at plain
  have located := located_reading reading (sound_read css.toList) (openEnded_read css.toList)
    plain (standing_read css.toList)
  obtain ⟨nodes, below, items⟩ := Document.below?_ofBody body
  rw [Document.passages_ofBody]
  refine ⟨nodes, below, ?_, fun passage member => ⟨?_, ?_, ?_, ?_⟩, ?_⟩
  · rw [Forest.map_item_passages, items]
  · exact (Forest.passage_printed reading.proper.housed _ _ member).1
  · obtain ⟨-, back, split⟩ := Forest.passage_printed reading.proper.housed _ _ member
    refine ⟨back ++ body.after, ?_⟩
    rw [Document.css_ofBody, Body.print, ← List.append_assoc, ← split, List.nil_append]
  · have front := located.isPrefix member
    rwa [List.nil_append, textOf_read] at front
  · exact located.source passage member
  · refine List.pairwise_map.mp ?_
    rw [items, ← Forest.map_item_passages body.items body.semicolon []]
    refine List.pairwise_map.mpr (located.before.imp_of_mem ?_)
    intro passage later member among before
    exact ⟨_, _, located.source passage member, located.source later among, before⟩

/-- Four kinds of newline, a character of two units, a rule in an at-rule, and a comment that
is cut off. -/
theorem sources_of_parse_newlines :
    ∃ document nodes,
      Document.parse "a\r\n\x7b b:'𝄞';c:d\x0c\x7d\r@m\n\x7be\x7bf:g;/*h" = .ok document ∧
      PlainNames (lexemes "a\r\n\x7b b:'𝄞';c:d\x0c\x7d\r@m\n\x7be\x7bf:g;/*h".toList)
        document.items ∧
      document.below? document.root = some nodes ∧
      (nodes.map fun node => node.item.source) =
        [some ⟨1, 1⟩, some ⟨2, 3⟩, some ⟨2, 10⟩, some ⟨4, 1⟩, some ⟨5, 2⟩, some ⟨5, 4⟩,
          some ⟨5, 8⟩] ∧
      (∀ passage ∈ document.passages, passage.item.source = some (locate passage.front)) ∧
      nodes.Pairwise fun node later => node.item.SourceBefore later.item := by
  obtain ⟨document, parsed, computed⟩ := exists_ok_of_any
    (Document.parse "a\r\n\x7b b:'𝄞';c:d\x0c\x7d\r@m\n\x7be\x7bf:g;/*h")
    (fun document => decide (
      PlainNames (lexemes "a\r\n\x7b b:'𝄞';c:d\x0c\x7d\r@m\n\x7be\x7bf:g;/*h".toList)
        document.items ∧
      (document.below? document.root).map (List.map fun node => node.item.source) =
        some [some ⟨1, 1⟩, some ⟨2, 3⟩, some ⟨2, 10⟩, some ⟨4, 1⟩, some ⟨5, 2⟩, some ⟨5, 4⟩,
          some ⟨5, 8⟩]))
    (by decide +kernel)
  obtain ⟨plain, places⟩ := of_decide_eq_true computed
  obtain ⟨nodes, below, -, located, ordered⟩ := sources_of_parse parsed plain
  rw [below, Option.map_some, Option.some.injEq] at places
  exact ⟨document, nodes, parsed, plain, below, places,
    fun passage member => (located passage member).2.2.2, ordered⟩

end ApplyRule
