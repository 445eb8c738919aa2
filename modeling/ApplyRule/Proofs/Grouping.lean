/-
# ApplyRule.Proofs.Grouping -- how lexemes are grouped by their brackets

The components of a text are made of its lexemes, and a block's closer, if there
is one, matches its opener (`Component.Sound`).  Only the end of the text leaves
anything open: a block without a closer and a comment that is cut off can only
be the last component of the text or of such a block (`OpenEnded`), and there is
none inside a block that is closed (`Component.Closed`).

`sound_read` and `openEnded_read` say so of all components of a text.

A split around a block of a shape goes past leaves and closed blocks of other shapes, and
it is around the first component that it does not go past (`Split.ofComponents?_eq_some`).
-/
import ApplyRule.Component.Split
import ApplyRule.Proofs.Lexeme

namespace ApplyRule

set_option autoImplicit false

namespace Component

/-! ## Soundness -/

/-- The component is made of lexemes of `source`, and its closers match their
openers. -/
inductive Sound (source : List Lexeme) : Component → Prop where
  | leaf {lexeme : Lexeme} (own : lexeme ∈ source) : Sound source (.leaf lexeme)
  | block {opener : Lexeme} {body : List Component} {closer : Option Lexeme}
      (own : opener ∈ source)
      (closed : ∀ lexeme, closer = some lexeme →
        lexeme ∈ source ∧ lexeme.token.closes? = opener.token.opens?)
      (inside : ∀ component ∈ body, Sound source component) :
      Sound source (.block opener body closer)

/-- Levels of sound components, each closed by what matches its bracket. -/
def SoundLevels (source : List Lexeme) : List Bracket → List Level → Prop
  | _, [] => True
  | brackets, level :: outer =>
      (∀ component ∈ level.components, component.Sound source) ∧
        (∀ lexeme, level.closer = some lexeme →
          lexeme ∈ source ∧ lexeme.token.closes? = brackets.head?) ∧
        SoundLevels source brackets.tail outer

theorem soundLevels_empty (source : List Lexeme) (brackets : List Bracket) :
    SoundLevels source brackets [.empty] := by
  simp [SoundLevels, Level.empty]

/-- A level stays sound with a sound component in front. -/
theorem SoundLevels.cons {source : List Lexeme} {brackets : List Bracket} {level : Level}
    {outer : List Level} {component : Component}
    (sound : SoundLevels source brackets (level :: outer)) (first : component.Sound source) :
    SoundLevels source brackets (level.cons component :: outer) := by
  obtain ⟨inside, closed, outside⟩ := sound
  refine ⟨fun other member => ?_, closed, outside⟩
  rcases List.mem_cons.1 member with rfl | later
  · exact first
  · exact inside other later

theorem soundLevels_levels {source lexemes : List Lexeme} (brackets : List Bracket)
    (sub : ∀ lexeme ∈ lexemes, lexeme ∈ source) :
    SoundLevels source brackets ((levels brackets lexemes).1 :: (levels brackets lexemes).2) := by
  induction lexemes generalizing brackets with
  | nil => exact soundLevels_empty source brackets
  | cons lexeme rest ih =>
      have own := sub lexeme (List.mem_cons_self ..)
      have ih := fun brackets =>
        ih brackets fun other member => sub other (List.mem_cons_of_mem _ member)
      rw [levels]
      split
      · rename_i closes
        cases brackets with
        | nil => cases closes
        | cons bracket brackets =>
            have closes : lexeme.token.closes? = some bracket := by
              simpa [Token.closesFirst] using closes
            refine ⟨by simp, fun other same => ?_, ih brackets⟩
            cases same
            exact ⟨own, closes⟩
      · split
        · exact (ih brackets).cons (.leaf own)
        · rename_i bracket opens
          have found := ih (bracket :: brackets)
          generalize levels (bracket :: brackets) rest = answer at found ⊢
          obtain ⟨inner, outer⟩ := answer
          obtain ⟨inside, closed, outside⟩ := found
          have first : Sound source (.block lexeme inner.components inner.closer) :=
            .block own (fun other same => by simpa [opens] using closed other same) inside
          -- The level around the block is the next one, or nothing follows the block.
          cases outer with
          | nil => exact (soundLevels_empty source brackets).cons first
          | cons level more => exact SoundLevels.cons outside first

/-- The components of a text are sound. -/
theorem sound_read (text : List Char) :
    ∀ component ∈ read text, component.Sound (lexemes text) :=
  (soundLevels_levels [] fun _ member => member).1

/-! ## What the end of the text leaves open -/

/-- Nothing in the component is left open. -/
inductive Closed : Component → Prop where
  | leaf {lexeme : Lexeme} (whole : lexeme.isCut = false) : Closed (.leaf lexeme)
  | block {opener closer : Lexeme} {body : List Component}
      (inside : ∀ component ∈ body, Closed component) :
      Closed (.block opener body (some closer))

/-- Nothing is left open but at the end: there, a comment may be cut off, or a
block may have no closer. -/
inductive OpenEnded : List Component → Prop where
  | closed {components : List Component} (all : ∀ component ∈ components, component.Closed) :
      OpenEnded components
  | cut {before : List Component} {lexeme : Lexeme}
      (all : ∀ component ∈ before, component.Closed) (cut : lexeme.isCut = true) :
      OpenEnded (before ++ [.leaf lexeme])
  | block {before body : List Component} {opener : Lexeme}
      (all : ∀ component ∈ before, component.Closed) (inside : OpenEnded body) :
      OpenEnded (before ++ [.block opener body none])

theorem openEnded_cut {lexeme : Lexeme} (cut : lexeme.isCut = true) :
    OpenEnded [.leaf lexeme] :=
  OpenEnded.cut (fun _ member => (List.not_mem_nil member).elim) cut

theorem openEnded_block {body : List Component} (opener : Lexeme) (inside : OpenEnded body) :
    OpenEnded [.block opener body none] :=
  OpenEnded.block (fun _ member => (List.not_mem_nil member).elim) inside

theorem OpenEnded.cons {component : Component} {components : List Component}
    (first : component.Closed) (open_ : OpenEnded components) :
    OpenEnded (component :: components) := by
  have extend {before : List Component} (all : ∀ other ∈ before, other.Closed) :
      ∀ other ∈ component :: before, other.Closed := by
    intro other member
    rcases List.mem_cons.1 member with rfl | later
    · exact first
    · exact all other later
  cases open_ with
  | closed all => exact .closed (extend all)
  | cut all cut => exact OpenEnded.cut (extend all) cut
  | block all inside => exact OpenEnded.block (extend all) inside

theorem OpenEnded.tail {component : Component} {components : List Component}
    (open_ : OpenEnded (component :: components)) : OpenEnded components := by
  generalize whole : component :: components = all at open_
  cases open_ with
  | closed all =>
      subst whole
      exact .closed fun other member => all other (List.mem_cons_of_mem _ member)
  | @cut before lexeme all cut =>
      cases before with
      | nil => cases whole; exact .closed (by simp)
      | cons first before =>
          cases whole
          exact .cut (fun other member => all other (List.mem_cons_of_mem _ member)) cut
  | @block before body opener all inside =>
      cases before with
      | nil => cases whole; exact .closed (by simp)
      | cons first before =>
          cases whole
          exact .block (fun other member => all other (List.mem_cons_of_mem _ member)) inside

theorem OpenEnded.suffix {components second : List Component} (open_ : OpenEnded components)
    (after : second <:+ components) : OpenEnded second := by
  obtain ⟨first, rfl⟩ := after
  induction first with
  | nil => exact open_
  | cons component first ih => exact ih open_.tail

/-- Nothing follows a comment that is cut off. -/
theorem OpenEnded.cut_last {lexeme : Lexeme} {components : List Component}
    (open_ : OpenEnded (.leaf lexeme :: components)) (cut : lexeme.isCut = true) :
    components = [] := by
  have contra {all : List Component} (closed : ∀ c ∈ Component.leaf lexeme :: all, c.Closed) :
      False := by
    cases closed _ (List.mem_cons_self ..) with
    | leaf whole => simp [cut] at whole
  generalize whole : Component.leaf lexeme :: components = list at open_
  cases open_ with
  | closed all => subst whole; exact (contra all).elim
  | @cut before other all _ =>
      cases before with
      | nil => cases whole; rfl
      | cons first before => cases whole; exact (contra all).elim
  | @block before body opener all inside =>
      cases before with
      | nil => cases whole
      | cons first before => cases whole; exact (contra all).elim

/-- Nothing inside a closed block is left open, and nothing follows an open
one. -/
theorem OpenEnded.block_cases {opener : Lexeme} {body components : List Component}
    {closer : Option Lexeme} (open_ : OpenEnded (.block opener body closer :: components)) :
    (∃ lexeme, closer = some lexeme ∧ ∀ c ∈ body, c.Closed) ∨
      closer = none ∧ components = [] ∧ OpenEnded body := by
  have closed_ {all : List Component}
      (closed : ∀ c ∈ Component.block opener body closer :: all, c.Closed) :
      ∃ lexeme, closer = some lexeme ∧ ∀ c ∈ body, c.Closed := by
    cases closed _ (List.mem_cons_self ..) with
    | block inside => exact ⟨_, rfl, inside⟩
  generalize whole : Component.block opener body closer :: components = list at open_
  cases open_ with
  | closed all => subst whole; exact .inl (closed_ all)
  | @cut before other all _ =>
      cases before with
      | nil => cases whole
      | cons first before => cases whole; exact .inl (closed_ all)
  | @block before body opener all inside =>
      cases before with
      | nil => cases whole; exact .inr ⟨rfl, rfl, inside⟩
      | cons first before => cases whole; exact .inl (closed_ all)

/-- Nothing that stands before something else is left open. -/
theorem OpenEnded.closed_before {before after : List Component} {c : Component}
    (open_ : OpenEnded (before ++ c :: after)) : ∀ own ∈ before, own.Closed := by
  induction before with
  | nil => simp
  | cons own before ih =>
      refine List.forall_mem_cons.mpr ⟨?_, ih open_.tail⟩
      have some_ : before ++ c :: after ≠ [] := by simp
      cases own with
      | leaf lexeme =>
          exact .leaf ((Bool.not_eq_true _).mp fun cut => some_ (open_.cut_last cut))
      | block opener body closer =>
          rcases open_.block_cases with ⟨_, rfl, inside⟩ | ⟨-, nothing, -⟩
          · exact .block inside
          · exact absurd nothing some_

/-- Levels of which only the outermost is open-ended; all others are closed. -/
def OpenEndedLevels : List Level → Prop
  | [] => True
  | level :: outer =>
      (level.closer.isSome = true → ∀ component ∈ level.components, component.Closed) ∧
        (level.closer = none → OpenEnded level.components ∧ outer = []) ∧
        OpenEndedLevels outer

theorem openEndedLevels_empty : OpenEndedLevels [.empty] :=
  ⟨by simp [Level.empty], fun _ => ⟨.closed (by simp [Level.empty]), rfl⟩, trivial⟩

theorem OpenEndedLevels.cons {level : Level} {outer : List Level} {component : Component}
    (open_ : OpenEndedLevels (level :: outer)) (first : component.Closed) :
    OpenEndedLevels (level.cons component :: outer) := by
  obtain ⟨closed, unclosed, outside⟩ := open_
  refine ⟨fun some_ other member => ?_, fun none_ => ?_, outside⟩
  · rcases List.mem_cons.1 member with rfl | later
    · exact first
    · exact closed some_ other later
  · exact ⟨(unclosed none_).1.cons first, (unclosed none_).2⟩

theorem openEndedLevels_levels (brackets : List Bracket) {lexemes : List Lexeme}
    (last : CutLast lexemes) :
    OpenEndedLevels ((levels brackets lexemes).1 :: (levels brackets lexemes).2) := by
  induction lexemes generalizing brackets with
  | nil => exact openEndedLevels_empty
  | cons lexeme rest ih =>
      have ih := fun brackets => ih brackets last.2
      rw [levels]
      split
      · exact ⟨by simp, by simp, ih brackets.tail⟩
      · split
        · cases cut : lexeme.isCut with
          | false => exact (ih brackets).cons (.leaf cut)
          | true =>
              -- Nothing follows, so the leaf stands alone on its level.
              rw [last.1 cut]
              exact ⟨by simp [levels, Level.cons, Level.empty],
                fun _ => ⟨openEnded_cut cut, rfl⟩, trivial⟩
        · rename_i bracket _
          have found := ih (bracket :: brackets)
          generalize levels (bracket :: brackets) rest = answer at found ⊢
          obtain ⟨⟨components, closer⟩, outer⟩ := answer
          obtain ⟨closed, unclosed, outside⟩ := found
          cases closer with
          | none =>
              obtain ⟨inside, alone⟩ := unclosed rfl
              subst alone
              exact ⟨by simp [Level.cons, Level.empty],
                fun _ => ⟨openEnded_block lexeme inside, rfl⟩, trivial⟩
          | some other =>
              have first : Closed (.block lexeme components (some other)) := .block (closed rfl)
              cases outer with
              | nil => exact openEndedLevels_empty.cons first
              | cons level more => exact OpenEndedLevels.cons outside first

/-- Nothing in a text is left open but at its end. -/
theorem openEnded_read (text : List Char) : OpenEnded (read text) := by
  obtain ⟨-, unclosed⟩ := levels_outermost [] (lexemes text)
  have unclosed : (levels [] (lexemes text)).1.closer = none := by simpa using unclosed
  exact ((openEndedLevels_levels [] (cutLast_lexemes .first text)).2.1 unclosed).1

/-! ## The first block of a shape -/

/-- A split for a bracket's shape goes past the component: it is a leaf, or a block of
another shape that is closed. -/
def Passed (bracket : Bracket) : Component → Prop
  | .leaf _ => True
  | .block opener _ closer => closer.isSome = true ∧ opener.token.opens? ≠ some bracket

end Component

/-- A split is around the first block that is not passed, where that one has the shape and
is closed. -/
theorem Split.ofComponents?_eq_some {bracket : Bracket} {components : List Component}
    {split : Split} : ofComponents? bracket components = some split ↔
      ∃ front opener body closer rest,
        components = front ++ .block opener body (some closer) :: rest ∧
        (∀ c ∈ front, c.Passed bracket) ∧ opener.token.opens? = some bracket ∧
        split = ⟨Component.textOf front, Component.textOf body, Component.textOf rest⟩ := by
  constructor
  · intro cut
    induction components generalizing split with
    | nil => cases cut
    | cons component rest ih =>
        have later (passed : component.Passed bracket)
            (cut : (ofComponents? bracket rest).map (prepend component.text) = some split) :
            ∃ front opener body closer others,
              component :: rest = front ++ .block opener body (some closer) :: others ∧
              (∀ c ∈ front, c.Passed bracket) ∧ opener.token.opens? = some bracket ∧
              split = ⟨Component.textOf front, Component.textOf body, Component.textOf others⟩ := by
          obtain ⟨_, found, rfl⟩ := Option.map_eq_some_iff.mp cut
          obtain ⟨front, opener, body, closer, others, rfl, all, opens, rfl⟩ := ih found
          exact ⟨component :: front, opener, body, closer, others, rfl,
            List.forall_mem_cons.mpr ⟨passed, all⟩, opens, rfl⟩
        cases component with
        | leaf lexeme => exact later trivial cut
        | block opener body closer =>
            cases closer with
            | none => cases cut
            | some closer =>
                rw [ofComponents?] at cut
                split at cut
                · rename_i opens
                  cases cut
                  exact ⟨[], opener, body, closer, rest, rfl, by simp, opens, rfl⟩
                · rename_i other
                  exact later ⟨rfl, other⟩ cut
  · rintro ⟨front, opener, body, closer, rest, rfl, passed, opens, rfl⟩
    induction front with
    | nil => rw [List.nil_append, ofComponents?, if_pos opens]; rfl
    | cons component front ih =>
        obtain ⟨own, others⟩ := List.forall_mem_cons.mp passed
        cases component with
        | leaf lexeme =>
            rw [List.cons_append, ofComponents?, ih others]
            rfl
        | block opener' body' closer' =>
            obtain ⟨last, rfl⟩ := Option.isSome_iff_exists.mp own.1
            rw [List.cons_append, ofComponents?, if_neg own.2, ih others]
            rfl

end ApplyRule
