/-
# ApplyRule.Proofs.Rounds -- reading a value ends

`expand` reads a value in rounds.  The first definition that waits is read, and those in
the text after its block wait behind all others; how many these are nothing limits.
`Rounds` is this loop without a bound on its rounds: it goes on until nothing waits, or
until a definition cannot be read.

The definitions in a text are told from parts of it that do not overlap, and the text
after a block is shorter than the value that the block is taken from.  So a round leaves
fewer characters waiting than it found, whatever the values are (`Round.waiting_lt`), and
the loop ends on every text, with what `expand` says, after no more rounds than the text
has characters (`rounds_expand`).
-/
import ApplyRule.Proofs.Definitions

namespace ApplyRule

set_option autoImplicit false

open Text

section Rounds

variable {source : Option Location} {pending next : List (String × String)} {count : Nat}
  {result : Except ParseError Expansion}

/-- One round: the first definition is read, and those after its block wait behind all
others. -/
inductive Round (source : Option Location) :
    List (String × String) → List (String × String) → Prop where
  | read {name value : String} {pending : List (String × String)} {one : Expanded}
      (read : expandOne source name value = .ok one) :
      Round source ((name, value) :: pending) (pending ++ one.pending)

/-- The rounds that are made where definitions wait, how many they are, and what comes of
them.  Nothing bounds their number: they end when nothing waits, or where the first
definition cannot be read. -/
inductive Rounds (source : Option Location) :
    List (String × String) → Nat → Except ParseError Expansion → Prop where
  | done : Rounds source [] 0 (.ok {})
  | stop {name value : String} {pending : List (String × String)} {error : ParseError}
      (failed : expandOne source name value = .error error) :
      Rounds source ((name, value) :: pending) 0 (.error error)
  | next {name value : String} {pending : List (String × String)} {one : Expanded} {count : Nat}
      {result : Except ParseError Expansion} (read : expandOne source name value = .ok one)
      (later : Rounds source (pending ++ one.pending) count result) :
      Rounds source ((name, value) :: pending) (count + 1)
        (result.map (Expansion.append ⟨[one.set], one.items⟩))

/-- **A round leaves fewer characters waiting than it found.** -/
theorem Round.waiting_lt (round : Round source pending next) : waiting next < waiting pending := by
  cases round with
  | read read =>
      have fewer := waiting_expandOne_lt read
      simp only [waiting_append, waiting]
      omega

/-- The rounds and what comes of them are determined. -/
theorem Rounds.unique {other : Nat} {result' : Except ParseError Expansion}
    (rounds : Rounds source pending count result) (also : Rounds source pending other result') :
    other = count ∧ result' = result := by
  induction rounds generalizing other result' with
  | done =>
      cases also
      exact ⟨rfl, rfl⟩
  | stop failed =>
      cases also with
      | stop failed' =>
          rw [failed] at failed'
          cases failed'
          exact ⟨rfl, rfl⟩
      | next read _ =>
          rw [failed] at read
          cases read
  | next read _ ih =>
      cases also with
      | stop failed =>
          rw [read] at failed
          cases failed
      | next read' later =>
          rw [read] at read'
          cases read'
          obtain ⟨rfl, rfl⟩ := ih later
          exact ⟨rfl, rfl⟩

/-- There are no more rounds than characters wait. -/
theorem Rounds.count_le (rounds : Rounds source pending count result) :
    count ≤ waiting pending := by
  induction rounds with
  | done => simp
  | stop => simp
  | @next _ _ pending _ _ _ read _ ih =>
      have round : Round source (_ :: pending) _ := .read read
      have fewer := round.waiting_lt
      omega

/-- A definition that waits after another was read has a value. -/
theorem value_ne_of_pending {name value : String} {one : Expanded}
    (read : expandOne source name value = .ok one) :
    ∀ definition ∈ one.pending, definition.2 ≠ "" := by
  obtain ⟨split, body, items, -, -, -, rfl⟩ := exists_of_expandOne read
  rintro ⟨other, text⟩ member rfl
  obtain ⟨item, -, definition⟩ := List.mem_filterMap.mp member
  have starts := Kind.head?_of_definition definition
  simp at starts

/-- Where every value has characters, the round that fails is one more that they
allow. -/
theorem Rounds.count_lt {error : ParseError} (rounds : Rounds source pending count result)
    (failed : result = .error error) (written : ∀ definition ∈ pending, definition.2 ≠ "") :
    count < waiting pending := by
  induction rounds with
  | done => cases failed
  | @stop name value pending _ _ =>
      have own : value ≠ "" := written (name, value) List.mem_cons_self
      have long : 0 < value.length := by
        rw [← String.length_toList, List.length_pos_iff]
        simpa using own
      simp only [waiting]
      omega
  | @next _ _ pending one _ later read _ ih =>
      have stopped : later = .error error := by
        cases later with
        | ok more => cases failed
        | error other => exact failed
      have round : Round source (_ :: pending) _ := .read read
      have fewer := round.waiting_lt
      have deeper := ih stopped fun definition member => by
        rcases List.mem_append.mp member with old | new
        · exact written definition (List.mem_cons_of_mem _ old)
        · exact value_ne_of_pending read definition new
      omega

/-- What `expandAll` makes of a definition that can be read: one round, and then those that
are left. -/
theorem expandAll_next {name value : String} {one : Expanded}
    (read : expandOne source name value = .ok one) (rounds : Nat) :
    expandAll source (rounds + 1) ((name, value) :: pending) =
      (expandAll source rounds (pending ++ one.pending)).map
        (Expansion.append ⟨[one.set], one.items⟩) := by
  simp only [expandAll, read, bind, Except.bind]
  cases expandAll source rounds (pending ++ one.pending) <;> rfl

/-- A bound that exceeds the characters that wait lets all rounds be made. -/
theorem exists_rounds_expandAll (source : Option Location) {rounds : Nat}
    (enough : waiting pending < rounds) :
    ∃ count, Rounds source pending count (expandAll source rounds pending) := by
  induction rounds generalizing pending with
  | zero => omega
  | succ rounds ih =>
      cases pending with
      | nil => exact ⟨0, .done⟩
      | cons definition pending =>
          obtain ⟨name, value⟩ := definition
          cases read : expandOne source name value with
          | error error =>
              refine ⟨0, ?_⟩
              rw [expandAll, read]
              exact .stop read
          | ok one =>
              obtain ⟨count, later⟩ := ih (waiting_round read enough)
              refine ⟨count + 1, ?_⟩
              rw [expandAll_next read]
              exact .next read later

end Rounds

/-- **Reading a value ends.**  For every text, also one that no declaration holds: the
values of the definitions after its block are shorter together than the text, each round
leaves fewer characters waiting, and the rounds end, with what `expand` says, when they are
no more than the characters of the text.  The round in which a definition cannot be read is
not among these; it is one more that the characters allow, unless there are none. -/
theorem rounds_expand (source : Option Location) (name value : String) :
    (∀ split after, split? .curly value.toList = some split →
      Body.parse (String.ofList split.after) = .ok after →
      waiting after.items.pending < value.length) ∧
    (∀ pending next, Round source pending next → waiting next < waiting pending) ∧
    ∃ count, Rounds source [(name, value)] count (expand source name value) ∧
      (∀ other result, Rounds source [(name, value)] other result →
        other = count ∧ result = expand source name value) ∧
      count ≤ value.length ∧
      (value ≠ "" → ∀ error, expand source name value = .error error → count < value.length) := by
  refine ⟨fun split after cut parsed => ?_, fun _ _ round => round.waiting_lt, ?_⟩
  · have within := (reading_of_parse parsed).waiting_le
    rw [Component.textOf_read, String.toList_ofList] at within
    calc waiting after.items.pending ≤ split.after.length := within
      _ < value.toList.length := length_after_lt cut
      _ = value.length := String.length_toList
  · have enough : waiting [(name, value)] < value.length + 1 := Nat.lt_succ_self _
    obtain ⟨count, rounds⟩ := exists_rounds_expandAll source enough
    refine ⟨count, rounds, fun _ _ => rounds.unique, rounds.count_le, ?_⟩
    intro written error failed
    exact rounds.count_lt failed (by simpa using written)

/-- Two definitions follow a block, one of them behind a semicolon, and both wait. -/
example : (expandOne none "a" "\x7bx:y\x7d --b:\x7bz:w\x7d;--c:\x7bu:v\x7d").toOption.map
    (fun one => (one.pending, waiting one.pending)) =
      some ([("b", "\x7bz:w\x7d"), ("c", "\x7bu:v\x7d")], 10) := by
  decide +kernel

end ApplyRule
