/-
# ApplyRule.Proofs.CallStack -- flattening goes no deeper than there are sets

`flatten` calls itself for whatever name a reference gives, and rewrites the sets it
looks at meanwhile.  `Flattening` is a run of `resolveNested` held still between two of its
steps: the stack of calls that have not returned, the name that is called next, and what
has been done.  `Flattening.advance` makes one step.  It knows of no names that wait; it
goes by the registry, by the names on the stack and by those that are flattened.

* `Flattening.Careful` is what every step preserves (`Careful.move`) and so every run
  (`Careful.steps`): no name is on the stack twice, all are registered, and the sets whose
  references were listed are those that are flattened or on the stack.
* `Flattening.returns_flatten` is what a call comes to: the steps from it lead to its
  return, with the answer and the pass that `flatten` gives, and are refused where it is.

Together, on the sets that were found in any stylesheet, the steps are never refused and
end in the pass that `resolveNested` leaves, the stack is never deeper than there are
sets, and each set's references are listed once (`resolveNested_ends`).
-/
import ApplyRule.Proofs.NestedSets
import Mathlib.Data.List.Perm.Subperm

namespace ApplyRule

set_option autoImplicit false

/-- A call of `flatten` that has not returned and has listed the references of its set:
those that are left, and the one whose set is being flattened meanwhile. -/
structure Frame where
  name : String
  references : List NodeId
  awaits : Option (NodeId × String) := none

/-- A run of `resolveNested` between two steps: the names whose turn is still to come, the
calls that have not returned, the innermost first, the name that `flatten` is called for
next, the names that are flattened, and those whose references were listed. -/
structure Flattening where
  names : List String
  frames : List Frame := []
  call : Option String := none
  flattened : List String := []
  listed : List String := []

namespace Flattening

/-- A run over these names before its first step. -/
def start (names : List String) : Flattening :=
  { names }

/-- The sets that are being flattened, the outermost first. -/
def chainOf (frames : List Frame) : List String :=
  (frames.map Frame.name).reverse

def chain (run : Flattening) : List String :=
  chainOf run.frames

/-- How many calls of `flatten` have not returned, the one that is next included. -/
def depth (run : Flattening) : Nat :=
  run.frames.length + run.call.toList.length

/-- Whether nothing is left to do. -/
def Ended (run : Flattening) : Prop :=
  run.names = [] ∧ run.frames = [] ∧ run.call = none

/-! ## Steps -/

/-- A call begins: it returns at once if the set is flattened or there is none, and lists
the set's references otherwise. -/
def enter (run : Flattening) (name : String) : Step Flattening := do
  if name ∈ run.flattened then return { run with call := none }
  let some set := (← get).registry.lookup? name | return { run with call := none }
  let references ← Step.ask (·.select? (Kind.isAtRule referenceRule) set)
  return { run with
    call := none
    frames := ⟨name, references, none⟩ :: run.frames
    listed := name :: run.listed }

/-- A reference of the innermost set is looked at, where `left` is the run without it.  It
goes, or `flatten` is called for the set it names. -/
def visit (left : Flattening) (frame : Frame) (outer : List Frame) (id : NodeId) :
    Step Flattening := do
  let some (.atRule _ params _) := (← Step.document).kind? id | return left
  match referenceName? params with
  | none =>
      Step.edit (Edit.remove id)
      return left
  | some target =>
      if target ∈ left.chain then
        Step.dropReference (.circularReference (left.chain ++ [target])) id
        return left
      else if (← get).registry.contains target then
        return { left with
          call := some target
          frames := { frame with awaits := some (id, target) } :: outer }
      else
        Step.dropReference (.unknownSet target) id
        return left

/-- The next step of a run; a run that has ended stays as it is. -/
def advance (run : Flattening) : Step Flattening :=
  match run.call, run.frames, run.names with
  | some name, _, _ => run.enter name
  | none, ⟨name, references, some (id, target)⟩ :: outer, _ => do
      if let some set := (← get).registry.lookup? target then
        Step.substitute id set
      return { run with frames := ⟨name, references, none⟩ :: outer }
  | none, ⟨name, id :: references, none⟩ :: outer, _ =>
      let frame : Frame := ⟨name, references, none⟩
      visit { run with frames := frame :: outer } frame outer id
  | none, ⟨name, [], none⟩ :: outer, _ =>
      return { run with frames := outer, flattened := name :: run.flattened }
  | none, [], name :: names => return { run with names, call := some name }
  | none, [], [] => return run

/-- So many steps. -/
def steps : Nat → Flattening → Step Flattening
  | 0, run => return run
  | count + 1, run => do steps count (← run.advance)

/-- Some steps lead from one run to another. -/
def Reaches (run : Flattening) (pass : Pass) (later : Flattening) (after : Pass) : Prop :=
  ∃ count, steps count run pass = .ok later after

section Steps

variable {run later last : Flattening} {pass after final : Pass}

theorem chainOf_cons (frame : Frame) (outer : List Frame) :
    chainOf (frame :: outer) = chainOf outer ++ [frame.name] := by
  simp [chainOf]

theorem steps_add {first : Nat} (begun : steps first run pass = .ok later after) (second : Nat) :
    steps (first + second) run pass = steps second later after := by
  induction first generalizing run pass with
  | zero =>
      cases begun
      rw [Nat.zero_add]
  | succ count ih =>
      obtain ⟨mid, between, ran, rest⟩ := exists_of_bind_ok begun
      rw [Nat.succ_add]
      exact (bind_ok ran).trans (ih rest)

/-- What comes before steps that succeed succeeds. -/
theorem exists_of_steps_add {first second : Nat}
    (ran : steps (first + second) run pass = .ok last final) :
    ∃ later after, steps first run pass = .ok later after := by
  induction first generalizing run pass with
  | zero => exact ⟨run, pass, rfl⟩
  | succ count ih =>
      rw [Nat.succ_add] at ran
      obtain ⟨mid, between, once, rest⟩ := exists_of_bind_ok ran
      obtain ⟨later, after, begun⟩ := ih rest
      exact ⟨later, after, (bind_ok once).trans begun⟩

theorem Reaches.refl (run : Flattening) (pass : Pass) : Reaches run pass run pass :=
  ⟨0, rfl⟩

theorem Reaches.trans (begun : Reaches run pass later after)
    (rest : Reaches later after last final) : Reaches run pass last final := by
  obtain ⟨first, ran⟩ := begun
  obtain ⟨second, ranRest⟩ := rest
  exact ⟨first + second, (steps_add ran second).trans ranRest⟩

theorem Reaches.step (ran : run.advance pass = .ok later after) :
    Reaches run pass later after :=
  ⟨1, (bind_ok ran).trans rfl⟩

theorem advance_of_ended (ended : run.Ended) : run.advance pass = .ok run pass := by
  obtain ⟨names, frames, call, flattened, listed⟩ := run
  obtain ⟨rfl, rfl, rfl⟩ := ended
  rfl

theorem steps_of_ended (ended : run.Ended) (count : Nat) : steps count run pass = .ok run pass := by
  induction count with
  | zero => rfl
  | succ count ih => exact (bind_ok (advance_of_ended ended)).trans ih

/-- Where some steps lead to an end, any number of steps can be made, and as many as those
lead to that end. -/
theorem exists_of_ended {count : Nat} (reached : steps count run pass = .ok last final)
    (ended : last.Ended) (made : Nat) :
    ∃ later after, steps made run pass = .ok later after ∧
      (count ≤ made → later = last ∧ after = final) := by
  have beyond (more : Nat) : steps (count + more) run pass = .ok last final :=
    (steps_add reached more).trans (steps_of_ended ended more)
  have whole := beyond made
  rw [Nat.add_comm] at whole
  obtain ⟨later, after, begun⟩ := exists_of_steps_add whole
  refine ⟨later, after, begun, fun enough => ?_⟩
  have same := beyond (made - count)
  rw [Nat.add_sub_cancel' enough, begun] at same
  cases same
  exact ⟨rfl, rfl⟩

end Steps

/-! ## The registry stays -/

/-- Where a step succeeds, the registry is as it was. -/
def Steady {α : Type} (step : Step α) : Prop :=
  ∀ pass answer after, step pass = .ok answer after → after.registry = pass.registry

namespace Steady

variable {α β : Type}

theorem pure (answer : α) : Steady (Pure.pure answer : Step α) := by
  rintro pass _ _ ⟨⟩
  rfl

theorem get : Steady (get : Step Pass) := by
  rintro pass _ _ ⟨⟩
  rfl

theorem bind {first : Step α} {next : α → Step β} (one : Steady first)
    (other : ∀ answer, Steady (next answer)) : Steady (first >>= next) := by
  intro pass answer after ran
  obtain ⟨value, mid, begun, rest⟩ := exists_of_bind_ok ran
  exact (other value mid answer after rest).trans (one pass value mid begun)

theorem edit (change : Edit α) : Steady (Step.edit change) := by
  intro pass answer after ran
  unfold Step.edit at ran
  split at ran
  · cases ran
    rfl
  · cases ran

theorem document : Steady Step.document :=
  get.bind fun _ => pure _

theorem substitute (reference set : NodeId) : Steady (Step.substitute reference set) :=
  (edit _).bind fun _ => (edit _).bind fun _ => edit _

theorem dropReference (cause : Cause) (id : NodeId) : Steady (Step.dropReference cause id) := by
  refine Steady.bind ((edit _).bind fun _ => pure _) fun source => Steady.bind ?_ fun _ => edit _
  rintro pass _ _ ⟨⟩
  rfl

theorem enter (run : Flattening) (name : String) : Steady (run.enter name) := by
  unfold Flattening.enter
  split
  · exact pure _
  · refine get.bind fun pass => ?_
    split
    · exact (edit _).bind fun _ => pure _
    · exact pure _

theorem visit (left : Flattening) (frame : Frame) (outer : List Frame) (id : NodeId) :
    Steady (left.visit frame outer id) := by
  refine document.bind fun document => ?_
  split
  · split
    · exact (edit _).bind fun _ => pure _
    · split
      · exact (dropReference _ _).bind fun _ => pure _
      · refine get.bind fun pass => ?_
        split
        · exact pure _
        · exact (dropReference _ _).bind fun _ => pure _
  · exact pure _

theorem advance (run : Flattening) : Steady run.advance := by
  unfold Flattening.advance
  split
  · exact enter _ _
  · refine get.bind fun pass => ?_
    split
    · exact (substitute _ _).bind fun _ => pure _
    · exact pure _
  · exact visit _ _ _ _
  all_goals exact pure _

theorem steps (count : Nat) (run : Flattening) : Steady (steps count run) := by
  induction count generalizing run with
  | zero => exact pure _
  | succ count ih => exact (advance run).bind fun _ => ih _

end Steady

theorem Reaches.registry {run later : Flattening} {pass after : Pass}
    (reaches : Reaches run pass later after) : after.registry = pass.registry := by
  obtain ⟨count, ran⟩ := reaches
  exact Steady.steps count run pass later after ran

/-! ## What a step does to the names -/

/-- What a step can do to the names, where `keys` are registered. -/
inductive Move (keys : List String) : Flattening → Flattening → Prop where
  /-- A set that is not flattened is looked at. -/
  | enters {names flattened listed : List String} {frames : List Frame} {name : String}
      (references : List NodeId) (fresh : name ∉ flattened) :
      Move keys ⟨names, frames, some name, flattened, listed⟩
        ⟨names, ⟨name, references, none⟩ :: frames, none, flattened, name :: listed⟩
  /-- A call has nothing to do. -/
  | returns {names flattened listed : List String} {frames : List Frame} {name : String} :
      Move keys ⟨names, frames, some name, flattened, listed⟩
        ⟨names, frames, none, flattened, listed⟩
  /-- A reference of the innermost set is done. -/
  | looks {names flattened listed : List String} {frame other : Frame} {outer : List Frame}
      (same : other.name = frame.name) :
      Move keys ⟨names, frame :: outer, none, flattened, listed⟩
        ⟨names, other :: outer, none, flattened, listed⟩
  /-- A reference of the innermost set leads to another. -/
  | calls {names flattened listed : List String} {frame other : Frame} {outer : List Frame}
      {target : String} (same : other.name = frame.name)
      (fresh : target ∉ chainOf (frame :: outer)) (known : target ∈ keys) :
      Move keys ⟨names, frame :: outer, none, flattened, listed⟩
        ⟨names, other :: outer, some target, flattened, listed⟩
  /-- The innermost set is flattened. -/
  | finishes {names flattened listed : List String} {frame : Frame} {outer : List Frame} :
      Move keys ⟨names, frame :: outer, none, flattened, listed⟩
        ⟨names, outer, none, frame.name :: flattened, listed⟩
  /-- The turn of the next name comes. -/
  | turns {name : String} {names flattened listed : List String} :
      Move keys ⟨name :: names, [], none, flattened, listed⟩
        ⟨names, [], some name, flattened, listed⟩
  /-- All is done. -/
  | rests {flattened listed : List String} :
      Move keys ⟨[], [], none, flattened, listed⟩ ⟨[], [], none, flattened, listed⟩

/-- Where a step succeeds, it is one of these from `run`. -/
def Moves (keys : List String) (run : Flattening) (step : Step Flattening) : Prop :=
  ∀ pass later after, pass.registry.names = keys → step pass = .ok later after →
    Move keys run later

namespace Moves

variable {keys names flattened listed : List String} {run : Flattening} {outer : List Frame}
  {α : Type}

theorem pure {later : Flattening} (move : Move keys run later) :
    Moves keys run (Pure.pure later : Step Flattening) := by
  rintro pass _ _ - ⟨⟩
  exact move

theorem bind {first : Step α} {next : α → Step Flattening} (steady : Steady first)
    (other : ∀ answer, Moves keys run (next answer)) : Moves keys run (first >>= next) := by
  intro pass later after own ran
  obtain ⟨value, mid, begun, rest⟩ := exists_of_bind_ok ran
  refine other value mid later after ?_ rest
  rw [steady pass value mid begun]
  exact own

/-- A step that goes by what the pass is. -/
theorem get_bind {next : Pass → Step Flattening}
    (other : ∀ pass, pass.registry.names = keys → Moves keys run (next pass)) :
    Moves keys run (get >>= next) := by
  intro pass later after own ran
  rw [bind_ok Step.get_ok] at ran
  exact other pass own pass later after own ran

theorem enter {frames : List Frame} {name : String} :
    Moves keys ⟨names, frames, some name, flattened, listed⟩
      (Flattening.enter ⟨names, frames, some name, flattened, listed⟩ name) := by
  unfold Flattening.enter
  by_cases done : name ∈ flattened
  · rw [if_pos done]
    exact pure .returns
  · rw [if_neg done]
    refine get_bind fun pass _ => ?_
    split
    · exact bind (.edit _) fun references => pure (.enters references done)
    · exact pure .returns

theorem visit {name : String} {id : NodeId} {references : List NodeId} :
    Moves keys ⟨names, ⟨name, id :: references, none⟩ :: outer, none, flattened, listed⟩
      (Flattening.visit ⟨names, ⟨name, references, none⟩ :: outer, none, flattened, listed⟩
        ⟨name, references, none⟩ outer id) := by
  have looked : Moves keys ⟨names, ⟨name, id :: references, none⟩ :: outer, none, flattened, listed⟩
      (Pure.pure ⟨names, ⟨name, references, none⟩ :: outer, none, flattened, listed⟩) :=
    pure (.looks rfl)
  refine bind .document fun document => ?_
  split
  · split
    · exact bind (.edit _) fun _ => looked
    · rename_i target _
      split
      · exact bind (.dropReference _ _) fun _ => looked
      · rename_i fresh
        refine get_bind fun pass own => ?_
        split
        · rename_i known
          obtain ⟨set, lookup⟩ := Option.isSome_iff_exists.mp known
          refine pure (.calls rfl ?_ (own ▸ Registry.mem_names_of_lookup? lookup))
          simpa [chain, chainOf_cons] using fresh
        · exact bind (.dropReference _ _) fun _ => looked
  · exact looked

end Moves

/-- **What a step can do.** -/
theorem moves_advance (keys : List String) (run : Flattening) : Moves keys run run.advance := by
  obtain ⟨names, frames, call, flattened, listed⟩ := run
  cases call with
  | some name => exact .enter
  | none =>
      cases frames with
      | nil =>
          cases names with
          | nil => exact .pure .rests
          | cons name names => exact .pure .turns
      | cons frame outer =>
          obtain ⟨name, references, awaits⟩ := frame
          cases awaits with
          | some awaited =>
              refine .get_bind fun pass _ => ?_
              split
              · exact .bind (.substitute _ _) fun _ => .pure (.looks rfl)
              · exact .pure (.looks rfl)
          | none =>
              cases references with
              | nil => exact .pure .finishes
              | cons id references => exact .visit

/-! ## What every step preserves -/

/-- No name is on the stack twice, whether its call goes on or is next, and all are
registered; the sets whose references were listed are those that are flattened or on the
stack, and none of them was listed twice. -/
structure Careful (keys : List String) (run : Flattening) : Prop where
  nodup : (run.chain ++ run.call.toList).Nodup
  known : ∀ name ∈ run.chain ++ run.call.toList, name ∈ keys
  names : ∀ name ∈ run.names, name ∈ keys
  once : run.listed.Nodup
  within : ∀ name ∈ run.listed, name ∈ keys
  listed : ∀ name, name ∈ run.listed ↔ name ∈ run.flattened ∨ name ∈ run.chain

section Careful

variable {keys : List String} {run later : Flattening} {pass after : Pass}

theorem careful_start (keys : List String) : Careful keys (start keys) := by
  refine ⟨List.nodup_nil, nofun, fun _ => id, List.nodup_nil, nofun, fun name => ?_⟩
  simp [start, chain, chainOf]

/-- **What one step preserves.** -/
theorem Careful.move (careful : Careful keys run) (move : Move keys run later) :
    Careful keys later := by
  obtain ⟨nodup, known, turns, once, within, covers⟩ := careful
  cases move with
  | @enters _ _ _ _ name references fresh =>
      have absent : name ∉ chainOf _ := fun member =>
        List.disjoint_of_nodup_append nodup member (List.mem_singleton_self name)
      refine ⟨?_, ?_, turns, List.nodup_cons.mpr ⟨?_, once⟩, ?_, ?_⟩
      · simpa [chain, chainOf_cons] using nodup
      · simpa [chain, chainOf_cons] using known
      · rw [covers, not_or]
        exact ⟨fresh, absent⟩
      · exact List.forall_mem_cons.mpr ⟨known name (by simp), within⟩
      · intro other
        have own := covers other
        simp only [chain, chainOf_cons, List.mem_cons, List.mem_append, List.not_mem_nil,
          or_false] at own ⊢
        tauto
  | returns =>
      refine ⟨?_, ?_, turns, once, within, covers⟩
      · simpa [chain] using nodup.of_append_left
      · intro other member
        exact known other (List.mem_append_left _ (by simpa [chain] using member))
  | looks same =>
      refine ⟨?_, ?_, turns, once, within, ?_⟩
      · simpa [chain, chainOf_cons, same] using nodup
      · simpa [chain, chainOf_cons, same] using known
      · simpa [chain, chainOf_cons, same] using covers
  | @calls _ _ _ frame other outer target same fresh isKey =>
      refine ⟨?_, ?_, turns, once, within, ?_⟩
      · have chained : (chainOf (frame :: outer)).Nodup := by simpa [chain] using nodup
        have more := List.nodup_append'.mpr ⟨chained, List.nodup_singleton target,
          List.disjoint_singleton.mpr fresh⟩
        simpa [chain, chainOf_cons, same] using more
      · intro name member
        simp only [chain, chainOf_cons, same] at known member
        rcases List.mem_append.mp member with before | last
        · exact known name (List.mem_append_left _ before)
        · rw [Option.toList_some, List.mem_singleton] at last
          rw [last]
          exact isKey
      · simpa [chain, chainOf_cons, same] using covers
  | @finishes _ _ _ frame outer =>
      simp only [chain, chainOf_cons, Option.toList_none, List.append_nil] at nodup known covers
      refine ⟨?_, ?_, turns, once, within, ?_⟩
      · simpa [chain] using nodup.of_append_left
      · intro other member
        exact known other (List.mem_append_left _ (by simpa [chain] using member))
      · intro other
        have own := covers other
        simp only [chain, List.mem_cons, List.mem_append, List.not_mem_nil, or_false] at own ⊢
        tauto
  | @turns name names _ _ =>
      refine ⟨List.nodup_singleton name, ?_, fun other member =>
        turns other (List.mem_cons_of_mem _ member), once, within, covers⟩
      intro other member
      rw [List.mem_singleton.mp member]
      exact turns name List.mem_cons_self
  | rests => exact ⟨nodup, known, turns, once, within, covers⟩

/-- **What a run preserves.** -/
theorem Careful.steps {count : Nat} (careful : Careful pass.registry.names run)
    (ran : steps count run pass = .ok later after) :
    Careful pass.registry.names later := by
  induction count generalizing run pass with
  | zero =>
      cases ran
      exact careful
  | succ count ih =>
      obtain ⟨mid, between, once, rest⟩ := exists_of_bind_ok ran
      have stays := Steady.advance run pass mid between once
      have next := careful.move (moves_advance _ run pass mid between rfl once)
      rw [← stays] at next ⊢
      exact ih next rest

/-- The stack is never deeper than there are names. -/
theorem Careful.depth_le (careful : Careful keys run) : run.depth ≤ keys.length := by
  have fits := (List.subperm_of_subset careful.nodup careful.known).length_le
  simpa [chain, chainOf, depth] using fits

end Careful

/-! ## What a call comes to -/

/-- Where a step of `flatten` succeeds, the steps from `run` lead to `back`, given what is
flattened then; where it is refused, they are refused. -/
def Comes (run : Flattening) (pass : Pass) (result : EStateM.Result Error Pass (List String))
    (back : List String → List String → Flattening) : Prop :=
  match result with
  | .ok flattened after => ∃ listed, Reaches run pass (back flattened listed) after
  | .error error after => ∃ count, steps count run pass = .error error after

namespace Comes

variable {run later : Flattening} {pass mid after : Pass} {flattened listed : List String}
  {result : EStateM.Result Error Pass (List String)} {back : List String → List String → Flattening}

theorem done (looked : run.advance pass = .ok (back flattened listed) after) :
    Comes run pass (.ok flattened after) back :=
  ⟨listed, .step looked⟩

theorem of_reaches (begun : Reaches run pass later mid) (rest : Comes later mid result back) :
    Comes run pass result back := by
  cases result with
  | ok flattened after =>
      obtain ⟨listed, reached⟩ := rest
      exact ⟨listed, begun.trans reached⟩
  | error error after =>
      obtain ⟨first, ran⟩ := begun
      obtain ⟨second, refused⟩ := rest
      exact ⟨first + second, (steps_add ran second).trans refused⟩

/-- One step does the first part. -/
theorem advance {α : Type} {first : Step α} {next : α → Step (List String)}
    {reached : α → Flattening}
    (looked : run.advance pass = (first >>= fun answer => pure (reached answer)) pass)
    (rest : ∀ answer mid, Reaches run pass (reached answer) mid →
      Comes (reached answer) mid (next answer mid) back) :
    Comes run pass ((first >>= next) pass) back := by
  cases ran : first pass with
  | ok answer mid =>
      have begun : Reaches run pass (reached answer) mid := .step (looked.trans (bind_ok ran))
      rw [bind_ok ran]
      exact of_reaches begun (rest answer mid begun)
  | error error after =>
      rw [bind_refused ran]
      exact ⟨1, bind_refused (looked.trans (bind_refused ran))⟩

/-- The steps that the first part comes to do it. -/
theorem bind {first : Step (List String)} {next : List String → Step (List String)}
    {between : List String → List String → Flattening} (begun : Comes run pass (first pass) between)
    (rest : ∀ flattened listed mid, Reaches run pass (between flattened listed) mid →
      Comes (between flattened listed) mid (next flattened mid) back) :
    Comes run pass ((first >>= next) pass) back := by
  unfold Comes at begun
  cases ran : first pass with
  | ok flattened mid =>
      rw [ran] at begun
      obtain ⟨listed, reached⟩ := begun
      rw [bind_ok ran]
      exact of_reaches reached (rest flattened listed mid reached)
  | error error after =>
      rw [ran] at begun
      rw [bind_refused ran]
      exact begun

end Comes

/-- The names that wait are those that are registered and not in the chain. -/
structure Waits (keys waiting chain : List String) : Prop where
  nodup : waiting.Nodup
  mem : ∀ name, name ∈ waiting ↔ name ∈ keys ∧ name ∉ chain

/-- The steps from a call lead to its return, with what `flatten` gives, or are refused as
it is. -/
def Returns (keys waiting chain : List String) (name : String) : Prop :=
  ∀ names frames flattened listed pass, chainOf frames = chain → pass.registry.names = keys →
    Comes ⟨names, frames, some name, flattened, listed⟩ pass
      (Step.flatten waiting chain name flattened pass)
      fun flattened listed => ⟨names, frames, none, flattened, listed⟩

section Returns

variable {keys waiting chain names flattened listed : List String} {name : String}
  {outer : List Frame} {id : NodeId} {references : List NodeId} {pass : Pass}

theorem Waits.next {target : String} (waits : Waits keys waiting chain) :
    Waits keys (waiting.erase target) (chain ++ [target]) := by
  refine ⟨waits.nodup.erase target, fun other => ?_⟩
  rw [waits.nodup.mem_erase_iff, waits.mem, List.mem_append, List.mem_singleton]
  tauto

theorem waits_filter (nodup : keys.Nodup) (chain : List String) :
    Waits keys (keys.filter (· ∉ chain)) chain := by
  refine ⟨nodup.filter _, fun name => ?_⟩
  simp

/-- When the call for the set that a reference names has returned, copies take the
reference's place. -/
theorem comes_awaited (target : String) :
    Comes ⟨names, ⟨name, references, some (id, target)⟩ :: outer, none, flattened, listed⟩ pass
      ((do
        if let some set := (← get).registry.lookup? target then
          Step.substitute id set
        return flattened : Step (List String)) pass)
      fun flattened listed =>
        ⟨names, ⟨name, references, none⟩ :: outer, none, flattened, listed⟩ := by
  have looked : advance
      ⟨names, ⟨name, references, some (id, target)⟩ :: outer, none, flattened, listed⟩ pass = _ :=
    bind_ok Step.get_ok
  rw [bind_ok Step.get_ok]
  cases lookup : pass.registry.lookup? target with
  | none =>
      rw [lookup] at looked
      exact .done looked
  | some set =>
      rw [lookup] at looked
      exact .advance looked fun _ mid _ => ⟨listed, .refl _ _⟩

/-- **One reference inside a set.**  It is resolved in one step, or a call for the set it
names comes first. -/
theorem comes_flattenOne (waits : Waits keys waiting (chain ++ [name]))
    (deeper : ∀ target ∈ waiting, Returns keys (waiting.erase target) (chain ++ [name]) target)
    (chained : chainOf outer = chain) (own : pass.registry.names = keys) :
    Comes ⟨names, ⟨name, id :: references, none⟩ :: outer, none, flattened, listed⟩ pass
      (Step.flattenOne waiting (chain ++ [name]) flattened id pass)
      fun flattened listed =>
        ⟨names, ⟨name, references, none⟩ :: outer, none, flattened, listed⟩ := by
  let frame : Frame := ⟨name, references, none⟩
  let left : Flattening := ⟨names, frame :: outer, none, flattened, listed⟩
  have stack (frame : Frame) (same : frame.name = name) :
      chainOf (frame :: outer) = chain ++ [name] := by
    rw [chainOf_cons, chained, same]
  have leftChain : left.chain = chain ++ [name] := stack frame rfl
  have looked : advance ⟨names, ⟨name, id :: references, none⟩ :: outer, none, flattened, listed⟩
      pass = left.visit frame outer id pass := rfl
  unfold visit at looked
  unfold Step.flattenOne Step.atNested
  rw [bind_ok Step.document_ok] at looked ⊢
  cases found : pass.document.kind? id with
  | none =>
      rw [found] at looked
      exact .done looked
  | some kind =>
      rw [found] at looked
      cases kind with
      | atRule rule params hasBlock =>
          cases named : referenceName? params with
          | none =>
              simp only [named] at looked ⊢
              exact .advance looked fun _ mid _ => ⟨listed, .refl _ _⟩
          | some target =>
              simp only [named, leftChain] at looked ⊢
              by_cases looped : target ∈ chain ++ [name]
              · rw [if_pos looped] at looked ⊢
                exact .advance looked fun _ mid _ => ⟨listed, .refl _ _⟩
              · rw [if_neg looped, bind_ok Step.get_ok] at looked
                rw [if_neg looped]
                have same : pass.registry.contains target = true ↔ target ∈ waiting := by
                  rw [waits.mem, ← own, NameMap.contains, Option.isSome_iff_exists]
                  constructor
                  · rintro ⟨set, lookup⟩
                    exact ⟨Registry.mem_names_of_lookup? lookup, looped⟩
                  · exact fun both => Registry.lookup?_of_mem_names both.1
                by_cases member : target ∈ waiting
                · rw [if_pos (same.mpr member)] at looked
                  rw [dif_pos member]
                  refine .of_reaches (.step looked) ?_
                  refine .bind (deeper target member names _ flattened listed pass ?_ own) ?_
                  · exact stack ⟨name, references, some (id, target)⟩ rfl
                  · exact fun flattened listed mid _ => comes_awaited target
                · rw [if_neg (mt same.mp member)] at looked
                  rw [dif_neg member]
                  exact .advance looked fun _ mid _ => ⟨listed, .refl _ _⟩
      | _ => exact .done looked

/-- The references inside a set are resolved one after the other. -/
theorem comes_foldlM (waits : Waits keys waiting (chain ++ [name]))
    (deeper : ∀ target ∈ waiting, Returns keys (waiting.erase target) (chain ++ [name]) target)
    (chained : chainOf outer = chain) (own : pass.registry.names = keys) :
    Comes ⟨names, ⟨name, references, none⟩ :: outer, none, flattened, listed⟩ pass
      (references.foldlM (Step.flattenOne waiting (chain ++ [name])) flattened pass)
      fun flattened listed => ⟨names, ⟨name, [], none⟩ :: outer, none, flattened, listed⟩ := by
  induction references generalizing flattened listed pass with
  | nil => exact ⟨listed, .refl _ _⟩
  | cons id references ih =>
      rw [List.foldlM_cons]
      refine .bind (comes_flattenOne waits deeper chained own) fun flattened listed mid begun => ?_
      exact ih (begun.registry ▸ own)

/-- **What a call comes to.**  By recursion on the number of names that wait. -/
theorem returns_flatten (waits : Waits keys waiting (chain ++ [name])) :
    Returns keys waiting chain name := by
  induction count : waiting.length using Nat.strongRecOn generalizing waiting chain name with
  | ind n ih =>
      intro names frames flattened listed pass chained own
      have looked : advance ⟨names, frames, some name, flattened, listed⟩ pass =
        enter ⟨names, frames, some name, flattened, listed⟩ name pass := rfl
      unfold enter at looked
      rw [Step.flatten_eq]
      by_cases done : name ∈ flattened
      · rw [if_pos done] at looked ⊢
        exact .done looked
      · rw [if_neg done, bind_ok Step.get_ok] at looked ⊢
        cases lookup : pass.registry.lookup? name with
        | none =>
            rw [lookup] at looked
            exact .done looked
        | some set =>
            rw [lookup] at looked
            have deeper : ∀ target ∈ waiting,
                Returns keys (waiting.erase target) (chain ++ [name]) target := by
              intro target member
              refine ih _ ?_ waits.next rfl
              rw [← count, List.length_erase_of_mem member]
              have := List.length_pos_of_mem member
              omega
            refine .advance looked fun references mid begun => ?_
            refine .bind (comes_foldlM waits deeper chained (begun.registry ▸ own)) ?_
            exact fun flattened listed mid _ => .done rfl

/-- The turn of every name comes. -/
theorem comes_names (nodup : keys.Nodup) (known : names ⊆ keys)
    (own : pass.registry.names = keys) :
    Comes ⟨names, [], none, flattened, listed⟩ pass
      (names.foldlM (fun flattened name =>
        Step.flatten (keys.erase name) [] name flattened) flattened pass)
      fun flattened listed => ⟨[], [], none, flattened, listed⟩ := by
  induction names generalizing flattened listed pass with
  | nil => exact ⟨listed, .refl _ _⟩
  | cons name names ih =>
      obtain ⟨isKey, areKeys⟩ := List.cons_subset.mp known
      have waits : Waits keys (keys.erase name) ([] ++ [name]) := by
        refine ⟨nodup.erase name, fun other => ?_⟩
        rw [nodup.mem_erase_iff, List.nil_append, List.mem_singleton]
        exact And.comm
      rw [List.foldlM_cons]
      refine .of_reaches (.step rfl) (.bind (returns_flatten waits names [] flattened listed pass
        rfl own) fun flattened listed mid begun => ?_)
      exact ih areKeys (begun.registry ▸ own)

/-- Where no step is refused, a call that is next returns. -/
theorem exists_return {run : Flattening} (nodup : keys.Nodup) (own : pass.registry.names = keys)
    (call : run.call = some name)
    (runs : ∀ count, ∃ later after, steps count run pass = .ok later after) :
    ∃ flattened listed after,
      Step.flatten (keys.filter (· ∉ run.chain ++ [name])) run.chain name run.flattened pass =
        .ok flattened after ∧
      Reaches run pass { run with call := none, flattened, listed } after := by
  obtain ⟨names, frames, _, flattened, listed⟩ := run
  cases call
  have comes := returns_flatten (waits_filter nodup (chainOf frames ++ [name])) names frames
    flattened listed pass rfl own
  unfold Comes at comes
  split at comes
  · rename_i flattened after ran
    obtain ⟨listed, reached⟩ := comes
    exact ⟨flattened, listed, after, ran, reached⟩
  · obtain ⟨count, refused⟩ := comes
    obtain ⟨later, after, ran⟩ := runs count
    rw [refused] at ran
    cases ran

end Returns

end Flattening

/-! ## The result -/

/-- **Flattening ends on every graph.**  Take the sets that were found in any stylesheet,
whatever refers to whatever.  No step of `resolveNested` is refused.  At any time no set is
being flattened twice, all that are being flattened are registered, there are no more calls
that have not returned than sets, no set's references were listed twice, and a call that is
next returns with what `flatten` gives, for the sets that are being flattened as its chain.
After some number of steps nothing is left to do: the pass is the one that `resolveNested`
leaves, and every set's references were listed. -/
theorem resolveNested_ends {css : String} {document : Document} {options : Options} {pass : Pass}
    (parsed : Document.parse css = .ok document)
    (ran : Step.findSets { document, options } = .ok () pass) :
    ∃ count after, Step.resolveNested pass = .ok () after ∧
      ∀ made, ∃ run now,
        Flattening.steps made (.start pass.registry.names) pass = .ok run now ∧
        now.registry = pass.registry ∧
        run.chain.Nodup ∧ (∀ name ∈ run.chain, name ∈ pass.registry.names) ∧
        run.depth ≤ pass.registry.size ∧ run.listed.Nodup ∧
        (∀ name, run.call = some name → ∃ flattened listed later,
          Step.flatten (pass.registry.names.filter (· ∉ run.chain ++ [name])) run.chain name
            run.flattened now = .ok flattened later ∧
          Flattening.Reaches run now { run with call := none, flattened, listed } later) ∧
        (count ≤ made → run.Ended ∧ now = after ∧ run.listed.Perm pass.registry.names) := by
  have tidy := Step.tidy_findSets parsed ran
  obtain ⟨flattened, -, after, looped, -, -, done⟩ :=
    Step.progress_foldlM tidy _ (List.Subset.refl _) (Step.progress_start tidy)
  have comes : Flattening.Comes (.start pass.registry.names) pass _ _ :=
    Flattening.comes_names tidy.names (List.Subset.refl _) rfl
  rw [looped] at comes
  obtain ⟨listed, count, reached⟩ := comes
  have whole : Step.resolveNested pass = .ok () after := by
    unfold Step.resolveNested
    rw [bind_ok Step.get_ok, bind_ok looped]
    rfl
  have ended : Flattening.Ended ⟨[], [], none, flattened, listed⟩ := ⟨rfl, rfl, rfl⟩
  refine ⟨count, after, whole, fun made => ?_⟩
  obtain ⟨run, now, begun, last⟩ := Flattening.exists_of_ended reached ended made
  have careful := (Flattening.careful_start pass.registry.names).steps begun
  have stays : now.registry = pass.registry := Flattening.Steady.steps _ _ _ _ _ begun
  refine ⟨run, now, begun, stays, careful.nodup.of_append_left,
    fun name member => careful.known name (List.mem_append_left _ member), ?_, careful.once, ?_, ?_⟩
  · simpa [NameMap.names, NameMap.size] using careful.depth_le
  · intro name call
    refine Flattening.exists_return tidy.names (stays ▸ rfl) call fun more => ?_
    obtain ⟨later, final, further, -⟩ := Flattening.exists_of_ended reached ended (made + more)
    exact ⟨later, final, (Flattening.steps_add begun more).symm.trans further⟩
  · intro enough
    obtain ⟨rfl, rfl⟩ := last enough
    refine ⟨ended, rfl, (List.perm_ext_iff_of_nodup careful.once tidy.names).mpr fun name => ?_⟩
    exact ⟨careful.within name, fun member => (careful.listed name).mpr (.inl (done name member))⟩

/-- The pole of `resolveNested_ends`: two loops and two ways from `--a` to `--c`, where the
stack gets as deep as there are sets. -/
theorem resolveNested_ends_loops :
    ∃ document pass,
      Document.parse (":root\x7b--a:\x7b@apply --b;@apply --c\x7d;--b:\x7b@apply --c\x7d;" ++
        "--c:\x7b@apply --a;@apply --c\x7d\x7d") = .ok document ∧
      Step.findSets { document, options := {} } = .ok () pass ∧
      pass.registry.names = ["a", "b", "c"] ∧
      (∃ run now, Flattening.steps 6 (.start pass.registry.names) pass = .ok run now ∧
        run.chain = ["a", "b", "c"] ∧ run.depth = pass.registry.size) ∧
      ∃ count after, Step.resolveNested pass = .ok () after ∧
        ∀ made, ∃ run now,
          Flattening.steps made (.start pass.registry.names) pass = .ok run now ∧
          run.chain.Nodup ∧ run.depth ≤ pass.registry.size ∧ run.listed.Nodup ∧
          (count ≤ made → run.Ended ∧ now = after) := by
  obtain ⟨document, pass, parsed, ran, computed⟩ := Step.exists_findSets
    (":root\x7b--a:\x7b@apply --b;@apply --c\x7d;--b:\x7b@apply --c\x7d;" ++
      "--c:\x7b@apply --a;@apply --c\x7d\x7d") {} (fun pass =>
    decide (pass.registry.names = ["a", "b", "c"]) &&
      match Flattening.steps 6 (.start pass.registry.names) pass with
      | .ok run _ => decide (run.chain = ["a", "b", "c"] ∧ run.depth = pass.registry.size)
      | .error _ _ => false)
    (by decide +kernel)
  obtain ⟨names, deep⟩ := Bool.and_eq_true_iff.mp computed
  obtain ⟨count, after, whole, every⟩ := resolveNested_ends parsed ran
  refine ⟨document, pass, parsed, ran, of_decide_eq_true names, ?_, count, after, whole, ?_⟩
  · obtain ⟨run, now, begun, -⟩ := every 6
    rw [begun] at deep
    exact ⟨run, now, begun, of_decide_eq_true deep⟩
  · intro made
    obtain ⟨run, now, begun, -, nodup, -, depth, once, -, last⟩ := every made
    exact ⟨run, now, begun, nodup, depth, once, fun enough => ⟨(last enough).1, (last enough).2.1⟩⟩

end ApplyRule
