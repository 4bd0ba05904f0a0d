import ClassScript.Proofs.Session.Input

/-!
# Sessions step by step

A session takes one text after another. Whatever happened before, it is steady between
two texts (`Steady`): its machine is healthy, stands at top level, and knows nothing
of identities that are still to be drawn. So at every moment of every step that is
accepted the machine is healthy and the task at hand is ready (`Step.Moment.sound`).
-/

namespace ClassScript.Session

open Source Syntax Parsing Object Binding Machine

/-- The ways to hand a text to a session. -/
inductive Entry where
  | run | evaluate | line
deriving Repr, DecidableEq

/-- A text that is handed to a session, and the fuel for its run. -/
structure Step where
  entry : Entry
  text : String
  fuel : Nat

def Outcome.map {α β : Type} (f : α → β) : Outcome α → Outcome β
  | .ok value => .ok (f value)
  | .failed failure => .failed failure
  | .outOfFuel => .outOfFuel

/-- A checked text as another kind of tree. -/
def Checked.map {α β : Type} (f : α → β) (checked : Checked α) : Checked β :=
  (checked.1.map fun accepted => ⟨f accepted.tree, accepted.locals⟩, checked.2)

namespace Step

/-- The check of a step's text, which draws identities from the given one on. -/
def check (step : Step) (nextId : NodeId) : Checked Input :=
  match step.entry with
  | .run => (checkProgram step.text nextId).map .statements
  | .evaluate => (checkExpression step.text nextId).map .expression
  | .line => checkInput step.text nextId

/-- What a session does with the text: the outcome, with the text of a value if there
is one, and the session afterwards. -/
def take (step : Step) (s : Session) : Outcome (Option String) × Session :=
  match step.entry with
  | .run =>
    let (outcome, s) := s.run step.fuel step.text
    (outcome.map fun _ => none, s)
  | .evaluate =>
    let (outcome, s) := s.evaluate step.fuel step.text
    (outcome.map some, s)
  | .line => s.runLine step.fuel step.text

end Step

/-- The session behind some steps. -/
def after (s : Session) (steps : List Step) : Session :=
  steps.foldl (fun s step => (step.take s).2) s

theorem after_append (s : Session) (steps : List Step) (next : Step) :
    s.after (steps ++ [next]) = (next.take (s.after steps)).2 := by
  simp [after]

/-- The inputs of those steps that the session accepts. -/
def accepted (s : Session) : List Step → List Input
  | [] => []
  | step :: rest =>
    accepted (step.take s).2 rest ++ ((step.check s.nextId).1.toOption.map (·.tree)).toList

/-- What a session accepts in more steps comes before what it accepted until then. -/
theorem accepted_append (s : Session) (steps more : List Step) :
    s.accepted (steps ++ more) = (s.after steps).accepted more ++ s.accepted steps := by
  induction steps generalizing s with
  | nil => rw [accepted, List.append_nil]; rfl
  | cons step rest ih =>
    rw [List.cons_append, accepted, ih, accepted, List.append_assoc]
    rfl

/-! ## One step -/

/-- What a session tells of a run. -/
def Outcome.of {α : Type} : EStateM.Result Stop Machine.State α → Outcome α
  | .ok value _ => .ok value
  | .error (.fault fault) _ => .failed (.fault fault)
  | .error .outOfFuel _ => .outOfFuel

theorem onMachine_eq {α : Type} (s : Session) (run : Run α) :
    s.onMachine run = (Outcome.of (run s.machine), ⟨left (run s.machine), s.nextId⟩) := by
  obtain ⟨machine, nextId⟩ := s
  simp only [onMachine]
  cases run machine with
  | ok value m => rfl
  | error e m => cases e <;> rfl

/-- A step does what its check and the run of the accepted input say. -/
theorem Step.take_eq (step : Step) (s : Session) :
    step.take s = s.onAccepted (step.check s.nextId) (runInput step.fuel) := by
  obtain ⟨entry, text, fuel⟩ := step
  -- the ways differ in what they read, and in what they tell of the run
  cases entry with
  | run =>
    simp only [take, check, run, onAccepted]
    obtain ⟨result, nextId⟩ := checkProgram text s.nextId
    cases result with
    | error rejection => rfl
    | ok program =>
      simp only [Checked.map, Except.map, onMachine_eq, runInput, bind, EStateM.bind]
      cases runProgram fuel program.tree program.locals s.machine with
      | ok value m => rfl
      | error e m => cases e <;> rfl
  | evaluate =>
    simp only [take, check, evaluate, onAccepted]
    obtain ⟨result, nextId⟩ := checkExpression text s.nextId
    cases result with
    | error rejection => rfl
    | ok e =>
      simp only [Checked.map, Except.map, onMachine_eq, runInput, bind, EStateM.bind]
      cases evaluateText fuel e.tree e.locals s.machine with
      | ok value m => rfl
      | error e m => cases e <;> rfl
  | line => rfl

theorem named_of_tokens {text : String} {found : Tokens} (h : tokens text = .ok found) :
    Named found.list :=
  wellNamed_tokens h

/-- What a check accepts was read with new identities, and the others are left for
the next one. -/
theorem check_spec {α : Type} {parse : Tokens → NodeId → Reading α × NodeId}
    (resolve : α → Except (List BindingError) Locals) {n : Nat} {post : α → Nat → Prop}
    (reads : ∀ tokens, Named tokens.list → Reads n post (parse tokens n)) (text : String) :
    n ≤ (check parse resolve text n).2 ∧
      ∀ input, (check parse resolve text n).1 = .ok input →
        post input.tree (check parse resolve text n).2 ∧
          resolve input.tree = .ok input.locals := by
  unfold check
  cases hs : tokens text with
  | error errors => exact ⟨Nat.le_refl n, nofun⟩
  | ok found =>
    have read := reads found (named_of_tokens hs)
    simp only
    generalize parse found n = parsed at read
    obtain ⟨result, last⟩ := parsed
    cases result with
    -- identities are drawn also by a text that is rejected later
    | error errors => exact ⟨read, nofun⟩
    | ok tree =>
      simp only
      cases hr : resolve tree with
      | error errors => exact ⟨read.1, nofun⟩
      | ok locals =>
        refine ⟨read.1, fun input same => ?_⟩
        cases same
        exact ⟨read.2, hr⟩

theorem Checked.of_map {α β : Type} {f : α → β} {checked : Checked α} {input : Accepted β}
    (h : (checked.map f).1 = .ok input) :
    ∃ accepted, checked.1 = .ok accepted ∧ input = ⟨f accepted.tree, accepted.locals⟩ := by
  obtain ⟨result, nextId⟩ := checked
  cases result with
  | error rejection => cases h
  | ok accepted => exact ⟨accepted, rfl, (Except.ok.inj h).symm⟩

/-- What a step's check accepts has new identities, and later steps draw others. -/
theorem Step.check_accepts (step : Step) (n : Nat) :
    n ≤ (step.check n).2 ∧
      ∀ input, (step.check n).1 = .ok input → Accepts n (step.check n).2 input := by
  obtain ⟨entry, text, fuel⟩ := step
  -- the three entries differ in what they read and resolve
  cases entry with
  | run =>
    obtain ⟨ordered, spec⟩ :=
      check_spec Binding.ofProgram (fun _ named => program_new named n) text
    refine ⟨ordered, ?_⟩
    intro input same
    obtain ⟨program, read, rfl⟩ := Checked.of_map same
    exact ⟨(spec program read).1, ordered, (spec program read).2⟩
  | evaluate =>
    obtain ⟨ordered, spec⟩ :=
      check_spec Binding.ofExpression (fun _ named => singleExpression_new named n) text
    refine ⟨ordered, ?_⟩
    intro input same
    obtain ⟨e, read, rfl⟩ := Checked.of_map same
    exact ⟨(spec e read).1, ordered, (spec e read).2⟩
  | line =>
    obtain ⟨ordered, spec⟩ :=
      check_spec resolveInput (fun _ named => input_new named n) text
    refine ⟨ordered, ?_⟩
    intro input same
    exact ⟨(spec input same).1, ordered, (spec input same).2⟩

theorem accepts_of_check (step : Step) {n last : NodeId} {input : Accepted Input}
    (checked : step.check n = (.ok input, last)) : Accepts n last input := by
  have accepts := (step.check_accepts n).2
  rw [checked] at accepts
  exact accepts input rfl

theorem accepts_of_checkProgram {text : String} {n last : NodeId} {program : Program}
    {locals : Locals} (accepted : checkProgram text n = (.ok ⟨program, locals⟩, last)) :
    Accepts n last ⟨.statements program, locals⟩ :=
  accepts_of_check ⟨.run, text, 0⟩ (congrArg (Checked.map Input.statements) accepted)

/-- A text that is accepted is run as its plan says. -/
theorem Step.take_accepted {step : Step} {s : Session} {input : Accepted Input}
    (h : (step.check s.nextId).1 = .ok input) :
    ∃ r, r = (planOfInput input.tree).run (Task.tasksAt step.fuel)
        (enter s.machine input.locals) ∧
      step.take s = (.of r, ⟨left r, (step.check s.nextId).2⟩) := by
  refine ⟨_, rfl, ?_⟩
  have accepts := (step.check_accepts s.nextId).2 input h
  rw [Step.take_eq, ← runInput_eq accepts]
  generalize step.check s.nextId = checked at h
  obtain ⟨result, last⟩ := checked
  simp only at h
  subst h
  simp only [onAccepted, onMachine_eq]

/-- A text that is rejected leaves the machine alone. -/
theorem Step.take_rejected {step : Step} {s : Session} {rejection : Rejection}
    (h : (step.check s.nextId).1 = .error rejection) :
    step.take s = (.failed (.rejected rejection), ⟨s.machine, (step.check s.nextId).2⟩) := by
  rw [Step.take_eq]
  generalize step.check s.nextId = checked at h
  obtain ⟨result, last⟩ := checked
  simp only at h
  subst h
  rfl

/-! ## What holds between two texts -/

/-- The machine is healthy and stands at top level, and all occurrences that it knows
of are behind the next one. -/
structure Steady (inputs : List Input) (s : Session) : Prop where
  healthy : Healthy inputs s.machine
  outside : s.machine.current = s.machine.globals
  drawn : ∀ input ∈ inputs, ∀ id ∈ (Visit.ofInput input).node.ids, id < s.nextId
  apart : ∀ a ∈ inputs, ∀ b ∈ inputs, ∀ id ∈ (Visit.ofInput a).node.ids,
    id ∈ (Visit.ofInput b).node.ids → a = b
  unknown : ∀ id, s.nextId ≤ id → s.machine.locals.depth? id = none

/-- A machine before its first program. -/
theorem healthy_start (readings : Nat → Float) (sink : Sink) :
    Healthy [] (.start readings sink) := by
  let clock : Value := .host ⟨0, clockName, 0⟩
  -- the clock is all that is bound at the start
  have own (id : ScopeId) (name : String) (value : Value)
      (bound : (Machine.State.start readings sink).scopes.own? id name = some value) :
      name = clockName ∧ value = clock := by
    change ((Scopes.empty.push none).2.define 0 clockName clock).own? id name = some value at bound
    rw [Scopes.own?_define] at bound
    split at bound
    · next here => exact ⟨here.2.1.symm, (Option.some.inj bound).symm⟩
    · rw [Scopes.own?_push] at bound
      cases bound
  exact {
    inside := by
      change 0 < ((Scopes.empty.push none).2.define 0 clockName clock).size
      rw [Scopes.size_define, Scopes.size_push]
      exact Nat.succ_pos _
    root := rfl
    this := fun id value bound => absurd (own id _ value bound).1 (by decide)
    super := fun id value bound => absurd (own id _ value bound).1 (by decide)
    values := fun id name value bound => by
      rw [(own id name value bound).2]
      trivial
    fields := fun id fields name value found => by cases found
    hosts := fun action inside => by
      change action ∈ #[HostAction.clock] at inside
      simpa using inside
    sound := fun v seen => by
      obtain ⟨input, inside, -⟩ := seen
      cases inside }

theorem steady_start (readings : Nat → Float) (sink : Sink) :
    Steady [] (start readings sink) where
  healthy := healthy_start readings sink
  outside := rfl
  drawn _ inside := nomatch inside
  apart _ inside := nomatch inside
  unknown id _ := Locals.depth?_empty id

/-- The statements of a program bind at most what they declare. -/
theorem frames_planOfProgram {program : List Stmt} {names : List String}
    (declared : Stmt.declaresAll program ⊆ names) : (planOfProgram program).Frames names := by
  induction program with
  | nil => exact .ret ()
  | cons s rest ih =>
    rw [Stmt.declaresAll, List.flatMap_cons, List.append_subset] at declared
    apply Plan.Frames.bind (.sub (.execute s) declared.1)
    intro completion
    cases completion with
    | normal => exact ih declared.2
    | _ => exact .prim (Leaves.stop _)

/-- What an input leaves alone. -/
theorem frames_planOfInput (input : Input) : ∃ names, (planOfInput input).Frames names := by
  cases input with
  | statements program =>
    exact ⟨_, .bind (frames_planOfProgram (List.Subset.refl _)) fun _ => .ret _⟩
  | expression e => exact ⟨[], .bind (.sub (.evaluate e) (List.nil_subset _)) fun _ => .ret _⟩

namespace Steady

variable {inputs : List Input} {s : Session}

/-- The machine with an accepted input's table taken in. -/
theorem enter (steady : Steady inputs s) {last : Nat} {input : Accepted Input}
    (accepts : Accepts s.nextId last input) :
    Healthy (input.tree :: inputs) (enter s.machine input.locals) := by
  refine steady.healthy.enter (List.subset_cons_self ..) _ ?_
  intro v seen
  obtain ⟨root, inside, reached⟩ := seen
  -- the two tables have no occurrence in common
  rcases List.mem_cons.mp inside with rfl | old
  · refine (accepts.sound fun id new => ?_).reaches reached
    rw [Locals.depth?_merge, steady.unknown id new, Option.or_none]
  · have sound := steady.healthy.sound _ ⟨root, old, .refl⟩
    refine (sound.congr fun id known => ?_).reaches reached
    rw [Locals.depth?_merge, accepts.unknown (.inl (steady.drawn root old id known)),
      Option.none_or]

/-- A run of an accepted input, however it ends. -/
theorem run (steady : Steady inputs s) {last : Nat} {input : Accepted Input}
    (accepts : Accepts s.nextId last input) (fuel : Nat) :
    Steady (input.tree :: inputs) ⟨left ((planOfInput input.tree).run (Task.tasksAt fuel)
      (Session.enter s.machine input.locals)), last⟩ := by
  have healthy := steady.enter accepts
  obtain ⟨names, frames⟩ := frames_planOfInput input.tree
  have grows := frames.grows fuel (Session.enter s.machine input.locals)
  have goes := goes_input healthy List.mem_cons_self steady.outside
  have outcome := Plan.Meets.outcome (fun t m => (kept_sound _).holds fuel t m) _ _ goes
  exact {
    healthy := by
      generalize (planOfInput input.tree).run _ _ = r at outcome
      cases r with
      | ok a m => exact outcome.1
      | error e m => exact outcome
    outside := (grows.current.trans steady.outside).trans grows.globals.symm
    drawn := fun root inside id known => by
      rcases List.mem_cons.mp inside with rfl | old
      · exact (accepts.drawn.range id known).2
      · exact Nat.lt_of_lt_of_le (steady.drawn root old id known) accepts.ordered
    apart := fun a first b second id inside also => by
      -- what is new was drawn behind all that is old
      have later {root : Input} (old : root ∈ inputs) (known : id ∈ (Visit.ofInput root).node.ids)
          (new : id ∈ (Visit.ofInput input.tree).node.ids) : False :=
        Nat.lt_irrefl id
          (Nat.lt_of_lt_of_le (steady.drawn root old id known) (accepts.drawn.range id new).1)
      rcases List.mem_cons.mp first with rfl | old <;>
        rcases List.mem_cons.mp second with rfl | old'
      · rfl
      · exact (later old' also inside).elim
      · exact (later old inside also).elim
      · exact steady.apart a old b old' id inside also
    unknown := fun id (later : last ≤ id) => by
      have first : s.nextId ≤ id := Nat.le_trans accepts.ordered later
      show (left _).locals.depth? id = none
      rw [grows.locals]
      show (s.machine.locals.merge input.locals).depth? id = none
      rw [Locals.depth?_merge, accepts.unknown (.inr later), steady.unknown id first]
      rfl }

/-- After a step the session is as steady as before it. -/
theorem take (steady : Steady inputs s) (step : Step) :
    Steady (((step.check s.nextId).1.toOption.map (·.tree)).toList ++ inputs)
      (step.take s).2 := by
  have accepts := step.check_accepts s.nextId
  cases h : (step.check s.nextId).1 with
  | error rejection =>
    rw [Step.take_rejected h]
    exact {
      healthy := steady.healthy
      outside := steady.outside
      drawn := fun input inside id known =>
        Nat.lt_of_lt_of_le (steady.drawn input inside id known) accepts.1
      apart := steady.apart
      unknown := fun id later => steady.unknown id (Nat.le_trans accepts.1 later) }
  | ok input =>
    obtain ⟨r, rfl, taken⟩ := Step.take_accepted h
    rw [taken]
    exact steady.run (accepts.2 input h) step.fuel

theorem after (steady : Steady inputs s) (steps : List Step) :
    Steady (s.accepted steps ++ inputs) (s.after steps) := by
  induction steps generalizing s inputs with
  | nil => exact steady
  | cons step rest ih =>
    rw [accepted, List.append_assoc]
    exact ih (steady.take step)

end Steady

/-- A session is steady between any two texts. -/
theorem steady_after (readings : Nat → Float) (sink : Sink) (steps : List Step) :
    Steady ((start readings sink).accepted steps) ((start readings sink).after steps) := by
  have steady := (steady_start readings sink).after steps
  rwa [List.append_nil] at steady

/-! ## The moments of a step -/

/-- The text is accepted, and its run contains a run of the task. -/
def Step.Moment (step : Step) (s : Session) (n : Nat) (t : Task) (m : Machine.State) : Prop :=
  ∃ input, (step.check s.nextId).1 = .ok input ∧ ∃ u m₁,
    (planOfInput input.tree).Calls (Task.tasksAt step.fuel) u m₁
        (enter s.machine input.locals) ∧
      Machine.Moment step.fuel u m₁ n t m

/-- The inputs that a session accepted when it has taken some steps and is at the next
one. -/
def known (readings : Nat → Float) (sink : Sink) (steps : List Step) (next : Step) : List Input :=
  (start readings sink).accepted (steps ++ [next])

theorem known_accepted {readings : Nat → Float} {sink : Sink} {steps : List Step} {next : Step}
    {input : Accepted Input}
    (h : (next.check ((start readings sink).after steps).nextId).1 = .ok input) :
    known readings sink steps next =
      input.tree :: (start readings sink).accepted steps := by
  rw [known, accepted_append, accepted, h]
  rfl

/-- At every moment of every step the machine is healthy, and the task is ready. -/
theorem Step.Moment.sound {readings : Nat → Float} {sink : Sink} {steps : List Step}
    {next : Step} {n : Nat} {t : Task} {m : Machine.State}
    (moment : next.Moment ((start readings sink).after steps) n t m) :
    Healthy (known readings sink steps next) m ∧
      t.Ready (known readings sink steps next) m := by
  obtain ⟨input, accepted, u, m₁, calls, moment⟩ := moment
  have steady := steady_after readings sink steps
  have healthy := steady.enter ((next.check_accepts _).2 input accepted)
  have goes := goes_input healthy List.mem_cons_self steady.outside
  rw [known_accepted accepted]
  have begins := Plan.Meets.of_calls (fun t m => (kept_sound _).holds next.fuel t m) calls goes
  exact (kept_sound _).moment begins moment

end ClassScript.Session
