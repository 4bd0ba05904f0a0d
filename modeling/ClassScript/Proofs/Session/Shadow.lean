import ClassScript.Proofs.Session.Anywhere
import ClassScript.Proofs.Session.Composition

/-!
# Sessions that differ in identities

Two sessions that drew different numbers of identities do the same as long as one of them
has the machine of the other, with its identities renamed (`Shadows`). Identities that are
drawn for nothing keep them so (`Shadows.skip`), since no machine knows the identities that
are still to come; and a text that both accept has the same outcome in both, up to the
renaming (`Shadows.accepted`).
-/

namespace ClassScript.Session

open Source Syntax Parsing Object Binding Machine

/-! ## Identities that begin anew -/

/-- The identities from `n` on begin with another one. -/
def restart (node : Nat → Nat) (n later id : Nat) : Nat :=
  if id < n then node id else id - n + later

section Restart

variable {node : Nat → Nat} {n next later : Nat}

theorem restart_early {id : Nat} (early : id < n) : restart node n later id = node id :=
  if_pos early

theorem restart_late {id : Nat} (late : n ≤ id) : restart node n later id = id - n + later :=
  if_neg (Nat.not_lt.mpr late)

theorem restart_apart (apart : ∀ a b, node a = node b → a = b)
    (early : ∀ id, id < n → node id < next) (behind : next ≤ later) (a b : Nat)
    (same : restart node n later a = restart node n later b) : a = b := by
  -- early identities stay below the later one, and late ones do not
  rcases Nat.lt_or_ge a n with below | above <;> rcases Nat.lt_or_ge b n with below' | above'
  · rw [restart_early below, restart_early below'] at same
    exact apart a b same
  · rw [restart_early below, restart_late above'] at same
    have := early a below
    omega
  · rw [restart_late above, restart_early below'] at same
    have := early b below'
    omega
  · rw [restart_late above, restart_late above'] at same
    omega

/-- To begin with another identity is to leave some out before the renaming. -/
theorem restart_eq_comp (onward : ∀ k, node (k + n) = k + next) (behind : next ≤ later) :
    restart node n later = node ∘ restart id n (n + (later - next)) := by
  funext a
  rcases Nat.lt_or_ge a n with below | above
  · simp only [Function.comp, restart_early below, id]
  · have shape : a - n + (n + (later - next)) = a - n + (later - next) + n := by omega
    simp only [Function.comp, restart_late above]
    rw [shape, onward]
    omega

theorem skips_restart (n more : Nat) : Skips n (restart id n (n + more)) where
  before _ early := restart_early early
  behind a (late : n ≤ a) := by
    show n ≤ restart id n (n + more) a
    rw [restart_late late]
    omega

/-- Identities that are drawn one after the other stay below the next one. -/
theorem lt_of_onward (early : ∀ id, id < n → node id < next)
    (onward : ∀ k, node (k + n) = k + next) (size id : Nat) (below : id < size + n) :
    node id < size + next := by
  rcases Nat.lt_or_ge id n with old | new
  · have := early id old
    omega
  · have drawn := onward (id - n)
    rw [Nat.sub_add_cancel new] at drawn
    omega

end Restart

/-! ## The relation -/

/-- The second session has the machine of the first one with other identities, which stay
apart. What the first one draws next is what the second one draws next. -/
structure Shadows (node : Nat → Nat) (c s : Session) : Prop where
  apart : ∀ a b, node a = node b → a = b
  early : ∀ id, id < c.nextId → node id < s.nextId
  onward : ∀ k, node (k + c.nextId) = k + s.nextId
  machine : s.machine = c.machine.rename (.ofNodes node) s.machine.locals
  fits : Fits (.ofNodes node) c.machine.locals s.machine.locals

namespace Shadows

theorem same (s : Session) : Shadows id s s where
  apart _ _ same := same
  early _ early := early
  onward _ := rfl
  machine := (Machine.State.rename_same s.machine.locals s.machine).symm
  fits _ := rfl

variable {node : Nat → Nat} {inputs : List Input} {c s : Session}

/-- What is written does not depend on identities. -/
theorem written (h : Shadows node c s) : s.written = c.written := by
  rw [Session.written, h.machine]
  rfl

/-- The table has no entry for what is still to be drawn. -/
theorem unknown (h : Shadows node c s) (steady : Steady inputs c) {id : Nat}
    (late : s.nextId ≤ id) : s.machine.locals.depth? id = none := by
  have drawn : node (id - s.nextId + c.nextId) = id := by
    rw [h.onward, Nat.sub_add_cancel late]
  have fits := h.fits (id - s.nextId + c.nextId)
  rw [steady.unknown _ (Nat.le_add_left ..)] at fits
  rw [← drawn]
  exact fits

/-! ## Identities that are drawn for nothing -/

/-- The session may draw identities for nothing. -/
theorem skip (h : Shadows node c s) (steady : Steady inputs c)
    (unseen : Unseen c.nextId c.machine) {later : Nat} (behind : s.nextId ≤ later) :
    Shadows (restart node c.nextId later) c ⟨s.machine, later⟩ where
  apart := restart_apart h.apart h.early behind
  early id early := by
    rw [restart_early early]
    exact Nat.lt_of_lt_of_le (h.early id early) behind
  onward k := by
    rw [restart_late (Nat.le_add_left ..), Nat.add_sub_cancel]
  machine := by
    have skipped := unseen.rename (skips_restart c.nextId (later - s.nextId)) c.machine.locals
    have twice := Machine.State.rename_rename (r := .ofNodes node) s.machine.locals c.machine
      (.ofNodes (restart id c.nextId (c.nextId + (later - s.nextId)))) c.machine.locals
    rw [skipped] at twice
    rw [restart_eq_comp h.onward behind]
    exact h.machine.trans twice
  fits id := by
    show s.machine.locals.depth? (restart node c.nextId later id) = _
    -- identities drawn so far keep their images, later ones move up
    rcases Nat.lt_or_ge id c.nextId with early | late
    · rw [restart_early early]
      exact h.fits id
    · rw [restart_late late, steady.unknown id late]
      exact h.unknown steady (Nat.le_trans behind (Nat.le_add_left ..))

end Shadows

/-! ## Accepted texts -/

/-- An input has the depths that it has with other identities. -/
theorem depth?_renameInput {r : Renaming} (apart : ∀ a b, r.node a = r.node b → a = b)
    {first last first' last' : Nat} {input : Input} {locals locals' : Locals}
    (accepts : Accepts first last ⟨input, locals⟩)
    (accepts' : Accepts first' last' ⟨renameInput r input, locals'⟩) (id : Nat) :
    locals'.depth? (r.node id) = locals.depth? id := by
  cases input with
  | statements program =>
    obtain ⟨moved, resolved, depths⟩ := ofProgram_rename r accepts.resolved
    obtain rfl : moved = locals' := Except.ok.inj (resolved.symm.trans accepts'.resolved)
    exact depths apart id
  | expression e =>
    obtain rfl := accepts.locals_expression
    obtain rfl := accepts'.locals_expression
    rw [Locals.depth?_empty, Locals.depth?_empty]

namespace Shadows

variable {node : Nat → Nat} {inputs : List Input} {c s : Session}

/-- A run of an input that both accept, where both draw its identities next. -/
theorem run (h : Shadows node c s) (steady : Steady inputs c) {size first last : Nat}
    {input : Input} {locals locals' : Locals}
    (accepts : Accepts c.nextId (size + c.nextId) ⟨input, locals⟩)
    (accepts' : Accepts first last ⟨renameInput (.ofNodes node) input, locals'⟩) (fuel : Nat) :
    let ran := (planOfInput input).run (Task.tasksAt fuel) (enter c.machine locals)
    let ran' := (planOfInput (renameInput (.ofNodes node) input)).run (Task.tasksAt fuel)
      (enter s.machine locals')
    Shadows node ⟨left ran, size + c.nextId⟩ ⟨left ran', size + s.nextId⟩ ∧
      Outcome.of ran' = (Outcome.of ran).rename (.ofNodes node) := by
  intro ran ran'
  let table := (enter c.machine locals).locals
  let table' := (enter s.machine locals').locals
  -- old entries match by the shadow, new ones by the renamed tree
  have fits : Fits (.ofNodes node) table table' := by
    intro id
    have known := h.fits id
    have new := depth?_renameInput h.apart accepts accepts' id
    show (s.machine.locals.merge locals').depth? _ = (c.machine.locals.merge locals).depth? id
    rw [Locals.depth?_merge, Locals.depth?_merge, known, new]
  have begins : enter s.machine locals' =
      (enter c.machine locals).rename (.ofNodes node) table' :=
    congrArg (fun m : Machine.State => { m with locals := table' }) h.machine
  have suits : Suits table (enter c.machine locals) := ⟨rfl, steady.healthy.hosts⟩
  obtain ⟨suits', same⟩ := commutes_planOfInput fits fuel input _ suits
  rw [← begins] at same
  have ended : ran' = renameEnd (.ofNodes node) table' id ran := same
  have machine : left ran' = (left ran).rename (.ofNodes node) table' := by
    rw [ended, left_renameEnd]
  refine ⟨⟨h.apart, lt_of_onward h.early h.onward size, ?onward, ?machine, ?fits⟩, ?outcome⟩
  case onward =>
    intro k
    have drawn := h.onward (k + size)
    rwa [Nat.add_assoc, Nat.add_assoc] at drawn
  case machine =>
    rw [machine]
    rfl
  case fits =>
    have kept : (left ran).locals = table := suits'.locals
    rw [machine, kept]
    exact fits
  case outcome =>
    rw [ended, of_renameEnd]

/-- A text that both sessions accept. The second one may draw identities before those of
the tree. -/
theorem accepted (h : Shadows node c s) (steady : Steady inputs c)
    (unseen : Unseen c.nextId c.machine) {plain step : Step} (fuel : plain.fuel = step.fuel)
    {tree : Input} {size first : Nat} {locals locals' : Locals}
    (plainly : plain.check c.nextId =
      (.ok ⟨renameInput (moveUp c.nextId) tree, locals⟩, size + c.nextId))
    (behind : s.nextId ≤ first)
    (checked : step.check s.nextId =
      (.ok ⟨renameInput (moveUp first) tree, locals'⟩, size + first)) :
    ∃ node', Shadows node' (plain.take c).2 (step.take s).2 ∧
      (step.take s).1 = (plain.take c).1.rename (.ofNodes node') := by
  let node' := restart node c.nextId first
  have skipped : Shadows node' c ⟨s.machine, first⟩ := h.skip steady unseen behind
  have moved : renameInput (moveUp first) tree =
      renameInput (.ofNodes node') (renameInput (moveUp c.nextId) tree) := by
    rw [renameInput_renameInput]
    -- both trees are copies of one, moved up to where each session stands
    have next : (· + first) = node' ∘ (· + c.nextId) := funext fun k => (skipped.onward k).symm
    exact congrArg (fun node => renameInput (.ofNodes node) tree) next
  have accepts := accepts_of_check plain plainly
  have accepts' := accepts_of_check step checked
  obtain ⟨r, rfl, taken⟩ := Step.take_accepted (congrArg Prod.fst plainly)
  obtain ⟨r', rfl, taken'⟩ := Step.take_accepted (congrArg Prod.fst checked)
  rw [taken, taken', plainly, checked, fuel]
  rw [moved] at accepts' ⊢
  exact ⟨node', skipped.run steady accepts accepts' step.fuel⟩

end Shadows

end ClassScript.Session
