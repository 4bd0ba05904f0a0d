import ClassScript.Proofs.Session.Faults
import ClassScript.Proofs.Session.Shadow
import ClassScript.Proofs.Session.Ways

/-!
# Rejected texts leave no trace

A text that is rejected runs nothing, but it draws identities, so that everything behind it
is parsed with other ones. Two sessions, with and without the rejected texts, are compared
by way of a third one, which is handed the accepted texts alone and draws no identity for
nothing: both have its machine, with other identities (`Twins`). So they give the same
replies (`rejected_traceless`).
-/

namespace ClassScript.Session

open Syntax Parsing Object Binding Machine

/-- What a session replies to a text: the outcome, and the bytes that were written. -/
structure Reply where
  outcome : Outcome (Option String)
  printed : ByteArray

/-- The text failed before any of it was run. -/
def Reply.isRejected (reply : Reply) : Bool :=
  match reply.outcome with
  | .failed failure => failure.isStatic
  | _ => false

/-- The bytes of the second session's output that the first one has not written. -/
def printedBetween (s s' : Session) : ByteArray :=
  s'.written.extract s.written.size s'.written.size

def Step.reply (step : Step) (s : Session) : Reply :=
  ⟨(step.take s).1, printedBetween s (step.take s).2⟩

/-- The replies to some texts that are handed over one after the other. -/
def replies (s : Session) : List Step → List (Step × Reply)
  | [] => []
  | step :: rest => (step, step.reply s) :: replies (step.take s).2 rest

/-- The texts that were not rejected, with their replies. -/
def runOnly (answered : List (Step × Reply)) : List (Step × Reply) :=
  answered.filter fun entry => !entry.2.isRejected

/-- What a step prints stands behind all that was written before. -/
theorem written_take (step : Step) (s : Session) :
    (step.take s).2.written = s.written ++ (step.reply s).printed := by
  obtain ⟨bytes, same⟩ := (step.adds s).written
  have same : (step.take s).2.written = s.written ++ bytes := same
  rw [Step.reply, printedBetween, same,
    ByteArray.extract_append_eq_right rfl (ByteArray.size_append ..)]

theorem printedBetween_self (s : Session) : printedBetween s s = .empty := by
  simp [printedBetween]

/-! ## One step -/

theorem reply_rejected {step : Step} {s : Session} {rejection : Rejection}
    (h : (step.check s.nextId).1 = .error rejection) :
    (step.reply s).isRejected = true ∧ (step.reply s).printed = .empty := by
  rw [Step.reply, Step.take_rejected h]
  exact ⟨rfl, printedBetween_self s⟩

theorem reply_accepted {step : Step} {s : Session} {input : Accepted Input}
    (h : (step.check s.nextId).1 = .ok input) : (step.reply s).isRejected = false := by
  obtain ⟨r, -, taken⟩ := Step.take_accepted h
  rw [Step.reply, taken]
  cases r with
  | ok value m => rfl
  | error e m => cases e <;> rfl

/-- No outcome of a step shows the identities in code: of all faults only one has code in
it, and no run ends with that one. -/
theorem outcome_rename (readings : Nat → Float) (sink : Sink) (steps : List Step) (next : Step)
    (node : Nat → Nat) :
    (next.take ((start readings sink).after steps)).1.rename (.ofNodes node) =
      (next.take ((start readings sink).after steps)).1 := by
  cases outcome : (next.take ((start readings sink).after steps)).1 with
  | ok value => rfl
  | outOfFuel => rfl
  | failed failure =>
    cases failure with
    | fault fault =>
      cases fault with
      | internal fault =>
        obtain ⟨input, m', checked, stops⟩ := take_fault_iff.mp outcome
        obtain ⟨n, target, value, m, x, m₁, -, -, -, rfl⟩ := blamed checked stops
        rfl
      | _ => rfl
    | _ => rfl

/-! ## Two sessions -/

/-- Both sessions have the machine of a third one, with other identities. -/
def Twins (readings : Nat → Float) (sink : Sink) (a b : Session) : Prop :=
  ∃ steps node node', Shadows node ((start readings sink).after steps) a ∧
    Shadows node' ((start readings sink).after steps) b

namespace Twins

variable {readings : Nat → Float} {sink : Sink} {a b : Session}

theorem written (twins : Twins readings sink a b) : a.written = b.written := by
  obtain ⟨steps, node, node', first, second⟩ := twins
  rw [first.written, second.written]

/-- One of the two may draw identities for nothing. -/
theorem skip (twins : Twins readings sink a b) {later : Nat} (behind : a.nextId ≤ later) :
    Twins readings sink ⟨a.machine, later⟩ b := by
  obtain ⟨steps, node, node', first, second⟩ := twins
  have skipped := first.skip (steady_after readings sink steps)
    (unseen_after readings sink steps) behind
  exact ⟨steps, _, node', skipped, second⟩

/-- What the first one accepts has the same outcome in both. -/
theorem take (twins : Twins readings sink a b) {step : Step} {input : Accepted Input}
    (accepted : (step.check a.nextId).1 = .ok input) :
    Twins readings sink (step.take a).2 (step.take b).2 ∧
      (step.take b).1 = (step.take a).1 := by
  obtain ⟨steps, node, node', first, second⟩ := twins
  -- both sessions are compared with a third one that took the accepted steps only
  let c := (start readings sink).after steps
  have steady := steady_after readings sink steps
  have unseen := unseen_after readings sink steps
  obtain ⟨plain, tree, size, fuel, plainly, checks⟩ := step.check_anywhere accepted
  obtain ⟨locals, checked⟩ := plainly c.nextId
  obtain ⟨start, table, behind, checked₁⟩ := checks a.nextId
  obtain ⟨start', table', behind', checked₂⟩ := checks b.nextId
  obtain ⟨moved, first', same⟩ := first.accepted steady unseen fuel checked behind checked₁
  obtain ⟨moved', second', same'⟩ := second.accepted steady unseen fuel checked behind' checked₂
  have further : (Session.start readings sink).after (steps ++ [plain]) = (plain.take c).2 :=
    List.foldl_concat ..
  refine ⟨⟨steps ++ [plain], moved, moved', further ▸ first', further ▸ second'⟩, ?_⟩
  rw [same, same', outcome_rename, outcome_rename]

theorem reply (twins : Twins readings sink a b) {step : Step} {input : Accepted Input}
    (accepted : (step.check a.nextId).1 = .ok input) : step.reply b = step.reply a := by
  obtain ⟨after, outcome⟩ := twins.take accepted
  simp only [Step.reply, printedBetween, outcome, twins.written, after.written]

end Twins

/-! ## All steps -/

/-- A session that is handed only what the other one did not reject replies the same. -/
theorem Twins.replies {readings : Nat → Float} {sink : Sink} {a b : Session}
    (twins : Twins readings sink a b) (steps : List Step) :
    b.replies ((runOnly (a.replies steps)).map Prod.fst) = runOnly (a.replies steps) := by
  induction steps generalizing a b with
  | nil => rfl
  | cons step rest ih =>
    cases checked : (step.check a.nextId).1 with
    | error rejection =>
      -- the step is left out, and all that it has done is to draw identities
      have rejected := (reply_rejected checked).1
      have dropped : runOnly (a.replies (step :: rest)) =
          runOnly ((step.take a).2.replies rest) := by
        rw [Session.replies, runOnly, List.filter_cons_of_neg (by simp [rejected])]
        rfl
      rw [dropped]
      refine ih ?_
      rw [Step.take_rejected checked]
      exact twins.skip (step.check_accepts a.nextId).1
    | ok input =>
      have kept : runOnly (a.replies (step :: rest)) =
          (step, step.reply a) :: runOnly ((step.take a).2.replies rest) := by
        rw [Session.replies, runOnly, List.filter_cons_of_pos (by simp [reply_accepted checked])]
        rfl
      have same := ih (twins.take checked).1
      rw [kept, List.map_cons, Session.replies, twins.reply checked, same]

/-- What was rejected has printed nothing. -/
theorem printed_of_rejected (s : Session) (steps : List Step) :
    ∀ entry ∈ s.replies steps, entry.2.isRejected = true → entry.2.printed = .empty := by
  induction steps generalizing s with
  | nil =>
    intro entry inside
    cases inside
  | cons step rest ih =>
    intro entry inside rejected
    rcases List.mem_cons.mp inside with rfl | later
    · cases checked : (step.check s.nextId).1 with
      | error rejection => exact (reply_rejected checked).2
      | ok input =>
        rw [reply_accepted checked] at rejected
        cases rejected
    · exact ih _ entry later rejected

/-- The bytes that some replies print, one after the other, behind others. -/
def printedBy (answered : List (Step × Reply)) (written : ByteArray) : ByteArray :=
  answered.foldl (fun bytes entry => bytes ++ entry.2.printed) written

/-- The output of a session is what its replies print. -/
theorem written_replies (s : Session) (steps : List Step) :
    (s.after steps).written = printedBy (s.replies steps) s.written := by
  induction steps generalizing s with
  | nil => rfl
  | cons step rest ih =>
    have further : s.after (step :: rest) = (step.take s).2.after rest := rfl
    rw [further, ih, written_take]
    rfl

/-- Replies that print nothing may be left out. -/
theorem printedBy_runOnly {answered : List (Step × Reply)}
    (silent : ∀ entry ∈ answered, entry.2.isRejected = true → entry.2.printed = .empty)
    (written : ByteArray) : printedBy (runOnly answered) written = printedBy answered written := by
  induction answered generalizing written with
  | nil => rfl
  | cons entry rest ih =>
    have behind := fun written => ih (fun later among => silent later (.tail entry among)) written
    by_cases rejected : entry.2.isRejected = true
    · have nothing : printedBy (entry :: rest) written = printedBy rest written := by
        rw [printedBy, List.foldl_cons, silent entry List.mem_cons_self rejected,
          ByteArray.append_empty]
        rfl
      rw [runOnly, List.filter_cons_of_neg (by simp [rejected]), nothing]
      exact behind written
    · rw [runOnly, List.filter_cons_of_pos (by simp [rejected])]
      exact behind _

/-- To leave out the texts that a session rejects changes nothing in its replies to the
others, neither in their outcomes nor in what they print, and nothing in the output as a
whole. The rejected texts themselves print nothing. -/
theorem rejected_traceless (readings : Nat → Float) (sink : Sink) (steps : List Step) :
    let answered := (start readings sink).replies steps
    let others := (runOnly answered).map Prod.fst
    (start readings sink).replies others = runOnly answered ∧
      ((start readings sink).after others).written =
        ((start readings sink).after steps).written ∧
      ∀ entry ∈ answered, entry.2.isRejected = true → entry.2.printed = .empty := by
  intro answered others
  have twins : Twins readings sink (start readings sink) (start readings sink) :=
    ⟨[], id, id, .same _, .same _⟩
  have same : (start readings sink).replies others = runOnly answered := twins.replies steps
  have silent := printed_of_rejected (start readings sink) steps
  refine ⟨same, ?_, silent⟩
  -- the output is what the replies print, and those that are left out print nothing
  rw [written_replies, same, written_replies]
  exact printedBy_runOnly silent _

end ClassScript.Session
