import LogSync.Proofs.Outcomes

/-!
# Full stops

A full stop that was requested is granted by the first evaluation that finds everything synced, and
then nothing is synced any more. It holds until the request is rescinded, whatever is asked for or
comes in meanwhile: the state is `none` if and only if some evaluation since the last time that a
request was rescinded has granted a full stop (`Run.full_stop_holds`).
-/

namespace LogSync

/-! ## What is said -/

/-- Whether an input takes a request for a full stop back. -/
def Input.rescinds : Input → Bool
  | .rescindFullStop => true
  | _ => false

namespace Run

variable {s : Settings}

/-- Whether with the last step a full stop was granted: it was evaluated, with a full stop requested
and the goal of that moment synced. -/
def grants (r : Run s) : Bool :=
  r.evaluates && r.requests.fullStop && r.engine.synced r.requests.goal

/-- The moments since a request for a full stop was rescinded, the last one first; all moments if
none was. -/
def sinceRescinded : Run s → List (Run s)
  | begin roles now => [begin roles now]
  | handle before roles now input =>
    if input.rescinds then [] else handle before roles now input :: before.sinceRescinded

/-- Whether a full stop was granted and not rescinded since. -/
def isStopped (r : Run s) : Bool := r.sinceRescinded.any (·.grants)

end Run

/-! ## One input -/

/-- A request for a full stop lasts until it is rescinded. -/
theorem Requests.fullStop_after {input : Input} (hinput : input.rescinds = false) {q : Requests}
    (h : q.fullStop = true) (fires : Bool) : (q.after fires input).fullStop = true := by
  cases input
  case requestFullStop => rfl
  case rescindFullStop => contradiction
  case timer t =>
    cases t
    case autostop => cases fires <;> exact h
    all_goals exact h
  all_goals exact h

namespace SyncSwitch

/-- A full stop that was granted holds as long as it is requested. -/
theorem verdict_of_stopped {switch : SyncSwitch} (hrequested : switch.fullStop = true)
    (hstopped : switch.current = .none) (synced : Bool) :
    (switch.verdict synced).state = .none := by
  have hheld : switch.isHeld = true := by
    rw [isHeld, hrequested, hstopped]
    rfl
  rw [verdict, if_pos hheld]

/-- In all other cases the requests and what is synced decide. -/
theorem verdict_of_running {switch : SyncSwitch}
    (hrunning : switch.fullStop = false ∨ switch.current ≠ .none) (synced : Bool) :
    (switch.verdict synced).state
      = if switch.fullStop && synced then .none
        else if switch.wantsData then .all else .presync := by
  have hfree : ¬ switch.isHeld = true := by
    rw [isHeld, Bool.and_eq_true, beq_iff_eq]
    rintro ⟨hrequested, hstopped⟩
    rcases hrunning with hrunning | hrunning
    · rw [hrunning] at hrequested
      contradiction
    · exact hrunning hstopped
  rw [verdict, if_neg hfree]
  rfl

end SyncSwitch

/-! ## Runs -/

namespace Run

variable {s : Settings}

theorem grants_iff {r : Run s} :
    r.grants = true ↔ r.evaluates = true ∧ r.requests.fullStop = true ∧
      r.engine.synced r.requests.goal = true := by
  rw [grants, Bool.and_eq_true, Bool.and_eq_true, and_assoc]

theorem isStopped_begin (roles : Roles) (now : Nat) :
    (begin roles now : Run s).isStopped = (begin roles now : Run s).grants := by
  unfold isStopped
  rw [sinceRescinded, List.any_cons, List.any_nil, Bool.or_false]

section
variable {before : Run s} {roles : Roles} {now : Nat} {input : Input}

theorem isStopped_handle :
    (handle before roles now input).isStopped
      = (!input.rescinds && ((handle before roles now input).grants || before.isStopped)) := by
  unfold isStopped
  rw [sinceRescinded]
  cases input.rescinds <;> rfl

end

/-- Whatever was stopped was requested to, and still is. -/
theorem requested_of_isStopped {r : Run s} (h : r.isStopped = true) :
    r.requests.fullStop = true := by
  induction r with
  | begin roles now =>
    rw [isStopped_begin] at h
    exact (grants_iff.1 h).2.1
  | handle before roles now input ih =>
    rw [isStopped_handle, Bool.and_eq_true, Bool.or_eq_true, Bool.not_eq_true'] at h
    obtain ⟨hinput, hgrants | hbefore⟩ := h
    · exact (grants_iff.1 hgrants).2.1
    · exact Requests.fullStop_after hinput (ih hbefore) _

/-- What an evaluation makes of the state, if it was not stopped before. -/
theorem current_of_running {r : Run s} {e₀ : Engine} (h₀ : r.evaluated? = some e₀)
    (hrunning : r.requests.fullStop = false ∨ e₀.switch.current ≠ .none) :
    r.engine.switch.current
      = if r.grants then .none else if r.requests.wantsData then .all else .presync := by
  have houtcome := r.outcome h₀
  have hrequests : r.requests = e₀.requests := r.requests_engine.symm.trans houtcome.requests
  rw [hrequests] at hrunning
  rw [houtcome.current, SyncSwitch.verdict_of_running hrunning, grants,
    evaluates_of_evaluated h₀, hrequests]
  rfl

section
variable {before : Run s} {roles : Roles} {now : Nat} {input : Input}

/-- If it was stopped before, and the request has not been rescinded, it stays so. -/
theorem current_of_stopped {e₀ : Engine} (h₀ : before.engine.evaluatedFor? now input = some e₀)
    (hinput : input.rescinds = false) (hbefore : before.isStopped = true)
    (hnone : before.engine.switch.current = .none) :
    (handle before roles now input).engine.switch.current = .none := by
  have houtcome := (handle before roles now input).outcome h₀
  have hrequested : (handle before roles now input).requests.fullStop = true :=
    Requests.fullStop_after hinput (requested_of_isStopped hbefore) _
  rw [← requests_engine, houtcome.requests] at hrequested
  have hstopped : e₀.switch.current = .none := (Engine.current_of_evaluated h₀).trans hnone
  rw [houtcome.current, SyncSwitch.verdict_of_stopped hrequested hstopped]

/-- With a request that is rescinded nothing is granted. -/
theorem grants_of_rescinds (before : Run s) (roles : Roles) (now : Nat)
    (hinput : input.rescinds = true) :
    (handle before roles now input).requests.fullStop = false ∧
      (handle before roles now input).grants = false := by
  have hrequests : (handle before roles now input).requests.fullStop = false := by
    cases input
    case rescindFullStop => rfl
    all_goals contradiction
  refine ⟨hrequests, ?_⟩
  rw [grants, hrequests, Bool.and_false, Bool.false_and]

/-- If the state was told by the requests and the full stops before a step, it is so after it. -/
theorem current_handle (roles : Roles) (now : Nat) (input : Input)
    (h : before.engine.switch.current
      = if before.isStopped then .none else if before.requests.wantsData then .all else .presync) :
    (handle before roles now input).engine.switch.current
      = if (handle before roles now input).isStopped then .none
        else if (handle before roles now input).requests.wantsData then .all else .presync := by
  cases h₀ : before.engine.evaluatedFor? now input with
  | none =>
    have hsame := unchanged h₀ roles
    have hgrants : (handle before roles now input).grants = false := by
      rw [grants, hsame.evaluates, Bool.false_and, Bool.false_and]
    have hinput : input.rescinds = false := by
      cases input
      case rescindFullStop => contradiction
      all_goals rfl
    rw [hsame.switch, h, isStopped_handle, hgrants, hinput, hsame.requests]
    rfl
  | some e₀ =>
    have hevaluated : (handle before roles now input).evaluated? = some e₀ := h₀
    have hcurrent := Engine.current_of_evaluated h₀
    cases hinput : input.rescinds with
    | true =>
      obtain ⟨hrequests, hgrants⟩ := before.grants_of_rescinds roles now hinput
      rw [current_of_running hevaluated (Or.inl hrequests), isStopped_handle, hinput, hgrants]
      rfl
    | false =>
      cases hbefore : before.isStopped with
      | true =>
        have hnone : before.engine.switch.current = .none := by rw [h, if_pos hbefore]
        rw [current_of_stopped h₀ hinput hbefore hnone, isStopped_handle, hinput, hbefore,
          Bool.or_true]
        rfl
      | false =>
        have hrunning : e₀.switch.current ≠ .none := by
          rw [hcurrent, h, hbefore, if_neg Bool.false_ne_true]
          split <;> exact EnabledState.noConfusion
        rw [current_of_running hevaluated (Or.inr hrunning), isStopped_handle, hinput, hbefore,
          Bool.or_false]
        rfl

end

/-- The state is told by the requests and by the full stops that were granted. -/
theorem current_eq (r : Run s) :
    r.engine.switch.current
      = if r.isStopped then .none else if r.requests.wantsData then .all else .presync := by
  induction r with
  | begin roles now =>
    rw [isStopped_begin]
    exact current_of_running rfl (Or.inl rfl)
  | handle before roles now input ih => exact current_handle roles now input ih

/-- **A full stop holds.** After every input of every run, nothing is synced if and only if some
evaluation since a request was last rescinded was made with a full stop requested and its goal
synced; otherwise all is synced if data is wanted, and what comes first if not. So from then on no
input but a rescinded request has anything synced again, and no input stops what is not synced. -/
theorem full_stop_holds (r : Run s) :
    (r.engine.switch.current
        = if r.sinceRescinded.any (·.grants) then .none
          else if r.requests.wantsData then .all else .presync) ∧
      ∀ roles now input,
        (r.engine.switch.current = .none → input.rescinds = false →
          (handle r roles now input).engine.switch.current = .none) ∧
        (r.engine.switch.current ≠ .none →
          (handle r roles now input).engine.switch.current = .none →
            (handle r roles now input).requests.fullStop = true ∧
              (handle r roles now input).engine.synced
                (handle r roles now input).requests.goal = true) := by
  have hstopped (r : Run s) : r.engine.switch.current = .none ↔ r.isStopped = true := by
    rw [current_eq]
    cases r.isStopped with
    | true => exact iff_of_true rfl rfl
    | false =>
      refine iff_of_false ?_ Bool.false_ne_true
      cases r.requests.wantsData <;> exact EnabledState.noConfusion
  refine ⟨r.current_eq, fun roles now input => ⟨fun hnone hinput => ?_, fun hrunning hnone => ?_⟩⟩
  · rw [hstopped] at hnone ⊢
    rw [isStopped_handle, hinput, hnone, Bool.or_true]
    rfl
  · rw [Ne, hstopped, Bool.not_eq_true] at hrunning
    rw [hstopped, isStopped_handle, hrunning, Bool.or_false, Bool.and_eq_true] at hnone
    exact (grants_iff.1 hnone.2).2

-- without cores there is nothing left to sync, so the stop is granted at once
example :
    let allowed : Roles := fun _ _ => .allowed
    let stopped : Run {} := .handle (.begin allowed 0) allowed 1 .requestFullStop
    let r : Run {} := .handle stopped allowed 2 (.start none)
    r.requests.wantsData = true ∧ r.engine.switch.current = .none := by decide +kernel

end Run

end LogSync
