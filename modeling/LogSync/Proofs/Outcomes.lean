import LogSync.Proofs.BlockedPeers
import LogSync.Proofs.QuietPeriods

/-!
# What an evaluation goes by and comes to

An evaluation goes by what has been asked for, which can be told from the inputs alone (`Requests`),
and by the counts. What it comes to can be read off the engine afterwards, since the counts that it
saw are still the present ones then (`Engine.synced_handle`). So the switch, the timer and the
waiters after an input are told by the requests and by what is synced once the input is handled
(`Run.outcome`); an input that is not evaluated leaves the switch and the timer alone
(`Run.unchanged`).
-/

namespace LogSync

/-! ## What is said -/

/-- The timeout that an input configures, if it configures one. -/
def Input.timeout? : Input → Option (Option Nat)
  | .start timeout => timeout
  | .setAutostop timeout => some timeout
  | _ => none

/-- What has been asked for. -/
structure Requests where
  wantsData : Bool := false
  fullStop : Bool := false
  /-- The autostop timeout, if one is configured. -/
  timeout : Option Nat
deriving DecidableEq, Repr

namespace Requests

/-- The requests after an input. When the autostop timer fires, data is no longer wanted. -/
def after (q : Requests) (fires : Bool) : Input → Requests
  | .start timeout => { q with wantsData := true, timeout := timeout.getD q.timeout }
  | .stop => { q with wantsData := false }
  | .setAutostop timeout => { q with timeout }
  | .requestFullStop => { q with fullStop := true }
  | .rescindFullStop => { q with fullStop := false }
  | .timer .autostop => if fires then { q with wantsData := false } else q
  | _ => q

/-- What is to be synced. -/
def goal (q : Requests) : SyncGoal := if q.wantsData then .full else .initial

end Requests

namespace Engine

/-- What an engine has noted of the requests. -/
def requests (e : Engine) : Requests := ⟨e.switch.wantsData, e.switch.fullStop, e.autostop.after⟩

/-- An engine is as an evaluation of another one has left it. -/
structure Outcome (e₀ : Engine) (now : Nat) (e : Engine) : Prop where
  requests : e.requests = e₀.requests
  current : e.switch.current = (e₀.switch.verdict (e.synced e₀.switch.goal)).state
  autostop : e.autostop = (e₀.autostop.observe e.ownedData).1.apply
    (e₀.switch.verdict (e.synced e₀.switch.goal)).autostop now
  waiters : e.waiters = e₀.waiters.filter fun w => !e.synced w.goal

end Engine

namespace Run

variable {s : Settings}

/-- What the engine has said in the last step. -/
def said : Run s → List Effect
  | begin roles now => (Engine.begin roles now s).2
  | handle before roles now input => (before.engine.handle roles now input).2

/-- Whether the last step was evaluated. -/
def evaluates (r : Run s) : Bool := r.said.any (·.isPublish)

/-- The engine that was evaluated in the last step, if one was. -/
def evaluated? : Run s → Option Engine
  | begin _ _ => some (.ofSettings s)
  | handle before _ now input => before.engine.evaluatedFor? now input

/-- What has been asked for so far. -/
def requests : Run s → Requests
  | begin _ _ => { timeout := s.autostop }
  | handle before _ now input => before.requests.after (before.engine.autostop.fire now).2 input

end Run

/-! ## Timeouts -/

/-- The requests keep the timeout unless an input configures it anew. -/
theorem Requests.timeout_after_eq (q : Requests) (fires : Bool) (input : Input) :
    (q.after fires input).timeout = input.timeout?.getD q.timeout := by
  cases input
  case timer t =>
    cases t
    case autostop => cases fires <;> rfl
    all_goals rfl
  all_goals rfl

/-! ## What an evaluation sees is still there -/

namespace Engine

section
variable {e : Engine} (roles : Roles) (now : Nat) (hsound : AllSound e.catalog e.namespaces)
include hsound

theorem synced_evaluate (goal : SyncGoal) :
    (e.evaluate roles now).1.synced goal = e.syncedSeen roles goal := by
  have hafter := allSound_evaluate roles now hsound
  rw [synced, readStates_of_allSound hafter, isSyncedFor_evaluate roles now hsound]

/-- A quiet step that leaves the counts alone leaves alone what is synced. -/
theorem synced_of_rests {out : Engine × List Effect} (hquiet : e.Quiet out)
    (hrests : e.Rests out.1) (goal : SyncGoal) : out.1.synced goal = e.synced goal := by
  unfold synced
  rw [readStates_of_allSound (hrests.allSound hsound), readStates_of_allSound hsound,
    hquiet.isSyncedFor_eq hrests]

/-- Once an input is evaluated, that is synced which the evaluation has seen to be. -/
theorem synced_handle {before : Roles} (hline : e.InLine before) {input : Input} {e₀ : Engine}
    (h₀ : e.evaluatedFor? now input = some e₀) (goal : SyncGoal) :
    (e.handle roles now input).1.synced goal = e₀.syncedSeen roles goal := by
  have hsound₀ := allSound_of_evaluated hsound h₀
  obtain ⟨-, -, hquiet⟩ := hline.evaluated h₀ roles
  have hrests := rests_handOver (e₀.evaluate roles now).1 now input
  have hkept := synced_of_rests (allSound_evaluate roles now hsound₀) hquiet hrests goal
  rw [handle_of_evaluated h₀, hkept, synced_evaluate roles now hsound₀]

theorem outcome_evaluate : e.Outcome now (e.evaluate roles now).1 := by
  have hsynced := synced_evaluate roles now hsound
  have hautostop := autostop_evaluate hsound roles now
  refine ⟨?_, ?_, ?_, ?_⟩
  · have hafter := e.autostop.after_observe_apply (e.evaluate roles now).1.ownedData
      (e.verdictSeen roles).autostop now
    unfold requests
    rw [hautostop, hafter, evaluate_engine]
  · rw [hsynced, evaluate_engine]
    rfl
  · rw [hsynced]
    exact hautostop
  · simp only [hsynced]
    rw [evaluate_engine]

/-- A new link that takes announcements over changes nothing of the outcome. -/
theorem outcome_handle {before : Roles} (hline : e.InLine before) {input : Input} {e₀ : Engine}
    (h₀ : e.evaluatedFor? now input = some e₀) :
    e₀.Outcome now (e.handle roles now input).1 := by
  have hsound₀ := allSound_of_evaluated hsound h₀
  have houtcome := outcome_evaluate roles now hsound₀
  have hrests := rests_handOver (e₀.evaluate roles now).1 now input
  have hwaiters (e : Engine) : (e.handOver now input).1.waiters = e.waiters := by
    cases input <;> rfl
  have hsynced (goal : SyncGoal) :
      (e.handle roles now input).1.synced goal = (e₀.evaluate roles now).1.synced goal := by
    rw [synced_handle roles now hsound hline h₀, synced_evaluate roles now hsound₀]
  have hautostop := autostop_handle_of_evaluated h₀ roles hsound
  refine ⟨?_, ?_, ?_, ?_⟩
  · rw [← houtcome.requests, handle_of_evaluated h₀]
    unfold requests
    rw [hrests.switch, hrests.autostop]
  · rw [hsynced, ← houtcome.current, handle_of_evaluated h₀, hrests.switch]
  · rw [hsynced, synced_evaluate roles now hsound₀]
    exact hautostop
  · simp only [hsynced]
    rw [handle_of_evaluated h₀, hwaiters, houtcome.waiters]

end

/-! ## Requests -/

section
variable {e : Engine} {now : Nat} {input : Input}

/-- An input makes its request before it is evaluated. -/
theorem requests_of_evaluated {e₀ : Engine} (h : e.evaluatedFor? now input = some e₀) :
    e₀.requests = e.requests.after (e.autostop.fire now).2 input := by
  obtain ⟨hswitch, hautostop, -⟩ := before_of_evaluated h
  have hfire := e.autostop.after_fire now
  unfold requests
  rw [hswitch, hautostop]
  cases input
  case start timeout => cases timeout <;> rfl
  case timer t =>
    cases t
    case autostop =>
      simp only [SyncSwitch.before, Autostop.before, Requests.after, hfire]
      split <;> rfl
    all_goals rfl
  all_goals rfl

/-- The state is left to the evaluation. -/
theorem current_of_evaluated {e₀ : Engine} (h : e.evaluatedFor? now input = some e₀) :
    e₀.switch.current = e.switch.current := by
  rw [(before_of_evaluated h).1]
  cases input
  case timer t =>
    cases t
    case autostop =>
      simp only [SyncSwitch.before]
      split <;> rfl
    all_goals rfl
  all_goals rfl

/-- An input that is not evaluated makes no request. -/
theorem requests_of_not_evaluated (h : e.evaluatedFor? now input = none) (q : Requests) :
    q.after (e.autostop.fire now).2 input = q := by
  cases input <;> simp only [evaluatedFor?, reduceCtorEq] at h
  case timer t =>
    cases t
    case autostop =>
      simp only at h
      split at h
      · contradiction
      · next hnever => exact if_neg hnever
    all_goals rfl
  all_goals rfl

end

end Engine

/-! ## Runs -/

namespace Run

variable {s : Settings}

/-- The last step was evaluated exactly if there is an engine that it has evaluated. -/
theorem evaluates_eq (r : Run s) : r.evaluates = r.evaluated?.isSome := by
  cases r with
  | begin roles now => exact Engine.publish_evaluate (.ofSettings s) roles now
  | handle before roles now input => exact before.publishes roles now input

theorem evaluates_of_evaluated {r : Run s} {e₀ : Engine} (h : r.evaluated? = some e₀) :
    r.evaluates = true := by
  rw [evaluates_eq, h]
  rfl

/-- What an evaluation has left behind. -/
theorem outcome (r : Run s) {e₀ : Engine} (h : r.evaluated? = some e₀) :
    e₀.Outcome r.time r.engine := by
  cases r with
  | begin roles now =>
    obtain rfl := Option.some.inj h
    exact Engine.outcome_evaluate roles now (Engine.allSound_ofSettings s)
  | handle before roles now input =>
    exact Engine.outcome_handle roles now before.allSound before.settings_engine_and_inLine.2 h

/-- A step leaves the requests, the switch and the timer as they are. -/
structure Unchanged (before r : Run s) : Prop where
  evaluates : r.evaluates = false
  requests : r.requests = before.requests
  switch : r.engine.switch = before.engine.switch
  autostop : r.engine.autostop = before.engine.autostop

/-- Where nothing is evaluated, nothing of all that changes. -/
theorem unchanged {before : Run s} {now : Nat} {input : Input}
    (h : before.engine.evaluatedFor? now input = none) (roles : Roles) :
    before.Unchanged (handle before roles now input) where
  evaluates := by
    rw [evaluates_eq, evaluated?, h]
    rfl
  requests := Engine.requests_of_not_evaluated h before.requests
  switch := by
    rw [engine, Engine.handle_of_not_evaluated h]
    exact (before.engine.frame_handleQuietly now input).2.1
  autostop := Engine.autostop_handle_of_not_evaluated h roles

/-- The engine has noted what was asked for. -/
theorem requests_engine (r : Run s) : r.engine.requests = r.requests := by
  induction r with
  | begin roles now => exact (outcome (begin roles now) rfl).requests
  | handle before roles now input ih =>
    cases h₀ : before.engine.evaluatedFor? now input with
    | some e₀ =>
      have hrequests := (outcome (handle before roles now input) h₀).requests
      rw [hrequests, Engine.requests_of_evaluated h₀, ih, requests]
    | none =>
      have hsame := unchanged h₀ roles
      rw [hsame.requests, ← ih, Engine.requests, hsame.switch, hsame.autostop]
      rfl

end Run

end LogSync
