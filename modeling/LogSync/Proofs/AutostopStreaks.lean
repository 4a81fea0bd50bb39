import LogSync.Proofs.Outcomes

/-!
# When the autostop timer runs

The sync of data is *done* when data is wanted, no full stop is requested, and everything is synced.
The timer runs after an evaluation if and only if that found the sync done and a timeout is
configured. Such evaluations in a row form a streak, which another number of local data blocks or a
new timeout begins anew (`Run.streak`). The timer's deadline is the configured time after the first
evaluation of the streak (`Run.autostop_runs_from_streak`), so evaluations that go on with a streak
never move it.
-/

namespace LogSync

/-! ## What is said -/

/-- Whether an input configures the autostop timeout. -/
def Input.configuresTimeout : Input → Bool
  | .start (some _) | .setAutostop _ => true
  | _ => false

namespace Run

variable {s : Settings}

/-- Whether the sync of data is done: it is wanted, no full stop is requested, and everything is
synced. -/
def isDone (r : Run s) : Bool :=
  r.requests.wantsData && !r.requests.fullStop && r.engine.synced .full

/-- Whether an evaluation in the last step begins a new streak: the number of local data blocks is
another than the evaluation before has seen, or the timeout was configured. -/
def beginsStreak : Run s → Bool
  | begin _ _ => true
  | handle before roles now input =>
    input.configuresTimeout ||
      before.evaluations.head?.map (·.2) != some (handle before roles now input).engine.ownedData

/-- The times of the evaluations of the current streak, the last one first. An evaluation that does
not find the sync done ends the streak. -/
def streak : Run s → List Nat
  | begin roles now => if (begin roles now : Run s).isDone then [now] else []
  | handle before roles now input =>
    let r := handle before roles now input
    if r.evaluates then
      if r.isDone then if r.beginsStreak then [now] else now :: before.streak
      else []
    else before.streak

end Run

/-! ## One input -/

theorem Input.configuresTimeout_eq (input : Input) :
    input.configuresTimeout = input.timeout?.isSome := by
  cases input
  case start timeout => cases timeout <;> rfl
  all_goals rfl

/-- An input that does not configure the timeout leaves it as it was. -/
theorem Requests.timeout_after {input : Input} (h : input.configuresTimeout = false) (q : Requests)
    (fires : Bool) : (q.after fires input).timeout = q.timeout := by
  rw [Input.configuresTimeout_eq, Option.isSome_eq_false_iff, Option.isNone_iff_eq_none] at h
  rw [timeout_after_eq, h]
  rfl

namespace Autostop

variable (a : Autostop) (owned now : Nat)

theorem deadline_cancel : ((a.observe owned).1.apply .cancel now).deadline = none := rfl

/-- A timer that is to run goes on if it has seen the same number, and is started otherwise. -/
theorem deadline_arm :
    ((a.observe owned).1.apply .arm now).deadline
      = (if a.lastOwned = some owned then a.deadline else none).or (a.after.map (now + ·)) := by
  rw [deadline_apply_arm, deadline_observe, after_observe]

end Autostop

/-- The timer is to run exactly if data is wanted, no full stop is requested, and all is synced. -/
theorem SyncSwitch.autostop_verdict (switch : SyncSwitch) (synced : Bool) :
    (switch.verdict synced).autostop
      = if switch.wantsData && !switch.fullStop && synced then .arm else .cancel := by
  unfold verdict isHeld
  cases switch.fullStop with
  | true => cases switch.current == .none <;> simp [Verdict.of]
  | false => rfl

/-! ## Runs -/

namespace Run

variable {s : Settings}

theorem isDone_iff {r : Run s} :
    r.isDone = true ↔ r.requests.wantsData = true ∧ r.requests.fullStop = false ∧
      r.engine.synced .full = true := by
  rw [isDone, Bool.and_eq_true, Bool.and_eq_true, Bool.not_eq_true', and_assoc]

/-- What an evaluation makes of the timer. -/
theorem autostop_of_evaluated {r : Run s} {e₀ : Engine} (h₀ : r.evaluated? = some e₀) :
    r.engine.autostop = (e₀.autostop.observe r.engine.ownedData).1.apply
      (if r.isDone then .arm else .cancel) r.time := by
  have houtcome := r.outcome h₀
  have hrequests : r.requests = e₀.requests := r.requests_engine.symm.trans houtcome.requests
  have hdone : r.isDone
      = (e₀.switch.wantsData && !e₀.switch.fullStop && r.engine.synced e₀.switch.goal) := by
    rw [isDone, hrequests]
    -- the goal is everything as soon as data is wanted
    show (e₀.switch.wantsData && _ && _) = _
    unfold SyncSwitch.goal
    cases e₀.switch.wantsData <;> rfl
  rw [houtcome.autostop, SyncSwitch.autostop_verdict, hdone]

/-- The timer that an input brings to an evaluation that finds the sync done: stopped if the input
configures it, and as it was before otherwise. -/
theorem autostop_before_done {before : Run s} {roles : Roles} {now : Nat} {input : Input}
    (hdone : (handle before roles now input).isDone = true) :
    if input.configuresTimeout then (before.engine.autostop.before now input).deadline = none
    else before.engine.autostop.before now input = before.engine.autostop := by
  cases input
  case start timeout => cases timeout <;> rfl
  case timer t =>
    cases t
    case autostop =>
      -- had the timer fired, data would not be wanted
      have hwants := (isDone_iff.1 hdone).1
      have hsilent : (before.engine.autostop.fire now).2 = false := by
        refine Bool.eq_false_iff.2 fun hfires => ?_
        rw [requests, Requests.after, if_pos hfires] at hwants
        contradiction
      exact Autostop.fire_of_not_fires hsilent
    all_goals rfl
  all_goals rfl

section
variable {before : Run s} {roles : Roles} {now : Nat} {input : Input}

/-- An evaluation that goes on with a streak has the timer run on, if it runs; one that begins a
streak starts it. -/
theorem deadline_of_done {e₀ : Engine} (h₀ : before.engine.evaluatedFor? now input = some e₀)
    (hdone : (handle before roles now input).isDone = true) :
    (handle before roles now input).engine.autostop.deadline
      = (if (handle before roles now input).beginsStreak then none
          else before.engine.autostop.deadline).or
        ((handle before roles now input).requests.timeout.map (now + ·)) := by
  let r := handle before roles now input
  have htimeout : e₀.autostop.after = r.requests.timeout :=
    congrArg Requests.timeout ((r.outcome h₀).requests.symm.trans r.requests_engine)
  have hautostop := (Engine.before_of_evaluated h₀).2.1
  have hseen : e₀.autostop.lastOwned = before.evaluations.head?.map (·.2) := by
    rw [hautostop, (before.engine.autostop.before_cases now input).1, before.lastOwned_eq]
  have hbrought := autostop_before_done hdone
  rw [← hautostop] at hbrought
  have hruns : (if e₀.autostop.lastOwned = some r.engine.ownedData then e₀.autostop.deadline
      else none) = if r.beginsStreak then none else before.engine.autostop.deadline := by
    show _ = if (input.configuresTimeout || _) = true then none else _
    rw [hseen]
    cases hconfigures : input.configuresTimeout with
    | true =>
      rw [hconfigures, if_pos rfl] at hbrought
      rw [hbrought, ite_self, Bool.true_or, if_pos rfl]
    | false =>
      rw [hconfigures, if_neg Bool.false_ne_true] at hbrought
      rw [hbrought, Bool.false_or]
      by_cases hsame : before.evaluations.head?.map (·.2) = some r.engine.ownedData
      · rw [if_pos hsame, hsame, bne_self_eq_false, if_neg Bool.false_ne_true]
      · rw [if_neg hsame, if_pos (bne_iff_ne.2 hsame)]
  rw [autostop_of_evaluated (r := handle before roles now input) h₀, hdone, if_pos rfl,
    Autostop.deadline_arm, hruns, htimeout]
  rfl

end

/-- After an evaluation there is a streak exactly if it has found the sync done. -/
theorem streak_eq_nil_iff {r : Run s} (h : r.evaluates = true) :
    r.streak = [] ↔ r.isDone = false := by
  cases r with
  | begin roles now =>
    rw [streak]
    cases (begin roles now : Run s).isDone <;> simp
  | handle before roles now input =>
    rw [streak]
    simp only [h, if_true]
    cases (handle before roles now input).isDone with
    | false => simp
    | true => cases (handle before roles now input).beginsStreak <;> simp

/-- After every step the timer runs until the configured time after the beginning of the streak. -/
theorem deadline_eq (r : Run s) :
    r.engine.autostop.deadline
      = r.requests.timeout.bind fun after => r.streak.getLast?.map (· + after) := by
  induction r with
  | begin roles now =>
    have hdone : (begin roles now : Run s).isDone = false := rfl
    rw [autostop_of_evaluated (r := begin roles now) rfl, streak, hdone,
      if_neg Bool.false_ne_true, if_neg Bool.false_ne_true, Autostop.deadline_cancel]
    cases (begin roles now : Run s).requests.timeout <;> rfl
  | handle before roles now input ih =>
    cases h₀ : before.engine.evaluatedFor? now input with
    | none =>
      have hsame := unchanged h₀ roles
      rw [hsame.autostop, ih, streak, hsame.evaluates, hsame.requests]
      rfl
    | some e₀ =>
      have hevaluates : (handle before roles now input).evaluates = true :=
        evaluates_of_evaluated h₀
      rw [streak]
      simp only [hevaluates, if_true]
      cases hdone : (handle before roles now input).isDone with
      | false =>
        rw [autostop_of_evaluated (r := handle before roles now input) h₀, hdone,
          if_neg Bool.false_ne_true, Autostop.deadline_cancel]
        cases (handle before roles now input).requests.timeout <;> rfl
      | true =>
        rw [deadline_of_done h₀ hdone]
        cases hbegins : (handle before roles now input).beginsStreak with
        | true => cases (handle before roles now input).requests.timeout <;> rfl
        | false =>
          rw [beginsStreak, Bool.or_eq_false_iff] at hbegins
          rw [requests, Requests.timeout_after hbegins.1, ih]
          cases before.requests.timeout with
          | none => rfl
          | some after => cases before.streak <;> rfl

/-- **When the timer runs, and until when.** In every run: after an evaluation the timer runs if and
only if a timeout is configured, data is wanted, no full stop is requested, and everything is
synced. Whenever it runs, its deadline is the configured time after the first evaluation of the
current streak. So an evaluation that goes on with a streak does not move it. -/
theorem autostop_runs_from_streak (r : Run s) :
    (r.evaluates = true →
        (r.engine.autostop.isArmed = true ↔
          r.requests.timeout.isSome = true ∧ r.requests.wantsData = true ∧
            r.requests.fullStop = false ∧ r.engine.synced .full = true)) ∧
      (∀ d, r.engine.autostop.deadline = some d ↔
        ∃ after t, r.requests.timeout = some after ∧ r.streak.getLast? = some t ∧ d = t + after) ∧
      ∀ roles now input,
        let next := handle r roles now input
        next.evaluates = true → next.isDone = true → next.beginsStreak = false → r.streak ≠ [] →
          next.engine.autostop.deadline = r.engine.autostop.deadline := by
  refine ⟨fun hevaluates => ?_, fun d => ?_, fun roles now input => ?_⟩
  · have hdone : r.streak ≠ [] ↔ r.isDone = true := by
      rw [Ne, streak_eq_nil_iff hevaluates, Bool.not_eq_false]
    rw [Autostop.isArmed, deadline_eq, ← isDone_iff, ← hdone]
    cases r.requests.timeout with
    | none => simp
    | some after => cases r.streak <;> simp
  · rw [deadline_eq, Option.bind_eq_some_iff]
    constructor
    · rintro ⟨after, htimeout, hlast⟩
      obtain ⟨t, hfirst, rfl⟩ := Option.map_eq_some_iff.1 hlast
      exact ⟨after, t, htimeout, hfirst, rfl⟩
    · rintro ⟨after, t, htimeout, hlast, rfl⟩
      exact ⟨after, htimeout, Option.map_eq_some_iff.2 ⟨t, hlast, rfl⟩⟩
  · intro next hevaluates hdone hgoes hstreak
    have hlonger : next.streak = now :: r.streak := by
      show (if _ then _ else _) = _
      rw [if_pos hevaluates, if_pos hdone, hgoes]
      rfl
    have htimeout : next.requests.timeout = r.requests.timeout := by
      have hkept : (handle r roles now input).beginsStreak = false := hgoes
      rw [beginsStreak, Bool.or_eq_false_iff] at hkept
      exact Requests.timeout_after hkept.1 r.requests _
    rw [deadline_eq, deadline_eq, hlonger, htimeout]
    obtain ⟨t, older, hcons⟩ := List.exists_cons_of_ne_nil hstreak
    rw [hcons, List.getLast?_cons_cons]

-- a second evaluation, at 20, goes on with the streak that has begun at 10
example :
    let allowed : Roles := fun _ _ => .allowed
    let started : Run {} := .handle (.begin allowed 0) allowed 10 (.start (some (some 300)))
    let r : Run {} := .handle started allowed 20 .rescindFullStop
    r.streak = [20, 10] ∧ r.engine.autostop.deadline = some 310 := by decide +kernel

end Run

end LogSync
