import LogSync.Proofs.HeldKeys
import LogSync.Proofs.Outcomes
import LogSync.Proofs.ThrottleHistories
import Mathlib.Data.List.Nodup
import Mathlib.Data.List.Perm.Subperm

/-!
# Timers that are due

When a timer is due it is handled, and what is done then may start other timers. If one of them was
due at once, an engine could be kept busy with its timers at one instant forever. But an evaluation
makes no timer due (`Engine.isDue_of_isDue_evaluate`): it asks for no evaluation, it takes no
announcement in, and the quiet period that it may start is not over yet, since a timeout that is
accepted is not zero. So a due timer that is handled is due no longer, nothing else has become due
(`Run.isDue_of_isDue_timer`), and after three timers at most there is nothing to do before time
goes on (`Run.due_timers_run_out`). This holds for every throttle interval and every grace period,
zero included.
-/

namespace LogSync

/-! ## What is said -/

/-- Whether the time of a timer has come. -/
def Engine.isDue (e : Engine) (now : Nat) (t : Timer) : Bool := (e.deadline? t).any (· ≤ now)

namespace Run

variable {s : Settings}

/-- Every timeout that was configured is one that is accepted. -/
def TimeoutsValid : Run s → Prop
  | begin _ _ => s.validate = .ok s
  | handle before _ _ input => before.TimeoutsValid ∧
    ∀ timeout, input.timeout? = some timeout → validateAutostop timeout = .ok timeout

/-- Some timers are handled at an instant, one after another, each under the roles of its moment. -/
def timers (now : Nat) : Run s → List (Roles × Timer) → Run s
  | r, [] => r
  | r, (roles, t) :: steps => timers now (handle r roles now (.timer t)) steps

/-- Each of the timers is due when its turn comes. -/
def DueInTurn (now : Nat) : Run s → List (Roles × Timer) → Prop
  | _, [] => True
  | r, (roles, t) :: steps =>
    r.engine.isDue now t = true ∧ DueInTurn now (handle r roles now (.timer t)) steps

end Run

/-! ## Timeouts -/

/-- A timeout is accepted as it is, if it is off or in range. -/
theorem validateAutostop_eq_ok_iff {after accepted : Option Nat} :
    validateAutostop after = .ok accepted ↔ accepted = after ∧
      ∀ d, after = some d →
        d % 1000000 = 0 ∧ 1 ≤ d / 1000000 ∧ d / 1000000 ≤ maxAutostopMillis := by
  unfold validateAutostop
  cases after with
  | none => simp [eq_comm]
  | some d =>
    dsimp only
    split
    · next hrange => simp [hrange, eq_comm]
    · next hrange => simp [hrange]

/-- A quiet period that is accepted takes some time. -/
theorem pos_of_validateAutostop {d : Nat} (h : validateAutostop (some d) = .ok (some d)) :
    0 < d := by
  have hrange : 1 ≤ d / 1000000 := ((validateAutostop_eq_ok_iff.1 h).2 d rfl).2.1
  omega

namespace Run

variable {s : Settings}

/-- The timeout that is configured is accepted. -/
theorem TimeoutsValid.validate_timeout {r : Run s} (h : r.TimeoutsValid) :
    validateAutostop r.requests.timeout = .ok r.requests.timeout := by
  induction r with
  | begin roles now =>
    show validateAutostop s.autostop = .ok s.autostop
    have hsettings : (validateAutostop s.autostop).map (fun _ => s) = .ok s := h
    cases haccepted : validateAutostop s.autostop with
    | error err =>
      rw [haccepted] at hsettings
      contradiction
    | ok accepted => rw [(validateAutostop_eq_ok_iff.1 haccepted).1]
  | handle before roles now input ih =>
    rw [requests, Requests.timeout_after_eq]
    cases htimeout : input.timeout? with
    | none => exact ih h.1
    | some timeout => exact h.2 timeout htimeout

/-- If there is a quiet period, it takes some time. -/
theorem TimeoutsValid.pos {r : Run s} (h : r.TimeoutsValid) {after : Nat}
    (hafter : r.engine.autostop.after = some after) : 0 < after := by
  have htimeout : r.requests.timeout = some after := by
    rw [← r.requests_engine]
    exact hafter
  have hvalid := h.validate_timeout
  rw [htimeout] at hvalid
  exact pos_of_validateAutostop hvalid

end Run

/-! ## Due timers -/

theorem any_min?_le_iff {l : List Nat} {now : Nat} :
    l.min?.any (· ≤ now) = true ↔ ∃ d ∈ l, d ≤ now := by
  rw [Option.any_eq_true]
  simp only [decide_eq_true_eq]
  constructor
  · intro ⟨d, hd, hdue⟩
    exact ⟨d, (List.min?_eq_some_iff.1 hd).1, hdue⟩
  · intro ⟨d, hd, hdue⟩
    obtain ⟨least, hleast⟩ := Option.isSome_iff_exists.1 (List.isSome_min?_of_mem hd)
    have hle : least ≤ d := (List.min?_eq_some_iff.1 hleast).2 d hd
    exact ⟨least, hleast, Nat.le_trans hle hdue⟩

/-- A throttle that was asked whether its time has come holds no deadline that has passed. -/
theorem Throttle.not_due_fire (t : Throttle) (now : Nat) :
    (t.fire now).1.deadline.any (· ≤ now) = false := by
  unfold fire
  split
  · rfl
  · next hearly => exact Bool.eq_false_iff.2 hearly

theorem Autostop.not_due_fire (a : Autostop) (now : Nat) :
    (a.fire now).1.deadline.any (· ≤ now) = false := by
  unfold fire
  split
  · rfl
  · next hearly => exact Bool.eq_false_iff.2 hearly

/-- Keys are to be forgotten once the next deadline has passed. -/
theorem GraceSet.due_iff {κ : Type} [Ord κ] [Std.LawfulEqOrd κ] {s : GraceSet κ} {now : Nat} :
    (∃ d, s.nextDeadline = some d ∧ d ≤ now) ↔ ∃ k d, s.until? k = some d ∧ d ≤ now := by
  have hleast : s.nextDeadline.any (· ≤ now) = true ↔ ∃ d ∈ s.deadlines.values, d ≤ now :=
    any_min?_le_iff
  simp only [Option.any_eq_true, decide_eq_true_eq, GraceSet.mem_deadlines_iff] at hleast
  refine hleast.trans ?_
  constructor
  · intro ⟨d, ⟨k, hk⟩, hdue⟩
    exact ⟨k, d, hk, hdue⟩
  · intro ⟨k, d, hk, hdue⟩
    exact ⟨d, ⟨k, hk⟩, hdue⟩

/-- What is kept when keys are forgotten has its time still to come. -/
theorem Buffers.lt_of_kept_expire {b : Buffers} {now d : Nat} {a : Announcement}
    (h : (b.expire now).queuedUntil? a = some d ∨ (b.expire now).heldUntil? a = some d) :
    now < d := by
  rw [queuedUntil_expire, heldUntil_expire] at h
  rcases h with hqueued | hheld
  · simpa using (Option.filter_eq_some_iff.1 hqueued).2
  · simpa using (Option.filter_eq_some_iff.1 hheld).2

namespace Engine

variable {e : Engine} {now : Nat}

theorem isDue_iff {t : Timer} :
    e.isDue now t = true ↔ ∃ d, e.deadline? t = some d ∧ d ≤ now := by
  simp only [isDue, Option.any_eq_true, decide_eq_true_eq]

/-- Keys are due when the time of one of them has come. -/
theorem isDue_expiry_iff :
    e.isDue now .expiry = true ↔
      ∃ a d, (e.buffers.queuedUntil? a = some d ∨ e.buffers.heldUntil? a = some d) ∧ d ≤ now := by
  refine any_min?_le_iff.trans ?_
  simp only [List.mem_append, List.mem_filterMap, Option.mem_toList, SortedMap.mem_values_iff]
  constructor
  · intro hleast
    obtain ⟨d, hd, hdue⟩ := hleast
    rcases hd with ⟨l, ⟨c, hl⟩, hd⟩ | hd
    · obtain ⟨key, d', hkey, hdue'⟩ := GraceSet.due_iff.1 ⟨d, hd, hdue⟩
      have hheld : e.buffers.heldUntil? ⟨c, key⟩ = some d' := by
        simp only [Buffers.heldUntil?, buffers, hl, Option.map_some, Option.bind_some, hkey]
      exact ⟨⟨c, key⟩, d', Or.inr hheld, hdue'⟩
    · obtain ⟨a, d', ha, hdue'⟩ := GraceSet.due_iff.1 ⟨d, hd, hdue⟩
      exact ⟨a, d', Or.inl ha, hdue'⟩
  · intro hkept
    obtain ⟨a, d, hd, hdue⟩ := hkept
    rcases hd with hqueued | hheld
    · obtain ⟨d', hd', hdue'⟩ := GraceSet.due_iff.2 ⟨a, d, hqueued, hdue⟩
      exact ⟨d', Or.inr hd', hdue'⟩
    · simp only [Buffers.heldUntil?, buffers, Option.bind_map, Option.bind_eq_some_iff] at hheld
      obtain ⟨l, hl, hkey⟩ := hheld
      obtain ⟨d', hd', hdue'⟩ := GraceSet.due_iff.2 ⟨a.key, d, hkey, hdue⟩
      exact ⟨d', Or.inl ⟨l, ⟨a.connection, hl⟩, hd'⟩, hdue'⟩

/-- The engine once a timer is taken off, and before it is evaluated. -/
def takeOff (now : Nat) (e : Engine) : Timer → Engine
  | .throttle => { e with throttle := (e.throttle.fire now).1 }
  | .autostop => { e with autostop := (e.autostop.fire now).1, switch := e.switch.stop }
  | .expiry => e.expire now

/-- A timer that is taken off is due no longer; the others are left alone. -/
theorem isDue_takeOff_iff {t t' : Timer} :
    (e.takeOff now t).isDue now t' = true ↔ e.isDue now t' = true ∧ t' ≠ t := by
  have hself : (e.takeOff now t).isDue now t = false := by
    cases t with
    | throttle => exact e.throttle.not_due_fire now
    | autostop => exact e.autostop.not_due_fire now
    | expiry =>
      refine Bool.eq_false_iff.2 fun hdue => ?_
      obtain ⟨a, d, hkept, hle⟩ := isDue_expiry_iff.1 hdue
      have hbuffers : (e.takeOff now .expiry).buffers = e.buffers.expire now := e.buffers_expire now
      rw [hbuffers] at hkept
      have hlater : now < d := Buffers.lt_of_kept_expire hkept
      omega
  by_cases hsame : t' = t
  · subst hsame
    simp [hself]
  · have hother : (e.takeOff now t).isDue now t' = e.isDue now t' := by
      cases t <;> cases t' <;> first | rfl | contradiction
    rw [hother, and_iff_left hsame]

/-- An evaluation makes no timer due. -/
theorem isDue_of_isDue_evaluate (hpos : ∀ after, e.autostop.after = some after → 0 < after)
    {roles : Roles} {t : Timer} (h : (e.evaluate roles now).1.isDue now t = true) :
    e.isDue now t = true := by
  cases t with
  | throttle =>
    -- it asks for no further evaluation
    rw [evaluate_engine] at h
    exact h
  | autostop =>
    have hautostop : (e.evaluate roles now).1.autostop
        = (e.autostop.observe (dataOwned (e.statesSeen roles))).1.apply
          (e.verdictSeen roles).autostop now := by rw [evaluate_engine]
    obtain ⟨d, hd, hdue⟩ := (Option.any_eq_true _ _).1 h
    replace hd : (e.evaluate roles now).1.autostop.deadline = some d := hd
    rw [hautostop] at hd
    have hcases := Autostop.deadline_observe_apply hd
    rcases hcases with ⟨-, hruns⟩ | ⟨after, hafter, hstarted⟩
    · exact (Option.any_eq_true _ _).2 ⟨d, hruns, hdue⟩
    · -- a quiet period that begins now is not over
      have hsome := hpos after hafter
      have hle : d ≤ now := of_decide_eq_true hdue
      omega
  | expiry =>
    rw [isDue_expiry_iff, buffers_evaluate] at h
    exact isDue_expiry_iff.2 h

/-- A due timer is taken off, and its engine evaluated if it is not about keys only. -/
theorem fire_of_isDue {t : Timer} (hdue : e.isDue now t = true) (roles : Roles) :
    (e.fire roles now t).1 = if t = .expiry then e.takeOff now t
      else ((e.takeOff now t).evaluate roles now).1 := by
  cases t with
  | throttle =>
    have hfires : (e.throttle.fire now).2 = true := (e.throttle.fire_iff now).2 (isDue_iff.1 hdue)
    simp only [fire, if_pos hfires]
    rfl
  | autostop =>
    have hfires : (e.autostop.fire now).2 = true := (e.autostop.fire_iff now).2 (isDue_iff.1 hdue)
    simp only [fire, if_pos hfires]
    rfl
  | expiry => rfl

/-- A due timer that is handled is due no longer, and no other one has become due. -/
theorem isDue_of_isDue_fire (hpos : ∀ after, e.autostop.after = some after → 0 < after)
    {roles : Roles} {t t' : Timer} (hdue : e.isDue now t = true)
    (h : (e.fire roles now t).1.isDue now t' = true) : e.isDue now t' = true ∧ t' ≠ t := by
  rw [fire_of_isDue hdue] at h
  have htaken : (e.takeOff now t).isDue now t' = true := by
    split at h
    · exact h
    · refine isDue_of_isDue_evaluate (fun after hafter => ?_) h
      refine hpos after ?_
      rw [← hafter]
      cases t with
      | throttle => rfl
      | autostop => exact (e.autostop.after_fire now).symm
      | expiry => rfl
  exact isDue_takeOff_iff.1 htaken

end Engine

/-! ## Runs -/

namespace Run

variable {s : Settings} {now : Nat}

theorem timers_append (r : Run s) (steps later : List (Roles × Timer)) :
    r.timers now (steps ++ later) = (r.timers now steps).timers now later := by
  induction steps generalizing r with
  | nil => rfl
  | cons step steps ih => exact ih _

theorem dueInTurn_append {r : Run s} {steps later : List (Roles × Timer)} :
    r.DueInTurn now (steps ++ later) ↔
      r.DueInTurn now steps ∧ (r.timers now steps).DueInTurn now later := by
  induction steps generalizing r with
  | nil => exact (and_iff_right trivial).symm
  | cons step steps ih =>
    show _ ∧ DueInTurn now _ (steps ++ later) ↔ (_ ∧ _) ∧ _
    rw [ih, and_assoc]
    rfl

/-- A due timer that is handled is due no longer, and no other one has become due. -/
theorem isDue_of_isDue_timer {r : Run s} (hvalid : r.TimeoutsValid) {roles : Roles} {t t' : Timer}
    (hdue : r.engine.isDue now t = true)
    (h : (handle r roles now (.timer t)).engine.isDue now t' = true) :
    r.engine.isDue now t' = true ∧ t' ≠ t :=
  Engine.isDue_of_isDue_fire (fun _ hafter => hvalid.pos hafter) hdue h

/-- A timer configures no timeout. -/
theorem TimeoutsValid.timers {r : Run s} (hvalid : r.TimeoutsValid)
    (steps : List (Roles × Timer)) : (r.timers now steps).TimeoutsValid := by
  induction steps generalizing r with
  | nil => exact hvalid
  | cons step steps ih =>
    refine ih (r := handle r step.1 now (.timer step.2)) ⟨hvalid, ?_⟩
    intro timeout htimeout
    contradiction

/-- Due timers that are handled are different ones, and what is due after them was due before and
is another one. -/
theorem isDue_timers {r : Run s} (hvalid : r.TimeoutsValid) {steps : List (Roles × Timer)}
    (hdue : r.DueInTurn now steps) :
    (steps.map (·.2)).Nodup ∧ ∀ t, (r.timers now steps).engine.isDue now t = true →
      r.engine.isDue now t = true ∧ t ∉ steps.map (·.2) := by
  induction steps using List.reverseRecOn with
  | nil => exact ⟨List.nodup_nil, fun t ht => ⟨ht, List.not_mem_nil⟩⟩
  | append_singleton steps step ih =>
    obtain ⟨hearlier, hlast, -⟩ := dueInTurn_append.1 hdue
    obtain ⟨hnodup, hbefore⟩ := ih hearlier
    have hnew : step.2 ∉ steps.map (·.2) := (hbefore step.2 hlast).2
    have hmap : (steps ++ [step]).map (·.2) = steps.map (·.2) ++ [step.2] := List.map_append
    rw [hmap]
    refine ⟨?_, fun t ht => ?_⟩
    · refine hnodup.append (List.nodup_singleton _) ?_
      rw [List.disjoint_singleton]
      exact hnew
    · rw [timers_append] at ht
      obtain ⟨hdue', hother⟩ := isDue_of_isDue_timer (hvalid.timers steps) hlast ht
      obtain ⟨hfirst, hnot⟩ := hbefore t hdue'
      refine ⟨hfirst, ?_⟩
      simp only [List.mem_append, List.mem_singleton, not_or]
      exact ⟨hnot, hother⟩

/-- No more than three timers are handled, since there are no more. -/
theorem length_le_of_dueInTurn {r : Run s} (hvalid : r.TimeoutsValid)
    {steps : List (Roles × Timer)} (hdue : r.DueInTurn now steps) : steps.length ≤ 3 := by
  have hnodup : (steps.map (·.2)).Nodup := (isDue_timers hvalid hdue).1
  have hsub : steps.map (·.2) ⊆ [.throttle, .autostop, .expiry] := by
    intro t _
    cases t <;> simp
  have hlength := (hnodup.subperm hsub).length_le
  rwa [List.length_map] at hlength

/-- Due timers can be handled until none is due, and then they are three at most. -/
theorem exists_none_due {r : Run s} (hvalid : r.TimeoutsValid) (roles : Roles)
    {steps : List (Roles × Timer)} (hdue : r.DueInTurn now steps) :
    ∃ later : List Timer,
      let all := steps ++ later.map fun t => (roles, t)
      r.DueInTurn now all ∧ all.length ≤ 3 ∧
        ∀ t, (r.timers now all).engine.isDue now t = false := by
  -- the induction is on the number of steps that may be left
  obtain ⟨left, hleft⟩ : ∃ left, 3 < steps.length + left := ⟨4, by omega⟩
  induction left generalizing steps with
  | zero =>
    have hlength := length_le_of_dueInTurn hvalid hdue
    omega
  | succ left ih =>
    by_cases hnone : ∀ t, (r.timers now steps).engine.isDue now t = false
    · refine ⟨[], ?_⟩
      simp only [List.map_nil, List.append_nil]
      exact ⟨hdue, length_le_of_dueInTurn hvalid hdue, hnone⟩
    · obtain ⟨t, ht⟩ := not_forall.1 hnone
      have hmore : r.DueInTurn now (steps ++ [(roles, t)]) :=
        dueInTurn_append.2 ⟨hdue, Bool.of_not_eq_false ht, trivial⟩
      have hlonger : (steps ++ [(roles, t)]).length = steps.length + 1 := List.length_append
      obtain ⟨later, hall⟩ := ih hmore (by omega)
      rw [List.append_assoc] at hall
      exact ⟨t :: later, hall⟩

/-- **Timers that are due run out.** In every state that is reached with accepted timeouts, and at
every instant: if timers are handled one after the other, in any order and under any roles, as long
as they are due, then no timer comes twice, so there are three steps at most; whatever is due after
them was due at first and has not been handled. Each such sequence can be continued, if need be,
until no timer is due, and then it has three steps at most. -/
theorem due_timers_run_out (r : Run s) (hvalid : r.TimeoutsValid) (now : Nat)
    (steps : List (Roles × Timer)) (hdue : r.DueInTurn now steps) :
    (steps.map (·.2)).Nodup ∧ steps.length ≤ 3 ∧
      (∀ t, (r.timers now steps).engine.isDue now t = true →
        r.engine.isDue now t = true ∧ t ∉ steps.map (·.2)) ∧
      ∀ roles : Roles, ∃ later : List Timer,
        let all := steps ++ later.map fun t => (roles, t)
        r.DueInTurn now all ∧ all.length ≤ 3 ∧
          ∀ t, (r.timers now all).engine.isDue now t = false := by
  obtain ⟨hnodup, hbefore⟩ := isDue_timers hvalid hdue
  exact ⟨hnodup, length_le_of_dueInTurn hvalid hdue, hbefore,
    fun roles => exists_none_due hvalid roles hdue⟩

/-- Data is synced for a millisecond, a change waits for the throttle, and so does a key for its
connection; without intervals all three timers are due at one instant. -/
theorem due_timers_run_out_of_three :
    let allowed : Roles := fun _ _ => .allowed
    let s : Settings := { throttleMillis := 0, graceMillis := 0 }
    let started : Run s := .handle (.begin allowed 0) allowed 0 (.start (some (some 1000000)))
    let announced : Run s := .handle started allowed 500 (.announce default default)
    let r : Run s := .handle announced allowed 700 (.addCore .auth ⟨⟨1⟩⟩ ⟨⟨⟨1⟩⟩, 0, default, []⟩)
    let steps := [Timer.throttle, .autostop, .expiry].map fun t => (allowed, t)
    r.TimeoutsValid ∧ r.DueInTurn 1000000 steps ∧
      (∀ t, r.engine.isDue 1000000 t = true) ∧
      ∀ t, (r.timers 1000000 steps).engine.isDue 1000000 t = true → t ∉ steps.map (·.2) := by
  intro allowed s started announced r steps
  have hvalid : r.TimeoutsValid := by
    refine ⟨⟨⟨rfl, fun timeout htimeout => ?_⟩, nofun⟩, nofun⟩
    obtain rfl := Option.some.inj htimeout
    rfl
  have hdue : r.DueInTurn 1000000 steps :=
    ⟨by decide +kernel, by decide +kernel, by decide +kernel, trivial⟩
  have hall : ∀ t, r.engine.isDue 1000000 t = true := by
    intro t
    cases t <;> decide +kernel
  obtain ⟨-, -, hbefore, -⟩ := due_timers_run_out r hvalid 1000000 steps hdue
  exact ⟨hvalid, hdue, hall, fun t ht => (hbefore t ht).2⟩

end Run
end LogSync
