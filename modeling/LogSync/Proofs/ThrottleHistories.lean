import LogSync.Proofs.Histories
import LogSync.Timer.Throttle

/-!
# What the throttle runs for

The throttle is asked for runs, and asked whether a run is due, in any order and at any times, which
need not come in order either. A run that was asked for stays pending until it is taken, and it is
due when it was first asked for, but not before the interval after the last run is over
(`Throttle.deadline_eq_some_iff`). So each request is met by one run, which it may share with others,
there is no run without a request, and runs are an interval apart (`Throttle.runs_meet_requests`).
-/

namespace LogSync

open History

/-! ## What is said -/

/-- What is asked of the throttle. -/
inductive ThrottleOp where
  | notify (now : Nat)
  | fire (now : Nat)

/-- The throttle after an operation. -/
def ThrottleOp.apply (t : Throttle) : ThrottleOp → Throttle
  | notify now => t.notify now
  | fire now => (t.fire now).1

/-- A new throttle after some operations. -/
def Throttle.ofOps (interval : Nat) (ops : List ThrottleOp) : Throttle :=
  ops.foldl ThrottleOp.apply { interval }

namespace ThrottleOp

section
variable (interval : Nat)

/-- A run is asked for at a time. -/
def Asks (now : Nat) (_ : List ThrottleOp) (op : ThrottleOp) : Prop := op = .notify now

/-- A run is asked for. -/
def AsksSome (before : List ThrottleOp) (op : ThrottleOp) : Prop := ∃ now, Asks now before op

/-- A run is taken at a time: it was due. -/
def Runs (now : Nat) (before : List ThrottleOp) (op : ThrottleOp) : Prop :=
  op = .fire now ∧ ((Throttle.ofOps interval before).fire now).2 = true

/-- A run is taken. -/
def RunsSome (before : List ThrottleOp) (op : ThrottleOp) : Prop :=
  ∃ now, Runs interval now before op

/-- A run was asked for after the last one. -/
def Open (ops : List ThrottleOp) : Prop := Since AsksSome (RunsSome interval) ops

/-- After the last run, a run was first asked for at a time. -/
def FirstAsked (now : Nat) (ops : List ThrottleOp) : Prop :=
  Since (fun before op => Asks now before op ∧ ¬ Open interval before) (RunsSome interval) ops

/-- The last run was taken at a time. -/
def LastRun (now : Nat) (ops : List ThrottleOp) : Prop :=
  Since (Runs interval now) (RunsSome interval) ops

end

end ThrottleOp

/-! ## One operation -/

namespace Throttle

section
variable (t : Throttle) (now : Nat)

/-- A run is taken if and only if one is due. -/
theorem fire_iff : (t.fire now).2 = true ↔ ∃ d, t.deadline = some d ∧ d ≤ now := by
  unfold fire
  cases t.deadline with
  | none => simp
  | some d => by_cases hdue : d ≤ now <;> simp [hdue]

/-- A throttle of which no run is taken is left alone. -/
theorem fire_of_not_fires {t : Throttle} {now : Nat} (h : (t.fire now).2 = false) :
    (t.fire now).1 = t := by
  unfold fire at h ⊢
  split at h
  · contradiction
  · next hearly => rw [if_neg hearly]

/-- A run that is taken leaves no other due, and its time is noted. -/
theorem fire_of_fires {t : Throttle} {now : Nat} (h : (t.fire now).2 = true) :
    (t.fire now).1 = { t with deadline := none, lastRun := some now } := by
  unfold fire at h ⊢
  split at h
  · next hdue => rw [if_pos hdue]
  · contradiction

/-- To ask for a run sets a time for it, unless one is set: at once, or as long after the last run
as the interval has it. -/
theorem deadline_notify :
    (t.notify now).deadline
      = t.deadline.or (some (t.lastRun.elim now fun run => max now (run + t.interval))) := by
  unfold notify
  cases hdeadline : t.deadline with
  | some d => exact hdeadline
  | none =>
    cases t.lastRun with
    | none => exact congrArg some (Nat.max_self now)
    | some run => exact congrArg some (Nat.max_comm _ _)

/-- To ask for a run is all that it changes. -/
theorem frame_notify :
    (t.notify now).lastRun = t.lastRun ∧ (t.notify now).interval = t.interval := by
  unfold notify
  split <;> exact ⟨rfl, rfl⟩

end

section
variable (interval : Nat)

theorem ofOps_append_singleton (ops : List ThrottleOp) (op : ThrottleOp) :
    ofOps interval (ops ++ [op]) = op.apply (ofOps interval ops) := List.foldl_append

/-- The interval stays what it was. -/
theorem interval_ofOps (ops : List ThrottleOp) : (ofOps interval ops).interval = interval := by
  induction ops using List.reverseRecOn with
  | nil => rfl
  | append_singleton ops op ih =>
    rw [ofOps_append_singleton]
    refine Eq.trans ?_ ih
    cases op with
    | notify now => exact ((ofOps interval ops).frame_notify now).2
    | fire now =>
      show ((ofOps interval ops).fire now).1.interval = _
      unfold fire
      split <;> rfl

end

end Throttle

/-! ## The last operation -/

namespace ThrottleOp

section
variable {interval : Nat} {ops : List ThrottleOp} {now : Nat}

/-- Taking a run asks for none. -/
theorem not_asks_fire {asked : Nat} : ¬ Asks asked ops (.fire now) := nofun

/-- Asking for a run takes none. -/
theorem not_runs_notify {run : Nat} : ¬ Runs interval run ops (.notify now) := fun h => nomatch h.1

theorem not_runsSome_notify : ¬ RunsSome interval ops (.notify now) := fun ⟨_, h⟩ =>
  not_runs_notify h

/-- Whether a run is taken can be seen from the answer. -/
theorem runsSome_fire :
    RunsSome interval ops (.fire now) ↔ ((Throttle.ofOps interval ops).fire now).2 = true := by
  constructor
  · rintro ⟨now', hfire, hruns⟩
    obtain rfl := ThrottleOp.fire.inj hfire
    exact hruns
  · exact fun hruns => ⟨now, rfl, hruns⟩

/-- Once a run is asked for, one is open. -/
theorem open_append_notify : Open interval (ops ++ [.notify now]) :=
  since_append_singleton.2 (Or.inl ⟨now, rfl⟩)

/-- A run stays open until it is taken. -/
theorem open_append_fire :
    Open interval (ops ++ [.fire now]) ↔ Open interval ops ∧ ¬ RunsSome interval ops (.fire now) := by
  have hasks : ¬ AsksSome ops (.fire now) := fun ⟨_, h⟩ => not_asks_fire h
  rw [Open, since_append_singleton, or_iff_right hasks, Open]

/-- To ask for a run is the first time if none was open, and else changes nothing. -/
theorem firstAsked_append_notify {asked : Nat} :
    FirstAsked interval asked (ops ++ [.notify now]) ↔
      asked = now ∧ ¬ Open interval ops ∨ FirstAsked interval asked ops := by
  rw [FirstAsked, since_append_singleton, and_iff_left not_runsSome_notify, Asks,
    ThrottleOp.notify.injEq, eq_comm, FirstAsked]

/-- The first time that a run was asked for is forgotten when the run is taken. -/
theorem firstAsked_append_fire {asked : Nat} :
    FirstAsked interval asked (ops ++ [.fire now]) ↔
      FirstAsked interval asked ops ∧ ¬ RunsSome interval ops (.fire now) := by
  rw [FirstAsked, since_append_singleton, or_iff_right fun h => not_asks_fire h.1, FirstAsked]

/-- Asking for a run leaves the last one what it was. -/
theorem lastRun_append_notify {run : Nat} :
    LastRun interval run (ops ++ [.notify now]) ↔ LastRun interval run ops := by
  rw [LastRun, since_append_singleton, or_iff_right not_runs_notify,
    and_iff_left not_runsSome_notify, LastRun]

/-- A run that is taken is the last one from then on. -/
theorem lastRun_append_fire {run : Nat} :
    LastRun interval run (ops ++ [.fire now]) ↔
      run = now ∧ RunsSome interval ops (.fire now) ∨
        LastRun interval run ops ∧ ¬ RunsSome interval ops (.fire now) := by
  rw [LastRun, since_append_singleton, Runs, runsSome_fire, ThrottleOp.fire.injEq, eq_comm, LastRun]
  refine or_congr (and_congr_right fun hrun => ?_) Iff.rfl
  rw [hrun]

end

end ThrottleOp

/-! ## Histories -/

namespace Throttle

open ThrottleOp

section
variable (interval : Nat) (ops : List ThrottleOp)

/-- A run is pending exactly if one was asked for after the last one. -/
theorem isPending_iff : (ofOps interval ops).isPending = true ↔ Open interval ops := by
  induction ops using List.reverseRecOn with
  | nil => exact iff_of_false (fun h => by contradiction) not_since_nil
  | append_singleton ops op ih =>
    rw [ofOps_append_singleton]
    cases op with
    | notify now =>
      refine iff_of_true ?_ open_append_notify
      show ((ofOps interval ops).notify now).deadline.isSome = true
      rw [deadline_notify, Option.isSome_or]
      exact Bool.or_true _
    | fire now =>
      show ((ofOps interval ops).fire now).1.isPending = true ↔ _
      rw [open_append_fire, runsSome_fire]
      cases hfires : ((ofOps interval ops).fire now).2 with
      | true =>
        rw [fire_of_fires hfires]
        exact iff_of_false Bool.false_ne_true fun h => h.2 rfl
      | false =>
        rw [fire_of_not_fires hfires, ih]
        exact (and_iff_left Bool.false_ne_true).symm

/-- The throttle knows when the last run was taken. -/
theorem lastRun_eq_some_iff (run : Nat) :
    (ofOps interval ops).lastRun = some run ↔ LastRun interval run ops := by
  induction ops using List.reverseRecOn with
  | nil => exact iff_of_false (fun h => by contradiction) not_since_nil
  | append_singleton ops op ih =>
    rw [ofOps_append_singleton]
    cases op with
    | notify now =>
      show ((ofOps interval ops).notify now).lastRun = some run ↔ _
      rw [((ofOps interval ops).frame_notify now).1, ih, lastRun_append_notify]
    | fire now =>
      show ((ofOps interval ops).fire now).1.lastRun = some run ↔ _
      rw [lastRun_append_fire, runsSome_fire]
      cases hfires : ((ofOps interval ops).fire now).2 with
      | true =>
        rw [fire_of_fires hfires, Option.some_inj, eq_comm]
        simp
      | false =>
        rw [fire_of_not_fires hfires, ih]
        simp

/-- No time is noted if and only if no run was taken. -/
theorem lastRun_eq_none_iff :
    (ofOps interval ops).lastRun = none ↔ Never (RunsSome interval) ops := by
  induction ops using List.reverseRecOn with
  | nil => exact iff_of_true rfl never_nil
  | append_singleton ops op ih =>
    rw [ofOps_append_singleton, never_append_singleton, ← ih]
    cases op with
    | notify now =>
      show ((ofOps interval ops).notify now).lastRun = none ↔ _
      rw [((ofOps interval ops).frame_notify now).1, and_iff_left not_runsSome_notify]
    | fire now =>
      show ((ofOps interval ops).fire now).1.lastRun = none ↔ _
      rw [runsSome_fire]
      cases hfires : ((ofOps interval ops).fire now).2 with
      | true =>
        rw [fire_of_fires hfires]
        exact iff_of_false nofun fun h => h.2 rfl
      | false =>
        rw [fire_of_not_fires hfires]
        exact (and_iff_left Bool.false_ne_true).symm

/-- A run is due when it was first asked for, but not before the interval after the last run. -/
theorem deadline_eq_some_iff_of_lastRun (d : Nat) :
    (ofOps interval ops).deadline = some d ↔
      ∃ asked, FirstAsked interval asked ops ∧
        d = (ofOps interval ops).lastRun.elim asked fun run => max asked (run + interval) := by
  induction ops using List.reverseRecOn with
  | nil =>
    refine iff_of_false (fun h => by contradiction) ?_
    rintro ⟨asked, hasked, -⟩
    exact not_since_nil hasked
  | append_singleton ops op ih =>
    rw [ofOps_append_singleton]
    cases op with
    | notify now =>
      show ((ofOps interval ops).notify now).deadline = some d ↔
        ∃ asked, _ ∧ d = ((ofOps interval ops).notify now).lastRun.elim asked _
      have hidle : (ofOps interval ops).deadline = none ↔ ¬ Open interval ops := by
        rw [← isPending_iff, isPending, Bool.not_eq_true, Option.isSome_eq_false_iff,
          Option.isNone_iff_eq_none]
      rw [((ofOps interval ops).frame_notify now).1, deadline_notify, interval_ofOps,
        Option.or_eq_some_iff, ih, hidle, Option.some_inj]
      simp only [firstAsked_append_notify, or_and_right, exists_or]
      rw [or_comm]
      refine or_congr ⟨?_, ?_⟩ Iff.rfl
      · rintro ⟨hopen, rfl⟩
        exact ⟨now, ⟨rfl, hopen⟩, rfl⟩
      · rintro ⟨asked, ⟨rfl, hopen⟩, rfl⟩
        exact ⟨hopen, rfl⟩
    | fire now =>
      show ((ofOps interval ops).fire now).1.deadline = some d ↔
        ∃ asked, _ ∧ d = ((ofOps interval ops).fire now).1.lastRun.elim asked _
      simp only [firstAsked_append_fire, runsSome_fire]
      cases hfires : ((ofOps interval ops).fire now).2 with
      | true =>
        rw [fire_of_fires hfires]
        refine iff_of_false nofun ?_
        rintro ⟨asked, ⟨-, hfree⟩, -⟩
        exact hfree rfl
      | false =>
        rw [fire_of_not_fires hfires, ih]
        simp only [Bool.false_eq_true, not_false_eq_true, and_true]

/-- The same, with the last run taken from the history. -/
theorem deadline_eq_some_iff (d : Nat) :
    (ofOps interval ops).deadline = some d ↔
      ∃ asked, FirstAsked interval asked ops ∧
        ((∃ run, LastRun interval run ops ∧ d = max asked (run + interval)) ∨
          Never (RunsSome interval) ops ∧ d = asked) := by
  rw [deadline_eq_some_iff_of_lastRun]
  refine exists_congr fun asked => and_congr_right fun _ => ?_
  simp only [← lastRun_eq_some_iff, ← lastRun_eq_none_iff]
  cases (ofOps interval ops).lastRun <;> simp

end

/-- **Each run meets the requests since the last one.** After any requests and attempts to take a
run, at any times: a run is pending if and only if one was asked for after the last one. It is due
when it was first asked for then, or an interval after the last run if there was one and that is
later, and it can be taken from then on. So runs that follow each other are an interval apart, a
request can be met as long as no run has come after it, and no run is taken without a request. -/
theorem runs_meet_requests (interval : Nat) (ops : List ThrottleOp) :
    ((ofOps interval ops).isPending = true ↔ Open interval ops) ∧
      (∀ d, (ofOps interval ops).deadline = some d ↔
        ∃ asked, FirstAsked interval asked ops ∧
          ((∃ run, LastRun interval run ops ∧ d = max asked (run + interval)) ∨
            Never (RunsSome interval) ops ∧ d = asked)) ∧
      (∀ now, ((ofOps interval ops).fire now).2 = true ↔
        ∃ d, (ofOps interval ops).deadline = some d ∧ d ≤ now) ∧
      (∀ run now, LastRun interval run ops → ((ofOps interval ops).fire now).2 = true →
        run + interval ≤ now) ∧
      (∀ asked later,
        Never (fun between => RunsSome interval (ops ++ .notify asked :: between)) later →
          ∃ d, ∀ now, d ≤ now →
            ((ofOps interval (ops ++ .notify asked :: later)).fire now).2 = true) ∧
      ∀ now, ((ofOps interval ops).fire now).2 = true → Open interval ops := by
  refine ⟨isPending_iff interval ops, deadline_eq_some_iff interval ops, fun now => fire_iff _ now,
    fun run now hrun hfires => ?_, fun asked later hnever => ?_, fun now hfires => ?_⟩
  · obtain ⟨d, hd, hdue⟩ := (fire_iff _ now).1 hfires
    obtain ⟨asked, -, hmax⟩ := (deadline_eq_some_iff_of_lastRun interval ops d).1 hd
    rw [(lastRun_eq_some_iff interval ops run).2 hrun] at hmax
    calc run + interval ≤ max asked (run + interval) := Nat.le_max_right _ _
      _ = d := hmax.symm
      _ ≤ now := hdue
  · have hopen : Open interval (ops ++ .notify asked :: later) :=
      ⟨ops, .notify asked, later, rfl, ⟨asked, rfl⟩, hnever⟩
    obtain ⟨d, hd⟩ := Option.isSome_iff_exists.1 ((isPending_iff interval _).2 hopen)
    exact ⟨d, fun now hdue => (fire_iff _ now).2 ⟨d, hd, hdue⟩⟩
  · obtain ⟨d, hd, -⟩ := (fire_iff _ now).1 hfires
    exact (isPending_iff interval ops).1 (Option.isSome_iff_exists.2 ⟨d, hd⟩)

end Throttle

end LogSync
