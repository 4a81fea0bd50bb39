import LogSync.Proofs.Histories
import LogSync.Timer.Autostop

/-!
# What the autostop timer runs from

The timer is told five things, in any order and at any times, which need not come in order either:
how long the quiet period is to be, how many local data blocks there are, to start, to stop, and to
end if its deadline has come. It runs if and only if one of these has started it and none since has
stopped it (`Autostop.deadline_eq_some_iff`), and then until the configured time after that start.
So it ends as often as it was started at most, and never early (`Autostop.fires_once_per_arming`).
-/

namespace LogSync

open History

/-! ## What is said -/

/-- What the timer is told. -/
inductive AutostopOp where
  | setAfter (after : Option Nat)
  | observe (owned : Nat)
  | arm (now : Nat)
  | cancel (now : Nat)
  | fire (now : Nat)

namespace AutostopOp

/-- The timer after an operation. -/
def apply (a : Autostop) : AutostopOp → Autostop
  | setAfter after => a.setAfter after
  | observe owned => (a.observe owned).1
  | arm now => a.apply .arm now
  | cancel now => a.apply .cancel now
  | fire now => (a.fire now).1

/-- The timeout that an operation configures, if it does. -/
def timeout? : AutostopOp → Option (Option Nat)
  | setAfter after => some after
  | _ => none

/-- The number of local data blocks that an operation shows to the timer, if it does. -/
def owned? : AutostopOp → Option Nat
  | observe owned => some owned
  | _ => none

/-- The timeout that was configured last, if the timer is not off. -/
def lastTimeout (ops : List AutostopOp) : Option Nat := (last? timeout? ops).join

/-- The number of local data blocks that was shown last. -/
def lastShown (ops : List AutostopOp) : Option Nat := last? owned? ops

end AutostopOp

/-- A new timer after some operations. -/
def Autostop.ofOps (ops : List AutostopOp) : Autostop := ops.foldl AutostopOp.apply {}

namespace AutostopOp

/-- The timer is started at a time, for a configured one: it was told to start, and did not run. -/
def Starts (now after : Nat) (before : List AutostopOp) (op : AutostopOp) : Prop :=
  op = .arm now ∧ lastTimeout before = some after ∧ (Autostop.ofOps before).isArmed = false

/-- A running timer is stopped: it is configured, told to stop, shown another number than last time,
or has ended. -/
def Stops (before : List AutostopOp) : AutostopOp → Prop
  | setAfter _ | cancel _ => True
  | observe owned => lastShown before ≠ some owned
  | arm _ => False
  | fire now => ((Autostop.ofOps before).fire now).2 = true

end AutostopOp

/-! ## One operation -/

namespace Autostop

section
variable (a : Autostop)

/-! ### It is shown a number -/

theorem after_observe (owned : Nat) : (a.observe owned).1.after = a.after := by
  simp only [observe]
  split <;> rfl

/-- The deadline outlives an observation if and only if it shows no change. -/
theorem deadline_observe (owned : Nat) :
    (a.observe owned).1.deadline = if a.lastOwned = some owned then a.deadline else none := by
  unfold observe
  by_cases hlast : a.lastOwned = some owned
  · rw [if_pos hlast, hlast, bne_self_eq_false]
    rfl
  · have hchanged : (a.lastOwned != some owned) = true := bne_iff_ne.2 hlast
    simp only [hchanged, if_true, if_neg hlast]
    rfl

/-! ### It is told to start or to stop -/

section
variable (action : AutostopAction) (now : Nat)

theorem after_apply : (a.apply action now).after = a.after := by
  unfold apply
  split <;> rfl

/-- To start or to stop the timer is no observation. -/
theorem lastOwned_apply : (a.apply action now).lastOwned = a.lastOwned := by
  unfold apply
  split <;> rfl

/-- A timer that is told to start goes on if it runs. -/
theorem deadline_apply_arm :
    (a.apply .arm now).deadline = a.deadline.or (a.after.map (now + ·)) := by
  unfold apply
  cases hdeadline : a.deadline with
  | some d => cases a.after <;> exact hdeadline
  | none =>
    cases a.after with
    | none => exact hdeadline
    | some after => rfl

end

/-! ### It is to end if its time has come -/

section
variable (now : Nat)

/-- The timer ends if and only if it has a deadline and that has come. -/
theorem fire_iff : (a.fire now).2 = true ↔ ∃ d, a.deadline = some d ∧ d ≤ now := by
  unfold fire
  cases a.deadline with
  | none => simp
  | some d => by_cases hdue : d ≤ now <;> simp [hdue]

/-- A timer that does not fire is left alone. -/
theorem fire_of_not_fires {a : Autostop} {now : Nat} (h : (a.fire now).2 = false) :
    (a.fire now).1 = a := by
  unfold fire at h ⊢
  split at h
  · contradiction
  · next hearly => rw [if_neg hearly]

theorem after_fire : (a.fire now).1.after = a.after := by
  unfold fire
  split <;> rfl

theorem lastOwned_fire : (a.fire now).1.lastOwned = a.lastOwned := by
  unfold fire
  split <;> rfl

/-- A timer that ends has no deadline any more; another keeps it. -/
theorem deadline_fire : (a.fire now).1.deadline = if (a.fire now).2 then none else a.deadline := by
  unfold fire
  split <;> rfl

end

end

/-! ### What it knows -/

theorem ofOps_append_singleton (ops : List AutostopOp) (op : AutostopOp) :
    ofOps (ops ++ [op]) = op.apply (ofOps ops) := List.foldl_append

/-- The timer knows what was configured last. -/
theorem after_ofOps (ops : List AutostopOp) : (ofOps ops).after = AutostopOp.lastTimeout ops := by
  induction ops using List.reverseRecOn with
  | nil => rfl
  | append_singleton ops op ih =>
    rw [ofOps_append_singleton, AutostopOp.lastTimeout, last?_append_singleton]
    cases op with
    | setAfter after => rfl
    | observe owned => exact ((ofOps ops).after_observe owned).trans ih
    | arm now => exact ((ofOps ops).after_apply .arm now).trans ih
    | cancel now => exact ih
    | fire now => exact ((ofOps ops).after_fire now).trans ih

/-- And it knows what was shown last. -/
theorem lastOwned_ofOps (ops : List AutostopOp) :
    (ofOps ops).lastOwned = AutostopOp.lastShown ops := by
  induction ops using List.reverseRecOn with
  | nil => rfl
  | append_singleton ops op ih =>
    rw [ofOps_append_singleton, AutostopOp.lastShown, last?_append_singleton]
    cases op with
    | setAfter after => exact ih
    | observe owned => rfl
    | arm now => exact ((ofOps ops).lastOwned_apply .arm now).trans ih
    | cancel now => exact ih
    | fire now => exact ((ofOps ops).lastOwned_fire now).trans ih

end Autostop

/-! ## Histories -/

namespace Autostop

open AutostopOp

/-- An operation has the timer run until a deadline if it starts the timer for then, or if the timer
did so before and is not stopped. -/
theorem deadline_step (ops : List AutostopOp) (op : AutostopOp) (d : Nat) :
    (ofOps (ops ++ [op])).deadline = some d ↔
      (∃ now after, Starts now after ops op ∧ d = now + after) ∨
        (ofOps ops).deadline = some d ∧ ¬ Stops ops op := by
  rw [ofOps_append_singleton]
  -- only an operation that tells the timer to start can do so
  have hnever (hop : ∀ now, op ≠ .arm now) :
      ¬ ∃ now after, Starts now after ops op ∧ d = now + after := by
    rintro ⟨now, after, ⟨harm, -⟩, -⟩
    exact hop now harm
  cases op with
  | setAfter after =>
    simp only [hnever fun _ => AutostopOp.noConfusion, Stops, not_true_eq_false, and_false, or_false]
    exact iff_of_false nofun id
  | observe owned =>
    show ((ofOps ops).observe owned).1.deadline = some d ↔ _
    simp only [hnever fun _ => AutostopOp.noConfusion, Stops, deadline_observe, lastOwned_ofOps,
      false_or, not_not]
    by_cases hshown : lastShown ops = some owned <;> simp [hshown]
  | arm now =>
    show ((ofOps ops).apply .arm now).deadline = some d ↔ _
    rw [deadline_apply_arm, Option.or_eq_some_iff, after_ofOps, Option.map_eq_some_iff]
    constructor
    · rintro (hruns | ⟨hidle, after, htimeout, rfl⟩)
      · exact Or.inr ⟨hruns, id⟩
      · exact Or.inl ⟨now, after, ⟨rfl, htimeout, by rw [isArmed, hidle]; rfl⟩, rfl⟩
    · rintro (⟨now', after, ⟨harm, htimeout, hidle⟩, rfl⟩ | ⟨hruns, -⟩)
      · obtain rfl := AutostopOp.arm.inj harm
        have hnone : (ofOps ops).deadline = none :=
          Option.isNone_iff_eq_none.1 (Option.isSome_eq_false_iff.1 hidle)
        exact Or.inr ⟨hnone, after, htimeout, rfl⟩
      · exact Or.inl hruns
  | cancel now =>
    simp only [hnever fun _ => AutostopOp.noConfusion, Stops, not_true_eq_false, and_false, or_false]
    exact iff_of_false nofun id
  | fire now =>
    show ((ofOps ops).fire now).1.deadline = some d ↔ _
    simp only [hnever fun _ => AutostopOp.noConfusion, Stops, deadline_fire, false_or]
    by_cases hfires : ((ofOps ops).fire now).2 = true <;> simp [hfires]

/-- The timer runs exactly if it was started and has not been stopped since. -/
theorem deadline_eq_some_iff (ops : List AutostopOp) (d : Nat) :
    (ofOps ops).deadline = some d ↔
      ∃ now after, Since (Starts now after) Stops ops ∧ d = now + after := by
  induction ops using List.reverseRecOn with
  | nil =>
    refine iff_of_false (fun h => by contradiction) ?_
    rintro ⟨now, after, hsince, -⟩
    exact not_since_nil hsince
  | append_singleton ops op ih =>
    rw [deadline_step, ih]
    simp only [since_append_singleton, or_and_right, exists_or]
    refine or_congr Iff.rfl ⟨?_, ?_⟩
    · rintro ⟨⟨now, after, hsince, hd⟩, hgoes⟩
      exact ⟨now, after, ⟨hsince, hgoes⟩, hd⟩
    · rintro ⟨now, after, ⟨hsince, hgoes⟩, hd⟩
      exact ⟨⟨now, after, hsince, hd⟩, hgoes⟩

/-- The timer ends exactly if it was started, has not been stopped since, and its time has come. -/
theorem fires_iff (ops : List AutostopOp) (now : Nat) :
    ((ofOps ops).fire now).2 = true ↔
      ∃ begun after, Since (Starts begun after) Stops ops ∧ begun + after ≤ now := by
  rw [fire_iff]
  constructor
  · rintro ⟨d, hd, hdue⟩
    obtain ⟨begun, after, hsince, rfl⟩ := (deadline_eq_some_iff ops d).1 hd
    exact ⟨begun, after, hsince, hdue⟩
  · rintro ⟨begun, after, hsince, hdue⟩
    exact ⟨begun + after, (deadline_eq_some_iff ops _).2 ⟨begun, after, hsince, rfl⟩, hdue⟩

/-- **The timer fires once for each time that it was started, and never early.** After any
operations on a new timer, at any times: it runs until some deadline if and only if it was started
the configured time before, and since then it was neither configured, nor told to stop, nor shown
another number of local data blocks, nor has it fired. It fires if and only if there is such a
start whose time is over. And between two times that it fires it was started anew, the configured
time before the second one at the latest. -/
theorem fires_once_per_arming (ops : List AutostopOp) :
    (∀ d, (ofOps ops).deadline = some d ↔
        ∃ begun after, Since (Starts begun after) Stops ops ∧ d = begun + after) ∧
      (∀ now, ((ofOps ops).fire now).2 = true ↔
        ∃ begun after, Since (Starts begun after) Stops ops ∧ begun + after ≤ now) ∧
      ∀ now later now', ((ofOps ops).fire now).2 = true →
        ((ofOps (ops ++ .fire now :: later)).fire now').2 = true →
          ∃ begun after,
            Since (fun between => Starts begun after (ops ++ .fire now :: between))
              (fun between => Stops (ops ++ .fire now :: between)) later ∧
            begun + after ≤ now' := by
  refine ⟨deadline_eq_some_iff ops, fires_iff ops, fun now later now' hfires hfires' => ?_⟩
  obtain ⟨begun, after, hsince, hdue⟩ := (fires_iff _ now').1 hfires'
  refine ⟨begun, after, ?_, hdue⟩
  rw [List.append_cons] at hsince
  rcases of_since_append hsince with hlater | ⟨hbefore, -⟩
  · simpa only [List.append_assoc, List.singleton_append] using hlater
  · -- what was begun before has ended with the first time that the timer fired
    rcases since_append_singleton.1 hbefore with ⟨harm, -⟩ | ⟨-, hgoes⟩
    · contradiction
    · exact absurd hfires hgoes

end Autostop

end LogSync
