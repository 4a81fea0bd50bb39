import LogSync.Proofs.FullStops
import LogSync.Proofs.Histories

/-!
# When a full stop holds

A switch holds a full stop if one is requested and nothing is synced. It goes by the state alone, so
it cannot tell why nothing is synced: because an evaluation has granted a full stop, or because there
was no evaluation yet. Nor can it tell whether a full stop that was granted was rescinded, and
another one requested, since the last evaluation.

So nothing is synced exactly if all evaluations since some grant, or all evaluations that there were,
were made with a full stop requested (`SyncSwitch.current_eq_none_iff`). A grant that was not
rescinded is one way to come to that, and where it is not the only one, an evaluation that finds not
everything synced shows the difference (`SyncSwitch.hold_is_of_grant_iff`).
-/

namespace LogSync

open History

/-! ## What is said -/

/-- What can be done to a switch. -/
inductive SwitchOp where
  | start
  | stop
  | requestFullStop
  | rescindFullStop
  | evaluate (synced : Bool)

/-- The switch after an operation. -/
def SwitchOp.apply (s : SyncSwitch) : SwitchOp → SyncSwitch
  | start => s.start
  | stop => s.stop
  | requestFullStop => s.requestFullStop
  | rescindFullStop => s.rescindFullStop
  | evaluate synced => (s.evaluate synced).1

/-- A new switch after some operations. -/
def SyncSwitch.ofOps (ops : List SwitchOp) : SyncSwitch := ops.foldl SwitchOp.apply {}

namespace SwitchOp

/-- A full stop is granted: an evaluation finds it requested, and everything synced. -/
def Grants (before : List SwitchOp) (op : SwitchOp) : Prop :=
  op = .evaluate true ∧ (SyncSwitch.ofOps before).fullStop = true

/-- The request for a full stop is taken back. -/
def Rescinds (_ : List SwitchOp) (op : SwitchOp) : Prop := op = .rescindFullStop

/-- An evaluation finds no full stop requested. -/
def Resumes (before : List SwitchOp) (op : SwitchOp) : Prop :=
  (∃ synced, op = .evaluate synced) ∧ (SyncSwitch.ofOps before).fullStop = false

/-- A full stop was granted and has not been rescinded since. -/
def Stopped (ops : List SwitchOp) : Prop := Since Grants Rescinds ops

/-- All evaluations since a full stop was granted, or all evaluations, have found one requested. -/
def Lingers (ops : List SwitchOp) : Prop := Never Resumes ops ∨ Since Grants Resumes ops

/-- An evaluation after some operations goes by the requests and by what is synced, unless a full
stop was granted and has not been rescinded, which it upholds. -/
def KeepsToGrants (ops : List SwitchOp) (synced : Bool) : Prop :=
  let switch := SyncSwitch.ofOps ops
  (Stopped ops → (switch.evaluate synced).2 = ⟨.none, .cancel⟩) ∧
    (¬ Stopped ops →
      (switch.evaluate synced).2 = .of switch.wantsData switch.fullStop synced)

end SwitchOp

/-! ## One operation -/

namespace SyncSwitch

theorem ofOps_append_singleton (ops : List SwitchOp) (op : SwitchOp) :
    ofOps (ops ++ [op]) = op.apply (ofOps ops) := List.foldl_append

/-- An evaluation brings nothing to be synced if a full stop is requested, and nothing was synced
before or everything is. -/
theorem current_evaluate_eq_none_iff (s : SyncSwitch) (synced : Bool) :
    (s.evaluate synced).1.current = .none ↔
      s.fullStop = true ∧ (s.current = .none ∨ synced = true) := by
  show (s.verdict synced).state = .none ↔ _
  cases hrequested : s.fullStop with
  | false =>
    rw [verdict_of_running (Or.inl hrequested), hrequested, Bool.false_and,
      if_neg Bool.false_ne_true]
    refine iff_of_false ?_ fun h => Bool.false_ne_true h.1
    cases s.wantsData <;> exact EnabledState.noConfusion
  | true =>
    by_cases hcurrent : s.current = .none
    · exact iff_of_true (verdict_of_stopped hrequested hcurrent synced) ⟨rfl, Or.inl hcurrent⟩
    · rw [verdict_of_running (Or.inr hcurrent), hrequested, Bool.true_and]
      cases synced with
      | true => exact iff_of_true rfl ⟨rfl, Or.inr rfl⟩
      | false =>
        refine iff_of_false ?_ fun h => h.2.elim hcurrent Bool.false_ne_true
        cases s.wantsData <;> exact EnabledState.noConfusion

end SyncSwitch

namespace SwitchOp

section
variable {before : List SwitchOp} {synced : Bool}

/-- An evaluation grants a full stop if it finds one requested, and everything synced. -/
theorem grants_evaluate :
    Grants before (.evaluate synced) ↔ synced = true ∧ (SyncSwitch.ofOps before).fullStop = true := by
  unfold Grants
  rw [evaluate.injEq]

theorem not_resumes_evaluate :
    ¬ Resumes before (.evaluate synced) ↔ (SyncSwitch.ofOps before).fullStop = true := by
  unfold Resumes
  rw [not_and, Bool.not_eq_false]
  exact ⟨fun h => h ⟨synced, rfl⟩, fun h _ => h⟩

end

/-- Requests grant nothing and are no evaluations, so they change nothing about what lingers. -/
theorem lingers_append_of_request {ops : List SwitchOp} {op : SwitchOp}
    (hop : ∀ synced, op ≠ .evaluate synced) : Lingers (ops ++ [op]) ↔ Lingers ops := by
  have hgrants : ¬ Grants ops op := fun h => hop true h.1
  have hresumes : ¬ Resumes ops op := fun h => h.1.elim hop
  unfold Lingers
  rw [never_append_singleton, since_append_singleton]
  simp only [hgrants, hresumes, not_false_eq_true, and_true, false_or]

/-- Nothing lingers past an evaluation that finds no full stop requested. Past another one what
lingered does so still, and if everything is synced, the grant begins to. -/
theorem lingers_append_evaluate {ops : List SwitchOp} {synced : Bool} :
    Lingers (ops ++ [.evaluate synced]) ↔
      (SyncSwitch.ofOps ops).fullStop = true ∧ (Lingers ops ∨ synced = true) := by
  unfold Lingers
  rw [never_append_singleton, since_append_singleton, grants_evaluate, not_resumes_evaluate]
  tauto

end SwitchOp

/-! ## Histories -/

namespace SyncSwitch

open SwitchOp

/-- Nothing is synced if and only if all evaluations since a grant, or all evaluations, have found a
full stop requested. -/
theorem current_eq_none_iff (ops : List SwitchOp) :
    (ofOps ops).current = .none ↔ Lingers ops := by
  induction ops using List.reverseRecOn with
  | nil => exact iff_of_true rfl (Or.inl never_nil)
  | append_singleton ops op ih =>
    rw [ofOps_append_singleton]
    cases op with
    | evaluate synced =>
      rw [lingers_append_evaluate, ← ih]
      exact current_evaluate_eq_none_iff _ _
    | _ =>
      rw [lingers_append_of_request (fun _ => SwitchOp.noConfusion), ← ih]
      rfl

/-- A grant that was not rescinded: the full stop is still requested, and so it was at all
evaluations since. -/
theorem of_stopped {ops : List SwitchOp} (h : Stopped ops) :
    (ofOps ops).fullStop = true ∧ Lingers ops := by
  induction ops using List.reverseRecOn with
  | nil => exact absurd h not_since_nil
  | append_singleton ops op ih =>
    rw [ofOps_append_singleton]
    rcases since_append_singleton.1 h with ⟨rfl, hrequested⟩ | ⟨hbefore, hrescinds⟩
    · exact ⟨hrequested, lingers_append_evaluate.2 ⟨hrequested, Or.inr rfl⟩⟩
    · obtain ⟨hrequested, hlingers⟩ := ih hbefore
      cases op with
      | evaluate synced =>
        exact ⟨hrequested, lingers_append_evaluate.2 ⟨hrequested, Or.inl hlingers⟩⟩
      | rescindFullStop => exact absurd rfl hrescinds
      | requestFullStop =>
        exact ⟨rfl, (lingers_append_of_request fun _ => SwitchOp.noConfusion).2 hlingers⟩
      | _ =>
        exact ⟨hrequested, (lingers_append_of_request fun _ => SwitchOp.noConfusion).2 hlingers⟩

theorem isHeld_iff (ops : List SwitchOp) :
    (ofOps ops).isHeld = true ↔ (ofOps ops).fullStop = true ∧ Lingers ops := by
  rw [isHeld, Bool.and_eq_true, beq_iff_eq, current_eq_none_iff]

/-- **A full stop holds without a grant, too.** After any operations on a new switch, an evaluation
upholds a full stop if one is requested and all evaluations since a grant, or all evaluations, have
found one requested; otherwise it goes by the requests and by what is synced. So it does what a
grant that was not rescinded asks for, and nothing else, except if it finds not everything synced
and a full stop requested, and that although no grant is in force: there was no evaluation without
a request yet, or none since a grant that was rescinded. -/
theorem hold_is_of_grant_iff (ops : List SwitchOp) (synced : Bool) :
    let switch := ofOps ops
    (switch.fullStop = true ∧ Lingers ops →
        (switch.evaluate synced).2 = ⟨.none, .cancel⟩) ∧
      (¬ (switch.fullStop = true ∧ Lingers ops) →
        (switch.evaluate synced).2 = .of switch.wantsData switch.fullStop synced) ∧
      (KeepsToGrants ops synced ↔
        ¬ (synced = false ∧ switch.fullStop = true ∧ Lingers ops ∧ ¬ Stopped ops)) := by
  intro switch
  have hheld (h : switch.fullStop = true ∧ Lingers ops) :
      (switch.evaluate synced).2 = ⟨.none, .cancel⟩ := if_pos ((isHeld_iff ops).2 h)
  have hfree (h : ¬ (switch.fullStop = true ∧ Lingers ops)) :
      (switch.evaluate synced).2 = .of switch.wantsData switch.fullStop synced :=
    if_neg fun hisHeld => h ((isHeld_iff ops).1 hisHeld)
  refine ⟨hheld, hfree, ?_, ?_⟩
  · rintro ⟨-, hrow⟩ ⟨rfl, hrequested, hlingers, hstopped⟩
    -- with something left to sync, the requests would have it synced
    have hnone := (hheld ⟨hrequested, hlingers⟩).symm.trans (hrow hstopped)
    have hstate := congrArg Verdict.state hnone
    rw [Verdict.of, Bool.and_false, if_neg Bool.false_ne_true] at hstate
    cases hwants : switch.wantsData <;> rw [hwants] at hstate <;> contradiction
  · intro h
    refine ⟨fun hstopped => hheld (of_stopped hstopped), fun hstopped => ?_⟩
    by_cases hlingers : switch.fullStop = true ∧ Lingers ops
    · -- with everything synced, the requests have nothing synced either
      have hsynced : synced = true := by
        rw [← Bool.not_eq_false]
        exact fun hsynced => h ⟨hsynced, hlingers.1, hlingers.2, hstopped⟩
      rw [hheld hlingers, hlingers.1, hsynced, Verdict.of]
      simp
    · exact hfree hlingers

/-- A full stop that is requested before the first evaluation holds at once, and so does one that is
requested anew before an evaluation has come after the one that was rescinded. -/
theorem held_without_grant :
    let early : List SwitchOp := [.requestFullStop]
    let anew : List SwitchOp :=
      [.requestFullStop, .evaluate true, .rescindFullStop, .requestFullStop]
    ¬ KeepsToGrants early false ∧ ¬ KeepsToGrants anew false := by
  intro early anew
  have hearly : ¬ Stopped early := by
    show ¬ Since _ _ ([] ++ [_])
    rw [since_append_singleton]
    rintro (⟨hgrants, -⟩ | ⟨hbefore, -⟩)
    · contradiction
    · exact not_since_nil hbefore
  have hanew : ¬ Stopped anew := by
    let granted : List SwitchOp := [.requestFullStop, .evaluate true]
    show ¬ Since _ _ (granted ++ [_] ++ [_])
    rw [since_append_singleton, since_append_singleton]
    rintro (⟨hgrants, -⟩ | ⟨⟨hgrants, -⟩ | ⟨-, hrescinds⟩, -⟩)
    · contradiction
    · contradiction
    · exact hrescinds rfl
  exact ⟨fun h => absurd (h.2 hearly) (by decide), fun h => absurd (h.2 hanew) (by decide)⟩

end SyncSwitch

end LogSync
