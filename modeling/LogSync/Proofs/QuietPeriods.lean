import LogSync.Proofs.TrackerSteps
import LogSync.Proofs.WalkCounts

/-!
# What the autostop timer goes by

The timer is started by an evaluation, and a later one that sees another number of local data blocks
starts it anew. So when it fires, all the evaluations of its period have seen the same number
(`Run.autostop_fires_after_like_evaluations`). But a change of the data is seen no sooner than with
the next evaluation, for which the throttle may have to wait until the timer has fired. What follows
is weaker than that no data has come in: no change was seen. If none was overlooked either, the
whole period was quiet.
-/

namespace LogSync

/-! ## What is said -/

/-- The number of local data blocks, as the counts of the data namespace give it. -/
def Engine.ownedData (e : Engine) : Nat := dataOwned e.readStates.1

namespace Run

variable {s : Settings}

/-- When the last input came, or the run began. -/
def time : Run s → Nat
  | begin _ now => now
  | handle _ _ now _ => now

/-- No input came before an earlier one. -/
def InOrder : Run s → Prop
  | begin _ _ => True
  | handle before _ now _ => before.InOrder ∧ before.time ≤ now

/-- The evaluations so far, the last one first: when each was, and the number of local data blocks
that it saw. -/
def evaluations : Run s → List (Nat × Nat)
  | begin roles now => [(now, (Engine.begin roles now s).1.ownedData)]
  | handle before roles now input =>
    let (e, effects) := before.engine.handle roles now input
    if effects.any (·.isPublish) then (now, e.ownedData) :: before.evaluations
    else before.evaluations

/-- The times at which the number of local data blocks changed, the last one first. -/
def changes : Run s → List Nat
  | begin _ _ => []
  | handle before roles now input =>
    if (before.engine.handle roles now input).1.ownedData = before.engine.ownedData then
      before.changes
    else now :: before.changes

/-- The last evaluation saw the number of local data blocks that there are now. -/
def SeesAll (r : Run s) : Prop := r.evaluations.head?.map (·.2) = some r.engine.ownedData

instance (r : Run s) : Decidable r.SeesAll :=
  inferInstanceAs (Decidable (r.evaluations.head?.map (·.2) = some r.engine.ownedData))

/-- No change of the data was undone before an evaluation saw it. -/
def Watched : Run s → Prop
  | begin _ _ => True
  | handle before roles now input =>
    before.Watched ∧
      (¬ before.SeesAll → (handle before roles now input).SeesAll →
        (before.engine.handle roles now input).2.any (·.isPublish) = true)

end Run

/-! ## The number of data blocks -/

/-- The number of local blocks of a core. -/
def CoreTracker.ownedBlocks (core : CoreTracker) : Nat :=
  countBelow core.localPeer.has core.length

theorem CoreTracker.ownedBlocks_of_tends {ops : List CoreOp} (hops : ∀ op ∈ ops, op.tends = true)
    (core : CoreTracker) : (ops.foldl CoreOp.apply core).ownedBlocks = core.ownedBlocks := by
  refine Engine.foldl_of_tends (P := fun core' => core'.ownedBlocks = core.ownedBlocks)
    (fun op hop core' hcore' => ?_) hops rfl
  obtain ⟨hlength, hlocal⟩ := op.local_of_tends hop core'
  unfold ownedBlocks at hcore' ⊢
  rw [hlength, hlocal, hcore']

namespace NamespaceTracker

/-- The local blocks of a namespace are those of its cores. -/
theorem owned_total {t : NamespaceTracker}
    (hlengths : ∀ key core, t.cores.get? key = some core → core.length ≤ lastIndex) :
    t.total.localPeer.owned = sumOver CoreTracker.ownedBlocks t.cores.values := by
  rw [total, (NamespaceState.aggregates_ofCores _).localPeer]
  show sumOver BlockCounts.owned _ = _
  rw [sumOver_map, sumOver_map]
  refine sumOver_congr fun core hcore => ?_
  obtain ⟨key, hkey⟩ := SortedMap.mem_values_iff.1 hcore
  rw [CoreTracker.derived, CoreCounts.derive_eq_blockwise (hlengths key core hkey)]
  rfl

/-- Tending brings no blocks. -/
theorem Tended.owned_eq {t t' : NamespaceTracker} (h : t.Tended t') :
    sumOver CoreTracker.ownedBlocks t'.cores.values
      = sumOver CoreTracker.ownedBlocks t.cores.values := by
  -- tending is told core by core, so the maps of numbers are compared before their sums
  have hcores : (t'.cores.mapValues fun _ core => core.ownedBlocks)
      = t.cores.mapValues fun _ core => core.ownedBlocks := by
    refine SortedMap.ext_get? fun key => ?_
    obtain ⟨ops, hops, hcore⟩ := h key
    rw [SortedMap.get?_mapValues, SortedMap.get?_mapValues, hcore, Option.map_map]
    cases t.cores.get? key with
    | none => rfl
    | some core => exact congrArg some (core.ownedBlocks_of_tends hops)
  have hvalues := congrArg (fun m => sumOver id m.values) hcores
  simp only [SortedMap.values_mapValues, sumOver_map] at hvalues
  exact hvalues

end NamespaceTracker

namespace Engine

/-- Every tracker is sound, and every length fits the index space. -/
structure Countable (e : Engine) : Prop where
  sound : AllSound e.catalog e.namespaces
  lengths : e.AllCores fun core => core.length ≤ lastIndex

/-- The number of local data blocks is the sum over the data cores. -/
theorem Countable.ownedData_eq {e : Engine} (h : e.Countable) :
    e.ownedData = (e.namespaces.get? .data).elim 0 fun t =>
      sumOver CoreTracker.ownedBlocks t.cores.values := by
  unfold ownedData dataOwned
  rw [readStates_of_allSound h.sound, totals, SortedMap.get?_mapValues]
  cases hdata : e.namespaces.get? .data with
  | none => rfl
  | some t => exact NamespaceTracker.owned_total fun key core => h.lengths .data t key core hdata

/-- The number of local data blocks stays the same where all that happens is tending. -/
theorem ownedData_of_tended {e e' : Engine} (h : e.Countable) (h' : e'.Countable)
    (htended : AllTended e.namespaces e'.namespaces) : e'.ownedData = e.ownedData := by
  obtain ⟨f, hf, heq⟩ := htended
  rw [h.ownedData_eq, h'.ownedData_eq, heq, SortedMap.get?_mapValues]
  cases e.namespaces.get? .data with
  | none => rfl
  | some t => exact (hf .data t).owned_eq

end Engine

/-! ## The timer -/

namespace Autostop

section
variable (a : Autostop) (owned : Nat) (action : AutostopAction) (now : Nat)

theorem lastOwned_observe_apply :
    ((a.observe owned).1.apply action now).lastOwned = some owned :=
  lastOwned_apply _ _ _

theorem after_observe_apply : ((a.observe owned).1.apply action now).after = a.after := by
  rw [after_apply, after_observe]

end

/-- After an evaluation the timer runs because it did before and the number has not changed, or
because the evaluation has started it. -/
theorem deadline_observe_apply {a : Autostop} {owned : Nat} {action : AutostopAction} {now d : Nat}
    (h : ((a.observe owned).1.apply action now).deadline = some d) :
    a.lastOwned = some owned ∧ a.deadline = some d ∨
      ∃ after, a.after = some after ∧ d = now + after := by
  cases action with
  | cancel => contradiction
  | arm =>
    rw [deadline_apply_arm, deadline_observe, after_observe, Option.or_eq_some_iff] at h
    rcases h with hruns | ⟨-, hstarted⟩
    · split at hruns
      · next hlast => exact Or.inl ⟨hlast, hruns⟩
      · contradiction
    · obtain ⟨after, hafter, rfl⟩ := Option.map_eq_some_iff.1 hstarted
      exact Or.inr ⟨after, hafter, rfl⟩

/-- What is done before an evaluation may stop the timer; if it does not, it leaves it alone. -/
theorem before_cases (a : Autostop) (now : Nat) (input : Input) :
    (a.before now input).lastOwned = a.lastOwned ∧
      (a.before now input = a ∨ (a.before now input).deadline = none) := by
  cases input
  case start timeout =>
    cases timeout with
    | none => exact ⟨rfl, Or.inl rfl⟩
    | some timeout => exact ⟨rfl, Or.inr rfl⟩
  case setAutostop timeout => exact ⟨rfl, Or.inr rfl⟩
  case timer t =>
    cases t
    case autostop =>
      simp only [before, fire]
      split
      · exact ⟨rfl, Or.inr rfl⟩
      · exact ⟨rfl, Or.inl rfl⟩
    all_goals exact ⟨rfl, Or.inl rfl⟩
  all_goals exact ⟨rfl, Or.inl rfl⟩

end Autostop

namespace Engine

/-- What an evaluation makes of the timer, by the number of local data blocks that it sees. -/
theorem autostop_evaluate {e : Engine} (h : AllSound e.catalog e.namespaces) (roles : Roles)
    (now : Nat) :
    (e.evaluate roles now).1.autostop
      = (e.autostop.observe (e.evaluate roles now).1.ownedData).1.apply
          (e.verdictSeen roles).autostop now := by
  have hseen : (e.evaluate roles now).1.ownedData = dataOwned (e.statesSeen roles) := by
    unfold ownedData
    rw [readStates_of_allSound (allSound_evaluate roles now h), totals_evaluate roles now h]
  rw [hseen, evaluate_engine]

section
variable {now : Nat} {e : Engine} {input : Input}

/-- An input that is evaluated at once has the timer see the data blocks that there are then. -/
theorem autostop_handle_of_evaluated {e₀ : Engine} (h₀ : e.evaluatedFor? now input = some e₀)
    (roles : Roles) (h : AllSound e.catalog e.namespaces) :
    (e.handle roles now input).1.autostop
      = (e₀.autostop.observe (e.handle roles now input).1.ownedData).1.apply
          (e₀.verdictSeen roles).autostop now := by
  have hsound := allSound_of_evaluated h h₀
  have hrests := rests_handOver (e₀.evaluate roles now).1 now input
  have hseen : (e.handle roles now input).1.ownedData = (e₀.evaluate roles now).1.ownedData := by
    unfold ownedData
    rw [readStates_of_allSound (allSound_handle h roles now input),
      readStates_of_allSound (allSound_evaluate roles now hsound), handle_of_evaluated h₀,
      hrests.totals_eq]
  rw [hseen, ← autostop_evaluate hsound, handle_of_evaluated h₀, hrests.autostop]

theorem autostop_handle_of_not_evaluated (h₀ : e.evaluatedFor? now input = none) (roles : Roles) :
    (e.handle roles now input).1.autostop = e.autostop := by
  rw [handle_of_not_evaluated h₀]
  exact (e.frame_handleQuietly now input).1

end

/-- The inputs that publish are those that are evaluated at once. -/
theorem InLine.publishes_handle {before : Roles} {e : Engine} (h : e.InLine before) (roles : Roles)
    (now : Nat) (input : Input) :
    (e.handle roles now input).2.any (·.isPublish) = (e.evaluatedFor? now input).isSome := by
  cases h₀ : e.evaluatedFor? now input with
  | some e₀ =>
    rw [handle_of_evaluated h₀, List.any_append, publish_evaluate]
    rfl
  | none =>
    rw [handle_of_not_evaluated h₀, (quiet_handleQuietly h.keyed now input).silent]
    rfl

end Engine

/-! ## Runs -/

namespace Run

variable {s : Settings}

theorem countable (r : Run s) (h : r.LengthsFit) : r.engine.Countable :=
  ⟨r.allSound, r.lengths_fit h⟩

theorem publishes (r : Run s) (roles : Roles) (now : Nat) (input : Input) :
    (r.engine.handle roles now input).2.any (·.isPublish)
      = (r.engine.evaluatedFor? now input).isSome :=
  r.settings_engine_and_inLine.2.publishes_handle roles now input

section
variable {before : Run s} {roles : Roles} {now : Nat} {input : Input}

/-- An evaluation sees the number of local data blocks that it leaves behind. -/
theorem evaluations_of_evaluated {e₀ : Engine}
    (h₀ : before.engine.evaluatedFor? now input = some e₀) :
    (handle before roles now input).evaluations
      = (now, (handle before roles now input).engine.ownedData) :: before.evaluations := by
  simp only [evaluations, publishes, h₀, Option.isSome_some, if_true]
  rfl

theorem evaluations_of_not_evaluated (h₀ : before.engine.evaluatedFor? now input = none) :
    (handle before roles now input).evaluations = before.evaluations := by
  simp only [evaluations, publishes, h₀, Option.isSome_none, Bool.false_eq_true, if_false]

end

/-- The timer has seen what the last evaluation has. -/
theorem lastOwned_eq (r : Run s) :
    r.engine.autostop.lastOwned = r.evaluations.head?.map (·.2) := by
  induction r with
  | begin roles now =>
    have hautostop := Engine.autostop_evaluate (Engine.allSound_ofSettings s) roles now
    show (Engine.evaluate roles now (.ofSettings s)).1.autostop.lastOwned = some _
    rw [hautostop, Autostop.lastOwned_observe_apply]
    rfl
  | handle before roles now input ih =>
    cases h₀ : before.engine.evaluatedFor? now input with
    | some e₀ =>
      have hautostop := Engine.autostop_handle_of_evaluated h₀ roles before.allSound
      rw [evaluations_of_evaluated h₀]
      show (before.engine.handle roles now input).1.autostop.lastOwned = some _
      rw [hautostop, Autostop.lastOwned_observe_apply]
      rfl
    | none =>
      rw [evaluations_of_not_evaluated h₀, ← ih]
      exact congrArg Autostop.lastOwned (Engine.autostop_handle_of_not_evaluated h₀ roles)

/-- In a run whose inputs come in order, all changes lie in the past. -/
theorem changes_le_time {r : Run s} (h : r.InOrder) : ∀ t ∈ r.changes, t ≤ r.time := by
  induction r with
  | begin roles now => exact fun t ht => by contradiction
  | handle before roles now input ih =>
    have hbefore : ∀ t ∈ before.changes, t ≤ now := fun t ht => Nat.le_trans (ih h.1 t ht) h.2
    intro t ht
    simp only [changes] at ht
    split at ht
    · exact hbefore t ht
    · rcases List.mem_cons.1 ht with rfl | ht
      · exact Nat.le_refl _
      · exact hbefore t ht

/-- All evaluations since a moment, at which there was one, have seen the same number of local data
blocks; and if they have seen all there was to see, the number has not changed since. -/
structure LikeSince (r : Run s) (t₀ : Nat) : Prop where
  seen : ∃ owned recent older, r.evaluations = recent ++ (t₀, owned) :: older ∧
    ∀ evaluation ∈ recent, evaluation.2 = owned
  unchanged : r.InOrder → r.Watched → r.SeesAll → ∀ t ∈ r.changes, t ≤ t₀

/-- An evaluation that sees what the last one saw leaves the data as it was. -/
theorem LikeSince.of_evaluated {before : Run s} {t₀ : Nat} (h : before.LikeSince t₀)
    (hsees : before.SeesAll) {roles : Roles} {now : Nat} {input : Input} {e₀ : Engine}
    (h₀ : before.engine.evaluatedFor? now input = some e₀)
    (howned : (handle before roles now input).engine.ownedData = before.engine.ownedData) :
    (handle before roles now input).LikeSince t₀ where
  seen := by
    obtain ⟨owned, recent, older, heq, hrecent⟩ := h.seen
    refine ⟨owned, (now, before.engine.ownedData) :: recent, older, ?_, fun evaluation hmem => ?_⟩
    · rw [evaluations_of_evaluated h₀, howned, heq]
      rfl
    · rcases List.mem_cons.1 hmem with rfl | hmem
      · -- the number is that of the evaluation before, whichever that was
        unfold SeesAll at hsees
        rw [heq] at hsees
        cases recent with
        | nil => exact (Option.some.inj hsees).symm
        | cons x recent => exact (Option.some.inj hsees).symm.trans (hrecent x (by simp))
      · exact hrecent evaluation hmem
  unchanged horder hwatched _ := by
    rw [changes]
    exact (if_pos howned).symm ▸ h.unchanged horder.1 hwatched.1 hsees

/-- An input that is not evaluated either changes nothing or is not seen. -/
theorem LikeSince.of_not_evaluated {before : Run s} {t₀ : Nat} (h : before.LikeSince t₀)
    {roles : Roles} {now : Nat} {input : Input}
    (h₀ : before.engine.evaluatedFor? now input = none) :
    (handle before roles now input).LikeSince t₀ where
  seen := by
    rw [evaluations_of_not_evaluated h₀]
    exact h.seen
  unchanged horder hwatched hsees := by
    have hbefore : before.SeesAll := by
      -- had a change been overlooked before, it would have been undone unseen now
      refine Decidable.byContradiction fun hnot => ?_
      have hpublished := hwatched.2 hnot hsees
      rw [publishes, h₀] at hpublished
      contradiction
    have howned : (handle before roles now input).engine.ownedData = before.engine.ownedData := by
      unfold SeesAll at hbefore hsees
      rw [evaluations_of_not_evaluated h₀] at hsees
      exact Option.some.inj (hsees.symm.trans hbefore)
    rw [changes]
    exact (if_pos howned).symm ▸ h.unchanged horder.1 hwatched.1 hbefore

/-- A timer that runs was started by an evaluation, and all those since have seen the same. -/
theorem likeSince_of_deadline (r : Run s) (h : r.LengthsFit) {d : Nat}
    (hd : r.engine.autostop.deadline = some d) :
    ∃ after t₀, r.engine.autostop.after = some after ∧ d = t₀ + after ∧ r.LikeSince t₀ := by
  induction r with
  | begin roles now =>
    have hautostop := Engine.autostop_evaluate (Engine.allSound_ofSettings s) roles now
    replace hd : (Engine.evaluate roles now (.ofSettings s)).1.autostop.deadline = some d := hd
    rw [hautostop] at hd
    rcases Autostop.deadline_observe_apply hd with ⟨-, hnone⟩ | ⟨after, hafter, rfl⟩
    · contradiction
    · refine ⟨after, now, ?_, rfl, ⟨_, [], [], rfl, fun _ hmem => by contradiction⟩,
        fun _ _ _ t ht => by contradiction⟩
      show (Engine.evaluate roles now (.ofSettings s)).1.autostop.after = some after
      rw [hautostop, Autostop.after_observe_apply, hafter]
  | handle before roles now input ih =>
    cases h₀ : before.engine.evaluatedFor? now input with
    | some e₀ =>
      -- an evaluation brings no data blocks
      have howned : (before.engine.handle roles now input).1.ownedData = before.engine.ownedData :=
        Engine.ownedData_of_tended (before.countable h.1)
          ((handle before roles now input).countable h) (Engine.tended_of_evaluated roles now h₀)
      have hautostop := Engine.autostop_handle_of_evaluated h₀ roles before.allSound
      rw [howned] at hautostop
      have hbefore := (Engine.before_of_evaluated h₀).2.1
      obtain ⟨hlast, hkept⟩ := before.engine.autostop.before_cases now input
      rw [← hbefore] at hlast hkept
      have hafter : (handle before roles now input).engine.autostop.after = e₀.autostop.after := by
        show (before.engine.handle roles now input).1.autostop.after = _
        rw [hautostop, Autostop.after_observe_apply]
      replace hd : (before.engine.handle roles now input).1.autostop.deadline = some d := hd
      rw [hautostop] at hd
      rcases Autostop.deadline_observe_apply hd with ⟨hsame, hruns⟩ | ⟨after, hsome, rfl⟩
      · -- the timer runs on
        rcases hkept with hkept | hstopped
        · obtain ⟨after, t₀, hsome, hdeadline, hlike⟩ := ih h.1 (hkept ▸ hruns)
          have hsees : before.SeesAll := by
            unfold SeesAll
            rw [← before.lastOwned_eq, ← hlast, hsame]
          exact ⟨after, t₀, by rw [hafter, hkept, hsome], hdeadline,
            hlike.of_evaluated hsees h₀ howned⟩
        · rw [hstopped] at hruns
          contradiction
      · -- the timer is started now, after all changes so far
        refine ⟨after, now, hafter.trans hsome, rfl, ⟨_, [], _, evaluations_of_evaluated h₀,
          fun _ hmem => by contradiction⟩, fun horder _ _ => changes_le_time horder⟩
    | none =>
      have hautostop := Engine.autostop_handle_of_not_evaluated h₀ roles
      have hbefore : before.engine.autostop.deadline = some d := hautostop ▸ hd
      obtain ⟨after, t₀, hafter, hdeadline, hlike⟩ := ih h.1 hbefore
      exact ⟨after, t₀, (congrArg Autostop.after hautostop).trans hafter, hdeadline,
        hlike.of_not_evaluated h₀⟩

/-- **What it takes for the timer to fire.** Whenever the autostop timer fires, an evaluation
started it a whole period ago or earlier, and all evaluations since have seen the same number of
local data blocks. If the last one has seen the number that there is, and no change was undone
before one could see it, then the number has not changed in the whole period up to now. -/
theorem autostop_fires_after_like_evaluations (r : Run s) (hlengths : r.LengthsFit) {now : Nat}
    (hfires : (r.engine.autostop.fire now).2 = true) :
    ∃ after t₀, r.engine.autostop.after = some after ∧ t₀ + after ≤ now ∧
      (∃ owned recent older, r.evaluations = recent ++ (t₀, owned) :: older ∧
        ∀ evaluation ∈ recent, evaluation.2 = owned) ∧
      (r.InOrder → r.Watched → r.SeesAll → ∀ t ∈ r.changes, t + after ≤ now) := by
  obtain ⟨d, hd, hdue⟩ := (Autostop.fire_iff _ _).1 hfires
  obtain ⟨after, t₀, hafter, rfl, hlike⟩ := r.likeSince_of_deadline hlengths hd
  refine ⟨after, t₀, hafter, hdue, hlike.seen, fun horder hwatched hsees t ht => ?_⟩
  have hbefore : t ≤ t₀ := hlike.unchanged horder hwatched hsees t ht
  exact Nat.le_trans (Nat.add_le_add_right hbefore after) hdue

/-- A core with one of two blocks is added, data is asked for, and nothing comes in. -/
theorem autostop_fires_after_idle_period :
    let allowed : Roles := fun _ _ => .allowed
    let added : Run {} := .handle (.begin allowed 0) allowed 0
      (.addCore .data default ⟨default, 2, .ofRanges [⟨0, 1⟩], []⟩)
    let r : Run {} := .handle added allowed 10 (.start (some (some 300)))
    r.LengthsFit ∧ (r.engine.autostop.fire 310).2 = true ∧ r.InOrder ∧ r.Watched ∧ r.SeesAll ∧
      r.changes = [0] ∧ ∃ after, r.engine.autostop.after = some after ∧ 0 + after ≤ 310 := by
  intro allowed added r
  have hlengths : r.LengthsFit := ⟨⟨trivial, (by decide : 2 ≤ lastIndex)⟩, trivial⟩
  have hfires : (r.engine.autostop.fire 310).2 = true := by decide +kernel
  have horder : r.InOrder := ⟨⟨trivial, by decide⟩, by decide⟩
  have hsees : r.SeesAll := by decide +kernel
  have hwatched : r.Watched := by
    refine ⟨⟨trivial, fun hnot => ?_⟩, fun _ _ => by decide +kernel⟩
    exact absurd (by decide +kernel : (Run.begin allowed 0 : Run {}).SeesAll) hnot
  have hchanges : r.changes = [0] := by decide +kernel
  obtain ⟨after, t₀, hafter, -, -, hquiet⟩ :=
    autostop_fires_after_like_evaluations r hlengths hfires
  refine ⟨hlengths, hfires, horder, hwatched, hsees, hchanges, after, hafter, ?_⟩
  exact hquiet horder hwatched hsees 0 (by rw [hchanges]; exact List.mem_singleton.2 rfl)

/-- The throttle has run for another reason when a block comes in; before it runs again, the timer
fires. -/
theorem autostop_fires_after_unseen_change :
    let allowed : Roles := fun _ _ => .allowed
    let added : Run {} := .handle (.begin allowed 0) allowed 0
      (.addCore .data default ⟨default, 2, .ofRanges [⟨0, 1⟩], []⟩)
    let seen : Run {} := .handle added allowed 0 (.timer .throttle)
    let started : Run {} := .handle seen allowed 0 (.start (some (some 300000000)))
    let other : Run {} := .handle started allowed 150000000
      (.addCore .auth ⟨⟨1⟩⟩ ⟨⟨⟨1⟩⟩, 0, default, []⟩)
    let throttled : Run {} := .handle other allowed 200000000 (.timer .throttle)
    let r : Run {} := .handle throttled allowed 250000000 (.coreEvent default (.download 1))
    r.InOrder ∧ r.engine.nextDeadline? = some 300000000 ∧
      (r.engine.autostop.fire 300000000).2 = true ∧
      ¬ ∀ after, r.engine.autostop.after = some after → ∀ t ∈ r.changes, t + after ≤ 300000000 := by
  intro allowed added seen started other throttled r
  have horder : r.InOrder :=
    ⟨⟨⟨⟨⟨⟨trivial, by decide⟩, by decide⟩, by decide⟩, by decide⟩, by decide⟩, by decide⟩
  refine ⟨horder, by decide +kernel, by decide +kernel, fun h => ?_⟩
  have hafter : r.engine.autostop.after = some 300000000 := by decide +kernel
  have hchange : 250000000 ∈ r.changes := by decide +kernel
  exact absurd (h 300000000 hafter 250000000 hchange) (by decide)

end Run

end LogSync
