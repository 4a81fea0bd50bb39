import LogSync.Proofs.Outcomes

/-!
# Waiters

Somebody who waits for a goal is answered at once if it is reached, or else with the first
evaluation that finds it reached. An answer is never early: when it is given, no block is due
between the local peer and any other, and every peer that may sync a namespace is known there and
not just about to connect (`Engine.synced_iff_reached`). And nobody is lost: whoever has asked was
answered, waits still, or has given up (`Run.asked_eq`).
-/

namespace LogSync

/-! ## What is said -/

namespace NamespaceTracker

/-- A peer has a record in some core. -/
def HasRecord (t : NamespaceTracker) (p : PeerId) : Prop :=
  ∃ core ∈ t.cores.values, core.remotes.contains p = true

/-- A peer is connected to some cores, but not to all. -/
def IsConnecting (t : NamespaceTracker) (p : PeerId) : Prop :=
  (∃ core ∈ t.cores.values, core.isConnected p = true) ∧
    ∃ core ∈ t.cores.values, core.isConnected p = false

end NamespaceTracker

/-- A goal is reached: in every namespace that counts for it no block is due between the local peer
and another one, and every partner that may sync the namespace has a record in its cores, if there
are any, and is not just about to connect. -/
def Engine.Reached (e : Engine) (goal : SyncGoal) : Prop :=
  ∀ ns ∈ e.plan.forGoal goal, ∀ t, e.namespaces.get? ns = some t →
    (∀ p, ¬ t.Due p) ∧
      ∀ p caps, (p, caps) ∈ e.partners → caps.allows ns = true → t.cores.values ≠ [] →
        t.HasRecord p ∧ ¬ t.IsConnecting p

/-- Whether an effect answers a waiter. -/
def Effect.answers (w : Waiter) : Effect → Bool
  | .answer w' => w' == w
  | _ => false

/-- Whether with an input a waiter asks. -/
def Input.asks (w : Waiter) : Input → Bool
  | .wait w' => w' == w
  | _ => false

/-- How often a waiter that has asked gives up with an input. -/
def Engine.givenUp (e : Engine) (w : Waiter) : Input → Nat
  | .abandon id => if w.id = id then e.waiters.count w else 0
  | _ => 0

namespace Run

variable {s : Settings}

/-- How often a waiter has asked. -/
def asked (w : Waiter) : Run s → Nat
  | begin _ _ => 0
  | handle before _ _ input => before.asked w + (input.asks w).toNat

/-- How often a waiter was answered. -/
def answered (r : Run s) (w : Waiter) : Nat := r.effects.countP (·.answers w)

/-- How often a waiter has given up before it was answered. -/
def givenUp (w : Waiter) : Run s → Nat
  | begin _ _ => 0
  | handle before _ _ input => before.givenUp w + before.engine.givenUp w input

end Run

/-! ## Goals -/

namespace NamespaceTracker

/-- A peer is not just about to connect if no core has it connected, or every core has. -/
theorem not_isConnecting_iff (t : NamespaceTracker) (p : PeerId) :
    ¬ t.IsConnecting p ↔
      (t.cores.values.countP fun core => core.isConnected p) = 0 ∨
        (t.cores.values.countP fun core => core.isConnected p) = t.cores.values.length := by
  rw [List.countP_eq_zero, List.countP_eq_length]
  constructor
  · intro hnot
    by_cases hsome : ∃ core ∈ t.cores.values, core.isConnected p = true
    · refine Or.inr fun core hcore => ?_
      cases hthis : core.isConnected p with
      | true => rfl
      | false => exact absurd ⟨hsome, core, hcore, hthis⟩ hnot
    · exact Or.inl fun core hcore hthis => hsome ⟨core, hcore, hthis⟩
  · rintro (hnone | hall) ⟨⟨core, hcore, hconnected⟩, core', hcore', hopen⟩
    · exact hnone core hcore hconnected
    · have hthis := hall core' hcore'
      rw [hopen] at hthis
      contradiction

section
variable {t : NamespaceTracker}
  (hlengths : ∀ key core, t.cores.get? key = some core → core.length ≤ lastIndex)
include hlengths

/-- What the counts know of a peer's connections: there are none without a record, and each stands
for a core that has the peer connected. -/
theorem connections_total (p : PeerId) :
    (CoreCounts.connections (t.cores.values.map fun core => core.derived) p ≠ [] ↔
        t.HasRecord p) ∧
      (CoreCounts.connections (t.cores.values.map fun core => core.derived) p).countP id
        = t.cores.values.countP fun core => core.isConnected p := by
  rw [CoreCounts.connections_eq, connected_total hlengths, List.filterMap_map]
  constructor
  · rw [Ne, List.filterMap_eq_nil_iff]
    simp only [HasRecord, SortedMap.contains, Function.comp_apply, id, Option.map_eq_none_iff,
      Classical.not_forall, exists_prop, Option.isSome_iff_ne_none, ne_eq]
  · rw [List.countP_filterMap]
    refine congrArg (List.countP · t.cores.values) (funext fun core => ?_)
    unfold CoreTracker.isConnected
    rw [Function.comp_apply]
    cases core.remotes.get? p <;> rfl

/-- A namespace is settled for a peer if it has no cores, or else has a record of the peer and does
not have it connected to only some of its cores. -/
theorem isSettledFor_total_iff (p : PeerId) :
    t.total.isSettledFor p = true ↔
      (t.cores.values ≠ [] → t.HasRecord p ∧ ¬ t.IsConnecting p) := by
  obtain ⟨hrecord, hcount⟩ := connections_total hlengths p
  rw [total, NamespaceState.isSettledFor_ofCores, hcount, List.length_map, ← hrecord,
    not_isConnecting_iff]
  simp only [Bool.or_eq_true, Bool.and_eq_true, Bool.not_eq_true', beq_iff_eq, decide_eq_true_eq,
    List.isEmpty_eq_false_iff, List.length_eq_zero_iff]
  exact Decidable.or_iff_not_imp_left

end

end NamespaceTracker

namespace Engine

/-- What the counts say of a goal is what it means that it is reached. -/
theorem synced_iff_reached {e : Engine} (h : e.Countable) (goal : SyncGoal) :
    e.synced goal = true ↔ e.Reached goal := by
  have htotals (ns : Namespace) :
      e.totals.get? ns = (e.namespaces.get? ns).map fun t => t.total :=
    SortedMap.get?_mapValues _ _ _
  have hone {ns : Namespace} {t : NamespaceTracker} (ht : e.namespaces.get? ns = some t) :
      t.total.IsComplete ns e.partners ↔
        (∀ p, ¬ t.Due p) ∧
          ∀ p caps, (p, caps) ∈ e.partners → caps.allows ns = true → t.cores.values ≠ [] →
            t.HasRecord p ∧ ¬ t.IsConnecting p := by
    have hlengths (key : DiscoveryKey) (core : CoreTracker)
        (hkey : t.cores.get? key = some core) : core.length ≤ lastIndex :=
      h.lengths ns t key core ht hkey
    have hdue : t.total.dataToSync = false ↔ ∀ p, ¬ t.Due p := by
      rw [← Bool.not_eq_true, NamespaceTracker.dataToSync_total_iff hlengths]
      exact not_exists
    unfold NamespaceState.IsComplete
    simp only [hdue, NamespaceTracker.isSettledFor_total_iff hlengths]
  unfold synced Reached
  rw [readStates_of_allSound h.sound]
  show isSynced e.totals (e.plan.forGoal goal) e.partners = true ↔ _
  rw [isSynced_iff]
  constructor
  · intro hall ns hns t ht
    have htotal : e.totals.get? ns = some t.total := by rw [htotals, ht]; rfl
    exact (hone ht).1 (hall ns hns t.total htotal)
  · intro hall ns hns state hstate
    rw [htotals] at hstate
    obtain ⟨t, ht, rfl⟩ := Option.map_eq_some_iff.1 hstate
    exact (hone ht).2 (hall ns hns t ht)

/-! ## The queue -/

/-- Effects that are calls answer nobody. -/
theorem no_answers_updateLinks (e : Engine) (f : PeerLink → PeerLink × List ReplicationCall)
    (w : Waiter) : (e.updateLinks f).2.countP (·.answers w) = 0 := by
  refine List.countP_eq_zero.2 fun effect heffect => ?_
  obtain ⟨c, call, rfl⟩ := call_of_mem_updateLinks heffect
  exact Bool.false_ne_true

/-- A waiter is answered at once if its goal is reached, and is put in the queue otherwise. -/
theorem wait_eq (e : Engine) (w : Waiter) :
    e.wait w = if e.synced w.goal then (e.readStates.2, [.answer w])
      else ({ e.readStates.2 with waiters := e.waiters ++ [w] }, []) := rfl

/-- Of all that an evaluation says, only the answers at its end are answers. -/
theorem answers_evaluate (e : Engine) (roles : Roles) (now : Nat) (w : Waiter) :
    (e.evaluate roles now).2.countP (·.answers w)
      = (e.waiters.filter fun w' => e.syncedSeen roles w'.goal).count w := by
  have hroles : (e.refreshCapabilities roles).2.countP (·.answers w) = 0 :=
    no_answers_updateLinks _ _ w
  have hpublish : [Effect.publish (e.evaluate roles now).1.latest].countP (·.answers w) = 0 := rfl
  have hanswers (l : List Waiter) : (l.map Effect.answer).countP (·.answers w) = l.count w :=
    List.countP_map
  rw [evaluate_effects, List.countP_append, List.countP_append, List.countP_append, hroles,
    no_answers_updateLinks, hpublish, hanswers]
  omega

section
variable {e : Engine} {now : Nat} {input : Input}

/-- An evaluation answers the waiters whose goal is reached then, and leaves the others in the
queue. -/
theorem queue_of_evaluated {before : Roles} (hline : e.InLine before)
    (hsound : AllSound e.catalog e.namespaces) (roles : Roles) {e₀ : Engine}
    (h₀ : e.evaluatedFor? now input = some e₀) (w : Waiter) :
    let next := e.handle roles now input
    (next.2.countP (·.answers w) = if next.1.synced w.goal then e.waiters.count w else 0) ∧
      next.1.waiters.count w = if next.1.synced w.goal then 0 else e.waiters.count w := by
  intro next
  have houtcome := outcome_handle roles now hsound hline h₀
  have hsynced := synced_handle roles now hsound hline h₀
  have hwaiters := (before_of_evaluated h₀).2.2
  have hhanded : ((e₀.evaluate roles now).1.handOver now input).2.countP (·.answers w) = 0 := by
    cases input
    case addPeer c => exact no_answers_updateLinks _ _ w
    all_goals rfl
  have hanswers : next.2.countP (·.answers w)
      = (e.waiters.filter fun w' => next.1.synced w'.goal).count w := by
    simp only [next, hsynced]
    rw [handle_of_evaluated h₀, List.countP_append, hhanded, answers_evaluate, hwaiters]
    rfl
  rw [hanswers, houtcome.waiters, hwaiters]
  by_cases hreached : next.1.synced w.goal = true
  · rw [if_pos hreached, if_pos hreached]
    refine ⟨List.count_filter hreached, List.count_eq_zero.2 fun hmem => ?_⟩
    have hopen := (List.mem_filter.1 hmem).2
    rw [hreached] at hopen
    contradiction
  · rw [if_neg hreached, if_neg hreached]
    refine ⟨List.count_eq_zero.2 fun hmem => hreached (List.mem_filter.1 hmem).2,
      List.count_filter ?_⟩
    rw [Bool.eq_false_iff.2 hreached]
    rfl

/-- What happens to the queue when a waiter asks. -/
theorem queue_wait (e : Engine) (w w' : Waiter) :
    ((e.wait w').2.countP (·.answers w)
        = if e.synced w'.goal then (Input.asks w (.wait w')).toNat else 0) ∧
      (e.wait w').1.waiters.count w + (e.wait w').2.countP (·.answers w)
        = e.waiters.count w + (Input.asks w (.wait w')).toNat := by
  have hasks : [Effect.answer w'].countP (·.answers w) = (Input.asks w (.wait w')).toNat := by
    cases hsame : w' == w <;> simp [Effect.answers, Input.asks, hsame]
  have hadded : [w'].count w = (Input.asks w (.wait w')).toNat := hasks
  have hwaiters : e.readStates.2.waiters = e.waiters := by rw [readStates_engine]
  rw [wait_eq]
  by_cases hreached : e.synced w'.goal = true
  · simp only [if_pos hreached, hwaiters, hasks, and_self]
  · simp only [if_neg hreached, List.count_append, hadded]
    exact ⟨rfl, rfl⟩

/-- Other inputs that are not evaluated answer nobody, and take out of the queue who gives up. -/
theorem queue_handleQuietly (e : Engine) (now : Nat) {input : Input}
    (hinput : ∀ w, input ≠ .wait w) (w : Waiter) :
    (e.handleQuietly now input).2.countP (·.answers w) = 0 ∧
      (e.handleQuietly now input).1.waiters.count w + e.givenUp w input = e.waiters.count w := by
  have hlinks (e' : Engine) (f : PeerLink → PeerLink × List ReplicationCall) :
      (e'.updateLinks f).1.waiters = e'.waiters := by rw [updateLinks_engine]
  cases input
  case wait w' => exact absurd rfl (hinput w')
  case abandon id =>
    refine ⟨rfl, ?_⟩
    show (e.waiters.filter (·.id != id)).count w + (if w.id = id then e.waiters.count w else 0) = _
    by_cases hid : w.id = id
    · have hgone : (e.waiters.filter (·.id != id)).count w = 0 := by
        refine List.count_eq_zero.2 fun hmem => ?_
        exact bne_iff_ne.1 (List.mem_filter.1 hmem).2 hid
      rw [hgone, if_pos hid, Nat.zero_add]
    · have hkept : (e.waiters.filter (·.id != id)).count w = e.waiters.count w :=
        List.count_filter (bne_iff_ne.2 hid)
      rw [hkept, if_neg hid, Nat.add_zero]
  case announce id key =>
    simp only [handleQuietly, announce]
    split
    · exact ⟨no_answers_updateLinks _ _ w, congrArg (·.count w) (hlinks _ _)⟩
    · exact ⟨rfl, rfl⟩
  case addCore ns key snapshot =>
    simp only [handleQuietly]
    rcases e.addCore_cases now ns key snapshot with
      ⟨result, heq⟩ | ⟨t, -, -, ⟨err, -, heq⟩ | ⟨core, -, heq⟩ | ⟨core, -, heq⟩⟩ <;> rw [heq]
    · exact ⟨rfl, rfl⟩
    · exact ⟨rfl, rfl⟩
    · exact ⟨rfl, rfl⟩
    · have htold := hlinks (e.withCore ns t key core) fun l =>
        l.coreAdded e.plan (e.catalog.insert key ns).1 key
      refine ⟨?_, congrArg (·.count w) htold⟩
      dsimp only
      rw [List.cons_append, List.countP_cons_of_neg Bool.false_ne_true, List.countP_append,
        no_answers_updateLinks]
      rfl
  case preHaves p m =>
    simp only [handleQuietly, updateNamed]
    split <;> exact ⟨rfl, rfl⟩
  case wants ns key p ranges =>
    simp only [handleQuietly, updateNamed]
    split <;> exact ⟨rfl, rfl⟩
  case report ns =>
    simp only [handleQuietly, report]
    split <;> exact ⟨rfl, rfl⟩
  case coreEvent key event =>
    simp only [handleQuietly, coreEvent]
    split
    · exact ⟨rfl, rfl⟩
    · split <;> exact ⟨rfl, rfl⟩
  case timer t => cases t <;> exact ⟨rfl, rfl⟩
  all_goals exact ⟨rfl, rfl⟩

variable {before : Roles} (hline : e.InLine before) (hsound : AllSound e.catalog e.namespaces)
  (roles : Roles) (w : Waiter)
include hline hsound

/-- With every input, who was in the queue or asks is answered, gives up, or is in the queue. -/
theorem queue_handle (now : Nat) (input : Input) :
    (e.handle roles now input).1.waiters.count w
        + (e.handle roles now input).2.countP (·.answers w) + e.givenUp w input
      = e.waiters.count w + (input.asks w).toNat := by
  cases h₀ : e.evaluatedFor? now input with
  | some e₀ =>
    obtain ⟨hanswers, hwaiters⟩ := queue_of_evaluated hline hsound roles h₀ w
    have hneither : e.givenUp w input = 0 ∧ (input.asks w).toNat = 0 := by
      cases input
      case wait w' => contradiction
      case abandon id => contradiction
      all_goals exact ⟨rfl, rfl⟩
    rw [hanswers, hwaiters, hneither.1, hneither.2]
    split <;> omega
  | none =>
    rw [handle_of_not_evaluated h₀]
    by_cases hwait : ∃ w', input = .wait w'
    · obtain ⟨w', rfl⟩ := hwait
      exact (e.queue_wait w w').2
    · have hother (w' : Waiter) : input ≠ .wait w' := fun heq => hwait ⟨w', heq⟩
      obtain ⟨hanswers, hwaiters⟩ := e.queue_handleQuietly now hother w
      have hasks : (input.asks w).toNat = 0 := by
        cases input
        case wait w' => exact absurd rfl (hother w')
        all_goals rfl
      rw [hanswers, hasks]
      omega

/-- Who is answered has reached the goal. -/
theorem synced_of_answered (hanswered : (e.handle roles now input).2.any (·.answers w) = true) :
    (e.handle roles now input).1.synced w.goal = true := by
  have hcount : (e.handle roles now input).2.countP (·.answers w) ≠ 0 := by
    intro hnone
    obtain ⟨effect, heffect, hanswers⟩ := List.any_eq_true.1 hanswered
    exact List.countP_eq_zero.1 hnone effect heffect hanswers
  cases h₀ : e.evaluatedFor? now input with
  | some e₀ =>
    rw [(queue_of_evaluated hline hsound roles h₀ w).1] at hcount
    split at hcount
    · assumption
    · contradiction
  | none =>
    rw [handle_of_not_evaluated h₀] at hcount ⊢
    by_cases hwait : ∃ w', input = .wait w'
    · obtain ⟨w', rfl⟩ := hwait
      have hkept := synced_of_rests hsound (e.quiet_wait w') (rests_wait hsound w') w.goal
      show (e.wait w').1.synced w.goal = true
      have hanswers : (e.wait w').2.countP (·.answers w) ≠ 0 := hcount
      rw [(e.queue_wait w w').1] at hanswers
      split at hanswers
      · next hreached =>
        have hsame : w' = w := by
          refine Decidable.byContradiction fun hother => hanswers ?_
          simp [Input.asks, hother]
        rw [hkept, ← hsame, hreached]
      · contradiction
    · have hother (w' : Waiter) : input ≠ .wait w' := fun heq => hwait ⟨w', heq⟩
      exact absurd (e.queue_handleQuietly now hother w).1 hcount

end

end Engine

/-! ## Runs -/

namespace Run

variable {s : Settings}

/-- At the beginning nobody waits. -/
theorem answers_begin (roles : Roles) (now : Nat) (w : Waiter) :
    (begin roles now : Run s).said.countP (·.answers w) = 0 :=
  Engine.answers_evaluate (.ofSettings s) roles now w

/-- Whoever has asked was answered, waits still, or has given up. -/
theorem asked_eq (r : Run s) (w : Waiter) :
    r.asked w = r.answered w + r.engine.waiters.count w + r.givenUp w := by
  induction r with
  | begin roles now =>
    have hwaiters := (outcome (begin roles now : Run s) rfl).waiters
    have hanswered : (begin roles now : Run s).answered w = 0 := answers_begin roles now w
    rw [hwaiters, hanswered]
    rfl
  | handle before roles now input ih =>
    have hline := before.settings_engine_and_inLine.2
    have hstep := Engine.queue_handle hline before.allSound roles w now input
    simp only [asked, answered, givenUp, effects, engine, List.countP_append] at ih ⊢
    omega

/-- **Answers are right, and nobody is lost.** After every input of every run: for whom an answer
was given with that input, the goal is reached at that moment; whoever has asked was answered, is
still in the queue, or has given up, as often as it has asked; and if the input was evaluated,
nobody is left in the queue whose goal is reached. -/
theorem waiters_are_answered_in_time (r : Run s) (hlengths : r.LengthsFit) :
    (∀ w, r.said.any (·.answers w) = true → r.engine.Reached w.goal) ∧
      (∀ w, r.asked w = r.answered w + r.engine.waiters.count w + r.givenUp w) ∧
      (r.evaluates = true → ∀ w ∈ r.engine.waiters, ¬ r.engine.Reached w.goal) := by
  have hreached (goal : SyncGoal) := Engine.synced_iff_reached (r.countable hlengths) goal
  refine ⟨fun w hanswered => (hreached w.goal).1 ?_, r.asked_eq, fun hevaluates w hw hdone => ?_⟩
  · cases r with
    | begin roles now =>
      have hnone := answers_begin (s := s) roles now w
      obtain ⟨effect, heffect, hanswers⟩ := List.any_eq_true.1 hanswered
      exact absurd hanswers (List.countP_eq_zero.1 hnone effect heffect)
    | handle before roles now input =>
      exact Engine.synced_of_answered before.settings_engine_and_inLine.2 before.allSound roles w
        hanswered
  · rw [evaluates_eq] at hevaluates
    obtain ⟨e₀, h₀⟩ := Option.isSome_iff_exists.1 hevaluates
    rw [(r.outcome h₀).waiters] at hw
    have hopen := (List.mem_filter.1 hw).2
    rw [(hreached w.goal).2 hdone] at hopen
    contradiction

/-- A peer has a block that is missing here, and somebody waits. Once the block has come, the next
evaluation answers. -/
theorem waiter_is_answered_once_block_has_come :
    let allowed : Roles := fun _ _ => .allowed
    let w : Waiter := ⟨0, .initial⟩
    let added : Run {} := .handle (.begin allowed 0) allowed 0
      (.addCore .auth default ⟨default, 1, default, [(default, .ofRanges [⟨0, 1⟩])]⟩)
    let waiting : Run {} := .handle added allowed 0 (.wait w)
    let come : Run {} := .handle waiting allowed 0 (.coreEvent default (.download 0))
    let r : Run {} := .handle come allowed 0 (.timer .throttle)
    waiting.engine.waiters = [w] ∧ r.LengthsFit ∧ r.said.any (·.answers w) = true ∧
      r.engine.Reached .initial ∧ r.asked w = 1 ∧ r.answered w = 1 := by
  intro allowed w added waiting come r
  have hlengths : r.LengthsFit :=
    ⟨⟨⟨⟨trivial, (by decide : 1 ≤ lastIndex)⟩, trivial⟩, trivial⟩, trivial⟩
  have hanswered : r.said.any (·.answers w) = true := by decide +kernel
  obtain ⟨hreached, hasked, -⟩ := waiters_are_answered_in_time r hlengths
  have hwaits : waiting.engine.waiters = [w] := by decide +kernel
  have hnobody : r.engine.waiters.count w = 0 ∧ r.givenUp w = 0 := by decide +kernel
  have honce : r.asked w = 1 := by decide +kernel
  have hbalance := hasked w
  exact ⟨hwaits, hlengths, hanswered, hreached w hanswered, honce, by omega⟩

end Run

end LogSync
