import LogSync.Proofs.OneNamespace

/-!
# Cores that are refused

A request to add a core is refused for one of two reasons: the namespace is not tracked, or the core
turns out to be another one than it is added as (`Engine.refusal?`). A refusal ought to leave the
engine as it was, and the first kind does. The second one comes when the namespace has made room for
the core. So a refusal leaves no trace if and only if the core was not new to the namespace
(`Run.refused_core_leaves_no_trace_iff_not_new`); otherwise the namespace tracks one core more from
then on, of which nothing is known.
-/

namespace LogSync

/-! ## What is said -/

namespace Engine

/-- Why a request to add a core is refused, if it is. -/
def refusal? (e : Engine) (ns : Namespace) (key : DiscoveryKey) (snapshot : CoreSnapshot) :
    Option SyncError :=
  if !e.namespaces.contains ns then some (.untrackedNamespace ns)
  else if e.catalog.contains key || snapshot.key = key then none
  else some (.keyMismatch key snapshot.key)

/-- The engine with a core tracked in a namespace, if that one is tracked itself. -/
def tracking (e : Engine) (ns : Namespace) (key : DiscoveryKey) : Engine :=
  { e with namespaces := e.namespaces.modify ns (·.ensure key) }

/-- A tracked namespace does not track a core yet. -/
def IsNew (e : Engine) (ns : Namespace) (key : DiscoveryKey) : Prop :=
  e.namespaces.contains ns = true ∧ ¬ e.Tracks ns key

instance (e : Engine) (ns : Namespace) (key : DiscoveryKey) : Decidable (e.IsNew ns key) :=
  inferInstanceAs (Decidable (_ ∧ _))

/-- The number of cores that a namespace tracks. -/
def coreCount (e : Engine) (ns : Namespace) : Nat := (e.namespaces.get? ns).elim 0 (·.coreCount)

end Engine

/-! ## Room for a core -/

/-- A tracker that makes sure of a core has one more if it did not have it. -/
theorem NamespaceTracker.coreCount_ensure (t : NamespaceTracker) (key : DiscoveryKey) :
    (t.ensure key).coreCount = t.coreCount + if t.contains key then 0 else 1 :=
  SortedMap.size_insert t.cores key _

theorem NamespaceTracker.ensure_of_contains {t : NamespaceTracker} {key : DiscoveryKey}
    (h : t.contains key = true) : t.ensure key = t := by
  obtain ⟨core, hcore⟩ := Option.isSome_iff_exists.1 h
  unfold ensure setCore NamespaceTracker.core
  rw [hcore, Option.getD_some, SortedMap.insert_self hcore]

namespace Engine

variable {e : Engine} {ns : Namespace} {key : DiscoveryKey}

theorem tracking_of_get? {t : NamespaceTracker} (ht : e.namespaces.get? ns = some t) :
    e.tracking ns key = { e with namespaces := e.namespaces.insert ns (t.ensure key) } := by
  unfold tracking
  rw [SortedMap.modify_eq_insert ht]

theorem tracking_of_untracked (h : e.namespaces.get? ns = none) : e.tracking ns key = e := by
  unfold tracking
  rw [SortedMap.modify_eq_self h]

/-- Of a core that is tracked just now, no more is known than before. -/
theorem core_tracking (e : Engine) (ns ns' : Namespace) (key key' : DiscoveryKey) :
    (e.tracking ns key).core ns' key' = e.core ns' key' := by
  cases ht : e.namespaces.get? ns with
  | none => rw [tracking_of_untracked ht]
  | some t =>
    rw [tracking_of_get? ht, core_of_insert ht rfl]
    split
    · next hplace =>
      obtain ⟨rfl, rfl⟩ := hplace
      exact (core_of_get? ht).symm
    · rfl

theorem isNew_iff {t : NamespaceTracker} (ht : e.namespaces.get? ns = some t) :
    e.IsNew ns key ↔ t.contains key = false := by
  unfold IsNew Tracks SortedMap.contains
  simp [ht]

/-- To track a core adds one to the count of its namespace if the core is new there, and changes no
other count. -/
theorem coreCount_tracking (e : Engine) (ns ns' : Namespace) (key : DiscoveryKey) :
    (e.tracking ns key).coreCount ns'
      = e.coreCount ns' + if ns' = ns ∧ e.IsNew ns key then 1 else 0 := by
  cases ht : e.namespaces.get? ns with
  | none =>
    have hold : ¬ e.IsNew ns key := fun hnew => by
      rw [IsNew, SortedMap.contains, ht] at hnew
      exact absurd hnew.1 Bool.false_ne_true
    rw [tracking_of_untracked ht, if_neg fun h => hold h.2]
    rfl
  | some t =>
    simp only [tracking_of_get? ht, isNew_iff ht]
    unfold coreCount
    rw [SortedMap.get?_insert]
    by_cases hns : ns' = ns
    · subst hns
      rw [if_pos rfl, ht]
      show (t.ensure key).coreCount = t.coreCount + _
      rw [t.coreCount_ensure]
      cases t.contains key <;> simp
    · rw [if_neg hns, if_neg fun h => hns h.1]
      rfl

/-- Nothing changes if and only if the core was not new. -/
theorem tracking_eq_self_iff : e.tracking ns key = e ↔ ¬ e.IsNew ns key := by
  constructor
  · intro hsame hnew
    have hcount := e.coreCount_tracking ns ns key
    rw [hsame, if_pos ⟨rfl, hnew⟩] at hcount
    omega
  · intro hold
    cases ht : e.namespaces.get? ns with
    | none => exact tracking_of_untracked ht
    | some t =>
      rw [isNew_iff ht, Bool.not_eq_false] at hold
      rw [tracking_of_get? ht, NamespaceTracker.ensure_of_contains hold, SortedMap.insert_self ht]

/-! ## Refusals -/

variable {snapshot : CoreSnapshot}

/-- A refused core is tracked all the same. -/
theorem addCore_of_refusal (hsound : AllSound e.catalog e.namespaces) (now : Nat) {err : SyncError}
    (h : e.refusal? ns key snapshot = some err) :
    e.addCore now ns key snapshot = (e.tracking ns key, [.added (.error err)]) := by
  unfold refusal? SortedMap.contains at h
  unfold addCore
  cases ht : e.namespaces.get? ns with
  | none =>
    rw [ht] at h
    cases h
    rw [tracking_of_untracked ht]
  | some t =>
    rw [ht] at h
    simp only [Option.isSome_some, Bool.not_true, Bool.false_eq_true, if_false] at h
    split at h
    · contradiction
    · next hother =>
      cases h
      rw [Bool.or_eq_true, decide_eq_true_eq, not_or] at hother
      have hkey : (t.core key).key = key := ((hsound ns t ht).placed_core key).key_eq
      have hattach : (t.core key).attach snapshot = .error (.keyMismatch key snapshot.key) := by
        rw [CoreTracker.attach, hkey, if_pos hother.2]
      rw [tracking_of_get? ht]
      simp only [if_neg hother.1, hattach]
      rfl

/-- A request that is not refused reports no error. -/
theorem not_mem_addCore (hsound : AllSound e.catalog e.namespaces) (now : Nat) (err : SyncError)
    (h : e.refusal? ns key snapshot = none) :
    .added (.error err) ∉ (e.addCore now ns key snapshot).2 := by
  unfold refusal? SortedMap.contains at h
  unfold addCore
  cases ht : e.namespaces.get? ns with
  | none => rw [ht] at h; contradiction
  | some t =>
    simp only
    split
    · simp
    · next hnew =>
      have hkey : (t.core key).key = key := ((hsound ns t ht).placed_core key).key_eq
      have hsame : snapshot.key = (t.core key).key := by
        simpa [ht, hnew, hkey] using h
      rcases hattach : (t.core key).attach snapshot with err' | ⟨core, new⟩
      · -- only another core's snapshot is no good
        rw [CoreTracker.attach, if_neg fun hother => hother hsame] at hattach
        split at hattach <;> contradiction
      · cases new with
        | false => simp
        | true =>
          intro hmem
          simp only [List.cons_append, List.mem_cons, List.mem_append, reduceCtorEq, false_or,
            List.not_mem_nil, or_false, Effect.added.injEq] at hmem
          obtain ⟨c, call, hcall⟩ := call_of_mem_updateLinks hmem
          contradiction

/-- A request is answered by an error if and only if it is refused, with the reason. -/
theorem error_mem_iff (hsound : AllSound e.catalog e.namespaces) (roles : Roles) (now : Nat)
    {err : SyncError} :
    .added (.error err) ∈ (e.handle roles now (.addCore ns key snapshot)).2
      ↔ e.refusal? ns key snapshot = some err := by
  show .added (.error err) ∈ (e.addCore now ns key snapshot).2 ↔ _
  cases hrefusal : e.refusal? ns key snapshot with
  | none => simpa using not_mem_addCore hsound now err hrefusal
  | some err' =>
    rw [addCore_of_refusal hsound now hrefusal]
    simp [eq_comm]

end Engine

/-! ## Runs -/

namespace Run

variable {s : Settings}

/-- **A refused core leaves no trace, unless it is new.** After every run, if a request to add a
core is answered by an error: the error gives the reason; nothing else is said; the engine comes to
track the core in the namespace, if that one is tracked, and changes in no other way. Of every core
as much is known as before. But the namespace counts one core more if it did not track this one,
and it is in this case only that the engine is not what it was. -/
theorem refused_core_leaves_no_trace_iff_not_new (r : Run s) (roles : Roles) (now : Nat)
    {ns : Namespace} {key : DiscoveryKey} {snapshot : CoreSnapshot} {err : SyncError}
    (h : .added (.error err) ∈ (r.engine.handle roles now (.addCore ns key snapshot)).2) :
    let out := r.engine.handle roles now (.addCore ns key snapshot)
    r.engine.refusal? ns key snapshot = some err ∧
    out = (r.engine.tracking ns key, [.added (.error err)]) ∧
    (∀ ns' key', out.1.core ns' key' = r.engine.core ns' key') ∧
    (∀ ns', out.1.coreCount ns'
      = r.engine.coreCount ns' + if ns' = ns ∧ r.engine.IsNew ns key then 1 else 0) ∧
    (out.1 = r.engine ↔ ¬ r.engine.IsNew ns key) := by
  intro out
  have hrefusal : r.engine.refusal? ns key snapshot = some err :=
    (Engine.error_mem_iff r.allSound roles now).1 h
  have hout : out = (r.engine.tracking ns key, [.added (.error err)]) :=
    Engine.addCore_of_refusal r.allSound now hrefusal
  rw [hout]
  exact ⟨hrefusal, rfl, fun ns' key' => r.engine.core_tracking ns ns' key key',
    fun ns' => r.engine.coreCount_tracking ns ns' key, Engine.tracking_eq_self_iff⟩

/-- A peer has written of a core before it is added as what it is not. -/
theorem refused_core_leaves_no_trace_where_known :
    let allowed : Roles := fun _ _ => .allowed
    let other : DiscoveryKey := ⟨⟨1⟩⟩
    let r : Run {} := .handle (.begin allowed 0) allowed 0 (.wants .data default default [⟨0, 1⟩])
    let out := r.engine.handle allowed 0 (.addCore .data default ⟨other, 1, ∅, []⟩)
    .added (.error (.keyMismatch default other)) ∈ out.2 ∧ out.1 = r.engine := by
  intro allowed other r out
  have hrefused : .added (.error (.keyMismatch default other)) ∈ out.2 :=
    (Engine.error_mem_iff r.allSound allowed 0).2 (by decide +kernel)
  have hold : ¬ r.engine.IsNew .data default := by decide +kernel
  obtain ⟨-, -, -, -, hsame⟩ := refused_core_leaves_no_trace_iff_not_new r allowed 0 hrefused
  exact ⟨hrefused, hsame.2 hold⟩

/-- A core that is refused in the beginning is counted from then on. -/
theorem refused_core_is_counted :
    let allowed : Roles := fun _ _ => .allowed
    let other : DiscoveryKey := ⟨⟨1⟩⟩
    let r : Run {} := .begin allowed 0
    let out := r.engine.handle allowed 0 (.addCore .data default ⟨other, 1, ∅, []⟩)
    .added (.error (.keyMismatch default other)) ∈ out.2 ∧
      r.engine.coreCount .data = 0 ∧ out.1.coreCount .data = 1 := by
  intro allowed other r out
  have hrefused : .added (.error (.keyMismatch default other)) ∈ out.2 :=
    (Engine.error_mem_iff r.allSound allowed 0).2 (by decide +kernel)
  exact ⟨hrefused, by decide +kernel, by decide +kernel⟩

end Run

end LogSync
