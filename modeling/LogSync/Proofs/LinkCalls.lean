import LogSync.Proofs.Replication

/-!
# The calls on one connection

A link is told of roles and states, of announcements and of cores; meanwhile cores come into the
catalog, with or without the link's knowledge. Whatever the order, the link keeps to a protocol.
Every call changes something (`Sparing`), so the calls about one core take turns, and none is made
but to bring a core in line with what is enabled at that moment (`PeerLink.Orderly`). All calls come
from `reconcile`, so this is proved there and holds of every operation (`LinkOp.orderly_step`), and
of whole histories by induction (`LinkState.calls_keep_to_protocol`).
-/

namespace LogSync

/-! ## What is said -/

namespace ReplicationCall

/-- The core that a call is about. -/
def key : ReplicationCall → DiscoveryKey
  | replicate key | unreplicate key => key

/-- Whether a call starts the replication of its core, and does not stop it. -/
def starts : ReplicationCall → Bool
  | replicate _ => true
  | unreplicate _ => false

end ReplicationCall

/-- Of the calls about a core, in order, which ones start its replication. -/
def turns (key : DiscoveryKey) (calls : List ReplicationCall) : List Bool :=
  (calls.filter (·.key = key)).map (·.starts)

/-- Two values take turns in a list, the given one at first. -/
def Alternates : Bool → List Bool → Prop
  | _, [] => True
  | first, b :: rest => b = first ∧ Alternates (!first) rest

/-- What happens to a link and to the catalog that it goes by. -/
inductive LinkOp where
  /-- A core comes into the catalog, and the link is not told. -/
  | enter (key : DiscoveryKey) (ns : Namespace)
  | setCapabilities (capabilities : Capabilities)
  | setEnabled (enabled : EnabledState)
  | announce (key : DiscoveryKey) (now : Nat)
  | coreAdded (key : DiscoveryKey)
  | expire (now : Nat)

/-- A link, and the catalog that it goes by. -/
structure LinkState where
  catalog : Catalog
  link : PeerLink

namespace LinkOp

/-- What an operation comes to, and the calls that it makes. -/
def step (plan : NamespacePlan) (s : LinkState) : LinkOp → LinkState × List ReplicationCall
  | enter key ns => ({ s with catalog := (s.catalog.insert key ns).1 }, [])
  | setCapabilities capabilities =>
    let (link, calls) := s.link.setCapabilities plan s.catalog capabilities
    ({ s with link }, calls)
  | setEnabled enabled =>
    let (link, calls) := s.link.setEnabled plan s.catalog enabled
    ({ s with link }, calls)
  | announce key now =>
    let (link, calls) := s.link.announce plan s.catalog key now
    ({ s with link }, calls)
  | coreAdded key =>
    let (link, calls) := s.link.coreAdded plan s.catalog key
    ({ s with link }, calls)
  | expire now => ({ s with link := (s.link.expire now).1 }, [])

/-- Whether an operation brings everything in line: a state and an added core do, and so does the
announcement of a core that stands in the catalog. -/
def reconciles (catalog : Catalog) : LinkOp → Bool
  | setEnabled _ | coreAdded _ => true
  | announce key _ => catalog.contains key
  | _ => false

end LinkOp

namespace LinkState

/-- What a history comes to, and all of its calls in order. -/
def run (plan : NamespacePlan) (s : LinkState) : List LinkOp → LinkState × List ReplicationCall
  | [] => (s, [])
  | op :: rest =>
    let next := op.step plan s
    let out := next.1.run plan rest
    (out.1, next.2 ++ out.2)

/-- A core belongs to a namespace that the peer may sync and that the state covers. -/
def Due (plan : NamespacePlan) (s : LinkState) (key : DiscoveryKey) : Prop :=
  ∃ ns, s.catalog.namespaceOf? key = some ns ∧ s.link.capabilities.allows ns = true ∧
    s.link.enabled.Covers plan ns

theorem due_iff {plan : NamespacePlan} {s : LinkState} {key : DiscoveryKey} :
    s.Due plan key ↔ (s.catalog.namespaceOf? key).any (s.link.enables plan) = true := by
  simp only [Due, Option.any_eq_true, PeerLink.enables, Bool.and_eq_true, EnabledState.enables_iff]

instance (plan : NamespacePlan) (s : LinkState) (key : DiscoveryKey) : Decidable (s.Due plan key) :=
  decidable_of_iff _ due_iff.symm

end LinkState

/-! ## Calls that change something -/

/-- Every call changes what is replicated, from the given cores on. -/
def Sparing (set : SortedSet DiscoveryKey) : List ReplicationCall → Prop
  | [] => True
  | call :: rest => set.contains call.key = !call.starts ∧ Sparing (call.apply set) rest

theorem Sparing.append {set : SortedSet DiscoveryKey} {calls calls' : List ReplicationCall}
    (h : Sparing set calls) (h' : Sparing (calls.foldl ReplicationCall.apply set) calls') :
    Sparing set (calls ++ calls') := by
  induction calls generalizing set with
  | nil => exact h'
  | cons call calls ih => exact ⟨h.1, ih h.2 h'⟩

/-- A call changes what is replicated of its own core, and of no other. -/
theorem ReplicationCall.contains_apply (call : ReplicationCall) (set : SortedSet DiscoveryKey)
    (key : DiscoveryKey) :
    (call.apply set).contains key = if key = call.key then call.starts else set.contains key := by
  cases call with
  | replicate k => exact LogSync.contains_apply key k true set
  | unreplicate k => exact LogSync.contains_apply key k false set

theorem ReplicationCall.eq_ite_iff {call : ReplicationCall} {key : DiscoveryKey} {on : Bool} :
    call = (if on then replicate key else unreplicate key) ↔ call.key = key ∧ call.starts = on := by
  cases call <;> cases on <;> simp [ReplicationCall.key, starts]

/-- Calls that all change something take turns, core by core. -/
theorem Sparing.alternates {set : SortedSet DiscoveryKey} {calls : List ReplicationCall}
    (h : Sparing set calls) (key : DiscoveryKey) :
    Alternates (!set.contains key) (turns key calls) := by
  induction calls generalizing set with
  | nil => trivial
  | cons call calls ih =>
    have hrest := ih h.2
    rw [call.contains_apply] at hrest
    unfold turns at hrest ⊢
    by_cases hkey : key = call.key
    · subst hkey
      rw [if_pos rfl] at hrest
      rw [List.filter_cons_of_pos (by simp), List.map_cons, h.1, Bool.not_not]
      exact ⟨rfl, hrest⟩
    · rw [if_neg hkey] at hrest
      rw [List.filter_cons_of_neg (by simpa using Ne.symm hkey)]
      exact hrest

/-! ## Reconciling -/

section
variable {enabled : Namespace → Bool} {entries : List (DiscoveryKey × Namespace)}

/-- A core is called for only if it is not as it should be. -/
theorem sparing_reconciled (set : SortedSet DiscoveryKey) :
    Sparing set (reconciled enabled entries set).2 := by
  induction entries generalizing set with
  | nil => trivial
  | cons e rest ih =>
    obtain ⟨key, ns⟩ := e
    rw [reconciled]
    split
    · exact ih set
    · next hdiffers =>
      -- it is called for because it differs, so what it was is the opposite
      have hcall : set.contains key = !enabled ns :=
        Bool.eq_not_of_ne fun heq => hdiffers (beq_iff_eq.2 heq.symm)
      cases henabled : enabled ns <;> exact ⟨hcall.trans (by rw [henabled]; rfl), ih _⟩

/-- Exactly the listed cores are called for that are not as they should be, to bring them there. -/
theorem mem_reconciled_iff (hasc : entries.Pairwise fun a b => compare a.1 b.1 = .lt)
    {set : SortedSet DiscoveryKey} {call : ReplicationCall} :
    call ∈ (reconciled enabled entries set).2 ↔
      ∃ ns, (call.key, ns) ∈ entries ∧ call.starts = enabled ns ∧
        set.contains call.key = !call.starts := by
  induction entries generalizing set with
  | nil => simp [reconciled]
  | cons e rest ih =>
    obtain ⟨key, ns⟩ := e
    obtain ⟨hkey, hrest⟩ := List.pairwise_cons.1 hasc
    rw [reconciled]
    split
    · next hdone =>
      rw [beq_iff_eq] at hdone
      rw [ih hrest]
      constructor
      · rintro ⟨ns', hmem, hdue⟩
        exact ⟨ns', List.mem_cons_of_mem _ hmem, hdue⟩
      · rintro ⟨ns', hmem, hstarts, hset⟩
        rcases List.mem_cons.1 hmem with heq | hmem
        · -- the head is as it should be, so it is not the core that is called for
          cases heq
          rw [← hdone, ← hstarts] at hset
          simp at hset
        · exact ⟨ns', hmem, hstarts, hset⟩
    · next hdiffers =>
      have hset : set.contains key = !enabled ns :=
        Bool.eq_not_of_ne fun heq => hdiffers (beq_iff_eq.2 heq.symm)
      -- the call for the head does nothing to the cores behind it
      have hbehind {ns' : Namespace} (hmem : (call.key, ns') ∈ rest) :
          ((if enabled ns then ReplicationCall.replicate key else .unreplicate key).apply
            set).contains call.key = set.contains call.key := by
        rw [contains_apply, if_neg]
        intro heq
        have hlt := hkey _ hmem
        simp [heq, Std.ReflOrd.compare_self] at hlt
      rw [List.mem_cons, ReplicationCall.eq_ite_iff, ih hrest]
      constructor
      · rintro (⟨rfl, hstarts⟩ | ⟨ns', hmem, hstarts, hset'⟩)
        · exact ⟨ns, List.mem_cons_self, hstarts, hstarts ▸ hset⟩
        · exact ⟨ns', List.mem_cons_of_mem _ hmem, hstarts, hbehind hmem ▸ hset'⟩
      · rintro ⟨ns', hmem, hstarts, hset'⟩
        rcases List.mem_cons.1 hmem with heq | hmem
        · cases heq
          exact Or.inl ⟨rfl, hstarts⟩
        · exact Or.inr ⟨ns', hmem, hstarts, (hbehind hmem).trans hset'⟩

end

/-! ## One operation -/

namespace PeerLink

/-- An operation on a link leads to what it replicates by calls that each change something and that
each bring a core in line with what the link enables then. -/
structure Orderly (plan : NamespacePlan) (catalog : Catalog) (l : PeerLink)
    (out : PeerLink × List ReplicationCall) : Prop extends l.LeadsTo out where
  sparing : Sparing l.replicating out.2
  rightful : ∀ call ∈ out.2, ∃ ns, catalog.namespaceOf? call.key = some ns ∧
    call.starts = out.1.enables plan ns

section
variable (plan : NamespacePlan) (catalog : Catalog) (l : PeerLink)

theorem Orderly.of_silent {l' : PeerLink} (hconnection : l'.connection = l.connection)
    (hreplicating : l'.replicating = l.replicating) : l.Orderly plan catalog (l', []) where
  connection := hconnection
  calls := hreplicating.symm
  sparing := trivial
  rightful call h := by contradiction

/-- Reconciling calls only for the cores that it changes, and in line with what is enabled. -/
theorem orderly_reconcile : l.Orderly plan catalog (l.reconcile plan catalog) where
  toLeadsTo := leadsTo_reconcile plan catalog l
  sparing := sparing_reconciled l.replicating
  rightful call h := by
    obtain ⟨ns, hmem, hstarts, -⟩ := (mem_reconciled_iff catalog.cores.ascending).1 h
    exact ⟨ns, SortedMap.get?_of_mem hmem, hstarts⟩

/-- Before it is reconciled, a link may be changed in anything but what it replicates. -/
theorem Orderly.of_reconcile {l' : PeerLink} (hconnection : l'.connection = l.connection)
    (hreplicating : l'.replicating = l.replicating) :
    l.Orderly plan catalog (l'.reconcile plan catalog) := by
  have horderly := orderly_reconcile plan catalog l'
  refine ⟨⟨horderly.connection.trans hconnection, ?_⟩, ?_, horderly.rightful⟩
  · rw [← hreplicating]
    exact horderly.calls
  · rw [← hreplicating]
    exact horderly.sparing

end

end PeerLink

namespace LinkOp

section
variable (plan : NamespacePlan) (s : LinkState) (op : LinkOp)

/-- Every operation makes its calls in order, by the catalog of afterwards. -/
theorem orderly_step :
    s.link.Orderly plan (op.step plan s).1.catalog
      ((op.step plan s).1.link, (op.step plan s).2) := by
  cases op with
  | enter key ns => exact .of_silent _ _ _ rfl rfl
  | setCapabilities capabilities =>
    simp only [step, PeerLink.setCapabilities]
    split
    · exact .of_silent _ _ _ rfl rfl
    · exact .of_reconcile _ _ _ rfl rfl
  | setEnabled enabled => exact .of_reconcile _ _ _ rfl rfl
  | announce key now =>
    simp only [step, PeerLink.announce]
    split
    · exact .of_reconcile _ _ _ rfl rfl
    · exact .of_silent _ _ _ rfl rfl
  | coreAdded key => exact .of_reconcile _ _ _ rfl rfl
  | expire now => exact .of_silent _ _ _ rfl rfl

end

section
variable {plan : NamespacePlan} {s : LinkState} (h : s.link.Within s.catalog)
include h

/-- The operations that reconcile make the link exact. -/
theorem exact_step (op : LinkOp) (hop : op.reconciles s.catalog = true) :
    (op.step plan s).1.link.Exact plan (op.step plan s).1.catalog := by
  cases op with
  | setEnabled enabled => exact PeerLink.exact_reconcile (l := { s.link with enabled }) h
  | coreAdded key =>
    exact PeerLink.exact_reconcile
      (l := { s.link with held := (s.link.held.remove key).1 }) h
  | announce key now =>
    have hkey : s.catalog.contains key = true := hop
    simp only [step, PeerLink.announce]
    rw [if_pos hkey]
    exact PeerLink.exact_reconcile h
  | enter | setCapabilities | expire => contradiction

/-- Whatever happens, the link replicates none but cores of the catalog. -/
theorem within_step (op : LinkOp) :
    (op.step plan s).1.link.Within (op.step plan s).1.catalog := by
  cases op with
  | enter key ns => exact fun k hk => Catalog.contains_insert (h k hk) key ns
  | setCapabilities capabilities => exact PeerLink.within_setCapabilities h capabilities
  | setEnabled enabled => exact PeerLink.within_of_exact (exact_step h (.setEnabled enabled) rfl)
  | announce key now =>
    by_cases hkey : s.catalog.contains key = true
    · exact PeerLink.within_of_exact (exact_step h (.announce key now) hkey)
    · simp only [step, PeerLink.announce]
      rw [if_neg hkey]
      exact h
  | coreAdded key => exact PeerLink.within_of_exact (exact_step h (.coreAdded key) rfl)
  | expire now => exact h

end

end LinkOp

/-! ## Whole histories -/

namespace LinkState

variable {plan : NamespacePlan}

/-- An exact link replicates what is due. -/
theorem contains_iff_due {s : LinkState} (h : s.link.Exact plan s.catalog) (key : DiscoveryKey) :
    s.link.replicating.contains key = true ↔ s.Due plan key := by
  have hexact : s.link.replicating.contains key = _ := h key
  rw [hexact, due_iff]

theorem within_run {s : LinkState} (h : s.link.Within s.catalog) (ops : List LinkOp) :
    (s.run plan ops).1.link.Within (s.run plan ops).1.catalog := by
  induction ops generalizing s with
  | nil => exact h
  | cons op rest ih => exact ih (op.within_step h)

/-- The calls of a history lead to what is replicated in the end, and each one changes something. -/
theorem run_calls (plan : NamespacePlan) (s : LinkState) (ops : List LinkOp) :
    s.link.LeadsTo ((s.run plan ops).1.link, (s.run plan ops).2) ∧
      Sparing s.link.replicating (s.run plan ops).2 := by
  -- from any state, since the rest of a history begins where its first operation ends
  induction ops generalizing s with
  | nil => exact ⟨.refl s.link, trivial⟩
  | cons op rest ih =>
    have horderly := op.orderly_step plan s
    obtain ⟨hleads, hsparing⟩ := ih (op.step plan s).1
    refine ⟨horderly.toLeadsTo.trans hleads, horderly.sparing.append ?_⟩
    rw [horderly.calls]
    exact hsparing

/-- A call starts what is due after its operation, and stops what is not. -/
theorem starts_iff_due {s : LinkState} {op : LinkOp} {call : ReplicationCall}
    (h : call ∈ (op.step plan s).2) :
    (op.step plan s).1.catalog.contains call.key = true ∧
      (call.starts = true ↔ (op.step plan s).1.Due plan call.key) := by
  obtain ⟨ns, hns, hstarts⟩ := (op.orderly_step plan s).rightful call h
  refine ⟨Option.isSome_iff_exists.2 ⟨ns, hns⟩, ?_⟩
  rw [hstarts, PeerLink.enables, Bool.and_eq_true, EnabledState.enables_iff]
  constructor
  · exact fun henabled => ⟨ns, hns, henabled⟩
  · rintro ⟨ns', hns', henabled⟩
    rw [hns, Option.some.injEq] at hns'
    exact hns' ▸ henabled

/-- **A link keeps to a protocol.** A link begins on a connection that replicates nothing, over any
catalog. Whatever happens then to it and to the catalog, in any order: the calls about a core take
turns, starting and stopping it; the connection replicates what the link counts as replicated; an
operation starts cores that are enabled then, and stops cores that are not; and after an operation
that reconciles, exactly the cores of the catalog are replicated whose namespaces are allowed and
enabled. -/
theorem calls_keep_to_protocol (plan : NamespacePlan) (catalog : Catalog) (c : Connection)
    (grace : Nat) (ops : List LinkOp) :
    let out := (mk catalog (.ofConnection c grace)).run plan ops
    (∀ key, Alternates true (turns key out.2)) ∧
    out.2.foldl ReplicationCall.apply ∅ = out.1.link.replicating ∧
    ∀ op : LinkOp,
      let next := op.step plan out.1
      (∀ call ∈ next.2, next.1.catalog.contains call.key = true ∧
        (call.starts = true ↔ next.1.Due plan call.key)) ∧
      (op.reconciles out.1.catalog = true →
        ∀ key, next.1.link.replicating.contains key = true ↔ next.1.Due plan key) := by
  intro out
  -- nothing is replicated at first, so all of it is of the catalog
  have hwithin : (PeerLink.ofConnection c grace).Within catalog := by
    intro key hkey
    contradiction
  obtain ⟨hleads, hsparing⟩ := run_calls plan ⟨catalog, .ofConnection c grace⟩ ops
  refine ⟨fun key => hsparing.alternates key, hleads.calls, fun op => ⟨fun call hcall => ?_, ?_⟩⟩
  · exact starts_iff_due hcall
  · exact fun hop => contains_iff_due (LinkOp.exact_step (within_run hwithin ops) op hop)

end LinkState

end LogSync
