import LogSync.PeerLink
import LogSync.Proofs.SortedMaps

/-!
# What a link does to its connection

A link works towards one goal: to replicate exactly the attached cores whose namespaces it enables.
All its operations go through `reconcile`, so what there is to know of them follows from three
facts about it: which cores it ends with (`isReplicating_reconcile`), that its calls lead there
(`LeadsTo`), and that it makes no call if it is there already (`reconcile_of_exact`).
-/

namespace LogSync

/-! ## The catalog -/

/-- An attached core stays attached when others are. -/
theorem Catalog.contains_insert {catalog : Catalog} {key : DiscoveryKey}
    (h : catalog.contains key = true) (k : DiscoveryKey) (ns : Namespace) :
    (catalog.insert k ns).1.contains key = true := by
  unfold insert
  split
  · exact h
  · show (catalog.cores.insert k ns).contains key = true
    rw [SortedMap.contains_insert, Bool.or_eq_true]
    exact Or.inr h

theorem Catalog.contains_insert_self (catalog : Catalog) (key : DiscoveryKey) (ns : Namespace) :
    (catalog.insert key ns).1.contains key = true := by
  unfold insert
  split
  · assumption
  · show (catalog.cores.insert key ns).contains key = true
    rw [SortedMap.contains_insert, decide_eq_true rfl, Bool.true_or]

/-! ## Reconciling -/

section
variable {enabled : Namespace → Bool} {entries : List (DiscoveryKey × Namespace)}

/-- The call that turns the replication of a core on or off. -/
theorem contains_apply (key k : DiscoveryKey) (on : Bool) (set : SortedSet DiscoveryKey) :
    ((if on then ReplicationCall.replicate k else .unreplicate k).apply set).contains key
      = if key = k then on else set.contains key := by
  cases on with
  | true =>
    show (set.insert k ()).contains key = _
    rw [SortedMap.contains_insert]
    by_cases h : key = k <;> simp [h]
  | false =>
    show (set.erase k).contains key = _
    rw [SortedMap.contains_erase]
    by_cases h : key = k <;> simp [h]

/-- A listed core is replicated if its namespace is enabled; the others are left as they are. -/
theorem contains_reconciled
    (hasc : entries.Pairwise fun a b => compare a.1 b.1 = .lt) (set : SortedSet DiscoveryKey)
    (key : DiscoveryKey) :
    (reconciled enabled entries set).1.contains key
      = (SortedMap.lookup key entries).elim (set.contains key) enabled := by
  induction entries generalizing set with
  | nil => rfl
  | cons e rest ih =>
    obtain ⟨k, ns⟩ := e
    -- keys are listed once, so the entries behind this one leave its core alone
    have hrest := ih (List.pairwise_cons.1 hasc).2
    rw [reconciled, SortedMap.lookup_cons]
    by_cases hkey : key = k
    · subst hkey
      rw [if_pos rfl]
      split
      · next hdone => rw [hrest, SortedMap.lookup_tail hasc]; exact (beq_iff_eq.1 hdone).symm
      · simp only
        rw [hrest, SortedMap.lookup_tail hasc, Option.elim_none, contains_apply, if_pos rfl]
        rfl
    · rw [if_neg hkey]
      split
      · exact hrest set
      · simp only
        rw [hrest, contains_apply, if_neg hkey]

/-- The calls lead from the cores replicated before to those replicated after. -/
theorem foldl_apply_reconciled (set : SortedSet DiscoveryKey) :
    (reconciled enabled entries set).2.foldl ReplicationCall.apply set
      = (reconciled enabled entries set).1 := by
  induction entries generalizing set with
  | nil => rfl
  | cons e rest ih =>
    rw [reconciled]
    split
    · exact ih set
    · exact ih _

/-- Where every listed core is as it should be, nothing is called. -/
theorem reconciled_of_exact {set : SortedSet DiscoveryKey}
    (h : ∀ e ∈ entries, enabled e.2 = set.contains e.1) :
    reconciled enabled entries set = (set, []) := by
  induction entries with
  | nil => rfl
  | cons e rest ih =>
    rw [reconciled, h e (by simp), if_pos (beq_self_eq_true _)]
    exact ih fun f hf => h f (by simp [hf])

end

namespace PeerLink

variable {plan : NamespacePlan} {catalog : Catalog}

/-- A link replicates exactly the attached cores whose namespaces it enables. -/
def Exact (plan : NamespacePlan) (catalog : Catalog) (l : PeerLink) : Prop :=
  ∀ key, l.isReplicating key = (catalog.namespaceOf? key).any (l.enables plan)

/-- A link replicates none but attached cores. -/
def Within (catalog : Catalog) (l : PeerLink) : Prop :=
  ∀ key, l.isReplicating key = true → catalog.contains key = true

/-- Reconciling decides about every attached core anew, and leaves the others as they are. -/
theorem isReplicating_reconcile (l : PeerLink) (key : DiscoveryKey) :
    (l.reconcile plan catalog).1.isReplicating key
      = (catalog.namespaceOf? key).elim (l.isReplicating key) (l.enables plan) :=
  contains_reconciled catalog.cores.ascending l.replicating key

/-- Reconciling makes a link exact, whatever it replicated of the attached cores before. -/
theorem exact_reconcile {l : PeerLink} (h : l.Within catalog) :
    (l.reconcile plan catalog).1.Exact plan catalog := by
  intro key
  rw [isReplicating_reconcile]
  cases hns : catalog.namespaceOf? key with
  | some ns => rfl
  | none =>
    -- what is not attached was not replicated before, and is not called for
    show l.isReplicating key = false
    refine Bool.eq_false_iff.2 fun hrep => ?_
    have hcontains := h key hrep
    rw [Catalog.contains, SortedMap.contains, show catalog.cores.get? key = none from hns]
      at hcontains
    contradiction

/-- A new link is exact: it replicates nothing, and enables nothing. -/
theorem exact_ofConnection (plan : NamespacePlan) (catalog : Catalog) (c : Connection)
    (grace : Nat) : (ofConnection c grace).Exact plan catalog := by
  intro key
  show false = (catalog.namespaceOf? key).any fun _ => false
  cases catalog.namespaceOf? key <;> rfl

/-- An exact link replicates attached cores only. -/
theorem within_of_exact {l : PeerLink} (h : l.Exact plan catalog) : l.Within catalog := by
  intro key hrep
  rw [h key] at hrep
  show (catalog.namespaceOf? key).isSome = true
  cases hns : catalog.namespaceOf? key with
  | some ns => rfl
  | none =>
    rw [hns] at hrep
    contradiction

/-- An exact link has nothing left to do. -/
theorem reconcile_of_exact {l : PeerLink} (h : l.Exact plan catalog) :
    l.reconcile plan catalog = (l, []) := by
  unfold reconcile
  rw [reconciled_of_exact fun e he => ?_]
  have hkey := h e.1
  rw [show catalog.namespaceOf? e.1 = some e.2 from SortedMap.get?_of_mem he] at hkey
  exact hkey.symm

/-! ## Operations and their calls -/

/-- What an operation on a link comes to: the link of the same connection, and calls that lead to
what it replicates. -/
structure LeadsTo (l : PeerLink) (out : PeerLink × List ReplicationCall) : Prop where
  connection : out.1.connection = l.connection
  calls : out.2.foldl ReplicationCall.apply l.replicating = out.1.replicating

theorem LeadsTo.refl (l : PeerLink) : l.LeadsTo (l, []) := ⟨rfl, rfl⟩

/-- Operations follow one another, and so do their calls. -/
theorem LeadsTo.trans {l l' l'' : PeerLink} {calls calls' : List ReplicationCall}
    (h : l.LeadsTo (l', calls)) (h' : l'.LeadsTo (l'', calls')) :
    l.LeadsTo (l'', calls ++ calls') where
  connection := h'.connection.trans h.connection
  calls := by rw [List.foldl_append, h.calls, h'.calls]

section
variable (plan : NamespacePlan) (catalog : Catalog) (l : PeerLink)

/-- The calls of reconciling are exactly the changes that it makes. -/
theorem leadsTo_reconcile : l.LeadsTo (l.reconcile plan catalog) :=
  ⟨rfl, foldl_apply_reconciled l.replicating⟩

theorem leadsTo_setCapabilities (capabilities : Capabilities) :
    l.LeadsTo (l.setCapabilities plan catalog capabilities) := by
  unfold setCapabilities
  split
  · exact .refl l
  · exact ⟨rfl, (leadsTo_reconcile plan catalog { l with capabilities }).calls⟩

theorem leadsTo_setEnabled (enabled : EnabledState) :
    l.LeadsTo (l.setEnabled plan catalog enabled) :=
  ⟨rfl, (leadsTo_reconcile plan catalog { l with enabled }).calls⟩

end

/-! ## Operations and what they are for -/

/-- Taking capabilities over leaves a link within the attached cores. -/
theorem within_setCapabilities {l : PeerLink} (h : l.Within catalog) (capabilities : Capabilities) :
    (l.setCapabilities plan catalog capabilities).1.Within catalog := by
  unfold setCapabilities
  split
  · exact h
  · have hwithin : Within catalog { l with capabilities } := h
    have hexact : (reconcile plan catalog { l with capabilities }).1.Exact plan catalog :=
      exact_reconcile hwithin
    exact within_of_exact hexact

theorem capabilities_setCapabilities (l : PeerLink) (capabilities : Capabilities) :
    (l.setCapabilities plan catalog capabilities).1.capabilities = capabilities := by
  unfold setCapabilities
  split
  · next h => exact h.symm
  · rfl

/-! ## Keeping up with the catalog -/

/-- What an operation on a link comes to that brings it no news of roles and states: a link that
was exact is so again, by the catalog of afterwards. -/
structure Stays (plan : NamespacePlan) (catalog catalog' : Catalog) (l : PeerLink)
    (out : PeerLink × List ReplicationCall) : Prop extends l.LeadsTo out where
  capabilities : out.1.capabilities = l.capabilities
  enabled : out.1.enabled = l.enabled
  exact : l.Exact plan catalog → out.1.Exact plan catalog'

theorem Stays.refl (l : PeerLink) : l.Stays plan catalog catalog (l, []) :=
  ⟨.refl l, rfl, rfl, id⟩

/-- Operations without news follow one another, while the catalog grows with them. -/
theorem Stays.trans {catalog' catalog'' : Catalog} {l l' l'' : PeerLink}
    {calls calls' : List ReplicationCall} (h : l.Stays plan catalog catalog' (l', calls))
    (h' : l'.Stays plan catalog' catalog'' (l'', calls')) :
    l.Stays plan catalog catalog'' (l'', calls ++ calls') where
  toLeadsTo := h.toLeadsTo.trans h'.toLeadsTo
  capabilities := h'.capabilities.trans h.capabilities
  enabled := h'.enabled.trans h.enabled
  exact hexact := h'.exact (h.exact hexact)

section
variable (plan : NamespacePlan) (l : PeerLink)

/-- Reconciling keeps up with a catalog that has grown. -/
theorem stays_reconcile {catalog catalog' : Catalog}
    (hgrown : ∀ key, catalog.contains key = true → catalog'.contains key = true) :
    l.Stays plan catalog catalog' (l.reconcile plan catalog') where
  toLeadsTo := leadsTo_reconcile plan catalog' l
  capabilities := rfl
  enabled := rfl
  exact hexact := exact_reconcile fun key hkey => hgrown key (within_of_exact hexact key hkey)

/-- A core that is added brings a link no news but itself, for the catalog only grows. -/
theorem stays_coreAdded {catalog catalog' : Catalog}
    (hgrown : ∀ key, catalog.contains key = true → catalog'.contains key = true)
    (key : DiscoveryKey) : l.Stays plan catalog catalog' (l.coreAdded plan catalog' key) :=
  have hstays := stays_reconcile plan { l with held := (l.held.remove key).1 } hgrown
  ⟨⟨rfl, hstays.calls⟩, rfl, rfl, hstays.exact⟩

/-- An announcement brings a link no news of roles and states. -/
theorem stays_announce (catalog : Catalog) (key : DiscoveryKey) (now : Nat) :
    l.Stays plan catalog catalog (l.announce plan catalog key now) := by
  unfold announce
  split
  · exact stays_reconcile plan l fun _ h => h
  · exact ⟨⟨rfl, rfl⟩, rfl, rfl, id⟩

end

end PeerLink

end LogSync
