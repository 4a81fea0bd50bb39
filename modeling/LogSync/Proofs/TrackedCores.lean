import LogSync.Catalog
import LogSync.Progress
import LogSync.Proofs.FreshCounts

/-!
# What a tracker knows of its cores

Three things hold of every tracker in an engine: what it keeps is fresh, each of its cores bears
the key that it stands under, and an attached one stands in the catalog (`NamespaceTracker.Sound`).
A fourth, that a peer has a record in every core, is what an evaluation brings about for the peers
that may sync the namespace (`NamespaceTracker.Knows`).
-/

namespace LogSync

/-! ## One core -/

namespace CoreTracker

/-- A core stands under its key, and if it is attached, in the catalog. -/
structure Placed (catalog : Catalog) (key : DiscoveryKey) (core : CoreTracker) : Prop where
  key_eq : core.key = key
  attached : core.attached = true → catalog.contains key = true

/-- A new core stands under its key, and is not attached. -/
theorem placed_ofKey (catalog : Catalog) (key : DiscoveryKey) :
    (ofKey key).Placed catalog key := ⟨rfl, fun h => by contradiction⟩

/-- A core that attaches a snapshot is the one that the snapshot names. -/
theorem key_attach {t t' : CoreTracker} {s : CoreSnapshot} {new : Bool}
    (h : t.attach s = .ok (t', new)) : t'.key = t.key := by
  unfold attach at h
  split at h
  · contradiction
  · split at h
    · cases h; rfl
    · cases h; exact (frame_foldl_connect _ _).2

/-- Only a core that is attached already is not new. -/
theorem attached_of_attach {t t' : CoreTracker} {s : CoreSnapshot}
    (h : t.attach s = .ok (t', false)) : t.attached = true := by
  unfold attach at h
  split at h
  · contradiction
  · split at h
    · assumption
    · cases h

end CoreTracker

/-- Whether an operation binds a core to its tracker. -/
def CoreOp.isAttach : CoreOp → Bool
  | attach _ => true
  | _ => false

namespace CoreTracker

/-- No operation but attaching moves a core or attaches it. -/
theorem Placed.apply {catalog : Catalog} {key : DiscoveryKey} {core : CoreTracker}
    (h : core.Placed catalog key) (op : CoreOp) (hop : op.isAttach = false) :
    (op.apply core).Placed catalog key := by
  suffices hsame : (op.apply core).key = core.key ∧ (op.apply core).attached = core.attached from
    ⟨hsame.1.trans h.key_eq, fun hattached => h.attached (hsame.2 ▸ hattached)⟩
  cases op with
  | attach s => contradiction
  | setPreHaves p bits => exact ⟨rfl, rfl⟩
  | addWants p ranges => exact ⟨rfl, rfl⟩
  | addPeer p =>
    simp only [CoreOp.apply, addPeer]
    split <;> exact ⟨rfl, rfl⟩
  | event e =>
    simp only [CoreOp.apply, onEvent]
    cases he : core.afterEvent e with
    | none => exact ⟨rfl, rfl⟩
    | some t' =>
      have hframe := (frame_afterEvent he).2
      exact hframe
  | read => simp only [CoreOp.apply, counts_tracker, and_self]

/-! ### Records of peers -/

/-- A peer that is added has a record then, and so have those that had one. -/
theorem contains_addPeer (t : CoreTracker) (p q : PeerId) :
    (t.addPeer p).1.remotes.contains q = (decide (q = p) || t.remotes.contains q) := by
  unfold addPeer
  split
  · next hknown =>
    by_cases h : q = p
    · subst h
      simp [hknown]
    · simp [h]
  · exact SortedMap.contains_insert _ _ _ _

/-- A peer that has a record is not given another one. -/
theorem addPeer_of_contains {t : CoreTracker} {p : PeerId} (h : t.remotes.contains p = true) :
    (t.addPeer p).1 = t := by
  unfold addPeer
  rw [if_pos h]

end CoreTracker

/-! ## One namespace -/

namespace NamespaceTracker

theorem core_setCore (t : NamespaceTracker) (key : DiscoveryKey) (core : CoreTracker) :
    (t.setCore key core).core key = core := by
  unfold NamespaceTracker.core setCore
  rw [SortedMap.get?_insert, if_pos rfl]
  rfl

/-- Of two cores that are put under one key, the latter stays. -/
theorem setCore_setCore (t : NamespaceTracker) (key : DiscoveryKey) (core core' : CoreTracker) :
    (t.setCore key core).setCore key core' = t.setCore key core' := by
  unfold setCore
  rw [SortedMap.insert_insert]

/-- What a tracker keeps is fresh, and its cores stand where they belong. -/
structure Sound (catalog : Catalog) (t : NamespaceTracker) : Prop extends t.Fresh where
  placed : ∀ {key core}, t.cores.get? key = some core → core.Placed catalog key

variable {catalog : Catalog}

/-- A tracker without cores is sound. -/
theorem sound_ofNamespace (catalog : Catalog) (ns : Namespace) : (ofNamespace ns).Sound catalog :=
  ⟨fresh_ofNamespace ns, fun h => by contradiction⟩

/-- Every core of a sound tracker stands where it belongs, also one that is not tracked yet. -/
theorem Sound.placed_core {t : NamespaceTracker} (h : t.Sound catalog) (key : DiscoveryKey) :
    (t.core key).Placed catalog key := by
  unfold core
  cases hk : t.cores.get? key with
  | none => exact CoreTracker.placed_ofKey catalog key
  | some c => exact h.placed hk

/-- A tracker stays sound while the catalog grows. -/
theorem Sound.mono {t : NamespaceTracker} (h : t.Sound catalog) {catalog' : Catalog}
    (hgrown : ∀ key, catalog.contains key = true → catalog'.contains key = true) :
    t.Sound catalog' where
  toFresh := h.toFresh
  placed hk := ⟨(h.placed hk).key_eq, fun hattached => hgrown _ ((h.placed hk).attached hattached)⟩

/-- A tracker stays sound when a core is replaced by one that it has evolved into. -/
theorem Sound.setCore {t : NamespaceTracker} (h : t.Sound catalog) {key : DiscoveryKey}
    {core : CoreTracker} (hfresh : core.Fresh) (hevolves : (t.core key).Evolves core)
    (hplaced : core.Placed catalog key) : (t.setCore key core).Sound catalog where
  toFresh := h.fresh_setCore hfresh hevolves
  placed {k c} hk := by
    rw [NamespaceTracker.setCore, SortedMap.get?_insert] at hk
    split at hk
    · next heq =>
      obtain rfl := Option.some.inj hk
      exact heq ▸ hplaced
    · exact h.placed hk

/-- A core may be put in its place after any operation but attaching. -/
theorem Sound.setCore_apply {t : NamespaceTracker} (h : t.Sound catalog) (key : DiscoveryKey)
    (op : CoreOp) (hop : op.isAttach = false) :
    (t.setCore key (op.apply (t.core key))).Sound catalog :=
  h.setCore (op.fresh_apply (h.fresh_core key)) (op.evolves_apply _)
    ((h.placed_core key).apply op hop)

/-- A tracker stays sound when a peer is given its records. -/
theorem Sound.addPeer {t : NamespaceTracker} (h : t.Sound catalog) (p : PeerId) :
    (t.addPeer p).Sound catalog where
  toFresh := h.fresh_mapCores (.addPeer p)
  placed {key core} hk := by
    rw [NamespaceTracker.addPeer, SortedMap.get?_mapValues] at hk
    obtain ⟨core', hcore', rfl⟩ := Option.map_eq_some_iff.1 hk
    exact (h.placed hcore').apply (.addPeer p) rfl

/-! ### Reads -/

/-- A read changes none of the cores, but for what is kept of them. -/
theorem cores_state (t : NamespaceTracker) :
    t.state.2.cores = t.cores ∨
      t.state.2.cores = t.cores.mapValues fun _ core => core.counts.2 := by
  rcases t.state_cases with ⟨kept, -, -, hstate⟩ | hstate
  · rw [hstate]
    exact Or.inl rfl
  · rw [hstate, cores_summed]
    exact Or.inr rfl

/-- Reading a tracker does not change what it adds up to. -/
theorem total_state (t : NamespaceTracker) : t.state.2.total = t.total := by
  rcases t.state_cases with ⟨kept, -, -, hstate⟩ | hstate
  · rw [hstate]
  · rw [hstate, total_summed]

/-- A tracker stays sound when it is read. -/
theorem Sound.state {t : NamespaceTracker} (h : t.Sound catalog) : t.state.2.Sound catalog where
  toFresh := h.fresh_state
  placed {key core} hk := by
    rcases t.cores_state with hcores | hcores <;> rw [hcores] at hk
    · exact h.placed hk
    · rw [SortedMap.get?_mapValues] at hk
      obtain ⟨core', hcore', rfl⟩ := Option.map_eq_some_iff.1 hk
      exact (h.placed hcore').apply .read rfl

/-! ### Records of peers -/

/-- A peer has a record in every core. -/
def Knows (t : NamespaceTracker) (p : PeerId) : Prop :=
  ∀ key core, t.cores.get? key = some core → core.remotes.contains p = true

/-- A peer that has a record in every core is given no other. -/
theorem addPeer_of_knows {t : NamespaceTracker} {p : PeerId} (h : t.Knows p) :
    t.addPeer p = t := by
  have hcores : (t.cores.mapValues fun _ core => (core.addPeer p).1) = t.cores := by
    refine SortedMap.mapValues_eq_self fun e he => ?_
    exact CoreTracker.addPeer_of_contains (h e.1 e.2 (SortedMap.get?_of_mem he))
  unfold addPeer
  rw [hcores]

/-- Who is given records has them, and nobody loses any. -/
theorem knows_addPeer {t : NamespaceTracker} {p q : PeerId} (h : q = p ∨ t.Knows q) :
    (t.addPeer p).Knows q := by
  intro key core hk
  rw [addPeer, SortedMap.get?_mapValues] at hk
  obtain ⟨core', hcore', rfl⟩ := Option.map_eq_some_iff.1 hk
  rw [CoreTracker.contains_addPeer, Bool.or_eq_true, decide_eq_true_eq]
  exact h.imp id fun hknows => hknows key core' hcore'

/-- Reading a tracker takes no record away. -/
theorem Knows.state {t : NamespaceTracker} {p : PeerId} (h : t.Knows p) : t.state.2.Knows p := by
  intro key core hk
  rcases t.cores_state with hcores | hcores <;> rw [hcores] at hk
  · exact h key core hk
  · rw [SortedMap.get?_mapValues] at hk
    obtain ⟨core', hcore', rfl⟩ := Option.map_eq_some_iff.1 hk
    have hknows : core'.remotes.contains p = true := h key core' hcore'
    rw [CoreTracker.counts_tracker]
    exact hknows

/-- The tracker with every partner added that may sync the namespace. -/
def addPartners (ns : Namespace) (partners : Partners) (t : NamespaceTracker) : NamespaceTracker :=
  partners.foldl (fun t p => if p.2.allows ns then t.addPeer p.1 else t) t

section
variable {ns : Namespace}

/-- A tracker stays sound when all who may sync it are given their records. -/
theorem Sound.addPartners {t : NamespaceTracker} (h : t.Sound catalog) (partners : Partners) :
    (t.addPartners ns partners).Sound catalog := by
  refine List.foldlRecOn (motive := fun t : NamespaceTracker => t.Sound catalog) _ _ h
    fun t ht p _ => ?_
  split
  · exact ht.addPeer p.1
  · exact ht

theorem Knows.addPartners {t : NamespaceTracker} {p : PeerId} (h : t.Knows p)
    (partners : Partners) : (t.addPartners ns partners).Knows p := by
  refine List.foldlRecOn (motive := fun t : NamespaceTracker => t.Knows p) _ _ h
    fun t ht q _ => ?_
  split
  · exact knows_addPeer (Or.inr ht)
  · exact ht

/-- Whoever may sync a namespace is given a record in each of its cores. -/
theorem knows_addPartners (t : NamespaceTracker) {partners : Partners} {p : PeerId}
    {caps : Capabilities} (hp : (p, caps) ∈ partners) (hallows : caps.allows ns = true) :
    (t.addPartners ns partners).Knows p := by
  induction partners generalizing t with
  | nil => contradiction
  | cons q partners ih =>
    -- the partner gets its records at its turn, and the ones after it take none away
    rcases List.mem_cons.1 hp with rfl | hp
    · rw [NamespaceTracker.addPartners, List.foldl_cons, if_pos hallows]
      exact Knows.addPartners (knows_addPeer (Or.inl rfl)) partners
    · exact ih _ hp

/-- Nothing is left to add where all partners have their records. -/
theorem addPartners_of_knows {t : NamespaceTracker} {partners : Partners}
    (h : ∀ p caps, (p, caps) ∈ partners → caps.allows ns = true → t.Knows p) :
    t.addPartners ns partners = t := by
  refine List.foldlRecOn (motive := fun t' => t' = t) _ _ rfl fun t' ht' p hp => ?_
  subst ht'
  split
  · next hallows => exact addPeer_of_knows (h p.1 p.2 hp hallows)
  · rfl

end

end NamespaceTracker

end LogSync
