import LogSync.Proofs.DeviceProgress
import LogSync.Proofs.Interleavings
import LogSync.Proofs.OneNamespace

/-!
# Who has a record

A core holds a record of every peer that matters to it. There are six ways to get one: an evaluation
gives a record in every core of a namespace to each peer that may sync it, a core that is attached
does so at once and takes the peers of its snapshot over, and each message and each event of a core
is noted in the record of the peer that it is about.

Operations on one core are told apart by the peer that they name (`CoreOp.Names`), so a step gives
no record but to a peer that is admitted or mentioned then (`Run.of_hasRecord_handle`). Along a run
this accounts for every record, and the records of the admitted peers are complete
(`Run.records_follow_roles`).
-/

namespace LogSync

/-! ## What is said -/

namespace Engine

/-- A peer has a record in a core of a namespace. -/
def HasRecord (e : Engine) (ns : Namespace) (key : DiscoveryKey) (p : PeerId) : Prop :=
  (e.core ns key).remotes.contains p = true

/-- A peer is linked, over a link that may sync a namespace. -/
def Admits (e : Engine) (ns : Namespace) (p : PeerId) : Prop :=
  ∃ capabilities, (p, capabilities) ∈ e.partners ∧ capabilities.allows ns = true

/-- An input names a peer with regard to a core of a namespace: a message of the peer does, and so
do an event of the attached core and the snapshot by which it is attached. -/
def Mentions (e : Engine) (ns : Namespace) (key : DiscoveryKey) (p : PeerId) : Input → Prop
  | .preHaves q m => q = p ∧ m.key = key ∧ (e.trackedIn? key).getD m.ns = ns
  | .wants ns' k q _ => q = p ∧ k = key ∧ (e.trackedIn? key).getD ns' = ns
  | .coreEvent k event =>
    k = key ∧ e.catalog.namespaceOf? key = some ns ∧ event.source = .peer p
  | .addCore ns' k snapshot =>
    ns' = ns ∧ k = key ∧ e.catalog.contains key = false ∧
      (∃ core, (e.core ns key).attach snapshot = .ok (core, true)) ∧
      ∃ bits, (p, bits) ∈ snapshot.peers
  | _ => False

end Engine

namespace Run

variable {s : Settings}

/-- A peer was admitted to a namespace at some evaluation so far, or when a core was added. -/
def WasAdmitted (ns : Namespace) (p : PeerId) : Run s → Prop
  | begin roles now => (begin roles now : Run s).engine.Admits ns p
  | handle before roles now input =>
    before.WasAdmitted ns p ∨
      ((handle before roles now input).evaluates = true ∨
          ∃ key snapshot, input = .addCore ns key snapshot) ∧
        (handle before roles now input).engine.Admits ns p

/-- An input so far has named a peer with regard to a core of a namespace. -/
def WasMentioned (ns : Namespace) (key : DiscoveryKey) (p : PeerId) : Run s → Prop
  | begin _ _ => False
  | handle before _ _ input =>
    before.WasMentioned ns key p ∨ before.engine.Mentions ns key p input

end Run

/-! ## One core -/

namespace CoreTracker

theorem contains_updatePeer (t : CoreTracker) (q p : PeerId) (f : PeerRecord → PeerRecord) :
    (t.updatePeer q f).remotes.contains p = (decide (p = q) || t.remotes.contains p) :=
  SortedMap.contains_insert _ _ _ _

theorem of_contains_updatePeer {t : CoreTracker} {q p : PeerId} {f : PeerRecord → PeerRecord}
    (h : (t.updatePeer q f).remotes.contains p = true) :
    t.remotes.contains p = true ∨ q = p := by
  rw [contains_updatePeer, Bool.or_eq_true, decide_eq_true_eq] at h
  exact h.symm.imp id Eq.symm

theorem of_contains_foldl_connect {peers : List (PeerId × Bitmap)} {t : CoreTracker} {p : PeerId}
    (h : (peers.foldl (fun t e => t.connect e.1 e.2) t).remotes.contains p = true) :
    t.remotes.contains p = true ∨ ∃ bits, (p, bits) ∈ peers := by
  induction peers generalizing t with
  | nil => exact Or.inl h
  | cons e peers ih =>
    rcases ih h with hthere | ⟨bits, hp⟩
    · rcases of_contains_updatePeer hthere with hthere | rfl
      · exact Or.inl hthere
      · exact Or.inr ⟨e.2, List.mem_cons_self⟩
    · exact Or.inr ⟨bits, List.mem_cons_of_mem _ hp⟩

/-- A snapshot gives records to the peers that it lists, if the core is attached by it. -/
theorem of_contains_attach {t t' : CoreTracker} {snapshot : CoreSnapshot} {new : Bool} {p : PeerId}
    (hattach : t.attach snapshot = .ok (t', new)) (h : t'.remotes.contains p = true) :
    t.remotes.contains p = true ∨ new = true ∧ ∃ bits, (p, bits) ∈ snapshot.peers := by
  unfold attach at hattach
  split at hattach
  · contradiction
  · split at hattach
    · cases hattach
      exact Or.inl h
    · cases hattach
      have hconnected := of_contains_foldl_connect h
      exact hconnected.imp id fun hlisted => ⟨rfl, hlisted⟩

/-- Peers that are added have records then, and the others have the records that they had. -/
theorem contains_foldl_addPeer (links : List PeerLink) (t : CoreTracker) (p : PeerId) :
    (links.foldl (fun t l => (t.addPeer l.peer).1) t).remotes.contains p = true ↔
      t.remotes.contains p = true ∨ ∃ l ∈ links, l.peer = p := by
  induction links generalizing t with
  | nil => simp
  | cons l links ih =>
    rw [List.foldl_cons, ih, contains_addPeer, Bool.or_eq_true, decide_eq_true_eq]
    constructor
    · rintro ((rfl | hthere) | ⟨l', hl', hp⟩)
      · exact Or.inr ⟨l, List.mem_cons_self, rfl⟩
      · exact Or.inl hthere
      · exact Or.inr ⟨l', List.mem_cons_of_mem _ hl', hp⟩
    · rintro (hthere | ⟨l', hl', hp⟩)
      · exact Or.inl (Or.inr hthere)
      · rcases List.mem_cons.1 hl' with rfl | hl'
        · exact Or.inl (Or.inl hp.symm)
        · exact Or.inr ⟨l', hl', hp⟩

/-- The only peer that can be new to a core after an event is the one that the event is about. -/
theorem of_contains_afterEvent {t t' : CoreTracker} {event : CoreEvent} {p : PeerId}
    (hafter : t.afterEvent event = some t') (h : t'.remotes.contains p = true) :
    t.remotes.contains p = true ∨ event.source = .peer p := by
  cases event <;> simp only [afterEvent] at hafter
  case peerAdd q bits =>
    cases hafter
    exact (of_contains_updatePeer h).imp id (congrArg NewsSource.peer)
  case peerRemove q =>
    split at hafter
    · cases hafter
      exact (of_contains_updatePeer h).imp id (congrArg NewsSource.peer)
    · contradiction
  case peerBitfield q bits =>
    cases hafter
    exact (of_contains_updatePeer h).imp id (congrArg NewsSource.peer)
  case peerRange q range value =>
    cases hafter
    exact (of_contains_updatePeer h).imp id (congrArg NewsSource.peer)
  case clear range =>
    cases hafter
    exact Or.inl h
  -- blocks that come in are noted of the local peer alone
  all_goals
    split at hafter <;> cases hafter
    exact Or.inl h

end CoreTracker

namespace CoreOp

/-- An operation is about a peer. -/
def Names (p : PeerId) : CoreOp → Prop
  | attach snapshot => ∃ bits, (p, bits) ∈ snapshot.peers
  | setPreHaves q _ | addWants q _ | addPeer q => q = p
  | event e => e.source = .peer p
  | read => False

/-- An operation gives a record to none but the peers that it is about. -/
theorem of_contains_apply (op : CoreOp) {core : CoreTracker} {p : PeerId}
    (h : (op.apply core).remotes.contains p = true) :
    core.remotes.contains p = true ∨ op.Names p := by
  cases op with
  | attach snapshot =>
    simp only [apply] at h
    rcases hattach : core.attach snapshot with err | ⟨core', new⟩
    · rw [hattach] at h
      exact Or.inl h
    · rw [hattach] at h
      exact (CoreTracker.of_contains_attach hattach h).imp id And.right
  | setPreHaves q bits => exact CoreTracker.of_contains_updatePeer h
  | addWants q ranges => exact CoreTracker.of_contains_updatePeer h
  | addPeer q =>
    rw [apply, CoreTracker.contains_addPeer, Bool.or_eq_true, decide_eq_true_eq] at h
    exact h.symm.imp id Eq.symm
  | event e =>
    simp only [apply, CoreTracker.onEvent] at h
    cases hafter : core.afterEvent e with
    | none =>
      rw [hafter] at h
      exact Or.inl h
    | some core' =>
      rw [hafter] at h
      exact CoreTracker.of_contains_afterEvent hafter h
  | read =>
    rw [apply, CoreTracker.counts_tracker] at h
    exact Or.inl h

end CoreOp

/-! ## One namespace -/

namespace NamespaceTracker

/-- A read leaves the records alone. -/
theorem remotes_state (t : NamespaceTracker) (key : DiscoveryKey) :
    (t.state.2.core key).remotes = (t.core key).remotes := by
  unfold core
  rcases t.cores_state with hcores | hcores <;> rw [hcores]
  rw [SortedMap.get?_mapValues]
  cases t.cores.get? key with
  | none => rfl
  | some core =>
    show core.counts.2.remotes = core.remotes
    rw [CoreTracker.counts_tracker]

/-- The only peer that can be new to a core when one is added is that peer. -/
theorem of_contains_addPeer {t : NamespaceTracker} {key : DiscoveryKey} {q p : PeerId}
    (h : ((t.addPeer q).core key).remotes.contains p = true) :
    (t.core key).remotes.contains p = true ∨ q = p := by
  unfold core addPeer at h
  rw [SortedMap.get?_mapValues] at h
  unfold core
  cases hcore : t.cores.get? key with
  | none =>
    rw [hcore] at h
    contradiction
  | some core =>
    rw [hcore, Option.map_some, Option.getD_some] at h
    exact CoreOp.of_contains_apply (.addPeer q) h

/-- Only partners that may sync the namespace get records when all of them are added. -/
theorem of_contains_addPartners {t : NamespaceTracker} {ns : Namespace} {partners : Partners}
    {key : DiscoveryKey} {p : PeerId}
    (h : ((t.addPartners ns partners).core key).remotes.contains p = true) :
    (t.core key).remotes.contains p = true ∨
      ∃ capabilities, (p, capabilities) ∈ partners ∧ capabilities.allows ns = true := by
  induction partners generalizing t with
  | nil => exact Or.inl h
  | cons q partners ih =>
    rcases ih h with hthere | ⟨capabilities, hp, hallows⟩
    · dsimp only at hthere
      split at hthere
      · next hallows =>
        rcases of_contains_addPeer hthere with hthere | rfl
        · exact Or.inl hthere
        · exact Or.inr ⟨q.2, List.mem_cons_self, hallows⟩
      · exact Or.inl hthere
    · exact Or.inr ⟨capabilities, List.mem_cons_of_mem _ hp, hallows⟩

end NamespaceTracker

/-! ## What a step does -/

namespace Engine

variable {e : Engine} {ns : Namespace} {key : DiscoveryKey} {p : PeerId}

theorem Rests.hasRecord_iff {e' : Engine} (h : e.Rests e') :
    e'.HasRecord ns key p ↔ e.HasRecord ns key p := by
  obtain ⟨read, hread⟩ := h.namespaces
  have hremotes : (e'.core ns key).remotes = (e.core ns key).remotes := by
    unfold core
    rw [hread, SortedMap.get?_mapValues]
    cases e.namespaces.get? ns with
    | none => rfl
    | some t =>
      show (NamespaceTracker.core (if read ns then t.state.2 else t) key).remotes = _
      split
      · exact t.remotes_state key
      · rfl
  unfold HasRecord
  rw [hremotes]

/-- An evaluation gives records to none but the peers that it finds admitted. -/
theorem of_hasRecord_evaluate {roles : Roles} {now : Nat}
    (h : (e.evaluate roles now).1.HasRecord ns key p) :
    e.HasRecord ns key p ∨ (e.evaluate roles now).1.Admits ns p := by
  unfold Admits
  rw [partners_evaluate]
  unfold HasRecord core at h ⊢
  rw [evaluate_engine, registered_eq, SortedMap.mapValues_mapValues, SortedMap.get?_mapValues] at h
  cases ht : e.namespaces.get? ns with
  | none =>
    rw [ht] at h
    contradiction
  | some t =>
    rw [ht] at h
    replace h : ((t.addPartners ns (e.partnersSeen roles)).state.2.core key).remotes.contains p
        = true := h
    rw [NamespaceTracker.remotes_state] at h
    exact NamespaceTracker.of_contains_addPartners h

theorem hasRecord_congr {e' : Engine} (h : e'.namespaces = e.namespaces) :
    e'.HasRecord ns key p ↔ e.HasRecord ns key p := by
  unfold HasRecord core
  rw [h]

/-- An operation on a core gives a record there, to a peer that it names. -/
theorem of_hasRecord_touch {e' : Engine} {ns' : Namespace} {t : NamespaceTracker}
    (ht : e.namespaces.get? ns' = some t) {key' : DiscoveryKey} (op : CoreOp)
    (heq : e'.namespaces = e.namespaces.insert ns' (t.setCore key' (op.apply (t.core key'))))
    (h : e'.HasRecord ns key p) : e.HasRecord ns key p ∨ (ns = ns' ∧ key = key') ∧ op.Names p := by
  unfold HasRecord at h ⊢
  rw [core_of_insert ht heq] at h
  split at h
  · next hplace =>
    obtain ⟨rfl, rfl⟩ := hplace
    rw [core_of_get? ht]
    exact (op.of_contains_apply h).imp id fun hnames => ⟨⟨rfl, rfl⟩, hnames⟩
  · exact Or.inl h

theorem admits_of_mem {l : PeerLink} (hl : l ∈ e.links.values)
    (hallows : l.capabilities.allows ns = true) : e.Admits ns l.peer :=
  ⟨l.capabilities, List.mem_map.2 ⟨l, hl, rfl⟩, hallows⟩

/-- A core that is added gives records to the peers of its snapshot and to those that are
admitted. -/
theorem of_hasRecord_addCore {now : Nat} {ns' : Namespace} {key' : DiscoveryKey}
    {snapshot : CoreSnapshot} (h : (e.addCore now ns' key' snapshot).1.HasRecord ns key p) :
    e.HasRecord ns key p ∨ (ns = ns' ∧ e.Admits ns p) ∨
      e.Mentions ns key p (.addCore ns' key' snapshot) := by
  rcases e.addCore_cases now ns' key' snapshot with
    ⟨result, heq⟩ | ⟨t, ht, hmissing, hadded⟩
  · rw [heq] at h
    exact Or.inl h
  -- whatever becomes of the request, no core but the one that it is about is tracked anew
  have hplace {core : CoreTracker} {e' : Engine} (heq : (e.addCore now ns' key' snapshot).1 = e')
      (hnamespaces : e'.namespaces = e.namespaces.insert ns' (t.setCore key' core)) :
      e.HasRecord ns key p ∨ ns = ns' ∧ key = key' ∧ core.remotes.contains p = true := by
    rw [heq, HasRecord, core_of_insert ht hnamespaces] at h
    split at h
    · next hplace => exact Or.inr ⟨hplace.1, hplace.2, h⟩
    · exact Or.inl h
  have hknown (hns : ns = ns') (hkey : key = key')
      (hthere : (t.core key').remotes.contains p = true) : e.HasRecord ns key p := by
    subst hns hkey
    rw [HasRecord, core_of_get? ht]
    exact hthere
  have hattached {core : CoreTracker} {new : Bool}
      (hattach : (t.core key').attach snapshot = .ok (core, new)) (hns : ns = ns')
      (hkey : key = key') (hthere : core.remotes.contains p = true) :
      e.HasRecord ns key p ∨ e.Mentions ns key p (.addCore ns' key' snapshot) := by
    refine (CoreTracker.of_contains_attach hattach hthere).imp (hknown hns hkey) ?_
    rintro ⟨rfl, hlisted⟩
    subst hns hkey
    exact ⟨rfl, rfl, hmissing, ⟨core, by rw [core_of_get? ht]; exact hattach⟩, hlisted⟩
  rcases hadded with ⟨err, -, heq⟩ | ⟨core, hattach, heq⟩ | ⟨core, hattach, heq⟩
  · rcases hplace (congrArg Prod.fst heq) rfl with hthere | ⟨hns, hkey, hthere⟩
    · exact Or.inl hthere
    · exact Or.inl (hknown hns hkey hthere)
  · rcases hplace (congrArg Prod.fst heq) rfl with hthere | ⟨hns, hkey, hthere⟩
    · exact Or.inl hthere
    · exact (hattached hattach hns hkey hthere).imp id Or.inr
  · rcases hplace (congrArg Prod.fst heq) rfl with hthere | ⟨hns, hkey, hthere⟩
    · exact Or.inl hthere
    · rcases (CoreTracker.contains_foldl_addPeer _ _ _).1 hthere with hthere | ⟨l, hl, rfl⟩
      · exact (hattached hattach hns hkey hthere).imp id Or.inr
      · obtain ⟨hl, hallows⟩ := List.mem_filter.1 hl
        exact Or.inr (Or.inl ⟨hns, hns ▸ admits_of_mem hl hallows⟩)

/-- A message gives a record to the peer that it names, where it finds the core. -/
theorem of_hasRecord_updateNamed {now : Nat} {ns' : Namespace} {key' : DiscoveryKey} (op : CoreOp)
    (h : (e.updateNamed now ns' key' fun core => op.apply core).HasRecord ns key p) :
    e.HasRecord ns key p ∨ (ns = (e.trackedIn? key').getD ns' ∧ key = key') ∧ op.Names p := by
  have heq := e.updateNamed_eq now ns' key' fun core => op.apply core
  cases ht : e.namespaces.get? ((e.trackedIn? key').getD ns') with
  | none =>
    rw [ht] at heq
    exact Or.inl ((hasRecord_congr heq).1 h)
  | some t =>
    rw [ht] at heq
    exact of_hasRecord_touch ht op heq h

/-- Without an evaluation no record is new but those of a core that is added and of a peer that is
named. -/
theorem of_hasRecord_handleQuietly (hsound : AllSound e.catalog e.namespaces) {now : Nat}
    {input : Input} (h : (e.handleQuietly now input).1.HasRecord ns key p) :
    e.HasRecord ns key p ∨
      ((∃ key' snapshot, input = .addCore ns key' snapshot) ∧ e.Admits ns p) ∨
      e.Mentions ns key p input := by
  cases input
  case wait w => exact Or.inl ((rests_wait hsound w).hasRecord_iff.1 h)
  case report ns' => exact Or.inl ((e.rests_report ns').hasRecord_iff.1 h)
  case announce id key' =>
    simp only [handleQuietly, announce] at h
    split at h <;> exact Or.inl h
  case addCore ns' key' snapshot =>
    rcases of_hasRecord_addCore h with hthere | ⟨rfl, hadmits⟩ | hmentions
    · exact Or.inl hthere
    · exact Or.inr (Or.inl ⟨⟨key', snapshot, rfl⟩, hadmits⟩)
    · exact Or.inr (Or.inr hmentions)
  case preHaves q m =>
    rcases of_hasRecord_updateNamed (.setPreHaves q (.ofWords m.start m.words)) h with
      hthere | ⟨⟨rfl, rfl⟩, hnames⟩
    · exact Or.inl hthere
    · exact Or.inr (Or.inr ⟨hnames, rfl, rfl⟩)
  case wants ns' key' q ranges =>
    rcases of_hasRecord_updateNamed (.addWants q ranges) h with hthere | ⟨⟨rfl, rfl⟩, hnames⟩
    · exact Or.inl hthere
    · exact Or.inr (Or.inr ⟨hnames, rfl, rfl⟩)
  case coreEvent key' event =>
    cases htouched : e.touched? (.coreEvent key' event) with
    | none =>
      rw [handleQuietly, coreEvent_of_untouched htouched] at h
      exact Or.inl h
    | some touch =>
      have heq := coreEvent_of_touched htouched now
      cases touches_of_touched htouched with
      | event _ hns ht hkey =>
        rcases of_hasRecord_touch ht (.event event) heq h with hthere | ⟨⟨rfl, rfl⟩, hnames⟩
        · exact Or.inl hthere
        · exact Or.inr (Or.inr ⟨rfl, hns, hnames⟩)
  case timer t => cases t <;> exact Or.inl h
  all_goals exact Or.inl h

end Engine

/-! ## Runs -/

namespace Run

variable {s : Settings}

/-- One input gives records to none but the peers that are admitted or named then. -/
theorem of_hasRecord_handle {before : Run s} {roles : Roles} {now : Nat} {input : Input}
    {ns : Namespace} {key : DiscoveryKey} {p : PeerId}
    (h : (handle before roles now input).engine.HasRecord ns key p) :
    before.engine.HasRecord ns key p ∨
      (((handle before roles now input).evaluates = true ∨
          ∃ key snapshot, input = .addCore ns key snapshot) ∧
        (handle before roles now input).engine.Admits ns p) ∨
      before.engine.Mentions ns key p input := by
  have hline := before.settings_engine_and_inLine.2
  cases h₀ : before.engine.evaluatedFor? now input with
  | some e₀ =>
    -- what follows on the evaluation changes neither records nor partners
    obtain ⟨-, -, hquiet⟩ := hline.evaluated h₀ roles
    have hrests := Engine.rests_handOver (e₀.evaluate roles now).1 now input
    have hevaluates : (handle before roles now input).evaluates = true :=
      evaluates_of_evaluated h₀
    rw [engine, Engine.handle_of_evaluated h₀] at h ⊢
    rcases Engine.of_hasRecord_evaluate (hrests.hasRecord_iff.1 h) with hthere | hadmits
    · exact Or.inl ((Engine.hasRecord_congr (Engine.frame_of_evaluated h₀).1).1 hthere)
    · refine Or.inr (Or.inl ⟨Or.inl hevaluates, ?_⟩)
      unfold Engine.Admits at hadmits ⊢
      rw [hquiet.partners_eq]
      exact hadmits
  | none =>
    have hquiet := Engine.quiet_handleQuietly hline.keyed now input
    rw [engine, Engine.handle_of_not_evaluated h₀] at h ⊢
    rcases Engine.of_hasRecord_handleQuietly before.allSound h with
      hthere | ⟨hadds, hadmits⟩ | hnamed
    · exact Or.inl hthere
    · refine Or.inr (Or.inl ⟨Or.inr hadds, ?_⟩)
      unfold Engine.Admits at hadmits ⊢
      rw [hquiet.partners_eq]
      exact hadmits
    · exact Or.inr (Or.inr hnamed)

/-- Every record is accounted for. -/
theorem of_hasRecord (r : Run s) {ns : Namespace} {key : DiscoveryKey} {p : PeerId}
    (h : r.engine.HasRecord ns key p) : r.WasAdmitted ns p ∨ r.WasMentioned ns key p := by
  induction r with
  | begin roles now =>
    have hnone : (begin roles now : Run s).engine.core ns key = .ofKey key :=
      Engine.core_begin s roles now ns key
    rw [Engine.HasRecord, hnone] at h
    contradiction
  | handle before roles now input ih =>
    rcases of_hasRecord_handle h with hthere | hadmitted | hnamed
    · exact (ih hthere).imp Or.inl Or.inl
    · exact Or.inl (Or.inr hadmitted)
    · exact Or.inr (Or.inr hnamed)

/-- After an evaluation every admitted peer has its records. -/
theorem hasRecord_of_evaluates {r : Run s} (h : r.evaluates = true) {ns : Namespace}
    {key : DiscoveryKey} {p : PeerId} (hadmits : r.engine.Admits ns p)
    (htracks : r.engine.Tracks ns key) : r.engine.HasRecord ns key p := by
  obtain ⟨capabilities, hp, hallows⟩ := hadmits
  obtain ⟨t, ht, hkey⟩ := htracks
  obtain ⟨core, hcore⟩ := Option.isSome_iff_exists.1 hkey
  have hknows := (settled_of_evaluates h).registered ht hp hallows key core hcore
  rw [Engine.HasRecord, Engine.core_of_get? ht, NamespaceTracker.core, hcore]
  exact hknows

/-- Once a core is attached, every admitted peer has a record in it. -/
theorem hasRecord_of_attached (r : Run s) {roles : Roles} {now : Nat} {ns : Namespace}
    {key : DiscoveryKey} {snapshot : CoreSnapshot} {p : PeerId}
    (hnew : r.engine.catalog.contains key = false)
    (hattached : (r.handle roles now (.addCore ns key snapshot)).engine.catalog.contains key = true)
    (hadmits : (r.handle roles now (.addCore ns key snapshot)).engine.Admits ns p) :
    (r.handle roles now (.addCore ns key snapshot)).engine.HasRecord ns key p := by
  have hquiet := Engine.quiet_addCore r.settings_engine_and_inLine.2.keyed now ns key snapshot
  replace hadmits : r.engine.Admits ns p := by
    unfold Engine.Admits at hadmits ⊢
    rw [← hquiet.partners_eq]
    exact hadmits
  rw [engine, Engine.handle] at hattached ⊢
  rcases r.engine.addCore_cases now ns key snapshot with
    ⟨result, heq⟩ | ⟨t, ht, -, ⟨err, -, heq⟩ | ⟨core, -, heq⟩ | ⟨core, -, heq⟩⟩
  -- a request that is refused or comes to nothing leaves the catalog as it is
  · rw [heq, hnew] at hattached
    contradiction
  · rw [heq, hnew] at hattached
    contradiction
  · rw [heq, hnew] at hattached
    contradiction
  · rw [heq, Engine.HasRecord, Engine.core_of_insert ht rfl, if_pos ⟨rfl, rfl⟩,
      CoreTracker.contains_foldl_addPeer]
    obtain ⟨capabilities, hp, hallows⟩ := hadmits
    obtain ⟨l, hl, hlink⟩ := List.mem_map.1 hp
    cases hlink
    exact Or.inr ⟨l, List.mem_filter.2 ⟨hl, hallows⟩, rfl⟩

/-- **Registration is complete, and no wider than roles allow.** Right after every evaluation, every
linked peer has a record in each tracked core of the namespaces that it may sync, and right after a
core is attached it has one there. And a peer has a record only if it was linked and allowed in the
namespace at some evaluation so far or when a core was added, or if a message, an event or the
snapshot at which the core was attached has named it. -/
theorem records_follow_roles (r : Run s) :
    (r.evaluates = true → ∀ ns key p, r.engine.Admits ns p → r.engine.Tracks ns key →
      r.engine.HasRecord ns key p) ∧
    (∀ roles now ns key snapshot,
      let after := r.handle roles now (.addCore ns key snapshot)
      r.engine.catalog.contains key = false → after.engine.catalog.contains key = true →
        ∀ p, after.engine.Admits ns p → after.engine.HasRecord ns key p) ∧
    ∀ ns key p, r.engine.HasRecord ns key p → r.WasAdmitted ns p ∨ r.WasMentioned ns key p :=
  ⟨fun h _ _ _ hadmits htracks => hasRecord_of_evaluates h hadmits htracks,
    fun _ _ _ _ _ hnew hattached _ hadmits => r.hasRecord_of_attached hnew hattached hadmits,
    fun _ _ _ h => r.of_hasRecord h⟩

end Run

end LogSync
