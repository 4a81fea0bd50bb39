import LogSync.Json.Codec
import LogSync.Proofs.IdentifierTexts
import LogSync.Proofs.JsonTexts
import LogSync.Proofs.SortedMaps

/-!
# The data model as text

Every value of the data model is written as JSON and read back from it. The text stands for the
JSON value (`Json.read_compact`), so what remains is that each type reads its own JSON values back.
These are put together from few shapes: names, numbers, lists, maps from peers, records, and records
that share their object with one more field. For each shape there is one lemma, and for each type
the lemmas of its parts.
-/

namespace LogSync

/-! ## What is said -/

/-- A value is written as a text that it is read back from. -/
def RoundTrips {α : Type} (write : α → Json) (read? : Json → Option α) (a : α) : Prop :=
  (Json.read? (write a).compact).bind read? = some a

/-- All counts fit into 64 bits. -/
structure GroupProgress.Fits (g : GroupProgress) : Prop where
  want : g.want < countBound
  wanted : g.wanted < countBound

/-- All counts fit into 64 bits. -/
structure DeviceProgress.Fits (d : DeviceProgress) : Prop where
  initial : d.initial.Fits
  data : d.data.Fits

/-- Start and length fit into 64 bits. -/
structure BlockRange.Fits (r : BlockRange) : Prop where
  start : r.start < countBound
  length : r.length < countBound

/-- The length and all counts fit into 64 bits. -/
structure CoreCounts.Fits (c : CoreCounts) : Prop where
  length : c.length < countBound
  localPeer : c.localPeer.Fits
  remotes : ∀ e ∈ c.remotes.toList, e.2.counts.Fits

/-- All counts fit into 64 bits. -/
structure NamespaceState.Fits (s : NamespaceState) : Prop where
  coreCount : s.coreCount < countBound
  localPeer : s.localPeer.Fits
  remotes : ∀ e ∈ s.remotes.toList, e.2.counts.Fits

/-! ## Lists -/

/-- What is read one by one is read in one go. -/
theorem mapM_map {α β γ : Type} {l : List α} {write : α → β} {read? : β → Option γ} {f : α → γ}
    (h : ∀ a ∈ l, read? (write a) = some (f a)) : (l.map write).mapM read? = some (l.map f) := by
  induction l with
  | nil => rfl
  | cons a l ih =>
    rw [List.map_cons, List.mapM_cons, h a List.mem_cons_self,
      ih fun a ha => h a (List.mem_cons_of_mem _ ha)]
    rfl

/-- A list is read back if each of its items is. -/
theorem Json.list_array {α : Type} {write : α → Json} {read? : Json → Option α} {l : List α}
    (h : ∀ a ∈ l, read? (write a) = some a) : (Json.array (l.map write)).list? read? = some l :=
  (mapM_map (f := id) h).trans (congrArg some (List.map_id l))

/-! ## Records -/

namespace Json

/-- The fields of an object are read back with their names, in their order. -/
theorem namedFields_ofFields (fields : List (String × Json)) :
    (ofFields fields).namedFields? = some fields := by
  unfold ofFields namedFields?
  dsimp only
  refine (mapM_map (f := id) fun f _ => ?_).trans ?_
  · rfl
  · rw [List.map_id]

/-- A field is found by its name if no other one has that name. -/
theorem fieldOnce_of_mem {fields : List (String × Json)} (hnodup : (fields.map (·.1)).Nodup)
    {f : String × Json} (hf : f ∈ fields) : fieldOnce fields f.1 = some (some f.2) := by
  have hfilter : fields.filter (·.1 == f.1) = [f] := by
    induction fields with
    | nil => contradiction
    | cons g fields ih =>
      obtain ⟨hg, hrest⟩ := List.nodup_cons.1 hnodup
      rcases List.mem_cons.1 hf with rfl | hf
      · have hnone : fields.filter (·.1 == f.1) = [] := by
          refine List.filter_eq_nil_iff.2 fun e he heq => hg ?_
          exact List.mem_map.2 ⟨e, he, beq_iff_eq.1 heq⟩
        rw [List.filter_cons_of_pos (by simp), hnone]
      · rw [List.filter_cons_of_neg, ih hrest hf]
        intro heq
        exact hg (List.mem_map.2 ⟨f, hf, (beq_iff_eq.1 heq).symm⟩)
  rw [fieldOnce, hfilter]

section
variable {fields : List (String × Json)} {all : List String} (hall : fields.map (·.1) = all)
  (hnodup : all.Nodup)
include hall hnodup

/-- A record is read from its own fields. -/
theorem record_ofFields : (ofFields fields).record? all = some (fields.map fun f => some f.2) := by
  subst hall
  show (ofFields fields).namedFields?.bind _ = _
  rw [namedFields_ofFields]
  exact mapM_map fun f hf => fieldOnce_of_mem hnodup hf

/-- A record is read from its own fields, in any order, where its object has others besides; all of
them have to be such that they can be kept. -/
theorem openRecord_ofFields {outer : Nat} {own names : List String}
    (fields' : List (String × Json)) (hnames : fields'.map (·.1) = own ++ names)
    (hfields : ∀ f ∈ fields', f ∈ fields)
    (hkeep : ∀ f ∈ fields, f.1 ∈ own ∨ f.2.canKeep (outer + 1) = true) :
    (ofFields fields).openRecord? outer own names = some (fields'.map fun f => some f.2) := by
  subst hall
  rw [openRecord?, namedFields_ofFields, Option.bind_some, if_pos]
  · rw [← hnames]
    exact mapM_map fun f hf => fieldOnce_of_mem hnodup (hfields f hf)
  · refine List.all_eq_true.2 fun f hf => ?_
    rw [Bool.or_eq_true, decide_eq_true_eq]
    exact hkeep f hf

end

/-! ## Numbers -/

/-- A number of 64 bits is read back as a count. -/
theorem count_natural {n : Nat} (h : n < countBound) : (natural n).count? = some n := if_pos h

/-- A count may be kept, at any depth that is allowed. -/
theorem canKeep_natural {n outer : Nat} (h : n < countBound) (houter : outer ≤ maxDepth) :
    (natural n).canKeep outer = true := by
  -- its few digits do not leave the range of doubles, which is asked of numbers that are kept
  have hdigits : (Nat.toDigits 10 n).length ≤ 20 :=
    (Nat.length_toDigits_le_iff (by decide) (by decide)).2 (Nat.lt_trans h (by decide))
  have hfits : Double.fits n 0 = true := if_pos (Or.inr (by omega))
  rw [canKeep, isReadable, hfits, Bool.true_and, decide_eq_true_eq]
  exact houter

end Json

/-! ## Identifiers and names -/

/-- An identifier is read back from its digits. -/
theorem Identifier.ofJson_toJson (i : Identifier) : ofJson? i.toJson = some i := by
  rw [ofJson?, toJson, Json.ofText, Json.text?, Option.bind_some, read_text]

theorem PeerId.ofJson_toJson (p : PeerId) : ofJson? p.toJson = some p := by
  rw [ofJson?, toJson, p.id.ofJson_toJson, Option.map_some]

theorem DiscoveryKey.ofJson_toJson (k : DiscoveryKey) : ofJson? k.toJson = some k := by
  rw [ofJson?, toJson, k.id.ofJson_toJson, Option.map_some]

/-- Each namespace is read back from its name. -/
theorem Namespace.ofJson_toJson (ns : Namespace) : ofJson? ns.toJson = some ns := by
  cases ns <;> decide

/-- Each state is read back from its name. -/
theorem EnabledState.ofJson_toJson (s : EnabledState) : ofJson? s.toJson = some s := by
  cases s <;> decide

theorem SyncGoal.ofJson_toJson (g : SyncGoal) : ofJson? g.toJson = some g := by
  cases g <;> decide

theorem Capability.ofJson_toJson (c : Capability) : ofJson? c.toJson = some c := by
  cases c <;> decide

theorem PeerStatus.ofJson_toJson (s : PeerStatus) : ofJson? s.toJson = some s := by
  cases s <;> decide

/-! ## Plans -/

/-- Where none repeats, none is found to repeat. -/
theorem firstRepeated_of_nodup {seen rest : List Namespace} (h : rest.Nodup)
    (hapart : ∀ ns ∈ rest, ns ∉ seen) : firstRepeated seen rest = none := by
  induction rest generalizing seen with
  | nil => rfl
  | cons ns rest ih =>
    obtain ⟨hns, hrest⟩ := List.nodup_cons.1 h
    rw [firstRepeated, if_neg (hapart ns List.mem_cons_self)]
    refine ih hrest fun a ha hseen => ?_
    rcases List.mem_cons.1 hseen with rfl | hseen
    · exact hns ha
    · exact hapart a (List.mem_cons_of_mem _ ha) hseen

/-- A plan is made of its own lists. -/
theorem NamespacePlan.ofLists_self (p : NamespacePlan) : ofLists p.tracked p.presync = .ok p := by
  have htracked : firstRepeated [] p.tracked = none :=
    firstRepeated_of_nodup p.tracked_nodup fun _ _ => List.not_mem_nil
  have hpresync : firstRepeated [] p.presync = none :=
    firstRepeated_of_nodup p.presync_nodup fun _ _ => List.not_mem_nil
  have huntracked : p.presync.find? (· ∉ p.tracked) = none := by
    simpa using p.presync_tracked
  unfold ofLists
  split
  · next heq => rw [htracked] at heq; contradiction
  · split
    · next heq => rw [hpresync] at heq; contradiction
    · split
      · next heq => rw [huntracked] at heq; contradiction
      · rfl

/-- A plan is read back, since its lists repeat nothing and the one is part of the other. -/
theorem NamespacePlan.ofJson_toJson (p : NamespacePlan) : ofJson? p.toJson = some p := by
  have hlist (l : List Namespace) :
      (Json.array (l.map Namespace.toJson)).list? Namespace.ofJson? = some l :=
    Json.list_array fun ns _ => ns.ofJson_toJson
  have hrecord : p.toJson.record? ["all", "presync"] = some
      [some (.array (p.tracked.map (·.toJson))), some (.array (p.presync.map (·.toJson)))] :=
    Json.record_ofFields rfl (by decide)
  unfold ofJson?
  rw [hrecord]
  show ((Json.array (p.tracked.map Namespace.toJson)).list? Namespace.ofJson?).bind _ = _
  rw [hlist, Option.bind_some]
  show ((Json.array (p.presync.map Namespace.toJson)).list? Namespace.ofJson?).bind _ = _
  rw [hlist, Option.bind_some, ofLists_self]
  rfl

/-! ## Maps from peers -/

/-- A map from peers is read back if each of its values is. -/
theorem peersOfJson_toJson {α : Type} {write : α → Json} {read? : Json → Option α}
    {m : SortedMap PeerId α} (h : ∀ e ∈ m.toList, read? (write e.2) = some e.2) :
    peersOfJson? read? (peersToJson write m) = some m := by
  rw [peersOfJson?, peersToJson, Json.namedFields_ofFields]
  refine (congrArg (Option.bind · _) (mapM_map (f := id) fun e he => ?_)).trans ?_
  · have hpeer : (Identifier.read? e.1.text).map PeerId.mk = some e.1 :=
      congrArg (Option.map PeerId.mk) e.1.id.read_text
    dsimp only
    rw [hpeer, h e he]
    rfl
  · rw [Option.bind_some, List.map_id, SortedMap.ofList_toList]
    rfl

/-! ## Records of the data model -/

/-- The progress of a group is read back from its three fields. -/
theorem GroupProgress.ofJson_toJson {g : GroupProgress} (h : g.Fits) :
    ofJson? g.toJson = some g := by
  have hrecord : g.toJson.record? ["isEnabled", "want", "wanted"]
      = some [some (.bool g.isEnabled), some (.natural g.want), some (.natural g.wanted)] :=
    Json.record_ofFields rfl (by decide)
  unfold ofJson?
  rw [hrecord]
  dsimp only
  rw [Json.count_natural h.want, Json.count_natural h.wanted]
  rfl

/-- The progress of a device is read back from that of its groups. -/
theorem DeviceProgress.ofJson_toJson {d : DeviceProgress} (h : d.Fits) :
    ofJson? d.toJson = some d := by
  have hrecord : d.toJson.record? ["initial", "data"]
      = some [some d.initial.toJson, some d.data.toJson] :=
    Json.record_ofFields rfl (by decide)
  unfold ofJson?
  rw [hrecord]
  dsimp only
  rw [GroupProgress.ofJson_toJson h.initial, GroupProgress.ofJson_toJson h.data]
  rfl

theorem enabledOfJson_toJson (b : Bool) : enabledOfJson? (enabledToJson b) = some b := by
  have hrecord : (enabledToJson b).record? ["isSyncEnabled"] = some [some (.bool b)] :=
    Json.record_ofFields rfl (by decide)
  unfold enabledOfJson?
  rw [hrecord]
  rfl

/-- A snapshot is read back from its states and its devices. -/
theorem SyncSnapshot.ofJson_toJson {s : SyncSnapshot} (h : ∀ e ∈ s.devices.toList, e.2.Fits) :
    ofJson? s.toJson = some s := by
  have hrecord : s.toJson.record? ["initial", "data", "deviceSyncState"]
      = some [some (enabledToJson s.initialEnabled), some (enabledToJson s.dataEnabled),
        some (peersToJson DeviceProgress.toJson s.devices)] :=
    Json.record_ofFields rfl (by decide)
  have hdevices : peersOfJson? DeviceProgress.ofJson?
      (peersToJson DeviceProgress.toJson s.devices) = some s.devices :=
    peersOfJson_toJson fun e he => DeviceProgress.ofJson_toJson (h e he)
  unfold ofJson?
  rw [hrecord]
  dsimp only
  rw [enabledOfJson_toJson, enabledOfJson_toJson, hdevices]
  rfl

/-- A message is read back from its fields, its words as numbers of 32 bits. -/
theorem PreHaveMessage.ofJson_toJson {m : PreHaveMessage} (h : m.start < countBound) :
    ofJson? m.toJson = some m := by
  have hrecord : m.toJson.record? ["discoveryKey", "namespace", "start", "words"]
      = some [some m.key.toJson, some m.ns.toJson, some (.natural m.start),
        some (.array (m.words.map fun w => .natural w.toNat))] :=
    Json.record_ofFields rfl (by decide)
  have hword (w : Word) : Json.word? (.natural w.toNat) = some w := by
    rw [Json.word?, Json.natBelow?, if_pos w.isLt, Option.map_some, BitVec.ofNat_toNat,
      BitVec.setWidth_eq]
  have hwords : (Json.array (m.words.map fun w => .natural w.toNat)).list? Json.word?
      = some m.words :=
    Json.list_array fun w _ => hword w
  unfold ofJson?
  rw [hrecord]
  dsimp only
  rw [m.key.ofJson_toJson, m.ns.ofJson_toJson, Json.count_natural h, hwords]
  rfl

/-- A range is read back from its start and its length. -/
theorem BlockRange.ofJson_toJson {r : BlockRange} (h : r.Fits) : ofJson? r.toJson = some r := by
  have hrecord : r.toJson.record? ["start", "length"]
      = some [some (.natural r.start), some (.natural r.length)] :=
    Json.record_ofFields rfl (by decide)
  unfold ofJson?
  rw [hrecord]
  dsimp only
  rw [Json.count_natural h.start, Json.count_natural h.length]
  rfl

/-! ## Counts -/

namespace BlockCounts

/-- The four counts, as the values of fields. -/
def values (c : BlockCounts) : List (Option Json) :=
  [some (.natural c.owned), some (.natural c.want), some (.natural c.wanted),
    some (.natural c.missing)]

variable {c : BlockCounts} (h : c.Fits)
include h

/-- Counts are read back from the values of their fields. -/
theorem ofFields_values : ofFields? c.values = some c := by
  rw [values, ofFields?]
  rw [Json.count_natural h.owned, Json.count_natural h.want, Json.count_natural h.wanted,
    Json.count_natural h.missing]
  rfl

theorem ofJson_toJson : ofJson? c.toJson = some c := by
  have hrecord : c.toJson.record? fieldNames = some c.values := Json.record_ofFields rfl (by decide)
  rw [ofJson?, hrecord]
  exact ofFields_values h

/-- The fields of counts are such as can be kept until it is known whose they are. -/
theorem canKeep_of_mem_toFields {outer : Nat} (houter : outer ≤ Json.maxDepth)
    {f : String × Json} (hf : f ∈ c.toFields) : f.2.canKeep outer = true := by
  have hfour : f = ("have", .natural c.owned) ∨ f = ("want", .natural c.want) ∨
      f = ("wanted", .natural c.wanted) ∨ f = ("missing", .natural c.missing) := by
    simpa [toFields, fieldNames] using hf
  rcases hfour with rfl | rfl | rfl | rfl
  · exact Json.canKeep_natural h.owned houter
  · exact Json.canKeep_natural h.want houter
  · exact Json.canKeep_natural h.wanted houter
  · exact Json.canKeep_natural h.missing houter

/-- The counts are found in an object that they share with one more field. -/
theorem openRecord_shared {outer : Nat} (houter : outer + 1 ≤ Json.maxDepth) {name : String}
    (hname : name ∉ fieldNames) (value : Json) :
    (Json.ofFields (c.toFields ++ [(name, value)])).openRecord? outer [name] fieldNames
      = some (some value :: c.values) := by
  have hnodup : (fieldNames ++ [name]).Nodup := by
    refine List.nodup_append.2 ⟨by decide, List.nodup_cons.2 ⟨List.not_mem_nil, .nil⟩, ?_⟩
    rintro a ha b hb rfl
    exact hname (List.mem_singleton.1 hb ▸ ha)
  have hall : (c.toFields ++ [(name, value)]).map (·.1) = fieldNames ++ [name] := rfl
  refine Json.openRecord_ofFields hall hnodup ((name, value) :: c.toFields) rfl ?_ ?_ <;>
    intro f hf
  · rcases List.mem_cons.1 hf with rfl | hf
    · exact List.mem_append_right _ List.mem_cons_self
    · exact List.mem_append_left _ hf
  · rcases List.mem_append.1 hf with hf | hf
    · exact Or.inr (canKeep_of_mem_toFields h houter hf)
    · exact Or.inl (by rw [List.mem_singleton.1 hf]; exact List.mem_cons_self)

end BlockCounts

/-- The counts of a remote are read back from the object that they share with its connection. -/
theorem RemoteCounts.ofJson_toJson {r : RemoteCounts} (h : r.counts.Fits) {outer : Nat}
    (houter : outer + 1 ≤ Json.maxDepth) : ofJson? outer r.toJson = some r := by
  have hrecord : r.toJson.openRecord? outer ["connected"] BlockCounts.fieldNames
      = some (some (.bool r.connected) :: r.counts.values) :=
    BlockCounts.openRecord_shared h houter (by decide) _
  unfold ofJson?
  rw [hrecord]
  show (BlockCounts.ofFields? r.counts.values).bind _ = _
  rw [BlockCounts.ofFields_values h]
  rfl

/-- The counts of a peer are read back from the object that they share with its status. -/
theorem NamespacePeer.ofJson_toJson {p : NamespacePeer} (h : p.counts.Fits) {outer : Nat}
    (houter : outer + 1 ≤ Json.maxDepth) : ofJson? outer p.toJson = some p := by
  have hrecord : p.toJson.openRecord? outer ["status"] BlockCounts.fieldNames
      = some (some p.status.toJson :: p.counts.values) :=
    BlockCounts.openRecord_shared h houter (by decide) _
  unfold ofJson?
  rw [hrecord]
  show (PeerStatus.ofJson? p.status.toJson).bind _ = _
  rw [p.status.ofJson_toJson, Option.bind_some]
  show (BlockCounts.ofFields? p.counts.values).bind _ = _
  rw [BlockCounts.ofFields_values h]
  rfl

/-- The counts of a core are read back peer by peer. -/
theorem CoreCounts.ofJson_toJson {c : CoreCounts} (h : c.Fits) : ofJson? c.toJson = some c := by
  have hrecord : c.toJson.record? ["coreLength", "localState", "remoteStates"]
      = some [some (.natural c.length), some c.localPeer.toJson,
        some (peersToJson RemoteCounts.toJson c.remotes)] :=
    Json.record_ofFields rfl (by decide)
  have hremotes : peersOfJson? (RemoteCounts.ofJson? 2) (peersToJson RemoteCounts.toJson c.remotes)
      = some c.remotes :=
    peersOfJson_toJson fun e he => RemoteCounts.ofJson_toJson (h.remotes e he) (by decide)
  unfold ofJson?
  rw [hrecord]
  dsimp only
  rw [Json.count_natural h.length, BlockCounts.ofJson_toJson h.localPeer, hremotes]
  rfl

/-- The state of a namespace is read back peer by peer. -/
theorem NamespaceState.ofJson_toJson {s : NamespaceState} (h : s.Fits) :
    ofJson? s.toJson = some s := by
  have hrecord : s.toJson.record? ["coreCount", "dataToSync", "localState", "remoteStates"]
      = some [some (.natural s.coreCount), some (.bool s.dataToSync), some s.localPeer.toJson,
        some (peersToJson NamespacePeer.toJson s.remotes)] :=
    Json.record_ofFields rfl (by decide)
  have hremotes : peersOfJson? (NamespacePeer.ofJson? 2)
      (peersToJson NamespacePeer.toJson s.remotes) = some s.remotes :=
    peersOfJson_toJson fun e he => NamespacePeer.ofJson_toJson (h.remotes e he) (by decide)
  unfold ofJson?
  rw [hrecord]
  dsimp only
  rw [Json.count_natural h.coreCount, BlockCounts.ofJson_toJson h.localPeer, hremotes]
  rfl

/-! ## The whole data model -/

/-- What reads its JSON values back reads its texts back. -/
theorem RoundTrips.of_ofJson {α : Type} {write : α → Json} {read? : Json → Option α} {a : α}
    (h : read? (write a) = some a) : RoundTrips write read? a := by
  rw [RoundTrips, Json.read_compact]
  exact h

/-- **The data model is read back from its texts.** Every value of every type of the data model is
written as a text that is read as that value: identifiers, names and plans of any kind, and messages
and counts whose numbers all fit into 64 bits, with any peers in their maps. -/
theorem data_model_round_trips :
    (∀ p : PeerId, RoundTrips PeerId.toJson PeerId.ofJson? p) ∧
    (∀ k : DiscoveryKey, RoundTrips DiscoveryKey.toJson DiscoveryKey.ofJson? k) ∧
    (∀ ns : Namespace, RoundTrips Namespace.toJson Namespace.ofJson? ns) ∧
    (∀ p : NamespacePlan, RoundTrips NamespacePlan.toJson NamespacePlan.ofJson? p) ∧
    (∀ s : EnabledState, RoundTrips EnabledState.toJson EnabledState.ofJson? s) ∧
    (∀ g : SyncGoal, RoundTrips SyncGoal.toJson SyncGoal.ofJson? g) ∧
    (∀ c : Capability, RoundTrips Capability.toJson Capability.ofJson? c) ∧
    (∀ s : SyncSnapshot, (∀ e ∈ s.devices.toList, e.2.Fits) →
      RoundTrips SyncSnapshot.toJson SyncSnapshot.ofJson? s) ∧
    (∀ d : DeviceProgress, d.Fits → RoundTrips DeviceProgress.toJson DeviceProgress.ofJson? d) ∧
    (∀ m : PreHaveMessage, m.start < countBound →
      RoundTrips PreHaveMessage.toJson PreHaveMessage.ofJson? m) ∧
    (∀ r : BlockRange, r.Fits → RoundTrips BlockRange.toJson BlockRange.ofJson? r) ∧
    (∀ c : BlockCounts, c.Fits → RoundTrips BlockCounts.toJson BlockCounts.ofJson? c) ∧
    (∀ r : RemoteCounts, r.counts.Fits →
      RoundTrips RemoteCounts.toJson (RemoteCounts.ofJson? 0) r) ∧
    (∀ c : CoreCounts, c.Fits → RoundTrips CoreCounts.toJson CoreCounts.ofJson? c) ∧
    (∀ s : NamespaceState, s.Fits →
      RoundTrips NamespaceState.toJson NamespaceState.ofJson? s) :=
  ⟨fun p => .of_ofJson p.ofJson_toJson, fun k => .of_ofJson k.ofJson_toJson,
    fun ns => .of_ofJson ns.ofJson_toJson, fun p => .of_ofJson p.ofJson_toJson,
    fun s => .of_ofJson s.ofJson_toJson, fun g => .of_ofJson g.ofJson_toJson,
    fun c => .of_ofJson c.ofJson_toJson, fun _ h => .of_ofJson (SyncSnapshot.ofJson_toJson h),
    fun _ h => .of_ofJson (DeviceProgress.ofJson_toJson h),
    fun _ h => .of_ofJson (PreHaveMessage.ofJson_toJson h),
    fun _ h => .of_ofJson (BlockRange.ofJson_toJson h),
    fun _ h => .of_ofJson (BlockCounts.ofJson_toJson h),
    fun _ h => .of_ofJson (RemoteCounts.ofJson_toJson h (by decide)),
    fun _ h => .of_ofJson (CoreCounts.ofJson_toJson h),
    fun _ h => .of_ofJson (NamespaceState.ofJson_toJson h)⟩

end LogSync
