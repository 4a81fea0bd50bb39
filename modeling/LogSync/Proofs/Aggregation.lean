import LogSync.NamespaceTracker
import LogSync.Proofs.SortedMaps

/-!
# What the counts of a namespace are made of

The counts of a namespace come from folding its cores into running sums. `Aggregates` says what
must come out, count by count and peer by peer, and `aggregates_ofCores` that it does.
-/

namespace LogSync

/-- The sum of some counts, kind by kind. -/
def BlockCounts.total (counts : List BlockCounts) : BlockCounts where
  owned := sumOver (·.owned) counts
  want := sumOver (·.want) counts
  wanted := sumOver (·.wanted) counts
  missing := sumOver (·.missing) counts

/-- A peer's part in a namespace, from its counts in those cores that have a record of it; none if
there are no such cores. It is connected if all the cores have it connected, and connecting if only
some do. -/
def NamespacePeer.ofRecords (records : List RemoteCounts) (coreCount : Nat) :
    Option NamespacePeer :=
  if records.isEmpty then none
  else some
    { counts := .total (records.map (·.counts))
      status :=
        if records.countP (·.connected) = 0 then .disconnected
        else if records.countP (·.connected) = coreCount then .connected
        else .connecting }

/-- The counts of a namespace are what the counts of its cores amount to. -/
structure NamespaceState.Aggregates (s : NamespaceState) (cores : List CoreCounts) : Prop where
  coreCount : s.coreCount = cores.length
  localPeer : s.localPeer = .total (cores.map (·.localPeer))
  dataToSync : s.dataToSync = true ↔ 0 < s.localPeer.want ∨ 0 < s.localPeer.wanted
  remotes : ∀ p, s.remotes.get? p
    = NamespacePeer.ofRecords (cores.filterMap (·.remotes.get? p)) cores.length

/-! ## Sums -/

namespace BlockCounts

/-- Counts are added kind by kind. -/
theorem add_def (a b : BlockCounts) :
    a + b = ⟨a.owned + b.owned, a.want + b.want, a.wanted + b.wanted, a.missing + b.missing⟩ := rfl

/-- Counts can be added up in any grouping. -/
theorem add_assoc (a b c : BlockCounts) : a + b + c = a + (b + c) := by
  simp only [add_def, Nat.add_assoc]

/-- No counts at all leave a sum as it is. -/
theorem zero_add (a : BlockCounts) : ({} : BlockCounts) + a = a := by
  simp only [add_def, Nat.zero_add]

theorem add_zero (a : BlockCounts) : a + {} = a := rfl

theorem total_cons (a : BlockCounts) (l : List BlockCounts) : total (a :: l) = a + total l := rfl

end BlockCounts

/-- Adding the local counts up one core after the other. -/
theorem foldl_localPeer (cores : List CoreCounts) (sum : BlockCounts) :
    cores.foldl (fun sum c => sum + c.localPeer) sum
      = sum + .total (cores.map (·.localPeer)) := by
  induction cores generalizing sum with
  | nil => exact (sum.add_zero).symm
  | cons c cores ih => rw [List.foldl_cons, ih, List.map_cons, BlockCounts.total_cons,
      BlockCounts.add_assoc]

namespace PeerSum

/-- The running sum of a peer after some more of its records. -/
def addAll (s : PeerSum) (records : List RemoteCounts) : PeerSum :=
  ⟨s.counts + .total (records.map (·.counts)), s.connections + records.countP (·.connected)⟩

theorem addAll_nil (s : PeerSum) : s.addAll [] = s := rfl

/-- Records are added up one after the other. -/
theorem addAll_cons (s : PeerSum) (r : RemoteCounts) (records : List RemoteCounts) :
    s.addAll (r :: records) = (s.add r).addAll records := by
  simp only [addAll, add, List.map_cons, BlockCounts.total_cons, BlockCounts.add_assoc,
    List.countP_cons]
  cases r.connected <;> simp [Nat.add_assoc, Nat.add_comm 1]

/-- A core adds one record to the sum of each peer it knows; the sum of a new peer begins there. -/
theorem get?_addCore (sums : SortedMap PeerId PeerSum) (c : CoreCounts) (p : PeerId) :
    (addCore sums c).get? p
      = (c.remotes.get? p).elim (sums.get? p) fun r => some (((sums.get? p).getD {}).add r) :=
  SortedMap.get?_foldl_upsert ({} : PeerSum) (fun r s => s.add r) c.remotes.ascending sums p

/-- The sum of a peer after all the cores: its records in them on top of what there was. -/
theorem get?_foldl_addCore (cores : List CoreCounts) (sums : SortedMap PeerId PeerSum)
    (p : PeerId) :
    (cores.foldl addCore sums).get? p
      = if (cores.filterMap (·.remotes.get? p)).isEmpty then sums.get? p
        else some (((sums.get? p).getD {}).addAll (cores.filterMap (·.remotes.get? p))) := by
  induction cores generalizing sums with
  | nil => rfl
  | cons c cores ih =>
    rw [List.foldl_cons, ih, get?_addCore, List.filterMap_cons]
    cases hr : c.remotes.get? p with
    | none => rfl
    | some r =>
      simp only [Option.elim_some, List.isEmpty_cons, Bool.false_eq_true, if_false,
        Option.getD_some, addAll_cons]
      split
      · next hnil => rw [List.isEmpty_iff.1 hnil, addAll_nil]
      · rfl

end PeerSum

/-! ## The counts of a namespace -/

namespace NamespaceState

/-- Folding the cores of a namespace gives their totals. -/
theorem aggregates_ofCores (cores : List CoreCounts) : (ofCores cores).Aggregates cores where
  coreCount := rfl
  localPeer := by
    show cores.foldl (fun sum c => sum + c.localPeer) ({} : BlockCounts) = _
    rw [foldl_localPeer, BlockCounts.zero_add]
  dataToSync := by
    show (decide (0 < _) || decide (0 < _)) = true ↔ _
    rw [Bool.or_eq_true, decide_eq_true_eq, decide_eq_true_eq]
    rfl
  remotes p := by
    show (SortedMap.mapValues _ (cores.foldl PeerSum.addCore ∅)).get? p = _
    rw [SortedMap.get?_mapValues, PeerSum.get?_foldl_addCore, SortedMap.get?_empty]
    unfold NamespacePeer.ofRecords
    split
    · rfl
    · simp only [Option.map_some, Option.getD_none, PeerSum.addAll, PeerSum.status,
        BlockCounts.zero_add, Nat.zero_add]

end NamespaceState

end LogSync
