import LogSync.SortedMap

/-!
# Namespaces

Cores that share a sync policy share a namespace. A `NamespacePlan` says which namespaces are
tracked and which of those are synced ahead of everything else, the presync ones; it cannot be
made with repeated or untracked names.
-/

namespace LogSync

/-- A group of cores with one sync policy. -/
inductive Namespace where
  | auth | config | data | blobIndex | blob
deriving DecidableEq, Repr, Inhabited

namespace Namespace

/-- Every namespace, in order. -/
def all : List Namespace := [auth, config, data, blobIndex, blob]

/-- The place in the order. -/
def rank : Namespace → Nat
  | auth => 0
  | config => 1
  | data => 2
  | blobIndex => 3
  | blob => 4

/-- No two namespaces have the same place in the order. -/
theorem rank_injective : ∀ a b : Namespace, a.rank = b.rank → a = b := by
  intro a b; cases a <;> cases b <;> simp [rank]

instance : Ord Namespace := ⟨compareOn rank⟩
instance : Std.TransOrd Namespace := inferInstanceAs (Std.TransCmp (compareOn rank))
instance : Std.LawfulEqOrd Namespace := lawfulEqCmp_compareOn rank rank_injective

/-- The written name. -/
def name : Namespace → String
  | auth => "auth"
  | config => "config"
  | data => "data"
  | blobIndex => "blobIndex"
  | blob => "blob"

/-- The namespace with the given name. -/
def ofName? (s : String) : Option Namespace := all.find? (·.name == s)

end Namespace

/-- How far a sync is meant to go. -/
inductive SyncGoal where
  /-- Everything that is needed before data: the presync namespaces. -/
  | initial
  /-- Every tracked namespace. -/
  | full
deriving DecidableEq, Repr, Inhabited

/-- The first member of a list that stands in it a second time. -/
def firstRepeated : (seen rest : List Namespace) → Option Namespace
  | _, [] => none
  | seen, ns :: rest => if ns ∈ seen then some ns else firstRepeated (ns :: seen) rest

/-- A list in which the check finds no repetition has none, nor anything that was seen before. -/
theorem nodup_of_firstRepeated_eq_none {seen rest : List Namespace}
    (h : firstRepeated seen rest = none) : rest.Nodup ∧ ∀ ns ∈ rest, ns ∉ seen := by
  induction rest generalizing seen with
  | nil => simp
  | cons ns rest ih =>
    rw [firstRepeated] at h
    split at h
    · simp at h
    · next hns =>
      obtain ⟨nodup, apart⟩ := ih h
      refine ⟨List.nodup_cons.2 ⟨fun hm => apart ns hm (by simp), nodup⟩, fun a ha => ?_⟩
      rcases List.mem_cons.1 ha with rfl | ha
      · exact hns
      · exact fun hs => apart a ha (by simp [hs])

/-- Why a choice of namespaces is no plan. -/
inductive PlanError where
  | listedTwice (ns : Namespace)
  | presyncListedTwice (ns : Namespace)
  | presyncUntracked (ns : Namespace)
deriving DecidableEq, Repr

/-- What is wrong, in words. -/
def PlanError.message : PlanError → String
  | listedTwice ns => s!"namespace {ns.name} listed twice"
  | presyncListedTwice ns => s!"presync namespace {ns.name} listed twice"
  | presyncUntracked ns => s!"presync namespace {ns.name} is not a tracked namespace"

/-- Which namespaces are tracked, and which of them are synced first. -/
structure NamespacePlan where
  tracked : List Namespace
  presync : List Namespace
  tracked_nodup : tracked.Nodup
  presync_nodup : presync.Nodup
  presync_tracked : ∀ ns ∈ presync, ns ∈ tracked
deriving DecidableEq

namespace NamespacePlan

/-- The plan that tracks everything; access, configuration and the index of blobs come first. -/
def standard : NamespacePlan where
  tracked := Namespace.all
  presync := [.auth, .config, .blobIndex]
  tracked_nodup := by decide
  presync_nodup := by decide
  presync_tracked := by decide

instance : Inhabited NamespacePlan := ⟨standard⟩

/-- Makes a plan of two lists, or says what is wrong: a repeated tracked namespace before a
repeated presync one, and that before a presync one that is not tracked. -/
def ofLists (tracked presync : List Namespace) : Except PlanError NamespacePlan :=
  match ht : firstRepeated [] tracked with
  | some ns => .error (.listedTwice ns)
  | none =>
    match hp : firstRepeated [] presync with
    | some ns => .error (.presyncListedTwice ns)
    | none =>
      match hu : presync.find? (· ∉ tracked) with
      | some ns => .error (.presyncUntracked ns)
      | none => .ok {
          tracked, presync
          tracked_nodup := (nodup_of_firstRepeated_eq_none ht).1
          presync_nodup := (nodup_of_firstRepeated_eq_none hp).1
          presync_tracked := by simpa using hu }

/-- Whether a namespace is tracked. -/
def tracks (p : NamespacePlan) (ns : Namespace) : Bool := ns ∈ p.tracked

/-- Whether a namespace is synced ahead of the others. -/
def isPresync (p : NamespacePlan) (ns : Namespace) : Bool := ns ∈ p.presync

/-- The namespaces that have to be synced for a goal. -/
def forGoal (p : NamespacePlan) : SyncGoal → List Namespace
  | .initial => p.presync
  | .full => p.tracked

end NamespacePlan

end LogSync
