import LogSync.Proofs.Aggregation

/-!
# Kept counts are never stale

A core's tracker keeps its counts until it changes; a namespace keeps its own together with the
number of its cores and the sum of their versions. The second mark is only as good as the promise
behind it: whatever happens to a core either leaves its counts alone or raises its version, and no
core ever goes away. `CoreTracker.Evolves` is that promise for one core. It is proved once for each
operation, and from it follows that both layers stay fresh along every history of operations and
reads (`counts_never_stale`).
-/

namespace LogSync

/-! ## One core -/

namespace CoreTracker

/-- What is kept is what would be derived anew. -/
def Fresh (t : CoreTracker) : Prop := ∀ c ∈ t.cached, c = t.derived

/-- A core's tracker before and after some operations: its version does not go down, and goes up if
its counts change. -/
structure Evolves (t t' : CoreTracker) : Prop where
  version_le : t.version ≤ t'.version
  derived_eq : t'.version = t.version → t'.derived = t.derived

theorem Evolves.refl (t : CoreTracker) : t.Evolves t := ⟨Nat.le_refl _, fun _ => rfl⟩

theorem Evolves.trans {t t' t'' : CoreTracker} (h : t.Evolves t') (h' : t'.Evolves t'') :
    t.Evolves t'' where
  version_le := Nat.le_trans h.version_le h'.version_le
  derived_eq heq := by
    have h1 := h.version_le
    have h2 := h'.version_le
    rw [h'.derived_eq (by omega), h.derived_eq (by omega)]

theorem fresh_ofKey (key : DiscoveryKey) : (ofKey key).Fresh := by
  intro c hc
  contradiction

/-- A change drops what is kept, so nothing of it is out of date. -/
theorem fresh_changed (t : CoreTracker) : t.changed.Fresh := by
  intro c hc
  contradiction

/-- Whatever was written to a tracker, noting a change makes up for it. -/
theorem evolves_changed {t t' : CoreTracker} (h : t'.version = t.version) :
    t.Evolves t'.changed where
  version_le := by show t.version ≤ t'.version + 1; omega
  derived_eq heq := by
    replace heq : t'.version + 1 = t.version := heq
    omega

/-! ### Reads -/

/-- What is read from a fresh tracker is what would be derived anew. -/
theorem Fresh.counts_eq {t : CoreTracker} (h : t.Fresh) : t.counts.1 = t.derived := by
  unfold counts
  cases hc : t.cached with
  | none => rfl
  | some c => exact h c hc

/-- A read changes nothing but what is kept. -/
theorem counts_tracker (t : CoreTracker) : t.counts.2 = { t with cached := some t.counts.1 } := by
  cases t with
  | mk key attached length localPeer remotes cached version => cases cached <;> rfl

/-- Reading keeps what was derived just now. -/
theorem Fresh.fresh_counts {t : CoreTracker} (h : t.Fresh) : t.counts.2.Fresh := by
  intro c hc
  rw [counts_tracker] at hc ⊢
  obtain rfl : t.counts.1 = c := Option.some.inj hc
  exact h.counts_eq

theorem evolves_counts (t : CoreTracker) : t.Evolves t.counts.2 := by
  rw [counts_tracker]
  exact ⟨Nat.le_refl _, fun _ => rfl⟩

/-! ### Changes -/

/-- Connecting peers changes their records alone. -/
theorem frame_foldl_connect (peers : List (PeerId × Bitmap)) (t : CoreTracker) :
    let t' := peers.foldl (fun t p => t.connect p.1 p.2) t
    t'.version = t.version ∧ t'.key = t.key := by
  induction peers generalizing t with
  | nil => exact ⟨rfl, rfl⟩
  | cons p peers ih => exact ih (t.connect p.1 p.2)

/-- They are remotes, so the length and the local record stay. -/
theorem local_foldl_connect (peers : List (PeerId × Bitmap)) (t : CoreTracker) :
    let t' := peers.foldl (fun t p => t.connect p.1 p.2) t
    t'.length = t.length ∧ t'.localPeer = t.localPeer := by
  induction peers generalizing t with
  | nil => exact ⟨rfl, rfl⟩
  | cons p peers ih => exact ih (t.connect p.1 p.2)

/-- An event changes the length and the records alone. -/
theorem frame_afterEvent {t t' : CoreTracker} {e : CoreEvent} (h : t.afterEvent e = some t') :
    t'.version = t.version ∧ t'.key = t.key ∧ t'.attached = t.attached := by
  cases e <;> simp only [afterEvent] at h
  case peerRemove p =>
    split at h
    · cases h; exact ⟨rfl, rfl, rfl⟩
    · contradiction
  case download index =>
    split at h
    · cases h; exact ⟨rfl, rfl, rfl⟩
    · contradiction
  case append length writtenLocally =>
    split at h
    · contradiction
    · cases h; exact ⟨rfl, rfl, rfl⟩
  all_goals cases h; exact ⟨rfl, rfl, rfl⟩

end CoreTracker

/-- What can be done to the tracker of one core: every way to change it, and to read it. -/
inductive CoreOp where
  | attach (snapshot : CoreSnapshot)
  | setPreHaves (peer : PeerId) (bits : Bitmap)
  | addWants (peer : PeerId) (ranges : List BlockRange)
  | addPeer (peer : PeerId)
  | event (event : CoreEvent)
  | read

namespace CoreOp

/-- The tracker after an operation; a refused snapshot leaves it as it was. -/
def apply (t : CoreTracker) : CoreOp → CoreTracker
  | attach s =>
    match t.attach s with
    | .ok (t', _) => t'
    | .error _ => t
  | setPreHaves p bits => t.setPreHaves p bits
  | addWants p ranges => t.addWants p ranges
  | addPeer p => (t.addPeer p).1
  | event e => (t.onEvent e).1
  | read => t.counts.2

/-- An operation either leaves a tracker alone, or reads it, or ends with noting a change. -/
theorem apply_cases (t : CoreTracker) (op : CoreOp) :
    op.apply t = t ∨ op.apply t = t.counts.2 ∨
      ∃ t' : CoreTracker, t'.version = t.version ∧ op.apply t = t'.changed := by
  cases op with
  | attach s =>
    simp only [apply, CoreTracker.attach]
    by_cases hkey : s.key ≠ t.key
    · rw [if_pos hkey]
      exact Or.inl rfl
    · rw [if_neg hkey]
      by_cases hattached : t.attached = true
      · rw [if_pos hattached]
        exact Or.inl rfl
      · rw [if_neg hattached]
        refine Or.inr (Or.inr ⟨_, ?_, rfl⟩)
        exact (CoreTracker.frame_foldl_connect _ _).1
  | setPreHaves p bits => exact Or.inr (Or.inr ⟨t.updatePeer p (·.setPreHaves bits), rfl, rfl⟩)
  | addWants p ranges =>
    exact Or.inr (Or.inr ⟨t.updatePeer p fun r => ranges.foldl (·.addWants ·) r, rfl, rfl⟩)
  | addPeer p =>
    simp only [apply, CoreTracker.addPeer]
    split
    · exact Or.inl rfl
    · exact Or.inr (Or.inr ⟨t.updatePeer p id, rfl, rfl⟩)
  | event e =>
    simp only [apply, CoreTracker.onEvent]
    cases he : t.afterEvent e with
    | none => exact Or.inl rfl
    | some t' => exact Or.inr (Or.inr ⟨t', (CoreTracker.frame_afterEvent he).1, rfl⟩)
  | read => exact Or.inr (Or.inl rfl)

/-- Every operation on a core, a read included, leaves its tracker fresh. -/
theorem fresh_apply {t : CoreTracker} (h : t.Fresh) (op : CoreOp) : (op.apply t).Fresh := by
  rcases op.apply_cases t with heq | heq | ⟨t', -, heq⟩
  · rw [heq]; exact h
  · rw [heq]; exact h.fresh_counts
  · rw [heq]; exact t'.fresh_changed

/-- Every operation on a core counts its version up if it changes what would be derived. -/
theorem evolves_apply (t : CoreTracker) (op : CoreOp) : t.Evolves (op.apply t) := by
  rcases op.apply_cases t with heq | heq | ⟨t', hv, heq⟩
  · rw [heq]; exact .refl t
  · rw [heq]; exact t.evolves_counts
  · rw [heq]; exact CoreTracker.evolves_changed hv

end CoreOp

/-! ## All cores of a namespace -/

namespace NamespaceTracker

/-- The counts as they follow from what is known of the cores. -/
def total (t : NamespaceTracker) : NamespaceState := .ofCores (t.cores.values.map (·.derived))

/-- What is kept, for each core and for all of them, is what would be counted anew. The marks of
kept counts come from the past, so no part of them is above the present mark. -/
structure Fresh (t : NamespaceTracker) : Prop where
  cores : ∀ key core, t.cores.get? key = some core → core.Fresh
  mark_le : ∀ kept ∈ t.cached, kept.1.1 ≤ t.mark.1 ∧ kept.1.2 ≤ t.mark.2
  total_eq : ∀ kept ∈ t.cached, kept.1 = t.mark → kept.2 = t.total

theorem fresh_ofNamespace (ns : Namespace) : (ofNamespace ns).Fresh where
  cores key core h := by contradiction
  mark_le kept h := by contradiction
  total_eq kept h := by contradiction

/-- The mark tells: where every core has evolved, the mark has not gone down, and if it is the same
then so are the counts. -/
theorem mark_of_evolves {t t' : NamespaceTracker}
    (h : ∀ key core, t.cores.get? key = some core →
      ∃ core', t'.cores.get? key = some core' ∧ core.Evolves core') :
    t.mark.1 ≤ t'.mark.1 ∧ t.mark.2 ≤ t'.mark.2 ∧ (t'.mark = t.mark → t'.total = t.total) := by
  obtain ⟨hsize, hsum, hsame⟩ := SortedMap.sumOver_values_le CoreTracker.version
    CoreTracker.derived fun key core hkey => by
      obtain ⟨core', hget, hev⟩ := h key core hkey
      exact ⟨core', hget, hev.version_le, hev.derived_eq⟩
  refine ⟨hsize, hsum, fun hmark => ?_⟩
  unfold total
  rw [hsame (congrArg Prod.fst hmark) (congrArg Prod.snd hmark)]

/-- Changes to the cores keep a namespace fresh if they are noted in the cores' versions. -/
theorem Fresh.of_evolves {t t' : NamespaceTracker} (h : t.Fresh) (hcached : t'.cached = t.cached)
    (hfresh : ∀ key core, t'.cores.get? key = some core → core.Fresh)
    (hevolves : ∀ key core, t.cores.get? key = some core →
      ∃ core', t'.cores.get? key = some core' ∧ core.Evolves core') : t'.Fresh := by
  obtain ⟨hsize, hsum, htotal⟩ := mark_of_evolves hevolves
  refine ⟨hfresh, fun kept hkept => ?_, fun kept hkept hmark => ?_⟩
  · rw [hcached] at hkept
    obtain ⟨h1, h2⟩ := h.mark_le kept hkept
    exact ⟨Nat.le_trans h1 hsize, Nat.le_trans h2 hsum⟩
  · rw [hcached] at hkept
    -- the kept mark lies below the old one, which lies below the new one, so all three agree
    obtain ⟨h1, h2⟩ := h.mark_le kept hkept
    rw [hmark] at h1 h2
    have hsame : t'.mark = t.mark :=
      Prod.ext (Nat.le_antisymm h1 hsize) (Nat.le_antisymm h2 hsum)
    rw [htotal hsame]
    exact h.total_eq kept hkept (hmark.trans hsame)

/-! ### Reads -/

/-- The cores after a read: each was asked for its counts. -/
theorem cores_summed (t : NamespaceTracker) :
    t.summed.2.cores = t.cores.mapValues fun _ core => core.counts.2 := by
  show (t.cores.mapValues fun _ core => core.counts).mapValues (fun _ r => r.2) = _
  rw [SortedMap.mapValues_mapValues]

/-- Reading the cores does not move the mark. -/
theorem mark_summed (t : NamespaceTracker) : t.summed.2.mark = t.mark := by
  unfold mark
  rw [cores_summed, SortedMap.size_mapValues, SortedMap.values_mapValues, sumOver_map]
  congr 1
  exact sumOver_congr fun core _ => by rw [core.counts_tracker]

/-- Keeping a sum does not change it. -/
theorem total_summed (t : NamespaceTracker) : t.summed.2.total = t.total := by
  unfold total
  rw [cores_summed, SortedMap.values_mapValues, List.map_map]
  congr 1
  exact List.map_congr_left fun core _ => by rw [Function.comp, core.counts_tracker]; rfl

/-- Summing up anew gives the totals, because what is kept of each core is fresh. -/
theorem Fresh.summed_eq {t : NamespaceTracker} (h : t.Fresh) : t.summed.1 = t.total := by
  unfold summed total
  simp only [SortedMap.values_mapValues, List.map_map]
  congr 1
  refine List.map_congr_left fun core hcore => ?_
  obtain ⟨e, he, rfl⟩ := List.mem_map.1 hcore
  exact (h.cores e.1 e.2 (SortedMap.get?_of_mem he)).counts_eq

theorem Fresh.fresh_summed {t : NamespaceTracker} (h : t.Fresh) : t.summed.2.Fresh where
  cores key core hkey := by
    rw [cores_summed, SortedMap.get?_mapValues] at hkey
    obtain ⟨core', hget, rfl⟩ := Option.map_eq_some_iff.1 hkey
    exact (h.cores key core' hget).fresh_counts
  mark_le kept hkept := by
    obtain rfl : (t.mark, t.summed.1) = kept := Option.some.inj hkept
    rw [mark_summed]
    exact ⟨Nat.le_refl _, Nat.le_refl _⟩
  total_eq kept hkept _ := by
    obtain rfl : (t.mark, t.summed.1) = kept := Option.some.inj hkept
    rw [total_summed]
    exact h.summed_eq

/-- Asking for the counts either finds kept ones or sums up anew. -/
theorem state_cases (t : NamespaceTracker) :
    (∃ kept ∈ t.cached, kept.1 = t.mark ∧ t.state = (kept.2, t)) ∨ t.state = t.summed := by
  unfold state
  cases hc : t.cached with
  | none => exact Or.inr rfl
  | some kept =>
    obtain ⟨mark, state⟩ := kept
    simp only
    split
    · next hmark => exact Or.inl ⟨_, rfl, hmark, rfl⟩
    · exact Or.inr rfl

/-- A fresh namespace reports its totals. -/
theorem Fresh.state_eq {t : NamespaceTracker} (h : t.Fresh) : t.state.1 = t.total := by
  rcases t.state_cases with ⟨kept, hkept, hmark, hstate⟩ | hstate
  · rw [hstate]
    exact h.total_eq kept hkept hmark
  · rw [hstate]
    exact h.summed_eq

theorem Fresh.fresh_state {t : NamespaceTracker} (h : t.Fresh) : t.state.2.Fresh := by
  rcases t.state_cases with ⟨kept, -, -, hstate⟩ | hstate
  · rw [hstate]
    exact h
  · rw [hstate]
    exact h.fresh_summed

/-! ### Changes -/

/-- A core may be put in place of the one it has evolved from, or of none. -/
theorem Fresh.fresh_setCore {t : NamespaceTracker} (h : t.Fresh) {key : DiscoveryKey}
    {core : CoreTracker} (hfresh : core.Fresh) (hevolves : (t.core key).Evolves core) :
    (t.setCore key core).Fresh := by
  have hget (k : DiscoveryKey) : (t.setCore key core).cores.get? k
      = if k = key then some core else t.cores.get? k := SortedMap.get?_insert _ _ _ _
  refine h.of_evolves rfl (fun k c hk => ?_) (fun k c hk => ?_)
  · rw [hget] at hk
    split at hk
    · obtain rfl := Option.some.inj hk
      exact hfresh
    · exact h.cores k c hk
  · rw [hget]
    split
    · next heq =>
      subst heq
      have hcore : t.core k = c := by rw [NamespaceTracker.core, hk]; rfl
      exact ⟨core, rfl, hcore ▸ hevolves⟩
    · exact ⟨c, hk, .refl c⟩

/-- Every core of a fresh namespace is fresh, and so is one that is not there yet. -/
theorem Fresh.fresh_core {t : NamespaceTracker} (h : t.Fresh) (key : DiscoveryKey) :
    (t.core key).Fresh := by
  unfold core
  cases hk : t.cores.get? key with
  | none => exact CoreTracker.fresh_ofKey key
  | some c => exact h.cores key c hk

/-- The same operation may be done on every core. -/
theorem Fresh.fresh_mapCores {t : NamespaceTracker} (h : t.Fresh) (op : CoreOp) :
    Fresh { t with cores := t.cores.mapValues fun _ core => op.apply core } := by
  refine h.of_evolves rfl (fun k c hk => ?_) (fun k c hk => ?_)
  · rw [SortedMap.get?_mapValues] at hk
    obtain ⟨c', hget, rfl⟩ := Option.map_eq_some_iff.1 hk
    exact op.fresh_apply (h.cores k c' hget)
  · rw [SortedMap.get?_mapValues, hk]
    exact ⟨_, rfl, op.evolves_apply c⟩

end NamespaceTracker

/-- What can be done to a namespace: every way to change it or one of its cores, and to read it. -/
inductive NamespaceOp where
  | ensure (key : DiscoveryKey)
  | addPeer (peer : PeerId)
  /-- Something is done to a core, if it is tracked. -/
  | core (key : DiscoveryKey) (op : CoreOp)
  | read

namespace NamespaceOp

/-- The namespace after an operation. -/
def apply (t : NamespaceTracker) : NamespaceOp → NamespaceTracker
  | ensure key => t.ensure key
  | addPeer p => t.addPeer p
  | core key op => if t.contains key then t.setCore key (op.apply (t.core key)) else t
  | read => t.state.2

theorem fresh_apply {t : NamespaceTracker} (h : t.Fresh) (op : NamespaceOp) :
    (op.apply t).Fresh := by
  cases op with
  | ensure key => exact h.fresh_setCore (h.fresh_core key) (.refl _)
  | addPeer p => exact h.fresh_mapCores (.addPeer p)
  | core key op =>
    simp only [apply]
    split
    · exact h.fresh_setCore (op.fresh_apply (h.fresh_core key)) (op.evolves_apply _)
    · exact h
  | read => exact h.fresh_state

/-- Whatever is done to a fresh namespace, it stays fresh. -/
theorem fresh_run {t : NamespaceTracker} (h : t.Fresh) (ops : List NamespaceOp) :
    (ops.foldl apply t).Fresh := by
  induction ops generalizing t with
  | nil => exact h
  | cons op ops ih => exact ih (op.fresh_apply h)

end NamespaceOp

/-- **Kept counts are never stale.** Whatever was done to a namespace and its cores, in any order
and with any reads in between: a core reports the counts that follow from its present length and
records, and the namespace reports what the counts of all its cores amount to. -/
theorem NamespaceTracker.counts_never_stale (ns : Namespace) (ops : List NamespaceOp) :
    let t := ops.foldl NamespaceOp.apply (ofNamespace ns)
    let anew (core : CoreTracker) : CoreCounts := .derive core.length core.localPeer core.remotes
    (∀ key core, t.cores.get? key = some core → core.counts.1 = anew core) ∧
      t.state.1 = .ofCores (t.cores.values.map anew) ∧
      t.state.1.Aggregates (t.cores.values.map anew) := by
  intro t anew
  have hfresh : t.Fresh := NamespaceOp.fresh_run (fresh_ofNamespace ns) ops
  refine ⟨fun key core hkey => (hfresh.cores key core hkey).counts_eq, hfresh.state_eq, ?_⟩
  rw [hfresh.state_eq]
  exact NamespaceState.aggregates_ofCores _

end LogSync
