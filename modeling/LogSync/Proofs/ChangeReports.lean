import LogSync.Proofs.Mirroring

/-!
# What a tracker reports is what has changed

An operation on a core's tracker reports whether it has changed anything, and whoever does not hear
of a change derives nothing anew. An event could change something all the same and not report it,
for some of them write before it shows whether anything is new (`CoreTracker.write`). None does:
where nothing was new, what was written was there before (`CoreTracker.onEvent_eq_write`). So an
operation that reports no change leaves the tracker as it was, and one that reports a change raises
the version by one and drops the counts that were kept (`CoreTracker.change_reports_hold`).

Along any operations a tracker only grows (`CoreTracker.Grows`).
-/

namespace LogSync

/-! ## What is said -/

/-- Whether an operation on a tracker reports a change. A snapshot that is refused reports none, and
what a peer announces or wants counts as a change in any case. A read makes no report. -/
def CoreOp.report? (t : CoreTracker) : CoreOp → Option Bool
  | attach s =>
    match t.attach s with
    | .ok (_, new) => some new
    | .error _ => some false
  | setPreHaves _ _ | addWants _ _ => some true
  | addPeer p => some (t.addPeer p).2
  | event e => some (t.onEvent e).2
  | read => none

namespace CoreTracker

/-- What an event of the core writes, and whether it counts as a change. The loss of a connection and
a stored block are written before it is known whether they are news. -/
def write (t : CoreTracker) : CoreEvent → CoreTracker × Bool
  | .peerAdd p bits => (t.connect p bits, true)
  | .peerRemove p =>
    match t.remotes.get? p with
    | some r =>
      let (r, wasConnected) := r.setConnected false
      ({ t with remotes := t.remotes.insert p r }, wasConnected)
    | none => (t, false)
  | .peerBitfield p bits => (t.updatePeer p (·.setHaves bits), true)
  | .peerRange p range value => (t.updatePeer p (·.reportRange range value), true)
  | .download index =>
    let (r, stored) := t.localPeer.reportBlock index true
    ({ t with localPeer := r }, stored)
  | .append length writtenLocally =>
    if length ≤ t.length then (t, false)
    else
      let added : BlockRange := ⟨t.length, length - t.length⟩
      ({ t with
        length
        localPeer := if writtenLocally then t.localPeer.reportRange added true else t.localPeer },
        true)
  | .clear range => ({ t with localPeer := t.localPeer.reportRange range false }, true)

/-- A tracker before and after some operations: it is about the same core, and what it has counted
or come to know is not taken back. -/
structure Grows (t t' : CoreTracker) : Prop where
  key_eq : t'.key = t.key
  length_le : t.length ≤ t'.length
  version_le : t.version ≤ t'.version
  attached : t.attached = true → t'.attached = true
  known : ∀ p, t.remotes.contains p = true → t'.remotes.contains p = true

end CoreTracker

/-! ## Writes that are no news -/

namespace PeerRecord

/-- A block that was reported before is not written: its bitmap is there, and has the bit. -/
theorem reportBlock_of_not_changed {r : PeerRecord} {index : Nat}
    (h : (r.reportBlock index true).2 = false) : (r.reportBlock index true).1 = r := by
  rw [reportBlock_changed, Bool.not_eq_false'] at h
  obtain ⟨preHaves, haves, wants, connected⟩ := r
  cases haves with
  | none => contradiction
  | some b =>
    have hset : (b.set index true).1 = b := by
      unfold Bitmap.set
      rw [if_pos (show b.get index = true from h)]
    show PeerRecord.mk preHaves (some (b.set index true).1) wants connected = _
    rw [hset]

/-- A connection that is not reported as changed is as it was. -/
theorem setConnected_of_not_changed {r : PeerRecord} {connected : Bool}
    (h : (r.setConnected connected).2 = false) : (r.setConnected connected).1 = r := by
  obtain rfl : r.connected = connected := bne_eq_false_iff_eq.1 h
  rfl

end PeerRecord

namespace CoreTracker

/-- An event that is no news has written nothing that was not there before. -/
theorem write_of_not_changed {t : CoreTracker} {e : CoreEvent} (h : (t.write e).2 = false) :
    (t.write e).1 = t := by
  cases e with
  | peerRemove p =>
    simp only [write] at h ⊢
    cases hr : t.remotes.get? p with
    | none => rfl
    | some r =>
      simp only [hr] at h ⊢
      rw [PeerRecord.setConnected_of_not_changed h, SortedMap.insert_self hr]
  | download index =>
    show { t with localPeer := (t.localPeer.reportBlock index true).1 } = t
    rw [PeerRecord.reportBlock_of_not_changed h]
  | append length writtenLocally =>
    simp only [write] at h ⊢
    by_cases hlength : length ≤ t.length
    · rw [if_pos hlength]
    · rw [if_neg hlength] at h
      exact absurd h (Ne.symm Bool.false_ne_true)
  | _ => exact absurd h (Ne.symm Bool.false_ne_true)

/-- What is noted as a change is what has been written. -/
theorem afterEvent_eq_write (t : CoreTracker) (e : CoreEvent) :
    t.afterEvent e = if (t.write e).2 then some (t.write e).1 else none := by
  cases e with
  | peerRemove p =>
    simp only [afterEvent, write, isConnected]
    obtain hr | ⟨r, hr⟩ := Option.eq_none_or_eq_some (t.remotes.get? p)
    · simp only [hr]
      rfl
    · have hremoved : t.updatePeer p (fun r => (r.setConnected false).1)
          = { t with remotes := t.remotes.insert p (r.setConnected false).1 } := by
        unfold updatePeer SortedMap.upsert
        rw [hr, Option.getD_some]
      have hwas : (r.setConnected false).2 = r.connected := Bool.bne_false r.connected
      simp only [hr, hremoved, hwas, Option.any_some]
  | append length writtenLocally =>
    simp only [afterEvent, write]
    by_cases hlength : length ≤ t.length
    · rw [if_pos hlength, if_pos hlength]
      rfl
    · rw [if_neg hlength, if_neg hlength]
      rfl
  | _ => rfl

/-- An event that is taken in write by write leaves a tracker as it should. -/
theorem onEvent_eq_write (t : CoreTracker) (e : CoreEvent) :
    t.onEvent e = if (t.write e).2 then ((t.write e).1.changed, true) else t.write e := by
  unfold onEvent
  rw [afterEvent_eq_write]
  cases hchanged : (t.write e).2 with
  | true => rfl
  | false =>
    rw [if_neg Bool.false_ne_true, if_neg Bool.false_ne_true]
    exact Prod.ext (write_of_not_changed hchanged).symm hchanged.symm

/-! ## Growth -/

theorem Grows.refl (t : CoreTracker) : t.Grows t :=
  ⟨rfl, Nat.le_refl _, Nat.le_refl _, id, fun _ => id⟩

theorem Grows.trans {t t' t'' : CoreTracker} (h : t.Grows t') (h' : t'.Grows t'') : t.Grows t'' where
  key_eq := h'.key_eq.trans h.key_eq
  length_le := Nat.le_trans h.length_le h'.length_le
  version_le := Nat.le_trans h.version_le h'.version_le
  attached := h'.attached ∘ h.attached
  known p := h'.known p ∘ h.known p

theorem grows_changed (t : CoreTracker) : t.Grows t.changed :=
  ⟨rfl, Nat.le_refl _, Nat.le_succ _, id, fun _ => id⟩

/-- A record that is changed stays, and so do the others. -/
theorem grows_updatePeer (t : CoreTracker) (p : PeerId) (f : PeerRecord → PeerRecord) :
    t.Grows (t.updatePeer p f) where
  key_eq := rfl
  length_le := Nat.le_refl _
  version_le := Nat.le_refl _
  attached := id
  known q hq := by
    show (t.remotes.insert p _).contains q = true
    rw [SortedMap.contains_insert, hq, Bool.or_true]

theorem grows_foldl_connect (peers : List (PeerId × Bitmap)) (t : CoreTracker) :
    t.Grows (peers.foldl (fun t p => t.connect p.1 p.2) t) := by
  induction peers generalizing t with
  | nil => exact .refl t
  | cons p peers ih => exact (t.grows_updatePeer p.1 _).trans (ih _)

/-- An event takes nothing back: even a clear leaves the length as it is. -/
theorem grows_afterEvent {t t' : CoreTracker} {e : CoreEvent} (h : t.afterEvent e = some t') :
    t.Grows t' := by
  cases e <;> simp only [afterEvent] at h
  case peerRemove p =>
    split at h
    · cases h
      exact t.grows_updatePeer p _
    · contradiction
  case download index =>
    split at h
    · cases h
      exact ⟨rfl, Nat.le_refl _, Nat.le_refl _, id, fun _ => id⟩
    · contradiction
  case append length writtenLocally =>
    split at h
    · contradiction
    · next hlength =>
      cases h
      exact ⟨rfl, Nat.le_of_not_le hlength, Nat.le_refl _, id, fun _ => id⟩
  case clear range =>
    cases h
    exact ⟨rfl, Nat.le_refl _, Nat.le_refl _, id, fun _ => id⟩
  all_goals
    cases h
    exact t.grows_updatePeer _ _

end CoreTracker

/-! ## One operation -/

namespace CoreOp

/-- An operation other than a read either reports no change and leaves a tracker alone, or it
reports a change and ends with noting it. -/
theorem report_cases (t : CoreTracker) {op : CoreOp} (hop : op ≠ .read) :
    op.report? t = some false ∧ op.apply t = t ∨
      op.report? t = some true ∧
        ∃ t' : CoreTracker, t.Grows t' ∧ t'.version = t.version ∧ op.apply t = t'.changed := by
  cases op with
  | attach s =>
    simp only [report?, apply, CoreTracker.attach]
    by_cases hkey : s.key ≠ t.key
    · rw [if_pos hkey]
      exact Or.inl ⟨rfl, rfl⟩
    · rw [if_neg hkey]
      by_cases hattached : t.attached = true
      · rw [if_pos hattached]
        exact Or.inl ⟨rfl, rfl⟩
      · rw [if_neg hattached]
        let bound : CoreTracker := { t with
          attached := true
          length := max t.length s.length
          localPeer := t.localPeer.setHaves s.localBits }
        have hbound : t.Grows bound :=
          ⟨rfl, Nat.le_max_left _ _, Nat.le_refl _, fun _ => rfl, fun _ => id⟩
        exact Or.inr ⟨rfl, _, hbound.trans (CoreTracker.grows_foldl_connect s.peers bound),
          (CoreTracker.frame_foldl_connect s.peers bound).1, rfl⟩
  | setPreHaves p bits => exact Or.inr ⟨rfl, _, t.grows_updatePeer p _, rfl, rfl⟩
  | addWants p ranges => exact Or.inr ⟨rfl, _, t.grows_updatePeer p _, rfl, rfl⟩
  | addPeer p =>
    simp only [report?, apply, CoreTracker.addPeer]
    by_cases hknown : t.remotes.contains p = true
    · rw [if_pos hknown]
      exact Or.inl ⟨rfl, rfl⟩
    · rw [if_neg hknown]
      exact Or.inr ⟨rfl, _, t.grows_updatePeer p _, rfl, rfl⟩
  | event e =>
    simp only [report?, apply, CoreTracker.onEvent]
    cases he : t.afterEvent e with
    | none => exact Or.inl ⟨rfl, rfl⟩
    | some t' =>
      exact Or.inr ⟨rfl, t', CoreTracker.grows_afterEvent he, (CoreTracker.frame_afterEvent he).1, rfl⟩
  | read => contradiction

/-- No operation takes anything back. -/
theorem grows_apply (t : CoreTracker) (op : CoreOp) : t.Grows (op.apply t) := by
  by_cases hop : op = .read
  · rw [hop]
    show t.Grows t.counts.2
    rw [t.counts_tracker]
    exact ⟨rfl, Nat.le_refl _, Nat.le_refl _, id, fun _ => id⟩
  · rcases report_cases t hop with ⟨-, hsame⟩ | ⟨-, t', hgrows, -, hchanged⟩
    · rw [hsame]
      exact .refl t
    · rw [hchanged]
      exact hgrows.trans t'.grows_changed

end CoreOp

/-! ## All operations -/

namespace CoreTracker

/-- **Reports of changes can be trusted.** An operation that reports no change, be it a snapshot
that is refused, leaves the tracker as it was in every part; an operation that reports a change
raises the version by exactly one and drops the counts that were kept; and all operations but reads
make a report. An event that is taken in write by write comes to the same, so nothing is written
without a report. Along any operations, reads among them, the tracker only grows. -/
theorem change_reports_hold (t : CoreTracker) :
    (∀ op : CoreOp,
      (op.report? t = none ↔ op = .read) ∧
      (op.report? t = some false → op.apply t = t) ∧
      (op.report? t = some true →
        (op.apply t).version = t.version + 1 ∧ (op.apply t).cached = none)) ∧
      (∀ e : CoreEvent,
        t.onEvent e = if (t.write e).2 then ((t.write e).1.changed, true) else t.write e) ∧
      ∀ ops : List CoreOp, t.Grows (ops.foldl CoreOp.apply t) := by
  refine ⟨fun op => ?_, t.onEvent_eq_write, fun ops => ?_⟩
  · by_cases hop : op = .read
    · rw [hop]
      exact ⟨iff_of_true rfl rfl, nofun, nofun⟩
    · rcases op.report_cases t hop with ⟨hreport, hsame⟩ | ⟨hreport, t', -, hversion, hchanged⟩
      · rw [hreport]
        exact ⟨iff_of_false nofun hop, fun _ => hsame, nofun⟩
      · rw [hreport, hchanged]
        exact ⟨iff_of_false nofun hop, nofun, fun _ => ⟨congrArg (· + 1) hversion, rfl⟩⟩
  · exact List.foldlRecOn ops CoreOp.apply (.refl t) fun t' h op _ => h.trans (op.grows_apply t')

-- a stored block is news once, and the connection of an unknown peer cannot be lost
example :
    let t := (CoreOp.event (.download 3)).apply (ofKey default)
    (CoreOp.event (.download 3)).report? (ofKey default) = some true ∧
      (CoreOp.event (.download 3)).report? t = some false ∧
      (CoreOp.event (.peerRemove ⟨⟨1⟩⟩)).report? t = some false ∧ t.version = 1 := by
  decide +kernel

end CoreTracker

end LogSync
