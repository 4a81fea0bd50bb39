import LogSync.Proofs.BitmapWrites
import LogSync.Proofs.FreshCounts
import LogSync.Simulation.MemoryCore

/-!
# A tracker mirrors its core

A tracker is told of every change of a core from some moment on, and takes a snapshot of the core
some time later. What happens in between reaches it twice: it shows in the snapshot, and it comes
as events. That this does no harm can be seen one bit at a time. To one bit of one peer a change of
the core does nothing, or it sets the bit if the peer is connected, or it gives a value that does
not depend on the one before; a series of changes does one of these things too
(`settlesBit_foldl`), and to do any of them twice is to do it once (`SettlesBit.twice`). The length
and the local blocks only grow, so an event that the snapshot shows already changes neither
(`hear_shown`).
-/

namespace LogSync

/-! ## What is said -/

namespace MemoryCore

/-- The core after some changes. -/
def after (c : MemoryCore) (changes : List CoreChange) : MemoryCore :=
  changes.foldl (fun c change => (c.apply change).1) c

/-- The events that report some changes, in order. -/
def reports (c : MemoryCore) : List CoreChange → List CoreEvent
  | [] => []
  | change :: rest => (c.apply change).2 :: (c.apply change).1.reports rest

end MemoryCore

/-- What can be learned of a peer ahead of a core. -/
inductive AdvanceNews where
  /-- It has said what it has. -/
  | preHaves (peer : PeerId) (bits : Bitmap)
  /-- It has said what it wants. -/
  | wants (peer : PeerId) (ranges : List BlockRange)
  /-- It may sync the core. -/
  | member (peer : PeerId)

namespace CoreTracker

/-- The tracker after a piece of news. -/
def note (t : CoreTracker) : AdvanceNews → CoreTracker
  | .preHaves p bits => t.setPreHaves p bits
  | .wants p ranges => t.addWants p ranges
  | .member p => (t.addPeer p).1

/-- The tracker of a core of which only news ahead of it are known. -/
def ofNews (key : DiscoveryKey) (news : List AdvanceNews) : CoreTracker :=
  news.foldl note (ofKey key)

/-- The tracker after some events. -/
def hear (t : CoreTracker) (events : List CoreEvent) : CoreTracker :=
  events.foldl (fun t event => (t.onEvent event).1) t

/-- What is known of a peer. -/
def record (t : CoreTracker) (p : PeerId) : PeerRecord := (t.remotes.get? p).getD {}

/-- The tracker has the length of the core and its local blocks. -/
structure MirrorsLocal (t : CoreTracker) (c : MemoryCore) : Prop where
  length : t.length = c.length
  has : ∀ i, t.localPeer.has i = c.localBits.get i

/-- The tracker shows the core as it is: its length, the local blocks, who is connected, and what
each connected peer reports to have. -/
structure Mirrors (t : CoreTracker) (c : MemoryCore) : Prop extends t.MirrorsLocal c where
  connected : ∀ p, t.isConnected p = c.peers.contains p
  haves : ∀ p bits i, c.peers.get? p = some bits →
    (t.record p).haves.any (·.get i) = bits.get i

end CoreTracker

/-! ## Histories of a core -/

namespace MemoryCore

/-- The events of a history are those of its first part and then those of its second. -/
theorem reports_append (c : MemoryCore) (changes changes' : List CoreChange) :
    c.reports (changes ++ changes') = c.reports changes ++ (c.after changes).reports changes' := by
  induction changes generalizing c with
  | nil => rfl
  | cons change rest ih => exact congrArg _ (ih (c.apply change).1)

theorem key_after (c : MemoryCore) (changes : List CoreChange) : (c.after changes).key = c.key := by
  induction changes generalizing c with
  | nil => rfl
  | cons change rest ih =>
    have hkey : (c.apply change).1.key = c.key := by cases change <;> rfl
    exact (ih (c.apply change).1).trans hkey

/-- A core does not get shorter and loses no block. -/
theorem grows_apply (c : MemoryCore) (change : CoreChange) :
    c.length ≤ (c.apply change).1.length ∧
      ∀ i, c.localBits.get i = true → (c.apply change).1.localBits.get i = true := by
  cases change with
  | connectPeer p bits => exact ⟨Nat.le_refl _, fun _ => id⟩
  | disconnectPeer p => exact ⟨Nat.le_refl _, fun _ => id⟩
  | peerHasRange p range => exact ⟨Nat.le_refl _, fun _ => id⟩
  | download index =>
    refine ⟨Nat.le_refl _, fun i hi => ?_⟩
    show (c.localBits.set index true).1.get i = true
    rw [Bitmap.get_set, hi, ite_self]
  | append count =>
    refine ⟨Nat.le_add_right _ _, fun i hi => ?_⟩
    show (c.localBits.setRange ⟨c.length, count⟩ true).get i = true
    rw [Bitmap.get_setRange, hi, ite_self]

/-- Over a history too, a core does not get shorter and loses no block. -/
theorem grows_after (c : MemoryCore) (changes : List CoreChange) :
    c.length ≤ (c.after changes).length ∧
      ∀ i, c.localBits.get i = true → (c.after changes).localBits.get i = true := by
  induction changes generalizing c with
  | nil => exact ⟨Nat.le_refl _, fun _ => id⟩
  | cons change rest ih =>
    obtain ⟨hlength, hbits⟩ := c.grows_apply change
    obtain ⟨hlength', hbits'⟩ := ih (c.apply change).1
    exact ⟨Nat.le_trans hlength hlength', fun i hi => hbits' i (hbits i hi)⟩

end MemoryCore

/-! ## Records of peers -/

namespace CoreTracker

/-- A change of one peer's record leaves all others as they are. -/
theorem record_updatePeer (t : CoreTracker) (p q : PeerId) (f : PeerRecord → PeerRecord) :
    (t.updatePeer p f).record q = if q = p then f (t.record p) else t.record q := by
  unfold record updatePeer
  rw [SortedMap.get?_upsert]
  split <;> rfl

theorem isConnected_eq (t : CoreTracker) (p : PeerId) :
    t.isConnected p = (t.record p).connected := by
  unfold isConnected record
  cases t.remotes.get? p <;> rfl

/-- Connecting the peers of a snapshot gives each its blocks. -/
theorem record_foldl_connect (t : CoreTracker) (peers : SortedMap PeerId Bitmap) (p : PeerId) :
    (peers.toList.foldl (fun t e => t.connect e.1 e.2) t).record p
      = (peers.get? p).elim (t.record p) fun bits =>
          { t.record p with connected := true, haves := some bits } := by
  have hremotes (l : List (PeerId × Bitmap)) (t : CoreTracker) :
      (l.foldl (fun t e => t.connect e.1 e.2) t).remotes
        = l.foldl (fun m e => m.upsert e.1 {} fun r => (r.setConnected true).1.setHaves e.2)
            t.remotes := by
    induction l generalizing t with
    | nil => rfl
    | cons e l ih => exact ih (t.connect e.1 e.2)
  unfold record
  rw [hremotes, SortedMap.get?_foldl_upsert ({} : PeerRecord)
    (fun bits r => (r.setConnected true).1.setHaves bits) peers.ascending]
  show Option.getD (Option.elim (peers.get? p) _ _) _ = _
  cases peers.get? p <;> rfl

/-- An event changes neither what a peer has announced nor what it wants. -/
theorem declared_onEvent (t : CoreTracker) (event : CoreEvent) (p : PeerId) :
    ((t.onEvent event).1.record p).preHaves = (t.record p).preHaves ∧
      ((t.onEvent event).1.record p).wants = (t.record p).wants := by
  have hpeer (q : PeerId) {f : PeerRecord → PeerRecord}
      (hf : ∀ r, (f r).preHaves = r.preHaves ∧ (f r).wants = r.wants) :
      ((t.updatePeer q f).record p).preHaves = (t.record p).preHaves ∧
        ((t.updatePeer q f).record p).wants = (t.record p).wants := by
    rw [record_updatePeer]
    split
    · next hpq => exact hpq ▸ hf _
    · exact ⟨rfl, rfl⟩
  unfold onEvent afterEvent
  cases event with
  | peerAdd q bits => exact hpeer q fun r => ⟨rfl, rfl⟩
  | peerRemove q =>
    by_cases hconnected : t.isConnected q = true
    · simp only [if_pos hconnected]
      exact hpeer q fun r => ⟨rfl, rfl⟩
    · simp only [if_neg hconnected, and_self]
  | peerBitfield q bits => exact hpeer q fun r => ⟨rfl, rfl⟩
  | peerRange q range value => exact hpeer q fun r => ⟨rfl, rfl⟩
  | download index =>
    by_cases hstored : (t.localPeer.reportBlock index true).2 = true
    · simp only [if_pos hstored]
      exact ⟨rfl, rfl⟩
    · simp only [if_neg hstored, and_self]
  | append length writtenLocally =>
    by_cases hlength : length ≤ t.length
    · simp only [if_pos hlength, and_self]
    · simp only [if_neg hlength]
      exact ⟨rfl, rfl⟩
  | clear range => exact ⟨rfl, rfl⟩

/-- Nor does a snapshot. -/
theorem declared_attach (t : CoreTracker) (snapshot : CoreSnapshot) (p : PeerId) :
    (((CoreOp.attach snapshot).apply t).record p).preHaves = (t.record p).preHaves ∧
      (((CoreOp.attach snapshot).apply t).record p).wants = (t.record p).wants := by
  have hconnect (peers : List (PeerId × Bitmap)) (t : CoreTracker) :
      ((peers.foldl (fun t e => t.connect e.1 e.2) t).record p).preHaves = (t.record p).preHaves ∧
        ((peers.foldl (fun t e => t.connect e.1 e.2) t).record p).wants = (t.record p).wants := by
    induction peers generalizing t with
    | nil => exact ⟨rfl, rfl⟩
    | cons e rest ih =>
      have hone : ((t.connect e.1 e.2).record p).preHaves = (t.record p).preHaves ∧
          ((t.connect e.1 e.2).record p).wants = (t.record p).wants := by
        unfold connect
        rw [record_updatePeer]
        split
        · next hp => exact hp ▸ ⟨rfl, rfl⟩
        · exact ⟨rfl, rfl⟩
      obtain ⟨hpre, hwants⟩ := ih (t.connect e.1 e.2)
      exact ⟨hpre.trans hone.1, hwants.trans hone.2⟩
  simp only [CoreOp.apply, attach]
  by_cases hkey : snapshot.key ≠ t.key
  · rw [if_pos hkey]
    exact ⟨rfl, rfl⟩
  · rw [if_neg hkey]
    by_cases hattached : t.attached = true
    · rw [if_pos hattached]
      exact ⟨rfl, rfl⟩
    · rw [if_neg hattached]
      exact hconnect snapshot.peers _

/-- What a peer has announced and what it wants outlive any number of events. -/
theorem declared_hear (t : CoreTracker) (events : List CoreEvent) (p : PeerId) :
    ((t.hear events).record p).preHaves = (t.record p).preHaves ∧
      ((t.hear events).record p).wants = (t.record p).wants := by
  induction events generalizing t with
  | nil => exact ⟨rfl, rfl⟩
  | cons event rest ih =>
    obtain ⟨hpre, hwants⟩ := t.declared_onEvent event p
    obtain ⟨hpre', hwants'⟩ := ih (t.onEvent event).1
    exact ⟨hpre'.trans hpre, hwants'.trans hwants⟩

/-! ## One bit of one peer -/

/-- What a connected peer reports of a block. -/
def liveBit (t : CoreTracker) (p : PeerId) (i : Nat) : Option Bool :=
  if (t.record p).connected then some ((t.record p).haves.any (·.get i)) else none

end CoreTracker

/-- What a connected peer has of a block. -/
def MemoryCore.liveBit (c : MemoryCore) (p : PeerId) (i : Nat) : Option Bool :=
  (c.peers.get? p).map (·.get i)

/-- What a change of a core does to a block of a peer. -/
def CoreChange.onBit (p : PeerId) (i : Nat) (bit : Option Bool) : CoreChange → Option Bool
  | .connectPeer q bits => if p = q then some (bits.get i) else bit
  | .disconnectPeer q => if p = q then none else bit
  | .peerHasRange q range => if p = q then bit.map (range.covers i || ·) else bit
  | .download _ | .append _ => bit

section
variable (p : PeerId) (i : Nat)

/-- A bit sees of a change only what the change does to bits. -/
theorem MemoryCore.liveBit_apply (c : MemoryCore) (change : CoreChange) :
    (c.apply change).1.liveBit p i = change.onBit p i (c.liveBit p i) := by
  cases change with
  | connectPeer q bits =>
    show ((c.peers.insert q bits).get? p).map (·.get i) = _
    rw [SortedMap.get?_insert]
    by_cases h : p = q <;> simp [CoreChange.onBit, MemoryCore.liveBit, h]
  | disconnectPeer q =>
    show ((c.peers.erase q).get? p).map (·.get i) = _
    rw [SortedMap.get?_erase]
    by_cases h : p = q <;> simp [CoreChange.onBit, MemoryCore.liveBit, h]
  | peerHasRange q range =>
    show ((c.peers.modify q (·.setRange range true)).get? p).map (·.get i) = _
    rw [SortedMap.get?_modify]
    by_cases h : p = q
    · simp only [CoreChange.onBit, MemoryCore.liveBit, if_pos h, Option.map_map]
      congr 1
      funext bits
      rw [Function.comp, Function.comp, Bitmap.get_setRange]
      cases range.covers i <;> rfl
    · simp only [CoreChange.onBit, MemoryCore.liveBit, if_neg h]
  | download index => rfl
  | append count => rfl

/-- An event of a peer changes the record of that peer. -/
theorem CoreTracker.liveBit_updatePeer (t : CoreTracker) (q : PeerId)
    (f : PeerRecord → PeerRecord) :
    (t.updatePeer q f).changed.liveBit p i
      = if p = q then
          if (f (t.record q)).connected then some ((f (t.record q)).haves.any (·.get i)) else none
        else t.liveBit p i := by
  have hrecord : (t.updatePeer q f).changed.record p
      = if p = q then f (t.record q) else t.record p := t.record_updatePeer q p f
  unfold liveBit
  rw [hrecord]
  by_cases h : p = q <;> simp [h]

/-- To a bit, the event of a change does what the change does. -/
theorem CoreTracker.liveBit_onEvent (t : CoreTracker) (c : MemoryCore) (change : CoreChange) :
    (t.onEvent (c.apply change).2).1.liveBit p i = change.onBit p i (t.liveBit p i) := by
  cases change with
  | connectPeer q bits =>
    show (t.updatePeer q _).changed.liveBit p i = _
    rw [liveBit_updatePeer]
    rfl
  | disconnectPeer q =>
    simp only [MemoryCore.apply, onEvent, afterEvent]
    by_cases hconnected : t.isConnected q = true
    · simp only [if_pos hconnected]
      rw [liveBit_updatePeer]
      rfl
    · -- a peer that is not connected has nothing to lose
      simp only [if_neg hconnected]
      rw [isConnected_eq] at hconnected
      by_cases h : p = q <;> simp [CoreChange.onBit, liveBit, h, hconnected]
  | peerHasRange q range =>
    show (t.updatePeer q _).changed.liveBit p i = _
    rw [liveBit_updatePeer]
    simp only [CoreChange.onBit]
    split
    · next h =>
      subst h
      have hbit : ((t.record p).reportRange range true).haves.any (·.get i)
          = (range.covers i || (t.record p).haves.any (·.get i)) := by
        show Bitmap.get (Bitmap.setRange _ range true) i = _
        rw [Bitmap.get_setRange, Bitmap.get_getD_empty]
        cases range.covers i <;> rfl
      rw [hbit]
      unfold liveBit
      show (if (t.record p).connected then _ else _) = _
      split <;> rfl
    · rfl
  | download index =>
    simp only [MemoryCore.apply, onEvent, afterEvent]
    by_cases hstored : (t.localPeer.reportBlock index true).2 = true
    · simp only [if_pos hstored]
      rfl
    · simp only [if_neg hstored]
      rfl
  | append count =>
    simp only [MemoryCore.apply, onEvent, afterEvent]
    by_cases hlength : c.length + count ≤ t.length
    · simp only [if_pos hlength]
      rfl
    · simp only [if_neg hlength]
      rfl

end

/-! ## Doing it twice -/

/-- A function of a bit that forgets the bit, or at most sets it if the peer is connected. -/
def SettlesBit (f : Option Bool → Option Bool) : Prop :=
  (∃ value, ∀ bit, f bit = value) ∨ ∃ set, ∀ bit, f bit = bit.map (set || ·)

namespace SettlesBit

variable {f g : Option Bool → Option Bool}

theorem refl : SettlesBit id := Or.inr ⟨false, fun bit => by cases bit <;> rfl⟩

/-- What settles a bit settles it still after another has, since to forget or to set is to do so for
good. -/
theorem comp (hg : SettlesBit g) (hf : SettlesBit f) : SettlesBit fun bit => g (f bit) := by
  rcases hg with ⟨value, hg⟩ | ⟨set, hg⟩
  · exact Or.inl ⟨value, fun bit => hg (f bit)⟩
  · rcases hf with ⟨value, hf⟩ | ⟨set', hf⟩
    · refine Or.inl ⟨value.map (set || ·), fun bit => ?_⟩
      show g (f bit) = _
      rw [hg, hf]
    · refine Or.inr ⟨set || set', fun bit => ?_⟩
      show g (f bit) = _
      rw [hg, hf]
      cases bit with
      | none => rfl
      | some b => exact congrArg some (Bool.or_assoc set set' b).symm

/-- To settle a bit twice is to settle it once. -/
theorem twice (hf : SettlesBit f) (bit : Option Bool) : f (f bit) = f bit := by
  rcases hf with ⟨value, hf⟩ | ⟨set, hf⟩
  · rw [hf, hf]
  · rw [hf, hf]
    cases bit with
    | none => rfl
    | some b => cases set <;> rfl

end SettlesBit

namespace CoreChange

variable (p : PeerId) (i : Nat)

/-- A single change of a core settles every bit. -/
theorem settlesBit_onBit (change : CoreChange) :
    SettlesBit fun bit => change.onBit p i bit := by
  have hother : SettlesBit fun bit => bit := .refl
  cases change with
  | connectPeer q bits =>
    simp only [onBit]
    split
    · exact Or.inl ⟨_, fun _ => rfl⟩
    · exact hother
  | disconnectPeer q =>
    simp only [onBit]
    split
    · exact Or.inl ⟨_, fun _ => rfl⟩
    · exact hother
  | peerHasRange q range =>
    simp only [onBit]
    split
    · exact Or.inr ⟨_, fun _ => rfl⟩
    · exact hother
  | download index => exact hother
  | append count => exact hother

/-- So does a history: its last connection or disconnection of the peer gives the bit a value, and
ranges after it at most set it. -/
theorem settlesBit_foldl (changes : List CoreChange) :
    SettlesBit fun bit => changes.foldl (onBit p i) bit := by
  induction changes with
  | nil => exact .refl
  | cons change rest ih => exact ih.comp (change.settlesBit_onBit p i)

end CoreChange

/-- A bit of a core after a history is the bit of before, sent through the changes. -/
theorem MemoryCore.liveBit_after (c : MemoryCore) (changes : List CoreChange) (p : PeerId)
    (i : Nat) :
    (c.after changes).liveBit p i = changes.foldl (CoreChange.onBit p i) (c.liveBit p i) := by
  induction changes generalizing c with
  | nil => rfl
  | cons change rest ih => rw [List.foldl_cons, ← c.liveBit_apply p i change, ← ih]; rfl

/-- To a bit of a tracker, the events of a history do what the changes do to the core. -/
theorem CoreTracker.liveBit_hear (t : CoreTracker) (c : MemoryCore) (changes : List CoreChange)
    (p : PeerId) (i : Nat) :
    (t.hear (c.reports changes)).liveBit p i
      = changes.foldl (CoreChange.onBit p i) (t.liveBit p i) := by
  induction changes generalizing c t with
  | nil => rfl
  | cons change rest ih =>
    rw [List.foldl_cons, ← t.liveBit_onEvent p i c change, ← ih _ (c.apply change).1]
    rfl

/-! ## Local blocks and the length -/

namespace PeerRecord

/-- A block that is reported is news unless it was reported before. -/
theorem reportBlock_changed (r : PeerRecord) (index : Nat) :
    (r.reportBlock index true).2 = !r.haves.any (·.get index) := by
  show (Bitmap.set _ index true).2 = _
  rw [Bitmap.set_changed, Bitmap.get_getD_empty, Bool.bne_true]

/-- A block that is reported is had from then on. -/
theorem has_reportBlock (r : PeerRecord) (index i : Nat) :
    (r.reportBlock index true).1.has i = (decide (i = index) || r.has i) := by
  show (Bitmap.get (Bitmap.set _ index true).1 i || r.preHaves.any (·.get i)) = _
  rw [Bitmap.get_set, Bitmap.get_getD_empty]
  by_cases hi : i = index <;> simp [hi, has]

/-- So is a range that is reported, with all of its blocks. -/
theorem has_reportRange (r : PeerRecord) (range : BlockRange) (i : Nat) :
    (r.reportRange range true).has i = (range.covers i || r.has i) := by
  show (Bitmap.get (Bitmap.setRange _ range true) i || r.preHaves.any (·.get i)) = _
  rw [Bitmap.get_setRange, Bitmap.get_getD_empty]
  cases hi : range.covers i <;> simp [has]

end PeerRecord

namespace CoreTracker

/-- The news of a peer leave alone what is known locally. -/
theorem local_peerRemove (t : CoreTracker) (p : PeerId) :
    (t.onEvent (.peerRemove p)).1.length = t.length ∧
      (t.onEvent (.peerRemove p)).1.localPeer = t.localPeer := by
  simp only [onEvent, afterEvent]
  by_cases hconnected : t.isConnected p = true
  · simp only [if_pos hconnected]
    exact ⟨rfl, rfl⟩
  · simp only [if_neg hconnected, and_self]

/-- Events that only repeat what the tracker has been shown change neither the length nor a local
block. -/
theorem hear_shown {t : CoreTracker} {c : MemoryCore} {changes : List CoreChange}
    (hlength : (c.after changes).length ≤ t.length)
    (hbits : ∀ i, (c.after changes).localBits.get i = true →
      t.localPeer.haves.any (·.get i) = true) :
    (t.hear (c.reports changes)).length = t.length ∧
      (t.hear (c.reports changes)).localPeer = t.localPeer := by
  induction changes generalizing c t with
  | nil => exact ⟨rfl, rfl⟩
  | cons change rest ih =>
    -- the core only grows, so at the end it shows all that this event says
    obtain ⟨hgrown, hkept⟩ := (c.apply change).1.grows_after rest
    have hstep : (t.onEvent (c.apply change).2).1.length = t.length ∧
        (t.onEvent (c.apply change).2).1.localPeer = t.localPeer := by
      cases change with
      | connectPeer p bits => exact ⟨rfl, rfl⟩
      | disconnectPeer p => exact t.local_peerRemove p
      | peerHasRange p range => exact ⟨rfl, rfl⟩
      | download index =>
        have hindex : (c.apply (.download index)).1.localBits.get index = true := by
          show (c.localBits.set index true).1.get index = true
          rw [Bitmap.get_set, if_pos rfl]
        have hknown := t.localPeer.reportBlock_changed index
        rw [hbits index (hkept index hindex), Bool.not_true] at hknown
        simp only [MemoryCore.apply, onEvent, afterEvent, hknown, Bool.false_eq_true, if_false,
          and_self]
      | append count =>
        have hshort : c.length + count ≤ t.length := Nat.le_trans hgrown hlength
        simp only [MemoryCore.apply, onEvent, afterEvent, if_pos hshort, and_self]
    have hrest := ih (c := (c.apply change).1) (t := (t.onEvent (c.apply change).2).1)
      (hstep.1 ▸ hlength) (hstep.2 ▸ hbits)
    exact ⟨hrest.1.trans hstep.1, hrest.2.trans hstep.2⟩

/-- An event that is news brings a tracker from one moment of the core to the next. -/
theorem MirrorsLocal.onEvent {t : CoreTracker} {c : MemoryCore} (h : t.MirrorsLocal c)
    (change : CoreChange) : (t.onEvent (c.apply change).2).1.MirrorsLocal (c.apply change).1 := by
  cases change with
  | connectPeer p bits => exact ⟨h.length, h.has⟩
  | disconnectPeer p =>
    obtain ⟨hlength, hlocal⟩ := t.local_peerRemove p
    exact ⟨hlength.trans h.length, fun i => (congrArg (·.has i) hlocal).trans (h.has i)⟩
  | peerHasRange p range => exact ⟨h.length, h.has⟩
  | download index =>
    have hbits (i : Nat) : (c.apply (.download index)).1.localBits.get i
        = (decide (i = index) || t.localPeer.has i) := by
      show (c.localBits.set index true).1.get i = _
      rw [Bitmap.get_set, h.has]
      by_cases hi : i = index <;> simp [hi]
    have hchanged := t.localPeer.reportBlock_changed index
    simp only [MemoryCore.apply, CoreTracker.onEvent, afterEvent]
    cases hknown : t.localPeer.haves.any (·.get index) with
    | true =>
      -- the block was reported before, so the event is dropped
      simp only [hchanged, hknown, Bool.not_true, Bool.false_eq_true, if_false]
      refine ⟨h.length, fun i => Eq.trans ?_ (hbits i).symm⟩
      have hhas : t.localPeer.has index = true := by
        unfold PeerRecord.has
        rw [hknown, Bool.true_or]
      by_cases hi : i = index
      · rw [hi, hhas, Bool.or_true]
      · rw [decide_eq_false hi, Bool.false_or]
    | false =>
      simp only [hchanged, hknown, Bool.not_false, if_true]
      exact ⟨h.length, fun i => (t.localPeer.has_reportBlock index i).trans (hbits i).symm⟩
  | append count =>
    have hbits (i : Nat) : (c.apply (.append count)).1.localBits.get i
        = (BlockRange.covers ⟨c.length, count⟩ i || t.localPeer.has i) := by
      show (c.localBits.setRange ⟨c.length, count⟩ true).get i = _
      rw [Bitmap.get_setRange, h.has]
      cases BlockRange.covers ⟨c.length, count⟩ i <;> rfl
    simp only [MemoryCore.apply, CoreTracker.onEvent, afterEvent]
    by_cases hlength : c.length + count ≤ t.length
    · -- nothing was appended
      simp only [if_pos hlength]
      have hcount : count = 0 := by
        have hsame := h.length
        omega
      subst hcount
      refine ⟨h.length, fun i => Eq.trans ?_ (hbits i).symm⟩
      have hnone : BlockRange.covers ⟨c.length, 0⟩ i = false := by
        have hempty : ¬ (c.length ≤ i ∧ i < rangeEnd c.length 0) := by
          unfold rangeEnd
          omega
        exact decide_eq_false hempty
      rw [hnone, Bool.false_or]
    · simp only [if_neg hlength]
      refine ⟨rfl, fun i => Eq.trans ?_ (hbits i).symm⟩
      show (t.localPeer.reportRange ⟨t.length, c.length + count - t.length⟩ true).has i = _
      rw [PeerRecord.has_reportRange, h.length, Nat.add_sub_cancel_left]

theorem hear_append (t : CoreTracker) (events events' : List CoreEvent) :
    t.hear (events ++ events') = (t.hear events).hear events' :=
  List.foldl_append

/-- A tracker that mirrors a core locally does so still after changes that the core has reported. -/
theorem MirrorsLocal.hear {t : CoreTracker} {c : MemoryCore} (h : t.MirrorsLocal c)
    (changes : List CoreChange) : (t.hear (c.reports changes)).MirrorsLocal (c.after changes) := by
  induction changes generalizing c t with
  | nil => exact h
  | cons change rest ih => exact ih (h.onEvent change)

/-! ## Attaching a core -/

/-- A tracker that knows of its core only what was learned ahead of it. -/
structure IsAhead (t : CoreTracker) (key : DiscoveryKey) : Prop where
  key : t.key = key
  attached : t.attached = false
  length : t.length = 0
  localPeer : t.localPeer = {}
  connected : ∀ p, (t.record p).connected = false

theorem IsAhead.note {t : CoreTracker} {key : DiscoveryKey} (h : t.IsAhead key)
    (news : AdvanceNews) : (t.note news).IsAhead key := by
  have hpeer (p : PeerId) {f : PeerRecord → PeerRecord}
      (hf : ∀ r, (f r).connected = r.connected) : (t.updatePeer p f).changed.IsAhead key := by
    refine ⟨h.key, h.attached, h.length, h.localPeer, fun q => ?_⟩
    show ((t.updatePeer p f).record q).connected = false
    rw [record_updatePeer]
    split
    · rw [hf, h.connected]
    · exact h.connected q
  cases news with
  | preHaves p bits => exact hpeer p fun r => rfl
  | wants p ranges =>
    refine hpeer p fun r => ?_
    exact List.foldlRecOn (motive := fun r' : PeerRecord => r'.connected = r.connected)
      ranges _ rfl fun r' hr' range _ => hr'
  | member p =>
    show (t.addPeer p).1.IsAhead key
    unfold addPeer
    split
    · exact h
    · exact hpeer p fun r => rfl

/-- A tracker that has only heard news ahead of a core is ahead of it. -/
theorem isAhead_ofNews (key : DiscoveryKey) (news : List AdvanceNews) :
    (ofNews key news).IsAhead key :=
  List.foldlRecOn (motive := fun t : CoreTracker => t.IsAhead key) news _
    ⟨rfl, rfl, rfl, rfl, fun _ => rfl⟩ fun _ ht n _ => ht.note n

/-- A core can be attached to what was learned ahead of it; the tracker then shows the snapshot, and
what the peers have declared. -/
theorem IsAhead.attach {t : CoreTracker} {c : MemoryCore} (h : t.IsAhead c.key) :
    ∃ attached, t.attach c.snapshot = .ok (attached, true) ∧ attached.length = c.length ∧
      attached.localPeer = { haves := some c.localBits } ∧
      ∀ p, attached.record p = (c.peers.get? p).elim (t.record p) fun bits =>
        { t.record p with connected := true, haves := some bits } := by
  -- the tracker before the peers of the snapshot are connected
  let known : CoreTracker := { t with
    attached := true
    length := max t.length c.length
    localPeer := t.localPeer.setHaves c.localBits }
  let attached := c.peers.toList.foldl (fun t e => t.connect e.1 e.2) known
  have hsame := local_foldl_connect c.peers.toList known
  have hrecord (p : PeerId) := record_foldl_connect known c.peers p
  refine ⟨attached.changed, ?_, ?_, ?_, hrecord⟩
  · unfold CoreTracker.attach
    rw [if_neg (show ¬ c.snapshot.key ≠ t.key from not_not_intro h.key.symm), h.attached]
    rfl
  · show attached.length = c.length
    rw [hsame.1]
    show max t.length c.length = c.length
    rw [h.length, Nat.zero_max]
  · show attached.localPeer = _
    rw [hsame.2]
    show t.localPeer.setHaves c.localBits = _
    rw [h.localPeer]
    rfl

/-! ## The whole -/

/-- A tracker that agrees with its core on every block of every peer shows who is connected, and
what each connected peer has. -/
theorem Mirrors.of_liveBit {t : CoreTracker} {c : MemoryCore} (hlocal : t.MirrorsLocal c)
    (hlive : ∀ p i, t.liveBit p i = c.liveBit p i) : t.Mirrors c where
  toMirrorsLocal := hlocal
  connected p := by
    have hbit := congrArg Option.isSome (hlive p 0)
    rw [MemoryCore.liveBit, Option.isSome_map] at hbit
    rw [isConnected_eq, SortedMap.contains, ← hbit, liveBit]
    split
    · next hconnected => exact hconnected
    · next hconnected => exact Bool.eq_false_iff.2 hconnected
  haves p bits i hp := by
    have hbit := hlive p i
    rw [MemoryCore.liveBit, hp, liveBit, Option.map_some] at hbit
    split at hbit
    · exact Option.some.inj hbit
    · contradiction

/-- **Events that a snapshot shows already do no harm.** Take a core at any moment, `between` it and
a later one at which its snapshot is taken, and `since` then. A tracker that has heard nothing of
the core but news ahead of it can be attached by the snapshot; once it has heard every event from
the first moment on, it mirrors the core, and what the peers had declared ahead is kept. -/
theorem attached_tracker_mirrors_core (c : MemoryCore) (before between since : List CoreChange)
    (news : List AdvanceNews) :
    let subscribed := c.after before
    let shown := subscribed.after between
    let known := ofNews c.key news
    ∃ attached, known.attach shown.snapshot = .ok (attached, true) ∧
      let t := attached.hear (subscribed.reports (between ++ since))
      t.Mirrors (shown.after since) ∧
        ∀ p, (t.record p).preHaves = (known.record p).preHaves ∧
          (t.record p).wants = (known.record p).wants := by
  intro subscribed shown known
  have hkey : shown.key = c.key := by
    rw [MemoryCore.key_after, MemoryCore.key_after]
  have hahead : known.IsAhead shown.key := hkey ▸ isAhead_ofNews c.key news
  obtain ⟨attached, hattach, hlength, hlocalPeer, hrecord⟩ := hahead.attach
  refine ⟨attached, hattach, Mirrors.of_liveBit ?_ fun p i => ?_, fun p => ?_⟩
  · -- the events in between repeat what the snapshot shows, those since are news
    have hagain : (attached.hear (subscribed.reports between)).length = attached.length ∧
        (attached.hear (subscribed.reports between)).localPeer = attached.localPeer :=
      hear_shown (Nat.le_of_eq hlength.symm) fun i hi => by rw [hlocalPeer]; exact hi
    have hcaught : (attached.hear (subscribed.reports between)).MirrorsLocal shown := by
      refine ⟨hagain.1.trans hlength, fun i => ?_⟩
      rw [hagain.2, hlocalPeer]
      exact Bool.or_false _
    rw [MemoryCore.reports_append, hear_append]
    exact hcaught.hear since
  · have hshown : attached.liveBit p i = shown.liveBit p i := by
      unfold liveBit MemoryCore.liveBit
      rw [hrecord]
      -- no peer was connected before the core was attached
      cases shown.peers.get? p with
      | none => rw [Option.elim_none, hahead.connected]; rfl
      | some bits => rfl
    -- the bit of the snapshot has been through the changes in between once already
    have htwice : between.foldl (CoreChange.onBit p i) (shown.liveBit p i) = shown.liveBit p i := by
      rw [MemoryCore.liveBit_after]
      exact (CoreChange.settlesBit_foldl p i between).twice _
    rw [liveBit_hear, hshown, List.foldl_append, htwice, ← MemoryCore.liveBit_after]
  · obtain ⟨hpre, hwants⟩ := attached.declared_hear (subscribed.reports (between ++ since)) p
    rw [hpre, hwants, hrecord]
    cases shown.peers.get? p <;> exact ⟨rfl, rfl⟩

end CoreTracker

end LogSync
