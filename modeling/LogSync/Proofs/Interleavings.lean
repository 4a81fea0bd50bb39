import LogSync.Proofs.Mirroring

/-!
# No torn records

News of a core come from many sources at once: from every peer, and from the core itself. Only the
order in which each source sends its own is certain. A piece of news looks at what is known from its
source and at nothing else, be it to tell what it changes or whether it changes anything
(`CoreNews.apply_of_peer`, `CoreNews.apply_of_core`). So news from two sources may change places
(`CoreNews.apply_comm`), and whatever way the sources are interleaved, the tracker ends up the same
(`CoreTracker.interleavings_agree`).
-/

namespace LogSync

/-! ## What is said -/

/-- Where news of a core come from. -/
inductive NewsSource where
  /-- The core itself, as it is stored locally. -/
  | core
  | peer (p : PeerId)
deriving DecidableEq

/-- A piece of news of a core. -/
inductive CoreNews where
  /-- What is learned of a peer over other ways than the core. -/
  | advance (news : AdvanceNews)
  /-- What the core reports. -/
  | event (event : CoreEvent)

/-- The peer that news ahead of a core are about. -/
def AdvanceNews.peer : AdvanceNews → PeerId
  | .preHaves p _ | .wants p _ | .member p => p

/-- The peer that an event is about, or the core if it is about none. -/
def CoreEvent.source : CoreEvent → NewsSource
  | .peerAdd p _ | .peerRemove p | .peerBitfield p _ | .peerRange p _ _ => .peer p
  | .download _ | .append _ _ | .clear _ => .core

namespace CoreNews

/-- Where a piece of news comes from. -/
def source : CoreNews → NewsSource
  | advance news => .peer news.peer
  | event e => e.source

/-- The tracker after a piece of news. -/
def apply (t : CoreTracker) : CoreNews → CoreTracker
  | advance news => t.note news
  | event e => (t.onEvent e).1

end CoreNews

/-- The part of some news that a source has sent, in the order in which it came. -/
def NewsSource.part (source : NewsSource) (news : List CoreNews) : List CoreNews :=
  news.filter (·.source = source)

/-- The tracker after some news. -/
def CoreTracker.learn (t : CoreTracker) (news : List CoreNews) : CoreTracker :=
  news.foldl CoreNews.apply t

/-! ## One piece of news -/

namespace CoreTracker

/-- The tracker with a new record of a peer, if there is one. -/
def putRecord (t : CoreTracker) (p : PeerId) : Option PeerRecord → CoreTracker
  | some r => { t with remotes := t.remotes.insert p r }.changed
  | none => t

/-- The tracker with a new length and a new local record, if there are any. -/
def putLocal (t : CoreTracker) : Option (Nat × PeerRecord) → CoreTracker
  | some (length, localPeer) => { t with length, localPeer }.changed
  | none => t

section
variable (t : CoreTracker) {p q : PeerId} (r r' : Option PeerRecord)
  (l : Option (Nat × PeerRecord))

/-- A new record of one peer leaves those of the others alone. -/
theorem get?_putRecord (h : q ≠ p) : (t.putRecord p r).remotes.get? q = t.remotes.get? q := by
  cases r with
  | none => rfl
  | some r => exact (SortedMap.get?_insert _ _ _ _).trans (if_neg h)

theorem local_putRecord :
    (t.putRecord p r).length = t.length ∧ (t.putRecord p r).localPeer = t.localPeer := by
  cases r <;> exact ⟨rfl, rfl⟩

theorem remotes_putLocal : (t.putLocal l).remotes = t.remotes := by
  cases l <;> rfl

/-- Records of two peers may be put in either order. -/
theorem putRecord_comm (h : p ≠ q) :
    (t.putRecord p r).putRecord q r' = (t.putRecord q r').putRecord p r := by
  cases r with
  | none => rfl
  | some r =>
    cases r' with
    | none => rfl
    | some r' =>
      have hremotes : (t.remotes.insert p r).insert q r' = (t.remotes.insert q r').insert p r :=
        SortedMap.insert_comm t.remotes h r r'
      simp only [putRecord, changed, hremotes]

/-- So may a record of a peer and the local one. -/
theorem putRecord_putLocal : (t.putRecord p r).putLocal l = (t.putLocal l).putRecord p r := by
  cases r <;> cases l <;> rfl

end

end CoreTracker

namespace CoreNews

/-- What a peer's news changes is its record, and that goes by its record alone. -/
theorem apply_of_peer {news : CoreNews} {p : PeerId} (h : news.source = .peer p) :
    ∃ f : Option PeerRecord → Option PeerRecord,
      ∀ t, news.apply t = t.putRecord p (f (t.remotes.get? p)) := by
  cases news with
  | advance news =>
    obtain rfl : news.peer = p := NewsSource.peer.inj h
    cases news with
    | preHaves p bits => exact ⟨fun r => some ((r.getD {}).setPreHaves bits), fun t => rfl⟩
    | wants p ranges =>
      exact ⟨fun r => some (ranges.foldl (·.addWants ·) (r.getD {})), fun t => rfl⟩
    | member p =>
      refine ⟨fun r => if r.isSome then none else some (r.getD {}), fun t => ?_⟩
      show (t.addPeer p).1 = t.putRecord p (if t.remotes.contains p then none else some _)
      unfold CoreTracker.addPeer
      by_cases hknown : t.remotes.contains p = true
      · rw [if_pos hknown, if_pos hknown]
        rfl
      · rw [if_neg hknown, if_neg hknown]
        rfl
  | event e =>
    cases e with
    | peerAdd q bits =>
      obtain rfl : q = p := NewsSource.peer.inj h
      exact ⟨fun r => some (((r.getD {}).setConnected true).1.setHaves bits), fun t => rfl⟩
    | peerRemove q =>
      obtain rfl : q = p := NewsSource.peer.inj h
      refine ⟨fun r =>
        if r.any (·.connected) then some ((r.getD {}).setConnected false).1 else none, fun t => ?_⟩
      show (t.onEvent (.peerRemove q)).1 = t.putRecord q (if t.isConnected q then some _ else none)
      unfold CoreTracker.onEvent CoreTracker.afterEvent
      by_cases hconnected : t.isConnected q = true
      · simp only [if_pos hconnected]
        rfl
      · simp only [if_neg hconnected]
        rfl
    | peerBitfield q bits =>
      obtain rfl : q = p := NewsSource.peer.inj h
      exact ⟨fun r => some ((r.getD {}).setHaves bits), fun t => rfl⟩
    | peerRange q range value =>
      obtain rfl : q = p := NewsSource.peer.inj h
      exact ⟨fun r => some ((r.getD {}).reportRange range value), fun t => rfl⟩
    | download index => contradiction
    | append length writtenLocally => contradiction
    | clear range => contradiction

/-- What the core's own news changes is the length and the local record, and that goes by these
alone. -/
theorem apply_of_core {news : CoreNews} (h : news.source = .core) :
    ∃ f : Nat × PeerRecord → Option (Nat × PeerRecord),
      ∀ t, news.apply t = t.putLocal (f (t.length, t.localPeer)) := by
  cases news with
  | advance news => contradiction
  | event e =>
    cases e with
    | download index =>
      refine ⟨fun (length, r) =>
        if (r.reportBlock index true).2 then some (length, (r.reportBlock index true).1) else none,
        fun t => ?_⟩
      simp only [apply, CoreTracker.onEvent, CoreTracker.afterEvent]
      cases (t.localPeer.reportBlock index true).2 <;> rfl
    | append length writtenLocally =>
      refine ⟨fun (before, r) =>
        if length ≤ before then none
        else some (length,
          if writtenLocally then r.reportRange ⟨before, length - before⟩ true else r), fun t => ?_⟩
      simp only [apply, CoreTracker.onEvent, CoreTracker.afterEvent]
      by_cases hlength : length ≤ t.length
      · simp only [if_pos hlength]
        rfl
      · simp only [if_neg hlength]
        rfl
    | clear range =>
      exact ⟨fun (length, r) => some (length, r.reportRange range false), fun t => rfl⟩
    | _ => contradiction

/-- News from two sources may change places. -/
theorem apply_comm {news news' : CoreNews} (h : news.source ≠ news'.source) (t : CoreTracker) :
    news'.apply (news.apply t) = news.apply (news'.apply t) := by
  cases hsource : news.source with
  | core =>
    obtain ⟨f, hf⟩ := apply_of_core hsource
    cases hsource' : news'.source with
    | core => exact absurd (hsource.trans hsource'.symm) h
    | peer q =>
      obtain ⟨g, hg⟩ := apply_of_peer hsource'
      obtain ⟨hlength, hlocal⟩ := t.local_putRecord (p := q) (g (t.remotes.get? q))
      rw [hf t, hg, hg t, hf, CoreTracker.remotes_putLocal, hlength, hlocal,
        CoreTracker.putRecord_putLocal]
  | peer p =>
    obtain ⟨f, hf⟩ := apply_of_peer hsource
    cases hsource' : news'.source with
    | core =>
      obtain ⟨g, hg⟩ := apply_of_core hsource'
      obtain ⟨hlength, hlocal⟩ := t.local_putRecord (p := p) (f (t.remotes.get? p))
      rw [hf t, hg, hg t, hf, CoreTracker.remotes_putLocal, hlength, hlocal,
        CoreTracker.putRecord_putLocal]
    | peer q =>
      have hpq : p ≠ q := by
        rintro rfl
        exact h (hsource.trans hsource'.symm)
      obtain ⟨g, hg⟩ := apply_of_peer hsource'
      rw [hf t, hg, hg t, hf, t.get?_putRecord _ hpq.symm, t.get?_putRecord _ hpq,
        t.putRecord_comm _ _ hpq]

end CoreNews

/-! ## All the news -/

namespace NewsSource

theorem part_cons_self (news : CoreNews) (rest : List CoreNews) :
    news.source.part (news :: rest) = news :: news.source.part rest := by
  simp [part]

theorem part_cons_of_ne {source : NewsSource} {news : CoreNews} (h : news.source ≠ source)
    (rest : List CoreNews) : source.part (news :: rest) = source.part rest := by
  simp [part, h]

/-- A source's part of two stretches of news is its part of the first and then of the second. -/
theorem part_append (source : NewsSource) (news news' : List CoreNews) :
    source.part (news ++ news') = source.part news ++ source.part news' :=
  List.filter_append _ _

/-- A source has no part in news that all come from others. -/
theorem part_eq_nil_iff {source : NewsSource} {news : List CoreNews} :
    source.part news = [] ↔ ∀ other ∈ news, other.source ≠ source := by
  simp [part]

/-- The first piece of news of a source comes after others that are not from it. -/
theorem split_of_part_eq_cons {source : NewsSource} {first : CoreNews} {news rest : List CoreNews}
    (h : source.part news = first :: rest) :
    ∃ before after, news = before ++ first :: after ∧
      (∀ other ∈ before, other.source ≠ source) ∧ source.part after = rest := by
  obtain ⟨before, after, hnews, hbefore, -, hafter⟩ := List.filter_eq_cons_iff.1 h
  exact ⟨before, after, hnews, fun other hother heq => hbefore other hother (decide_eq_true heq),
    hafter⟩

end NewsSource

namespace CoreTracker

/-- A piece of news may come ahead of all that is from other sources. -/
theorem learn_move (t : CoreTracker) {before : List CoreNews} (news : CoreNews)
    (h : ∀ other ∈ before, other.source ≠ news.source) (after : List CoreNews) :
    t.learn (before ++ news :: after) = (news.apply t).learn (before ++ after) := by
  induction before generalizing t with
  | nil => rfl
  | cons other before ih =>
    calc t.learn (other :: before ++ news :: after)
        = (other.apply t).learn (before ++ news :: after) := rfl
      _ = (news.apply (other.apply t)).learn (before ++ after) :=
        ih _ fun other' hother' => h other' (List.mem_cons_of_mem _ hother')
      _ = (other.apply (news.apply t)).learn (before ++ after) := by
        rw [CoreNews.apply_comm (h other List.mem_cons_self)]
      _ = (news.apply t).learn (other :: before ++ after) := rfl

/-- **No torn records.** Let the same news come twice, each source sending its own in the same
order, but the sources interleaved in another way. Both times a tracker ends up the same: with the
same length, the same version and the same record of every peer, and so with the same counts. -/
theorem interleavings_agree (t : CoreTracker) {news news' : List CoreNews}
    (h : ∀ source : NewsSource, source.part news = source.part news') :
    t.learn news = t.learn news' := by
  induction news generalizing t news' with
  | nil =>
    cases news' with
    | nil => rfl
    | cons other rest =>
      -- other news would have come from some source
      have hother := h other.source
      rw [NewsSource.part_cons_self] at hother
      contradiction
  | cons first rest ih =>
    have hfirst := h first.source
    rw [NewsSource.part_cons_self] at hfirst
    -- the first piece of news is also the first of its source in the other list
    obtain ⟨before, after, rfl, hothers, hafter⟩ :=
      NewsSource.split_of_part_eq_cons hfirst.symm
    rw [t.learn_move first hothers]
    refine ih (first.apply t) fun source => ?_
    have hsource := h source
    rw [NewsSource.part_append] at hsource ⊢
    by_cases heq : first.source = source
    · subst heq
      rw [NewsSource.part_eq_nil_iff.2 hothers, List.nil_append, hafter]
    · rw [NewsSource.part_cons_of_ne heq, NewsSource.part_cons_of_ne heq] at hsource
      exact hsource

/-- Two peers and the core itself, twice interleaved: what one peer reports, and that it leaves,
falls between other news of the core and of the other peer. -/
theorem interleavings_agree_of_two_peers :
    let p : PeerId := ⟨⟨1⟩⟩
    let q : PeerId := ⟨⟨2⟩⟩
    let joins : CoreNews := .event (.peerAdd p (.ofRanges [⟨0, 2⟩]))
    let leaves : CoreNews := .event (.peerRemove p)
    let announces : CoreNews := .advance (.preHaves q (.ofRanges [⟨1, 1⟩]))
    let wants : CoreNews := .advance (.wants q [⟨0, 1⟩])
    let grows : CoreNews := .event (.append 3 true)
    let stored : CoreNews := .event (.download 1)
    let news := [joins, leaves, announces, wants, grows, stored]
    let news' := [grows, announces, joins, stored, wants, leaves]
    (∀ source : NewsSource, source.part news = source.part news') ∧
      (ofKey default).learn news = (ofKey default).learn news' ∧
      ((ofKey default).learn news').version = 5 := by
  intro p q joins leaves announces wants grows stored news news'
  have hparts (source : NewsSource) : source.part news = source.part news' := by
    by_cases hsource : source ∈ [.core, .peer p, .peer q]
    · simp only [List.mem_cons, List.not_mem_nil, or_false] at hsource
      obtain rfl | rfl | rfl := hsource <;> rfl
    · -- nothing comes from anybody else
      have hnone (l : List CoreNews) (hl : ∀ x ∈ l, x.source ∈ [.core, .peer p, .peer q]) :
          source.part l = [] :=
        NewsSource.part_eq_nil_iff.2 fun x hx heq => hsource (heq ▸ hl x hx)
      rw [hnone news (by decide), hnone news' (by decide)]
  exact ⟨hparts, interleavings_agree (ofKey default) hparts, by decide +kernel⟩

end CoreTracker

end LogSync
