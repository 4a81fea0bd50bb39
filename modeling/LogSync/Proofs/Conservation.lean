import LogSync.Proofs.WalkCounts

/-!
# The counts of a core balance

A block below the length of a core that a peer wishes for is one that it has, one that it could get
or one that it misses, and no block is two of these. So the three counts of a peer add up to the
length at most, and to the length itself if the peer wishes for everything. What it misses then is
what nobody has, which is the most that any peer can miss. And the two counts of what can be passed
on are two sides of the same thing: a block that some peer could get is one that some peer has to
give.

All this is said of blocks, one at a time, and lifted to the counts (`BlockCounts.balanced_blockwise`
and the lemmas behind it). Since the walk over a core holds such counts at every stage
(`Walk.OnWay.counted`), it is said of every stage as well.
-/

namespace LogSync

/-! ## What is said -/

/-- Whether a peer wishes for every block of a core. -/
def PeerRecord.WishesForAll (p : PeerRecord) (length : Nat) : Prop :=
  ∀ i < length, p.wishes i = true

/-- The counts of a peer balance below a length: they share out its blocks, all of them if the peer
wishes for all; and none is given that is not there. -/
structure BlockCounts.Balanced (length : Nat) (p : PeerRecord) (n : BlockCounts) : Prop where
  sum_le : n.owned + n.want + n.missing ≤ length
  sum_eq : p.WishesForAll length → n.owned + n.want + n.missing = length
  wanted_le : n.wanted ≤ n.owned

/-- Some counts are those of one of the peers of a core. -/
inductive CoreCounts.CountsOf (c : CoreCounts) (localPeer : PeerRecord)
    (remotes : SortedMap PeerId PeerRecord) : PeerRecord → BlockCounts → Prop
  /-- Those of the local peer. -/
  | localPeer : CountsOf c localPeer remotes localPeer c.localPeer
  /-- Those of a remote, under its id. -/
  | remote {id : PeerId} {p : PeerRecord} {r : RemoteCounts} (hp : remotes.get? id = some p)
      (hr : c.remotes.get? id = some r) : CountsOf c localPeer remotes p r.counts

/-- The counts of all the peers of a core. -/
def CoreCounts.all (c : CoreCounts) : List BlockCounts :=
  c.localPeer :: c.remotes.values.map (·.counts)

/-- The stages of the walk over a core of some length. -/
inductive Walk.OnWay (length : Nat) (localPeer : PeerRecord)
    (remotes : SortedMap PeerId PeerRecord) : Walk → Prop
  /-- It begins before the first block. -/
  | start : OnWay length localPeer remotes (.start localPeer remotes)
  /-- It goes on as long as it is not at the end. -/
  | step {w : Walk} (h : OnWay length localPeer remotes w) (hmore : w.position < length) :
      OnWay length localPeer remotes (w.step length)

/-! ## Block by block -/

section
variable {everyone : List PeerRecord} {p q : PeerRecord}

namespace PeerRecord

/-- A block that a peer has, could get or misses is only one of these. -/
theorem shares_exclude (i : Nat) (hp : p ∈ everyone) :
    (p.has i = true → p.couldGet everyone i = false) ∧
      ((p.has i || p.couldGet everyone i) = true → p.misses everyone i = false) := by
  have hsome : p.has i = true → someoneHas everyone i = true := fun h =>
    List.any_eq_true.2 ⟨p, hp, h⟩
  unfold couldGet misses
  constructor
  · intro h
    rw [h, Bool.not_true, Bool.and_false, Bool.false_and]
  · intro h
    have hhas : someoneHas everyone i = true := by
      rcases Bool.or_eq_true_iff.1 h with h | h
      · exact hsome h
      · exact (Bool.and_eq_true_iff.1 h).2
    rw [hhas, Bool.not_true, Bool.and_false]

/-- A block that a peer wishes for is one of these. -/
theorem share_of_wishes {i : Nat} (h : p.wishes i = true) :
    (p.has i || p.couldGet everyone i || p.misses everyone i) = true := by
  unfold couldGet misses
  rw [h]
  cases p.has i <;> cases someoneHas everyone i <;> rfl

/-- Some peer has a block to give if and only if some peer could get it. -/
theorem exists_couldGive_iff {i : Nat} :
    (∃ p ∈ everyone, p.couldGive everyone i = true) ↔
      ∃ p ∈ everyone, p.couldGet everyone i = true := by
  constructor
  · rintro ⟨p, -, hgives⟩
    exact List.any_eq_true.1 (Bool.and_eq_true_iff.1 hgives).2
  · rintro ⟨p, hp, hgets⟩
    -- what can be got is there to be given by somebody who has it
    obtain ⟨giver, hgiver, hhas⟩ := List.any_eq_true.1 (Bool.and_eq_true_iff.1 hgets).2
    have hwanted : everyone.any (·.couldGet everyone i) = true :=
      List.any_eq_true.2 ⟨p, hp, hgets⟩
    exact ⟨giver, hgiver, by rw [couldGive, hhas, hwanted]; rfl⟩

end PeerRecord

/-! ## Counts -/

namespace BlockCounts

/-- The counts share out blocks: those that are of one of the three kinds. -/
theorem sum_blockwise (hp : p ∈ everyone) (length : Nat) :
    (blockwise everyone length p).owned + (blockwise everyone length p).want
        + (blockwise everyone length p).missing
      = countBelow (fun i => p.has i || p.couldGet everyone i || p.misses everyone i) length := by
  have hexclude := fun i => PeerRecord.shares_exclude i hp
  rw [countBelow_or fun i _ => (hexclude i).2, countBelow_or fun i _ => (hexclude i).1]
  rfl

theorem balanced_blockwise (hp : p ∈ everyone) (length : Nat) :
    (blockwise everyone length p).Balanced length p where
  sum_le := by
    have hle : countBelow (fun i => p.has i || p.couldGet everyone i || p.misses everyone i) length
        ≤ countBelow (fun _ => true) length := countBelow_mono fun _ _ _ => rfl
    rw [sum_blockwise hp]
    rwa [countBelow_true] at hle
  sum_eq hall := by
    have hevery : countBelow (fun i => p.has i || p.couldGet everyone i || p.misses everyone i)
        length = countBelow (fun _ => true) length :=
      countBelow_congr fun i hi => PeerRecord.share_of_wishes (hall i hi)
    rw [sum_blockwise hp, hevery, countBelow_true]
  wanted_le := countBelow_mono fun i _ h => (Bool.and_eq_true_iff.1 h).1

/-- Nobody misses more than a peer that wishes for everything. -/
theorem missing_blockwise_le {length : Nat} (hall : p.WishesForAll length) :
    (blockwise everyone length q).missing ≤ (blockwise everyone length p).missing := by
  refine countBelow_mono fun i hi hmisses => ?_
  have hnobody : (!someoneHas everyone i) = true := (Bool.and_eq_true_iff.1 hmisses).2
  rw [PeerRecord.misses, hall i hi, hnobody]
  rfl

/-- Counts of blocks do not all come to zero if and only if there is a block to count. -/
theorem sum_pos_iff {f : PeerRecord → Nat → Bool} {length : Nat} :
    0 < sumOver (fun p => countBelow (f p) length) everyone ↔
      ∃ i < length, ∃ p ∈ everyone, f p i = true := by
  rw [sumOver_pos_iff]
  simp only [countBelow_pos_iff]
  constructor
  · rintro ⟨p, hp, i, hi, hf⟩
    exact ⟨i, hi, p, hp, hf⟩
  · rintro ⟨i, hi, p, hp, hf⟩
    exact ⟨p, hp, i, hi, hf⟩

/-- Nothing can be got if and only if nothing can be given. -/
theorem sum_want_eq_zero_iff (length : Nat) :
    sumOver (fun p => (blockwise everyone length p).want) everyone = 0 ↔
      sumOver (fun p => (blockwise everyone length p).wanted) everyone = 0 := by
  have hpos : 0 < sumOver (fun p => (blockwise everyone length p).want) everyone ↔
      0 < sumOver (fun p => (blockwise everyone length p).wanted) everyone := by
    refine sum_pos_iff.trans (Iff.trans ?_ sum_pos_iff.symm)
    simp only [PeerRecord.exists_couldGive_iff]
  rw [Nat.pos_iff_ne_zero, Nat.pos_iff_ne_zero] at hpos
  exact Decidable.not_iff_not.1 hpos

end BlockCounts

end

/-! ## Cores -/

namespace CoreCounts

section
variable {localPeer : PeerRecord} {remotes : SortedMap PeerId PeerRecord}

/-- The counts that are defined block by block are those of the peers. -/
theorem CountsOf.eq_blockwise {length : Nat} {p : PeerRecord} {n : BlockCounts}
    (h : (blockwise length localPeer remotes).CountsOf localPeer remotes p n) :
    p ∈ everyPeer localPeer remotes ∧
      n = .blockwise (everyPeer localPeer remotes) length p := by
  cases h with
  | localPeer => exact ⟨List.mem_cons_self, rfl⟩
  | @remote id _ r hp hr =>
    refine ⟨List.mem_cons_of_mem _ (SortedMap.mem_values_iff.2 ⟨id, hp⟩), ?_⟩
    have hcounts : (blockwise length localPeer remotes).remotes.get? id
        = some ⟨.blockwise (everyPeer localPeer remotes) length p, p.connected⟩ := by
      unfold blockwise
      rw [SortedMap.get?_mapValues, hp]
      rfl
    rw [hcounts] at hr
    cases hr
    rfl

theorem all_blockwise (length : Nat) :
    (blockwise length localPeer remotes).all
      = (everyPeer localPeer remotes).map (.blockwise (everyPeer localPeer remotes) length) := by
  unfold all blockwise
  simp only
  rw [SortedMap.values_mapValues, List.map_map]
  rfl

end

end CoreCounts

/-- At every stage of the walk, everything below its position is counted, and nothing else. -/
theorem Walk.OnWay.counted {length : Nat} {localPeer : PeerRecord}
    {remotes : SortedMap PeerId PeerRecord} (hlength : length ≤ lastIndex) {w : Walk}
    (h : OnWay length localPeer remotes w) :
    ∃ sought, w = Walk.counted localPeer remotes w.position sought ∧ w.position ≤ length ∧
      (w.position % 32 = 0 ∨ w.position = length) ∧ ∀ s ∈ sought, s ≤ w.position := by
  induction h with
  | start => exact ⟨none, rfl, Nat.zero_le _, Or.inl rfl, by simp⟩
  | @step w _ hmore ih =>
    obtain ⟨sought, hw, -, haligned, hsought⟩ := ih
    obtain ⟨next, hmove, hend, haligned', hstep⟩ :=
      step_counted localPeer remotes hlength hmore (haligned.resolve_right (by omega)) hsought
    rw [← hw] at hstep
    rw [hstep]
    refine ⟨some w.position, rfl, hend, haligned', fun s hs => ?_⟩
    obtain rfl := Option.mem_some_iff.1 hs
    exact Nat.le_of_lt hmove

namespace CoreCounts

/-- **Counts balance.** For a core of any length, any local peer and any remotes, in the counts that
the walk comes to: there are counts for each remote and no others. The counts of a peer share out
the blocks that it has, could get and misses, so that they add up to the length at most, and to the
length if it wishes for all blocks, as one does that has declared nothing; and it has what can be
got from it. Whoever wishes for all misses as much as anyone else who does, and no less than any
peer. Nobody could get anything if and only if nobody has anything to give. And at every stage of
the walk the counts of a peer share out the blocks that the walk has passed by, so they stay within
the length on the way too. -/
theorem derive_balances {length : Nat} (hlength : length ≤ lastIndex) (localPeer : PeerRecord)
    (remotes : SortedMap PeerId PeerRecord) :
    let c := derive length localPeer remotes
    (∀ id, c.remotes.contains id = remotes.contains id) ∧
    (∀ p n, c.CountsOf localPeer remotes p n → n.Balanced length p) ∧
    (∀ p m q n, c.CountsOf localPeer remotes p m → c.CountsOf localPeer remotes q n →
      p.WishesForAll length →
        n.missing ≤ m.missing ∧ (q.WishesForAll length → n.missing = m.missing)) ∧
    (sumOver (·.want) c.all = 0 ↔ sumOver (·.wanted) c.all = 0) ∧
    ∀ w, Walk.OnWay length localPeer remotes w →
      w.position ≤ length ∧ ∀ l ∈ w.lanes, l.counts.Balanced w.position l.peer := by
  intro c
  have hc : c = blockwise length localPeer remotes := derive_eq_blockwise hlength _ _
  rw [hc]
  refine ⟨fun id => SortedMap.contains_mapValues _ _ _, fun p n hn => ?_,
    fun p m q n hm hn hall => ?_, ?_, fun w hw => ?_⟩
  · obtain ⟨hp, rfl⟩ := hn.eq_blockwise
    exact BlockCounts.balanced_blockwise hp length
  · obtain ⟨-, rfl⟩ := hm.eq_blockwise
    obtain ⟨-, rfl⟩ := hn.eq_blockwise
    have hle : (BlockCounts.blockwise (everyPeer localPeer remotes) length q).missing
        ≤ (BlockCounts.blockwise (everyPeer localPeer remotes) length p).missing :=
      BlockCounts.missing_blockwise_le hall
    exact ⟨hle, fun hall' => Nat.le_antisymm hle (BlockCounts.missing_blockwise_le hall')⟩
  · rw [all_blockwise, sumOver_map, sumOver_map]
    exact BlockCounts.sum_want_eq_zero_iff length
  · obtain ⟨sought, hcounted, hle, -⟩ := hw.counted hlength
    refine ⟨hle, fun l hl => ?_⟩
    rw [hcounted, Walk.lanes_counted] at hl
    obtain ⟨p, hp, rfl⟩ := List.mem_map.1 hl
    exact BlockCounts.balanced_blockwise hp w.position

/-- The longest core there is, with a remote that has five blocks of it. Neither peer has declared
anything, so the counts of both add up to the length, and both miss the same. -/
theorem derive_balances_longest :
    let remote : PeerRecord := { haves := some (.ofRanges [⟨30, 5⟩]), connected := true }
    let c := derive lastIndex {} (SortedMap.empty.insert default remote)
    lastIndex ≤ lastIndex ∧
      c.localPeer.owned + c.localPeer.want + c.localPeer.missing = lastIndex ∧
      ∃ r, c.remotes.get? default = some r ∧
        r.counts.owned + r.counts.want + r.counts.missing = lastIndex ∧
        r.counts.missing = c.localPeer.missing := by
  intro remote c
  have hlocal : PeerRecord.WishesForAll {} lastIndex := fun _ _ => rfl
  have hremote : remote.WishesForAll lastIndex := fun _ _ => rfl
  have hmem : (SortedMap.empty.insert default remote : SortedMap PeerId PeerRecord).get? default
      = some remote := by rw [SortedMap.get?_insert, if_pos rfl]
  obtain ⟨hcontains, hbalanced, hmissing, -, -⟩ := derive_balances (Nat.le_refl lastIndex) {}
    (SortedMap.empty.insert default remote)
  have hthere : (c.remotes.get? default).isSome = true := by
    have h := hcontains default
    unfold SortedMap.contains at h
    rw [h, hmem]
    rfl
  obtain ⟨r, hr⟩ := Option.isSome_iff_exists.1 hthere
  have hcounts : c.CountsOf {} (SortedMap.empty.insert default remote) remote r.counts :=
    .remote hmem hr
  refine ⟨Nat.le_refl _, (hbalanced _ _ .localPeer).sum_eq hlocal, r, hr,
    (hbalanced _ _ hcounts).sum_eq hremote, (hmissing _ _ _ _ .localPeer hcounts hlocal).2 hremote⟩

end CoreCounts

end LogSync
