import LogSync.BlockCounts.Walk
import LogSync.Proofs.BitmapReads
import LogSync.Proofs.SortedMaps

/-!
# The walk counts block by block

The counts of a core are found by a walk that jumps over stretches without blocks and reads the
rest word by word. Here it is shown to come to the counts that are defined one block at a time.

Everything about a walk on its way follows from where it stands and where its cursors were last
moved to: `Walk.counted` is the walk in which every lane holds the blockwise counts below the
position. One step takes such a walk to such a walk (`step_counted`), so the run does too.
-/

namespace LogSync

/-! ## Cursors -/

namespace Cursor

/-- A cursor over a bitmap that was last moved to a position, if it was moved at all. -/
def at? (b : Bitmap) (sought : Option Nat) : Cursor := ⟨b, sought.map b.firstSet⟩

/-- As long as positions do not go back, the kept answer is as good as a new search. -/
theorem seek_at? {b : Bitmap} {sought : Option Nat} {position : Nat}
    (h : ∀ s ∈ sought, s ≤ position) : (at? b sought).seek position = at? b (some position) := by
  unfold seek
  split
  · rfl
  · next hfresh =>
    cases sought with
    | none => exact absurd rfl hfresh
    | some s =>
      have hs : s ≤ position := h s rfl
      show at? b (some s) = at? b (some position)
      simp only [isStale, at?, Option.map_some] at hfresh ⊢
      congr 2
      cases hf : b.firstSet s with
      | none =>
        have hnone := Bitmap.firstSet_eq_none_iff.1 hf
        exact (Bitmap.firstSet_eq_none_iff.2 fun i hi => hnone i (by omega)).symm
      | some index =>
        rw [hf] at hfresh
        -- the answer may have wrapped around, but then what it stands for lies only further ahead
        obtain ⟨i, hfirst, rfl⟩ := Bitmap.firstSet_eq_some_iff.1 hf
        have hle : position ≤ i % (lastIndex + 1) := by simpa using hfresh
        exact (Bitmap.firstSet_eq_some_iff.2
          ⟨i, hfirst.of_le hs (Nat.le_trans hle (Nat.mod_le _ _)), rfl⟩).symm

end Cursor

/-! ## What a peer's words say -/

namespace PeerRecord

/-- A peer has a block if one of its bitmaps says so. -/
theorem has_eq_any_sources (p : PeerRecord) (i : Nat) : p.has i = p.sources.any (·.get i) := by
  unfold has sources
  rw [List.any_append]
  cases p.haves <;> cases p.preHaves <;> simp

/-- A source that is not there has no bits. -/
theorem getLsbD_source (source : Option Bitmap) (w i : Nat) (hi : i < 32) :
    BitVec.getLsbD (source.elim 0 (·.word w)) i = source.any (·.get (32 * w + i)) := by
  cases source with
  | none => exact BitVec.getLsbD_zero
  | some b => exact b.getLsbD_word w i hi

theorem getLsbD_hasWord (p : PeerRecord) (w i : Nat) (hi : i < 32) :
    (p.hasWord w).getLsbD i = p.has (32 * w + i) := by
  rw [hasWord, BitVec.getLsbD_or, getLsbD_source _ w i hi, getLsbD_source _ w i hi, has]

theorem getLsbD_wishesWord (p : PeerRecord) (w i : Nat) (hi : i < 32) :
    (p.wishesWord w).getLsbD i = p.wishes (32 * w + i) := by
  unfold wishesWord wishes
  cases p.wants with
  | none =>
    show (BitVec.allOnes 32).getLsbD i = true
    rw [BitVec.getLsbD_allOnes, decide_eq_true hi]
  | some b => exact b.getLsbD_word w i hi

/-- The wishes in a stretch below the largest index, one block at a time. -/
theorem countWishes_eq_countBelow (p : PeerRecord) {start n : Nat} (h : start + n ≤ lastIndex) :
    p.countWishes ⟨start, n⟩ = countBelow (fun i => p.wishes (start + i)) n := by
  unfold countWishes wishes
  cases p.wants with
  | none => exact (countBelow_true n).symm
  | some b =>
    have hlength : BlockRange.stop ⟨start, n⟩ - start = n := by
      show min (start + n) lastIndex - start = n
      omega
    show b.count ⟨start, n⟩ = countBelow (fun i => b.get (start + i)) n
    rw [Bitmap.count_eq_countBelow_from, hlength]

end PeerRecord

/-- A bit of the union of some words. -/
theorem getLsbD_foldl_or (l : List Word) (x : Word) (i : Nat) :
    (l.foldl (· ||| ·) x).getLsbD i = (x.getLsbD i || l.any (·.getLsbD i)) := by
  induction l generalizing x with
  | nil => simp
  | cons y l ih => rw [List.foldl_cons, ih, BitVec.getLsbD_or, List.any_cons, Bool.or_assoc]

/-! ## Lanes -/

section
variable {everyone : List PeerRecord}

theorem someoneHas_of_mem {p : PeerRecord} (hp : p ∈ everyone) {i : Nat}
    (h : someoneHas everyone i = false) : p.has i = false := by
  simp only [someoneHas, List.any_eq_false, Bool.not_eq_true] at h
  exact h p hp

namespace BlockCounts

/-- The counts below the end of a stretch: those below its start and those of the stretch. -/
theorem blockwise_add (a n : Nat) (p : PeerRecord) :
    blockwise everyone (a + n) p
      = ⟨countBelow p.has a + countBelow (fun i => p.has (a + i)) n,
          countBelow (p.couldGet everyone) a
            + countBelow (fun i => p.couldGet everyone (a + i)) n,
          countBelow (p.couldGive everyone) a
            + countBelow (fun i => p.couldGive everyone (a + i)) n,
          countBelow (p.misses everyone) a + countBelow (fun i => p.misses everyone (a + i)) n⟩ := by
  simp only [blockwise, countBelow_add]

end BlockCounts

namespace Lane

/-- A lane on which the blocks below a position are counted. -/
def counted (everyone : List PeerRecord) (position : Nat) (sought : Option Nat) (p : PeerRecord) :
    Lane :=
  ⟨p, p.sources.map (Cursor.at? · sought), .blockwise everyone position p⟩

/-- As long as the positions do not go back, moving the cursors of a lane makes no difference but
where they were last. -/
theorem seek_counted {position : Nat} {sought : Option Nat} (h : ∀ s ∈ sought, s ≤ position)
    (p : PeerRecord) :
    (counted everyone position sought p).seek position
      = counted everyone position (some position) p := by
  simp only [seek, counted, List.map_map, Function.comp_def, Cursor.seek_at? h]

/-- Over a stretch that nobody has, only what is missing grows. -/
theorem skip_counted {p : PeerRecord} (hp : p ∈ everyone) {position n : Nat} {sought : Option Nat}
    (hend : position + n ≤ lastIndex)
    (hgap : ∀ i < n, someoneHas everyone (position + i) = false) :
    (counted everyone position sought p).skip ⟨position, n⟩
      = counted everyone (position + n) sought p := by
  have howned : countBelow (fun i => p.has (position + i)) n = 0 :=
    countBelow_eq_zero fun i hi => someoneHas_of_mem hp (hgap i hi)
  have hwant : countBelow (fun i => p.couldGet everyone (position + i)) n = 0 :=
    countBelow_eq_zero fun i hi => by rw [PeerRecord.couldGet, hgap i hi, Bool.and_false]
  have hwanted : countBelow (fun i => p.couldGive everyone (position + i)) n = 0 :=
    countBelow_eq_zero fun i hi => by
      rw [PeerRecord.couldGive, someoneHas_of_mem hp (hgap i hi), Bool.false_and]
  have hmissing : countBelow (fun i => p.misses everyone (position + i)) n
      = p.countWishes ⟨position, n⟩ := by
    rw [p.countWishes_eq_countBelow hend]
    exact countBelow_congr fun i hi => by
      rw [PeerRecord.misses, hgap i hi, Bool.not_false, Bool.and_true]
  simp only [skip, counted, BlockCounts.blockwise_add, howned, hwant, hwanted, hmissing]
  rfl

/-! ### One word -/

variable {position span : Nat} {sought : Option Nat}

/-- The bits of a word that count. -/
theorem getLsbD_mask (hspan : span ≤ 32) (i : Nat) :
    (Word.firstBits span).getLsbD i = decide (i < span) := by
  rw [Word.getLsbD_firstBits]
  exact decide_eq_decide.2 (by omega)

theorem getLsbD_owned (everyone : List PeerRecord) (sought : Option Nat)
    (haligned : position % 32 = 0) (hspan : span ≤ 32) (p : PeerRecord) {i : Nat} (hi : i < 32) :
    ((counted everyone position sought p).owned (position / 32) (Word.firstBits span)).getLsbD i
      = (decide (i < span) && p.has (position + i)) := by
  show (p.hasWord (position / 32) &&& Word.firstBits span).getLsbD i = _
  rw [BitVec.getLsbD_and, p.getLsbD_hasWord _ _ hi, getLsbD_mask hspan,
    show 32 * (position / 32) = position by omega, Bool.and_comm]

theorem getLsbD_lacking (everyone : List PeerRecord) (sought : Option Nat)
    (haligned : position % 32 = 0) (hspan : span ≤ 32) (p : PeerRecord) {i : Nat} (hi : i < 32) :
    ((counted everyone position sought p).lacking (position / 32) (Word.firstBits span)).getLsbD i
      = (decide (i < span) && (p.wishes (position + i) && !p.has (position + i))) := by
  unfold lacking
  rw [BitVec.getLsbD_and, BitVec.getLsbD_and, BitVec.getLsbD_not,
    getLsbD_owned _ _ haligned hspan p hi, getLsbD_mask hspan, decide_eq_true hi, Bool.true_and]
  show ((p.wishesWord (position / 32)).getLsbD i && _ && _) = _
  rw [p.getLsbD_wishesWord _ _ hi, show 32 * (position / 32) = position by omega]
  cases decide (i < span) <;> simp

/-- Over one word, given which blocks of it somebody has and which somebody could get. -/
theorem tally_counted {p : PeerRecord} (hp : p ∈ everyone) (haligned : position % 32 = 0)
    (hspan : span ≤ 32) {someHas someGets : Word}
    (hhas : ∀ i < 32, someHas.getLsbD i
      = (decide (i < span) && someoneHas everyone (position + i)))
    (hgets : ∀ i < 32, someGets.getLsbD i
      = (decide (i < span) && everyone.any (·.couldGet everyone (position + i)))) :
    (counted everyone position sought p).tally (position / 32) (Word.firstBits span) someHas
        someGets
      = counted everyone (position + span) sought p := by
  have howned := fun i (hi : i < 32) => getLsbD_owned everyone sought haligned hspan p hi
  have hlacking := fun i (hi : i < 32) => getLsbD_lacking everyone sought haligned hspan p hi
  unfold tally
  rw [Word.count_eq_countBelow hspan howned,
    Word.count_eq_countBelow (p := fun i => p.couldGet everyone (position + i)) hspan,
    Word.count_eq_countBelow (p := fun i => p.couldGive everyone (position + i)) hspan,
    Word.count_eq_countBelow (p := fun i => p.misses everyone (position + i)) hspan]
  · simp only [counted, BlockCounts.blockwise_add]
    rfl
  · intro i hi
    rw [BitVec.getLsbD_and, BitVec.getLsbD_not, hlacking i hi, hhas i hi, PeerRecord.misses]
    -- who wishes for a block that nobody has lacks it
    cases hnobody : someoneHas everyone (position + i) with
    | false => simp [hi, someoneHas_of_mem hp hnobody]
    | true => cases decide (i < span) <;> simp
  · intro i hi
    rw [BitVec.getLsbD_and, hgets i hi, howned i hi, PeerRecord.couldGive]
    cases decide (i < span) <;> simp [Bool.and_comm]
  · intro i hi
    rw [BitVec.getLsbD_and, hlacking i hi, hhas i hi, PeerRecord.couldGet]
    cases decide (i < span) <;> simp

end Lane

end

/-! ## Walks -/

namespace Walk

section
variable (localPeer : PeerRecord) (remotes : SortedMap PeerId PeerRecord)

/-- A walk on which the blocks below a position are counted. -/
def counted (position : Nat) (sought : Option Nat) : Walk :=
  let everyone := everyPeer localPeer remotes
  ⟨position, .counted everyone position sought localPeer,
    remotes.mapValues fun _ p => .counted everyone position sought p⟩

theorem start_eq_counted : start localPeer remotes = counted localPeer remotes 0 none := rfl

variable {localPeer remotes}

theorem lanes_counted (position : Nat) (sought : Option Nat) :
    (counted localPeer remotes position sought).lanes
      = (everyPeer localPeer remotes).map
          (Lane.counted (everyPeer localPeer remotes) position sought) := by
  unfold lanes counted everyPeer
  rw [SortedMap.values_mapValues]
  rfl

/-- A change that does the right thing on every lane does so on the walk. -/
theorem advance_counted {position position' : Nat} {sought sought' : Option Nat} {f : Lane → Lane}
    (h : ∀ p ∈ everyPeer localPeer remotes,
      f (.counted (everyPeer localPeer remotes) position sought p)
        = .counted (everyPeer localPeer remotes) position' sought' p) :
    (counted localPeer remotes position sought).advance position' f
      = counted localPeer remotes position' sought' := by
  unfold advance counted
  rw [SortedMap.mapValues_mapValues, h localPeer (by simp [everyPeer])]
  congr 1
  refine SortedMap.mapValues_congr fun e he => h e.2 ?_
  exact List.mem_cons_of_mem _ (List.mem_map_of_mem he)

/-! ### Gaps -/

/-- Once the cursors are moved to the position, they show a block at or before each block that
somebody has. -/
theorem exists_nextOwned {position i : Nat} (hi : position ≤ i)
    (h : someoneHas (everyPeer localPeer remotes) i = true) :
    ∃ k, (counted localPeer remotes position (some position)).nextOwned = some k ∧ k ≤ i := by
  obtain ⟨p, hp, hhas⟩ := List.any_eq_true.1 h
  rw [p.has_eq_any_sources] at hhas
  obtain ⟨b, hb, hget⟩ := List.any_eq_true.1 hhas
  obtain ⟨j, hj, hji⟩ : ∃ j, b.firstSet position = some j ∧ j ≤ i := by
    cases hf : b.firstSet position with
    | none =>
      rw [Bitmap.firstSet_eq_none_iff.1 hf i hi] at hget
      contradiction
    | some _ =>
      obtain ⟨j, hfirst, rfl⟩ := Bitmap.firstSet_eq_some_iff.1 hf
      refine ⟨_, rfl, Nat.le_trans (Nat.mod_le _ _) (Nat.le_of_not_lt fun hlt => ?_)⟩
      rw [hfirst.unset_before i hi hlt] at hget
      contradiction
  have hmem : j ∈ ((counted localPeer remotes position (some position)).lanes.flatMap
      (·.cursors)).filterMap (·.next?) := by
    rw [lanes_counted]
    refine List.mem_filterMap.2 ⟨Cursor.at? b (some position), ?_, hj⟩
    exact List.mem_flatMap.2 ⟨_, List.mem_map_of_mem hp, List.mem_map_of_mem hb⟩
  obtain ⟨k, hk⟩ := Option.isSome_iff_exists.1 (List.isSome_min?_of_mem hmem)
  exact ⟨k, hk, Nat.le_trans ((List.min?_eq_some_iff.1 hk).2 j hmem) hji⟩

/-- A gap ends at a word or at the end of the core, whatever the cursors show. -/
theorem gapEnd_bounds (w : Walk) (length : Nat) :
    w.gapEnd length ≤ length ∧ (w.gapEnd length % 32 = 0 ∨ w.gapEnd length = length) := by
  unfold gapEnd
  split
  · split <;> omega
  · omega

/-- A gap ends at a word or at the end of the core, and nobody has a block in it. -/
theorem gapEnd_counted (localPeer : PeerRecord) (remotes : SortedMap PeerId PeerRecord)
    (position length : Nat) :
    let w := counted localPeer remotes position (some position)
    w.gapEnd length ≤ length ∧ (w.gapEnd length % 32 = 0 ∨ w.gapEnd length = length) ∧
      ∀ i, position ≤ i → i < w.gapEnd length →
        someoneHas (everyPeer localPeer remotes) i = false := by
  intro w
  obtain ⟨hend, hword⟩ := w.gapEnd_bounds length
  refine ⟨hend, hword, fun i h1 h2 => Bool.eq_false_iff.2 fun hhas => ?_⟩
  -- the gap ends at the word of the next block that somebody has, so before `i`
  obtain ⟨k, hk, hki⟩ := exists_nextOwned h1 hhas
  unfold gapEnd at h2
  rw [hk] at h2
  simp only at h2
  split at h2 <;> omega

/-! ### Steps and runs -/

/-- The union of what the lanes say, for words whose bits are a property of blocks. -/
theorem getLsbD_lanes {position span i : Nat} (sought : Option Nat) {f : Lane → Word}
    {q : PeerRecord → Bool}
    (h : ∀ p ∈ everyPeer localPeer remotes,
      (f (.counted (everyPeer localPeer remotes) position sought p)).getLsbD i
        = (decide (i < span) && q p)) :
    BitVec.getLsbD (((counted localPeer remotes position sought).lanes.map f).foldl (· ||| ·) 0) i
      = (decide (i < span) && (everyPeer localPeer remotes).any q) := by
  rw [getLsbD_foldl_or, lanes_counted, List.map_map, List.any_map,
    show BitVec.getLsbD (0 : Word) i = false from BitVec.getLsbD_zero, Bool.false_or]
  generalize everyPeer localPeer remotes = everyone at h ⊢
  rw [Bool.eq_iff_iff]
  simp only [List.any_eq_true, Function.comp, Bool.and_eq_true, decide_eq_true_eq]
  constructor
  · rintro ⟨p, hp, hbit⟩
    rw [h p hp, Bool.and_eq_true, decide_eq_true_eq] at hbit
    exact ⟨hbit.1, p, hp, hbit.2⟩
  · rintro ⟨hi, p, hp, hq⟩
    exact ⟨p, hp, by rw [h p hp, hq, decide_eq_true hi]; rfl⟩

/-- One step of a walk below a core's end: it stays a walk with everything below counted, it moves
on, and it stands at a word again or at the end. -/
theorem step_counted (localPeer : PeerRecord) (remotes : SortedMap PeerId PeerRecord)
    {length position : Nat} {sought : Option Nat} (hlength : length ≤ lastIndex)
    (hlt : position < length) (haligned : position % 32 = 0)
    (hsought : ∀ s ∈ sought, s ≤ position) :
    ∃ next, position < next ∧ next ≤ length ∧ (next % 32 = 0 ∨ next = length) ∧
      (counted localPeer remotes position sought).step length
        = counted localPeer remotes next (some position) := by
  have hseek : (counted localPeer remotes position sought).advance position (·.seek position)
      = counted localPeer remotes position (some position) :=
    advance_counted fun p _ => Lane.seek_counted hsought p
  obtain ⟨hend, hword, hnobody⟩ := gapEnd_counted localPeer remotes position length
  unfold step
  simp only
  rw [show (counted localPeer remotes position sought).position = position from rfl, hseek,
    show (counted localPeer remotes position (some position)).position = position from rfl]
  generalize hgap : (counted localPeer remotes position (some position)).gapEnd length = gapEnd
    at hend hword hnobody ⊢
  -- the walk either jumps over a gap, where nobody has anything, or counts one word
  by_cases hjump : position < gapEnd
  · rw [if_pos hjump]
    refine ⟨gapEnd, hjump, hend, hword, advance_counted fun p hp => ?_⟩
    obtain ⟨n, rfl⟩ := Nat.exists_eq_add_of_lt hjump
    rw [show position + n + 1 - position = n + 1 by omega, Nat.add_assoc] at *
    exact Lane.skip_counted hp (by omega) fun i hi => hnobody _ (by omega) (by omega)
  · rw [if_neg hjump]
    have hspan : min (length - position) 32 ≤ 32 := Nat.min_le_right _ _
    refine ⟨position + min (length - position) 32, by omega, by omega, by omega,
      advance_counted fun p hp => ?_⟩
    have hhas := fun i (hi : i < 32) => getLsbD_lanes (some position) fun q
        (_ : q ∈ everyPeer localPeer remotes) => Lane.getLsbD_owned _ _ haligned hspan q hi
    refine Lane.tally_counted hp haligned hspan hhas fun i hi => getLsbD_lanes _ fun q _ => ?_
    rw [BitVec.getLsbD_and, Lane.getLsbD_lacking _ _ haligned hspan q hi, hhas i hi,
      PeerRecord.couldGet]
    cases decide (i < min (length - position) 32) <;> simp [someoneHas]

/-- The whole walk counts everything below the core's end. -/
theorem run_counted (localPeer : PeerRecord) (remotes : SortedMap PeerId PeerRecord)
    {length position : Nat} {sought : Option Nat} (hlength : length ≤ lastIndex)
    (hle : position ≤ length) (haligned : position % 32 = 0 ∨ position = length)
    (hsought : ∀ s ∈ sought, s ≤ position) :
    ∃ s, (counted localPeer remotes position sought).run length
      = counted localPeer remotes length s := by
  -- induction on the distance to the end
  induction hd : length - position using Nat.strongRecOn generalizing position sought with
  | ind d ih =>
    rw [run]
    split
    · next hlt =>
      have hlt : position < length := hlt
      obtain ⟨next, hmove, hnext, hword, hstep⟩ :=
        step_counted localPeer remotes hlength hlt (by omega) hsought
      rw [hstep]
      exact ih (length - next) (by omega) hnext hword (by simp; omega) rfl
    · next hnot =>
      have hnot : ¬position < length := hnot
      rw [show position = length by omega]
      exact ⟨sought, rfl⟩

end

end Walk

namespace CoreCounts

/-- The walk over a core of any length in the index space comes to the blockwise counts. -/
theorem derive_eq_blockwise {length : Nat} (hlength : length ≤ lastIndex)
    (localPeer : PeerRecord) (remotes : SortedMap PeerId PeerRecord) :
    derive length localPeer remotes = blockwise length localPeer remotes := by
  have hnone : ∀ s ∈ (none : Option Nat), s ≤ 0 := by simp
  obtain ⟨s, hrun⟩ :=
    Walk.run_counted localPeer remotes hlength (Nat.zero_le length) (Or.inl rfl) hnone
  unfold derive
  rw [Walk.start_eq_counted, hrun]
  simp only [Walk.counted, SortedMap.mapValues_mapValues]
  rfl

/-- The counts of one peer among others, in full. -/
def inFull (everyone : List PeerRecord) (length : Nat) (p : PeerRecord) : BlockCounts where
  owned := countBelow (fun i => p.has i) length
  want := countBelow (fun i => p.wishes i && !p.has i && everyone.any (·.has i)) length
  wanted := countBelow (fun i => p.has i && everyone.any fun q => q.wishes i && !q.has i) length
  missing := countBelow (fun i => p.wishes i && !p.has i && !everyone.any (·.has i)) length

/-- For one of the peers the definition says what the full form says: whoever has a block is
somebody who has it, and lacks nothing that nobody has. -/
theorem blockwise_eq_inFull {everyone : List PeerRecord} {p : PeerRecord} (hp : p ∈ everyone)
    (length : Nat) : BlockCounts.blockwise everyone length p = inFull everyone length p := by
  have hsome {i : Nat} (h : p.has i = true) : someoneHas everyone i = true :=
    List.any_eq_true.2 ⟨p, hp, h⟩
  unfold BlockCounts.blockwise inFull
  congr 1
  · refine countBelow_congr fun i _ => ?_
    unfold PeerRecord.couldGive
    cases h : p.has i with
    | false => rfl
    | true => simp only [PeerRecord.couldGet, hsome h, Bool.and_true]
  · refine countBelow_congr fun i _ => ?_
    unfold PeerRecord.misses
    cases h : p.has i with
    | false => rw [Bool.not_false, Bool.and_true]; rfl
    | true => rw [hsome h, Bool.not_true, Bool.and_false, Bool.false_and]

/-- **The walk counts every block once.** For a core of any length, any local record and any
remotes, with bitmaps of any layout, each count is the number of blocks below the length of its
kind; the length and every remote's connection are passed on. The largest length that there is
leaves out the last index, where ranges stop. Words that are stored past it lead a search to an
index that has wrapped around, but that only makes the walk jump less far. -/
theorem derive_counts_every_block {length : Nat} (hlength : length ≤ lastIndex)
    (localPeer : PeerRecord) (remotes : SortedMap PeerId PeerRecord) :
    derive length localPeer remotes =
      let everyone := localPeer :: remotes.values
      { length
        localPeer := inFull everyone length localPeer
        remotes := remotes.mapValues fun _ p => ⟨inFull everyone length p, p.connected⟩ } := by
  rw [derive_eq_blockwise hlength]
  unfold blockwise
  simp only
  congr 1
  · exact blockwise_eq_inFull (by simp [everyPeer]) length
  · refine SortedMap.mapValues_congr fun e he => ?_
    have hmem : e.2 ∈ everyPeer localPeer remotes :=
      List.mem_cons_of_mem _ (List.mem_map_of_mem he)
    rw [blockwise_eq_inFull hmem length]
    rfl

/-- The longest core there is, with a remote that has five blocks on either side of a word's end. It
has announced one word more, past the largest index. -/
theorem derive_counts_every_block_longest :
    let remote : PeerRecord :=
      { haves := some (.ofRanges [⟨30, 5⟩]), connected := true
        preHaves := some (.ofWords 0xFFFFFFFFFFFFFFE0 [0, 1]) }
    let remotes : SortedMap PeerId PeerRecord := SortedMap.empty.insert default remote
    let everyone : List PeerRecord := {} :: remotes.values
    lastIndex ≤ lastIndex ∧
      derive lastIndex {} remotes =
        { length := lastIndex
          localPeer := inFull everyone lastIndex {}
          remotes := remotes.mapValues fun _ p => ⟨inFull everyone lastIndex p, p.connected⟩ } :=
  ⟨Nat.le_refl _, derive_counts_every_block (Nat.le_refl _) _ _⟩

end CoreCounts

end LogSync
