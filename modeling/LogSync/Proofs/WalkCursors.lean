import LogSync.Proofs.Conservation

/-!
# Cursors never answer stale

A cursor keeps its last answer and gives it again as long as that is not behind the position. What
it gives is what a new search would find, provided that its positions do not go back
(`Cursor.answers_at?`).

That they do not go back is up to the walk. At the beginning of a step it moves every cursor to
where it stands, and to nowhere else (`Walk.cursors_step`). The step then ends further on, at a word
or at the end of the core (`Walk.position_step`). So the positions that a run passes to its cursors
ascend (`Walk.pairwise_positions`) from word to word (`Walk.OnWay.aligned`), and at every stage of
the walk the cursors hold what searches from an earlier position found (`Walk.OnWay.exists_sought`).
-/

namespace LogSync

/-! ## One cursor -/

namespace Cursor

/-- What a cursor answers when it is moved to some positions, one after the other. -/
def answers (c : Cursor) : List Nat → List (Option Nat)
  | [] => []
  | position :: rest => (c.seek position).next? :: (c.seek position).answers rest

/-- A cursor whose positions do not go back, neither among themselves nor behind the one where it
was last, answers as a search would. -/
theorem answers_at? {b : Bitmap} {positions : List Nat} (hpositions : positions.Pairwise (· ≤ ·))
    {sought : Option Nat} (hsought : ∀ s ∈ sought, ∀ position ∈ positions, s ≤ position) :
    (at? b sought).answers positions = positions.map b.firstSet := by
  induction positions generalizing sought with
  | nil => rfl
  | cons position rest ih =>
    obtain ⟨hfirst, hrest⟩ := List.pairwise_cons.1 hpositions
    have hseek : (at? b sought).seek position = at? b (some position) :=
      seek_at? fun s hs => hsought s hs position List.mem_cons_self
    have hahead : ∀ s ∈ some position, ∀ later ∈ rest, s ≤ later := by
      rintro _ ⟨⟩
      exact hfirst
    rw [answers, hseek, ih hrest hahead]
    rfl

-- it takes positions that do not go back: moved from 4 to 0, a cursor misses the bit at 3
example : (at? (.ofRanges [⟨3, 1⟩, ⟨40, 1⟩]) none).answers [4, 0] = [some 40, some 40] := by
  decide +kernel

end Cursor

/-! ## The cursors of a walk -/

namespace Lane

/-- Counting leaves the cursors alone. -/
theorem cursors_skip (gap : BlockRange) (l : Lane) : (l.skip gap).cursors = l.cursors := rfl

theorem cursors_tally (w : Nat) (mask someoneHas someoneGets : Word) (l : Lane) :
    (l.tally w mask someoneHas someoneGets).cursors = l.cursors := rfl

end Lane

/-- The bitmaps that say what the peers have. -/
def everySource (localPeer : PeerRecord) (remotes : SortedMap PeerId PeerRecord) : List Bitmap :=
  (everyPeer localPeer remotes).flatMap (·.sources)

namespace Walk

/-- The cursors of all peers. -/
def cursors (w : Walk) : List Cursor := w.lanes.flatMap (·.cursors)

section
variable {localPeer : PeerRecord} {remotes : SortedMap PeerId PeerRecord} {length : Nat} {w : Walk}

theorem lanes_advance (w : Walk) (position : Nat) (f : Lane → Lane) :
    (w.advance position f).lanes = w.lanes.map f := by
  unfold lanes advance
  rw [SortedMap.values_mapValues]
  rfl

theorem cursors_advance_seek (w : Walk) (position sought : Nat) :
    (w.advance position (·.seek sought)).cursors = w.cursors.map (·.seek sought) := by
  unfold cursors
  rw [lanes_advance, List.flatMap_map, List.map_flatMap]
  rfl

/-- What leaves the cursors of every lane alone leaves those of the walk alone. -/
theorem cursors_advance (w : Walk) (position : Nat) {f : Lane → Lane}
    (hf : ∀ l, (f l).cursors = l.cursors) : (w.advance position f).cursors = w.cursors := by
  unfold cursors
  rw [lanes_advance, List.flatMap_map]
  simp only [hf]

/-- At the start there is one cursor for each bitmap, and none was moved yet. -/
theorem cursors_start (localPeer : PeerRecord) (remotes : SortedMap PeerId PeerRecord) :
    (start localPeer remotes).cursors = (everySource localPeer remotes).map (Cursor.at? · none) := by
  unfold cursors everySource
  rw [start_eq_counted, lanes_counted, List.flatMap_map, List.map_flatMap]
  rfl

/-- Cursors that were last where the walk now stands or before, moved there. -/
theorem cursors_seek {bitmaps : List Bitmap} {sought : Option Nat}
    (hcursors : w.cursors = bitmaps.map (Cursor.at? · sought))
    (hsought : ∀ s ∈ sought, s ≤ w.position) :
    w.cursors.map (·.seek w.position) = bitmaps.map (Cursor.at? · (some w.position)) := by
  rw [hcursors, List.map_map]
  exact List.map_congr_left fun b _ => Cursor.seek_at? hsought

/-! ### Steps -/

/-- A step moves every cursor once, to where the walk stands. -/
theorem cursors_step (length : Nat) (w : Walk) :
    (w.step length).cursors = w.cursors.map (·.seek w.position) := by
  unfold step
  simp only
  split
  · rw [cursors_advance _ _ (Lane.cursors_skip _), cursors_advance_seek]
  · rw [cursors_advance _ _ (Lane.cursors_tally _ _ _ _), cursors_advance_seek]

/-- A step from a word ends at a word again or at the end of the core. -/
theorem position_step (hmore : w.position < length) (haligned : w.position % 32 = 0) :
    (w.step length).position % 32 = 0 ∨ (w.step length).position = length := by
  unfold step
  simp only
  split
  · exact (gapEnd_bounds _ length).2
  · show (w.position + min (length - w.position) 32) % 32 = 0 ∨
      w.position + min (length - w.position) 32 = length
    omega

/-! ### Stages -/

/-- Short of the end, the walk stands at a word. -/
theorem OnWay.aligned (h : OnWay length localPeer remotes w) (hmore : w.position < length) :
    w.position % 32 = 0 := by
  induction h with
  | start => rfl
  | step _ hbefore ih =>
    exact (position_step hbefore (ih hbefore)).resolve_right (Nat.ne_of_lt hmore)

/-- At every stage all cursors were last at one position, which is not ahead. -/
theorem OnWay.exists_sought (h : OnWay length localPeer remotes w) :
    ∃ sought, w.cursors = (everySource localPeer remotes).map (Cursor.at? · sought) ∧
      ∀ s ∈ sought, s ≤ w.position := by
  induction h with
  | start => exact ⟨none, cursors_start localPeer remotes, by simp⟩
  | @step w _ hmore ih =>
    obtain ⟨sought, hcursors, hsought⟩ := ih
    refine ⟨some w.position, ?_, ?_⟩
    · rw [cursors_step, cursors_seek hcursors hsought]
    · rintro _ ⟨⟩
      exact Nat.le_of_lt (position_lt_step hmore)

/-! ### Runs -/

/-- The positions that a run passes to its cursors, one after the other. -/
def positions (length : Nat) (w : Walk) : List Nat :=
  if _more : w.position < length then w.position :: positions length (w.step length) else []
termination_by length - w.position
decreasing_by have := position_lt_step ‹_›; omega

theorem positions_of_lt (hmore : w.position < length) :
    w.positions length = w.position :: (w.step length).positions length := by
  rw [positions, dif_pos hmore]

theorem le_of_mem_positions {position : Nat} (h : position ∈ w.positions length) :
    w.position ≤ position := by
  fun_induction positions length w with
  | case1 w hmore ih =>
    obtain rfl | hlater := List.mem_cons.1 h
    · exact Nat.le_refl _
    · exact Nat.le_trans (Nat.le_of_lt (position_lt_step hmore)) (ih hlater)
  | case2 w hend => contradiction

/-- The positions that a run passes to its cursors ascend. -/
theorem pairwise_positions (length : Nat) (w : Walk) : (w.positions length).Pairwise (· < ·) := by
  fun_induction positions length w with
  | case1 w hmore ih =>
    refine List.pairwise_cons.2 ⟨fun position hlater => ?_, ih⟩
    exact Nat.lt_of_lt_of_le (position_lt_step hmore) (le_of_mem_positions hlater)
  | case2 w hend => exact List.Pairwise.nil

/-- Over a run, each cursor is moved to these positions. -/
theorem cursors_run (length : Nat) (w : Walk) :
    (w.run length).cursors = w.cursors.map fun c => (w.positions length).foldl Cursor.seek c := by
  fun_induction positions length w with
  | case1 w hmore ih =>
    rw [run, dif_pos hmore, ih, cursors_step, List.map_map]
    rfl
  | case2 w hend =>
    rw [run, dif_neg hend]
    exact (List.map_id' _).symm

/-- Each of the positions is that of a stage. -/
theorem OnWay.of_mem_positions (hw : OnWay length localPeer remotes w) {position : Nat}
    (h : position ∈ w.positions length) :
    ∃ v, OnWay length localPeer remotes v ∧ v.position < length ∧ v.position = position := by
  fun_induction positions length w with
  | case1 w hmore ih =>
    obtain rfl | hlater := List.mem_cons.1 h
    · exact ⟨w, hw, hmore, rfl⟩
    · exact ih (hw.step hmore) hlater
  | case2 w hend => contradiction

/-- What a run still passes to its cursors from some stage on is the rest of what it passes to them
in all. -/
theorem OnWay.positions_suffix (h : OnWay length localPeer remotes w) :
    w.positions length <:+ (Walk.start localPeer remotes).positions length := by
  induction h with
  | start => exact List.suffix_rfl
  | step _ hmore ih =>
    rw [positions_of_lt hmore] at ih
    exact (List.suffix_cons _ _).trans ih

end

/-- **Cursors never answer stale.** A cursor over any bitmap that is moved to positions that do not
go back answers at each of them what a new search from there finds, also where that is an index that
has wrapped around, of a word that is stored past the largest one. And such are the positions in
the walk over a core of any length, with any local peer and any remotes: they ascend, and each is
the beginning of a word. Over the run, the cursors of the peers' bitmaps are moved to these; and at
each stage short of the end the position is one of them, and what the cursors answer there is what
new searches find. -/
theorem cursors_never_answer_stale :
    (∀ (b : Bitmap) (positions : List Nat), positions.Pairwise (· ≤ ·) →
      Cursor.answers { bits := b } positions = positions.map b.firstSet) ∧
    ∀ (length : Nat) (localPeer : PeerRecord) (remotes : SortedMap PeerId PeerRecord),
      let w := start localPeer remotes
      let sources := everySource localPeer remotes
      let positions := w.positions length
      positions.Pairwise (· < ·) ∧ (∀ position ∈ positions, position % 32 = 0) ∧
      (w.run length).cursors
        = sources.map (fun b => positions.foldl Cursor.seek { bits := b }) ∧
      ∀ v, OnWay length localPeer remotes v → v.position < length →
        v.position ∈ positions ∧
          (v.advance v.position (·.seek v.position)).cursors.map (·.next?)
            = sources.map (·.firstSet v.position) := by
  constructor
  · intro b positions hpositions
    show (Cursor.at? b none).answers positions = positions.map b.firstSet
    exact Cursor.answers_at? hpositions (by simp)
  intro length localPeer remotes w sources positions
  refine ⟨pairwise_positions length w, fun position h => ?_, ?_, fun v hv hmore => ?_⟩
  · obtain ⟨v, hv, hmore, rfl⟩ := OnWay.start.of_mem_positions h
    exact hv.aligned hmore
  · rw [cursors_run, cursors_start, List.map_map]
    rfl
  · constructor
    · refine hv.positions_suffix.subset ?_
      rw [positions_of_lt hmore]
      exact List.mem_cons_self
    · obtain ⟨sought, hcursors, hsought⟩ := hv.exists_sought
      rw [cursors_advance_seek, cursors_seek hcursors hsought, List.map_map]
      rfl

/-- Three bits on two pages, between which pages are missing, and one on a page past the largest
index. Two answers are given twice. From the last two positions on there is only the bit of that
page left: its index has wrapped around to 0, and is found anew each time. -/
theorem cursors_never_answer_stale_across_pages :
    let b := (Bitmap.ofRanges [⟨3, 1⟩, ⟨40, 1⟩, ⟨0x18007, 1⟩]).insertWords 0xFFFFFFFFFFFFFFE0 [0, 1]
    let positions := [0, 0, 32, 64, 0x18000, 0x18020, 0x18040]
    positions.Pairwise (· ≤ ·) ∧
      Cursor.answers { bits := b } positions
        = [some 3, some 3, some 40, some 0x18007, some 0x18007, some 0, some 0] := by
  intro b positions
  have hpositions : positions.Pairwise (· ≤ ·) := by decide
  refine ⟨hpositions, ?_⟩
  rw [cursors_never_answer_stale.1 b positions hpositions]
  decide +kernel

end Walk

end LogSync
