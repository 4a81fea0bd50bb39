import LogSync.Proofs.BitmapWrites

/-!
# A bitmap holds a set of indices

There are three ways to write to a bitmap, each with a path of its own through words and pages: bit
by bit, range by range, and in whole words, which may or may not line up with the bitmap's own. Seen
through `Bitmap.get` they are one operation, which gives the indices that it covers their values
(`BitmapWrite.get_apply`). So after any history of writes, an index has the value that the last
write to cover it has given it (`BitmapWrite.last_write_counts`).
-/

namespace LogSync

/-! ## What is said -/

/-- A write to a bitmap. -/
inductive BitmapWrite where
  /-- One bit is given a value. -/
  | set (index : Nat) (value : Bool)
  /-- Every bit of a range is given one value. -/
  | setRange (range : BlockRange) (value : Bool)
  /-- The bits from an index on are given those of some words. -/
  | insertWords (start : Nat) (words : List Word)

namespace BitmapWrite

/-- The bitmap after a write. -/
def apply (b : Bitmap) : BitmapWrite → Bitmap
  | set index value => (b.set index value).1
  | setRange range value => b.setRange range value
  | insertWords start words => b.insertWords start words

/-- Whether a write covers an index. No range reaches the largest index. -/
def covers : BitmapWrite → Nat → Bool
  | set index _, i => i == index
  | setRange range _, i =>
    decide (range.start ≤ i ∧ i < min (range.start + range.length) 0xFFFFFFFFFFFFFFFF)
  | insertWords start words, i => decide (start ≤ i ∧ i < start + 32 * words.length)

/-- The value that a write gives to an index that it covers. -/
def valueAt : BitmapWrite → Nat → Bool
  | set _ value, _ | setRange _ value, _ => value
  | insertWords start words, i => words[(i - start) / 32]?.any (·.getLsbD ((i - start) % 32))

/-- The value that the last write to cover an index has given it, if one has; the first write stands
first in the list. -/
def lastValue (writes : List BitmapWrite) (i : Nat) : Option Bool :=
  (writes.reverse.find? (·.covers i)).map (·.valueAt i)

/-! ## One write -/

/-- A write gives the indices that it covers their values, and leaves the others alone. -/
theorem get_apply (write : BitmapWrite) (b : Bitmap) (i : Nat) :
    (write.apply b).get i = if write.covers i then write.valueAt i else b.get i := by
  cases write with
  | set index value =>
    rw [apply, Bitmap.get_set, covers, valueAt]
    simp only [beq_iff_eq]
  | setRange range value => exact b.get_setRange range value i
  | insertWords start words =>
    rw [apply, Bitmap.get_insertWords, covers, valueAt]
    simp only [decide_eq_true_eq, wordsBit]

/-! ## Histories -/

/-- The first write counts only for what the later ones do not cover. -/
theorem lastValue_cons (write : BitmapWrite) (later : List BitmapWrite) (i : Nat) :
    lastValue (write :: later) i
      = (lastValue later i).or (if write.covers i then some (write.valueAt i) else none) := by
  unfold lastValue
  rw [List.reverse_cons, List.find?_append, List.find?_singleton]
  cases later.reverse.find? (·.covers i) with
  | some last => rfl
  | none => cases write.covers i <;> rfl

/-- An index that has been set has been set by one of the writes. -/
theorem exists_of_lastValue {writes : List BitmapWrite} {i : Nat}
    (h : (lastValue writes i).getD false = true) :
    ∃ write ∈ writes, write.covers i = true ∧ write.valueAt i = true := by
  unfold lastValue at h
  cases hfind : writes.reverse.find? (·.covers i) with
  | none =>
    rw [hfind] at h
    contradiction
  | some write =>
    rw [hfind] at h
    have hcovers : write.covers i = true := by simpa using List.find?_some hfind
    exact ⟨write, List.mem_reverse.1 (List.mem_of_find?_eq_some hfind), hcovers, h⟩

/-- After some writes, an index has the value that the last write to cover it has given it, or else
the one that it had. -/
theorem get_foldl_apply (writes : List BitmapWrite) (b : Bitmap) (i : Nat) :
    (writes.foldl apply b).get i = (lastValue writes i).getD (b.get i) := by
  induction writes generalizing b with
  | nil => rfl
  | cons write later ih =>
    rw [List.foldl_cons, ih, get_apply, lastValue_cons]
    cases lastValue later i with
    | some value => rfl
    | none => cases write.covers i <;> rfl

/-- **The last write counts.** After any writes to the empty bitmap, in any order: every index has
the value that the last write to cover it has given it, or is unset if none covers it; to set a bit
tells whether that changes it; and every word holds the bits of its indices. -/
theorem last_write_counts (writes : List BitmapWrite) :
    let b := writes.foldl apply ∅
    (∀ i, b.get i = (lastValue writes i).getD false) ∧
      (∀ index value,
        (b.set index value).2 = (b.get index != ((set index value).apply b).get index)) ∧
      ∀ w (k : Fin 32), (b.word w).getLsbD k = b.get (32 * w + k) := by
  intro b
  refine ⟨fun i => ?_, fun index value => ?_, fun w k => b.getLsbD_word w k k.isLt⟩
  · rw [← Bitmap.get_empty i]
    exact get_foldl_apply writes ∅ i
  · have hwritten : ((set index value).apply b).get index = value := by
      rw [get_apply, covers, beq_self_eq_true, if_pos rfl, valueAt]
    rw [hwritten, b.set_changed]

end BitmapWrite

end LogSync
