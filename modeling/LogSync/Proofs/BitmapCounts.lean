import Mathlib.Data.Nat.Count
import Mathlib.Order.Interval.Finset.Nat
import LogSync.Proofs.BitmapPages

/-!
# The count of a range is a cardinality

The set bits of a range are counted page by page, as far as there are pages. They may as well be
counted by a walk through the range that passes by the pages that are not there and takes the rest
word by word, the first and the last word of a page in part (`Bitmap.countFrom`). One step of the
walk counts what it passes by (`Bitmap.countStep_spec`), so the walk counts the range, wherever in
a word or a page the range begins and ends; and both ways of counting come to the number of set
indices.
-/

namespace LogSync

/-! ## What is said -/

/-- The word in which a span of bits is set. -/
def Word.span (bit length : Nat) : Word := Word.firstBits length <<< bit

namespace Bitmap

/-- One step of a walk that counts the set bits of a range: the index to go on from, and the number
of set bits that the step has passed by. A page that is not there is passed by at once, and one that
is there up to the end of a word. -/
def countStep (b : Bitmap) (index stop : Nat) : Nat × Nat :=
  let pageStop := min ((index / pageBits + 1) * pageBits) stop
  if b.pages.contains (index / pageBits) then
    let length := min (32 - index % 32) (pageStop - index)
    (index + length, Word.count (b.word (index / 32) &&& Word.span (index % 32) length))
  else (pageStop, 0)

theorem lt_countStep (b : Bitmap) {index stop : Nat} (h : index < stop) :
    index < (b.countStep index stop).1 := by
  unfold countStep
  simp only
  split
  · simp only [div_pageBits, mul_pageBits]
    omega
  · simp only [div_pageBits, mul_pageBits]
    omega

/-- The number of set bits that the walk passes by on its way to the end of a range. -/
def countFrom (b : Bitmap) (index stop : Nat) : Nat :=
  if index < stop then
    (b.countStep index stop).2 + b.countFrom (b.countStep index stop).1 stop
  else 0
termination_by stop - index
decreasing_by have := b.lt_countStep ‹_›; omega

end Bitmap

/-! ## Steps and walks -/

theorem Word.getLsbD_span (bit length i : Nat) :
    (Word.span bit length).getLsbD i = decide (bit ≤ i ∧ i < bit + length ∧ i < 32) := by
  rw [span, BitVec.getLsbD_shiftLeft, Word.getLsbD_firstBits, Bool.eq_iff_iff]
  simp only [Bool.and_eq_true, Bool.not_eq_true', decide_eq_true_eq, decide_eq_false_iff_not]
  omega

namespace Bitmap

/-- The set bits of a part of a word. -/
theorem count_span (b : Bitmap) {index length : Nat} (hlength : index % 32 + length ≤ 32) :
    Word.count (b.word (index / 32) &&& Word.span (index % 32) length)
      = countBelow (fun i => b.get (index + i)) length := by
  have hbit (i : Nat) (hi : i < 32) :
      (b.word (index / 32) &&& Word.span (index % 32) length).getLsbD i
        = (b.get (32 * (index / 32) + i) &&
          decide (index % 32 ≤ i ∧ i < index % 32 + length ∧ i < 32)) := by
    rw [BitVec.getLsbD_and, getLsbD_word _ _ _ hi, Word.getLsbD_span]
  rw [Word.count, countBelow_window hlength fun i hi hset => ?_]
  · refine countBelow_congr fun i hi => ?_
    have hindex : 32 * (index / 32) + (index % 32 + i) = index + i := by omega
    rw [hbit _ (by omega), hindex, decide_eq_true (by omega), Bool.and_true]
  · rw [hbit i hi, Bool.and_eq_true, decide_eq_true_eq] at hset
    omega

/-- A step within a range goes on within the range, and counts the set bits that it passes by. -/
theorem countStep_spec (b : Bitmap) {index stop : Nat} (h : index < stop) :
    (b.countStep index stop).1 ≤ stop ∧
      (b.countStep index stop).2
        = countBelow (fun i => b.get (index + i)) ((b.countStep index stop).1 - index) := by
  unfold countStep
  simp only
  split
  · simp only [div_pageBits, mul_pageBits]
    refine ⟨by omega, ?_⟩
    rw [Nat.add_sub_cancel_left]
    exact b.count_span (by omega)
  · next hmissing =>
    rw [Bool.not_eq_true] at hmissing
    refine ⟨by omega, (countBelow_eq_zero fun i hi => ?_).symm⟩
    -- the step stays on the page, which is not there
    have hpage : (index + i) / pageBits = index / pageBits := by
      simp only [div_pageBits, mul_pageBits] at hi ⊢
      omega
    rw [← hpage] at hmissing
    exact get_of_not_contains hmissing

/-- The walk counts the set bits from its index on. -/
theorem countFrom_eq (b : Bitmap) (index stop : Nat) :
    b.countFrom index stop = countBelow (fun i => b.get (index + i)) (stop - index) := by
  fun_induction countFrom b index stop with
  | case1 index hlt ih =>
    obtain ⟨hle, hstep⟩ := b.countStep_spec hlt
    have hmove := b.lt_countStep hlt
    generalize b.countStep index stop = step at hle hstep hmove ih ⊢
    have hsplit : stop - index = (step.1 - index) + (stop - step.1) := by omega
    rw [hstep, ih, hsplit, countBelow_add]
    congr 1
    refine countBelow_congr fun i _ => ?_
    have hindex : index + (step.1 - index + i) = step.1 + i := by omega
    rw [hindex]
  | case2 index hend =>
    rw [Nat.sub_eq_zero_of_le (by omega)]
    rfl

/-- Counting page by page comes to the same. -/
theorem count_eq_countFrom (b : Bitmap) (r : BlockRange) :
    b.count r = b.countFrom r.start r.stop := by
  rw [count_eq_countBelow_from, countFrom_eq]

/-- Where a range is split makes no difference to its count. -/
theorem count_add_count (b : Bitmap) (start m n : Nat) :
    b.count ⟨start, m⟩ + b.count ⟨start + m, n⟩ = b.count ⟨start, m + n⟩ := by
  have hcount (start length : Nat) : b.count ⟨start, length⟩
      = countBelow (fun i => b.get (start + i)) (min (start + length) lastIndex - start) :=
    b.count_eq_countBelow_from ⟨start, length⟩
  rw [hcount, hcount, hcount]
  by_cases hmiddle : start + m ≤ lastIndex
  · have hfirst : min (start + m) lastIndex - start = m := by omega
    have hall : min (start + (m + n)) lastIndex - start
        = m + (min (start + m + n) lastIndex - (start + m)) := by omega
    rw [hfirst, hall, countBelow_add]
    simp only [Nat.add_assoc]
  · -- the first range reaches the largest index, so nothing is left for the second one
    have hsecond : min (start + m + n) lastIndex - (start + m) = 0 := by omega
    have hall : min (start + (m + n)) lastIndex - start
        = min (start + m) lastIndex - start := by omega
    rw [hsecond, hall]
    rfl

end Bitmap

/-! ## Cardinalities -/

theorem countBelow_eq_count (p : Nat → Bool) (n : Nat) :
    countBelow p n = Nat.count (fun i => p i = true) n := by
  induction n with
  | zero => rfl
  | succ n ih =>
    rw [countBelow, ih, Nat.count_succ]
    cases p n <;> rfl

namespace Bitmap

/-- The number of set bits in a range is the size of the set of their indices. -/
theorem count_eq_card (b : Bitmap) (r : BlockRange) :
    b.count r = ((Finset.Ico r.start r.stop).filter fun i => b.get i = true).card := by
  rw [count_eq_countBelow, countBelow_eq_count, Nat.count_eq_card_filter_range]
  congr 1
  ext i
  simp only [Finset.mem_filter, Finset.mem_range, Finset.mem_Ico, Bool.and_eq_true,
    decide_eq_true_eq]
  tauto

/-- **A count is a cardinality.** For every bitmap, whatever its pages, and for every range: its
count is the number of set indices from its start on and before its end, which is held back to the
largest index. So the counts of two ranges add up to that of the range which they make up, wherever
one ends and the other begins. And to walk through the range, word by word on the pages that are
there and past those that are not, comes to the same count. -/
theorem count_is_cardinality (b : Bitmap) :
    (∀ start length, b.count ⟨start, length⟩
      = ((Finset.Ico start (min (start + length) 0xFFFFFFFFFFFFFFFF)).filter
          fun i => b.get i = true).card) ∧
    (∀ start m n, b.count ⟨start, m⟩ + b.count ⟨start + m, n⟩ = b.count ⟨start, m + n⟩) ∧
    ∀ r : BlockRange, b.countFrom r.start r.stop = b.count r := by
  refine ⟨fun start length => b.count_eq_card _, fun start m n => ?_,
    fun r => (b.count_eq_countFrom r).symm⟩
  exact b.count_add_count start m n

end Bitmap

end LogSync
