import LogSync.Proofs.BitmapReads

/-!
# What the writes of a bitmap do to its bits

Every write comes down to changes of single pages. Seen through `Bitmap.get`, a write gives the
bits that it covers their value and leaves the others alone, whatever pages were there before.
-/

namespace LogSync

/-- Whether a run of blocks holds an index. -/
def BlockRange.covers (r : BlockRange) (i : Nat) : Bool := decide (r.start ≤ i ∧ i < r.stop)

namespace Bitmap

theorem get_empty (i : Nat) : (∅ : Bitmap).get i = false := BitVec.getLsbD_zero

/-- A bitmap that is not there has no bits. -/
theorem get_getD_empty (b : Option Bitmap) (i : Nat) : (b.getD ∅).get i = b.any (·.get i) := by
  cases b with
  | none => exact get_empty i
  | some b => rfl

/-! ## Pages -/

theorem page_touchPage (b : Bitmap) (k j : Nat) (f : Page → Page) :
    (b.touchPage k f).page j = if j = k then f (b.page k) else b.page j := by
  unfold page touchPage
  rw [SortedMap.get?_upsert]
  split <;> rfl

/-- The change of a page leaves the bits of all other pages alone. -/
theorem get_touchPage (b : Bitmap) (k i : Nat) (f : Page → Page) :
    (b.touchPage k f).get i
      = if i / pageBits = k then (f (b.page k)).getLsbD (i % pageBits) else b.get i := by
  unfold get
  rw [page_touchPage]
  split <;> rfl

/-- On its own page, a window is the range that it was cut out of. -/
theorem getLsbD_pageWindow (start stop i : Nat) :
    (pageWindow (i / pageBits) start stop).getLsbD (i % pageBits)
      = decide (start ≤ i ∧ i < stop) := by
  rw [pageWindow, Page.getLsbD_window]
  simp only [pageBits_eq]
  exact decide_eq_decide.2 (by omega)

/-! ## One bit -/

/-- A write of one bit tells whether the bit had another value. -/
theorem set_changed (b : Bitmap) (index : Nat) (value : Bool) :
    (b.set index value).2 = (b.get index != value) := by
  unfold set
  split
  · next hsame => rw [hsame, bne_self_eq_false]
  · next hother => exact (bne_iff_ne.2 hother).symm

/-- Setting a bit changes that bit and no other. -/
theorem get_set (b : Bitmap) (index i : Nat) (value : Bool) :
    (b.set index value).1.get i = if i = index then value else b.get i := by
  have hbit : (Page.window (index % pageBits) (index % pageBits + 1)).getLsbD (i % pageBits)
      = decide (i % pageBits = index % pageBits) := by
    rw [Page.getLsbD_window]
    simp only [pageBits_eq]
    exact decide_eq_decide.2 (by omega)
  -- an index is its page and its place on the page
  have hplace : i = index ↔ i / pageBits = index / pageBits ∧ i % pageBits = index % pageBits := by
    simp only [div_pageBits, mod_pageBits]
    omega
  unfold set
  split
  · next hsame =>
    split
    · next hi => rw [hi, hsame]
    · rfl
  · rw [get_touchPage]
    by_cases hpage : i / pageBits = index / pageBits
    · have hget : (b.page (index / pageBits)).getLsbD (i % pageBits) = b.get i := by
        rw [get, hpage]
      rw [if_pos hpage]
      simp only [hplace, hpage, true_and]
      cases value with
      | true =>
        rw [if_pos rfl, BitVec.getLsbD_or, hbit, hget]
        split <;> simp [*]
      | false =>
        rw [if_neg Bool.false_ne_true, BitVec.getLsbD_and, BitVec.getLsbD_not, hbit, hget]
        have hlt : i % pageBits < pageBits := Nat.mod_lt _ (by decide)
        split <;> simp [*]
    · rw [if_neg hpage, if_neg fun hi => hpage (hplace.1 hi).1]

/-! ## Ranges -/

/-- Filling page after page covers the part of the range that lies on the pages. -/
theorem get_foldl_touchPage (ks : List Nat) (b : Bitmap) (start stop i : Nat) :
    (ks.foldl (fun b k => b.touchPage k (· ||| pageWindow k start stop)) b).get i
      = (b.get i || (decide (i / pageBits ∈ ks) && decide (start ≤ i ∧ i < stop))) := by
  induction ks generalizing b with
  | nil => simp
  | cons k ks ih =>
    rw [List.foldl_cons, ih, get_touchPage]
    by_cases hk : i / pageBits = k
    · subst hk
      rw [if_pos rfl, BitVec.getLsbD_or, getLsbD_pageWindow,
        show (b.page (i / pageBits)).getLsbD (i % pageBits) = b.get i from rfl]
      cases b.get i <;> simp
    · simp [hk]

theorem get_fill (b : Bitmap) (start stop i : Nat) :
    (b.fill start stop).get i = (b.get i || decide (start ≤ i ∧ i < stop)) := by
  unfold fill
  split
  · -- an index of the range lies on one of the pages that the range meets
    rw [get_foldl_touchPage]
    congr 1
    rw [← Bool.decide_and]
    refine decide_eq_decide.2 ⟨And.right, fun hi => ⟨?_, hi⟩⟩
    rw [List.mem_range'_1]
    simp only [div_pageBits]
    omega
  · rw [decide_eq_false (by omega), Bool.or_false]

theorem get_clear (b : Bitmap) (start stop i : Nat) :
    (b.clear start stop).get i = (b.get i && !decide (start ≤ i ∧ i < stop)) := by
  have hpage : (b.clear start stop).page (i / pageBits)
      = b.page (i / pageBits) &&& ~~~pageWindow (i / pageBits) start stop := by
    unfold clear page
    rw [SortedMap.get?_mapValues]
    cases b.pages.get? (i / pageBits) with
    | some p => rfl
    | none => exact (BitVec.zero_and).symm
  have hlt : i % pageBits < pageBits := Nat.mod_lt _ (by decide)
  rw [get, hpage, BitVec.getLsbD_and, BitVec.getLsbD_not, getLsbD_pageWindow, decide_eq_true hlt,
    Bool.true_and]
  rfl

/-- A range is given its value, and the other bits keep theirs. -/
theorem get_setRange (b : Bitmap) (r : BlockRange) (value : Bool) (i : Nat) :
    (b.setRange r value).get i = if r.covers i then value else b.get i := by
  unfold setRange BlockRange.covers
  cases value with
  | true =>
    rw [if_pos rfl, get_fill]
    cases decide (r.start ≤ i ∧ i < r.stop) <;> simp
  | false =>
    rw [if_neg Bool.false_ne_true, get_clear]
    cases decide (r.start ≤ i ∧ i < r.stop) <;> simp

end Bitmap

/-! ## Words -/

/-- The bit at an offset into some words; beyond them there is none. -/
def wordsBit (words : List Word) (offset : Nat) : Bool :=
  words[offset / 32]?.any (·.getLsbD (offset % 32))

theorem wordsBit_cons (w : Word) (words : List Word) (offset : Nat) :
    wordsBit (w :: words) offset
      = if offset < 32 then w.getLsbD offset else wordsBit words (offset - 32) := by
  unfold wordsBit
  by_cases hfirst : offset < 32
  · rw [if_pos hfirst, Nat.div_eq_of_lt hfirst, Nat.mod_eq_of_lt hfirst]
    rfl
  · have hdiv : offset / 32 = (offset - 32) / 32 + 1 := by omega
    have hmod : offset % 32 = (offset - 32) % 32 := by omega
    rw [if_neg hfirst, hdiv, hmod, List.getElem?_cons_succ]

namespace Page

/-- A word that is replaced shows its new bits, and the rest of the page stays. -/
theorem getLsbD_setWord (p : Page) (w : Nat) (bits : Word) {i : Nat} (hi : i < pageBits) :
    (p.setWord w bits).getLsbD i = if i / 32 = w then bits.getLsbD (i % 32) else p.getLsbD i := by
  have hshifted (x : Word) : (x.setWidth pageBits <<< (32 * w)).getLsbD i
      = (!decide (i < 32 * w) && x.getLsbD (i - 32 * w)) := by
    have hlt : i - 32 * w < pageBits := Nat.lt_of_le_of_lt (Nat.sub_le _ _) hi
    rw [BitVec.getLsbD_shiftLeft, BitVec.getLsbD_setWidth, decide_eq_true hi, decide_eq_true hlt,
      Bool.true_and, Bool.true_and]
  rw [setWord, BitVec.getLsbD_or, BitVec.getLsbD_and, BitVec.getLsbD_not, decide_eq_true hi,
    hshifted, hshifted, BitVec.getLsbD_allOnes]
  by_cases hw : i / 32 = w
  · have hle : ¬ i < 32 * w := by omega
    have hbit : i - 32 * w = i % 32 := by omega
    have hlt : i % 32 < 32 := Nat.mod_lt _ (by decide)
    simp [hw, hbit, hlt, hle]
  · by_cases hbefore : i < 32 * w
    · simp [hw, hbefore]
    · have hbeyond : 32 ≤ i - 32 * w := by omega
      simp [hw, hbefore, Nat.not_lt.2 hbeyond, BitVec.getLsbD_of_ge bits _ hbeyond]

end Page

namespace Bitmap

/-- A word that is replaced shows its new bits, and the other words stay. -/
theorem get_setWord (b : Bitmap) (w : Nat) (bits : Word) (i : Nat) :
    (b.setWord w bits).get i = if i / 32 = w then bits.getLsbD (i % 32) else b.get i := by
  have hlt : i % pageBits < pageBits := Nat.mod_lt _ (by decide)
  -- an index lies in a word if it lies on the word's page, at the word's place on the page
  have hplace : i / 32 = w ↔ i / pageBits = w / 1024 ∧ i % pageBits / 32 = w % 1024 := by
    simp only [div_pageBits, mod_pageBits]
    omega
  have hbit : i % pageBits % 32 = i % 32 := by
    simp only [mod_pageBits]
    omega
  rw [setWord, get_touchPage]
  by_cases hpage : i / pageBits = w / 1024
  · have hget : (b.page (w / 1024)).getLsbD (i % pageBits) = b.get i := by rw [get, hpage]
    rw [if_pos hpage, Page.getLsbD_setWord _ _ _ hlt, hget, hbit]
    simp only [hplace, hpage, true_and]
  · rw [if_neg hpage, if_neg fun hw => hpage (hplace.1 hw).1]

/-- Bits that are written one by one. -/
theorem get_foldl_set (b : Bitmap) (start n i : Nat) (bits : Word) :
    ((List.range n).foldl (fun b k => (b.set (start + k) (bits.getLsbD k)).1) b).get i
      = if start ≤ i ∧ i < start + n then bits.getLsbD (i - start) else b.get i := by
  induction n with
  | zero => rw [if_neg (by omega)]; rfl
  | succ n ih =>
    rw [List.range_succ, List.foldl_append, List.foldl_cons, List.foldl_nil, get_set, ih]
    by_cases hlast : i = start + n
    · rw [if_pos hlast, if_pos (by omega), hlast, Nat.add_sub_cancel_left]
    · have hbefore : i < start + (n + 1) ↔ i < start + n := by omega
      simp only [if_neg hlast, hbefore]

/-- One of several words is written at its offset, whether it lines up with the bitmap's own words
or not. -/
theorem get_insertWord (b : Bitmap) (start k i : Nat) (bits : Word) :
    (if start % 32 = 0 then b.setWord (start / 32 + k) bits
      else b.setBits (start + 32 * k) bits).get i
      = if start + 32 * k ≤ i ∧ i < start + 32 * k + 32 then bits.getLsbD (i - (start + 32 * k))
        else b.get i := by
  by_cases haligned : start % 32 = 0
  · have hplace : i / 32 = start / 32 + k ↔ start + 32 * k ≤ i ∧ i < start + 32 * k + 32 := by
      omega
    rw [if_pos haligned, get_setWord]
    simp only [hplace]
    split
    · next hin =>
      have hbit : i % 32 = i - (start + 32 * k) := by omega
      rw [hbit]
    · rfl
  · rw [if_neg haligned]
    exact b.get_foldl_set (start + 32 * k) 32 i bits

/-- Word after word. -/
theorem get_foldl_insertWord (b : Bitmap) (start k i : Nat) (words : List Word) :
    ((words.zipIdx k).foldl
      (fun b (bits, k) =>
        if start % 32 = 0 then b.setWord (start / 32 + k) bits else b.setBits (start + 32 * k) bits)
      b).get i
      = if start + 32 * k ≤ i ∧ i < start + 32 * (k + words.length) then
          wordsBit words (i - (start + 32 * k))
        else b.get i := by
  induction words generalizing b k with
  | nil => rw [if_neg (by simp)]; rfl
  | cons w words ih =>
    rw [List.zipIdx_cons, List.foldl_cons, ih, get_insertWord, wordsBit_cons, List.length_cons]
    by_cases hlater : start + 32 * (k + 1) ≤ i
    · -- the words behind the first one do not reach back to it
      have hnotfirst : ¬ (start + 32 * k ≤ i ∧ i < start + 32 * k + 32) := by omega
      have hoffset : ¬ i - (start + 32 * k) < 32 := by omega
      have hshift : i - (start + 32 * k) - 32 = i - (start + 32 * (k + 1)) := by omega
      have hreach : (start + 32 * (k + 1) ≤ i ∧ i < start + 32 * (k + 1 + words.length)) ↔
          (start + 32 * k ≤ i ∧ i < start + 32 * (k + (words.length + 1))) := by omega
      rw [if_neg hnotfirst, if_neg hoffset, hshift]
      simp only [hreach]
    · have hreach : ¬ (start + 32 * (k + 1) ≤ i ∧ i < start + 32 * (k + 1 + words.length)) := by
        omega
      have hfirst : (start + 32 * k ≤ i ∧ i < start + 32 * k + 32) ↔
          (start + 32 * k ≤ i ∧ i < start + 32 * (k + (words.length + 1))) := by omega
      have hoffset : i - (start + 32 * k) < 32 := by omega
      rw [if_neg hreach, if_pos hoffset]
      simp only [hfirst]

/-- The bits that the words cover take their value, and the others keep theirs. -/
theorem get_insertWords (b : Bitmap) (start i : Nat) (words : List Word) :
    (b.insertWords start words).get i
      = if start ≤ i ∧ i < start + 32 * words.length then wordsBit words (i - start)
        else b.get i := by
  have h := b.get_foldl_insertWord start 0 i words
  rw [Nat.zero_add] at h
  exact h

/-- A bitmap that is made of words has no other bits. -/
theorem get_ofWords (start i : Nat) (words : List Word) :
    (ofWords start words).get i
      = (decide (start ≤ i ∧ i < start + 32 * words.length) && wordsBit words (i - start)) := by
  have hempty : Bitmap.empty.get i = false := get_empty i
  rw [ofWords, get_insertWords, hempty]
  by_cases hin : start ≤ i ∧ i < start + 32 * words.length
  · rw [if_pos hin, decide_eq_true hin, Bool.true_and]
  · rw [if_neg hin, decide_eq_false hin, Bool.false_and]

end Bitmap

end LogSync
