import Mathlib.Data.List.Perm.Subperm
import LogSync.Proofs.BitmapHistories
import LogSync.Proofs.SortedMaps

/-!
# Where the pages of a bitmap come from

The pages of a bitmap are its cost. None is ever given up, so it matters what allocates one. To set
a bit does, if there is no page for it yet. To unset bits does not, with one exception: words that
line up with those of the bitmap replace them, and this allocates the pages they lie on even where
no bit of theirs is set.

So a page is there if and only if some write has set a bit of it or replaced a word of it
(`BitmapWrite.contains_foldl_apply`), and all that is said here about the pages of a bitmap follows
from what one write allocates (`BitmapWrite.contains_apply`).
-/

namespace LogSync

/-! ## What is said -/

namespace BitmapWrite

/-- Whether a write sets a bit of a page. -/
def SetsOn (write : BitmapWrite) (k : Nat) : Prop :=
  ∃ i, i / pageBits = k ∧ write.covers i = true ∧ write.valueAt i = true

/-- Whether a write replaces a word of a page, as words that line up do. -/
def ReplacesOn : BitmapWrite → Nat → Prop
  | insertWords start words, k =>
    start % 32 = 0 ∧ ∃ i, i / pageBits = k ∧ start ≤ i ∧ i < start + 32 * words.length
  | _, _ => False

end BitmapWrite

/-! ## The pages after one change -/

namespace SortedMap

variable {κ α : Type} [Ord κ] [Std.LawfulEqOrd κ]

theorem nodup_keys (m : SortedMap κ α) : m.keys.Nodup := by
  refine List.pairwise_map.2 (m.ascending.imp fun {a b} hlt heq => ?_)
  rw [heq, Std.ReflOrd.compare_self] at hlt
  contradiction

/-- A map that has all the keys of another one is no larger only if it has no others. -/
theorem size_le_iff {m n : SortedMap κ α} (h : ∀ k, m.contains k = true → n.contains k = true) :
    n.size ≤ m.size ↔ ∀ k, n.contains k = true → m.contains k = true := by
  have hkeys : m.keys ⊆ n.keys := fun k hk => mem_keys_iff.2 (h k (mem_keys_iff.1 hk))
  have hsize (l : SortedMap κ α) : l.size = l.keys.length := (List.length_map _).symm
  rw [hsize, hsize]
  constructor
  · intro hle k hk
    have hperm : m.keys.Perm n.keys := (m.nodup_keys.subperm hkeys).perm_of_length_le hle
    exact mem_keys_iff.1 (hperm.mem_iff.2 (mem_keys_iff.2 hk))
  · intro hback
    have hkeys' : n.keys ⊆ m.keys := fun k hk => mem_keys_iff.2 (hback k (mem_keys_iff.1 hk))
    exact (n.nodup_keys.subperm hkeys').length_le

end SortedMap

namespace Bitmap

/-- A page that is not there shows no bits. -/
theorem page_of_not_contains {b : Bitmap} {k : Nat} (h : b.pages.contains k = false) :
    b.page k = 0 := by
  rw [page, SortedMap.contains_eq_false.1 h, Option.getD_none]

theorem get_of_not_contains {b : Bitmap} {i : Nat}
    (h : b.pages.contains (i / pageBits) = false) : b.get i = false := by
  rw [get, page_of_not_contains h]
  exact BitVec.getLsbD_zero

/-- A set bit lies on an allocated page. -/
theorem contains_of_get {b : Bitmap} {i : Nat} (h : b.get i = true) :
    b.pages.contains (i / pageBits) = true := by
  cases hpage : b.pages.contains (i / pageBits) with
  | true => rfl
  | false =>
    rw [get_of_not_contains hpage] at h
    contradiction

theorem contains_touchPage (b : Bitmap) (k j : Nat) (f : Page → Page) :
    (b.touchPage k f).pages.contains j = true ↔ b.pages.contains j = true ∨ j = k := by
  have h : (b.touchPage k f).pages.contains j = (decide (j = k) || b.pages.contains j) :=
    SortedMap.contains_insert _ _ _ _
  rw [h, Bool.or_eq_true, decide_eq_true_eq, or_comm]

/-- Only setting a bit allocates its page; one that is unset has its page already. -/
theorem contains_set (b : Bitmap) (index : Nat) (value : Bool) (k : Nat) :
    (b.set index value).1.pages.contains k = true ↔
      b.pages.contains k = true ∨ (value = true ∧ index / pageBits = k) := by
  unfold set
  split
  · next hsame =>
    -- a bit that is set already has its page
    refine ⟨Or.inl, ?_⟩
    rintro (hk | ⟨rfl, rfl⟩)
    · exact hk
    · exact contains_of_get hsame
  · next hother =>
    rw [contains_touchPage]
    cases value with
    | true => simp only [true_and, eq_comm]
    | false =>
      have hpage : b.pages.contains (index / pageBits) = true :=
        contains_of_get (Bool.not_eq_false _ ▸ hother)
      refine ⟨?_, fun h => h.imp_right fun h => absurd h.1 Bool.false_ne_true⟩
      rintro (hk | rfl)
      · exact Or.inl hk
      · exact Or.inl hpage

theorem contains_foldl_touchPage (ks : List Nat) (b : Bitmap) (f : Nat → Page → Page) (k : Nat) :
    (ks.foldl (fun b k => b.touchPage k (f k)) b).pages.contains k = true ↔
      b.pages.contains k = true ∨ k ∈ ks := by
  induction ks generalizing b with
  | nil => simp
  | cons j ks ih => rw [List.foldl_cons, ih, contains_touchPage, List.mem_cons, or_assoc]

/-- A range that is set allocates the pages that it meets. -/
theorem contains_fill (b : Bitmap) (start stop k : Nat) :
    (b.fill start stop).pages.contains k = true ↔
      b.pages.contains k = true ∨ ∃ i, start ≤ i ∧ i < stop ∧ i / pageBits = k := by
  unfold fill
  split
  · rw [contains_foldl_touchPage _ b fun k p => p ||| pageWindow k start stop]
    refine or_congr_right ?_
    rw [List.mem_range'_1]
    simp only [div_pageBits]
    constructor
    · -- the first index of the range on the page
      exact fun hk => ⟨max start (k * 32768), by omega, by omega, by omega⟩
    · rintro ⟨i, hstart, hstop, rfl⟩
      omega
  · exact ⟨Or.inl, fun h => h.elim id fun ⟨i, hstart, hstop, _⟩ => by omega⟩

/-- A range that is unset leaves the pages as they are. -/
theorem contains_clear (b : Bitmap) (start stop k : Nat) :
    (b.clear start stop).pages.contains k = b.pages.contains k :=
  SortedMap.contains_mapValues _ _ _

/-- Setting a range allocates the pages that it meets; unsetting it allocates none. -/
theorem contains_setRange (b : Bitmap) (r : BlockRange) (value : Bool) (k : Nat) :
    (b.setRange r value).pages.contains k = true ↔
      b.pages.contains k = true ∨
        (value = true ∧ ∃ i, r.start ≤ i ∧ i < r.stop ∧ i / pageBits = k) := by
  unfold setRange
  cases value with
  | true =>
    rw [if_pos rfl, contains_fill]
    simp only [true_and]
  | false =>
    rw [if_neg Bool.false_ne_true, contains_clear]
    simp

/-! ### Words -/

/-- Bits that are written one by one allocate the pages of those that are set. -/
theorem contains_foldl_set (b : Bitmap) (start n : Nat) (bits : Word) (k : Nat) :
    ((List.range n).foldl (fun b j => (b.set (start + j) (bits.getLsbD j)).1) b).pages.contains k
        = true ↔
      b.pages.contains k = true ∨
        ∃ j < n, bits.getLsbD j = true ∧ (start + j) / pageBits = k := by
  induction n with
  | zero => simp
  | succ n ih =>
    rw [List.range_succ, List.foldl_append, List.foldl_cons, List.foldl_nil, contains_set, ih,
      or_assoc]
    refine or_congr_right ⟨?_, ?_⟩
    · rintro (⟨j, hj, hbit⟩ | hbit)
      · exact ⟨j, by omega, hbit⟩
      · exact ⟨n, by omega, hbit⟩
    · rintro ⟨j, hj, hbit⟩
      rcases Nat.lt_succ_iff_lt_or_eq.1 hj with hlt | rfl
      · exact Or.inl ⟨j, hlt, hbit⟩
      · exact Or.inr hbit

/-- One of several words allocates its page if it lines up, and else the pages of its set bits. -/
theorem contains_insertWord (b : Bitmap) (start o : Nat) (bits : Word) (k : Nat) :
    (if start % 32 = 0 then b.setWord (start / 32 + o) bits
        else b.setBits (start + 32 * o) bits).pages.contains k = true ↔
      b.pages.contains k = true ∨
        ∃ j < 32, (start % 32 = 0 ∨ bits.getLsbD j = true) ∧
          (start + 32 * o + j) / pageBits = k := by
  by_cases haligned : start % 32 = 0
  · rw [if_pos haligned, setWord, contains_touchPage]
    refine or_congr_right ?_
    simp only [haligned, true_or, true_and, div_pageBits]
    constructor
    · exact fun hk => ⟨0, by omega, by omega⟩
    · rintro ⟨j, hj, hk⟩
      omega
  · rw [if_neg haligned, setBits, contains_foldl_set]
    simp only [haligned, false_or]

/-- Word after word. -/
theorem contains_foldl_insertWord (b : Bitmap) (start o : Nat) (words : List Word) (k : Nat) :
    ((words.zipIdx o).foldl
      (fun b (bits, o) =>
        if start % 32 = 0 then b.setWord (start / 32 + o) bits
        else b.setBits (start + 32 * o) bits)
      b).pages.contains k = true ↔
      b.pages.contains k = true ∨
        ∃ j < 32 * words.length, (start % 32 = 0 ∨ wordsBit words j = true) ∧
          (start + 32 * o + j) / pageBits = k := by
  induction words generalizing b o with
  | nil => simp
  | cons w words ih =>
    rw [List.zipIdx_cons, List.foldl_cons, ih, contains_insertWord, or_assoc, List.length_cons]
    refine or_congr_right ⟨?_, ?_⟩
    · rintro (⟨j, hj, hset, hk⟩ | ⟨j, hj, hset, hk⟩)
      · refine ⟨j, by omega, ?_, hk⟩
        rwa [wordsBit_cons, if_pos hj]
      · refine ⟨j + 32, by omega, ?_, ?_⟩
        · rwa [wordsBit_cons, if_neg (by omega), Nat.add_sub_cancel]
        · rw [← hk]
          congr 1
          omega
    · rintro ⟨j, hj, hset, hk⟩
      rw [wordsBit_cons] at hset
      by_cases hfirst : j < 32
      · rw [if_pos hfirst] at hset
        exact Or.inl ⟨j, hfirst, hset, hk⟩
      · rw [if_neg hfirst] at hset
        refine Or.inr ⟨j - 32, by omega, hset, ?_⟩
        rw [← hk]
        congr 1
        omega

theorem contains_insertWords (b : Bitmap) (start : Nat) (words : List Word) (k : Nat) :
    (b.insertWords start words).pages.contains k = true ↔
      b.pages.contains k = true ∨
        ∃ j < 32 * words.length, (start % 32 = 0 ∨ wordsBit words j = true) ∧
          (start + j) / pageBits = k :=
  b.contains_foldl_insertWord start 0 words k

end Bitmap

/-! ## Writes and histories -/

namespace BitmapWrite

/-- **What a write allocates**: the pages on which it sets a bit or replaces a word. -/
theorem contains_apply (write : BitmapWrite) (b : Bitmap) (k : Nat) :
    (write.apply b).pages.contains k = true ↔
      b.pages.contains k = true ∨ write.SetsOn k ∨ write.ReplacesOn k := by
  cases write with
  | set index value =>
    rw [apply, Bitmap.contains_set]
    refine or_congr_right ?_
    simp only [SetsOn, ReplacesOn, covers, valueAt, beq_iff_eq, or_false]
    constructor
    · rintro ⟨hvalue, hk⟩
      exact ⟨index, hk, rfl, hvalue⟩
    · rintro ⟨i, hk, rfl, hvalue⟩
      exact ⟨hvalue, hk⟩
  | setRange range value =>
    rw [apply, Bitmap.contains_setRange]
    refine or_congr_right ?_
    simp only [SetsOn, ReplacesOn, covers, valueAt, decide_eq_true_eq, or_false]
    constructor
    · rintro ⟨hvalue, i, hstart, hstop, hk⟩
      exact ⟨i, hk, ⟨hstart, hstop⟩, hvalue⟩
    · rintro ⟨i, hk, ⟨hstart, hstop⟩, hvalue⟩
      exact ⟨hvalue, i, hstart, hstop, hk⟩
  | insertWords start words =>
    rw [apply, Bitmap.contains_insertWords]
    refine or_congr_right ?_
    simp only [SetsOn, ReplacesOn, covers, valueAt, decide_eq_true_eq]
    constructor
    · rintro ⟨j, hj, haligned | hset, hk⟩
      · exact Or.inr ⟨haligned, start + j, hk, by omega, by omega⟩
      · refine Or.inl ⟨start + j, hk, by omega, ?_⟩
        rwa [Nat.add_sub_cancel_left]
    · rintro (⟨i, hk, hin, hset⟩ | ⟨haligned, i, hk, hin⟩)
      · refine ⟨i - start, by omega, Or.inr hset, ?_⟩
        rwa [Nat.add_sub_of_le hin.1]
      · refine ⟨i - start, by omega, Or.inl haligned, ?_⟩
        rwa [Nat.add_sub_of_le hin.1]

/-- After any writes, the pages are those of before and those that one of the writes allocates. -/
theorem contains_foldl_apply (writes : List BitmapWrite) (b : Bitmap) (k : Nat) :
    (writes.foldl apply b).pages.contains k = true ↔
      b.pages.contains k = true ∨ ∃ write ∈ writes, write.SetsOn k ∨ write.ReplacesOn k := by
  induction writes generalizing b with
  | nil => simp
  | cons write later ih =>
    rw [List.foldl_cons, ih, contains_apply, or_assoc]
    simp only [List.mem_cons, exists_eq_or_imp]

/-- **Pages are of set bits, but for words that are replaced.** After any writes to the empty
bitmap, a page is there if and only if one of them has set a bit of it or replaced a word of it. So
all pages are of set bits if and only if, wherever words are replaced, some write sets a bit of the
same page. A write that sets no bit adds no page if and only if the pages are there on which it
replaces words, so to unset a bit or a range never adds one. And to set a range adds exactly the
pages that the range meets. -/
theorem pages_are_of_set_bits_iff (writes : List BitmapWrite) :
    let b := writes.foldl apply ∅
    (∀ k, b.pages.contains k = true ↔
      (∃ write ∈ writes, write.SetsOn k) ∨ ∃ write ∈ writes, write.ReplacesOn k) ∧
    ((∀ k, b.pages.contains k = true → ∃ write ∈ writes, write.SetsOn k) ↔
      ∀ write ∈ writes, ∀ k, write.ReplacesOn k → ∃ setter ∈ writes, setter.SetsOn k) ∧
    (∀ write : BitmapWrite, (∀ i, write.covers i = true → write.valueAt i = false) →
      ((write.apply b).pageCount ≤ b.pageCount ↔
        ∀ k, write.ReplacesOn k → b.pages.contains k = true)) ∧
    ∀ (range : BlockRange) k, (b.setRange range true).pages.contains k = true ↔
      b.pages.contains k = true ∨
        ∃ i, range.start ≤ i ∧ i < min (range.start + range.length) 0xFFFFFFFFFFFFFFFF ∧
          i / pageBits = k := by
  intro b
  have hpages (k : Nat) : b.pages.contains k = true ↔
      (∃ write ∈ writes, write.SetsOn k) ∨ ∃ write ∈ writes, write.ReplacesOn k := by
    rw [contains_foldl_apply]
    simp only [and_or_left, exists_or]
    exact or_iff_right Bool.false_ne_true
  refine ⟨hpages, ⟨?_, ?_⟩, fun write hunsets => ?_, fun range k => ?_⟩
  · exact fun hall write hmem k hreplaces => hall k ((hpages k).2 (Or.inr ⟨write, hmem, hreplaces⟩))
  · intro hall k hk
    rcases (hpages k).1 hk with hset | ⟨write, hmem, hreplaces⟩
    · exact hset
    · exact hall write hmem k hreplaces
  · -- what the write adds are the pages on which it replaces words
    have hnone (k : Nat) : ¬ write.SetsOn k := by
      rintro ⟨i, -, hcovers, hvalue⟩
      rw [hunsets i hcovers] at hvalue
      contradiction
    have hkept (k : Nat) (hk : b.pages.contains k = true) :
        (write.apply b).pages.contains k = true := (contains_apply write b k).2 (Or.inl hk)
    have hadded (k : Nat) : (write.apply b).pages.contains k = true ↔
        b.pages.contains k = true ∨ write.ReplacesOn k := by
      rw [contains_apply, or_iff_right (hnone k)]
    unfold Bitmap.pageCount
    rw [SortedMap.size_le_iff hkept]
    simp only [hadded, or_imp, imp_self, true_and]
  · rw [Bitmap.contains_setRange]
    simp only [true_and]
    rfl

/-- A word of zeros sets no bit, and is there to be paid for: the bitmap gets a page for it. -/
theorem zero_word_is_paid_for :
    let zeros := insertWords 0 [0]
    (∀ i, zeros.valueAt i = false) ∧
      ¬ (∀ k, ([zeros].foldl apply ∅).pages.contains k = true →
        ∃ write ∈ [zeros], write.SetsOn k) ∧
      ¬ (zeros.apply ∅).pageCount ≤ (∅ : Bitmap).pageCount := by
  intro zeros
  have hunset (i : Nat) : zeros.valueAt i = false := by
    show wordsBit [0] (i - 0) = false
    rw [wordsBit_cons]
    split
    · exact BitVec.getLsbD_zero
    · rfl
  refine ⟨hunset, fun hall => ?_, by decide⟩
  obtain ⟨write, hmem, i, -, -, hset⟩ := hall 0 (by decide)
  rw [List.mem_singleton.1 hmem, hunset] at hset
  contradiction

end BitmapWrite

end LogSync
