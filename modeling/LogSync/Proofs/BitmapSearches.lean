import LogSync.Proofs.BitmapHistories
import LogSync.Proofs.SortedMaps

/-!
# The searches of a bitmap are exact

A search for a set bit walks the pages that are there. A search for an unset bit goes page after
page, be they there or not, in rounds: a round answers, or the whole rest of its page is set and the
next round begins with the next page (`Bitmap.unsetRound_spec`). A round that goes on has met a
page, and every round meets another one, so the search ends within one round more than there are
pages (`Bitmap.unsetWithin_eq`).

On any bitmap the search for an unset bit gives the least index there is, and so does the search for
a set bit, if no bit is set beyond the index space. A bitmap that was made by writes within the index
space has no such bit, so both are exact there (`BitmapWrite.searches_are_exact`).
-/

namespace LogSync

/-! ## What is said -/

namespace Bitmap

/-- One round of the search for an unset bit, on the page of an index: the answer on the right, or
the index to go on from on the left. -/
def unsetRound (b : Bitmap) (index : Nat) : Nat ⊕ Nat :=
  match b.pages.get? (index / pageBits) with
  | none => .inr index
  | some p =>
    match (~~~p).firstSet (index % pageBits) with
    | some i => .inr (index / pageBits * pageBits + i)
    | none =>
      let next := min ((index / pageBits + 1) * pageBits) lastIndex
      if next = lastIndex then .inr next else .inl next

/-- The answer of the search for an unset bit, if it ends within a number of rounds. -/
def unsetWithin (b : Bitmap) : (rounds : Nat) → (index : Nat) → Option Nat
  | 0, _ => none
  | rounds + 1, index =>
    match b.unsetRound index with
    | .inr answer => some answer
    | .inl next => b.unsetWithin rounds next

/-- An index is one that the search for an unset bit should answer: all bits before it are set, and
its own is not, unless it is the largest index. -/
structure IsFirstUnset (b : Bitmap) (start answer : Nat) : Prop where
  start_le : start ≤ answer
  le_last : answer ≤ lastIndex
  set_before : ∀ j, start ≤ j → j < answer → b.get j = true
  unset : answer < lastIndex → b.get answer = false

end Bitmap

/-- A write stays within the index space; a range always does. -/
def BitmapWrite.Fits : BitmapWrite → Prop
  | set index _ => index ≤ lastIndex
  | setRange _ _ => True
  | insertWords start words => Bitmap.WordsFit start words

/-! ## The search for an unset bit -/

namespace Bitmap

/-- On a page that is there, the bits are those of the page. -/
theorem get_of_page {b : Bitmap} {k i : Nat} {p : Page} (hp : b.pages.get? k = some p)
    (hi : i / pageBits = k) : b.get i = p.getLsbD (i % pageBits) := by
  rw [get, page, hi, hp, Option.getD_some]

/-- The complement of a page shows what is unset on it. -/
theorem getLsbD_not_page (p : Page) (i : Nat) :
    (~~~p).getLsbD (i % pageBits) = !p.getLsbD (i % pageBits) := by
  have hlt : i % pageBits < pageBits := Nat.mod_lt _ (by decide)
  rw [BitVec.getLsbD_not, decide_eq_true hlt, Bool.true_and]

/-- A round answers what the search should answer, or leaves only set bits behind. -/
theorem unsetRound_spec (b : Bitmap) {index : Nat} (hindex : index ≤ lastIndex) :
    match b.unsetRound index with
    | .inr answer => b.IsFirstUnset index answer
    | .inl next => index < next ∧ next ≤ lastIndex ∧
        ∀ j, index ≤ j → j < next → b.get j = true := by
  unfold unsetRound
  cases hp : b.pages.get? (index / pageBits) with
  | none =>
    have hunset : b.get index = false := by
      rw [get, page, hp, Option.getD_none]
      exact BitVec.getLsbD_zero
    exact ⟨Nat.le_refl _, hindex, fun j h1 h2 => by omega, fun _ => hunset⟩
  | some p =>
    -- on the page of the index, a bit is set if the complement does not show it
    have hget (j : Nat) (hj : j / pageBits = index / pageBits) :
        b.get j = !(~~~p).getLsbD (j % pageBits) := by
      rw [get_of_page hp hj, getLsbD_not_page, Bool.not_not]
    simp only
    cases hfirst : (~~~p).firstSet (index % pageBits) with
    | some i =>
      obtain ⟨hle, hset, hleast⟩ := Page.firstSet_eq_some_iff.1 hfirst
      have hi : i < 32768 := BitVec.lt_of_getLsbD hset
      simp only [div_pageBits, mod_pageBits, mul_pageBits] at hget hle hleast ⊢
      have hanswer : b.get (index / 32768 * 32768 + i) = false := by
        rw [hget _ (by omega), show (index / 32768 * 32768 + i) % 32768 = i by omega, hset]
        rfl
      have hbefore (j : Nat) (h1 : index ≤ j) (h2 : j < index / 32768 * 32768 + i) :
          b.get j = true := by
        rw [hget j (by omega), hleast (j % 32768) (by omega) (by omega), Bool.not_false]
      have hlast : index / 32768 * 32768 + i ≤ lastIndex := by
        simp only [lastIndex] at hindex ⊢
        omega
      exact ⟨by omega, hlast, hbefore, fun _ => hanswer⟩
    | none =>
      have hnone := Page.firstSet_eq_none_iff.1 hfirst
      have hrest (j : Nat) (h1 : index ≤ j) (h2 : j < (index / pageBits + 1) * pageBits) :
          b.get j = true := by
        simp only [div_pageBits, mod_pageBits, mul_pageBits] at hget hnone h2
        rw [hget j (by omega), hnone (j % 32768) (by omega), Bool.not_false]
      have hnext : index < (index / pageBits + 1) * pageBits := by
        simp only [div_pageBits, mul_pageBits]
        omega
      by_cases hlast : min ((index / pageBits + 1) * pageBits) lastIndex = lastIndex
      · rw [if_pos hlast, hlast]
        exact ⟨hindex, Nat.le_refl _, fun j h1 h2 => hrest j h1 (by omega), fun h => by omega⟩
      · rw [if_neg hlast]
        exact ⟨by omega, by omega, fun j h1 h2 => hrest j h1 (by omega)⟩

/-- Whenever the search ends, it ends with what it should answer. -/
theorem isFirstUnset_of_unsetWithin {b : Bitmap} {rounds index answer : Nat}
    (hindex : index ≤ lastIndex) (h : b.unsetWithin rounds index = some answer) :
    b.IsFirstUnset index answer := by
  induction rounds generalizing index with
  | zero => contradiction
  | succ rounds ih =>
    have hround := b.unsetRound_spec hindex
    rw [unsetWithin] at h
    cases hcase : b.unsetRound index with
    | inr found =>
      rw [hcase] at h hround
      obtain rfl := Option.some.inj h
      exact hround
    | inl next =>
      rw [hcase] at h hround
      obtain ⟨hlt, hle, hset⟩ := hround
      have hrest := ih hle h
      refine ⟨by have := hrest.start_le; omega, hrest.le_last, fun j h1 h2 => ?_, hrest.unset⟩
      by_cases hj : j < next
      · exact hset j h1 hj
      · exact hrest.set_before j (by omega) h2

/-- In an ascending list no entry has a key below that of the head. -/
theorem lookup_eq_none_of_lt {k j : Nat} {p : Page} {rest : List (Nat × Page)}
    (hasc : ((k, p) :: rest).Pairwise fun a b => compare a.1 b.1 = .lt) (hj : j < k) :
    SortedMap.lookup j ((k, p) :: rest) = none := by
  rw [Option.eq_none_iff_forall_ne_some]
  intro q hq
  rcases List.mem_cons.1 ((SortedMap.lookup_eq_some_iff_mem hasc).1 hq) with heq | hmem
  · have hkey : j = k := congrArg Prod.fst heq
    omega
  · have hlt := Nat.compare_eq_lt.1 ((List.pairwise_cons.1 hasc).1 _ hmem)
    omega

/-- From an index on, the search goes by the pages from there on, and takes a round for each one at
most and one more. -/
theorem unsetWithin_among {b : Bitmap} {pages : List (Nat × Page)}
    (hasc : pages.Pairwise fun a b => compare a.1 b.1 = .lt) {index rounds : Nat}
    (hpages : ∀ k, index / pageBits ≤ k → b.pages.get? k = SortedMap.lookup k pages)
    (hrounds : pages.length < rounds) :
    b.unsetWithin rounds index = some (firstUnsetAmong index pages) := by
  obtain ⟨rounds, rfl⟩ : ∃ n, rounds = n + 1 := ⟨rounds - 1, by omega⟩
  induction pages generalizing index rounds with
  | nil =>
    have hnone : b.pages.get? (index / pageBits) = none := hpages _ (Nat.le_refl _)
    rw [unsetWithin, unsetRound, hnone]
    rfl
  | cons e rest ih =>
    obtain ⟨k, p⟩ := e
    have hrest := (List.pairwise_cons.1 hasc).2
    have hlookup (j : Nat) (hj : k < j) :
        SortedMap.lookup j ((k, p) :: rest) = SortedMap.lookup j rest := by
      rw [SortedMap.lookup_cons, if_neg (by omega)]
    rw [firstUnsetAmong]
    rcases Nat.lt_trichotomy k (index / pageBits) with hbefore | heq | hbehind
    · -- a page before the index is never looked at
      rw [if_pos hbefore]
      refine ih hrest (fun j hj => ?_) rounds ?_
      · rw [hpages j hj, hlookup j (by omega)]
      · simp only [List.length_cons] at hrounds
        omega
    · have hp : b.pages.get? (index / pageBits) = some p := by
        rw [hpages _ (Nat.le_refl _), SortedMap.lookup_cons, if_pos heq.symm]
      rw [if_neg (by omega), if_neg (by omega), unsetWithin, unsetRound, hp]
      simp only
      cases hfirst : (~~~p).firstSet (index % pageBits) with
      | some i =>
        rw [heq]
      | none =>
        simp only
        rw [← heq]
        by_cases hlast : min ((k + 1) * pageBits) lastIndex = lastIndex
        · rw [if_pos hlast, if_pos hlast]
        · rw [if_neg hlast, if_neg hlast]
          -- the next page lies behind this one, so this one is not looked at again
          have hnext : min ((k + 1) * pageBits) lastIndex / pageBits = k + 1 := by
            simp only [div_pageBits, mul_pageBits] at hlast ⊢
            omega
          simp only [List.length_cons] at hrounds
          obtain ⟨rounds, rfl⟩ : ∃ n, rounds = n + 1 := ⟨rounds - 1, by omega⟩
          refine ih hrest (fun j hj => ?_) rounds (by omega)
          rw [hnext] at hj
          rw [hpages j (by omega), hlookup j (by omega)]
    · have hnone : b.pages.get? (index / pageBits) = none := by
        rw [hpages _ (Nat.le_refl _), lookup_eq_none_of_lt hasc hbehind]
      rw [if_neg (by omega), if_pos hbehind, unsetWithin, unsetRound, hnone]

/-- The search for an unset bit ends, from every index of every bitmap. -/
theorem unsetWithin_eq (b : Bitmap) (start : Nat) :
    b.unsetWithin (b.pageCount + 1) start = some (b.firstUnset start) :=
  unsetWithin_among b.pages.ascending (fun _ _ => rfl) (Nat.lt_succ_self _)

theorem isFirstUnset_firstUnset (b : Bitmap) {start : Nat} (hstart : start ≤ lastIndex) :
    b.IsFirstUnset start (b.firstUnset start) :=
  isFirstUnset_of_unsetWithin hstart (b.unsetWithin_eq start)

/-- The search finds the least unset bit, or answers the largest index if there is none. -/
theorem firstUnset_eq_iff (b : Bitmap) {start i : Nat} (hstart : start ≤ lastIndex) :
    b.firstUnset start = i ↔
      (start ≤ i ∧ i ≤ lastIndex ∧ b.get i = false ∧
        ∀ j, start ≤ j → j < i → b.get j = true) ∨
      (i = lastIndex ∧ ∀ j, start ≤ j → j ≤ lastIndex → b.get j = true) := by
  have hfound := b.isFirstUnset_firstUnset hstart
  constructor
  · rintro rfl
    cases hget : b.get (b.firstUnset start) with
    | false => exact Or.inl ⟨hfound.start_le, hfound.le_last, rfl, hfound.set_before⟩
    | true =>
      have hlast : b.firstUnset start = lastIndex := by
        refine Nat.le_antisymm hfound.le_last (Nat.le_of_not_lt fun hlt => ?_)
        rw [hfound.unset hlt] at hget
        contradiction
      refine Or.inr ⟨hlast, fun j h1 h2 => ?_⟩
      rcases Nat.lt_or_eq_of_le h2 with hlt | rfl
      · exact hfound.set_before j h1 (hlast ▸ hlt)
      · exact hlast ▸ hget
  · -- neither of two least unset bits lies before the other
    rintro (⟨hle, hfits, hunset, hbefore⟩ | ⟨rfl, hall⟩)
    · rcases Nat.lt_trichotomy (b.firstUnset start) i with hlt | heq | hgt
      · have hset := hbefore _ hfound.start_le hlt
        rw [hfound.unset (by omega)] at hset
        contradiction
      · exact heq
      · rw [hfound.set_before i hle hgt] at hunset
        contradiction
    · refine Nat.le_antisymm hfound.le_last (Nat.le_of_not_lt fun hlt => ?_)
      have hset := hall _ hfound.start_le (by omega)
      rw [hfound.unset hlt] at hset
      contradiction

end Bitmap

/-! ## Histories -/

namespace BitmapWrite

/-- A write within the index space covers none but its indices. -/
theorem Fits.le_last {write : BitmapWrite} (h : write.Fits) {i : Nat}
    (hcovers : write.covers i = true) : i ≤ lastIndex := by
  cases write with
  | set index value => exact beq_iff_eq.1 hcovers ▸ h
  | setRange range value =>
    have hrange := (of_decide_eq_true hcovers).2
    simp only [lastIndex]
    omega
  | insertWords start words =>
    have hwords := (of_decide_eq_true hcovers).2
    have hfits : start + 32 * words.length ≤ lastIndex + 1 := h
    omega

/-- Writes within the index space set no bit beyond it. -/
theorem le_last_of_get {writes : List BitmapWrite} (hfit : ∀ write ∈ writes, write.Fits) {i : Nat}
    (h : (writes.foldl apply ∅).get i = true) : i ≤ lastIndex := by
  rw [get_foldl_apply, Bitmap.get_empty] at h
  obtain ⟨write, hmem, hcovers, -⟩ := exists_of_lastValue h
  exact (hfit write hmem).le_last hcovers

/-- **Searches are exact.** After any writes to the empty bitmap that stay within the index space,
and from every index: the search for a set bit gives the least one, or nothing if there is none; the
search for an unset bit gives the least one, or the largest index if all bits are set. And whatever
pages a bitmap has, from wherever: the search for an unset bit ends, within one round more than
there are pages. -/
theorem searches_are_exact (writes : List BitmapWrite) (hfit : ∀ write ∈ writes, write.Fits)
    {start : Nat} (hstart : start ≤ lastIndex) :
    let b := writes.foldl apply ∅
    (∀ i, b.firstSet start = some i ↔
      start ≤ i ∧ i ≤ lastIndex ∧ b.get i = true ∧ ∀ j, start ≤ j → j < i → b.get j = false) ∧
    (b.firstSet start = none ↔ ∀ i, start ≤ i → i ≤ lastIndex → b.get i = false) ∧
    (∀ i, b.firstUnset start = i ↔
      (start ≤ i ∧ i ≤ lastIndex ∧ b.get i = false ∧
        ∀ j, start ≤ j → j < i → b.get j = true) ∨
      (i = lastIndex ∧ ∀ j, start ≤ j → j ≤ lastIndex → b.get j = true)) ∧
    ∀ (other : Bitmap) (index : Nat),
      other.unsetWithin (other.pageCount + 1) index = some (other.firstUnset index) := by
  intro b
  refine ⟨fun i => ?_, ?_, fun i => b.firstUnset_eq_iff hstart, Bitmap.unsetWithin_eq⟩
  · rw [Bitmap.firstSet_eq_some_iff]
    constructor
    · -- no index of a set bit wraps around
      rintro ⟨i, hfirst, rfl⟩
      have hlast : i ≤ lastIndex := le_last_of_get hfit hfirst.set
      rw [Nat.mod_eq_of_lt (Nat.lt_succ_of_le hlast)]
      exact ⟨hfirst.start_le, hlast, hfirst.set, hfirst.unset_before⟩
    · rintro ⟨hle, hlast, hset, hleast⟩
      exact ⟨i, ⟨hle, hset, hleast⟩, Nat.mod_eq_of_lt (Nat.lt_succ_of_le hlast)⟩
  · rw [Bitmap.firstSet_eq_none_iff]
    constructor
    · exact fun hnone i hi _ => hnone i hi
    · -- beyond the index space nothing is set anyway
      intro hnone i hi
      refine Bool.eq_false_iff.2 fun hset => ?_
      rw [hnone i hi (le_last_of_get hfit hset)] at hset
      contradiction

/-- The lowest page is there without a set bit, and the topmost one is full: a range stops short of
the largest index, whose bit is set on its own. -/
theorem searches_are_exact_at_the_top :
    let top := 0xFFFFFFFFFFFF8000
    let writes : List BitmapWrite :=
      [.insertWords 0 [0], .setRange ⟨top, 0x8000⟩ true, .set lastIndex true]
    (∀ write ∈ writes, write.Fits) ∧ (writes.foldl apply ∅).firstSet 0 = some top ∧
      (writes.foldl apply ∅).firstUnset top = lastIndex := by
  intro top writes
  have hfit : ∀ write ∈ writes, write.Fits := by
    intro write hwrite
    simp only [writes, List.mem_cons, List.not_mem_nil, or_false] at hwrite
    obtain rfl | rfl | rfl := hwrite
    · show 0 + 32 * 1 ≤ 0xFFFFFFFFFFFFFFFF + 1
      omega
    · trivial
    · exact Nat.le_refl _
  have hzero (i : Nat) : wordsBit [0] i = false := by
    rw [wordsBit_cons]
    split
    · exact BitVec.getLsbD_zero
    · rfl
  have hget (i : Nat) : (writes.foldl apply ∅).get i = decide (top ≤ i ∧ i ≤ lastIndex) := by
    show ((set lastIndex true).apply ((setRange ⟨top, 0x8000⟩ true).apply
      ((insertWords 0 [0]).apply ∅))).get i = _
    have hword : ((insertWords 0 [0]).apply ∅).get i = false := by
      rw [apply, Bitmap.get_insertWords, Bitmap.get_empty, hzero, ite_self]
    rw [get_apply, get_apply, hword]
    simp only [covers, valueAt, beq_iff_eq, decide_eq_true_eq, top, lastIndex]
    split
    · exact (decide_eq_true (by omega)).symm
    · split
      · exact (decide_eq_true (by omega)).symm
      · exact (decide_eq_false (by omega)).symm
  have hset (i : Nat) (h1 : top ≤ i) (h2 : i ≤ lastIndex) :
      (writes.foldl apply ∅).get i = true := by
    rw [hget, decide_eq_true ⟨h1, h2⟩]
  have htop : top ≤ lastIndex := by
    show 0xFFFFFFFFFFFF8000 ≤ 0xFFFFFFFFFFFFFFFF
    omega
  obtain ⟨hfirstSet, -, -, -⟩ := searches_are_exact writes hfit (Nat.zero_le lastIndex)
  obtain ⟨-, -, hfirstUnset, -⟩ := searches_are_exact writes hfit htop
  refine ⟨hfit, (hfirstSet top).2 ⟨Nat.zero_le _, htop, hset top (Nat.le_refl _) htop, ?_⟩,
    (hfirstUnset lastIndex).2 (Or.inr ⟨rfl, hset⟩)⟩
  intro j _ hj
  rw [hget, decide_eq_false fun h => by omega]

end BitmapWrite

end LogSync
