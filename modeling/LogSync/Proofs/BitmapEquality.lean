import Mathlib.Logic.Function.Basic
import LogSync.Proofs.BitmapPages

/-!
# Bitmaps that hold the same bits

Bitmaps are compared by their pages, and a bitmap is tested for being empty by its pages. Which
pages were allocated on the way does not matter for either: two bitmaps are the same if they agree
about every index (`Bitmap.sameBits_iff`), and one is empty if no index is set
(`Bitmap.isEmpty_iff`).

That is so for indices of any size, and there lies a catch. Words that line up with those of a
bitmap are written by their number, and numbers go on behind the word of the largest index. What is
written there can never be read, but it is stored, so both tests see it. To agree about every index
that can be read is therefore not enough; `BitmapOp.equality_is_about_bits_iff` says what has to
come to it, and that nothing has to as long as no words run over the end.
-/

namespace LogSync

/-! ## What is said -/

/-- Whether the sums that a write works out on its way stay among the numbers up to the largest
index. Words that line up are counted through, others are written bit by bit; the end of a range is
held back. -/
def BitmapWrite.SumsFit : BitmapWrite → Prop
  | set index _ => index ≤ lastIndex
  | setRange _ _ => True
  | insertWords start words =>
    start ≤ lastIndex ∧
      if start % 32 = 0 then start / 32 + words.length ≤ lastIndex + 1
      else start + 32 * words.length ≤ lastIndex + 1

/-- An operation on some bitmaps, which have numbers for their names. -/
inductive BitmapOp where
  /-- A bitmap is written to. -/
  | write (name : Nat) (w : BitmapWrite)
  /-- A bitmap is made anew, of some words. -/
  | ofWords (name start : Nat) (words : List Word)
  /-- A bitmap is made a copy of another one. -/
  | copy (name source : Nat)

namespace BitmapOp

/-- Whether the sums of an operation stay among the numbers up to the largest index. -/
def SumsFit : BitmapOp → Prop
  | write _ w => w.SumsFit
  | ofWords _ start words => (BitmapWrite.insertWords start words).SumsFit
  | copy _ _ => True

/-- The bitmaps after an operation. -/
def apply (bitmaps : Nat → Bitmap) : BitmapOp → Nat → Bitmap
  | write name w => Function.update bitmaps name (w.apply (bitmaps name))
  | ofWords name start words => Function.update bitmaps name (.ofWords start words)
  | copy name source => Function.update bitmaps name (bitmaps source)

/-- The bitmaps after some operations. All of them are empty at first. -/
def run (ops : List BitmapOp) : Nat → Bitmap := ops.foldl apply fun _ => ∅

/-- Notes the writes that each bitmap goes back to. A copy goes back to those of its source. -/
def note (histories : Nat → List BitmapWrite) : BitmapOp → Nat → List BitmapWrite
  | write name w => Function.update histories name (histories name ++ [w])
  | ofWords name start words => Function.update histories name [.insertWords start words]
  | copy name source => Function.update histories name (histories source)

/-- The writes that a bitmap goes back to, after some operations. -/
def history (ops : List BitmapOp) : Nat → List BitmapWrite := ops.foldl note fun _ => []

end BitmapOp

/-! ## Comparing by pages is comparing bit by bit -/

namespace Bitmap

/-- Two bitmaps show the same on a page if they agree about the indices that lie there. -/
theorem page_eq_page_iff {a b : Bitmap} {k : Nat} :
    a.page k = b.page k ↔ ∀ i, i / pageBits = k → a.get i = b.get i := by
  constructor
  · rintro h i rfl
    rw [get, get, h]
  · intro h
    refine BitVec.eq_of_getLsbD_eq fun j hj => ?_
    rw [pageBits_eq] at hj
    have hdiv : (k * 32768 + j) / 32768 = k := by omega
    have hmod : (k * 32768 + j) % 32768 = j := by omega
    have hget := h (k * 32768 + j) hdiv
    rwa [get, get, div_pageBits, mod_pageBits, hdiv, hmod] at hget

/-- **Equality is about bits**, whatever pages the bitmaps have. -/
theorem sameBits_iff {a b : Bitmap} : a.sameBits b = true ↔ ∀ i, a.get i = b.get i := by
  rw [sameBits, List.all_eq_true]
  constructor
  · intro h i
    have hpage : a.page (i / pageBits) = b.page (i / pageBits) := by
      by_cases hk : i / pageBits ∈ a.pages.keys ++ b.pages.keys
      · exact beq_iff_eq.1 (h _ hk)
      · -- a page that neither of them has is all unset for both
        rw [List.mem_append, SortedMap.mem_keys_iff, SortedMap.mem_keys_iff, not_or,
          Bool.not_eq_true, Bool.not_eq_true] at hk
        rw [page_of_not_contains hk.1, page_of_not_contains hk.2]
    exact page_eq_page_iff.1 hpage i rfl
  · intro h k _
    exact beq_iff_eq.2 (page_eq_page_iff.2 fun i _ => h i)

/-- **Emptiness is about bits**, whatever pages the bitmap has. -/
theorem isEmpty_iff {b : Bitmap} : b.isEmpty = true ↔ ∀ i, b.get i = false := by
  have hempty (k : Nat) : (∅ : Bitmap).page k = 0 := rfl
  rw [isEmpty, List.all_eq_true]
  constructor
  · intro h i
    have hpage : b.page (i / pageBits) = 0 := by
      unfold page
      cases hp : b.pages.get? (i / pageBits) with
      | none => rfl
      | some p => exact beq_iff_eq.1 (h p (SortedMap.mem_values_iff.2 ⟨_, hp⟩))
    rw [get, hpage]
    exact BitVec.getLsbD_zero
  · intro h p hp
    obtain ⟨k, hk⟩ := SortedMap.mem_values_iff.1 hp
    have hpage : b.page k = (∅ : Bitmap).page k :=
      page_eq_page_iff.2 fun i _ => by rw [h i, get_empty]
    rw [page, hk, Option.getD_some, hempty] at hpage
    exact beq_iff_eq.2 hpage

end Bitmap

/-! ## Histories -/

/-- The bits beyond the index space come from words that line up and run over its end. -/
theorem BitmapWrite.exists_overrun {writes : List BitmapWrite}
    (hsums : ∀ write ∈ writes, write.SumsFit) {i : Nat} (hi : lastIndex < i)
    (h : (lastValue writes i).getD false = true) :
    ∃ start words, insertWords start words ∈ writes ∧ start % 32 = 0 ∧
      lastIndex + 1 < start + 32 * words.length := by
  obtain ⟨write, hmem, hcovers, -⟩ := exists_of_lastValue h
  have hfits := hsums write hmem
  cases write with
  | set index value =>
    have hindex : i = index := beq_iff_eq.1 hcovers
    have hle : index ≤ lastIndex := hfits
    omega
  | setRange range value =>
    have hrange := (of_decide_eq_true hcovers).2
    simp only [lastIndex] at hi
    omega
  | insertWords start words =>
    obtain ⟨-, hend⟩ := of_decide_eq_true hcovers
    obtain ⟨-, hsum⟩ := hfits
    by_cases haligned : start % 32 = 0
    · exact ⟨start, words, hmem, haligned, by omega⟩
    · rw [if_neg haligned] at hsum
      omega

namespace BitmapOp

/-- Whether a bitmap is what some writes make of the empty one, with sums that fit. -/
def Made (b : Bitmap) (writes : List BitmapWrite) : Prop :=
  b = writes.foldl BitmapWrite.apply ∅ ∧ ∀ write ∈ writes, write.SumsFit

/-- One bitmap is replaced, together with its writes. -/
theorem made_update {bitmaps : Nat → Bitmap} {histories : Nat → List BitmapWrite}
    (h : ∀ name, Made (bitmaps name) (histories name)) {b : Bitmap} {writes : List BitmapWrite}
    (hb : Made b writes) (target name : Nat) :
    Made (Function.update bitmaps target b name)
      (Function.update histories target writes name) := by
  by_cases hname : name = target
  · subst hname
    rw [Function.update_self, Function.update_self]
    exact hb
  · rw [Function.update_of_ne hname, Function.update_of_ne hname]
    exact h name

/-- An operation leaves every bitmap one that its writes have made. -/
theorem made_apply {bitmaps : Nat → Bitmap} {histories : Nat → List BitmapWrite}
    (h : ∀ name, Made (bitmaps name) (histories name)) {op : BitmapOp} (hop : op.SumsFit)
    (name : Nat) : Made (op.apply bitmaps name) (op.note histories name) := by
  cases op with
  | write target w =>
    obtain ⟨hmade, hsums⟩ := h target
    refine made_update h ⟨?_, fun write hmem => ?_⟩ target name
    · rw [List.foldl_append, ← hmade]
      rfl
    · rcases List.mem_append.1 hmem with hearlier | hlast
      · exact hsums write hearlier
      · exact List.mem_singleton.1 hlast ▸ hop
  | ofWords target start words =>
    have hwords : Made (.ofWords start words) [.insertWords start words] :=
      ⟨rfl, fun write hmem => List.mem_singleton.1 hmem ▸ hop⟩
    exact made_update h hwords target name
  | copy target source => exact made_update h (h source) target name

/-- After any operations, every bitmap is what the writes have made that it goes back to. -/
theorem made_run {ops : List BitmapOp} (hsums : ∀ op ∈ ops, op.SumsFit) (name : Nat) :
    Made (run ops name) (history ops name) := by
  -- any bitmaps to begin with will do, as long as they go back to writes
  have hfrom (bitmaps : Nat → Bitmap) (histories : Nat → List BitmapWrite)
      (h : ∀ name, Made (bitmaps name) (histories name)) :
      Made (ops.foldl apply bitmaps name) (ops.foldl note histories name) := by
    induction ops generalizing bitmaps histories with
    | nil => exact h name
    | cons op ops ih =>
      exact ih (fun op' hop' => hsums op' (List.mem_cons_of_mem _ hop')) _ _
        (made_apply h (hsums op List.mem_cons_self))
  exact hfrom _ _ fun _ => ⟨rfl, by simp⟩

/-- So every index has the value that the last of those writes to cover it has given it. -/
theorem get_run {ops : List BitmapOp} (hsums : ∀ op ∈ ops, op.SumsFit) (name i : Nat) :
    (run ops name).get i = (BitmapWrite.lastValue (history ops name) i).getD false := by
  rw [(made_run hsums name).1, BitmapWrite.get_foldl_apply, Bitmap.get_empty]

/-- **Equality and emptiness are about the bits that can be read, and those behind the end.** Take
any two bitmaps that were made by writes, of words or as copies, with sums that fit. They are the
same if and only if they agree about every index there is and the words that ran over the end have
left the same behind it; and one is empty if and only if no index there is is set and nothing is
set behind. Behind the end there is something only where words that line up have run over it, so
otherwise the indices there are decide. -/
theorem equality_is_about_bits_iff (ops : List BitmapOp) (hsums : ∀ op ∈ ops, op.SumsFit)
    (j k : Nat) :
    let a := run ops j
    let b := run ops k
    let behind (name i : Nat) : Bool := (BitmapWrite.lastValue (history ops name) i).getD false
    (a.sameBits b = true ↔
      (∀ i ≤ lastIndex, a.get i = b.get i) ∧ ∀ i > lastIndex, behind j i = behind k i) ∧
    (a.isEmpty = true ↔
      (∀ i ≤ lastIndex, a.get i = false) ∧ ∀ i > lastIndex, behind j i = false) ∧
    ∀ i > lastIndex, behind j i = true →
      ∃ start words, .insertWords start words ∈ history ops j ∧ start % 32 = 0 ∧
        lastIndex + 1 < start + 32 * words.length := by
  intro a b behind
  have hbehind : ∀ name i, (run ops name).get i = behind name i := get_run hsums
  -- an index is either there or behind the end
  have hsplit (p : Nat → Prop) :
      (∀ i, p i) ↔ (∀ i ≤ lastIndex, p i) ∧ ∀ i > lastIndex, p i :=
    ⟨fun h => ⟨fun i _ => h i, fun i _ => h i⟩,
      fun ⟨hthere, hpast⟩ i => (Nat.lt_or_ge lastIndex i).elim (hpast i) (hthere i)⟩
  refine ⟨?_, ?_, fun i hi => BitmapWrite.exists_overrun (made_run hsums j).2 hi⟩
  · rw [Bitmap.sameBits_iff, hsplit]
    simp only [← hbehind, a, b]
  · rw [Bitmap.isEmpty_iff, hsplit]
    simp only [← hbehind, a]

/-- A bit is set, and its bitmap copied. In the copy another bit is set and unset again, far off:
it keeps a page for it, but the two are the same. -/
theorem equality_is_about_bits_on_other_pages :
    let ops : List BitmapOp := [.write 0 (.set 5 true), .copy 1 0, .write 1 (.set 65536 true),
      .write 1 (.set 65536 false)]
    (∀ op ∈ ops, op.SumsFit) ∧ (run ops 0).pageCount = 1 ∧ (run ops 1).pageCount = 2 ∧
      (run ops 0).sameBits (run ops 1) = true := by
  intro ops
  have hsums : ∀ op ∈ ops, op.SumsFit := by
    have hsmall {i : Nat} (hi : i ≤ 65536) : i ≤ lastIndex := by
      simp only [lastIndex]
      omega
    intro op hop
    simp only [ops, List.mem_cons, List.not_mem_nil, or_false] at hop
    obtain rfl | rfl | rfl | rfl := hop
    · exact hsmall (by omega)
    · trivial
    · exact hsmall (Nat.le_refl _)
    · exact hsmall (Nat.le_refl _)
  have hagree (i : Nat) : (run ops 0).get i = (run ops 1).get i := by
    have hmade : run ops 0 = [.set 5 true].foldl BitmapWrite.apply ∅ := (made_run hsums 0).1
    have hmade' : run ops 1
        = [.set 5 true, .set 65536 true, .set 65536 false].foldl BitmapWrite.apply ∅ :=
      (made_run hsums 1).1
    rw [hmade, hmade']
    simp only [List.foldl_cons, List.foldl_nil, BitmapWrite.apply, Bitmap.get_set,
      Bitmap.get_empty]
    by_cases hi : i = 65536
    · rw [if_neg (by omega), if_pos hi]
    · rw [if_neg hi, if_neg hi]
  obtain ⟨hsame, -, -⟩ := equality_is_about_bits_iff ops hsums 0 1
  have hbehind (i : Nat) : (BitmapWrite.lastValue (history ops 0) i).getD false
      = (BitmapWrite.lastValue (history ops 1) i).getD false := by
    rw [← get_run hsums, ← get_run hsums]
    exact hagree i
  exact ⟨hsums, by decide +kernel, by decide +kernel,
    hsame.2 ⟨fun i _ => hagree i, fun i _ => hbehind i⟩⟩

/-- Of two words, the last one of the index space and one behind it, the second one is not zero. No
index that can be read is set, but the bitmap differs from the empty one, and is not empty. -/
theorem word_behind_the_end_is_seen :
    let ops : List BitmapOp := [.ofWords 0 0xFFFFFFFFFFFFFFE0 [0, 1]]
    (∀ op ∈ ops, op.SumsFit) ∧
      ¬ ((run ops 0).sameBits (run ops 1) = true ↔
        ∀ i ≤ lastIndex, (run ops 0).get i = (run ops 1).get i) ∧
      ¬ ((run ops 0).isEmpty = true ↔ ∀ i ≤ lastIndex, (run ops 0).get i = false) := by
  intro ops
  have hsums : ∀ op ∈ ops, op.SumsFit := by
    intro op hop
    obtain rfl := List.mem_singleton.1 hop
    show 0xFFFFFFFFFFFFFFE0 ≤ 0xFFFFFFFFFFFFFFFF ∧
      0xFFFFFFFFFFFFFFE0 / 32 + 2 ≤ 0xFFFFFFFFFFFFFFFF + 1
    omega
  have hnone (i : Nat) : (run ops 1).get i = false := Bitmap.get_empty i
  have hread : ∀ i ≤ lastIndex, (run ops 0).get i = false := by
    intro i hi
    show (Bitmap.ofWords 0xFFFFFFFFFFFFFFE0 [0, 1]).get i = false
    simp only [lastIndex] at hi
    rw [Bitmap.get_ofWords, wordsBit_cons]
    by_cases hstart : 0xFFFFFFFFFFFFFFE0 ≤ i
    · have hzero : BitVec.getLsbD (0 : Word) (i - 0xFFFFFFFFFFFFFFE0) = false :=
        BitVec.getLsbD_zero
      rw [if_pos (by omega), hzero, Bool.and_false]
    · rw [decide_eq_false fun h => hstart h.1, Bool.false_and]
  have hstored : (run ops 0).get (lastIndex + 1) = true := by
    show (Bitmap.ofWords 0xFFFFFFFFFFFFFFE0 [0, 1]).get 0x10000000000000000 = true
    rw [Bitmap.get_ofWords]
    decide
  refine ⟨hsums, fun hsame => ?_, fun hempty => ?_⟩
  · have hall := Bitmap.sameBits_iff.1 (hsame.2 fun i hi => by rw [hread i hi, hnone])
    rw [hall, hnone] at hstored
    contradiction
  · have hall := Bitmap.isEmpty_iff.1 (hempty.2 hread)
    rw [hall] at hstored
    contradiction

end BitmapOp

end LogSync
