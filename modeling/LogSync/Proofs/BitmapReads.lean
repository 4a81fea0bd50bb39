import LogSync.Bitmap

/-!
# What the reads of a bitmap say about its bits

`Bitmap.get` is the view of a bitmap. Every other read goes by words and pages, and this file
brings each of them back to the view:

* `getLsbD_word`, a word is thirty-two neighbouring bits;
* `count_eq_countBelow` and `count_eq_countBelow_from`, counting a range counts its set bits one by
  one;
* `firstSet_eq_some_iff` and `firstSet_eq_none_iff`, the search is exact, up to the wrapping around
  of indices past the largest one.

The facts about counting come first, since a count that goes page by page and word by word has to
be put together from counts of stretches.
-/

namespace LogSync

/-! ## Counts of stretches -/

/-- If no index below the bound satisfies the predicate, the count is zero. -/
theorem countBelow_eq_zero {p : Nat → Bool} {n : Nat} (h : ∀ i < n, p i = false) :
    countBelow p n = 0 := by
  induction n with
  | zero => rfl
  | succ n ih => rw [countBelow, ih fun i hi => h i (by omega), h n (by omega)]; rfl

theorem countBelow_true (n : Nat) : countBelow (fun _ => true) n = n := by
  induction n with
  | zero => rfl
  | succ n ih => rw [countBelow, ih]; rfl

/-- A weaker predicate is satisfied no less often. -/
theorem countBelow_mono {p q : Nat → Bool} {n : Nat} (h : ∀ i < n, p i = true → q i = true) :
    countBelow p n ≤ countBelow q n := by
  induction n with
  | zero => exact Nat.le_refl _
  | succ n ih =>
    have hlast : (p n).toNat ≤ (q n).toNat := by
      cases hp : p n with
      | false => exact Nat.zero_le _
      | true => exact Nat.le_of_eq (by rw [h n (Nat.lt_succ_self n) hp])
    exact Nat.add_le_add (ih fun i hi => h i (Nat.lt_succ_of_lt hi)) hlast

/-- The count is positive if and only if some index below the bound satisfies the predicate. -/
theorem countBelow_pos_iff {p : Nat → Bool} {n : Nat} :
    0 < countBelow p n ↔ ∃ i < n, p i = true := by
  induction n with
  | zero => simp [countBelow]
  | succ n ih =>
    rw [countBelow, Nat.add_pos_iff_pos_or_pos, ih]
    constructor
    · rintro (⟨i, hi, hp⟩ | hp)
      · exact ⟨i, Nat.lt_succ_of_lt hi, hp⟩
      · exact ⟨n, Nat.lt_succ_self n, by cases h : p n <;> simp_all⟩
    · rintro ⟨i, hi, hp⟩
      rcases Nat.lt_succ_iff_lt_or_eq.1 hi with hi | rfl
      · exact Or.inl ⟨i, hi, hp⟩
      · exact Or.inr (by rw [hp]; decide)

/-- Nothing from `n` on is counted if it is all unset. -/
theorem countBelow_of_le {p : Nat → Bool} {n m : Nat} (hnm : n ≤ m)
    (h : ∀ i, n ≤ i → i < m → p i = false) : countBelow p m = countBelow p n := by
  obtain ⟨d, rfl⟩ := Nat.exists_eq_add_of_le hnm
  have hrest : countBelow (fun i => p (n + i)) d = 0 :=
    countBelow_eq_zero fun i hi => h (n + i) (by omega) (by omega)
  rw [countBelow_add, hrest, Nat.add_zero]

/-- A property that only holds in one window is counted in that window. -/
theorem countBelow_window {p : Nat → Bool} {a n m : Nat} (hle : a + n ≤ m)
    (h : ∀ i < m, p i = true → a ≤ i ∧ i < a + n) :
    countBelow p m = countBelow (fun i => p (a + i)) n := by
  have hout : ∀ i < m, ¬(a ≤ i ∧ i < a + n) → p i = false := fun i hi hn =>
    Bool.eq_false_iff.2 fun hp => hn (h i hi hp)
  have hbefore : countBelow p a = 0 :=
    countBelow_eq_zero fun i hi => hout i (by omega) (by omega)
  calc countBelow p m
      = countBelow p (a + n) :=
        countBelow_of_le hle fun i hi him => hout i him (by omega)
    _ = countBelow (fun i => p (a + i)) n := by rw [countBelow_add, hbefore, Nat.zero_add]

/-- Two properties that exclude each other are counted apart. -/
theorem countBelow_or {p q : Nat → Bool} {n : Nat} (h : ∀ i < n, p i = true → q i = false) :
    countBelow (fun i => p i || q i) n = countBelow p n + countBelow q n := by
  induction n with
  | zero => rfl
  | succ n ih =>
    have hn := h n (by omega)
    rw [countBelow, countBelow, countBelow, ih fun i hi => h i (by omega)]
    cases hp : p n <;> cases hq : q n <;> simp_all <;> omega

/-- Counting word by word. -/
theorem sumOver_range_countBelow (p : Nat → Bool) (n : Nat) :
    sumOver (fun w => countBelow (fun i => p (32 * w + i)) 32) (List.range n)
      = countBelow p (32 * n) := by
  induction n with
  | zero => rfl
  | succ n ih =>
    rw [List.range_succ, sumOver_append, ih, show 32 * (n + 1) = 32 * n + 32 by omega,
      countBelow_add]
    rfl

/-! ## Words and pages -/

theorem pageBits_eq : pageBits = 32768 := rfl

theorem div_pageBits (i : Nat) : i / pageBits = i / 32768 := rfl

theorem mod_pageBits (i : Nat) : i % pageBits = i % 32768 := rfl

theorem min_pageBits (i : Nat) : min i pageBits = min i 32768 := rfl

theorem mul_pageBits (k : Nat) : k * pageBits = k * 32768 := rfl

/-- A word whose bits beyond the first `n` are unset counts the first `n`. -/
theorem Word.count_eq_countBelow {x : Word} {p : Nat → Bool} {n : Nat} (hn : n ≤ 32)
    (h : ∀ i < 32, x.getLsbD i = (decide (i < n) && p i)) : x.count = countBelow p n := by
  have hrest : countBelow x.getLsbD 32 = countBelow x.getLsbD n :=
    countBelow_of_le hn fun i hi hi32 => by rw [h i hi32]; simp [Nat.not_lt.2 hi]
  rw [Word.count, hrest]
  exact countBelow_congr fun i hi => by rw [h i (by omega)]; simp [hi]

/-- The mask of the first bits has those bits and, of a word, no more. -/
theorem Word.getLsbD_firstBits (n i : Nat) :
    (Word.firstBits n).getLsbD i = decide (i < n ∧ i < 32) := by
  rw [Word.firstBits, BitVec.getLsbD_ushiftRight, BitVec.getLsbD_allOnes]
  exact decide_eq_decide.2 (by omega)

namespace Page

theorem getLsbD_word (p : Page) (w i : Nat) (hi : i < 32) :
    (p.word w).getLsbD i = p.getLsbD (32 * w + i) := by
  rw [word, BitVec.getLsbD_extractLsb']
  simp [hi]

/-- The bits of a window are those from its start to its end, as far as the page goes. -/
theorem getLsbD_window (start stop i : Nat) :
    (window start stop).getLsbD i = decide (start ≤ i ∧ i < stop ∧ i < pageBits) := by
  rw [window, BitVec.getLsbD_and, BitVec.getLsbD_shiftLeft, BitVec.getLsbD_ushiftRight,
    BitVec.getLsbD_allOnes, BitVec.getLsbD_allOnes, Bool.eq_iff_iff]
  simp only [Bool.and_eq_true, Bool.not_eq_true', decide_eq_true_eq, decide_eq_false_iff_not]
  omega

/-- Counting word by word from `start` on counts the bits of the stretch. -/
theorem count_eq_countBelow (p : Page) (start stop : Nat) :
    p.count start stop
      = countBelow (fun i => p.getLsbD (start + i)) (min stop pageBits - start) := by
  -- cut out and shifted down, the page shows the stretch from `start` on and nothing else
  have hshown : ∀ i, ((p &&& window start stop) >>> min start pageBits).getLsbD i
      = (decide (i < min stop pageBits - start) && p.getLsbD (start + i)) := by
    intro i
    rw [BitVec.getLsbD_ushiftRight, BitVec.getLsbD_and, getLsbD_window]
    by_cases hs : start ≤ pageBits
    · rw [Nat.min_eq_left hs, Bool.and_comm]
      congr 1
      exact decide_eq_decide.2 (by omega)
    · rw [show decide (i < min stop pageBits - start) = false by simp; omega, Bool.false_and,
        BitVec.getLsbD_of_ge p _ (by omega), Bool.false_and]
  unfold count
  simp only
  split
  · next hzero =>
    refine (countBelow_eq_zero fun i hi => ?_).symm
    have hbit := hshown i
    rw [hzero, show BitVec.getLsbD (0 : Page) i = false from BitVec.getLsbD_zero] at hbit
    simpa [hi] using hbit.symm
  · -- the last word may reach past the stretch, but nothing is shown there
    calc sumOver (fun w => (word _ w).count) (List.range ((min stop pageBits - start + 31) / 32))
        = sumOver (fun w => countBelow (fun i =>
            ((p &&& window start stop) >>> min start pageBits).getLsbD (32 * w + i)) 32)
            (List.range ((min stop pageBits - start + 31) / 32)) := by
          congr 1
          funext w
          exact countBelow_congr fun i hi => getLsbD_word _ w i hi
      _ = countBelow (BitVec.getLsbD _) (32 * ((min stop pageBits - start + 31) / 32)) :=
          sumOver_range_countBelow _ _
      _ = countBelow (BitVec.getLsbD _) (min stop pageBits - start) :=
          countBelow_of_le (by omega) fun i hi _ => by rw [hshown]; simp [Nat.not_lt.2 hi]
      _ = countBelow (fun i => p.getLsbD (start + i)) (min stop pageBits - start) :=
          countBelow_congr fun i hi => by rw [hshown]; simp [hi]

/-- A word of a page is zero if and only if none of its bits is set. -/
theorem word_eq_zero_iff {p : Page} {w : Nat} :
    p.word w = 0 ↔ ∀ i < 32, p.getLsbD (32 * w + i) = false := by
  constructor
  · intro h i hi
    rw [← getLsbD_word p w i hi, h]
    exact BitVec.getLsbD_zero
  · intro h
    apply BitVec.eq_of_getLsbD_eq
    intro i hi
    rw [getLsbD_word p w i hi, h i hi]
    exact BitVec.getLsbD_zero.symm

/-- Searching for a word with a set bit and then for the bit is searching for the bit. -/
theorem firstIn_words (p : Page) :
    (firstIn (fun w => p.word w != 0) 0 1024).bind
        (fun w => (firstIn (p.word w).getLsbD 0 32).map fun b => 32 * w + b)
      = firstIn p.getLsbD 0 pageBits := by
  cases h : firstIn p.getLsbD 0 pageBits with
  | none =>
    have hall := firstIn_eq_none_iff.1 h
    have hwords : firstIn (fun w => p.word w != 0) 0 1024 = none := by
      refine firstIn_eq_none_iff.2 fun w _ hw => ?_
      simp only [bne_eq_false_iff_eq]
      exact word_eq_zero_iff.2 fun i hi => hall _ (by omega) (by rw [pageBits_eq]; omega)
    rw [hwords]
    rfl
  | some i =>
    obtain ⟨-, hlt, hset, hleast⟩ := firstIn_eq_some_iff.1 h
    rw [pageBits_eq] at hlt
    -- the least bit lies in the least word that is not zero, and is the least one there
    have hi : 32 * (i / 32) + i % 32 = i := by omega
    have hword : firstIn (fun w => p.word w != 0) 0 1024 = some (i / 32) := by
      refine firstIn_eq_some_iff.2 ⟨by omega, by omega, ?_, fun w _ hw => ?_⟩
      · simp only [bne_iff_ne, ne_eq, word_eq_zero_iff]
        intro hzero
        have := hzero (i % 32) (by omega)
        rw [hi, hset] at this
        contradiction
      · simp only [bne_eq_false_iff_eq]
        exact word_eq_zero_iff.2 fun b hb => hleast _ (by omega) (by omega)
    have hbit : firstIn (p.word (i / 32)).getLsbD 0 32 = some (i % 32) := by
      refine firstIn_eq_some_iff.2 ⟨by omega, by omega, ?_, fun b _ hb => ?_⟩
      · rw [getLsbD_word _ _ _ (by omega), hi, hset]
      · rw [getLsbD_word _ _ _ (by omega)]
        exact hleast _ (by omega) (by omega)
    rw [hword, Option.bind_some, hbit, Option.map_some, hi]

/-- The search by words, from `start` on. -/
theorem firstSet_eq_firstIn (p : Page) (start : Nat) :
    p.firstSet start
      = (firstIn (fun i => p.getLsbD (start + i)) 0 pageBits).map fun i => start + i := by
  have hshown : (p >>> min start pageBits).getLsbD = fun i => p.getLsbD (start + i) := by
    funext i
    rw [BitVec.getLsbD_ushiftRight]
    by_cases hs : start ≤ pageBits
    · rw [Nat.min_eq_left hs]
    · rw [BitVec.getLsbD_of_ge p _ (by omega), BitVec.getLsbD_of_ge p _ (by omega)]
  rw [← hshown, ← firstIn_words]
  unfold firstSet
  simp only
  split
  · next hzero =>
    have hnone : firstIn (fun w => word (p >>> min start pageBits) w != 0) 0 1024 = none := by
      refine firstIn_eq_none_iff.2 fun w _ _ => ?_
      rw [hzero, bne_eq_false_iff_eq]
      exact word_eq_zero_iff.2 fun _ _ => BitVec.getLsbD_zero
    rw [hnone]
    rfl
  · rw [Option.map_bind]
    congr 1
    funext w
    rw [Function.comp, Option.map_map]
    rfl

/-- What the search of a page finds is its least set bit from the start on. -/
theorem firstSet_eq_some_iff {p : Page} {start i : Nat} :
    p.firstSet start = some i ↔
      start ≤ i ∧ p.getLsbD i = true ∧ ∀ j, start ≤ j → j < i → p.getLsbD j = false := by
  rw [firstSet_eq_firstIn, Option.map_eq_some_iff]
  simp only [firstIn_eq_some_iff]
  constructor
  · rintro ⟨d, ⟨-, -, hset, hleast⟩, rfl⟩
    refine ⟨by omega, hset, fun j h1 h2 => ?_⟩
    have := hleast (j - start) (by omega) (by omega)
    rwa [show start + (j - start) = j by omega] at this
  · rintro ⟨hle, hset, hleast⟩
    have hlt : i < pageBits := BitVec.lt_of_getLsbD hset
    refine ⟨i - start, ⟨by omega, by omega, ?_, fun j _ hj => hleast _ (by omega) (by omega)⟩,
      by omega⟩
    rwa [show start + (i - start) = i by omega]

/-- The search of a page finds nothing if and only if no bit is set from the start on. -/
theorem firstSet_eq_none_iff {p : Page} {start : Nat} :
    p.firstSet start = none ↔ ∀ i, start ≤ i → p.getLsbD i = false := by
  rw [firstSet_eq_firstIn, Option.map_eq_none_iff, firstIn_eq_none_iff]
  constructor
  · intro h i hi
    by_cases hlt : i < pageBits
    · have := h (i - start) (by omega) (by omega)
      rwa [show start + (i - start) = i by omega] at this
    · exact BitVec.getLsbD_of_ge p i (by omega)
  · exact fun h i _ _ => h _ (by omega)

end Page

/-! ## Bitmaps -/

namespace Bitmap

theorem getLsbD_word (b : Bitmap) (w i : Nat) (hi : i < 32) :
    (b.word w).getLsbD i = b.get (32 * w + i) := by
  rw [word, Page.getLsbD_word _ _ _ hi, get, div_pageBits, mod_pageBits,
    show (32 * w + i) / 32768 = w / 1024 by omega,
    show (32 * w + i) % 32768 = 32 * (w % 1024) + i by omega]

/-- The bit of an index in a list of pages. -/
def getAmong (pages : List (Nat × Page)) (index : Nat) : Bool :=
  ((SortedMap.lookup (index / pageBits) pages).getD 0).getLsbD (index % pageBits)

theorem get_eq_getAmong (b : Bitmap) (index : Nat) :
    b.get index = getAmong b.pages.toList index := rfl

theorem getAmong_nil (index : Nat) : getAmong [] index = false := BitVec.getLsbD_zero

/-- An index belongs to one page only, so the first page answers for its own bits and the rest for
all others. -/
theorem getAmong_cons (k : Nat) (p : Page) (rest : List (Nat × Page)) (index : Nat) :
    getAmong ((k, p) :: rest) index
      = if index / pageBits = k then p.getLsbD (index % pageBits) else getAmong rest index := by
  simp only [getAmong, SortedMap.lookup, Nat.compare_eq_eq]
  split <;> rfl

/-- On a page that is not in the list nothing is set. -/
theorem getAmong_eq_false {pages : List (Nat × Page)} {index : Nat}
    (h : ∀ e ∈ pages, index / pageBits ≠ e.1) : getAmong pages index = false := by
  induction pages with
  | nil => exact getAmong_nil index
  | cons e rest ih =>
    rw [getAmong_cons, if_neg (h e (by simp))]
    exact ih fun f hf => h f (by simp [hf])

/-- Behind the head of an ascending list no page has the head's key, or a lower one. -/
theorem getAmong_tail {k : Nat} {p : Page} {rest : List (Nat × Page)} {index : Nat}
    (h : ((k, p) :: rest).Pairwise fun a b => compare a.1 b.1 = .lt)
    (hle : index / pageBits ≤ k) : getAmong rest index = false :=
  getAmong_eq_false fun e he => by
    have := Nat.compare_eq_lt.1 ((List.pairwise_cons.1 h).1 e he)
    omega

/-! ### Counting -/

/-- What one page adds to the count of a range. -/
theorem count_page (k : Nat) (p : Page) (start stop : Nat) :
    p.count (start - k * pageBits) (stop - k * pageBits)
      = countBelow
          (fun i => decide (start ≤ i) && (i / pageBits == k) && p.getLsbD (i % pageBits))
          stop := by
  rw [Page.count_eq_countBelow]
  simp only [div_pageBits, mod_pageBits, mul_pageBits, min_pageBits]
  by_cases hmeet : max start (k * 32768) < min stop ((k + 1) * 32768)
  · -- the range meets the page, and both counts run over the common window
    rw [countBelow_window (m := stop) (a := max start (k * 32768))
      (n := min (stop - k * 32768) 32768 - (start - k * 32768)) (by omega)]
    · refine countBelow_congr fun i hi => ?_
      rw [decide_eq_true (by omega), Bool.true_and,
        show (max start (k * 32768) + i) / 32768 = k by omega, beq_self_eq_true, Bool.true_and]
      congr 1
      omega
    · intro i hi h
      simp only [Bool.and_eq_true, decide_eq_true_eq, beq_iff_eq] at h
      omega
  · rw [show min (stop - k * 32768) 32768 - (start - k * 32768) = 0 by omega]
    refine (countBelow_eq_zero fun i hi => Bool.eq_false_iff.2 fun h => ?_).symm
    simp only [Bool.and_eq_true, decide_eq_true_eq, beq_iff_eq] at h
    omega

/-- Counting page by page counts the set bits of the range. -/
theorem count_eq_countBelow (b : Bitmap) (r : BlockRange) :
    b.count r = countBelow (fun i => decide (r.start ≤ i) && b.get i) r.stop := by
  unfold count
  simp only [get_eq_getAmong]
  have hasc := b.pages.ascending
  generalize b.pages.toList = pages at hasc ⊢
  induction pages with
  | nil => exact (countBelow_eq_zero fun i _ => by rw [getAmong_nil, Bool.and_false]).symm
  | cons e rest ih =>
    obtain ⟨k, p⟩ := e
    -- pages do not overlap, so what the head counts is not counted again
    have htail {i : Nat} (hi : i / pageBits = k) : getAmong rest i = false :=
      getAmong_tail hasc (Nat.le_of_eq hi)
    rw [sumOver, ih (List.pairwise_cons.1 hasc).2, count_page, ← countBelow_or]
    · refine countBelow_congr fun i _ => ?_
      rw [getAmong_cons]
      by_cases hi : i / pageBits = k
      · simp [hi, htail hi]
      · simp [hi]
    · intro i _ h
      simp only [Bool.and_eq_true, beq_iff_eq] at h
      rw [htail h.1.2, Bool.and_false]

/-- Counting the set bits from the start of the range on. -/
theorem count_eq_countBelow_from (b : Bitmap) (r : BlockRange) :
    b.count r = countBelow (fun i => b.get (r.start + i)) (r.stop - r.start) := by
  rw [count_eq_countBelow]
  by_cases hle : r.start ≤ r.stop
  · rw [countBelow_window (a := r.start) (n := r.stop - r.start) (by omega) fun i hi hset => ?_]
    · refine countBelow_congr fun i _ => ?_
      rw [decide_eq_true (by omega), Bool.true_and]
    · rw [Bool.and_eq_true, decide_eq_true_eq] at hset
      omega
  · -- a range that begins behind the largest index has nothing to count
    rw [Nat.sub_eq_zero_of_le (by omega)]
    exact countBelow_eq_zero fun i hi => by rw [decide_eq_false (by omega), Bool.false_and]

/-! ### Searching -/

/-- The least set index from some index on, be it one of the index space or past it. -/
structure IsFirstSet (b : Bitmap) (start i : Nat) : Prop where
  start_le : start ≤ i
  set : b.get i = true
  unset_before : ∀ j, start ≤ j → j < i → b.get j = false

/-- Neither of two least set indices lies before the other. -/
theorem IsFirstSet.unique {b : Bitmap} {start i j : Nat} (hi : b.IsFirstSet start i)
    (hj : b.IsFirstSet start j) : i = j := by
  rcases Nat.lt_trichotomy i j with hlt | heq | hgt
  · exact absurd hi.set (by simp [hj.unset_before i hi.start_le hlt])
  · exact heq
  · exact absurd hj.set (by simp [hi.unset_before j hj.start_le hgt])

/-- A least set index is still the least from any later index on that it is not behind. -/
theorem IsFirstSet.of_le {b : Bitmap} {start later i : Nat} (h : b.IsFirstSet start i)
    (hlater : start ≤ later) (hi : later ≤ i) : b.IsFirstSet later i :=
  ⟨hi, h.set, fun j h1 h2 => h.unset_before j (Nat.le_trans hlater h1) h2⟩

/-- The beginning of a page wraps around together with every index on the page. -/
theorem pageStart_add {k i : Nat} (hi : i < pageBits) :
    pageStart k + i = (k * pageBits + i) % (lastIndex + 1) := by
  rw [pageBits_eq] at hi
  simp only [pageStart, mul_pageBits, lastIndex]
  omega

/-- From where a first page shows nothing any more, a list of pages is as good without it. -/
theorem getAmong_of_firstSet_eq_none {k : Nat} {p : Page} {rest : List (Nat × Page)}
    (hasc : ((k, p) :: rest).Pairwise fun a b => compare a.1 b.1 = .lt) {start : Nat}
    (h : p.firstSet (start - k * pageBits) = none) {i : Nat} (hi : start ≤ i) :
    getAmong ((k, p) :: rest) i = getAmong rest i := by
  have hnone := Page.firstSet_eq_none_iff.1 h
  rw [getAmong_cons]
  split
  · next hk =>
    rw [getAmong_tail hasc (Nat.le_of_eq hk)]
    rw [mul_pageBits] at hnone
    rw [div_pageBits] at hk
    exact hnone _ (by rw [mod_pageBits]; omega)
  · rfl

/-- The search through a list of pages finds the least set index, and answers what it wraps around
to. -/
theorem firstSetAmong_spec {pages : List (Nat × Page)}
    (hasc : pages.Pairwise fun a b => compare a.1 b.1 = .lt) (start : Nat) :
    match firstSetAmong start pages with
    | some answer => ∃ i, i % (lastIndex + 1) = answer ∧ start ≤ i ∧ getAmong pages i = true ∧
        ∀ j, start ≤ j → j < i → getAmong pages j = false
    | none => ∀ i, start ≤ i → getAmong pages i = false := by
  induction pages with
  | nil => exact fun i _ => getAmong_nil i
  | cons e rest ih =>
    obtain ⟨k, p⟩ := e
    have hrest := ih (List.pairwise_cons.1 hasc).2
    rw [firstSetAmong]
    cases hp : p.firstSet (start - k * pageBits) with
    | some b =>
      -- the pages behind the head begin later than it ends
      obtain ⟨hle, hset, hleast⟩ := Page.firstSet_eq_some_iff.1 hp
      have hb : b < pageBits := BitVec.lt_of_getLsbD hset
      refine ⟨k * pageBits + b, (pageStart_add hb).symm, ?_⟩
      simp only [pageBits_eq] at hle hleast hb ⊢
      have hkb : (k * 32768 + b) / 32768 = k := by omega
      refine ⟨by omega, ?_, fun j h1 h2 => ?_⟩
      · rw [getAmong_cons, div_pageBits, mod_pageBits, if_pos hkb,
          show (k * 32768 + b) % 32768 = b by omega, hset]
      · rw [getAmong_cons, div_pageBits, mod_pageBits]
        split
        · exact hleast _ (by omega) (by omega)
        · exact getAmong_tail hasc (by rw [div_pageBits]; omega)
    | none =>
      have hcons {i : Nat} (hi : start ≤ i) := getAmong_of_firstSet_eq_none hasc hp hi
      simp only
      cases hr : firstSetAmong start rest with
      | some answer =>
        rw [hr] at hrest
        obtain ⟨i, hanswer, hle, hset, hleast⟩ := hrest
        refine ⟨i, hanswer, hle, by rw [hcons hle, hset], fun j h1 h2 => ?_⟩
        rw [hcons h1, hleast j h1 h2]
      | none =>
        rw [hr] at hrest
        exact fun i hi => by rw [hcons hi, hrest i hi]

/-- The search finds nothing if and only if nothing is set, past the index space included. -/
theorem firstSet_eq_none_iff {b : Bitmap} {start : Nat} :
    b.firstSet start = none ↔ ∀ i, start ≤ i → b.get i = false := by
  have h := firstSetAmong_spec b.pages.ascending start
  rw [firstSet]
  cases hf : firstSetAmong start b.pages.toList with
  | some answer =>
    rw [hf] at h
    obtain ⟨i, -, hle, hset, -⟩ := h
    refine iff_of_false (by simp) fun hall => ?_
    rw [← get_eq_getAmong, hall i hle] at hset
    contradiction
  | none =>
    rw [hf] at h
    exact iff_of_true rfl h

/-- The search page by page finds the least set bit, and answers what its index wraps around to. -/
theorem firstSet_eq_some_iff {b : Bitmap} {start answer : Nat} :
    b.firstSet start = some answer ↔
      ∃ i, b.IsFirstSet start i ∧ i % (lastIndex + 1) = answer := by
  have h := firstSetAmong_spec b.pages.ascending start
  rw [firstSet]
  cases hf : firstSetAmong start b.pages.toList with
  | some found =>
    rw [hf] at h
    obtain ⟨i, rfl, hle, hset, hleast⟩ := h
    have hfirst : b.IsFirstSet start i := ⟨hle, hset, hleast⟩
    constructor
    · rintro ⟨⟩
      exact ⟨i, hfirst, rfl⟩
    · rintro ⟨j, hj, rfl⟩
      rw [hfirst.unique hj]
  | none =>
    rw [hf] at h
    refine iff_of_false (by simp) fun ⟨i, hi, _⟩ => ?_
    have hunset : b.get i = false := h i hi.start_le
    rw [hi.set] at hunset
    contradiction

end Bitmap

end LogSync
