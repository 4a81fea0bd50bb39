import LogSync.Proofs.Mirroring

/-!
# What becomes of declared wants

A peer wants everything until it declares what it wants, and may declare more at any time. Each
declaration is a list of ranges, and the list may be empty. Nothing but declarations changes what is
wanted (`CoreOp.wants_apply`), and the ranges of all of them add up (`CoreTracker.wants_foldl`).

But it is the first range that takes the wish for everything back, not the first declaration. So a
peer wants the ranges that it has declared, and nothing else, if and only if it has declared any
range at all (`CoreTracker.declared_wants_add_up_iff_some_range`).
-/

namespace LogSync

/-! ## What is said -/

/-- The ranges that an operation declares as wanted by a peer, if it does. -/
def CoreOp.declares? (p : PeerId) : CoreOp → Option (List BlockRange)
  | addWants q ranges => if q = p then some ranges else none
  | _ => none

/-- The declarations of a peer among some operations, in order. -/
def declarations (p : PeerId) (ops : List CoreOp) : List (List BlockRange) :=
  ops.filterMap (·.declares? p)

/-- Whether a block lies in a range of some declarations. -/
def isDeclared (said : List (List BlockRange)) (i : Nat) : Bool := said.any (·.any (·.covers i))

/-! ## One record -/

namespace PeerRecord

/-- Whether a block lies in the declared wants. -/
def declares (r : PeerRecord) (i : Nat) : Bool := r.wants.any (·.get i)

theorem wishes_eq (r : PeerRecord) (i : Nat) :
    r.wishes i = (r.wantsEverything || r.declares i) := by
  unfold wishes wantsEverything declares
  cases r.wants <;> rfl

/-- A range is added to those before, and ends the wish for everything. -/
theorem declares_addWants (r : PeerRecord) (range : BlockRange) (i : Nat) :
    (r.addWants range).declares i = (r.declares i || range.covers i) := by
  show ((r.wants.getD ∅).setRange range true).get i = _
  rw [Bitmap.get_setRange, Bitmap.get_getD_empty]
  unfold declares
  cases range.covers i <;> simp

/-- The ranges of a declaration add up, one by one. -/
theorem wants_foldl_addWants (ranges : List BlockRange) (r : PeerRecord) :
    (ranges.foldl (·.addWants ·) r).wantsEverything = (r.wantsEverything && ranges.isEmpty) ∧
      ∀ i, (ranges.foldl (·.addWants ·) r).declares i
        = (r.declares i || ranges.any (·.covers i)) := by
  induction ranges generalizing r with
  | nil => exact ⟨(Bool.and_true _).symm, fun i => (Bool.or_false _).symm⟩
  | cons range rest ih =>
    obtain ⟨heverything, hdeclares⟩ := ih (r.addWants range)
    refine ⟨?_, fun i => ?_⟩
    · rw [List.foldl_cons, heverything, List.isEmpty_cons, Bool.and_false]
      rfl
    · rw [List.foldl_cons, hdeclares, declares_addWants, List.any_cons, Bool.or_assoc]

end PeerRecord

/-! ## One operation -/

/-- Only a peer's own declarations change what it wants. -/
theorem CoreOp.wants_apply (op : CoreOp) (core : CoreTracker) (p : PeerId) :
    ((op.apply core).record p).wants
      = (((op.declares? p).getD []).foldl (·.addWants ·) (core.record p)).wants := by
  cases op with
  | attach snapshot => exact (core.declared_attach snapshot p).2
  | setPreHaves q bits =>
    show ((core.updatePeer q (·.setPreHaves bits)).record p).wants = (core.record p).wants
    rw [CoreTracker.record_updatePeer]
    split
    · next hp => rw [hp]; rfl
    · rfl
  | addWants q ranges =>
    show ((core.updatePeer q fun r => ranges.foldl (·.addWants ·) r).record p).wants = _
    rw [CoreTracker.record_updatePeer, declares?]
    by_cases hp : p = q
    · rw [if_pos hp, if_pos hp.symm, hp]
      rfl
    · rw [if_neg hp, if_neg (Ne.symm hp)]
      rfl
  | addPeer q =>
    show ((core.addPeer q).1.record p).wants = (core.record p).wants
    unfold CoreTracker.addPeer
    split
    · rfl
    · show ((core.updatePeer q id).record p).wants = _
      rw [CoreTracker.record_updatePeer]
      split
      · next hp => rw [hp]; rfl
      · rfl
  | event event => exact (core.declared_onEvent event p).2
  | read =>
    show (core.counts.2.record p).wants = _
    rw [CoreTracker.counts_tracker]
    rfl

/-! ## Histories -/

namespace CoreTracker

/-- After any operations, a peer wants everything if it did before and has declared no range since;
and its declared wants are those of before and all ranges that it has declared since. -/
theorem wants_foldl (ops : List CoreOp) (t : CoreTracker) (p : PeerId) :
    ((ops.foldl CoreOp.apply t).record p).wantsEverything
        = ((t.record p).wantsEverything && (declarations p ops).all (·.isEmpty)) ∧
      ∀ i, ((ops.foldl CoreOp.apply t).record p).declares i
        = ((t.record p).declares i || isDeclared (declarations p ops) i) := by
  induction ops generalizing t with
  | nil => exact ⟨(Bool.and_true _).symm, fun i => (Bool.or_false _).symm⟩
  | cons op rest ih =>
    obtain ⟨heverything, hdeclares⟩ := ih (op.apply t)
    obtain ⟨heverything', hdeclares'⟩ :=
      PeerRecord.wants_foldl_addWants ((op.declares? p).getD []) (t.record p)
    have hwants := op.wants_apply t p
    -- what is asked of the record is asked of its wants alone
    have hnext : ((op.apply t).record p).wantsEverything
          = ((t.record p).wantsEverything && ((op.declares? p).getD []).isEmpty) := by
      rw [← heverything', PeerRecord.wantsEverything, hwants]
      rfl
    have hnext' (i : Nat) : ((op.apply t).record p).declares i
          = ((t.record p).declares i || ((op.declares? p).getD []).any (·.covers i)) := by
      rw [← hdeclares', PeerRecord.declares, hwants]
      rfl
    rw [List.foldl_cons]
    refine ⟨?_, fun i => ?_⟩
    · rw [heverything, hnext, Bool.and_assoc, declarations, declarations, List.filterMap_cons]
      cases op.declares? p <;> rfl
    · rw [hdeclares, hnext', Bool.or_assoc, declarations, declarations, List.filterMap_cons]
      cases op.declares? p <;> rfl

/-- **Declared wants add up as soon as a range is declared.** Let a peer have declared nothing of a
core, and let anything happen to the core then, with any number of declarations by the peer among
it. What the peer wants in the end is everything if all its declarations are empty, and else the
blocks that lie in some range of some declaration. So it wants exactly what it has declared if and
only if it has declared a range, be the range empty. -/
theorem declared_wants_add_up_iff_some_range (t : CoreTracker) (ops : List CoreOp) (p : PeerId)
    (hnone : (t.record p).wants = none) :
    let said := declarations p ops
    let r := (ops.foldl CoreOp.apply t).record p
    (∀ i, r.wishes i = (said.all (·.isEmpty) || isDeclared said i)) ∧
      ((∀ i < lastIndex, r.wishes i = isDeclared said i) ↔ ∃ ranges ∈ said, ranges ≠ []) := by
  intro said r
  obtain ⟨heverything, hdeclares⟩ := wants_foldl ops t p
  have hwishes (i : Nat) : r.wishes i = (said.all (·.isEmpty) || isDeclared said i) := by
    rw [PeerRecord.wishes_eq, heverything, hdeclares, PeerRecord.wantsEverything,
      PeerRecord.declares, hnone]
    rfl
  refine ⟨hwishes, ?_, ?_⟩
  · intro hexact
    refine Decidable.byContradiction fun hall => ?_
    have hempty : ∀ ranges ∈ said, ranges = [] := fun ranges hranges =>
      Decidable.byContradiction fun hne => hall ⟨ranges, hranges, hne⟩
    have hnowhere : isDeclared said 0 = false := by
      refine List.any_eq_false.2 fun ranges hranges => ?_
      rw [hempty ranges hranges]
      exact Bool.false_ne_true
    have hzero := hexact 0 (by decide)
    rw [hwishes, hnowhere, Bool.or_false, List.all_eq_false] at hzero
    obtain ⟨ranges, hranges, hne⟩ := hzero
    rw [hempty ranges hranges] at hne
    exact hne rfl
  · rintro ⟨ranges, hranges, hne⟩ i -
    have hsome : said.all (·.isEmpty) = false :=
      List.all_eq_false.2 ⟨ranges, hranges, fun hempty => hne (List.isEmpty_iff.1 hempty)⟩
    rw [hwishes, hsome, Bool.false_or]

/-- A peer declares nothing, then an empty range, then a range that reaches over the end; meanwhile
it joins, and another peer says what it wants. -/
theorem declared_wants_add_up_at_the_end :
    let p : PeerId := ⟨⟨1⟩⟩
    let ops : List CoreOp := [.addWants p [], .event (.peerAdd p ∅), .addWants ⟨⟨2⟩⟩ [⟨0, 9⟩],
      .addWants p [⟨4, 0⟩], .read, .addWants p [⟨0xFFFFFFFFFFFFFFFE, 7⟩]]
    let r := (ops.foldl CoreOp.apply (ofKey default)).record p
    ((ofKey default).record p).wants = none ∧ r.wishes 4 = false ∧
      r.wishes 0xFFFFFFFFFFFFFFFE = true := by
  intro p ops r
  obtain ⟨hwishes, -⟩ := declared_wants_add_up_iff_some_range (ofKey default) ops p rfl
  refine ⟨rfl, ?_, ?_⟩
  · rw [hwishes]
    decide
  · rw [hwishes]
    decide

/-- A peer declares that it wants nothing, and is taken to want everything still. -/
theorem empty_declaration_is_lost :
    let p : PeerId := ⟨⟨1⟩⟩
    let ops : List CoreOp := [.addWants p []]
    ¬ ∀ i < lastIndex, ((ops.foldl CoreOp.apply (ofKey default)).record p).wishes i
      = isDeclared (declarations p ops) i := by
  intro p ops hexact
  have hwants : ((ops.foldl CoreOp.apply (ofKey default)).record p).wishes 0 = true := by decide
  have hdeclared : isDeclared (declarations p ops) 0 = false := by decide
  rw [hexact 0 (by decide), hdeclared] at hwants
  contradiction

end CoreTracker

end LogSync
