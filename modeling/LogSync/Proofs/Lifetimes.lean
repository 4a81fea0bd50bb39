import LogSync.Proofs.Histories
import LogSync.Proofs.SortedMaps
import LogSync.Timer.GraceSet

/-!
# How long keys are kept

Keys come in, are taken out, singly or by a test, and are forgotten when their time has come. All
this happens in any order and at any times, which need not come in order either. The life of a key
begins when it comes in and was not there, and lasts for the grace period, unless it is taken out
before; to come in once more makes no difference to it (`GraceSet.until_eq_some_iff`). So who is
here, who is forgotten when, and which time is the next one to look at, can all be told from the
history (`GraceSet.keys_live_from_entry`).
-/

namespace LogSync

open History

/-! ## What is said -/

/-- What is done to a set of keys. -/
inductive GraceOp (κ : Type) where
  | insert (k : κ) (now : Nat)
  | remove (k : κ)
  | expire (now : Nat)
  | takeMatching (test : κ → Bool)

section
variable {κ : Type} [Ord κ] [Std.TransOrd κ]

/-- The keys after an operation. -/
def GraceOp.apply (s : GraceSet κ) : GraceOp κ → GraceSet κ
  | insert k now => (s.insert k now).1
  | remove k => (s.remove k).1
  | expire now => (s.expire now).1
  | takeMatching test => (s.takeMatching test).1

/-- The keys after some operations, of which there were none at first. -/
def GraceSet.ofOps (grace : Nat) (ops : List (GraceOp κ)) : GraceSet κ :=
  ops.foldl GraceOp.apply { grace }

namespace GraceOp

variable (grace : Nat) (k : κ)

/-- A key enters at a time: it comes in, and it is new. -/
def Enters (now : Nat) (before : List (GraceOp κ)) (op : GraceOp κ) : Prop :=
  op = .insert k now ∧ ((GraceSet.ofOps grace before).insert k now).2 = true

/-- A key enters. -/
def EntersSome (before : List (GraceOp κ)) (op : GraceOp κ) : Prop :=
  ∃ now, Enters grace k now before op

omit [Ord κ] [Std.TransOrd κ] in
/-- A key whose time comes at `due` leaves: it is removed, selected, or forgotten. -/
def Leaves (due : Nat) : GraceOp κ → Prop
  | insert _ _ => False
  | remove j => j = k
  | expire now => due ≤ now
  | takeMatching test => test k = true

/-- The last time that a key entered was `now`, and it has not left since. -/
def LivesFrom (now : Nat) (ops : List (GraceOp κ)) : Prop :=
  Since (Enters grace k now)
    (fun before op => EntersSome grace k before op ∨ Leaves k (now + grace) op) ops

end GraceOp

end

/-! ## One operation -/

namespace GraceSet

variable {κ : Type} [Ord κ]

/-- Until when a key is kept, if it is. -/
def until? (s : GraceSet κ) (k : κ) : Option Nat := s.deadlines.get? k

theorem contains_eq (s : GraceSet κ) (k : κ) : s.contains k = (s.until? k).isSome := rfl

variable [Std.LawfulEqOrd κ]

/-! ### Keys are taken out -/

section
variable (s : GraceSet κ) (test : κ → Nat → Bool)

/-- The keys that pass the test are gone, and the others keep their deadlines. -/
theorem until_takeWhere (k : κ) :
    (s.takeWhere test).1.until? k = (s.until? k).filter fun d => !test k d :=
  SortedMap.get?_filter _ _ _

/-- What is taken out are the keys that pass the test. -/
theorem mem_takeWhere {s : GraceSet κ} {test : κ → Nat → Bool} {k : κ} :
    k ∈ (s.takeWhere test).2 ↔ ∃ d, s.until? k = some d ∧ test k d = true := by
  show k ∈ (s.deadlines.filter test).keys ↔ _
  rw [SortedMap.mem_keys_iff, SortedMap.contains, SortedMap.get?_filter, Option.isSome_iff_exists]
  exact exists_congr fun d => Option.filter_eq_some_iff

omit [Std.LawfulEqOrd κ] in
/-- The keys that are taken out are given in ascending order, each one once. -/
theorem ascending_takeWhere : (s.takeWhere test).2.Pairwise fun j k => compare j k = .lt :=
  List.pairwise_map.2 (s.deadlines.filter test).ascending

end

/-- The keys whose time is still to come stay as they are. -/
theorem until_expire (s : GraceSet κ) (now : Nat) (k : κ) :
    (s.expire now).1.until? k = (s.until? k).filter fun d => !decide (d ≤ now) :=
  until_takeWhere _ _ _

/-- What runs out are the keys whose time has come. -/
theorem mem_expire {s : GraceSet κ} {now : Nat} {k : κ} :
    k ∈ (s.expire now).2 ↔ ∃ d, s.until? k = some d ∧ d ≤ now := by
  simp only [expire, mem_takeWhere, decide_eq_true_eq]

/-- The keys that are forgotten are gone, and the others are kept as long as before. -/
theorem until_expire_eq_ite [DecidableEq κ] (s : GraceSet κ) (now : Nat) (k : κ) :
    (s.expire now).1.until? k = if k ∈ (s.expire now).2 then none else s.until? k := by
  rw [until_expire]
  cases hkept : s.until? k with
  | none => rw [Option.filter_none, ite_self]
  | some d =>
    have hmem : k ∈ (s.expire now).2 ↔ d ≤ now := by simp [mem_expire, hkept]
    by_cases hdue : d ≤ now
    · rw [if_pos (hmem.2 hdue), Option.filter_some, if_neg (by simp [hdue])]
    · rw [if_neg (mt hmem.1 hdue), Option.filter_some, if_pos (by simp [hdue])]

/-- The keys that are selected are gone, whatever their deadlines. -/
theorem until_takeMatching (s : GraceSet κ) (test : κ → Bool) (k : κ) :
    (s.takeMatching test).1.until? k = if test k then none else s.until? k := by
  have hfilter : (s.takeMatching test).1.until? k = (s.until? k).filter fun _ => !test k :=
    until_takeWhere _ _ _
  rw [hfilter]
  cases s.until? k <;> cases test k <;> rfl

theorem mem_takeMatching {s : GraceSet κ} {test : κ → Bool} {k : κ} :
    k ∈ (s.takeMatching test).2 ↔ test k = true ∧ (s.until? k).isSome = true := by
  rw [takeMatching, mem_takeWhere, Option.isSome_iff_exists, exists_and_right, and_comm]

/-! ### A single key -/

section
variable [DecidableEq κ]

theorem until_remove (s : GraceSet κ) (k j : κ) :
    (s.remove k).1.until? j = if j = k then none else s.until? j :=
  SortedMap.get?_erase _ _ _

variable [Std.TransOrd κ]

omit [Std.LawfulEqOrd κ] [DecidableEq κ] in
/-- A key is new if it is not there. -/
theorem new_insert (s : GraceSet κ) (k : κ) (now : Nat) :
    (s.insert k now).2 = !s.contains k := by
  show _ = !s.deadlines.contains k
  unfold insert
  split
  · next hkept => rw [hkept]; rfl
  · next hnew => rw [Bool.eq_false_iff.2 hnew]; rfl

omit [Std.LawfulEqOrd κ] [DecidableEq κ] in
/-- A key that is there already may come in once more; it makes no difference. -/
theorem insert_of_contains {s : GraceSet κ} {k : κ} (h : s.contains k = true) (now : Nat) :
    s.insert k now = (s, false) := if_pos h

/-- A key that is kept already keeps its deadline. -/
theorem until_insert (s : GraceSet κ) (k j : κ) (now : Nat) :
    (s.insert k now).1.until? j
      = if j = k then some ((s.until? k).getD (now + s.grace)) else s.until? j := by
  cases hkept : s.until? k with
  | some d =>
    have hcontains : s.contains k = true := by rw [contains_eq, hkept]; rfl
    rw [insert_of_contains hcontains]
    split
    · next hjk => rw [hjk, hkept]; rfl
    · rfl
  | none =>
    have hnew : ¬ s.deadlines.contains k = true := by
      rw [SortedMap.contains_eq_false.2 hkept]
      exact Bool.false_ne_true
    rw [insert, if_neg hnew]
    exact SortedMap.get?_insert _ _ _ _

omit [Std.LawfulEqOrd κ] [DecidableEq κ] in
theorem grace_insert (s : GraceSet κ) (k : κ) (now : Nat) :
    (s.insert k now).1.grace = s.grace := by
  unfold insert
  split <;> rfl

end

/-! ### The next deadline -/

section
variable {s : GraceSet κ}

theorem mem_deadlines_iff {d : Nat} : d ∈ s.deadlines.values ↔ ∃ k, s.until? k = some d :=
  SortedMap.mem_values_iff

/-- The next deadline is that of some key, and no key's is earlier. -/
theorem nextDeadline_eq_some_iff {d : Nat} :
    s.nextDeadline = some d ↔
      (∃ k, s.until? k = some d) ∧ ∀ k d', s.until? k = some d' → d ≤ d' := by
  rw [nextDeadline, List.min?_eq_some_iff, mem_deadlines_iff]
  refine and_congr_right fun _ => ⟨fun hleast k d' hd' => ?_, fun hleast d' hd' => ?_⟩
  · exact hleast d' (mem_deadlines_iff.2 ⟨k, hd'⟩)
  · obtain ⟨k, hk⟩ := mem_deadlines_iff.1 hd'
    exact hleast k d' hk

/-- The next deadline is the first time at which keys are forgotten. -/
theorem nextDeadline_eq_some_iff_expire {d : Nat} :
    s.nextDeadline = some d ↔
      (s.expire d).2 ≠ [] ∧ ∀ now, (s.expire now).2 ≠ [] → d ≤ now := by
  have hforgets (now : Nat) : (s.expire now).2 ≠ [] ↔ ∃ k d, s.until? k = some d ∧ d ≤ now := by
    rw [Ne, List.eq_nil_iff_forall_not_mem, not_forall_not]
    exact exists_congr fun k => mem_expire
  simp only [hforgets]
  rw [nextDeadline_eq_some_iff]
  constructor
  · rintro ⟨⟨k, hk⟩, hleast⟩
    refine ⟨⟨k, d, hk, Nat.le_refl d⟩, ?_⟩
    rintro now ⟨j, d', hj, hdue⟩
    exact Nat.le_trans (hleast j d' hj) hdue
  · rintro ⟨⟨k, d', hk, hdue⟩, hfirst⟩
    have hleast (j : κ) (d' : Nat) (hj : s.until? j = some d') : d ≤ d' :=
      hfirst d' ⟨j, d', hj, Nat.le_refl d'⟩
    have hd : d' = d := Nat.le_antisymm hdue (hleast k d' hk)
    exact ⟨⟨k, hd ▸ hk⟩, hleast⟩

omit [Std.LawfulEqOrd κ] in
/-- There is no next deadline exactly if there are no keys. -/
theorem nextDeadline_eq_none_iff : s.nextDeadline = none ↔ s.isEmpty = true := by
  rw [nextDeadline, List.min?_eq_none_iff, SortedMap.values, List.map_eq_nil_iff]
  exact List.isEmpty_iff.symm

end

end GraceSet

/-! ## Histories -/

namespace GraceSet

open GraceOp

variable {κ : Type} [Ord κ] [Std.TransOrd κ]

theorem ofOps_append_singleton (grace : Nat) (ops : List (GraceOp κ)) (op : GraceOp κ) :
    ofOps grace (ops ++ [op]) = op.apply (ofOps grace ops) := List.foldl_append

theorem grace_ofOps (grace : Nat) (ops : List (GraceOp κ)) : (ofOps grace ops).grace = grace := by
  induction ops using List.reverseRecOn with
  | nil => rfl
  | append_singleton ops op ih =>
    rw [ofOps_append_singleton]
    cases op with
    | insert k now => exact ((ofOps grace ops).grace_insert k now).trans ih
    | remove k => exact ih
    | expire now => exact ih
    | takeMatching test => exact ih

/-- A key enters exactly if it comes in and is not there. -/
theorem entersSome_insert {grace : Nat} {k j : κ} {now : Nat} {ops : List (GraceOp κ)} :
    EntersSome grace k ops (.insert j now) ↔ j = k ∧ (ofOps grace ops).until? k = none := by
  have hnew : ((ofOps grace ops).insert k now).2 = true ↔ (ofOps grace ops).until? k = none := by
    rw [new_insert, Bool.not_eq_true', contains_eq, Option.isSome_eq_false_iff,
      Option.isNone_iff_eq_none]
  constructor
  · rintro ⟨now', hop, henters⟩
    obtain ⟨rfl, rfl⟩ := GraceOp.insert.inj hop
    exact ⟨rfl, hnew.1 henters⟩
  · rintro ⟨rfl, hnone⟩
    exact ⟨now, rfl, hnew.2 hnone⟩

variable [Std.LawfulEqOrd κ] [DecidableEq κ]

section
variable (grace : Nat) (ops : List (GraceOp κ)) (k : κ)

/-- An operation has a key kept until a deadline if the key enters by it for that long, or if it was
kept until then before and does not leave. -/
theorem until_step (op : GraceOp κ) (d : Nat) :
    (ofOps grace (ops ++ [op])).until? k = some d ↔
      (∃ now, Enters grace k now ops op ∧ d = now + grace) ∨
        (ofOps grace ops).until? k = some d ∧ ¬ Leaves k d op := by
  rw [ofOps_append_singleton]
  -- only a key that comes in can enter
  have hnever (hop : ∀ now, op ≠ .insert k now) :
      ¬ ∃ now, Enters grace k now ops op ∧ d = now + grace := by
    intro ⟨now, henters, _⟩
    exact hop now henters.1
  cases op with
  | insert j now =>
    show ((ofOps grace ops).insert j now).1.until? k = some d ↔ _
    rw [until_insert, grace_ofOps]
    by_cases hkj : k = j
    · subst hkj
      rw [if_pos rfl]
      cases hkept : (ofOps grace ops).until? k with
      | some d' =>
        have hnot : ¬ EntersSome grace k ops (.insert k now) := by
          rw [entersSome_insert, hkept]
          exact fun h => nomatch h.2
        simp only [Leaves, not_false_eq_true, and_true, Option.getD_some]
        refine (or_iff_right ?_).symm
        intro ⟨now', henters, _⟩
        exact hnot ⟨now', henters⟩
      | none =>
        have henters : ((ofOps grace ops).insert k now).2 = true := by
          rw [new_insert, contains_eq, hkept]
          rfl
        simp only [Option.getD_none, reduceCtorEq, false_and, or_false, Option.some.injEq]
        constructor
        · intro hd
          exact ⟨now, ⟨rfl, henters⟩, hd.symm⟩
        · rintro ⟨now', ⟨hop, -⟩, rfl⟩
          rw [(GraceOp.insert.inj hop).2]
    · have hop : ∀ now', GraceOp.insert j now ≠ .insert k now' := by
        intro now' heq
        exact hkj (GraceOp.insert.inj heq).1.symm
      rw [if_neg hkj, or_iff_right (hnever hop), Leaves, not_false_eq_true, and_true]
  | remove j =>
    show ((ofOps grace ops).remove j).1.until? k = some d ↔ _
    rw [until_remove, or_iff_right (hnever fun _ => nofun), Leaves]
    by_cases hkj : k = j
    · simp [hkj]
    · simp [hkj, Ne.symm hkj]
  | expire now =>
    show ((ofOps grace ops).expire now).1.until? k = some d ↔ _
    rw [until_expire, or_iff_right (hnever fun _ => nofun), Leaves,
      Option.filter_eq_some_iff, Bool.not_eq_true', decide_eq_false_iff_not]
  | takeMatching test =>
    show ((ofOps grace ops).takeMatching test).1.until? k = some d ↔ _
    rw [until_takeMatching, or_iff_right (hnever fun _ => nofun), Leaves]
    cases test k <;> simp

/-- A key is kept until the end of the grace period that its life has begun with. -/
theorem until_eq_some_iff (d : Nat) :
    (ofOps grace ops).until? k = some d ↔ ∃ now, LivesFrom grace k now ops ∧ d = now + grace := by
  induction ops using List.reverseRecOn generalizing d with
  | nil =>
    refine iff_of_false (fun h => by contradiction) ?_
    intro ⟨now, hlives, _⟩
    exact not_since_nil hlives
  | append_singleton ops op ih =>
    rw [until_step]
    simp only [LivesFrom, since_append_singleton, or_and_right, exists_or]
    refine or_congr Iff.rfl ?_
    constructor
    · rintro ⟨hkept, hstays⟩
      obtain ⟨now, hlives, rfl⟩ := (ih d).1 hkept
      refine ⟨now, ⟨hlives, ?_⟩, rfl⟩
      -- what is there does not enter
      have hnot : ¬ EntersSome grace k ops op := by
        intro ⟨now', hop, hnew⟩
        rw [new_insert, contains_eq, hkept] at hnew
        contradiction
      exact not_or.2 ⟨hnot, hstays⟩
    · rintro ⟨now, ⟨hlives, hgoes⟩, rfl⟩
      exact ⟨(ih _).2 ⟨now, hlives, rfl⟩, (not_or.1 hgoes).2⟩

/-- A key is there if and only if it was entered and has lived on since. -/
theorem contains_iff : (ofOps grace ops).contains k = true ↔ ∃ now, LivesFrom grace k now ops := by
  rw [contains_eq, Option.isSome_iff_exists]
  simp only [until_eq_some_iff]
  constructor
  · intro ⟨d, now, hlives, _⟩
    exact ⟨now, hlives⟩
  · intro ⟨now, hlives⟩
    exact ⟨now + grace, now, hlives, rfl⟩

/-- A key is forgotten exactly if it is there and its grace period is over. -/
theorem mem_expire_ofOps_iff (now : Nat) :
    k ∈ ((ofOps grace ops).expire now).2 ↔ ∃ t, LivesFrom grace k t ops ∧ t + grace ≤ now := by
  rw [mem_expire]
  simp only [until_eq_some_iff]
  constructor
  · rintro ⟨_, ⟨t, hlives, rfl⟩, hdue⟩
    exact ⟨t, hlives, hdue⟩
  · intro ⟨t, hlives, hdue⟩
    exact ⟨t + grace, ⟨t, hlives, rfl⟩, hdue⟩

end

/-- **A key lives from its entry for the grace period.** After any operations, at any times: a key
is there if and only if, since it last came in when it was not there, it was neither removed nor
selected, and no keys were forgotten at a time at or after the end of its grace period. The keys
that are forgotten at a time are given in ascending order, each one once: they are those that are
there and whose grace period is over, and exactly these are gone afterwards, while the others are
kept as long as before. To come in once more makes no difference to a key. And the next deadline is
the first time at which a key would be forgotten; there is none exactly if there are no keys. -/
theorem keys_live_from_entry (grace : Nat) (ops : List (GraceOp κ)) :
    let s := ofOps grace ops
    (∀ k, s.contains k = true ↔ ∃ t, LivesFrom grace k t ops) ∧
      (∀ now,
        ((s.expire now).2.Pairwise fun j k => compare j k = .lt) ∧
        (∀ k, k ∈ (s.expire now).2 ↔ ∃ t, LivesFrom grace k t ops ∧ t + grace ≤ now) ∧
        ∀ k, (s.expire now).1.until? k = if k ∈ (s.expire now).2 then none else s.until? k) ∧
      (∀ k now, s.contains k = true → s.insert k now = (s, false)) ∧
      (∀ d, s.nextDeadline = some d ↔
        (s.expire d).2 ≠ [] ∧ ∀ now, (s.expire now).2 ≠ [] → d ≤ now) ∧
      (s.nextDeadline = none ↔ s.isEmpty = true) := by
  intro s
  refine ⟨contains_iff grace ops, fun now => ⟨s.ascending_takeWhere _, ?_, ?_⟩, ?_, ?_, ?_⟩
  · exact fun k => mem_expire_ofOps_iff grace ops k now
  · exact s.until_expire_eq_ite now
  · exact fun k now hkept => insert_of_contains hkept now
  · exact fun d => nextDeadline_eq_some_iff_expire
  · exact nextDeadline_eq_none_iff

/-- One key comes in late and again too early; another one is selected, removed, and comes in a
third time. -/
theorem keys_live_from_entry_of_two_keys :
    let ops : List (GraceOp Nat) :=
      [.insert 1 10, .insert 2 3, .insert 1 0, .takeMatching (· == 2), .insert 2 20, .remove 2,
        .insert 2 30, .expire 14]
    let s := ofOps 5 ops
    s.contains 2 = true ∧ (∃ t, LivesFrom 5 2 t ops) ∧ s.nextDeadline = some 15 ∧
      (∀ now, (s.expire now).2 ≠ [] → 15 ≤ now) ∧ (s.expire 20).2 = [1] ∧
      ∃ t, LivesFrom 5 1 t ops ∧ t + 5 ≤ 20 := by
  intro ops s
  obtain ⟨hlives, hexpire, -, hnext, -⟩ := keys_live_from_entry 5 ops
  have hcontains : s.contains 2 = true := by decide
  have hdeadline : s.nextDeadline = some 15 := by decide
  have hforgotten : (s.expire 20).2 = [1] := by decide
  refine ⟨hcontains, (hlives 2).1 hcontains, hdeadline, ((hnext 15).1 hdeadline).2, hforgotten, ?_⟩
  have hmem : 1 ∈ (s.expire 20).2 := by rw [hforgotten]; exact List.mem_singleton.2 rfl
  exact ((hexpire 20).2.1 1).1 hmem

end GraceSet

end LogSync
