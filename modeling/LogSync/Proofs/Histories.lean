import Mathlib.Data.List.Induction

/-!
# What has happened since

A history is a list of operations, the first one first. What an operation does goes by what came
before it, so a kind of operation is told by the operation together with the ones before it. Two
things are asked of histories: that no operation was of a kind (`History.Never`), and that one was
of some kind and none since of another (`History.Since`).

Both go by the last operation (`History.never_append_singleton`, `History.since_append_singleton`).
So what a state has to do with its history is shown one operation at a time.
-/

namespace LogSync.History

variable {α : Type}

/-- No operation of a history is of a kind. -/
def Never (kind : List α → α → Prop) (ops : List α) : Prop :=
  ∀ before op after, ops = before ++ op :: after → ¬ kind before op

/-- An operation of a history is of a kind that begins something, and none since is of a kind that
ends it. -/
def Since (begins ends : List α → α → Prop) (ops : List α) : Prop :=
  ∃ before op after, ops = before ++ op :: after ∧ begins before op ∧
    Never (fun between => ends (before ++ op :: between)) after

/-- What is told by the last operation that tells anything. -/
def last? {β : Type} (tells : α → Option β) (ops : List α) : Option β :=
  (ops.filterMap tells).getLast?

/-! ## The last operation -/

/-- The last operation is the one to tell, if it tells anything. -/
theorem last?_append_singleton {β : Type} (tells : α → Option β) (ops : List α) (op : α) :
    last? tells (ops ++ [op]) = (tells op).or (last? tells ops) := by
  unfold last?
  rw [List.filterMap_append, List.getLast?_append]
  cases hop : tells op with
  | none => rw [List.filterMap_cons_none hop, List.filterMap_nil, List.getLast?_nil, Option.none_or]
  | some b => rw [List.filterMap_cons_some hop, List.filterMap_nil, List.getLast?_singleton]

/-- An operation of a history is the last one or stands before it. -/
theorem append_singleton_eq_iff {ops before after : List α} {op other : α} :
    ops ++ [op] = before ++ other :: after ↔
      after = [] ∧ before = ops ∧ other = op ∨
        ∃ init, after = init ++ [op] ∧ ops = before ++ other :: init := by
  rcases List.eq_nil_or_concat after with rfl | ⟨init, last, rfl⟩
  · rw [List.append_singleton_inj]
    constructor
    · rintro ⟨rfl, rfl⟩
      exact Or.inl ⟨rfl, rfl, rfl⟩
    · rintro (⟨-, rfl, rfl⟩ | ⟨init, hinit, -⟩)
      · exact ⟨rfl, rfl⟩
      · exact absurd hinit.symm (List.append_ne_nil_of_right_ne_nil _ (List.cons_ne_nil _ _))
  · rw [List.concat_eq_append, ← List.cons_append, ← List.append_assoc, List.append_singleton_inj]
    constructor
    · rintro ⟨rfl, rfl⟩
      exact Or.inr ⟨init, rfl, rfl⟩
    · rintro (⟨hnil, -⟩ | ⟨init', hinit, rfl⟩)
      · exact absurd hnil (List.append_ne_nil_of_right_ne_nil _ (List.cons_ne_nil _ _))
      · obtain ⟨rfl, rfl⟩ := List.append_singleton_inj.1 hinit
        exact ⟨rfl, rfl⟩

section
variable {kind begins ends : List α → α → Prop} {ops : List α} {op : α}

theorem never_nil : Never kind [] := fun _ _ _ h =>
  absurd h.symm (List.append_ne_nil_of_right_ne_nil _ (List.cons_ne_nil _ _))

/-- A history has no operation of a kind if and only if it had none before its last, nor is that
one. -/
theorem never_append_singleton : Never kind (ops ++ [op]) ↔ Never kind ops ∧ ¬ kind ops op := by
  constructor
  · intro h
    refine ⟨fun before other after hops => ?_, h ops op [] rfl⟩
    exact h before other (after ++ [op]) (by rw [hops, List.append_assoc, List.cons_append])
  · rintro ⟨hops, hop⟩ before other after h
    rcases append_singleton_eq_iff.1 h with ⟨-, rfl, rfl⟩ | ⟨init, -, hinit⟩
    · exact hop
    · exact hops before other init hinit

theorem not_since_nil : ¬ Since begins ends [] := by
  rintro ⟨before, op, after, h, -⟩
  exact absurd h.symm (List.append_ne_nil_of_right_ne_nil _ (List.cons_ne_nil _ _))

/-- The last operation begins it, or it was begun before and the last operation does not end it. -/
theorem since_append_singleton :
    Since begins ends (ops ++ [op]) ↔ begins ops op ∨ Since begins ends ops ∧ ¬ ends ops op := by
  constructor
  · rintro ⟨before, other, after, hops, hbegins, hnever⟩
    rcases append_singleton_eq_iff.1 hops with ⟨rfl, rfl, rfl⟩ | ⟨init, rfl, rfl⟩
    · exact Or.inl hbegins
    · obtain ⟨hinit, hlast⟩ := never_append_singleton.1 hnever
      exact Or.inr ⟨⟨before, other, init, rfl, hbegins, hinit⟩, hlast⟩
  · rintro (hbegins | ⟨⟨before, other, init, rfl, hbegins, hinit⟩, hlast⟩)
    · exact ⟨ops, op, [], rfl, hbegins, never_nil⟩
    · refine ⟨before, other, init ++ [op], ?_, hbegins, never_append_singleton.2 ⟨hinit, hlast⟩⟩
      rw [List.append_assoc, List.cons_append]

/-- Of two histories in a row, the second one begins it, or the first one does and the second one
does not end it. -/
theorem of_since_append {later : List α} (h : Since begins ends (ops ++ later)) :
    Since (fun between => begins (ops ++ between)) (fun between => ends (ops ++ between)) later ∨
      Since begins ends ops ∧ Never (fun between => ends (ops ++ between)) later := by
  induction later using List.reverseRecOn with
  | nil => exact Or.inr ⟨List.append_nil ops ▸ h, never_nil⟩
  | append_singleton later op ih =>
    rw [← List.append_assoc] at h
    rw [since_append_singleton, never_append_singleton]
    rcases since_append_singleton.1 h with hbegins | ⟨hbefore, hends⟩
    · exact Or.inl (Or.inl hbegins)
    · rcases ih hbefore with hlater | ⟨hops, hnever⟩
      · exact Or.inl (Or.inr ⟨hlater, hends⟩)
      · exact Or.inr ⟨hops, hnever, hends⟩

end

end LogSync.History
