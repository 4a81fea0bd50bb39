/-!
# Counting, searching and summing

A property of indices is a function `Nat → Bool`. `countBelow` counts the indices below a bound
that have it, `firstIn` finds the least one in a stretch. `sumOver` adds a number up over a list.
-/

namespace LogSync

/-- The bound on counts, lengths and indices: they have 64 bits. -/
def countBound : Nat := 0x10000000000000000

/-- How many indices below the bound have the property. -/
def countBelow (p : Nat → Bool) : Nat → Nat
  | 0 => 0
  | n + 1 => countBelow p n + (p n).toNat

/-- The least of the `n` indices from `start` on that has the property. -/
def firstIn (p : Nat → Bool) (start : Nat) : Nat → Option Nat
  | 0 => none
  | n + 1 => if p start then some start else firstIn p (start + 1) n

/-- The sum of a number over the items of a list. -/
def sumOver {α : Type} (f : α → Nat) : List α → Nat
  | [] => 0
  | a :: l => f a + sumOver f l

/-- Only what a predicate says below the bound counts. -/
theorem countBelow_congr {p q : Nat → Bool} {n : Nat} (h : ∀ i < n, p i = q i) :
    countBelow p n = countBelow q n := by
  induction n with
  | zero => rfl
  | succ n ih => rw [countBelow, countBelow, ih fun i hi => h i (by omega), h n (by omega)]

/-- Counting up to a sum counts the first part, then the rest from there. -/
theorem countBelow_add (p : Nat → Bool) (m n : Nat) :
    countBelow p (m + n) = countBelow p m + countBelow (fun i => p (m + i)) n := by
  induction n with
  | zero => rfl
  | succ n ih =>
    show countBelow p (m + n) + _ = _ + (_ + _)
    rw [ih, Nat.add_assoc]; rfl

/-- What the search finds is the least index of the range that satisfies the predicate. -/
theorem firstIn_eq_some_iff {p : Nat → Bool} {start n i : Nat} :
    firstIn p start n = some i ↔
      start ≤ i ∧ i < start + n ∧ p i = true ∧ ∀ j, start ≤ j → j < i → p j = false := by
  induction n generalizing start with
  | zero => simp [firstIn]; omega
  | succ n ih =>
    rw [firstIn]
    split
    · next h =>
      constructor
      · rintro ⟨⟩; exact ⟨by omega, by omega, h, fun j _ _ => by omega⟩
      · rintro ⟨h1, h2, h3, h4⟩
        by_cases e : start = i
        · rw [e]
        · exact absurd h (by simp [h4 start (by omega) (by omega)])
    · next h =>
      rw [ih]
      constructor
      · rintro ⟨h1, h2, h3, h4⟩
        refine ⟨by omega, by omega, h3, fun j h5 h6 => ?_⟩
        by_cases e : j = start
        · simpa [e] using h
        · exact h4 j (by omega) h6
      · rintro ⟨h1, h2, h3, h4⟩
        have : start ≠ i := fun e => h (e ▸ h3)
        exact ⟨by omega, by omega, h3, fun j h5 h6 => h4 j (by omega) h6⟩

/-- The search finds nothing if and only if no index of the range satisfies the predicate. -/
theorem firstIn_eq_none_iff {p : Nat → Bool} {start n : Nat} :
    firstIn p start n = none ↔ ∀ i, start ≤ i → i < start + n → p i = false := by
  induction n generalizing start with
  | zero => simp [firstIn]; omega
  | succ n ih =>
    rw [firstIn]
    split
    · next h => simp only [reduceCtorEq, false_iff]; intro all; simp [all start] at h
    · next h =>
      rw [ih]
      constructor
      · intro all i h1 h2
        by_cases e : i = start
        · simpa [e] using h
        · exact all i (by omega) (by omega)
      · exact fun all i h1 h2 => all i (by omega) (by omega)

theorem sumOver_append {α : Type} (f : α → Nat) (l l' : List α) :
    sumOver f (l ++ l') = sumOver f l + sumOver f l' := by
  induction l with
  | nil => simp [sumOver]
  | cons a l ih => simp [sumOver, ih, Nat.add_assoc]

end LogSync
