import LogSync.Text.Hex
import Mathlib.Data.List.Induction

/-!
# Numbers in places

A number is written in a base with a fixed count of places, the highest first. Here is what such
writing keeps, whatever stands in the places: the order of numbers is the lexicographic order of
what is written (`spelled_lt_iff`). For hexadecimal digits it is also shown which texts are read,
and that reading and writing are inverse to each other but for the case of letters.
-/

namespace LogSync

/-! ## Places -/

section
variable {α : Type}

/-- The lowest `count` places of a number in a base, the highest first, each written by a rule. -/
def spelled (base : Nat) (rule : Nat → α) : (count : Nat) → Nat → List α
  | 0, _ => []
  | count + 1, n => spelled base rule count (n / base) ++ [rule (n % base)]

theorem length_spelled (base : Nat) (rule : Nat → α) (count n : Nat) :
    (spelled base rule count n).length = count := by
  induction count generalizing n with
  | zero => rfl
  | succ count ih => rw [spelled, List.length_append, ih, List.length_singleton]

/-- Each place of its own. -/
theorem spelled_eq_map (base : Nat) (rule : Nat → α) (count n : Nat) :
    spelled base rule count n
      = (List.range count).map fun k => rule (n / Nat.pow base (count - 1 - k) % base) := by
  induction count generalizing n with
  | zero => rfl
  | succ count ih =>
    rw [spelled, ih, List.range_succ, List.map_append, List.map_singleton]
    congr 1
    · refine List.map_congr_left fun k hk => ?_
      have hlt : k < count := List.mem_range.1 hk
      have hplace : count + 1 - 1 - k = (count - 1 - k) + 1 := by omega
      have hpow : Nat.pow base (count - 1 - k + 1) = base * Nat.pow base (count - 1 - k) :=
        Nat.pow_succ'
      rw [hplace, hpow, Nat.div_div_eq_div_mul]
    · have hplace : count + 1 - 1 - count = 0 := by omega
      have hpow : Nat.pow base 0 = 1 := rfl
      rw [hplace, hpow, Nat.div_one]

/-- Each place of a squared base stands for two places of the base. -/
theorem flatMap_spelled {β : Type} {base : Nat} (hbase : 0 < base) {rule : Nat → α}
    {square : Nat → β} {pair : β → List α}
    (hpair : ∀ b < base * base, pair (square b) = [rule (b / base), rule (b % base)])
    (count n : Nat) :
    (spelled (base * base) square count n).flatMap pair = spelled base rule (2 * count) n := by
  induction count generalizing n with
  | zero => rfl
  | succ count ih =>
    have hlast := hpair (n % (base * base)) (Nat.mod_lt n (Nat.mul_pos hbase hbase))
    rw [Nat.mod_mul_right_div_self, Nat.mod_mul_right_mod] at hlast
    have hcount : 2 * (count + 1) = 2 * count + 1 + 1 := rfl
    rw [hcount, spelled, spelled, spelled, List.flatMap_append, ih, List.flatMap_singleton, hlast,
      Nat.div_div_eq_div_mul, List.append_assoc, List.singleton_append]

/-- A number of so many places can be told from what is written. -/
theorem spelled_inj {base : Nat} {rule : Nat → α}
    (hrule : ∀ a < base, ∀ b < base, rule a = rule b → a = b) {count m n : Nat}
    (hm : m < Nat.pow base count) (hn : n < Nat.pow base count) :
    spelled base rule count m = spelled base rule count n ↔ m = n := by
  refine ⟨fun h => ?_, congrArg _⟩
  induction count generalizing m n with
  | zero => exact (Nat.lt_one_iff.1 hm).trans (Nat.lt_one_iff.1 hn).symm
  | succ count ih =>
    have hpow : Nat.pow base (count + 1) = base * Nat.pow base count := Nat.pow_succ'
    rw [hpow] at hm hn
    have hbase : 0 < base := Nat.pos_of_lt_mul_right hm
    rw [spelled, spelled, List.append_singleton_inj] at h
    have hhigh : m / base = n / base :=
      ih (Nat.div_lt_of_lt_mul hm) (Nat.div_lt_of_lt_mul hn) h.1
    have hlow : m % base = n % base :=
      hrule _ (Nat.mod_lt m hbase) _ (Nat.mod_lt n hbase) h.2
    rw [← Nat.div_add_mod m base, hhigh, hlow, Nat.div_add_mod]

/-- Of two numbers, the one that is less in its high places is less; if these agree, the lowest
place decides. -/
theorem lt_iff_places (base m n : Nat) :
    m < n ↔ m / base < n / base ∨ m / base = n / base ∧ m % base < n % base := by
  have hm := Nat.div_add_mod m base
  have hn := Nat.div_add_mod n base
  constructor
  · intro hlt
    have hle : m / base ≤ n / base := Nat.div_le_div_right (Nat.le_of_lt hlt)
    by_cases hhigh : m / base = n / base
    · rw [hhigh] at hm
      exact Or.inr ⟨hhigh, by omega⟩
    · exact Or.inl (Nat.lt_of_le_of_ne hle hhigh)
  · intro h
    rcases h with hhigh | ⟨hhigh, hlow⟩
    · exact Nat.lt_of_div_lt_div hhigh
    · rw [hhigh] at hm
      omega

variable [LT α]

/-- Lists of one length are compared before their last members are. -/
theorem append_singleton_lt_iff {l r : List α} (h : l.length = r.length) (a b : α) :
    l ++ [a] < r ++ [b] ↔ l < r ∨ l = r ∧ a < b := by
  induction l generalizing r with
  | nil =>
    have hr : r = [] := List.length_eq_zero_iff.1 h.symm
    rw [hr, List.nil_append, List.nil_append, List.cons_lt_cons_iff]
    simp
  | cons x l ih =>
    cases r with
    | nil => contradiction
    | cons y r =>
      have hlength : l.length = r.length := Nat.succ.inj h
      rw [List.cons_append, List.cons_append, List.cons_lt_cons_iff, List.cons_lt_cons_iff,
        ih hlength, List.cons.injEq]
      tauto

/-- Numbers of so many places are ordered as they are written. -/
theorem spelled_lt_iff {base : Nat} {rule : Nat → α}
    (hrule : ∀ a < base, ∀ b < base, (rule a < rule b ↔ a < b)) {count m n : Nat}
    (hm : m < Nat.pow base count) (hn : n < Nat.pow base count) :
    spelled base rule count m < spelled base rule count n ↔ m < n := by
  have hinj (a : Nat) (ha : a < base) (b : Nat) (hb : b < base) (heq : rule a = rule b) :
      a = b := by
    have hlt := hrule a ha b hb
    have hgt := hrule b hb a ha
    rw [heq, hrule b hb b hb] at hlt hgt
    omega
  induction count generalizing m n with
  | zero =>
    have hn0 : n = 0 := Nat.lt_one_iff.1 hn
    exact iff_of_false (List.not_lt_nil _) (hn0 ▸ Nat.not_lt_zero m)
  | succ count ih =>
    have hpow : Nat.pow base (count + 1) = base * Nat.pow base count := Nat.pow_succ'
    rw [hpow] at hm hn
    have hbase : 0 < base := Nat.pos_of_lt_mul_right hm
    have hlength : (spelled base rule count (m / base)).length
        = (spelled base rule count (n / base)).length := by
      rw [length_spelled, length_spelled]
    have hm' : m / base < Nat.pow base count := Nat.div_lt_of_lt_mul hm
    have hn' : n / base < Nat.pow base count := Nat.div_lt_of_lt_mul hn
    have hhigh : spelled base rule count (m / base) < spelled base rule count (n / base) ↔
        m / base < n / base := ih hm' hn'
    have hlow : rule (m % base) < rule (n % base) ↔ m % base < n % base :=
      hrule _ (Nat.mod_lt m hbase) _ (Nat.mod_lt n hbase)
    rw [spelled, spelled, append_singleton_lt_iff hlength, hhigh, hlow, spelled_inj hinj hm' hn',
      ← lt_iff_places]

end

/-! ## Hexadecimal digits -/

namespace Hex

/-- A hexadecimal digit, its letter in either case. -/
def IsDigit (c : Char) : Prop :=
  '0' ≤ c ∧ c ≤ '9' ∨ 'a' ≤ c ∧ c ≤ 'f' ∨ 'A' ≤ c ∧ c ≤ 'F'

theorem write_eq_spelled (count n : Nat) : write count n = spelled 16 digit count n := by
  induction count generalizing n with
  | zero => rfl
  | succ count ih => rw [write, ih, spelled]

theorem digit_lt_digit_iff : ∀ a < 16, ∀ b < 16, (digit a < digit b ↔ a < b) := by decide

/-- Digits are ordered as the numbers that they are written for. -/
theorem write_lt_write_iff {count m n : Nat} (hm : m < Nat.pow 16 count)
    (hn : n < Nat.pow 16 count) : write count m < write count n ↔ m < n := by
  rw [write_eq_spelled, write_eq_spelled]
  exact spelled_lt_iff digit_lt_digit_iff hm hn

/-! ### Written digits are read -/

theorem value_digit {n : Nat} (h : n < 16) : value? (digit n) = some n := by
  have hall : ∀ n < 16, value? (digit n) = some n := by decide
  exact hall n h

theorem length_write (count n : Nat) : (write count n).length = count := by
  induction count generalizing n with
  | zero => rfl
  | succ count ih => rw [write, List.length_append, ih, List.length_singleton]

/-- Written digits continue a number by as many places. -/
theorem readFrom_write {count n : Nat} (h : n < Nat.pow 16 count) (m : Nat) (rest : List Char) :
    readFrom m (write count n ++ rest) = readFrom (m * Nat.pow 16 count + n) rest := by
  induction count generalizing n rest with
  | zero =>
    obtain rfl : n = 0 := Nat.lt_one_iff.1 h
    rw [write, List.nil_append]
    exact congrArg (readFrom · rest) (Nat.mul_one m).symm
  | succ count ih =>
    have hpow : Nat.pow 16 (count + 1) = Nat.pow 16 count * 16 := rfl
    have hdigit : n % 16 < 16 := Nat.mod_lt _ (by decide)
    have hlead : n / 16 < Nat.pow 16 count := Nat.div_lt_of_lt_mul (by omega)
    rw [write, List.append_assoc, ih hlead, List.singleton_append, readFrom, value_digit hdigit,
      Option.bind_some]
    congr 1
    rw [hpow, ← Nat.mul_assoc]
    omega

/-- Written digits are read as the number that they were written for. -/
theorem read_write {count n : Nat} (h : n < Nat.pow 16 count) :
    read? (write count n) = some n := by
  have hread := readFrom_write h 0 []
  rw [List.append_nil, Nat.zero_mul, Nat.zero_add] at hread
  exact hread

/-! ### Digits that are read -/

/-- The characters that have a value are the hexadecimal digits, in either case. -/
theorem isSome_value_iff (c : Char) : (value? c).isSome = true ↔ IsDigit c := by
  unfold value? IsDigit
  split
  · next h => simp [h]
  · next h0 =>
    split
    · next h => simp [h]
    · next h1 =>
      split
      · next h => simp [h]
      · next h2 => simp [h0, h1, h2]

/-- A digit is written as it was read, with a small letter. -/
theorem digit_of_value {c : Char} {d : Nat} (h : value? c = some d) :
    d < 16 ∧ digit d = c.toLower := by
  have hall : ∀ n < 128, ∀ d ∈ value? (Char.ofNat n),
      d < 16 ∧ digit d = (Char.ofNat n).toLower := by decide
  have hdigit : IsDigit c := (isSome_value_iff c).1 (by rw [h]; rfl)
  have hle {c' : Char} (hc' : c ≤ c') : c.toNat ≤ c'.toNat := UInt32.le_iff_toNat_le.1 hc'
  have hsmall : c.toNat < 128 := by
    rcases hdigit with ⟨-, hlast⟩ | ⟨-, hlast⟩ | ⟨-, hlast⟩
    · exact Nat.lt_of_le_of_lt (hle hlast) (by decide)
    · exact Nat.lt_of_le_of_lt (hle hlast) (by decide)
    · exact Nat.lt_of_le_of_lt (hle hlast) (by decide)
  have hc := hall c.toNat hsmall d
  rw [Char.ofNat_toNat] at hc
  exact hc h

theorem readFrom_append_singleton (n : Nat) (cs : List Char) (c : Char) :
    readFrom n (cs ++ [c]) = (readFrom n cs).bind fun m => (value? c).map (16 * m + ·) := by
  induction cs generalizing n with
  | nil =>
    show (value? c).bind (fun d => some (16 * n + d)) = (value? c).map (16 * n + ·)
    exact Option.map_eq_bind.symm
  | cons x cs ih =>
    rw [List.cons_append, readFrom, readFrom, Option.bind_assoc]
    exact congrArg _ (funext fun d => ih (16 * n + d))

/-- A text is read exactly if it holds digits only. -/
theorem isSome_read_iff (cs : List Char) :
    (read? cs).isSome = true ↔ ∀ c ∈ cs, IsDigit c := by
  unfold read?
  induction cs using List.reverseRecOn with
  | nil => simp [readFrom]
  | append_singleton cs c ih =>
    rw [readFrom_append_singleton, List.forall_mem_append, ← ih, List.forall_mem_singleton,
      ← isSome_value_iff]
    cases readFrom 0 cs with
    | none => simp
    | some m => simp

/-- What was read is written with as many digits, with small letters. -/
theorem write_of_read {cs : List Char} {n : Nat} (h : read? cs = some n) :
    n < Nat.pow 16 cs.length ∧ write cs.length n = cs.map Char.toLower := by
  unfold read? at h
  induction cs using List.reverseRecOn generalizing n with
  | nil =>
    obtain rfl : 0 = n := Option.some.inj h
    exact ⟨Nat.one_pos, rfl⟩
  | append_singleton cs c ih =>
    rw [readFrom_append_singleton] at h
    obtain ⟨m, hm, hc⟩ := Option.bind_eq_some_iff.1 h
    obtain ⟨d, hd, rfl⟩ := Option.map_eq_some_iff.1 hc
    obtain ⟨hlt, hwrite⟩ := ih hm
    obtain ⟨hd16, hdigit⟩ := digit_of_value hd
    have hpow : Nat.pow 16 (cs.length + 1) = Nat.pow 16 cs.length * 16 := rfl
    have hhigh : (16 * m + d) / 16 = m := by omega
    have hlow : (16 * m + d) % 16 = d := by omega
    rw [List.length_append, List.length_singleton, hpow, write, hhigh, hlow, hwrite, hdigit,
      List.map_append, List.map_singleton]
    exact ⟨by omega, rfl⟩

end Hex

end LogSync
