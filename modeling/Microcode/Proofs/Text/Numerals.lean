import Microcode.Text.Digits
import Mathlib.Tactic

/-!
# What numerals stand for

A numeral is read by the weights of its digits: the last digit counts once, and each
digit before it counts the base times as much as the one behind it.  Zeros in front
add nothing, so a numeral that is filled up to a width stands for the number that it
was written for.

**Results.**
* `value_append`: digits in front are moved by the number of digits behind them.
* `value_numeral`: a numeral in a base of at most sixteen stands for its number, so
  `numeral_injective`: two numbers do not share a numeral.
* `exists_of_mem_numeral`: the digits of a numeral are those of its base.
* `length_toDigits_le`: a smaller number has no more digits.
-/

namespace Microcode
namespace Text

/-- The number of a digit; the letters from `a` on stand for ten and more. -/
def digitValue (c : Char) : Nat :=
  if c.isDigit then c.toNat - '0'.toNat else c.toNat - 'a'.toNat + 10

/-- The number that some digits spell, the first one with the greatest weight. -/
def value (base : Nat) : List Char → Nat
  | [] => 0
  | c :: cs => digitValue c * base ^ cs.length + value base cs

theorem digitValue_digitChar
    {d : Nat}
    (h : d < 16) :
    digitValue d.digitChar = d := by
  interval_cases d <;> decide

@[simp] theorem value_nil
    (base : Nat) :
    value base [] = 0 := by
  rfl

@[simp] theorem value_cons
    (base : Nat)
    (c : Char)
    (cs : List Char) :
    value base (c :: cs) = digitValue c * base ^ cs.length + value base cs := by
  rfl

/-- Digits in front are moved by the number of digits behind them. -/
theorem value_append
    (base : Nat)
    (cs ds : List Char) :
    value base (cs ++ ds) = value base cs * base ^ ds.length + value base ds := by
  induction cs with
  | nil =>
      simp
  | cons c cs ih =>
      simp only [List.cons_append, value_cons, List.length_append, ih, pow_add]
      ring

theorem value_replicate_zero
    (base n : Nat) :
    value base (List.replicate n '0') = 0 := by
  have hzero : digitValue '0' = 0 := by decide
  induction n with
  | zero =>
      rfl
  | succ n ih =>
      rw [List.replicate_succ, value_cons, hzero, Nat.zero_mul, ih]

section Bases

variable {base : Nat}

/-- The digits of a number stand for that number. -/
theorem value_toDigits
    (hlow : 1 < base)
    (hhigh : base ≤ 16)
    (n : Nat) :
    value base (Nat.toDigits base n) = n := by
  induction n using Nat.strong_induction_on with
  | _ n ih =>
      by_cases hn : n < base
      · have hdigit := digitValue_digitChar (Nat.lt_of_lt_of_le hn hhigh)
        rw [Nat.toDigits_of_lt_base hn, value_cons, hdigit]
        simp
      · have hle : base ≤ n := Nat.le_of_not_lt hn
        have hlast : n % base < base := Nat.mod_lt n (by omega)
        have hdigit := digitValue_digitChar (Nat.lt_of_lt_of_le hlast hhigh)
        have hfront := ih (n / base) (Nat.div_lt_self (by omega) hlow)
        rw [Nat.toDigits_of_base_le hlow hle, value_append, hfront, value_cons, hdigit]
        simpa using Nat.div_add_mod' n base

/-- A numeral stands for the number that it was written for. -/
theorem value_numeral
    (hlow : 1 < base)
    (hhigh : base ≤ 16)
    (width n : Nat) :
    value base (numeral base width n) = n := by
  rw [numeral, List.leftpad, value_append, value_replicate_zero, Nat.zero_mul, Nat.zero_add,
    value_toDigits hlow hhigh]

/-- Two numbers do not share a numeral. -/
theorem numeral_injective
    (hlow : 1 < base)
    (hhigh : base ≤ 16)
    (width : Nat) :
    Function.Injective (numeral base width) := by
  intro m n h
  have hvalue := congrArg (value base) h
  rwa [value_numeral hlow hhigh, value_numeral hlow hhigh] at hvalue

theorem exists_of_mem_toDigits
    (hlow : 1 < base)
    {n : Nat}
    {c : Char}
    (hc : c ∈ Nat.toDigits base n) :
    ∃ d < base, c = d.digitChar := by
  induction n using Nat.strong_induction_on with
  | _ n ih =>
      by_cases hn : n < base
      · rw [Nat.toDigits_of_lt_base hn] at hc
        exact ⟨n, hn, List.mem_singleton.1 hc⟩
      · rw [Nat.toDigits_of_base_le hlow (Nat.le_of_not_lt hn)] at hc
        rcases List.mem_append.1 hc with hc | hc
        · exact ih (n / base) (Nat.div_lt_self (by omega) hlow) hc
        · exact ⟨n % base, Nat.mod_lt n (by omega), List.mem_singleton.1 hc⟩

/-- The digits of a numeral are digits of its base. -/
theorem exists_of_mem_numeral
    (hlow : 1 < base)
    {width n : Nat}
    {c : Char}
    (hc : c ∈ numeral base width n) :
    ∃ d < base, c = d.digitChar := by
  rw [numeral, List.leftpad] at hc
  rcases List.mem_append.1 hc with hc | hc
  · exact ⟨0, by omega, List.eq_of_mem_replicate hc⟩
  · exact exists_of_mem_toDigits hlow hc

/-- A number of few digits has a numeral of exactly the least width. -/
theorem length_numeral_of_lt
    (hlow : 1 < base)
    {width n : Nat}
    (hwidth : 0 < width)
    (hn : n < base ^ width) :
    (numeral base width n).length = width := by
  have hle := (Nat.length_toDigits_le_iff hlow hwidth).2 hn
  rw [length_numeral]
  exact Nat.max_eq_left hle

end Bases

/-- A smaller number has no more digits. -/
theorem length_toDigits_le
    {m n : Nat}
    (h : m ≤ n) :
    (Nat.toDigits 10 m).length ≤ (Nat.toDigits 10 n).length := by
  have hlt : n < 10 ^ (Nat.toDigits 10 n).length :=
    (Nat.length_toDigits_le_iff (by decide) Nat.length_toDigits_pos).1 (le_refl _)
  exact (Nat.length_toDigits_le_iff (by decide) Nat.length_toDigits_pos).2 (lt_of_le_of_lt h hlt)

theorem length_repr
    (n : Nat) :
    n.repr.length = (Nat.toDigits 10 n).length := by
  rw [← String.length_toList, Nat.toList_repr]

@[simp] theorem toList_run
    (n : Nat)
    (c : Char) :
    (run n c).toList = List.replicate n c :=
  String.toList_ofList

@[simp] theorem length_run
    (n : Nat)
    (c : Char) :
    (run n c).length = n := by
  rw [← String.length_toList, toList_run, List.length_replicate]

end Text
end Microcode
