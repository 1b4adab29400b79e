import Mathlib.Data.List.TakeWhile
import Mathlib.Data.Nat.Digits.Lemmas

/-!
# Changing the base of a digit string

A string of digits, the greatest first, is written in another base. Leading zeros say
nothing about the number, so they are copied. With them a string can be read back: no two
strings are written alike.
-/

namespace Radix

/-- The number that the digits write in base `b`. -/
def value (b : Nat) (digits : List Nat) : Nat := Nat.ofDigits b digits.reverse

def zeros (digits : List Nat) : List Nat := digits.takeWhile (· == 0)

def recode (b c : Nat) (digits : List Nat) : List Nat :=
  zeros digits ++ (c.digits (value b digits)).reverse

/-! ## Leading zeros -/

theorem zeros_eq_replicate (digits : List Nat) :
    zeros digits = List.replicate (zeros digits).length 0 := by
  apply List.eq_replicate_of_mem
  intro d hd
  simpa using List.mem_takeWhile_imp hd

theorem value_zeros_append (b : Nat) (digits later : List Nat) :
    value b (zeros digits ++ later) = value b later := by
  rw [value, value, zeros_eq_replicate, List.reverse_append, List.reverse_replicate,
    Nat.ofDigits_append_replicate_zero]

/-- The digits are none, or the first of them is not zero. -/
def Proper (digits : List Nat) : Prop := ∀ d ∈ digits.head?, d ≠ 0

theorem proper_dropWhile (digits : List Nat) : Proper (digits.dropWhile (· == 0)) := by
  intro d hd
  have stopped := List.head?_dropWhile_not (fun d : Nat => d == 0) digits
  rw [Option.mem_def.mp hd] at stopped
  simpa using stopped

theorem zeros_of_proper {digits : List Nat} (proper : Proper digits) : zeros digits = [] := by
  cases digits with
  | nil => rfl
  | cons d digits =>
    have first : d ≠ 0 := proper d rfl
    exact List.takeWhile_cons_of_neg (by simpa using first)

theorem zeros_append {digits later : List Nat} (proper : Proper later) :
    zeros (zeros digits ++ later) = zeros digits := by
  have all : ∀ d ∈ zeros digits, (d == 0) = true := by
    intro d hd
    exact List.mem_takeWhile_imp (p := fun d => d == 0) hd
  change List.takeWhile _ (zeros digits ++ later) = _
  rw [List.takeWhile_append_of_pos all]
  change zeros digits ++ zeros later = _
  rw [zeros_of_proper proper, List.append_nil]

theorem proper_digits (c n : Nat) : Proper (c.digits n).reverse := by
  intro d hd
  rw [List.head?_reverse] at hd
  have written : c.digits n ≠ [] := by
    intro empty
    rw [empty] at hd
    cases hd
  have positive : n ≠ 0 := Nat.digits_ne_nil_iff_ne_zero.mp written
  rw [List.getLast?_eq_some_getLast written] at hd
  rw [← Option.mem_some.mp hd]
  exact Nat.getLast_digit_ne_zero c positive

/-! ## Reading back -/

variable {b c : Nat}

theorem value_recode (digits : List Nat) : value c (recode b c digits) = value b digits := by
  rw [recode, value_zeros_append, value, List.reverse_reverse, Nat.ofDigits_digits]

theorem zeros_recode (digits : List Nat) : zeros (recode b c digits) = zeros digits :=
  zeros_append (proper_digits c (value b digits))

/-- The digits of a number, the greatest first, without leading zeros. -/
theorem digits_value {digits : List Nat} (base : 1 < b) (valid : ∀ d ∈ digits, d < b)
    (proper : Proper digits) : (b.digits (value b digits)).reverse = digits := by
  have written : b.digits (value b digits) = digits.reverse := by
    apply Nat.digits_ofDigits b base
    · intro d hd
      exact valid d (List.mem_reverse.mp hd)
    · intro nonempty
      rw [List.getLast_reverse]
      exact proper _ (List.head?_eq_some_head _)
  rw [written, List.reverse_reverse]

theorem recode_recode {digits : List Nat} (base : 1 < b) (valid : ∀ d ∈ digits, d < b) :
    recode c b (recode b c digits) = digits := by
  have split : zeros digits ++ digits.dropWhile (· == 0) = digits := List.takeWhile_append_dropWhile
  have rest : value b digits = value b (digits.dropWhile (· == 0)) := by
    conv_lhs => rw [← split]
    exact value_zeros_append b digits _
  have restValid : ∀ d ∈ digits.dropWhile (· == 0), d < b := by
    intro d hd
    exact valid d ((List.dropWhile_sublist _).mem hd)
  rw [recode, zeros_recode, value_recode, rest,
    digits_value base restValid (proper_dropWhile digits), split]

theorem recode_lt (base : 1 < c) {digits : List Nat} : ∀ d ∈ recode b c digits, d < c := by
  intro d hd
  rcases List.mem_append.mp hd with hd | hd
  · rw [zeros_eq_replicate] at hd
    rw [List.eq_of_mem_replicate hd]
    omega
  · exact Nat.digits_lt_base base (List.mem_reverse.mp hd)

end Radix
