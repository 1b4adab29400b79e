import Mathlib.Data.List.Basic
import Mathlib.Data.Set.Card

/-!
# Lists that repeat their entries by weight

Each entry of a list stands in its expansion as often as its weight says. A position of the
expansion lies in the interval that the weights before the entry and its own weight span, so
an element stands at as many positions as the weights of its entries add up to.
-/

namespace Weighted

universe u

variable {α : Type u}

def expand (entries : List (α × Nat)) : List α :=
  entries.flatMap fun entry => List.replicate entry.2 entry.1

def total (entries : List (α × Nat)) : Nat := (entries.map Prod.snd).sum

@[simp]
theorem expand_nil : expand ([] : List (α × Nat)) = [] := rfl

@[simp]
theorem expand_cons (entry : α × Nat) (entries : List (α × Nat)) :
    expand (entry :: entries) = List.replicate entry.2 entry.1 ++ expand entries := rfl

@[simp]
theorem total_nil : total ([] : List (α × Nat)) = 0 := rfl

@[simp]
theorem total_cons (entry : α × Nat) (entries : List (α × Nat)) :
    total (entry :: entries) = entry.2 + total entries := rfl

theorem length_expand (entries : List (α × Nat)) : (expand entries).length = total entries := by
  induction entries with
  | nil => rfl
  | cons entry entries ih =>
    rw [expand_cons, List.length_append, List.length_replicate, ih, total_cons]

/-- The position belongs to an entry of the element. -/
def Covers (entries : List (α × Nat)) (n : Nat) (a : α) : Prop :=
  ∃ i weight, entries[i]? = some (a, weight) ∧
    total (entries.take i) ≤ n ∧ n < total (entries.take i) + weight

theorem covers_cons_iff {entry : α × Nat} {entries : List (α × Nat)} {n : Nat} {a : α} :
    Covers (entry :: entries) n a ↔
      (n < entry.2 ∧ entry.1 = a) ∨ (entry.2 ≤ n ∧ Covers entries (n - entry.2) a) := by
  constructor
  · rintro ⟨i, weight, hi, lower, upper⟩
    cases i with
    | zero =>
      cases Option.some.inj hi
      rw [List.take_zero, total_nil, Nat.zero_add] at upper
      exact .inl ⟨upper, rfl⟩
    | succ i =>
      rw [List.take_succ_cons, total_cons] at lower upper
      refine .inr ⟨by omega, i, weight, hi, ?_, ?_⟩
      · omega
      · omega
  · rintro (⟨inside, rfl⟩ | ⟨beyond, i, weight, hi, lower, upper⟩)
    · refine ⟨0, entry.2, rfl, ?_, ?_⟩
      · exact Nat.zero_le n
      · rw [List.take_zero, total_nil, Nat.zero_add]
        exact inside
    · refine ⟨i + 1, weight, hi, ?_, ?_⟩
      · rw [List.take_succ_cons, total_cons]
        omega
      · rw [List.take_succ_cons, total_cons]
        omega

theorem getElem?_expand_iff {entries : List (α × Nat)} {n : Nat} {a : α} :
    (expand entries)[n]? = some a ↔ Covers entries n a := by
  induction entries generalizing n with
  | nil =>
    constructor
    · intro h
      cases h
    · rintro ⟨i, weight, hi, -⟩
      cases hi
  | cons entry entries ih =>
    rw [expand_cons, covers_cons_iff]
    by_cases inside : n < entry.2
    · have here : n < (List.replicate entry.2 entry.1).length := by
        rw [List.length_replicate]
        exact inside
      rw [List.getElem?_append_left here, List.getElem?_replicate_of_lt inside, Option.some_inj]
      constructor
      · exact fun h => .inl ⟨inside, h⟩
      · rintro (⟨-, h⟩ | ⟨beyond, -⟩)
        · exact h
        · omega
    · have later : (List.replicate entry.2 entry.1).length ≤ n := by
        rw [List.length_replicate]
        omega
      rw [List.getElem?_append_right later, List.length_replicate, ih]
      constructor
      · exact fun h => .inr ⟨by omega, h⟩
      · rintro (⟨within, -⟩ | ⟨-, h⟩)
        · omega
        · exact h

variable [DecidableEq α]

theorem count_expand (entries : List (α × Nat)) (a : α) :
    (expand entries).count a = total (entries.filter fun entry => entry.1 = a) := by
  induction entries with
  | nil => rfl
  | cons entry entries ih =>
    rw [expand_cons, List.count_append, List.count_replicate, ih]
    by_cases own : entry.1 = a
    · rw [List.filter_cons_of_pos (by simpa using own), total_cons, if_pos (by simpa using own)]
    · rw [List.filter_cons_of_neg (by simpa using own), if_neg (by simpa using own), Nat.zero_add]

/-- An element is counted by the positions where it stands. -/
theorem ncard_positions (xs : List α) (a : α) :
    {n : Nat | xs[n]? = some a}.ncard = xs.count a := by
  induction xs with
  | nil =>
    have empty : {n : Nat | ([] : List α)[n]? = some a} = ∅ := by
      ext n
      simp
    rw [empty, Set.ncard_empty, List.count_nil]
  | cons x xs ih =>
    have finite : {n : Nat | xs[n]? = some a}.Finite := by
      apply (Set.finite_lt_nat xs.length).subset
      intro n hn
      exact (List.getElem?_eq_some_iff.mp hn).1
    have shifted : (Nat.succ '' {n : Nat | xs[n]? = some a}).ncard = xs.count a := by
      rw [Set.ncard_image_of_injective _ Nat.succ_injective, ih]
    by_cases own : x = a
    · have positions : {n : Nat | (x :: xs)[n]? = some a} =
          insert 0 (Nat.succ '' {n : Nat | xs[n]? = some a}) := by
        ext n
        cases n with
        | zero => simp [own]
        | succ n => simp
      have fresh : 0 ∉ Nat.succ '' {n : Nat | xs[n]? = some a} := by
        rintro ⟨n, -, hn⟩
        exact Nat.succ_ne_zero n hn
      rw [positions, Set.ncard_insert_of_notMem fresh (finite.image Nat.succ), shifted, own,
        List.count_cons_self]
    · have positions : {n : Nat | (x :: xs)[n]? = some a} =
          Nat.succ '' {n : Nat | xs[n]? = some a} := by
        ext n
        cases n with
        | zero => simp [own]
        | succ n => simp
      rw [positions, shifted, List.count_cons_of_ne own]

end Weighted
