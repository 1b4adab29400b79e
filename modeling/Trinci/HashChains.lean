import Mathlib.Data.List.Chain
import Mathlib.Data.List.Induction

/-!
# Chains of hashes

Each record of a chain names the hash of the one before it. Where no two records of two
chains have one hash and different contents, the hash of a last record determines the
contents of all the others.
-/

namespace HashChains

universe u v

variable {α : Type u} {C H : Type v}

/-- Each record names the hash of the one before it, in its contents. -/
def Linked (hash : α → H) (contents : α → C) (previous : C → H) (records : List α) : Prop :=
  records.IsChain fun a b => previous (contents b) = hash a

/-- The hashes of these records tell their contents apart. -/
def ToldApart (hash : α → H) (contents : α → C) (xs ys : List α) : Prop :=
  ∀ x ∈ xs, ∀ y ∈ ys, hash x = hash y → contents x = contents y

variable {hash : α → H} {contents : α → C} {previous : C → H}

/-- What a record names is the hash of the last one before it. -/
theorem Linked.previous_eq {records : List α} {a : α}
    (h : Linked hash contents previous (records ++ [a])) {b : α}
    (last : records.getLast? = some b) : previous (contents a) = hash b := by
  obtain ⟨-, -, link⟩ := List.isChain_append.mp h
  exact link b last a rfl

theorem Linked.init {records : List α} {a : α}
    (h : Linked hash contents previous (records ++ [a])) : Linked hash contents previous records :=
  (List.isChain_append.mp h).1

/-- Chains of one length with one last hash have the same contents. -/
theorem contents_eq_of_last {xs ys : List α} (hx : Linked hash contents previous xs)
    (hy : Linked hash contents previous ys) (apart : ToldApart hash contents xs ys)
    (length : xs.length = ys.length)
    (last : xs.getLast?.map hash = ys.getLast?.map hash) : xs.map contents = ys.map contents := by
  induction xs using List.reverseRecOn generalizing ys with
  | nil =>
    obtain rfl := List.eq_nil_of_length_eq_zero length.symm
    rfl
  | append_singleton xs x ih =>
    obtain rfl | ⟨ys, y, rfl⟩ := List.eq_nil_or_concat' ys
    · rw [List.length_append] at length
      cases length
    · rw [List.getLast?_concat, List.getLast?_concat, Option.map_some, Option.map_some,
        Option.some.injEq] at last
      have same : contents x = contents y := apart x (by simp) y (by simp) last
      have shorter : xs.length = ys.length := by
        rw [List.length_append, List.length_append] at length
        exact Nat.add_right_cancel length
      have before : xs.getLast?.map hash = ys.getLast?.map hash := by
        cases hxs : xs.getLast? with
        | none =>
          obtain rfl := List.getLast?_eq_none_iff.mp hxs
          obtain rfl := List.eq_nil_of_length_eq_zero shorter.symm
          rfl
        | some a =>
          cases hys : ys.getLast? with
          | none =>
            obtain rfl := List.getLast?_eq_none_iff.mp hys
            obtain rfl := List.eq_nil_of_length_eq_zero shorter
            cases hxs
          | some b =>
            -- both name the hash of the record before
            rw [Option.map_some, Option.map_some, ← hx.previous_eq hxs, same, hy.previous_eq hys]
      have earlier := ih hx.init hy.init
        (fun a ha b hb => apart a (List.mem_append_left _ ha) b (List.mem_append_left _ hb))
        shorter before
      rw [List.map_append, List.map_append, earlier, List.map_singleton, List.map_singleton, same]

end HashChains
