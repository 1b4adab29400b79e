import Mathlib.Data.List.Forall2

/-!
# Updating the first match of a list

A table kept as a list is searched with `find?` and changed at the first entry
that matches. The lemmas say what a later search sees and where the entries of
the changed table come from.
-/

namespace FirstMatch

universe u v

variable {α : Type u}

/-- Applies `f` to the first entry that satisfies `p`. -/
def modifyFirst (p : α → Bool) (f : α → α) : List α → List α
  | [] => []
  | x :: xs => if p x then f x :: xs else x :: modifyFirst p f xs

/-- Changes the first match, or appends an entry when there is none. -/
def upsert (p : α → Bool) (f : α → α) (fresh : α) (xs : List α) : List α :=
  if xs.any p then modifyFirst p f xs else xs ++ [fresh]

theorem mem_modifyFirst {p : α → Bool} {f : α → α} {xs : List α} {y : α}
    (h : y ∈ modifyFirst p f xs) :
    y ∈ xs ∨ ∃ x, xs.find? p = some x ∧ y = f x := by
  induction xs with
  | nil => simp [modifyFirst] at h
  | cons x xs ih =>
    by_cases hp : p x
    · simp only [modifyFirst, hp, if_true, List.mem_cons] at h
      rcases h with rfl | h
      · exact Or.inr ⟨x, by simp [hp], rfl⟩
      · exact Or.inl (by simp [h])
    · simp only [modifyFirst, hp, Bool.false_eq_true, if_false, List.mem_cons] at h
      rcases h with rfl | h
      · exact Or.inl (by simp)
      · rcases ih h with hold | ⟨z, hz, rfl⟩
        · exact Or.inl (by simp [hold])
        · exact Or.inr ⟨z, by simp [hp, hz], rfl⟩

theorem mem_upsert {p : α → Bool} {f : α → α} {fresh : α} {xs : List α} {y : α}
    (h : y ∈ upsert p f fresh xs) :
    y ∈ xs ∨ (∃ x, xs.find? p = some x ∧ y = f x) ∨ (xs.find? p = none ∧ y = fresh) := by
  unfold upsert at h
  by_cases hany : xs.any p
  · rw [if_pos hany] at h
    rcases mem_modifyFirst h with hold | hnew
    · exact Or.inl hold
    · exact Or.inr (Or.inl hnew)
  · rw [if_neg hany] at h
    rcases List.mem_append.mp h with hold | hnew
    · exact Or.inl hold
    · refine Or.inr (Or.inr ⟨?_, by simpa using hnew⟩)
      simpa [List.find?_eq_none] using hany

theorem find?_modifyFirst {p : α → Bool} {f : α → α} (keeps : ∀ x, p x → p (f x))
    (xs : List α) : (modifyFirst p f xs).find? p = (xs.find? p).map f := by
  induction xs with
  | nil => rfl
  | cons x xs ih =>
    by_cases hp : p x
    · simp [modifyFirst, hp, keeps x hp]
    · simp [modifyFirst, hp, ih]

/-- After an update the first match is the changed entry, or the fresh one. -/
theorem find?_upsert {p : α → Bool} {f : α → α} {fresh : α}
    (keeps : ∀ x, p x → p (f x)) (hfresh : p fresh) (xs : List α) :
    (upsert p f fresh xs).find? p = some (match xs.find? p with
      | some x => f x
      | none => fresh) := by
  unfold upsert
  by_cases hany : xs.any p
  · rw [if_pos hany, find?_modifyFirst keeps]
    cases hf : xs.find? p with
    | none =>
      rw [List.find?_eq_none] at hf
      obtain ⟨x, hx, hpx⟩ := List.any_eq_true.mp hany
      exact absurd hpx (hf x hx)
    | some x => rfl
  · have hnone : xs.find? p = none := by simpa [List.find?_eq_none] using hany
    rw [if_neg hany, List.find?_append, hnone]
    simp [hfresh]

theorem find?_modifyFirst_some {p q : α → Bool} {f : α → α} (keeps : ∀ x, q (f x) = q x)
    {xs : List α} {x : α} (found : xs.find? q = some x) :
    (modifyFirst p f xs).find? q = some x ∨ (modifyFirst p f xs).find? q = some (f x) := by
  induction xs with
  | nil => simp at found
  | cons y ys ih =>
    by_cases hp : p y
    · simp only [modifyFirst, hp, if_true]
      by_cases hq : q y
      · obtain rfl : y = x := by simpa [hq] using found
        exact Or.inr (by simp [keeps, hq])
      · exact Or.inl (by simpa [keeps, hq] using found)
    · simp only [modifyFirst, hp, Bool.false_eq_true, if_false]
      by_cases hq : q y
      · exact Or.inl (by simpa [hq] using found)
      · simpa [hq] using ih (by simpa [hq] using found)

/-- A search by another key, followed by a search inside the entry it finds,
succeeds after the update if it did before. -/
theorem isSome_find?_upsert {β : Type v} {p q : α → Bool} {f : α → α} {fresh : α}
    {k : α → Option β} {xs : List α} (found : ((xs.find? q).bind k).isSome)
    (keeps : ∀ x, q (f x) = q x) (grows : ∀ x, (k x).isSome → (k (f x)).isSome) :
    (((upsert p f fresh xs).find? q).bind k).isSome := by
  cases hx : xs.find? q with
  | none => simp [hx] at found
  | some x =>
    rw [hx, Option.bind_some] at found
    unfold upsert
    by_cases hany : xs.any p
    · rw [if_pos hany]
      rcases find?_modifyFirst_some (p := p) keeps hx with h | h
      · rwa [h, Option.bind_some]
      · rw [h, Option.bind_some]
        exact grows x found
    · rw [if_neg hany, List.find?_append, hx]
      exact found

theorem isSome_find?_upsert_key {p q : α → Bool} {f : α → α} {fresh : α} {xs : List α}
    (found : (xs.find? q).isSome) (keeps : ∀ x, q (f x) = q x) :
    ((upsert p f fresh xs).find? q).isSome := by
  have h : (((upsert p f fresh xs).find? q).bind some).isSome :=
    isSome_find?_upsert (by simpa using found) keeps (by simp)
  simpa using h

/-- A change that keeps the keys keeps the list of keys. -/
theorem map_modifyFirst {κ : Type v} {p : α → Bool} {f : α → α} {key : α → κ}
    (keeps : ∀ x, key (f x) = key x) (xs : List α) :
    (modifyFirst p f xs).map key = xs.map key := by
  induction xs with
  | nil => rfl
  | cons x xs ih =>
    by_cases hp : p x
    · simp [modifyFirst, hp, keeps]
    · simp [modifyFirst, hp, ih]

/-- An entry is appended only under a key that no entry has. -/
theorem nodup_map_upsert {κ : Type v} {p : α → Bool} {f : α → α} {fresh : α} {key : α → κ}
    {xs : List α} (distinct : (xs.map key).Nodup) (keeps : ∀ x, key (f x) = key x)
    (matched : ∀ x, key x = key fresh → p x) : ((upsert p f fresh xs).map key).Nodup := by
  unfold upsert
  by_cases hany : xs.any p
  · rw [if_pos hany, map_modifyFirst keeps]
    exact distinct
  · rw [if_neg hany, List.map_append, List.nodup_append]
    refine ⟨distinct, by simp, ?_⟩
    intro k hk k' hk' heq
    obtain ⟨x, hx, rfl⟩ := List.mem_map.mp hk
    obtain rfl : k' = key fresh := by simpa using hk'
    exact hany (List.any_eq_true.mpr ⟨x, hx, matched x heq⟩)

theorem forall₂_modifyFirst {R : α → α → Prop} {p : α → Bool} {f : α → α} {xs : List α}
    (same : ∀ x, R x x) (changed : ∀ x, xs.find? p = some x → R x (f x)) :
    List.Forall₂ R xs (modifyFirst p f xs) := by
  induction xs with
  | nil => exact .nil
  | cons x xs ih =>
    by_cases hp : p x
    · simp only [modifyFirst, hp, if_true]
      refine .cons (changed x (by simp [hp])) ?_
      exact List.forall₂_same.mpr fun y _ => same y
    · simp only [modifyFirst, hp, Bool.false_eq_true, if_false]
      refine .cons (same x) (ih fun y hy => changed y ?_)
      simpa [hp] using hy

theorem modifyFirst_eq_self_iff {p : α → Bool} {f : α → α} {xs : List α} :
    modifyFirst p f xs = xs ↔ ∀ x, xs.find? p = some x → f x = x := by
  induction xs with
  | nil => simp [modifyFirst]
  | cons x xs ih =>
    by_cases hp : p x
    · simp [modifyFirst, hp]
    · simp [modifyFirst, hp, ih]

/-- An update changes nothing if there is a match that it leaves as it is. -/
theorem upsert_eq_self_iff {p : α → Bool} {f : α → α} {fresh : α} {xs : List α} :
    upsert p f fresh xs = xs ↔ ∃ x, xs.find? p = some x ∧ f x = x := by
  unfold upsert
  by_cases hany : xs.any p
  · rw [if_pos hany, modifyFirst_eq_self_iff]
    obtain ⟨x, hx⟩ : ∃ x, xs.find? p = some x := by
      rw [← Option.isSome_iff_exists, List.find?_isSome]
      exact List.any_eq_true.mp hany
    constructor
    · exact fun h => ⟨x, hx, h x hx⟩
    · rintro ⟨y, hy, hfy⟩ z hz
      rw [hy] at hz
      exact Option.some.inj hz ▸ hfy
  · rw [if_neg hany]
    refine iff_of_false ?_ ?_
    · intro same
      have length := congrArg List.length same
      rw [List.length_append, List.length_singleton] at length
      omega
    · rintro ⟨x, hx, -⟩
      exact hany (List.any_eq_true.mpr ⟨x, List.mem_of_find?_eq_some hx, List.find?_some hx⟩)

theorem exists_of_mem_right {R : α → α → Prop} {xs ys : List α}
    (related : List.Forall₂ R xs ys) {y : α} (hy : y ∈ ys) : ∃ x ∈ xs, R x y := by
  induction related with
  | nil => simp at hy
  | cons head _ ih =>
    rcases List.mem_cons.mp hy with rfl | hy
    · exact ⟨_, by simp, head⟩
    · obtain ⟨x, hx, hR⟩ := ih hy
      exact ⟨x, List.mem_cons_of_mem _ hx, hR⟩

end FirstMatch
