import Mathlib.Data.List.Perm.Basic

/-!
# Values grouped under their keys

Values are added one by one to the list of their key, and the largest entry is looked for
afterwards. The entries are the values of each key in the order they came, so an entry that
is largest by the number of its values has a most frequent key.
-/

namespace Groupings

universe u v

variable {K : Type u} {V : Type v} [DecidableEq K]

/-- A value is added to the entry of the key, which is new if there is none. -/
def pushUnder (entries : List (K × List V)) (key : K) (value : V) : List (K × List V) :=
  if entries.any fun entry => entry.1 == key then
    entries.map fun entry => if entry.1 = key then (entry.1, entry.2 ++ [value]) else entry
  else entries ++ [(key, [value])]

/-- The values of a key. -/
def under (keyOf : V → Option K) (key : K) (values : List V) : List V :=
  values.filter fun value => keyOf value == some key

/-- The entries are the keys that have values, each with all of them. -/
def Groups (keyOf : V → Option K) (values : List V) (entries : List (K × List V)) : Prop :=
  ∀ key own, (key, own) ∈ entries ↔ own = under keyOf key values ∧ own ≠ []

variable {keyOf : V → Option K} {key : K} {value : V} {values : List V}
  {entries entries' : List (K × List V)}

theorem mem_under : value ∈ under keyOf key values ↔ value ∈ values ∧ keyOf value = some key := by
  simp [under]

theorem under_snoc_own (own : keyOf value = some key) :
    under keyOf key (values ++ [value]) = under keyOf key values ++ [value] := by
  simp [under, own]

theorem under_snoc_other (other : keyOf value ≠ some key) :
    under keyOf key (values ++ [value]) = under keyOf key values := by
  simp [under, other]

theorem groups_nil (keyOf : V → Option K) : Groups keyOf [] [] := by
  intro key own
  simp [under]

theorem Groups.perm (h : Groups keyOf values entries) (perm : entries'.Perm entries) :
    Groups keyOf values entries' := by
  intro key own
  rw [perm.mem_iff]
  exact h key own

/-- A value without a key goes to no entry. -/
theorem Groups.skip (h : Groups keyOf values entries) (keyless : keyOf value = none) :
    Groups keyOf (values ++ [value]) entries := by
  intro key own
  rw [h key own, under_snoc_other (by simp [keyless])]

theorem any_key_iff : (entries.any fun entry => entry.1 == key) = true ↔
    ∃ own, (key, own) ∈ entries := by
  simp

theorem Groups.push (h : Groups keyOf values entries) (keyed : keyOf value = some key) :
    Groups keyOf (values ++ [value]) (pushUnder entries key value) := by
  intro other own
  unfold pushUnder
  by_cases held : (entries.any fun entry => entry.1 == key) = true
  · rw [if_pos held, List.mem_map]
    by_cases same : other = key
    · subst same
      rw [under_snoc_own keyed]
      obtain ⟨before, hbefore⟩ := any_key_iff.mp held
      have hbefore' := (h other before).mp hbefore
      constructor
      · rintro ⟨⟨k, vs⟩, hentry, heq⟩
        by_cases hk : k = other
        · subst hk
          rw [if_pos rfl, Prod.mk.injEq] at heq
          rw [← heq.2, ((h k vs).mp hentry).1]
          exact ⟨rfl, by simp⟩
        · rw [if_neg hk, Prod.mk.injEq] at heq
          exact absurd heq.1 hk
      · rintro ⟨rfl, -⟩
        refine ⟨(other, before), hbefore, ?_⟩
        rw [if_pos rfl, hbefore'.1]
    · rw [under_snoc_other (by rw [keyed]; simpa using Ne.symm same), ← h other own]
      constructor
      · rintro ⟨⟨k, vs⟩, hentry, heq⟩
        by_cases hk : k = key
        · rw [if_pos hk, Prod.mk.injEq] at heq
          exact absurd (heq.1.symm.trans hk) same
        · rw [if_neg hk] at heq
          exact heq ▸ hentry
      · intro hentry
        exact ⟨(other, own), hentry, if_neg same⟩
  · rw [if_neg held, List.mem_append, List.mem_singleton, Prod.mk.injEq, h other own]
    by_cases same : other = key
    · subst same
      have empty : under keyOf other values = [] := by
        by_contra differs
        exact held (any_key_iff.mpr ⟨_, (h other _).mpr ⟨rfl, differs⟩⟩)
      rw [under_snoc_own keyed, empty]
      constructor
      · rintro (⟨rfl, differs⟩ | ⟨-, rfl⟩)
        · exact absurd rfl differs
        · exact ⟨rfl, by simp⟩
      · rintro ⟨rfl, -⟩
        exact .inr ⟨rfl, rfl⟩
    · rw [under_snoc_other (by rw [keyed]; simpa using Ne.symm same)]
      constructor
      · rintro (hown | ⟨hkey, -⟩)
        · exact hown
        · exact absurd hkey same
      · exact .inl

/-! ## The largest entry -/

section Maxima

variable {α : Type u} {le : α → α → Bool}

/-- The last of the largest elements. -/
def lastMax (le : α → α → Bool) : List α → Option α
  | [] => none
  | first :: rest => some (rest.foldl (fun best x => if le best x then x else best) first)

theorem lastMax_isSome {xs : List α} (nonempty : xs ≠ []) : ∃ best, lastMax le xs = some best := by
  cases xs with
  | nil => exact absurd rfl nonempty
  | cons first rest => exact ⟨_, rfl⟩

theorem foldl_best (total : ∀ x y, le x y = true ∨ le y x = true)
    (trans : ∀ x y z, le x y = true → le y z = true → le x z = true) (rest : List α) (first : α) :
    rest.foldl (fun best x => if le best x then x else best) first ∈ first :: rest ∧
      ∀ x ∈ first :: rest,
        le x (rest.foldl (fun best x => if le best x then x else best) first) = true := by
  induction rest generalizing first with
  | nil =>
    refine ⟨List.mem_cons_self, fun x hx => ?_⟩
    obtain rfl := List.mem_singleton.mp hx
    exact (total x x).elim id id
  | cons y rest ih =>
    rw [List.foldl_cons]
    by_cases better : le first y = true
    · rw [if_pos better]
      obtain ⟨hmem, hbest⟩ := ih y
      refine ⟨List.mem_cons_of_mem _ hmem, fun x hx => ?_⟩
      rcases List.mem_cons.mp hx with rfl | hx
      · exact trans _ y _ better (hbest y List.mem_cons_self)
      · exact hbest x hx
    · rw [if_neg better]
      obtain ⟨hmem, hbest⟩ := ih first
      have worse : le y first = true := (total first y).resolve_left better
      have hfirst := hbest first List.mem_cons_self
      constructor
      · rcases List.mem_cons.mp hmem with heq | hmem
        · exact List.mem_cons.mpr (.inl heq)
        · exact List.mem_cons_of_mem _ (List.mem_cons_of_mem _ hmem)
      · intro x hx
        rcases List.mem_cons.mp hx with rfl | hx
        · exact hfirst
        · rcases List.mem_cons.mp hx with rfl | hx
          · exact trans x first _ worse hfirst
          · exact hbest x (List.mem_cons_of_mem _ hx)

theorem lastMax_spec (total : ∀ x y, le x y = true ∨ le y x = true)
    (trans : ∀ x y z, le x y = true → le y z = true → le x z = true) {xs : List α} {best : α}
    (h : lastMax le xs = some best) : best ∈ xs ∧ ∀ x ∈ xs, le x best = true := by
  cases xs with
  | nil => cases h
  | cons first rest =>
    cases h
    exact foldl_best total trans rest first

end Maxima

end Groupings
