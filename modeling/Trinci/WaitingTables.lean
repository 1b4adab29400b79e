import Mathlib.Data.List.AList
import Mathlib.Data.List.Induction
import Mathlib.Data.List.Nodup

/-!
# Tables of those who wait

Whoever waits for an answer is kept under an id until the id is settled. Where no id is
issued twice, the table has exactly those whose id was not settled since, so that no one is
found by an id again once it was settled.
-/

namespace WaitingTables

universe u v

variable {Id : Type u} {Slot : Type v}

inductive Change (Id : Type u) (Slot : Type v)
  | issued (id : Id) (slot : Slot)
  | settled (id : Id)

def issuedId? : Change Id Slot → Option Id
  | .issued id _ => some id
  | .settled _ => none

/-- The ids that were issued, in order. -/
def ids (changes : List (Change Id Slot)) : List Id := changes.filterMap issuedId?

theorem ids_append (changes later : List (Change Id Slot)) :
    ids (changes ++ later) = ids changes ++ ids later :=
  List.filterMap_append

/-- Where no id comes twice, the id tells what it came with. -/
theorem eq_of_nodup_filterMap {α : Type v} {idOf : α → Option Id} {l : List α}
    (once : (l.filterMap idOf).Nodup) {a b : α} (ha : a ∈ l) (hb : b ∈ l) {id : Id}
    (hida : idOf a = some id) (hidb : idOf b = some id) : a = b := by
  induction l with
  | nil => cases ha
  | cons c l ih =>
    cases hc : idOf c with
    | none =>
      rw [List.filterMap_cons_none hc] at once
      have other : ∀ d, d ∈ c :: l → idOf d = some id → d ∈ l := by
        intro d hd hid
        obtain rfl | hd := List.mem_cons.mp hd
        · rw [hc] at hid
          cases hid
        · exact hd
      exact ih once (other a ha hida) (other b hb hidb)
    | some idc =>
      rw [List.filterMap_cons_some hc, List.nodup_cons] at once
      have apart : ∀ d ∈ l, idOf d ≠ some idc := fun d hd hid =>
        once.1 (List.mem_filterMap.mpr ⟨d, hd, hid⟩)
      obtain rfl | first := List.mem_cons.mp ha
      · obtain rfl | second := List.mem_cons.mp hb
        · rfl
        · exact absurd (hidb.trans (hida.symm.trans hc)) (apart b second)
      · obtain rfl | second := List.mem_cons.mp hb
        · exact absurd (hida.trans (hidb.symm.trans hc)) (apart a first)
        · exact ih once.2 first second

/-- The id was issued for this one and not settled since. -/
def Waits (id : Id) (slot : Slot) (changes : List (Change Id Slot)) : Prop :=
  ∃ before after, changes = before ++ .issued id slot :: after ∧ .settled id ∉ after

theorem mem_ids_iff {id : Id} {changes : List (Change Id Slot)} :
    id ∈ ids changes ↔ ∃ slot, .issued id slot ∈ changes := by
  rw [ids, List.mem_filterMap]
  constructor
  · rintro ⟨change, hchange, hid⟩
    cases change with
    | issued id' slot =>
      obtain rfl := Option.some.inj hid
      exact ⟨slot, hchange⟩
    | settled id' => cases hid
  · rintro ⟨slot, hchange⟩
    exact ⟨_, hchange, rfl⟩

theorem Waits.issued {id : Id} {slot : Slot} {changes : List (Change Id Slot)}
    (h : Waits id slot changes) : .issued id slot ∈ changes := by
  obtain ⟨before, after, rfl, -⟩ := h
  simp

/-- Who waits after one more change. -/
theorem waits_concat_iff {id : Id} {slot : Slot} {changes : List (Change Id Slot)}
    {change : Change Id Slot} : Waits id slot (changes ++ [change]) ↔
      change = .issued id slot ∨ change ≠ .settled id ∧ Waits id slot changes := by
  constructor
  · rintro ⟨before, after, same, unsettled⟩
    obtain rfl | ⟨after, last, rfl⟩ := List.eq_nil_or_concat' after
    · left
      obtain ⟨-, h⟩ := List.append_inj' same rfl
      exact List.singleton_inj.mp h
    · right
      rw [← List.cons_append, ← List.append_assoc] at same
      obtain ⟨rfl, h⟩ := List.append_inj' same rfl
      obtain rfl := List.singleton_inj.mp h
      rw [List.mem_append, not_or] at unsettled
      refine ⟨fun h => unsettled.2 (List.mem_singleton.mpr h.symm), _, _, rfl, unsettled.1⟩
  · rintro (rfl | ⟨other, before, after, rfl, unsettled⟩)
    · exact ⟨changes, [], rfl, List.not_mem_nil⟩
    · refine ⟨before, after ++ [change], by simp, ?_⟩
      rw [List.mem_append, List.mem_singleton, not_or]
      exact ⟨unsettled, fun h => other h.symm⟩

variable [DecidableEq Id]

theorem lookup_erase_eq_some {entries : AList fun _ : Id => Slot} {id id' : Id} {slot : Slot}
    (h : (entries.erase id).lookup id' = some slot) :
    id' ≠ id ∧ entries.lookup id' = some slot := by
  by_cases same : id' = id
  · subst same
    rw [AList.lookup_erase] at h
    cases h
  · rw [AList.lookup_erase_ne same] at h
    exact ⟨same, h⟩

def Change.apply (table : AList fun _ : Id => Slot) :
    Change Id Slot → AList fun _ : Id => Slot
  | .issued id slot => table.insert id slot
  | .settled id => table.erase id

/-- The table after these changes, from an empty one. -/
def table (changes : List (Change Id Slot)) : AList fun _ : Id => Slot :=
  changes.foldl Change.apply ∅

theorem table_append (changes later : List (Change Id Slot)) :
    table (changes ++ later) = later.foldl Change.apply (table changes) :=
  List.foldl_append

/-- Whatever is in the table was issued. -/
theorem issued_of_lookup {changes : List (Change Id Slot)} {id : Id} {slot : Slot}
    (h : (table changes).lookup id = some slot) : .issued id slot ∈ changes := by
  induction changes using List.reverseRecOn with
  | nil => cases h
  | append_singleton changes change ih =>
    rw [table_append] at h
    rw [List.mem_append, List.mem_singleton]
    cases change with
    | issued id' slot' =>
      change (AList.insert id' slot' (table changes)).lookup id = some slot at h
      by_cases same : id = id'
      · subst same
        rw [AList.lookup_insert, Option.some.injEq] at h
        exact .inr (by rw [h])
      · rw [AList.lookup_insert_ne same] at h
        exact .inl (ih h)
    | settled id' =>
      change ((table changes).erase id').lookup id = some slot at h
      exact .inl (ih (lookup_erase_eq_some h).2)

/-- The table has exactly those who wait. -/
theorem lookup_table_iff {changes : List (Change Id Slot)} (once : (ids changes).Nodup)
    {id : Id} {slot : Slot} :
    (table changes).lookup id = some slot ↔ Waits id slot changes := by
  induction changes using List.reverseRecOn with
  | nil =>
    constructor
    · intro h
      cases h
    · rintro ⟨before, after, same, -⟩
      cases before <;> cases same
  | append_singleton changes change ih =>
    rw [ids_append, List.nodup_append'] at once
    obtain ⟨earlier, -, apart⟩ := once
    have before := ih earlier
    rw [table_append, waits_concat_iff]
    cases change with
    | issued id' slot' =>
      change (AList.insert id' slot' (table changes)).lookup id = some slot ↔ _
      by_cases same : id = id'
      · subst same
        have fresh : ¬ Waits id slot changes := fun h =>
          apart (mem_ids_iff.mpr ⟨slot, h.issued⟩) (by simp [ids, issuedId?])
        rw [AList.lookup_insert]
        simp [fresh, eq_comm]
      · rw [AList.lookup_insert_ne same, before]
        simp [same, eq_comm]
    | settled id' =>
      change ((table changes).erase id').lookup id = some slot ↔ _
      by_cases same : id = id'
      · subst same
        rw [AList.lookup_erase]
        simp
      · rw [AList.lookup_erase_ne same, before]
        simp [same, eq_comm]

end WaitingTables
