import Mathlib.Data.List.Nodup
import Mathlib.Data.Set.Insert
import Mathlib.Logic.Relation

/-!
# Ledgers that are extended through forks

Work is done on forks of a ledger and one fork at a time is merged, which drops the
others. A fork carries the keys it worked on and a ledger of its own. If every fork
starts from keys that are new to the ledger and different from each other, no key
is ever done twice.
-/

namespace ForkLedgers

universe u

variable {K : Type u}

structure Fork (K : Type u) where
  keys : List K
  ledger : Set K

structure Ledger (K : Type u) where
  /-- The keys of the merged forks, in the order of the merges. -/
  done : List K
  ledger : Set K
  forks : Set (Fork K)

/-- The keys of new work: each once, and none that is recorded. -/
structure Fresh (keys : List K) (ledger : Set K) : Prop where
  nodup : keys.Nodup
  unrecorded : ∀ k ∈ keys, k ∉ ledger

theorem Fresh.sublist {keys keys' : List K} {ledger : Set K} (h : Fresh keys ledger)
    (sub : keys'.Sublist keys) : Fresh keys' ledger :=
  ⟨h.nodup.sublist sub, fun k hk => h.unrecorded k (sub.subset hk)⟩

inductive Step : Ledger K → Ledger K → Prop
  /-- More is recorded, and forks may be dropped. -/
  | grow {s : Ledger K} {ledger : Set K} {forks : Set (Fork K)} :
      s.ledger ⊆ ledger → forks ⊆ s.forks → Step s ⟨s.done, ledger, forks⟩
  | fork {s : Ledger K} {f : Fork K} {forks : Set (Fork K)} :
      Fresh f.keys s.ledger → s.ledger ⊆ f.ledger → (∀ k ∈ f.keys, k ∈ f.ledger) →
      forks ⊆ insert f s.forks → Step s ⟨s.done, s.ledger, forks⟩
  | merge {s : Ledger K} {f : Fork K} :
      f ∈ s.forks → Step s ⟨s.done ++ f.keys, f.ledger, ∅⟩

abbrev Steps : Ledger K → Ledger K → Prop := Relation.ReflTransGen Step

/-- A fork that can be merged after these keys are done. -/
structure Mergeable (base : Set K) (done : List K) (f : Fork K) : Prop where
  nodup : f.keys.Nodup
  recorded : ∀ k ∈ f.keys, k ∈ f.ledger
  keepsDone : ∀ k ∈ done, k ∈ f.ledger
  keepsBase : base ⊆ f.ledger
  notDone : ∀ k ∈ f.keys, k ∉ done
  notBase : ∀ k ∈ f.keys, k ∉ base

/-- What was recorded at the start stays recorded, and no key is done that was
recorded then or done before. -/
structure Once (base : Set K) (s : Ledger K) : Prop where
  base_subset : base ⊆ s.ledger
  nodup : s.done.Nodup
  recorded : ∀ k ∈ s.done, k ∈ s.ledger
  notBase : ∀ k ∈ s.done, k ∉ base
  forks : ∀ f ∈ s.forks, Mergeable base s.done f

theorem once_start (ledger : Set K) : Once ledger ⟨[], ledger, ∅⟩ where
  base_subset := subset_rfl
  nodup := List.nodup_nil
  recorded _ h := by cases h
  notBase _ h := by cases h
  forks _ h := by cases h

theorem Once.step {base : Set K} {s t : Ledger K} (h : Once base s) (hstep : Step s t) :
    Once base t := by
  cases hstep with
  | grow hledger hforks =>
    exact ⟨h.base_subset.trans hledger, h.nodup, fun k hk => hledger (h.recorded k hk), h.notBase,
      fun f hf => h.forks f (hforks hf)⟩
  | @fork f forks fresh hledger hkeys hforks =>
    refine ⟨h.base_subset, h.nodup, h.recorded, h.notBase, fun g hg => ?_⟩
    rcases hforks hg with rfl | hg
    · constructor
      · exact fresh.nodup
      · exact hkeys
      · exact fun k hk => hledger (h.recorded k hk)
      · exact h.base_subset.trans hledger
      · exact fun k hk hdone => fresh.unrecorded k hk (h.recorded k hdone)
      · exact fun k hk hbase => fresh.unrecorded k hk (h.base_subset hbase)
    · exact h.forks g hg
  | @merge f hf =>
    have m := h.forks f hf
    constructor
    · exact m.keepsBase
    · refine List.nodup_append.mpr ⟨h.nodup, m.nodup, ?_⟩
      intro a ha b hb heq
      exact m.notDone b hb (heq ▸ ha)
    · intro k hk
      rcases List.mem_append.mp hk with hk | hk
      · exact m.keepsDone k hk
      · exact m.recorded k hk
    · intro k hk
      rcases List.mem_append.mp hk with hk | hk
      · exact h.notBase k hk
      · exact m.notBase k hk
    · intro g hg
      cases hg

theorem Once.steps {base : Set K} {s t : Ledger K} (h : Once base s) (hsteps : Steps s t) :
    Once base t := by
  induction hsteps with
  | refl => exact h
  | tail _ hstep ih => exact ih.step hstep

end ForkLedgers
