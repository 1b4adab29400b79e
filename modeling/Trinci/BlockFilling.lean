import Trinci.PeerBlocks

/-!
# The transactions a block is built from

A builder takes transactions from the end of the list that the pool gives, in whatever order
that is, and stops at the first that does not fit. What it takes is always within the
limits. It may be nothing, though the pool has transactions that fit: the sizes that the pool
takes in are not bounded, and one that is too large stops the builder where it stands last.
-/

namespace Trinci

open StatefulSteps

/-! ## The list of a pool -/

namespace TransactionService

variable {A B C T : Type} {s : TransactionService A T} {listed : List (Hash × Nat)}

/-- The size a transaction is pooled with. -/
def pooledSize (s : TransactionService A T) (hash : Hash) : Nat :=
  ((s.unconfirmedPool.lookup hash).map fun entry => entry.2.1).getD 0

/-- The list is an answer of the pool to the builder, in some order of its entries. -/
def Lists (B C : Type) (s : TransactionService A T) (listed : List (Hash × Nat)) : Prop :=
  ∃ hashes, (s.handleRequests .getUnconfirmedHashes : Option (Res A B C T)) =
    some (.getUnconfirmedHashes hashes) ∧ listed.Perm hashes

theorem Lists.perm (lists : s.Lists B C listed) :
    listed.Perm (s.unconfirmedPool.entries.map fun entry => (entry.1, entry.2.2.1)) := by
  obtain ⟨hashes, answer, perm⟩ := lists
  cases answer
  exact perm

theorem Lists.nodup (lists : s.Lists B C listed) : (listed.map Prod.fst).Nodup := by
  rw [(lists.perm.map Prod.fst).nodup_iff, List.map_map]
  exact s.unconfirmedPool.nodupKeys

theorem Lists.mem_iff (lists : s.Lists B C listed) {hash : Hash} {size : Nat} :
    (hash, size) ∈ listed ↔ hash ∈ s.unconfirmedPool ∧ s.pooledSize hash = size := by
  rw [lists.perm.mem_iff, List.mem_map]
  constructor
  · rintro ⟨⟨key, entry⟩, hentry, heq⟩
    obtain ⟨rfl, rfl⟩ := Prod.mk.inj heq
    have found : s.unconfirmedPool.lookup key = some entry :=
      AList.mem_lookup_iff.mpr hentry
    refine ⟨AList.lookup_isSome.mp (by simp [found]), ?_⟩
    rw [pooledSize, found]
    rfl
  · rintro ⟨pooled, rfl⟩
    obtain ⟨entry, hentry⟩ := Option.isSome_iff_exists.mp (AList.lookup_isSome.mpr pooled)
    refine ⟨⟨hash, entry⟩, AList.mem_lookup_iff.mp hentry, ?_⟩
    rw [pooledSize, hentry]
    rfl

end TransactionService

/-! ## What is chosen -/

namespace BlockService

variable {A B C T : Type} {s : TransactionService A T} {listed : List (Hash × Nat)}

/-- A transaction of this size fits in a block by itself. -/
def FitsAlone (size : Nat) : Prop := size < blockMaxSizeBytes - blockBaseSizeBytes

instance (size : Nat) : Decidable (FitsAlone size) := inferInstanceAs (Decidable (_ < _))

/-- What a block should be filled with: distinct transactions of the pool, within the limits
on their number and total size, and some if one of the pool fits by itself. -/
structure Fills (s : TransactionService A T) (hashes : List Hash) : Prop where
  distinct : hashes.Nodup
  pooled : ∀ hash ∈ hashes, hash ∈ s.unconfirmedPool
  few : hashes.length ≤ maxTxsInBlock
  small : (hashes.map s.pooledSize).sum < blockMaxSizeBytes - blockBaseSizeBytes
  used : (∃ hash ∈ s.unconfirmedPool, FitsAlone (s.pooledSize hash)) → hashes ≠ []

/-- Nothing is chosen exactly where the transaction listed last does not fit. -/
theorem chosen_eq_nil_iff :
    chosen listed = [] ↔ ∀ last ∈ listed.getLast?, ¬ FitsAlone last.2 := by
  constructor
  · intro empty last hlast fits
    exact chosen_ne_nil hlast fits empty
  · intro large
    rcases List.eq_nil_or_concat listed with rfl | ⟨before, last, rfl⟩
    · rfl
    · have large : ¬ 0 + last.2 < blockMaxSizeBytes - blockBaseSizeBytes := by
        rw [Nat.zero_add]
        exact large last (by simp)
      rw [chosen, List.concat_eq_append, List.reverse_append, List.reverse_singleton,
        List.singleton_append, fill, if_neg large, List.take_nil]

/-- The sizes that a builder adds up are those of the pool. -/
theorem Picked.sizes {picked : List (Hash × Nat)} {hashes : List Hash}
    (h : Picked listed picked hashes) (lists : s.Lists B C listed) :
    hashes.map s.pooledSize = picked.map Prod.snd := by
  rw [h.hashes, List.map_map]
  apply List.map_congr_left
  rintro ⟨hash, size⟩ hpicked
  have hlisted := List.mem_reverse.mp (h.listed.mem hpicked)
  exact (lists.mem_iff.mp hlisted).2

theorem Picked.distinct {picked : List (Hash × Nat)} {hashes : List Hash}
    (h : Picked listed picked hashes) (lists : s.Lists B C listed) : hashes.Nodup := by
  rw [h.hashes]
  refine List.Nodup.sublist (h.listed.sublist.map Prod.fst) ?_
  rw [List.map_reverse, List.nodup_reverse]
  exact lists.nodup

/-- The choice is right if and only if the transaction listed last fits, or none does. -/
theorem fills_chosen_iff (lists : s.Lists B C listed) : Fills s (chosen listed) ↔
    (∃ last ∈ listed.getLast?, FitsAlone last.2) ∨ ∀ entry ∈ listed, ¬ FitsAlone entry.2 := by
  obtain ⟨picked, h⟩ := exists_picked listed
  constructor
  · intro fills
    by_cases empty : chosen listed = []
    · right
      rintro ⟨hash, size⟩ hentry fits
      obtain ⟨pooled, rfl⟩ := lists.mem_iff.mp hentry
      exact fills.used ⟨hash, pooled, fits⟩ empty
    · left
      by_contra large
      push Not at large
      exact empty (chosen_eq_nil_iff.mpr large)
  · intro fair
    refine ⟨h.distinct lists, ?_, ?_, ?_, ?_⟩
    · intro hash hhash
      rw [h.hashes, List.mem_map] at hhash
      obtain ⟨⟨key, size⟩, hpicked, rfl⟩ := hhash
      exact (lists.mem_iff.mp (List.mem_reverse.mp (h.listed.mem hpicked))).1
    · rw [h.hashes, List.length_map]
      exact h.few
    · rw [h.sizes lists]
      exact h.small
    · rintro ⟨hash, pooled, fits⟩ empty
      rcases fair with ⟨last, hlast, hfits⟩ | large
      · exact chosen_eq_nil_iff.mp empty last hlast hfits
      · exact large _ (lists.mem_iff.mpr ⟨pooled, rfl⟩) fits

section Builds

variable [Primitives] [Executable B] [Transactable T]

/-- A build executes a block of what is chosen from the answer of the pool, and this is right
exactly if the transaction that the pool listed last fits by itself, or none does. -/
theorem buildBlock_fills_iff (env : BlockEnv A B C T) (h : Handling A B C T)
    (answered : env.builtFrom = .answer listed) (lists : s.Lists B C listed) :
    (buildBlock env).run.run h =
        (beginExecution env (Executable.new h.service.keypair.publicKey (chosen listed)
          (h.service.height + 1) h.service.lastBlockHash env.now) (chosen listed)).run.run
            ⟨{ h.service with buildInProgress := true }, h.out⟩ ∧
      (Fills s (chosen listed) ↔ (∃ last ∈ listed.getLast?, FitsAlone last.2) ∨
        ∀ entry ∈ listed, ¬ FitsAlone entry.2) := by
  refine ⟨?_, fills_chosen_iff lists⟩
  rw [buildBlock, answered]
  rfl

end Builds

end BlockService

/-! ## A large transaction that is listed last -/

namespace Sample.Duo

open BlockService

/-- A small transaction and one that no block has room for, as they are added from a full
block of a peer. -/
def mixedTxs : List (Transaction × Nat × Option (List Hash)) :=
  [(unitOf 3 (keypair 1), 4, none), (bigTx, 1048465, none)]

def mixedPool : TransactionService Hash Transaction :=
  match (TransactionService.start "bob").addTxs (fun _ => 0) mixedTxs with
  | .ok (s, (_ : List NodeOutput)) => s
  | .error _ => .start "bob"

def mixedKeys : List (Hash × Nat) :=
  [((unitOf 3 (keypair 1)).getHash, 4), (bigTx.getHash, 1048465)]

theorem mixedPool_lists {answer : List (Hash × Nat)} (perm : answer.Perm mixedKeys.reverse) :
    mixedPool.Lists Block Confirmation answer :=
  ⟨_, rfl, perm⟩

theorem small_tx_is_chosen :
    (chosen mixedKeys.reverse).length = 1 ∧ Fills mixedPool (chosen mixedKeys.reverse) :=
  ⟨by decide +kernel, (buildBlock_fills_iff
    { leaderEnv [] with builtFrom := .answer mixedKeys.reverse }
    ⟨.start (keypair 2) "bob" (none : Option Block), []⟩ rfl
    (mixedPool_lists (List.Perm.refl _))).2.mpr (.inl ⟨_, rfl, by decide⟩)⟩

/-- Nothing is chosen, though the pool has a transaction that fits. -/
theorem large_tx_hides_small :
    (∃ out : List NodeOutput, (TransactionService.start "bob").handleMessages (fun _ => 0)
      (.addTxs mixedTxs) = .ok (mixedPool, out)) ∧
      mixedPool.Lists Block Confirmation mixedKeys ∧ chosen mixedKeys = [] ∧
      ¬ Fills mixedPool (chosen mixedKeys) := by
  have lists : mixedPool.Lists Block Confirmation mixedKeys :=
    mixedPool_lists (List.reverse_perm _).symm
  have empty : chosen mixedKeys = [] := by decide +kernel
  refine ⟨⟨_, rfl⟩, lists, empty, fun fills => ?_⟩
  obtain ⟨pooled, size⟩ := lists.mem_iff.mp (List.mem_cons_self)
  refine fills.used ⟨_, pooled, ?_⟩ empty
  rw [size]
  decide

end Sample.Duo

end Trinci
