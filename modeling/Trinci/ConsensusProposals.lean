import Trinci.ConsensusService

/-!
# The table of block proposals

What the service stores, and what each operation on the table can do to it: an
update changes or adds exactly one proposal, the one its first confirmation
names; the periodic checks only reorder a height, drop finished rounds and
refresh timestamps. No uniqueness of the table's keys is assumed.
-/

namespace Trinci

open FirstMatch

universe u

variable {B C : Type u}

/-- What tells apart the proposals of one height. -/
def BlockProposal.key (proposal : BlockProposal B C) : Hash × UInt8 :=
  (proposal.blockHash, proposal.round)

namespace ConsensusService

variable {s s' : ConsensusService B C}

/-- The proposal is stored in a group of that height. -/
def Holds (s : ConsensusService B C) (height : UInt64) (proposal : BlockProposal B C) : Prop :=
  ∃ proposals, (height, proposals) ∈ s.blockProposals ∧ proposal ∈ proposals

/-- Every stored proposal satisfies `P` at its height. -/
def Every (s : ConsensusService B C) (P : UInt64 → BlockProposal B C → Prop) : Prop :=
  ∀ height proposal, s.Holds height proposal → P height proposal

theorem isFor_iff {hash : Hash} {round : UInt8} {proposal : BlockProposal B C} :
    proposal.isFor hash round = true ↔ proposal.blockHash = hash ∧ proposal.round = round := by
  simp [BlockProposal.isFor]

theorem findProposal_some {hash : Hash} {height : UInt64} {round : UInt8}
    {proposal : BlockProposal B C} (h : s.findProposal hash height round = some proposal) :
    s.Holds height proposal ∧ proposal.blockHash = hash ∧ proposal.round = round := by
  obtain ⟨⟨groupHeight, proposals⟩, hgroup, hfound⟩ := Option.bind_eq_some_iff.mp h
  have hkey : groupHeight = height := by simpa using List.find?_some hgroup
  subst hkey
  refine ⟨⟨proposals, List.mem_of_find?_eq_some hgroup, List.mem_of_find?_eq_some hfound⟩, ?_⟩
  exact isFor_iff.mp (List.find?_some hfound)

/-! ## Confirmations absorbed by one proposal -/

section Absorb

variable [DecidableEq C] (block : Option (B × List Hash)) (proposal : BlockProposal B C)

@[simp]
theorem absorb_blockHash (c : C) : (proposal.absorb block c).blockHash = proposal.blockHash := by
  simp only [BlockProposal.absorb]
  split_ifs <;> rfl

@[simp]
theorem absorb_round (c : C) : (proposal.absorb block c).round = proposal.round := by
  simp only [BlockProposal.absorb]
  split_ifs <;> rfl

theorem absorb_received (c : C) : (proposal.absorb block c).receivedConfirmations =
    if c ∈ proposal.receivedConfirmations then proposal.receivedConfirmations
    else proposal.receivedConfirmations ++ [c] := by
  simp only [BlockProposal.absorb]
  split_ifs <;> rfl

theorem absorb_count (c : C) : (proposal.absorb block c).count =
    if c ∈ proposal.receivedConfirmations then proposal.count else proposal.count + 1 := by
  simp only [BlockProposal.absorb]
  split_ifs <;> rfl

/-- A block is filled in once and never replaced. -/
theorem absorb_block (c : C) :
    (proposal.absorb block c).block = proposal.block.or block := by
  rcases block with _ | b
  · simp only [BlockProposal.absorb]
    split_ifs <;> simp_all
  · simp only [BlockProposal.absorb]
    split_ifs <;> cases hb : proposal.block <;> simp_all

@[simp]
theorem foldl_absorb_blockHash (confirmations : List C) :
    (confirmations.foldl (BlockProposal.absorb block) proposal).blockHash =
      proposal.blockHash := by
  induction confirmations generalizing proposal with
  | nil => rfl
  | cons c rest ih => rw [List.foldl_cons, ih, absorb_blockHash]

@[simp]
theorem foldl_absorb_round (confirmations : List C) :
    (confirmations.foldl (BlockProposal.absorb block) proposal).round = proposal.round := by
  induction confirmations generalizing proposal with
  | nil => rfl
  | cons c rest ih => rw [List.foldl_cons, ih, absorb_round]

theorem foldl_absorb_block (confirmations : List C) :
    (confirmations.foldl (BlockProposal.absorb block) proposal).block = proposal.block ∨
      (confirmations.foldl (BlockProposal.absorb block) proposal).block =
        proposal.block.or block := by
  induction confirmations generalizing proposal with
  | nil => exact Or.inl rfl
  | cons c rest ih =>
    right
    rw [List.foldl_cons]
    rcases ih (proposal.absorb block c) with h | h
    · rw [h, absorb_block]
    · rw [h, absorb_block, Option.or_assoc, Option.or_self]

end Absorb

/-! ## Updates -/

section Update

variable [Confirmable C] [DecidableEq C] {env : Env} {first : C} {rest confirmations : List C}
  {block : Option (B × List Hash)}

/-- The proposal an update creates when its key is not stored yet. -/
def freshProposal (env : Env) (first : C) (confirmations : List C)
    (block : Option (B × List Hash)) : BlockProposal B C :=
  BlockProposal.new block (Confirmable.getBlockHash first) (Confirmable.getBlockHeight first)
    confirmations (Confirmable.getBlockRound first) env.now

/-- The lookup of the key an update works on. -/
def findKey (s : ConsensusService B C) (first : C) : Option (BlockProposal B C) :=
  s.findProposal (Confirmable.getBlockHash first) (Confirmable.getBlockHeight first)
    (Confirmable.getBlockRound first)

theorem updateProposals_cons (h : s.updateProposals env confirmations block = .ok s') :
    ∃ first rest, confirmations = first :: rest := by
  cases confirmations with
  | nil => cases h
  | cons first rest => exact ⟨first, rest, rfl⟩

theorem updateProposals_eq (h : s.updateProposals env confirmations block = .ok s') :
    s' = { s with blockProposals := s'.blockProposals } := by
  cases confirmations with
  | nil => cases h
  | cons first rest =>
    cases h
    rfl

/-- Where the proposals of an updated table come from. -/
theorem holds_updateProposals
    (h : s.updateProposals env (first :: rest) block = .ok s') {height : UInt64}
    {proposal : BlockProposal B C} (held : s'.Holds height proposal) :
    s.Holds height proposal ∨
    (height = Confirmable.getBlockHeight first ∧ ∃ old, s.findKey first = some old ∧
      proposal = (first :: rest).foldl (BlockProposal.absorb block) old) ∨
    (height = Confirmable.getBlockHeight first ∧ s.findKey first = none ∧
      proposal = freshProposal env first (first :: rest) block) := by
  cases h
  obtain ⟨proposals, hgroup, hmem⟩ := held
  rcases mem_upsert hgroup with hold | ⟨⟨groupHeight, olds⟩, hfind, heq⟩ | ⟨hfind, heq⟩
  · exact Or.inl ⟨proposals, hold, hmem⟩
  · obtain ⟨rfl, rfl⟩ := Prod.mk.injEq .. ▸ heq
    have hkey : height = Confirmable.getBlockHeight first := by
      simpa using List.find?_some hfind
    have hlookup : s.findKey first = olds.find? (BlockProposal.isFor
        (Confirmable.getBlockHash first) (Confirmable.getBlockRound first)) := by
      simp only [findKey, findProposal, hfind, Option.bind_some]
    rcases mem_upsert hmem with hold | ⟨old, hold, rfl⟩ | ⟨hnone, rfl⟩
    · exact Or.inl ⟨olds, List.mem_of_find?_eq_some hfind, hold⟩
    · exact Or.inr (Or.inl ⟨hkey, old, hlookup.trans hold, rfl⟩)
    · exact Or.inr (Or.inr ⟨hkey, hlookup.trans hnone, rfl⟩)
  · obtain ⟨rfl, rfl⟩ := Prod.mk.injEq .. ▸ heq
    refine Or.inr (Or.inr ⟨rfl, ?_, by simpa [freshProposal] using hmem⟩)
    simp only [findKey, findProposal, hfind, Option.bind_none]

/-- An update keeps `P` if `P` survives the one proposal that changes. -/
theorem every_updateProposals {P : UInt64 → BlockProposal B C → Prop}
    (h : s.updateProposals env (first :: rest) block = .ok s') (all : s.Every P)
    (grown : ∀ old, s.findKey first = some old → P (Confirmable.getBlockHeight first)
      ((first :: rest).foldl (BlockProposal.absorb block) old))
    (fresh : s.findKey first = none →
      P (Confirmable.getBlockHeight first) (freshProposal env first (first :: rest) block)) :
    s'.Every P := by
  intro height proposal held
  rcases holds_updateProposals h held with hold | ⟨rfl, old, hfound, rfl⟩ | ⟨rfl, hnone, rfl⟩
  · exact all height proposal hold
  · exact grown old hfound
  · exact fresh hnone

/-- What an update leaves under the key it works on. -/
theorem findKey_updated (h : s.updateProposals env (first :: rest) block = .ok s') :
    s'.findKey first = some ((s.findKey first).elim (freshProposal env first (first :: rest) block)
      fun old => (first :: rest).foldl (BlockProposal.absorb block) old) := by
  cases h
  simp only [findKey, findProposal]
  rw [find?_upsert (by intro group hgroup; simpa using hgroup) (by simp)]
  simp only [Option.bind_some]
  cases hgroup : s.blockProposals.find? fun group =>
      group.1 == Confirmable.getBlockHeight first with
  | none => simp [freshProposal, BlockProposal.isFor, BlockProposal.new]
  | some group =>
    simp only [Option.bind_some]
    rw [find?_upsert]
    · cases group.2.find? (BlockProposal.isFor (Confirmable.getBlockHash first)
        (Confirmable.getBlockRound first)) <;> rfl
    · intro proposal hfor
      rw [isFor_iff] at hfor ⊢
      simpa using hfor
    · simp [BlockProposal.isFor, BlockProposal.new]

/-- After an update the key it works on is stored. -/
theorem findKey_updateProposals (h : s.updateProposals env (first :: rest) block = .ok s') :
    (s'.findKey first).isSome := by
  rw [findKey_updated h]
  rfl

/-- An update loses no key. -/
theorem findProposal_updateProposals
    (h : s.updateProposals env (first :: rest) block = .ok s') {hash : Hash}
    {height : UInt64} {round : UInt8} (found : (s.findProposal hash height round).isSome) :
    (s'.findProposal hash height round).isSome := by
  cases h
  refine isSome_find?_upsert found (fun group => rfl) ?_
  intro group hgroup
  refine isSome_find?_upsert_key hgroup ?_
  intro proposal
  simp [BlockProposal.isFor]

end Update

/-! ## Periodic checks -/

/-- One height group around a periodic check in the given round. -/
structure TidiedGroup (round : UInt8) (before after : UInt64 × List (BlockProposal B C)) :
    Prop where
  height : after.1 = before.1
  old : ∀ p ∈ after.2, ∃ q ∈ before.2, ∃ t, p = { q with timestamp := t }
  keeps : ∀ q ∈ before.2, q.round = round →
    ∃ p ∈ after.2, p.blockHash = q.blockHash ∧ p.round = q.round
  distinct : (before.2.map BlockProposal.key).Nodup → (after.2.map BlockProposal.key).Nodup

/-- The table after a periodic check of the current round. -/
def Tidied (s : ConsensusService B C)
    (groups : List (UInt64 × List (BlockProposal B C))) : Prop :=
  List.Forall₂ (TidiedGroup s.actualRound) s.blockProposals groups

theorem TidiedGroup.refl (round : UInt8) (group : UInt64 × List (BlockProposal B C)) :
    TidiedGroup round group group where
  height := rfl
  old p hp := ⟨p, hp, p.timestamp, rfl⟩
  keeps q hq _ := ⟨q, hq, rfl, rfl⟩
  distinct h := h

theorem TidiedGroup.of_perm {height : UInt64} {before after : List (BlockProposal B C)}
    (round : UInt8) (perm : after.Perm before) :
    TidiedGroup round (height, before) (height, after) where
  height := rfl
  old p hp := ⟨p, perm.mem_iff.mp hp, p.timestamp, rfl⟩
  keeps q hq _ := ⟨q, perm.mem_iff.mpr hq, rfl, rfl⟩
  distinct h := (perm.map _).nodup_iff.mpr h

theorem sortByCount_perm (proposals : List (BlockProposal B C)) :
    (sortByCount proposals).Perm proposals :=
  List.perm_insertionSort _ _

theorem findNextRound_tidied (height : UInt64) (round current : UInt8)
    (groups : List (UInt64 × List (BlockProposal B C))) :
    List.Forall₂ (TidiedGroup current) groups (findNextRound height round groups).1 := by
  induction groups with
  | nil => exact .nil
  | cons group groups ih =>
    obtain ⟨groupHeight, proposals⟩ := group
    rw [findNextRound]
    by_cases hheight : groupHeight = height
    · rw [if_pos hheight]
      have sorted : TidiedGroup current (groupHeight, proposals)
          (groupHeight, sortByCount proposals) := .of_perm current (sortByCount_perm proposals)
      cases hfind : (sortByCount proposals).find? fun p => p.round == round with
      | none =>
        simp only [hfind]
        exact .cons sorted ih
      | some p =>
        simp only [hfind]
        exact .cons sorted (List.forall₂_same.mpr fun g _ => .refl current g)
    · rw [if_neg hheight]
      exact .cons (.refl current _) ih

theorem findNextRound_some {height : UInt64} {round : UInt8}
    {groups : List (UInt64 × List (BlockProposal B C))} {proposal : BlockProposal B C}
    (h : (findNextRound height round groups).2 = some proposal) :
    proposal.round = round ∧ ∃ proposals,
      (height, proposals) ∈ (findNextRound height round groups).1 ∧ proposal ∈ proposals := by
  induction groups with
  | nil => simp [findNextRound] at h
  | cons group groups ih =>
    obtain ⟨groupHeight, proposals⟩ := group
    rw [findNextRound] at h ⊢
    by_cases hheight : groupHeight = height
    · rw [if_pos hheight] at h ⊢
      cases hfind : (sortByCount proposals).find? fun p => p.round == round with
      | none =>
        simp only [hfind] at h ⊢
        obtain ⟨hround, found, hmem, hin⟩ := ih h
        exact ⟨hround, found, List.mem_cons_of_mem _ hmem, hin⟩
      | some p =>
        simp only [hfind, Option.some.injEq] at h ⊢
        subst h
        refine ⟨by simpa using List.find?_some hfind, sortByCount proposals, ?_,
          List.mem_of_find?_eq_some hfind⟩
        simp [hheight]
    · rw [if_neg hheight] at h ⊢
      obtain ⟨hround, found, hmem, hin⟩ := ih h
      exact ⟨hround, found, List.mem_cons_of_mem _ hmem, hin⟩

theorem every_tidied {P : UInt64 → BlockProposal B C → Prop}
    {groups : List (UInt64 × List (BlockProposal B C))} (tidied : s.Tidied groups)
    (all : s.Every P) (timeless : ∀ height p t, P height p → P height { p with timestamp := t }) :
    ({ s with blockProposals := groups } : ConsensusService B C).Every P := by
  rintro height p ⟨proposals, hgroup, hp⟩
  obtain ⟨⟨oldHeight, olds⟩, hold, related⟩ := exists_of_mem_right tidied hgroup
  obtain ⟨q, hq, t, rfl⟩ := related.old p hp
  have hheight : height = oldHeight := related.height
  subst hheight
  exact timeless _ q t (all _ q ⟨olds, hold, hq⟩)

/-- A periodic check keeps every lookup of the current round. -/
theorem findProposal_tidied {groups : List (UInt64 × List (BlockProposal B C))}
    (tidied : s.Tidied groups) {hash : Hash} {height : UInt64}
    (found : (s.findProposal hash height s.actualRound).isSome) :
    (({ s with blockProposals := groups } : ConsensusService B C).findProposal hash height
      s.actualRound).isSome := by
  unfold Tidied at tidied
  simp only [findProposal] at found ⊢
  generalize s.blockProposals = olds at tidied found
  induction tidied with
  | nil => simp at found
  | @cons before after _ _ related _ ih =>
    by_cases hkey : before.1 = height
    · have hafter : after.1 = height := related.height.trans hkey
      simp only [List.find?_cons, hkey, hafter, beq_self_eq_true, Option.bind_some] at found ⊢
      obtain ⟨q, hq, hfor⟩ := List.find?_isSome.mp found
      rw [isFor_iff] at hfor
      obtain ⟨p, hp, hhash, hround⟩ := related.keeps q hq hfor.2
      refine List.find?_isSome.mpr ⟨p, hp, isFor_iff.mpr ⟨?_, ?_⟩⟩
      · rw [hhash, hfor.1]
      · rw [hround, hfor.2]
    · have hafter : after.1 ≠ height := by rw [related.height]; exact hkey
      simp only [List.find?_cons, beq_eq_false_iff_ne.mpr hkey,
        beq_eq_false_iff_ne.mpr hafter] at found ⊢
      exact ih found

end ConsensusService

end Trinci
