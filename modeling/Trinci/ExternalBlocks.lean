import Trinci.ConsensusVotes
import Trinci.ServiceSteps

/-!
# The checks of an external block

A block that comes from outside is checked before its execution begins. The confirmations
are filtered by two conditions at once: one of them is refused only if it is of the current
round or a later one and not of a player.
-/

namespace Trinci

open StatefulSteps BlockService

variable {A B C T : Type} [Executable B] [Confirmable C] [Transactable T]

namespace BlockService

/-- `verify_ext_block` up to the call of `begin_execution`. -/
def checkExtBlock (env : BlockEnv A B C T) (block : B) (confirmations : List C) :
    Handler A B C T PUnit := do
  if !Executable.verify block then throw (.chain .blockVerificationFault)
  match Executable.getBuilderId block with
  | none => throw (.chain .missingBlockBuilder)
  | some builderId => do
    let s ← service
    if Executable.getHeight block ≠ s.height + 1 then
      throw (.chain (.invalidBlockHeight (s.height + 1) (Executable.getHeight block)))
    if Executable.getPrevHash block ≠ s.lastBlockHash then
      throw (.chain (.invalidBlockPreviousHash s.lastBlockHash (Executable.getPrevHash block)))
    let actualPlayers ← expect env.actualPlayers
    if !actualPlayers.contains builderId then
      throw (.chain (.invalidBlockPlayer builderId))
    let actualPlayers ← expect env.actualPlayersAgain
    if !actualPlayers.contains builderId then
      throw (.chain (.invalidBlockPlayer builderId))
    if confirmations.any fun confirmation =>
        !actualPlayers.contains (Confirmable.getPlayerId confirmation) &&
          decide (s.actualRound ≤ Confirmable.getBlockRound confirmation) then
      throw (.chain .confirmationError)

theorem verifyExtBlock_eq (env : BlockEnv A B C T) (block : B) (txsHashes : List Hash)
    (confirmations : List C) :
    verifyExtBlock env block txsHashes confirmations =
      checkExtBlock env block confirmations >>= fun _ => beginExecution env block txsHashes := by
  unfold verifyExtBlock checkExtBlock
  symm
  refine guard_bind ?_
  cases Executable.getBuilderId block with
  | none => rfl
  | some builderId =>
    refine (bind_assoc _ _ _).trans (congrArg _ (funext fun s => ?_))
    refine guard_bind (guard_bind ?_)
    refine (bind_assoc _ _ _).trans (congrArg _ (funext fun players => guard_bind ?_))
    refine (bind_assoc _ _ _).trans (congrArg _ (funext fun players => guard_bind ?_))
    by_cases refused : (confirmations.any fun confirmation =>
        !players.contains (Confirmable.getPlayerId confirmation) &&
          decide (s.actualRound ≤ Confirmable.getBlockRound confirmation)) = true
    · rw [if_pos refused, if_pos refused]
    · rw [if_neg refused, if_neg refused]
      rfl

omit [Executable B] [Confirmable C] [Transactable T] in
theorem expect_quiet {α : Type} (reply : Reply α) (h : Handling A B C T) :
    after (expect reply) h = h := by
  cases reply <;> rfl

omit [Executable B] [Confirmable C] [Transactable T] in
theorem service_bind_ok_iff {β : Type} {f : BlockService → Handler A B C T β}
    {h : Handling A B C T} {b : β} :
    result (service >>= f) h = .ok b ↔ result (f h.service) h = .ok b := Iff.rfl

omit [Executable B] [Confirmable C] [Transactable T] in
theorem expect_bind_ok_iff {α β : Type} {reply : Reply α} {f : α → Handler A B C T β}
    {h : Handling A B C T} {b : β} :
    result (expect reply >>= f) h = .ok b ↔
      ∃ a, reply = .answer a ∧ result (f a) h = .ok b := by
  cases reply with
  | answer a =>
    constructor
    · exact fun hresult => ⟨a, rfl, hresult⟩
    · rintro ⟨a', ha, hresult⟩
      cases ha
      exact hresult
  | wrong =>
    refine iff_of_false ?_ ?_
    · intro hresult
      cases hresult
    · rintro ⟨a, ha, -⟩
      cases ha
  | failed =>
    refine iff_of_false ?_ ?_
    · intro hresult
      cases hresult
    · rintro ⟨a, ha, -⟩
      cases ha

/-- The block is of this height, after the last block, and built by a current player, whom
both answers name. The confirmations are checked against the second one. -/
structure Follows (env : BlockEnv A B C T) (s : BlockService) (block : B)
    (current : C → List String → Prop) (confirmations : List C) : Prop where
  verified : Executable.verify block = true
  height : Executable.getHeight block = s.height + 1
  prevHash : Executable.getPrevHash block = s.lastBlockHash
  players : ∃ builderId, Executable.getBuilderId block = some builderId ∧
    ∃ actualPlayers, env.actualPlayers = .answer actualPlayers ∧ builderId ∈ actualPlayers ∧
    ∃ actualPlayersAgain, env.actualPlayersAgain = .answer actualPlayersAgain ∧
      builderId ∈ actualPlayersAgain ∧
      ∀ confirmation ∈ confirmations, current confirmation actualPlayersAgain

/-- `begin_execution` is called. -/
def ReachesExecution (env : BlockEnv A B C T) (s : BlockService) (block : B)
    (confirmations : List C) : Prop :=
  result (checkExtBlock env block confirmations) ⟨s, []⟩ = .ok ⟨⟩

/-- What the filter lets pass. -/
def Passes (s : BlockService) (confirmation : C) (actualPlayers : List String) : Prop :=
  Confirmable.getPlayerId confirmation ∈ actualPlayers ∨
    Confirmable.getBlockRound confirmation < s.actualRound

/-- A confirmation of a current player, of the current round or a later one. -/
def Current (s : BlockService) (confirmation : C) (actualPlayers : List String) : Prop :=
  Confirmable.getPlayerId confirmation ∈ actualPlayers ∧
    s.actualRound ≤ Confirmable.getBlockRound confirmation

omit [Executable B] [Transactable T] in
theorem filter_ok_iff {s : BlockService} {confirmations : List C} {actualPlayers : List String}
    {h : Handling A B C T} :
    result (if (confirmations.any fun confirmation =>
        !actualPlayers.contains (Confirmable.getPlayerId confirmation) &&
          decide (s.actualRound ≤ Confirmable.getBlockRound confirmation)) = true
      then throw (.chain .confirmationError) else pure ⟨⟩ : Handler A B C T PUnit) h = .ok ⟨⟩ ↔
      ∀ confirmation ∈ confirmations, Passes s confirmation actualPlayers := by
  have passes : ∀ confirmation : C,
      (!actualPlayers.contains (Confirmable.getPlayerId confirmation) &&
        decide (s.actualRound ≤ Confirmable.getBlockRound confirmation)) = false ↔
        Passes s confirmation actualPlayers := by
    intro confirmation
    rw [Bool.and_eq_false_iff, Bool.not_eq_false', List.contains_iff_mem, decide_eq_false_iff_not,
      UInt8.not_le, Passes]
  split
  · next refused =>
    refine iff_of_false ?_ ?_
    · intro h
      cases h
    · intro all
      obtain ⟨confirmation, hmem, refuses⟩ := List.any_eq_true.mp refused
      rw [(passes confirmation).mpr (all confirmation hmem)] at refuses
      cases refuses
  · next accepted =>
    refine iff_of_true rfl ?_
    intro confirmation hmem
    rw [Bool.not_eq_true, List.any_eq_false] at accepted
    exact (passes confirmation).mp (Bool.eq_false_iff.mpr (accepted confirmation hmem))

omit [Transactable T] in
theorem reachesExecution_iff (env : BlockEnv A B C T) (s : BlockService) (block : B)
    (confirmations : List C) :
    ReachesExecution env s block confirmations ↔
      Follows env s block (Passes s) confirmations := by
  unfold ReachesExecution checkExtBlock
  constructor
  · intro h
    obtain ⟨verified, h⟩ := guard_ok_iff.mp h
    cases hbuilder : Executable.getBuilderId block with
    | none =>
      rw [hbuilder] at h
      cases h
    | some builderId =>
      rw [hbuilder] at h
      obtain ⟨height, h⟩ := guard_ok_iff.mp (service_bind_ok_iff.mp h)
      obtain ⟨prevHash, h⟩ := guard_ok_iff.mp h
      obtain ⟨actualPlayers, hplayers, h⟩ := expect_bind_ok_iff.mp h
      obtain ⟨named, h⟩ := guard_ok_iff.mp h
      obtain ⟨actualPlayersAgain, hagain, h⟩ := expect_bind_ok_iff.mp h
      obtain ⟨namedAgain, h⟩ := guard_ok_iff.mp h
      refine ⟨by simpa using verified, not_not.mp height, not_not.mp prevHash, builderId, hbuilder,
        actualPlayers, hplayers, by simpa using named, actualPlayersAgain, hagain,
        by simpa using namedAgain, filter_ok_iff.mp h⟩
  · rintro ⟨verified, height, prevHash, builderId, hbuilder, actualPlayers, hplayers, named,
      actualPlayersAgain, hagain, namedAgain, passes⟩
    refine guard_ok_iff.mpr ⟨by simpa using verified, ?_⟩
    rw [hbuilder]
    refine service_bind_ok_iff.mpr (guard_ok_iff.mpr ⟨not_not.mpr height, ?_⟩)
    refine guard_ok_iff.mpr ⟨not_not.mpr prevHash, ?_⟩
    refine expect_bind_ok_iff.mpr ⟨actualPlayers, hplayers, ?_⟩
    refine guard_ok_iff.mpr ⟨by simpa using named, ?_⟩
    refine expect_bind_ok_iff.mpr ⟨actualPlayersAgain, hagain, ?_⟩
    exact guard_ok_iff.mpr ⟨by simpa using namedAgain, filter_ok_iff.mpr passes⟩

omit [Transactable T] in
theorem checkExtBlock_quiet (env : BlockEnv A B C T) (block : B) (confirmations : List C)
    (h : Handling A B C T) : after (checkExtBlock env block confirmations) h = h := by
  have quietGuard : ∀ {c : Prop} [Decidable c] {e : BlockStop} {f : PUnit → Handler A B C T PUnit}
      {x : Handler A B C T PUnit}, after x h = h →
      after (if c then throw e >>= f else x) h = h := by
    intro c _ e f x quiet
    split
    · rfl
    · exact quiet
  unfold checkExtBlock
  apply quietGuard
  cases Executable.getBuilderId block with
  | none => rfl
  | some builderId =>
    refine after_quiet_bind rfl fun s => quietGuard (quietGuard ?_)
    refine after_quiet_bind (expect_quiet _ h) fun players => quietGuard ?_
    refine after_quiet_bind (expect_quiet _ h) fun players => quietGuard ?_
    split <;> rfl

/-- The checks leave everything as it is, so the execution begins in the state of the call. -/
theorem verifyExtBlock_of_reaches {env : BlockEnv A B C T} {s : BlockService} {block : B}
    {confirmations : List C} (reached : ReachesExecution env s block confirmations)
    (txsHashes : List Hash) :
    after (verifyExtBlock env block txsHashes confirmations) ⟨s, []⟩ =
        after (beginExecution env block txsHashes) ⟨s, []⟩ ∧
      result (verifyExtBlock env block txsHashes confirmations) ⟨s, []⟩ =
        result (beginExecution env block txsHashes) ⟨s, []⟩ := by
  have begun := bind_ok (f := fun _ => beginExecution env block txsHashes) reached
  rw [checkExtBlock_quiet] at begun
  rw [verifyExtBlock_eq]
  exact begun

omit [Transactable T] in
/-- A call that reaches the execution has met all the conditions exactly if no confirmation
is of an earlier round. -/
theorem follows_iff_noOldRound (env : BlockEnv A B C T) (s : BlockService) (block : B)
    (confirmations : List C) (reached : ReachesExecution env s block confirmations) :
    Follows env s block (Current s) confirmations ↔
      ∀ confirmation ∈ confirmations, s.actualRound ≤ Confirmable.getBlockRound confirmation := by
  constructor
  · rintro ⟨-, -, -, builderId, -, actualPlayers, -, -, actualPlayersAgain, -, -, current⟩
    exact fun confirmation hmem => (current confirmation hmem).2
  · intro rounds
    obtain ⟨verified, height, prevHash, builderId, hbuilder, actualPlayers, hplayers, named,
      actualPlayersAgain, hagain, namedAgain, passes⟩ := (reachesExecution_iff _ _ _ _).mp reached
    refine ⟨verified, height, prevHash, builderId, hbuilder, actualPlayers, hplayers, named,
      actualPlayersAgain, hagain, namedAgain, fun confirmation hmem => ⟨?_, rounds _ hmem⟩⟩
    rcases passes confirmation hmem with player | old
    · exact player
    · exact absurd (rounds confirmation hmem) (UInt8.not_le.mpr old)

end BlockService

namespace Sample

/-- Alice and bob are the players in both answers. -/
def twoPlayersEnv : BlockEnv Hash Block Confirmation Transaction where
  now := 1
  isLeader := .failed
  builtFrom := .failed
  unconfirmedHashes := .failed
  actualPlayers := .answer ["alice", "bob"]
  actualPlayersAgain := .answer ["alice", "bob"]
  getTxs _ := .failed
  getFullBlock _ := .failed
  getNeighbors := .failed
  getLastBlockInfo _ := .failed
  iterate := id

/-- Alice's block service in the given round of height one. -/
def inRound (round : UInt8) : BlockService :=
  { BlockService.start (keypair 1) "alice" (none : Option Block) with actualRound := round }

theorem confirmed_in_round :
    Follows twoPlayersEnv (inRound 0) (block 1 1 0) (Current (inRound 0))
      [confirmation 2 (block 1 1 0) 0] := by
  have reached : ReachesExecution twoPlayersEnv (inRound 0) (block 1 1 0)
      [confirmation 2 (block 1 1 0) 0] := by
    unfold ReachesExecution
    decide +kernel
  apply (follows_iff_noOldRound _ _ _ _ reached).mpr
  decide +kernel

/-- In round one a confirmation of round zero by carol, who is no player, passes. -/
theorem stranger_passes :
    ReachesExecution twoPlayersEnv (inRound 1) (block 1 1 0) [confirmation 3 (block 1 1 0) 0] ∧
      Confirmable.getPlayerId (confirmation 3 (block 1 1 0) 0) = "carol" ∧
      ¬ Follows twoPlayersEnv (inRound 1) (block 1 1 0) (Current (inRound 1))
        [confirmation 3 (block 1 1 0) 0] := by
  have reached : ReachesExecution twoPlayersEnv (inRound 1) (block 1 1 0)
      [confirmation 3 (block 1 1 0) 0] := by
    unfold ReachesExecution
    decide +kernel
  refine ⟨reached, by decide +kernel, ?_⟩
  rintro ⟨-, -, -, builderId, -, actualPlayers, -, -, actualPlayersAgain, -, -, current⟩
  have inTime := (current (confirmation 3 (block 1 1 0) 0) List.mem_cons_self).2
  exact absurd inTime (by decide +kernel)

end Sample

end Trinci
