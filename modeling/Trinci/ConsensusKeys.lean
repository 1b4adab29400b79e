import Trinci.AccountIds
import Trinci.PeerReplies

/-!
# Ids that the consensus service asks for

A handler asks a confirmation or a block for the account id of its key: for the line it
logs first, for a check against the players, before a vote. The id of a key on a curve that
is too long for its headers is a panic. The handlers below are those of the service with
each id asked for where the source asks for it, so they return less often, and what they
return is the same.
-/

namespace Trinci

open StepMachines

/-! ## Panics on top of panics -/

/-- A computation with more panics than another one: what it returns, the other one returns
as well, and where `fits` holds it returns all of that. -/
structure Guarded {E E' α : Type} (fits : Prop) (x : Except E α) (y : Except E' α) : Prop where
  sound : ∀ a, x = .ok a → y = .ok a
  complete : fits → ∀ a, y = .ok a → x = .ok a

section Guards

variable {E E' K α β : Type} {fits : Prop}

theorem isOk_mapError_iff {x : Except K α} {f : K → E} {a : α} :
    x.mapError f = .ok a ↔ x = .ok a := by
  cases x with
  | error k =>
    constructor
    · intro h
      cases h
    · intro h
      cases h
  | ok b => exact ⟨fun h => congrArg _ (Except.ok.inj h), fun h => congrArg _ (Except.ok.inj h)⟩

theorem Guarded.returned (a : α) : Guarded fits (.ok a : Except E α) (.ok a : Except E' α) where
  sound _ h := congrArg _ (Except.ok.inj h)
  complete _ _ h := congrArg _ (Except.ok.inj h)

theorem Guarded.panicked (e : E) (e' : E') :
    Guarded fits (.error e : Except E α) (.error e' : Except E' α) where
  sound _ h := nomatch h
  complete _ _ h := nomatch h

theorem Guarded.lifted (f : E' → E) (y : Except E' α) : Guarded fits (y.mapError f) y where
  sound _ := isOk_mapError_iff.mp
  complete _ _ := isOk_mapError_iff.mpr

theorem Guarded.bind {x : Except E α} {y : Except E' α} {f : α → Except E β} {g : α → Except E' β}
    (first : Guarded fits x y) (later : ∀ a, y = .ok a → Guarded fits (f a) (g a)) :
    Guarded fits (x >>= f) (y >>= g) where
  sound b h := by
    obtain ⟨a, hx, hf⟩ := bind_eq_ok.mp h
    have hy := first.sound a hx
    exact bind_eq_ok.mpr ⟨a, hy, (later a hy).sound b hf⟩
  complete hfits b h := by
    obtain ⟨a, hy, hg⟩ := bind_eq_ok.mp h
    exact bind_eq_ok.mpr ⟨a, first.complete hfits a hy, (later a hy).complete hfits b hg⟩

/-- Something is asked for first that the other computation has no need of. -/
theorem Guarded.asked {x : Except E α} {f : α → Except E β} {y : Except E' β}
    (answers : fits → ∃ a, x = .ok a) (later : ∀ a, x = .ok a → Guarded fits (f a) y) :
    Guarded fits (x >>= f) y where
  sound b h := by
    obtain ⟨a, hx, hf⟩ := bind_eq_ok.mp h
    exact (later a hx).sound b hf
  complete hfits b h := by
    obtain ⟨a, hx⟩ := answers hfits
    exact bind_eq_ok.mpr ⟨a, hx, (later a hx).complete hfits b h⟩

end Guards

/-! ## Ids that may panic -/

class AsksPlayerId (C : Type) [Confirmable C] where
  signer : C → TrinciPublicKey
  getPlayerIdOrPanic : C → Except KeyPanic String
  getPlayerId_eq_ok_iff : ∀ c id, getPlayerIdOrPanic c = .ok id ↔
    (signer c).FitsHeaders ∧ Confirmable.getPlayerId c = id
  signer_sign : ∀ kp rng hash height round key,
    signer (Confirmable.sign kp rng (Confirmable.new hash height round key)) = key

/-- The key of the builder, if the block has one, has an id. -/
def BuilderFits {B : Type} [Executable B] (block : B) : Prop :=
  ∀ key, Executable.getBuilderPubKey block = some key → key.FitsHeaders

instance {B : Type} [Executable B] : DecidablePred (BuilderFits (B := B)) := fun block =>
  inferInstanceAs (Decidable (∀ key ∈ Executable.getBuilderPubKey block, key.FitsHeaders))

class AsksBuilderId (B : Type) [Executable B] where
  getBuilderIdOrPanic : B → Except KeyPanic (Option String)
  getBuilderId_eq_ok_iff : ∀ b id, getBuilderIdOrPanic b = .ok id ↔
    BuilderFits b ∧ Executable.getBuilderId b = id
  builderFits_sign : ∀ kp rng (b : B), BuilderFits (Executable.sign kp rng b) ↔ BuilderFits b

instance [Primitives] [Serialize ConfirmationData] : AsksPlayerId Confirmation where
  signer confirmation := confirmation.data.signer
  getPlayerIdOrPanic := Confirmation.getPlayerIdOrPanic
  getPlayerId_eq_ok_iff := getPlayerIdOrPanic_eq_ok_iff
  signer_sign _ _ _ _ _ _ := rfl

instance [Primitives] [Serialize BlockData] : AsksBuilderId Block where
  getBuilderIdOrPanic := Block.getBuilderIdOrPanic
  getBuilderId_eq_ok_iff := getBuilderIdOrPanic_eq_ok_iff
  builderFits_sign _ _ _ := Iff.rfl

/-- What ends the thread of the service. -/
inductive ServicePanic
  | consensus (panic : ConsensusPanic)
  | key (panic : KeyPanic)
  deriving DecidableEq

variable {A B C T : Type} [Executable B] [Confirmable C] [AsksPlayerId C] [AsksBuilderId B]

open AsksPlayerId AsksBuilderId

/-! ## The handlers -/

namespace ConsensusService

/-- A panic of the service itself. -/
def lift {α : Type} (x : Except ConsensusPanic α) : Except ServicePanic α :=
  x.mapError .consensus

/-- The check of `verify_block_proposal_quorum`, which ends at the first confirmation that is
not a player's. -/
def allPlayers (s : ConsensusService B C) (confirmations : List C) : Except KeyPanic Bool :=
  confirmations.allM fun confirmation => do
    let playerId ← getPlayerIdOrPanic confirmation
    return s.players.playersIds.contains playerId

/-- The check of `verify_confirmations_from_peer`, which ends at the first confirmation that
is not a player's or does not verify. -/
def anyRefused (s : ConsensusService B C) (confirmations : List C) : Except KeyPanic Bool :=
  confirmations.anyM fun confirmation => do
    let playerId ← getPlayerIdOrPanic confirmation
    return !(s.players.playersIds.contains playerId) || !(Confirmable.verify confirmation)

namespace OrPanic

def verifyBlockProposalQuorum (s : ConsensusService B C) (hash : Hash) (height : UInt64)
    (round : UInt8) : Except ServicePanic (ConsensusService B C × List (Output A B C T)) :=
  match s.findProposal hash height round with
  | none => .error (.consensus .quorumWithoutProposal)
  | some proposal =>
    if height = s.height + 1 ∧ proposal.block.isSome then do
      let _ ← (s.allPlayers proposal.receivedConfirmations).mapError .key
      lift (s.verifyBlockProposalQuorum hash height round)
    else lift (s.verifyBlockProposalQuorum hash height round)

/-- The builder is asked for once this node is a player that did not vote yet. -/
def shouldPlayerVote (s : ConsensusService B C) (block : Option (B × List Hash))
    (blockRound : UInt8) : Except ServicePanic Bool :=
  match block with
  | none => .ok false
  | some (block, txsHashes) =>
    if s.isPlayer && !(s.proposalExitPoll.contains (Executable.getHeight block, blockRound)) then do
      let _ ← (getBuilderIdOrPanic block).mapError .key
      return s.shouldPlayerVote (some (block, txsHashes)) blockRound
    else .ok false

variable [Primitives] [DecidableEq C]

def checkNextRoundProposals (env : Env) (s : ConsensusService B C) (height : UInt64)
    (round : UInt8) :
    Except ServicePanic (Bool × ConsensusService B C × List (Output A B C T)) :=
  let (groups, found) := findNextRound height round s.blockProposals
  let s := { s with blockProposals := groups }
  match found.bind fun proposal => proposal.block with
  | none => .ok (false, s, [])
  | some (block, txsHashes) => do
    if ← shouldPlayerVote s (some (block, txsHashes)) round then
      let (s, confirmation, voted) := s.voteProposal env block round
      let s ← lift (s.updateProposals env [confirmation] (some (block, txsHashes)))
      let (s, out) ← verifyBlockProposalQuorum s (Executable.getHash block) height round
      return (true, s, voted ++ out)
    else
      let (s, out) ← verifyBlockProposalQuorum s (Executable.getHash block) height round
      return (true, s, out)

def verifyConfirmationsFromPeer (env : Env) (s : ConsensusService B C)
    (confirmations : List C) (block : Option (B × List Hash)) :
    Except ServicePanic (ConsensusService B C × List (Output A B C T)) :=
  match confirmations with
  | [] => .error (.consensus .verifyWithoutConfirmation)
  | first :: _ => do
    let refused ← (s.anyRefused confirmations).mapError .key
    if refused || Confirmable.getBlockHeight first != s.height + 1 ||
      decide (Confirmable.getBlockRound first < s.actualRound)
    then return (s, [])
    else
      let s ← lift (s.updateProposals env confirmations block)
      match block with
      | some (block, txsHashes) =>
        return (s, [.msg .blockService (.blockFromPeer block first txsHashes)])
      | none =>
        if s.consolidationInProgress.isNone then
          verifyBlockProposalQuorum s (Confirmable.getBlockHash first)
            (Confirmable.getBlockHeight first) (Confirmable.getBlockRound first)
        else return (s, [])

def handleProposalAfterBuild (env : Env) (s : ConsensusService B C) (block : B)
    (blockRound : UInt8) (txsHashes : List Hash) :
    Except ServicePanic (ConsensusService B C × List (Output A B C T)) :=
  if s.proposalExitPoll.contains (Executable.getHeight block, blockRound) then .ok (s, [])
  else do
    let block := Executable.sign s.keypair env.blockRng block
    let s := s.recordVote block blockRound
    let confirmation := s.confirm env block blockRound
    let s ← lift (s.updateProposals env [confirmation] (some (block, txsHashes)))
    let (s, out) ←
      if s.players.playersIds.length = 1 then
        verifyBlockProposalQuorum s (Executable.getHash block) (Executable.getHeight block)
          blockRound
      else .ok (s, [])
    return (s, out ++
      [.msg .nodeInterface (.propagateBlockToPeers block confirmation txsHashes)])

def handleBlockExecutionEnded (env : Env) (s : ConsensusService B C) (block : B)
    (txsHashes : List Hash) :
    Except ServicePanic (ConsensusService B C × List (Output A B C T)) :=
  let hash := Executable.getHash block
  let height := Executable.getHeight block
  match s.findProposal hash height s.actualRound with
  | none => .error (.consensus .executionWithoutProposal)
  | some proposal => do
    let vote ← shouldPlayerVote s (some (block, txsHashes)) s.actualRound
    let (s, confirmations, voted) :=
      if vote then
        let (s, confirmation, voted) := s.voteProposal env block s.actualRound
        (s, proposal.receivedConfirmations ++ [confirmation], voted)
      else (s, proposal.receivedConfirmations, [])
    let s ← lift (s.updateProposals env confirmations (some (block, txsHashes)))
    if s.consolidationInProgress.isNone then
      let (s, out) ← verifyBlockProposalQuorum s hash height s.actualRound
      return (s, voted ++ out)
    else return (s, voted)

def handleMessages (env : Env) (s : ConsensusService B C) (msg : Msg A B C T) :
    Except ServicePanic (ConsensusService B C × List (Output A B C T)) :=
  match msg with
  | .blockElectionFailed heightToBuild newRound =>
    if s.consolidationInProgress = some heightToBuild then .ok (s, [])
    else do
      let s := { s with actualRound := newRound }
      let refresh : Output A B C T := .msg .blockService (.refreshRound newRound)
      let (proposed, s, out) ← checkNextRoundProposals env s heightToBuild s.actualRound
      return (s, refresh :: out ++
        if proposed then [] else s.blockElectionFailed heightToBuild newRound)
  -- the line that is logged first names the player, and that of a block its builder
  | .blockConfirmationFromPeer confirmation => do
    let _ ← (getPlayerIdOrPanic confirmation).mapError .key
    if (s.actualRound ≤ Confirmable.getBlockRound confirmation ∨
        s.height < Confirmable.getBlockHeight confirmation) ∧
      Confirmable.verify confirmation
    then
      let s ← lift (s.updateProposals env [confirmation] none)
      if s.consolidationInProgress.isNone then
        verifyBlockProposalQuorum s (Confirmable.getBlockHash confirmation)
          (Confirmable.getBlockHeight confirmation) (Confirmable.getBlockRound confirmation)
      else return (s, [])
    else return (s, [])
  | .blockConsolidated block txsHashes players => do
    let _ ← (getBuilderIdOrPanic block).mapError .key
    lift (s.handleMessages env (.blockConsolidated block txsHashes players))
  | .blockFromPeer block confirmation txsHashes => do
    let _ ← (getBuilderIdOrPanic block).mapError .key
    lift (s.handleBlockFromPeer env block confirmation txsHashes)
  | .blockExecutionEnded block txsHashes => handleBlockExecutionEnded env s block txsHashes
  | .proposalAfterBuild block blockRound txsHashes =>
    handleProposalAfterBuild env s block blockRound txsHashes
  | .verifyConfirmations block confirmations =>
    verifyConfirmationsFromPeer env s confirmations block
  -- the others ask for no id
  | msg => lift (s.handleMessages env msg)

def handle (s : ConsensusService B C) (input : Input A B C T) :
    Except ServicePanic (ConsensusService B C × List (Output A B C T)) :=
  handleMessages input.env s input.msg

end OrPanic

/-! ## The keys in the proposals -/

/-- Every key fits that comes to its turn in `anyRefused`. -/
def FitInTurn (s : ConsensusService B C) : List C → Prop
  | [] => True
  | confirmation :: rest => (signer confirmation).FitsHeaders ∧
      (Confirmable.getPlayerId confirmation ∈ s.players.playersIds →
        Confirmable.verify confirmation = true → s.FitInTurn rest)

/-- The keys that the first check of a message asks for fit. -/
def FitsChecks (s : ConsensusService B C) : Msg A B C T → Prop
  | .verifyConfirmations _ confirmations => s.FitInTurn confirmations
  | .blockConfirmationFromPeer confirmation => (signer confirmation).FitsHeaders
  | _ => True

/-- The block that a message brings into a proposal: filled in, executed or built. -/
def bringsBlock (s : ConsensusService B C) (msg : Msg A B C T) : Option B :=
  match msg with
  | .blockExecutionEnded block _ => some block
  | .proposalAfterBuild block _ _ => some block
  | msg => (s.fills msg).map Prod.snd

/-- The keys that a message brings into the proposals fit. -/
def BringsFitting (s : ConsensusService B C) (msg : Msg A B C T) : Prop :=
  (∀ c ∈ (s.incoming msg).1, (signer c).FitsHeaders) ∧ ∀ b ∈ s.bringsBlock msg, BuilderFits b

instance (s : ConsensusService B C) (msg : Msg A B C T) : Decidable (s.BringsFitting msg) :=
  inferInstanceAs (Decidable (_ ∧ _))

/-- This node's key and all keys in the proposals fit. -/
structure KeysFit [Primitives] (s : ConsensusService B C) : Prop where
  own : s.keypair.publicKey.FitsHeaders
  received : s.Every fun _ proposal => ∀ c ∈ proposal.receivedConfirmations,
    (signer c).FitsHeaders
  blocks : s.Every (BlocksAre fun _ _ b => BuilderFits b)

section Checks

variable {s : ConsensusService B C}

omit [Executable B] [AsksBuilderId B] in
theorem askPlayerId_isOk (c : C) (fits : (signer c).FitsHeaders) :
    getPlayerIdOrPanic c = .ok (Confirmable.getPlayerId c) :=
  (getPlayerId_eq_ok_iff c _).mpr ⟨fits, rfl⟩

omit [Executable B] [AsksBuilderId B] in
theorem allPlayers_cons {c : C} {id : String} (named : getPlayerIdOrPanic c = .ok id)
    (rest : List C) : s.allPlayers (c :: rest) =
      if s.players.playersIds.contains id then s.allPlayers rest else .ok false := by
  rw [allPlayers, List.allM, named]
  dsimp only [bind, Except.bind, pure, Except.pure]
  cases s.players.playersIds.contains id <;> rfl

omit [Executable B] [AsksBuilderId B] in
theorem allPlayers_isOk {confirmations : List C}
    (fit : ∀ c ∈ confirmations, (signer c).FitsHeaders) :
    ∃ all, s.allPlayers confirmations = .ok all := by
  induction confirmations with
  | nil => exact ⟨true, rfl⟩
  | cons c rest ih =>
    rw [allPlayers_cons (askPlayerId_isOk c (fit c List.mem_cons_self))]
    split
    · exact ih fun d hd => fit d (List.mem_cons_of_mem _ hd)
    · exact ⟨false, rfl⟩

omit [Executable B] [AsksBuilderId B] in
theorem anyRefused_cons {c : C} {id : String} (named : getPlayerIdOrPanic c = .ok id)
    (rest : List C) : s.anyRefused (c :: rest) =
      if !(s.players.playersIds.contains id) || !(Confirmable.verify c) then .ok true
      else s.anyRefused rest := by
  rw [anyRefused, List.anyM, named]
  dsimp only [bind, Except.bind, pure, Except.pure]
  cases !(s.players.playersIds.contains id) || !(Confirmable.verify c) <;> rfl

omit [Executable B] [AsksBuilderId B] in
theorem anyRefused_eq_ok_iff (confirmations : List C) (refused : Bool) :
    s.anyRefused confirmations = .ok refused ↔ s.FitInTurn confirmations ∧
      (confirmations.any fun confirmation =>
        !(s.players.playersIds.contains (Confirmable.getPlayerId confirmation)) ||
          !(Confirmable.verify confirmation)) = refused := by
  induction confirmations with
  | nil => simp [anyRefused, FitInTurn, pure, Except.pure]
  | cons c rest ih =>
    rw [FitInTurn, List.any_cons]
    by_cases fits : (signer c).FitsHeaders
    · rw [anyRefused_cons (askPlayerId_isOk c fits)]
      by_cases accepted : Confirmable.getPlayerId c ∈ s.players.playersIds ∧
          Confirmable.verify c = true
      · simp [fits, accepted.1, accepted.2, ih]
      · have ends : Confirmable.getPlayerId c ∈ s.players.playersIds →
            Confirmable.verify c = true → s.FitInTurn rest :=
          fun known verifies => absurd ⟨known, verifies⟩ accepted
        have refuses : (!(s.players.playersIds.contains (Confirmable.getPlayerId c)) ||
            !(Confirmable.verify c)) = true := by
          simpa [Classical.or_iff_not_imp_left] using accepted
        rw [refuses, Bool.true_or, if_pos rfl]
        exact ⟨fun h => ⟨⟨fits, ends⟩, Except.ok.inj h⟩, fun h => congrArg _ h.2⟩
    · refine iff_of_false ?_ fun h => fits h.1.1
      cases hask : getPlayerIdOrPanic c with
      | ok id => exact absurd ((getPlayerId_eq_ok_iff c id).mp hask).1 fits
      | error p =>
        rw [anyRefused, List.anyM, hask]
        intro h
        cases h

omit [Executable B] [AsksBuilderId B] in
/-- Where none is refused, every key came to its turn. -/
theorem FitInTurn.all {confirmations : List C} (fit : s.FitInTurn confirmations)
    (accepted : (confirmations.any fun confirmation =>
      !(s.players.playersIds.contains (Confirmable.getPlayerId confirmation)) ||
        !(Confirmable.verify confirmation)) = false) :
    ∀ c ∈ confirmations, (signer c).FitsHeaders := by
  induction confirmations with
  | nil => simp
  | cons c rest ih =>
    obtain ⟨fits, later⟩ := fit
    simp only [List.any_cons, Bool.or_eq_false_iff, Bool.not_eq_false'] at accepted
    obtain ⟨⟨known, verifies⟩, accepted⟩ := accepted
    have rest_fits := ih (later (List.contains_iff_mem.mp known) verifies) accepted
    intro d hd
    rcases List.mem_cons.mp hd with rfl | hd
    · exact fits
    · exact rest_fits d hd

end Checks

/-! ## An update keeps the keys -/

section Updates

variable [Primitives] [DecidableEq C] {env : Env} {s s' : ConsensusService B C}

omit [Executable B] [Confirmable C] [AsksPlayerId C] [AsksBuilderId B] [Primitives] in
theorem received_foldl_absorb {block : Option (B × List Hash)} {confirmations : List C}
    {proposal : BlockProposal B C} {c : C}
    (h : c ∈ (confirmations.foldl (BlockProposal.absorb block) proposal).receivedConfirmations) :
    c ∈ proposal.receivedConfirmations ∨ c ∈ confirmations := by
  induction confirmations generalizing proposal with
  | nil => exact .inl h
  | cons d rest ih =>
    rcases ih h with h | h
    · rw [absorb_received] at h
      split at h
      · exact .inl h
      · rcases List.mem_append.mp h with h | h
        · exact .inl h
        · exact .inr (List.mem_cons.mpr (.inl (List.mem_singleton.mp h)))
    · exact .inr (List.mem_cons_of_mem _ h)

omit [AsksBuilderId B] [DecidableEq C] in
theorem KeysFit.congr (h : s.KeysFit) (same : s'.blockProposals = s.blockProposals)
    (key : s'.keypair = s.keypair) : s'.KeysFit where
  own := key ▸ h.own
  received := h.received.congr same
  blocks := h.blocks.congr same

omit [Executable B] [AsksBuilderId B] [Primitives] in
/-- The confirmations in the proposals are those from before and those that are stored. -/
theorem every_received_update {confirmations : List C} {block : Option (B × List Hash)}
    (h : s.Every fun _ proposal => ∀ c ∈ proposal.receivedConfirmations, (signer c).FitsHeaders)
    (updated : s.updateProposals env confirmations block = .ok s')
    (fit : ∀ c ∈ confirmations, (signer c).FitsHeaders) :
    s'.Every fun _ proposal => ∀ c ∈ proposal.receivedConfirmations,
      (signer c).FitsHeaders := by
  obtain ⟨first, rest, rfl⟩ := updateProposals_cons updated
  refine every_updateProposals updated h ?_ fun _ => fit
  intro old found c hc
  rcases received_foldl_absorb hc with hc | hc
  · exact h _ old (findProposal_some found).1 c hc
  · exact fit c hc

omit [AsksBuilderId B] in
/-- Confirmations and a block whose keys fit are stored. -/
theorem KeysFit.update (h : s.KeysFit) {confirmations : List C} {block : Option (B × List Hash)}
    (updated : s.updateProposals env confirmations block = .ok s')
    (fit : ∀ c ∈ confirmations, (signer c).FitsHeaders)
    (fits : ∀ b txsHashes, block = some (b, txsHashes) → BuilderFits b) : s'.KeysFit := by
  have key : s'.keypair = s.keypair := by
    obtain ⟨first, rest, rfl⟩ := updateProposals_cons updated
    rw [updateProposals_eq updated]
  refine ⟨key ▸ h.own, every_received_update h.received updated fit, ?_⟩
  obtain ⟨first, rest, rfl⟩ := updateProposals_cons updated
  refine every_updateProposals updated h.blocks ?_ fun _ => fits
  intro old found
  exact (h.blocks _ old (findProposal_some found).1).foldl_absorb (fun _ => fits) _

omit [AsksBuilderId B] [DecidableEq C] in
theorem KeysFit.tidy {groups : List (UInt64 × List (BlockProposal B C))} (h : s.KeysFit)
    (tidied : s.Tidied groups) :
    ({ s with blockProposals := groups } : ConsensusService B C).KeysFit where
  own := h.own
  received := every_tidied tidied h.received fun _ _ _ fit => fit
  blocks := every_tidied tidied h.blocks fun _ _ _ fit => fit

omit [AsksBuilderId B] [DecidableEq C] in
/-- The confirmation this node signs. -/
theorem confirm_fits (own : s.keypair.publicKey.FitsHeaders) (env : Env) (block : B)
    (round : UInt8) : (signer (s.confirm env block round)).FitsHeaders := by
  rw [ConsensusService.confirm, signer_sign]
  exact own

end Updates

/-! ## The handlers with and without the panics of keys -/

section Handlers

variable [Primitives] {s s' : ConsensusService B C} {fits : Prop}

omit [AsksBuilderId B] in
theorem guarded_quorum (fit : fits → s.KeysFit) (hash : Hash) (height : UInt64) (round : UInt8) :
    Guarded fits (OrPanic.verifyBlockProposalQuorum s hash height round :
        Except ServicePanic (_ × List (Output A B C T)))
      (s.verifyBlockProposalQuorum hash height round) := by
  rw [OrPanic.verifyBlockProposalQuorum]
  cases hfind : s.findProposal hash height round with
  | none =>
    rw [ConsensusService.verifyBlockProposalQuorum, hfind]
    exact .panicked _ _
  | some proposal =>
    dsimp only
    split
    · refine .asked ?_ fun _ _ => .lifted _ _
      intro hfits
      obtain ⟨held, -, -⟩ := findProposal_some hfind
      obtain ⟨all, hall⟩ := allPlayers_isOk (s := s) ((fit hfits).received _ proposal held)
      exact ⟨all, isOk_mapError_iff.mpr hall⟩
    · exact .lifted _ _

omit [Primitives] [Confirmable C] [AsksPlayerId C] in
theorem shouldPlayerVote_isOk {block : B} (txsHashes : List Hash) (round : UInt8)
    (fit : BuilderFits block) :
    ∃ vote, OrPanic.shouldPlayerVote s (some (block, txsHashes)) round = .ok vote := by
  rw [OrPanic.shouldPlayerVote]
  split
  · have named := (getBuilderId_eq_ok_iff block _).mpr ⟨fit, rfl⟩
    exact ⟨_, bind_eq_ok.mpr ⟨_, isOk_mapError_iff.mpr named, rfl⟩⟩
  · exact ⟨_, rfl⟩

omit [Primitives] [Confirmable C] [AsksPlayerId C] in
/-- A node that is no player or has voted does not vote, whoever built the block. -/
theorem shouldPlayerVote_eq {block : Option (B × List Hash)} {round : UInt8} {vote : Bool}
    (h : OrPanic.shouldPlayerVote s block round = .ok vote) :
    vote = s.shouldPlayerVote block round := by
  unfold OrPanic.shouldPlayerVote at h
  split at h
  · exact (Except.ok.inj h).symm
  · split at h
    · obtain ⟨id, -, h⟩ := bind_eq_ok.mp h
      exact (Except.ok.inj h).symm
    · next block txsHashes away =>
      cases h
      rw [ConsensusService.shouldPlayerVote]
      simp only [Bool.not_eq_true] at away
      rw [away]
      rfl

variable [DecidableEq C]

omit [AsksBuilderId B] [DecidableEq C] in
theorem guarded_quorum_unless {c : Prop} [Decidable c] (fit : fits → s.KeysFit) (hash : Hash)
    (height : UInt64) (round : UInt8) :
    Guarded fits (if c then OrPanic.verifyBlockProposalQuorum s hash height round else .ok (s, []) :
        Except ServicePanic (_ × List (Output A B C T)))
      (if c then s.verifyBlockProposalQuorum hash height round else .ok (s, [])) := by
  split
  · exact guarded_quorum fit hash height round
  · exact .returned _

theorem guarded_checkNextRound (fit : fits → s.KeysFit) (env : Env) (height : UInt64)
    (round : UInt8) :
    Guarded fits (OrPanic.checkNextRoundProposals env s height round :
        Except ServicePanic (_ × _ × List (Output A B C T)))
      (s.checkNextRoundProposals env height round) := by
  have tidied : s.Tidied (findNextRound height round s.blockProposals).1 :=
    findNextRound_tidied height round s.actualRound s.blockProposals
  have fit' := fun hfits => (fit hfits).tidy tidied
  rw [OrPanic.checkNextRoundProposals, ConsensusService.checkNextRoundProposals]
  dsimp only
  cases hblock : (findNextRound height round s.blockProposals).2.bind
      fun proposal => proposal.block with
  | none => exact .returned _
  | some entry =>
    obtain ⟨block, txsHashes⟩ := entry
    -- the block is stored, so its builder has an id
    have stored : fits → BuilderFits block := by
      intro hfits
      obtain ⟨proposal, hproposal, hentry⟩ := Option.bind_eq_some_iff.mp hblock
      obtain ⟨-, proposals, hgroup, hmem⟩ := findNextRound_some hproposal
      exact (fit' hfits).blocks height proposal ⟨proposals, hgroup, hmem⟩ block txsHashes hentry
    generalize ({ s with blockProposals := (findNextRound height round s.blockProposals).1 } :
      ConsensusService B C) = t at fit'
    refine .asked (fun hfits => shouldPlayerVote_isOk txsHashes round (stored hfits)) ?_
    intro vote hvote
    rw [shouldPlayerVote_eq hvote]
    dsimp only
    by_cases votes : t.shouldPlayerVote (some (block, txsHashes)) round = true
    · rw [if_pos votes, if_pos votes]
      refine .bind (.lifted _ _) fun t' hupdate => ?_
      have fit'' : fits → t'.KeysFit := by
        intro hfits
        have voted : (t.recordVote block round).KeysFit := (fit' hfits).congr rfl rfl
        refine voted.update hupdate ?_ ?_
        · exact List.forall_mem_singleton.mpr (confirm_fits (fit' hfits).own env block round)
        · rintro b hashes ⟨⟩
          exact stored hfits
      exact .bind (guarded_quorum fit'' _ _ _) fun _ _ => .returned _
    · rw [if_neg votes, if_neg votes]
      exact .bind (guarded_quorum fit' _ _ _) fun _ _ => .returned _

omit [AsksBuilderId B] in
theorem guarded_verifyConfirmations (env : Env) (confirmations : List C)
    (block : Option (B × List Hash)) (fit : fits → s.KeysFit)
    (turns : fits → s.FitInTurn confirmations) :
    Guarded fits (OrPanic.verifyConfirmationsFromPeer env s confirmations block :
        Except ServicePanic (_ × List (Output A B C T)))
      (s.verifyConfirmationsFromPeer env confirmations block) := by
  cases confirmations with
  | nil => exact .panicked _ _
  | cons first rest =>
    rw [OrPanic.verifyConfirmationsFromPeer, ConsensusService.verifyConfirmationsFromPeer]
    refine .asked ?_ ?_
    · intro hfits
      have answers := (anyRefused_eq_ok_iff (s := s) (first :: rest) _).mpr ⟨turns hfits, rfl⟩
      exact ⟨_, isOk_mapError_iff.mpr answers⟩
    · intro refused hrefused
      obtain ⟨inTurn, rfl⟩ := (anyRefused_eq_ok_iff _ _).mp (isOk_mapError_iff.mp hrefused)
      split
      · exact .returned _
      · next accepted =>
        have none_refused := (Bool.or_eq_false_iff.mp (Bool.or_eq_false_iff.mp
          (Bool.eq_false_iff.mpr accepted)).1).1
        have received := inTurn.all none_refused
        refine .bind (.lifted _ _) fun s₁ hupdate => ?_
        cases block with
        | some entry => exact .returned _
        | none =>
          refine guarded_quorum_unless (fun hfits => ?_) _ _ _
          refine (fit hfits).update hupdate received ?_
          rintro b txsHashes ⟨⟩

omit [AsksBuilderId B] in
theorem guarded_proposalAfterBuild (env : Env) (block : B) (round : UInt8)
    (txsHashes : List Hash) :
    Guarded False (OrPanic.handleProposalAfterBuild env s block round txsHashes :
        Except ServicePanic (_ × List (Output A B C T)))
      (s.handleProposalAfterBuild env block round txsHashes) := by
  rw [OrPanic.handleProposalAfterBuild, ConsensusService.handleProposalAfterBuild]
  split
  · exact .returned _
  · refine .bind (.lifted _ _) fun s₁ _ => ?_
    by_cases alone : s₁.players.playersIds.length = 1
    · rw [if_pos alone, if_pos alone]
      exact .bind (guarded_quorum False.elim _ _ _) fun _ _ => .returned _
    · rw [if_neg alone, if_neg alone]
      exact .returned _

theorem guarded_blockExecutionEnded (env : Env) (block : B) (txsHashes : List Hash) :
    Guarded False (OrPanic.handleBlockExecutionEnded env s block txsHashes :
        Except ServicePanic (_ × List (Output A B C T)))
      (s.handleBlockExecutionEnded env block txsHashes) := by
  rw [OrPanic.handleBlockExecutionEnded, ConsensusService.handleBlockExecutionEnded]
  dsimp only
  cases s.findProposal (Executable.getHash block) (Executable.getHeight block) s.actualRound with
  | none => exact .panicked _ _
  | some proposal =>
    refine .asked False.elim fun vote hvote => ?_
    rw [shouldPlayerVote_eq hvote]
    refine .bind (.lifted _ _) fun s₁ _ => ?_
    split
    · exact .bind (guarded_quorum False.elim _ _ _) fun _ _ => .returned _
    · exact .returned _

/-- What a message does, with and without the panics of keys. -/
theorem guarded_handleMessages (env : Env) {msg : Msg A B C T} (fit : fits → s.KeysFit)
    (checks : fits → s.FitsChecks msg) (uses : fits → UsesReplies msg) :
    Guarded fits (OrPanic.handleMessages env s msg) (s.handleMessages env msg) := by
  have away {x : Except ServicePanic (ConsensusService B C × List (Output A B C T))}
      {y : Except ConsensusPanic (ConsensusService B C × List (Output A B C T))}
      (other : ¬ UsesReplies msg) (guarded : Guarded False x y) : Guarded fits x y :=
    ⟨guarded.sound, fun hfits => absurd (uses hfits) other⟩
  cases msg with
  | blockElectionFailed height round =>
    rw [OrPanic.handleMessages, ConsensusService.handleMessages]
    split
    · exact .returned _
    · refine .bind (guarded_checkNextRound (fun hfits => ?_) _ _ _) fun _ _ => .returned _
      exact (fit hfits).congr rfl rfl
  | blockConfirmationFromPeer confirmation =>
    rw [OrPanic.handleMessages, ConsensusService.handleMessages]
    refine .asked (fun hfits => ?_) fun id hid => ?_
    · exact ⟨_, isOk_mapError_iff.mpr (askPlayerId_isOk confirmation (checks hfits))⟩
    · have fitting := ((getPlayerId_eq_ok_iff _ _).mp (isOk_mapError_iff.mp hid)).1
      split
      · refine .bind (.lifted _ _) fun s₁ hupdate => guarded_quorum_unless (fun hfits => ?_) _ _ _
        refine (fit hfits).update hupdate ?_ ?_
        · exact List.forall_mem_singleton.mpr fitting
        · rintro b txsHashes ⟨⟩
      · exact .returned _
  | verifyConfirmations block confirmations =>
    exact guarded_verifyConfirmations env confirmations block fit checks
  | blockExecutionEnded block txsHashes =>
    exact away id (guarded_blockExecutionEnded env block txsHashes)
  | proposalAfterBuild block round txsHashes =>
    exact away id (guarded_proposalAfterBuild env block round txsHashes)
  | blockConsolidated block txsHashes players =>
    exact away id (.asked False.elim fun _ _ => .lifted _ _)
  | blockFromPeer block confirmation txsHashes =>
    exact away id (.asked False.elim fun _ _ => .lifted _ _)
  | _ =>
    simp only [OrPanic.handleMessages]
    exact .lifted _ _

end Handlers

/-! ## Every run -/

section Runs

variable [Primitives] [DecidableEq C] {env : Env} {s₀ s s' : ConsensusService B C}
  {msg : Msg A B C T} {out : List (Output A B C T)}

omit [AsksPlayerId C] [AsksBuilderId B] [Primitives] [DecidableEq C] in
theorem bringsBlock_of_fills {first : C} {b : B} (h : s.fills msg = some (first, b)) :
    s.bringsBlock msg = some b := by
  unfold bringsBlock
  split
  · simp [fills, incoming] at h
  · simp [fills, incoming] at h
  · rw [h]
    rfl

omit [AsksBuilderId B] [DecidableEq C] in
/-- The keys of the confirmations that an update stores fit. -/
theorem KeysFit.source (h : s.KeysFit) (own : s₀.keypair = s.keypair)
    (brings : s₀.BringsFitting msg) {confirmations : List C} {block : Option (B × List Hash)}
    {t : ConsensusService B C} (source : Source env s₀ msg s confirmations block out t) :
    ∀ c ∈ confirmations, (signer c).FitsHeaders := by
  cases source with
  | taken hincoming _ =>
    have fit := brings.1
    rw [hincoming] at fit
    exact fit
  | @executed _ _ proposal _ hfound =>
    exact h.received _ proposal (findProposal_some hfound).1
  | @voted _ b _ round olds hcasts _ =>
    have stored : ∀ c ∈ olds, (signer c).FitsHeaders := by
      cases hcasts with
      | @executed _ _ proposal hfound =>
        exact h.received _ proposal (findProposal_some hfound).1
      | nextRound _ _ _ =>
        intro c hc
        cases hc
    rw [List.forall_mem_append]
    exact ⟨stored, List.forall_mem_singleton.mpr (confirm_fits (by exact h.own) env b round)⟩
  | @built b round _ _ _ =>
    refine List.forall_mem_singleton.mpr (confirm_fits ?_ env b round)
    rw [own]
    exact h.own

theorem KeysFit.effect (h : s.KeysFit) (own : s.keypair = s₀.keypair)
    (brings : s₀.BringsFitting msg) (headed : s.Every Headed)
    (effect : Effect env s₀ msg s out s') : s'.KeysFit where
  own := by
    rw [(effect_signedBy own effect).1, ← own]
    exact h.own
  received := by
    refine effect_every (fun _ _ _ fit => fit) h.received effect ?_
    intro confirmations block t source hupdate
    have held := h.received.congr (source_blockProposals source)
    exact every_received_update held hupdate (h.source own.symm brings source)
  blocks := by
    refine effect_blocks (fun _ _ _ fits => fits) ?_ ?_ ?_ headed h.blocks effect
    · intro first b hfills
      exact brings.2 b (bringsBlock_of_fills hfills)
    · rintro b txsHashes rfl
      exact brings.2 b rfl
    · rintro b round txsHashes rfl
      exact (builderFits_sign _ _ _).mpr (brings.2 b rfl)

theorem handle_keysFit {input : Input A B C T} (tabled : Tabled s) (h : s.KeysFit)
    (brings : s.BringsFitting input.msg) (step : s.handle input = .ok (s', out)) : s'.KeysFit := by
  obtain ⟨out', chain, -⟩ := handleMessages_effects step
  have all := Chain.invariant
    (fun _ t => Tabled t ∧ t.KeysFit ∧ t.keypair = s.keypair) ?_ chain ⟨tabled, h, rfl⟩
  · exact all.2.1
  · rintro _ t _ t' ⟨ht, hfit, key⟩ effect
    have headed : t.Every Headed := fun height proposal held =>
      (ht.proposals height proposal held).headed
    exact ⟨effect_tabled ht effect, hfit.effect key brings headed effect,
      (effect_signedBy key effect).1⟩

omit [AsksBuilderId B] [AsksPlayerId C] [DecidableEq C] [Confirmable C] [Primitives] in
theorem start_keypair {keypair : TrinciKeyPair} {nodeId : String} {players : Players}
    {block : Option B} (h : start env keypair nodeId players block = .ok (s, out)) :
    s.keypair = keypair := by
  unfold start at h
  split at h
  · cases h
  · split at h
    · cases h
      rfl
    · dsimp only at h
      split at h
      · obtain ⟨⟨leader, rfl⟩, -⟩ := drawNewLeader_ok h
        rfl
      · cases h
        rfl

/-- What the service does with the panics of keys it does without them. -/
theorem handle_of_orPanic {input : Input A B C T}
    (step : OrPanic.handle s input = .ok (s', out)) : s.handle input = .ok (s', out) := by
  have guarded : Guarded False (OrPanic.handleMessages input.env s input.msg)
      (s.handleMessages input.env input.msg) :=
    guarded_handleMessages _ False.elim False.elim False.elim
  exact guarded.sound _ step

/-- Every step of the service is one without the panics of keys. -/
theorem run_handle {trace : Trace A B C T} (run : Run (Computes OrPanic.handle) s₀ trace s) :
    Run (Computes handle) s₀ trace s := by
  induction run with
  | nil => exact .nil
  | snoc _ step ih => exact ih.snoc (handle_of_orPanic step)

/-- A reply is handled without a panic exactly if it has a confirmation and the keys fit
that its first check asks for. -/
theorem orPanic_isOk_iff {input : Input A B C T} (tabled : Tabled s) (own : OwnHashes s)
    (fit : s.KeysFit) (uses : UsesReplies input.msg) :
    (∃ s' out, OrPanic.handle s input = .ok (s', out)) ↔
      HasConfirmation input.msg ∧ s.FitsChecks input.msg := by
  constructor
  · rintro ⟨s', out, step⟩
    have plain := handle_of_orPanic step
    refine ⟨(handle_isOk_iff tabled own uses).mp ⟨s', out, plain⟩, ?_⟩
    obtain ⟨env, msg⟩ := input
    cases msg with
    | verifyConfirmations block confirmations =>
      cases confirmations with
      | nil => trivial
      | cons first rest =>
        obtain ⟨refused, hrefused, -⟩ := bind_eq_ok.mp step
        exact ((anyRefused_eq_ok_iff _ _).mp (isOk_mapError_iff.mp hrefused)).1
    | blockConfirmationFromPeer confirmation =>
      obtain ⟨id, hid, -⟩ := bind_eq_ok.mp step
      exact ((getPlayerId_eq_ok_iff _ _).mp (isOk_mapError_iff.mp hid)).1
    | _ => trivial
  · rintro ⟨confirmed, checks⟩
    obtain ⟨s', out, plain⟩ := (handle_isOk_iff tabled own uses).mpr confirmed
    have guarded : Guarded True (OrPanic.handle s input) (s.handle input) :=
      guarded_handleMessages input.env (fun _ => fit) (fun _ => checks) fun _ => uses
    exact ⟨s', out, guarded.complete trivial _ plain⟩

/-- Over every run of a started service whose own key has an id, in which a block that is
filled in from a peer has the hash its confirmations name and no key without an id enters
the proposals: a reply panics exactly if it has no confirmation or its first check comes to
a key without an id, and a timeout never does. -/
theorem started_replies_isOk_iff {keypair : TrinciKeyPair} {nodeId : String} {players : Players}
    {block : Option B} (started : start env keypair nodeId players block = .ok (s₀, out))
    (fits : keypair.publicKey.FitsHeaders)
    {trace : Trace A B C T} (run : Run (Computes OrPanic.handle) s₀ trace s)
    (named : Along (fun _ e => e.before.fillsNamed e.input.msg = true) trace)
    (brings : Along (fun _ e => e.before.BringsFitting e.input.msg) trace)
    {input : Input A B C T} (uses : UsesReplies input.msg) :
    (∃ s' out, OrPanic.handle s input = .ok (s', out)) ↔
      HasConfirmation input.msg ∧ s.FitsChecks input.msg := by
  have empty := start_blockProposals started
  have all : Tabled s ∧ OwnHashes s ∧ s.KeysFit := by
    refine (run_handle run).invariant (fun _ t => Tabled t ∧ OwnHashes t ∧ t.KeysFit) ?_ ?_
      (named.and brings)
    · refine ⟨tabled_of_empty empty, every_of_empty empty, ?_, every_of_empty empty,
        every_of_empty empty⟩
      rw [start_keypair started]
      exact fits
    · rintro _ t input out t' ⟨ht, hown, hfit⟩ hstep ⟨hnamed, hbrings⟩
      exact ⟨handle_tabled ht hstep, handle_ownHashes ht hown hnamed hstep,
        handle_keysFit ht hfit hbrings hstep⟩
  exact orPanic_isOk_iff all.1 all.2.1 all.2.2 uses

end Runs

end ConsensusService

namespace Sample

open ConsensusService BlockService StepMachines StatefulSteps

/-- Bob knows alice's block by its confirmation and gets it with carol's. -/
def bobIsHelped : List NodeInput :=
  [input (.blockConfirmationFromPeer (confirmation 1 (block 1 1 0) 1)),
    input (.verifyConfirmations (some (block 1 1 0, [])) [confirmation 3 (block 1 1 0) 1])]

/-- Carol's confirmation of alice's block is a reply that bob handles next. -/
theorem helped_bob_goes_on :
    ∃ s' out, OrPanic.handle (finalOf OrPanic.handle (node 2 3) bobIsHelped)
      (input (.verifyConfirmations none [confirmation 3 (block 1 1 0) 1])) = .ok (s', out) :=
  (started_replies_isOk_iff node_started (by decide) (traceOf_run (by decide +kernel))
    (along_of_all (by decide +kernel)) (along_iff_forall.mpr (by decide +kernel))
    (by exact trivial)).mpr ⟨List.cons_ne_nil _ _, by decide, fun _ _ => trivial⟩

/-- Bob's block of height one, which nobody confirmed. -/
def unconfirmedBlock : FullBlock Block Confirmation Transaction :=
  ⟨block 2 1 0, [], []⟩

/-- The proposal bob asks confirmations for: the block of carol, who is no player. -/
def askedProposal : BlockProposal Block Confirmation :=
  ⟨none, (block 3 1 0).getHash, 1, 1, [confirmation 3 (block 3 1 0) 0], 0, 20⟩

/-- The block bob asked for, with alice's confirmation of her own in round one. -/
def misleadingReply : List Confirmation × Option (Block × List Hash) :=
  ([confirmation 1 (block 1 1 1) 1], some (block 3 1 0, []))

def bobIsMisled : List NodeInput :=
  [input (.blockConfirmationFromPeer (confirmation 3 (block 3 1 0) 0)),
    { input .checkOldBlockProposals with env.now := 20 },
    input (.verifyConfirmations misleadingReply.2 misleadingReply.1)]

/-- A confirmation of the block bob asked for, whose key has a byte more than the headers
can take. -/
def longConfirmation : Confirmation where
  data := ⟨(block 3 1 0).getHash, 1, 0, .ecdsa .secp256R1 (List.replicate 230 4)⟩
  signature := []

/-- What ends the thread of a service, if anything does. -/
def panicOf {E α : Type} : Except E α → Option E
  | .ok _ => none
  | .error e => some e

/-- An alignment block without confirmations, a reply without confirmations, a confirmation
with a key that is too long, and, when bob times out to round one, the block that was stored
under the hash of another. -/
theorem replies_panic :
    (.msg .consensusService (.proposalFromAlignmentBlock []) ∈
        (after (retrieveAlignmentBlock (answersFullBlock unconfirmedBlock) requestAttempts)
          ⟨aliceBlockService, []⟩).out ∧
      panicOf (OrPanic.handle (node 1 3) (input (.proposalFromAlignmentBlock []))) =
        some (.consensus .alignmentWithoutConfirmation)) ∧
    ((confirmationsThread askedProposal (fun _ => some ([], none)) :
        List (Output Hash Block Confirmation Transaction)) =
          [.msg .consensusService (.verifyConfirmations none [])] ∧
      panicOf (OrPanic.handle (node 2 2) (input (.verifyConfirmations none []))) =
        some (.consensus .verifyWithoutConfirmation)) ∧
    ((confirmationsThread askedProposal (fun _ => some ([longConfirmation], none)) :
        List (Output Hash Block Confirmation Transaction)) =
          [.msg .consensusService (.verifyConfirmations none [longConfirmation])] ∧
      panicOf (OrPanic.handle (node 2 2) (input (.verifyConfirmations none [longConfirmation]))) =
        some (.key .payloadLength)) ∧
    (Run (Computes OrPanic.handle) (node 2 2) (traceOf OrPanic.handle (node 2 2) bobIsMisled)
        (finalOf OrPanic.handle (node 2 2) bobIsMisled) ∧
      .confirmationsThread askedProposal ∈
        outputs (traceOf OrPanic.handle (node 2 2) bobIsMisled) ∧
      (confirmationsThread askedProposal (fun _ => some misleadingReply) :
        List (Output Hash Block Confirmation Transaction)) =
          [.msg .consensusService
            (.verifyConfirmations misleadingReply.2 misleadingReply.1)] ∧
      panicOf (OrPanic.handle (finalOf OrPanic.handle (node 2 2) bobIsMisled)
        (input (.blockElectionFailed 1 1))) = some (.consensus .quorumWithoutProposal)) := by
  refine ⟨⟨List.mem_cons_self, rfl⟩, ⟨rfl, rfl⟩, ⟨rfl, by decide +kernel⟩,
    traceOf_run (by decide +kernel), ?_, rfl, by decide +kernel⟩
  exact List.mem_cons_self

end Sample

end Trinci
