import Trinci.ConsensusAgreement
import Trinci.ServiceSteps

/-!
# What a service stands for

A message of an honest network brings confirmations that were signed, or those of a
request for a consolidation together with its block. A service that gets only such
messages asks to consolidate a block of the next height, and its players at that moment
back the block. Until a service takes the genesis block it holds no block, so it signs
nothing and asks for nothing.
-/

namespace Trinci

namespace ConsensusService

open StepMachines

universe u

variable {A B C T : Type u} [Executable B] [Confirmable C]

/-! ## Fair messages -/

section Fair

variable {Entered Entered' : C → Prop} {players : Players} {request : B × List C × List Hash}

theorem Backed.mono (h : Backed Entered players request) (later : ∀ c, Entered c → Entered' c) :
    Backed Entered' players request where
  uniform := by
    obtain ⟨round, hall⟩ := h.uniform
    exact ⟨round, fun c hc => ⟨later c (hall c hc).1, (hall c hc).2⟩⟩
  distinct := h.distinct
  members := h.members
  majority := h.majority

omit [Executable B] in
theorem Confirmed.mono {height : UInt64} {proposal : BlockProposal B C}
    (h : Confirmed Entered height proposal) (later : ∀ c, Entered c → Entered' c) :
    Confirmed Entered' height proposal where
  each c hc := ⟨later c (h.each c hc).1, (h.each c hc).2⟩
  distinct := h.distinct
  counted := h.counted

theorem Sound.mono {s : ConsensusService B C} (h : Sound Entered s)
    (later : ∀ c, Entered c → Entered' c) : Sound Entered' s where
  table height proposal held := (h.table height proposal held).mono later
  headed := h.headed
  blocks := h.blocks

variable [DecidableEq B] [DecidableEq C]

/-- What a message brings was signed, or stood behind a request. -/
def Fair (Entered : C → Prop) (msg : Msg A B C T) : Prop :=
  (∀ s : ConsensusService B C, s.incoming msg = ([], none)) ∨
    ∃ (players : Players) (earlier : List (Output A B C T)),
      honest players earlier msg = true ∧ (∀ c ∈ signedIn earlier, Entered c) ∧
        ∀ request ∈ startedIn earlier, Backed Entered players request

theorem Fair.mono {msg : Msg A B C T} (h : Fair Entered msg)
    (later : ∀ c, Entered c → Entered' c) : Fair Entered' msg := by
  refine h.imp_right ?_
  rintro ⟨players, earlier, network, signed, backed⟩
  exact ⟨players, earlier, network, fun c hc => later c (signed c hc),
    fun request hrequest => (backed request hrequest).mono later⟩

theorem Fair.enters {msg : Msg A B C T} (h : Fair Entered msg) (s : ConsensusService B C) :
    s.takesUniform msg = true ∧ s.fillsMatching msg = true ∧
      ∀ c ∈ (s.incoming msg).1, Entered c := by
  obtain nothing | ⟨players, earlier, network, signed, backed⟩ := h
  · have brought := nothing s
    refine ⟨?_, ?_, ?_⟩
    · simp [takesUniform, brought]
    · simp [fillsMatching, fills, brought]
    · simp [brought]
  · exact honest_enters network signed backed

/-- A signed confirmation is fair. -/
theorem fair_confirmation {c : C} (h : Entered c) :
    Fair Entered (.blockConfirmationFromPeer c : Msg A B C T) := by
  refine .inr ⟨⟨[], []⟩, [.msg .nodeInterface (.propagateConfirmationToPeers c)], ?_, ?_, ?_⟩
  · simp [honest, signedIn, Output.signed]
  · simpa [signedIn, Output.signed] using h
  · simp [startedIn, Output.started]

theorem fair_block {b : B} {c : C} {txsHashes : List Hash} (h : Entered c) :
    Fair Entered (.blockFromPeer b c txsHashes : Msg A B C T) := by
  refine .inr ⟨⟨[], []⟩, [.msg .nodeInterface (.propagateConfirmationToPeers c)], ?_, ?_, ?_⟩
  · simp [honest, signedIn, Output.signed]
  · simpa [signedIn, Output.signed] using h
  · simp [startedIn, Output.started]

/-- The confirmations behind a request are fair, by themselves or with its block. -/
theorem fair_alignment (h : Backed Entered players request) :
    Fair Entered (.proposalFromAlignmentBlock request.2.1 : Msg A B C T) := by
  obtain ⟨b, confirmations, txsHashes⟩ := request
  refine .inr ⟨players,
    [.msg .nodeInterface (.startBlockConsolidation b confirmations txsHashes)], ?_, ?_, ?_⟩
  · simp [honest, startedIn, Output.started]
  · simp [signedIn, Output.signed]
  · simpa [startedIn, Output.started] using h

theorem fair_answer (h : Backed Entered players request) {block : Option (B × List Hash)}
    (same : ∀ entry ∈ block, entry.1 = request.1) :
    Fair Entered (.verifyConfirmations block request.2.1 : Msg A B C T) := by
  obtain ⟨b, confirmations, txsHashes⟩ := request
  refine .inr ⟨players,
    [.msg .nodeInterface (.startBlockConsolidation b confirmations txsHashes)], ?_, ?_, ?_⟩
  · exact decide_eq_true ⟨(b, confirmations, txsHashes), List.mem_cons_self, rfl, same⟩
  · simp [signedIn, Output.signed]
  · simpa [startedIn, Output.started] using h

end Fair

/-! ## Requests for the next height -/

section Requests

variable [Primitives] [DecidableEq B] [DecidableEq C] {Entered : C → Prop} {env : Env}
  {s s' : ConsensusService B C} {msg : Msg A B C T} {out : List (Output A B C T)}

omit [DecidableEq B] in
/-- A consolidation asks for nothing. -/
theorem handleMessages_consolidated_quiet {block : B} {txsHashes : List Hash} {players : Players}
    (h : s.handleMessages env (.blockConsolidated block txsHashes players) = .ok (s', out)) :
    startedIn out = [] ∧ s'.lastBlockHash = Executable.getHash block := by
  simp only [handleMessages] at h
  obtain ⟨⟨s₁, drawnOut⟩, hdraw, h⟩ := bind_eq_ok.mp h
  obtain ⟨⟨leader, rfl⟩, quiet⟩ := drawNewLeader_ok hdraw
  cases h
  refine ⟨?_, rfl⟩
  rw [startedIn_append, startedIn_quiet quiet, startedIn_quiet (blockConsolidated_quiet _)]
  rfl

omit [DecidableEq B] in
/-- Only a consolidation changes the last block. -/
theorem handleMessages_keeps_last (other : ∀ block txsHashes players,
      msg ≠ .blockConsolidated block txsHashes players)
    (h : s.handleMessages env msg = .ok (s', out)) : s'.lastBlockHash = s.lastBlockHash := by
  obtain ⟨out', chain, -⟩ := handleMessages_effects h
  refine Chain.invariant (fun _ t => t.lastBlockHash = s.lastBlockHash) ?_ chain rfl
  intro _ t _ t' kept effect
  cases effect with
  | update source update =>
    rw [updateProposals_eq update]
    cases source <;> exact kept
  | consolidated received _ => exact absurd received (other _ _ _)
  | _ => exact kept

omit [DecidableEq B] in
theorem handleMessages_nodeId (h : s.handleMessages env msg = .ok (s', out)) :
    s'.nodeId = s.nodeId := by
  obtain ⟨out', chain, -⟩ := handleMessages_effects h
  refine Chain.invariant (fun _ t => t.nodeId = s.nodeId) ?_ chain rfl
  intro _ t _ t' kept effect
  cases effect with
  | update source update =>
    rw [updateProposals_eq update]
    cases source <;> exact kept
  | _ => exact kept

/-- While a message is handled, every request is backed by the players of the service and is
for the height after its own. -/
structure Requesting (Entered : C → Prop) (s₀ : ConsensusService B C)
    (done : List (Output A B C T)) (s : ConsensusService B C) : Prop
    extends Quorate Entered s₀.players done s where
  height : s.height = s₀.height
  next : ∀ request ∈ startedIn done, Executable.getHeight request.1 = s₀.height + 1

omit [DecidableEq B] in
theorem Requesting.effect {s₀ : ConsensusService B C} {done : List (Output A B C T)}
    (h : Requesting Entered s₀ done s)
    (other : ∀ block txsHashes players, msg ≠ .blockConsolidated block txsHashes players)
    (uniform : s₀.takesUniform msg = true) (matching : s₀.fillsMatching msg = true)
    (taken : ∀ c ∈ (s₀.incoming msg).1, Entered c) (signed : ∀ c ∈ signedIn out, Entered c)
    (effect : Effect env s₀ msg s out s') : Requesting Entered s₀ (done ++ out) s' := by
  suffices after : s'.height = s₀.height ∧
      ∀ request ∈ startedIn (done ++ out), Executable.getHeight request.1 = s₀.height + 1 from
    ⟨effect_quorate uniform matching taken signed h.toQuorate effect, after.1, after.2⟩
  have silent : startedIn out = [] → ∀ request ∈ startedIn (done ++ out),
      Executable.getHeight request.1 = s₀.height + 1 := by
    intro none
    rw [startedIn_append, none, List.append_nil]
    exact h.next
  cases effect with
  | update source hupdate =>
    obtain ⟨none, same, -⟩ := source_started source
    rw [updateProposals_eq hupdate]
    exact ⟨same.trans h.height, silent none⟩
  | start _ _ hfound hblock _ _ =>
    refine ⟨h.height, fun request hrequest => ?_⟩
    rw [startedIn_append, List.mem_append] at hrequest
    obtain hrequest | hrequest := hrequest
    · exact h.next request hrequest
    · obtain rfl := List.mem_singleton.mp hrequest
      rw [← h.height]
      exact (h.blocks _ _ (findProposal_some hfound).1 _ _ hblock).1
  | consolidated received _ => exact absurd received (other _ _ _)
  | notify quiet => exact ⟨h.height, silent (startedIn_quiet quiet)⟩
  | _ => exact ⟨h.height, silent rfl⟩

/-- A fair message keeps a service sound. What it asks to consolidate is of the next height,
and its players back it. -/
theorem handleMessages_requesting (other : ∀ block txsHashes players,
      msg ≠ .blockConsolidated block txsHashes players)
    (fair : Fair Entered msg) (signed : ∀ c ∈ signedIn out, Entered c) (sound : Sound Entered s)
    (h : s.handleMessages env msg = .ok (s', out)) : Requesting Entered s out s' := by
  obtain ⟨uniform, matching, taken⟩ := fair.enters s
  have handled : s.handle ⟨env, msg⟩ = .ok (s', out) := h
  have start : (∀ c ∈ signedIn ([] : List (Output A B C T)), Entered c) →
      Requesting Entered s ([] : List (Output A B C T)) s :=
    fun _ => ⟨⟨sound, by simp [startedIn]⟩, rfl, by simp [startedIn]⟩
  refine handle_invariant (fun xs t => (∀ c ∈ signedIn xs, Entered c) → Requesting Entered s xs t)
    handled start ?_ ?_ signed
  · intro xs ys t perm kept entered
    have same := perm.filterMap (Output.started : Output A B C T → _)
    have before := kept fun c hc => entered c ((perm.filterMap _).mem_iff.mp hc)
    exact ⟨⟨before.toSound, fun request hrequest =>
        before.requests request (same.mem_iff.mpr hrequest)⟩, before.height,
      fun request hrequest => before.next request (same.mem_iff.mpr hrequest)⟩
  · intro xs t ys t' kept effect entered
    simp only [signedIn_append, List.mem_append] at entered
    have before := kept fun c hc => entered c (.inl hc)
    exact before.effect other uniform matching taken (fun c hc => entered c (.inr hc)) effect

end Requests

/-! ## Before the first block -/

section Untouched

variable [Primitives] [DecidableEq B] [DecidableEq C] {Entered : C → Prop} {env : Env}
  {s s' : ConsensusService B C} {msg : Msg A B C T} {out : List (Output A B C T)}

/-- A service without a block that has voted for none, which is its own only player. -/
structure Untouched (s : ConsensusService B C) : Prop where
  poll : s.proposalExitPoll = []
  players : s.players.playersIds = [s.nodeId]
  blocks : s.Every (BlocksAre fun _ _ _ => False)

/-- The messages of peers and of a timer. -/
def foreign : Msg A B C T → Bool
  | .blockFromPeer _ _ _ => true
  | .blockConfirmationFromPeer _ => true
  | .checkOldBlockProposals => true
  | .verifyConfirmations _ _ => true
  | _ => false

omit [DecidableEq B] in
/-- An effect on a service without blocks. -/
theorem effect_idle {s₀ : ConsensusService B C} {done : List (Output A B C T)}
    (unfilled : s₀.fills msg = none)
    (idle : ∀ block txsHashes, msg ≠ .blockExecutionEnded block txsHashes)
    (unbuilt : ∀ block round txsHashes, msg ≠ .proposalAfterBuild block round txsHashes)
    (headed : s.Every Headed) (blocks : s.Every (BlocksAre fun _ _ _ => False))
    (h : s.proposalExitPoll = [] ∧ signedIn done = [] ∧ startedIn done = [])
    (effect : Effect env s₀ msg s out s') :
    s'.Every Headed ∧ s'.Every (BlocksAre fun _ _ _ => False) ∧ s'.proposalExitPoll = [] ∧
      signedIn (done ++ out) = [] ∧ startedIn (done ++ out) = [] := by
  refine ⟨effect_headed headed effect, ?_, ?_⟩
  · refine effect_blocks (fun _ _ _ none => none) ?_ ?_ ?_ headed blocks effect
    · intro first b filled
      rw [unfilled] at filled
      cases filled
    · exact fun block txsHashes received => idle block txsHashes received
    · exact fun block round txsHashes received => unbuilt block round txsHashes received
  · obtain ⟨poll, unsigned, unstarted⟩ := h
    simp only [signedIn_append, startedIn_append, unsigned, unstarted, List.nil_append]
    cases effect with
    | update source hupdate =>
      rw [updateProposals_eq hupdate]
      cases source with
      | taken _ _ => exact ⟨poll, rfl, rfl⟩
      | executed received _ => exact absurd received (idle _ _)
      | voted casts _ =>
        cases casts with
        | executed _ => exact absurd rfl (idle _ _)
        | nextRound held _ hblock => exact (blocks _ _ held _ _ hblock).elim
      | built received _ => exact absurd received (unbuilt _ _ _)
    | start _ _ hfound hblock _ _ =>
      exact (blocks _ _ (findProposal_some hfound).1 _ _ hblock).elim
    | consolidated _ quiet =>
      refine ⟨?_, signedIn_quiet quiet, startedIn_quiet quiet⟩
      simp only [resetProposals, poll]
      split <;> rfl
    | notify quiet => exact ⟨poll, signedIn_quiet quiet, startedIn_quiet quiet⟩
    | _ => exact ⟨poll, rfl, rfl⟩

omit [DecidableEq B] in
/-- Such a message leaves the service without blocks and without votes. -/
theorem Untouched.handle (h : Untouched s) (headed : s.Every Headed)
    (unfilled : s.fills msg = none)
    (idle : ∀ block txsHashes, msg ≠ .blockExecutionEnded block txsHashes)
    (unbuilt : ∀ block round txsHashes, msg ≠ .proposalAfterBuild block round txsHashes)
    (hstep : s.handleMessages env msg = .ok (s', out)) :
    s'.Every (BlocksAre fun _ _ _ => False) ∧ s'.proposalExitPoll = [] ∧ signedIn out = [] ∧
      startedIn out = [] := by
  have handled : s.handle ⟨env, msg⟩ = .ok (s', out) := hstep
  have start : s.Every Headed ∧ s.Every (BlocksAre fun _ _ _ => False) ∧
      s.proposalExitPoll = [] ∧ signedIn ([] : List (Output A B C T)) = [] ∧
      startedIn ([] : List (Output A B C T)) = [] := ⟨headed, h.blocks, h.poll, rfl, rfl⟩
  refine (handle_invariant (fun xs t => t.Every Headed ∧
    t.Every (BlocksAre fun _ _ _ => False) ∧ t.proposalExitPoll = [] ∧ signedIn xs = [] ∧
      startedIn xs = []) handled start ?_ ?_).2
  · rintro xs ys t perm ⟨headed, blocks, poll, unsigned, unstarted⟩
    have signed := (perm.filterMap (Output.signed : Output A B C T → _)).length_eq
    have started := (perm.filterMap (Output.started : Output A B C T → _)).length_eq
    change (signedIn xs).length = (signedIn ys).length at signed
    change (startedIn xs).length = (startedIn ys).length at started
    rw [unsigned] at signed
    rw [unstarted] at started
    exact ⟨headed, blocks, poll, List.length_eq_zero_iff.mp signed.symm,
      List.length_eq_zero_iff.mp started.symm⟩
  · rintro xs t ys t' ⟨headed, blocks, silent⟩ effect
    exact effect_idle unfilled idle unbuilt headed blocks silent effect

omit [Primitives] [DecidableEq B] [DecidableEq C] in
theorem fills_eq_none (h : (s.incoming msg).2 = none) : s.fills msg = none := by
  unfold fills
  split
  · next hincoming =>
    rw [hincoming] at h
    cases h
  · rfl

/-- Nobody signed in the name of a service that has not voted. So what peers send brings no
block, and the service stays as it is. -/
theorem Untouched.foreign (h : Untouched s) (headed : s.Every Headed) (fair : Fair Entered msg)
    (alone : ∀ c, Entered c → Confirmable.getPlayerId c ≠ s.nodeId)
    (peers : ConsensusService.foreign msg = true)
    (hstep : s.handleMessages env msg = .ok (s', out)) :
    Untouched s' ∧ signedIn out = [] ∧ startedIn out = [] := by
  have unfilled : (s.incoming msg).2 = none := by
    cases msg with
    | blockConfirmationFromPeer c =>
      simp only [incoming]
      split <;> rfl
    | blockFromPeer b c hashes =>
      simp only [incoming]
      split <;> rfl
    | verifyConfirmations block confirmations =>
      obtain ⟨-, -, entered⟩ := fair.enters s
      cases confirmations with
      | nil => rfl
      | cons first rest =>
        simp only [incoming] at entered ⊢
        split
        · next accepted =>
          rw [if_pos accepted] at entered
          have member := (accepted.1 first List.mem_cons_self).1
          rw [h.players, List.mem_singleton] at member
          exact absurd member (alone first (entered first List.mem_cons_self))
        · rfl
    | checkOldBlockProposals => rfl
    | _ => cases peers
  have idle : ∀ block txsHashes, msg ≠ .blockExecutionEnded block txsHashes := by
    rintro block txsHashes rfl
    cases peers
  have unbuilt : ∀ block round txsHashes, msg ≠ .proposalAfterBuild block round txsHashes := by
    rintro block round txsHashes rfl
    cases peers
  have other : ∀ block txsHashes players, msg ≠ .blockConsolidated block txsHashes players := by
    rintro block txsHashes players rfl
    cases peers
  obtain ⟨blocks, poll, silent⟩ := h.handle headed (fills_eq_none unfilled) idle unbuilt hstep
  refine ⟨⟨poll, ?_, blocks⟩, silent⟩
  rw [(handleMessages_keeps other hstep).2.2, handleMessages_nodeId hstep]
  exact h.players

end Untouched

end ConsensusService

end Trinci
