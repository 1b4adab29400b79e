import Mathlib.Data.Finset.Card
import Trinci.ConsensusQuorums

/-!
# Agreement between honest players

Several services with one list of players run side by side. A confirmation
reaches a player after some player signed it, and a list of confirmations or a
block that answers a request comes from a consolidation requested somewhere.
Messages are delayed, lost and repeated at will, and timeouts come at any time.
Two requests of one height and one round are then for the same block. Nothing
ties the rounds of a height together, and two rounds may disagree.
-/

namespace Trinci

namespace ConsensusService

open StepMachines

universe u

variable {A B C T : Type u} [Executable B] [Confirmable C] {I : Type u} [DecidableEq I]

/-- The events of several services side by side. -/
abbrev ClusterTrace (I A B C T : Type u) :=
  List (Event (I → ConsensusService B C) (I × Input A B C T) (I × Output A B C T))

/-- What may reach a service when `earlier` was sent by the players: their
confirmations, and what they hold of a consolidation they requested. What comes
from the node itself is free; a consolidation does not change the players. -/
def honest [DecidableEq B] [DecidableEq C] (players : Players)
    (earlier : List (Output A B C T)) : Msg A B C T → Bool
  | .blockConfirmationFromPeer confirmation => decide (confirmation ∈ signedIn earlier)
  | .blockFromPeer _ confirmation _ => decide (confirmation ∈ signedIn earlier)
  | .proposalFromAlignmentBlock confirmations =>
    decide (∃ request ∈ startedIn earlier, request.2.1 = confirmations)
  | .verifyConfirmations block confirmations =>
    decide (∃ request ∈ startedIn earlier, request.2.1 = confirmations ∧
      ∀ entry ∈ block, entry.1 = request.1)
  | .blockConsolidated _ _ players' => decide (players' = players)
  | _ => true

/-- All confirmations of a request are for this round, and there is one. -/
def InRound (round : UInt8) (request : B × List C × List Hash) : Prop :=
  request.2.1 ≠ [] ∧ ∀ c ∈ request.2.1, Confirmable.getBlockRound c = round

instance (round : UInt8) (request : B × List C × List Hash) :
    Decidable (InRound round request) := inferInstanceAs (Decidable (_ ∧ _))

/-- Two requests of one height are for the same block. -/
def Agree (requests : List (B × List C × List Hash)) : Prop :=
  ∀ request ∈ requests, ∀ request' ∈ requests,
    Executable.getHeight request.1 = Executable.getHeight request'.1 →
    Executable.getHash request.1 = Executable.getHash request'.1

/-- Two requests of one height are for the same block, if they are of one round. -/
def AgreeInRound (requests : List (B × List C × List Hash)) : Prop :=
  ∀ request ∈ requests, ∀ request' ∈ requests, ∀ round, InRound round request →
    InRound round request' → Executable.getHeight request.1 = Executable.getHeight request'.1 →
    Executable.getHash request.1 = Executable.getHash request'.1

variable {Entered : C → Prop} {players : Players}

section Requests

variable {request request' : B × List C × List Hash}

theorem Backed.inRound (h : Backed Entered players request) :
    ∃ round, InRound round request := by
  obtain ⟨round, hall⟩ := h.uniform
  refine ⟨round, ?_, fun c hc => (hall c hc).2.2.2⟩
  intro hnil
  have hmajority := h.majority
  rw [hnil, List.length_nil] at hmajority
  omega

/-- Two majorities of the players have a player in common. -/
theorem Backed.common (h : Backed Entered players request) (h' : Backed Entered players request')
    (single : ∀ c c', Entered c → Entered c' → SameVote c c' → c = c') :
    ∃ c ∈ request.2.1, ∃ c' ∈ request'.2.1,
      Confirmable.getPlayerId c = Confirmable.getPlayerId c' := by
  have inside : ∀ {r : B × List C × List Hash}, Backed Entered players r →
      (r.2.1.map Confirmable.getPlayerId).toFinset ⊆ players.playersIds.toFinset := by
    intro r hr player hplayer
    obtain ⟨c, hc, rfl⟩ := List.mem_map.mp (List.mem_toFinset.mp hplayer)
    exact List.mem_toFinset.mpr (hr.members c hc)
  have many : players.playersIds.toFinset.card <
      (request.2.1.map Confirmable.getPlayerId).toFinset.card +
        (request'.2.1.map Confirmable.getPlayerId).toFinset.card := by
    rw [h.card_players single, h'.card_players single]
    have hcard := List.toFinset_card_le players.playersIds
    have hmajority := h.majority
    have hmajority' := h'.majority
    omega
  obtain ⟨player, hplayer⟩ :=
    Finset.inter_nonempty_of_card_lt_card_add_card (inside h) (inside h') many
  rw [Finset.mem_inter, List.mem_toFinset, List.mem_toFinset] at hplayer
  obtain ⟨⟨c, hc, hcplayer⟩, c', hc', hcplayer'⟩ :=
    And.imp List.mem_map.mp List.mem_map.mp hplayer
  exact ⟨c, hc, c', hc', hcplayer.trans hcplayer'.symm⟩

/-- The votes of one player decide between requests of one height and round. -/
theorem Backed.agree (h : Backed Entered players request) (h' : Backed Entered players request')
    (once : ∀ c c', Entered c → Entered c' → Confirmable.getPlayerId c =
      Confirmable.getPlayerId c' → voteKey c = voteKey c' → c = c')
    {round : UInt8} (hround : InRound round request) (hround' : InRound round request')
    (height : Executable.getHeight request.1 = Executable.getHeight request'.1) :
    Executable.getHash request.1 = Executable.getHash request'.1 := by
  have single : ∀ c c', Entered c → Entered c' → SameVote c c' → c = c' :=
    fun c c' hc hc' hsame => once c c' hc hc' hsame.2 (Prod.ext hsame.1.2.1 hsame.1.2.2)
  obtain ⟨c, hc, c', hc', hplayer⟩ := h.common h' single
  obtain ⟨_, hall⟩ := h.uniform
  obtain ⟨_, hall'⟩ := h'.uniform
  obtain ⟨hentered, hhash, hheight, -⟩ := hall c hc
  obtain ⟨hentered', hhash', hheight', -⟩ := hall' c' hc'
  have hkey : voteKey c = voteKey c' := by
    refine Prod.ext ?_ ?_
    · exact (hheight.trans height).trans hheight'.symm
    · exact (hround.2 c hc).trans (hround'.2 c' hc').symm
  obtain rfl := once c c' hentered hentered' hplayer hkey
  exact hhash.symm.trans hhash'

end Requests

section Deliveries

variable [DecidableEq B] [DecidableEq C] {s : ConsensusService B C} {msg : Msg A B C T}
  {earlier : List (Output A B C T)}

/-- The confirmations an honest message brings: none, a signed one, or those of a
request. -/
theorem honest_incoming (h : honest players earlier msg = true) :
    (s.incoming msg).1 = [] ∨ (∃ c ∈ signedIn earlier, s.incoming msg = ([c], none)) ∨
      ∃ request ∈ startedIn earlier, (s.incoming msg).1 = request.2.1 ∧
        ∀ entry ∈ (s.incoming msg).2, entry.1 = request.1 := by
  cases msg with
  | blockConfirmationFromPeer c =>
    simp only [honest, decide_eq_true_eq] at h
    simp only [incoming]
    split_ifs
    · exact Or.inr (Or.inl ⟨c, h, rfl⟩)
    · exact Or.inl rfl
  | blockFromPeer b c hashes =>
    simp only [honest, decide_eq_true_eq] at h
    simp only [incoming]
    split_ifs
    · exact Or.inr (Or.inl ⟨c, h, rfl⟩)
    · exact Or.inl rfl
  | proposalFromAlignmentBlock confirmations =>
    simp only [honest, decide_eq_true_eq] at h
    obtain ⟨request, hrequest, rfl⟩ := h
    exact Or.inr (Or.inr ⟨request, hrequest, rfl, by simp [incoming]⟩)
  | verifyConfirmations block confirmations =>
    simp only [honest, decide_eq_true_eq] at h
    obtain ⟨request, hrequest, rfl, hblock⟩ := h
    cases hlist : request.2.1 with
    | nil => exact Or.inl rfl
    | cons first rest =>
      simp only [incoming]
      split_ifs
      · exact Or.inr (Or.inr ⟨request, hrequest, hlist.symm, hblock⟩)
      · exact Or.inl rfl
  | _ => exact Or.inl rfl

/-- What an honest message brings is uniform, entered and fits its block. -/
theorem honest_enters (h : honest players earlier msg = true)
    (signed : ∀ c ∈ signedIn earlier, Entered c)
    (backed : ∀ request ∈ startedIn earlier, Backed Entered players request) :
    s.takesUniform msg = true ∧ s.fillsMatching msg = true ∧
      ∀ c ∈ (s.incoming msg).1, Entered c := by
  have hincoming := honest_incoming (s := s) h
  simp only [takesUniform, fillsMatching, fills]
  generalize s.incoming msg = taken at hincoming
  obtain ⟨confirmations, block⟩ := taken
  rcases hincoming with hnil | ⟨c, hc, hone⟩ | ⟨request, hrequest, hlist, hblock⟩
  · obtain rfl : confirmations = [] := hnil
    simp
  · obtain ⟨rfl, rfl⟩ := Prod.mk.inj hone
    refine ⟨by simp [SameKey], by simp, fun d hd => ?_⟩
    obtain rfl : d = c := by simpa using hd
    exact signed d hc
  · obtain rfl : confirmations = request.2.1 := hlist
    have hbacked := backed request hrequest
    obtain ⟨round, hall⟩ := hbacked.uniform
    refine ⟨?_, ?_, fun c hc => (hall c hc).1⟩
    · cases hcs : request.2.1 with
      | nil => rfl
      | cons first rest =>
        have hfirst := hall first (by simp [hcs])
        have hkeys : ∀ c ∈ first :: rest, SameKey c first := by
          intro c hc
          have hkey := hall c (hcs ▸ hc)
          exact ⟨hkey.2.1.trans hfirst.2.1.symm, hkey.2.2.1.trans hfirst.2.2.1.symm,
            hkey.2.2.2.trans hfirst.2.2.2.symm⟩
        have hnodup : (first :: rest).Nodup := hcs ▸ hbacked.distinct
        simp only [Bool.and_eq_true, decide_eq_true_eq]
        exact ⟨hkeys, hnodup⟩
    · cases hcs : request.2.1 with
      | nil => rfl
      | cons first rest =>
        have hfirst := hall first (by simp [hcs])
        cases block with
        | none => rfl
        | some entry =>
          have hentry : entry.1 = request.1 := hblock entry rfl
          simp only
          by_cases hfilled : (s.findKey first).any fun proposal => proposal.block.isSome
          · simp [hfilled]
          · simp [hfilled, hentry, hfirst.2.1, hfirst.2.2.1]

end Deliveries

section Runs

variable [Primitives] [DecidableEq B] [DecidableEq C]

omit [DecidableEq B] in
/-- Only a consolidation changes the players. -/
theorem handle_players {s s' : ConsensusService B C} {input : Input A B C T}
    {out : List (Output A B C T)} (step : s.handle input = .ok (s', out))
    (same : ∀ b hashes players', input.msg = .blockConsolidated b hashes players' →
      players' = s.players) : s'.players = s.players := by
  obtain ⟨out', chain, -⟩ := handleMessages_effects step
  refine Chain.invariant (fun _ t => t.players = s.players) ?_ chain rfl
  intro _ t out' t' h effect
  cases effect with
  | update source hupdate =>
    rw [updateProposals_eq hupdate]
    cases source with
    | _ => exact h
  | consolidated hmsg _ => exact same _ _ _ hmsg
  | _ => exact h

/-- What holds of every service and of all requests so far. -/
structure Quorums (Entered : C → Prop) (players : Players)
    (requests : List (B × List C × List Hash)) (s : I → ConsensusService B C) : Prop where
  nodes : ∀ i, (s i).players = players ∧ Sound Entered (s i)
  requests : ∀ request ∈ requests, Backed Entered players request

theorem Quorums.step {s s' : I → ConsensusService B C} {m : I × Input A B C T}
    {out : List (I × Output A B C T)} {earlier : List (Output A B C T)}
    (h : Quorums Entered players (startedIn earlier) s)
    (step : Interleaved handle s m = .ok (s', out))
    (network : honest players earlier m.2.msg = true)
    (signed : ∀ c ∈ signedIn earlier, Entered c)
    (signs : ∀ c ∈ signedIn (out.map Prod.snd), Entered c) :
    Quorums Entered players (startedIn (earlier ++ out.map Prod.snd)) s' := by
  obtain ⟨t, own, hstep, rfl, rfl⟩ := interleaved_ok step
  have hown : (own.map (m.1, ·)).map Prod.snd = own := by simp [Function.comp_def]
  rw [hown] at signs ⊢
  obtain ⟨hshared, hsound⟩ := h.nodes m.1
  obtain ⟨huniform, hmatching, htaken⟩ := honest_enters (s := s m.1) network signed h.requests
  have hnode := handle_quorate huniform hmatching htaken signs hsound hstep
  have hplayers : t.players = players := by
    refine (handle_players hstep ?_).trans hshared
    intro b hashes players' hmsg
    rw [hshared]
    simpa [hmsg, honest] using network
  refine ⟨?_, fun request hrequest => ?_⟩
  · intro i
    by_cases hi : i = m.1
    · rw [hi, Function.update_self]
      exact ⟨hplayers, hnode.toSound⟩
    · rw [Function.update_of_ne hi]
      exact h.nodes i
  · rw [startedIn_append, List.mem_append] at hrequest
    rcases hrequest with hrequest | hrequest
    · exact h.requests request hrequest
    · exact hshared ▸ hnode.requests request hrequest

variable {s₀ s : I → ConsensusService B C} {trace : ClusterTrace I A B C T}

/-- Some service signed this confirmation along the run. -/
def SignedIn (trace : ClusterTrace I A B C T) (c : C) : Prop := c ∈ signedIn (sent trace)

omit [DecidableEq B] in
/-- Services with different names never sign twice for one height and round. -/
theorem signedIn_once (run : Run (Computes (Interleaved handle)) s₀ trace s)
    (identities : Function.Injective fun i => (s₀ i).ownId)
    (ordered : Along (fun _ e => votesInOrder e.own.before e.own.input.msg = true) trace)
    {c c' : C} (hc : SignedIn trace c) (hc' : SignedIn trace c')
    (player : Confirmable.getPlayerId c = Confirmable.getPlayerId c')
    (key : voteKey c = voteKey c') : c = c' := by
  have located : ∀ {d : C}, SignedIn trace d →
      ∃ i, d ∈ signedIn (outputs (component i trace)) := by
    intro d hd
    obtain ⟨o, ho, hsigned⟩ := List.mem_filterMap.mp hd
    obtain ⟨i, hi⟩ := mem_sent.mp ho
    exact ⟨i, List.mem_filterMap.mpr ⟨o, hi, hsigned⟩⟩
  obtain ⟨i, hi⟩ := located hc
  obtain ⟨j, hj⟩ := located hc'
  -- the player of a confirmation is the service that signed it
  have hown := ((run_signedBy (run.component i)).2 c hi).getPlayerId
  have hown' := ((run_signedBy (run.component j)).2 c' hj).getPlayerId
  obtain rfl : i = j := identities ((hown.symm.trans player).trans hown')
  have recorded := run_votesRecorded (run.component i) (ordered.component i)
  exact List.inj_on_of_nodup_map recorded.distinct hi hj key

/-- The requests of an honest run are backed by what was signed in it. -/
theorem run_backed (run : Run (Computes (Interleaved handle)) s₀ trace s)
    (fresh : ∀ i, (s₀ i).blockProposals = []) (shared : ∀ i, (s₀ i).players = players)
    (network : Along (fun earlier e => honest players (sent earlier) e.own.input.msg = true)
      trace) :
    ∀ request ∈ startedIn (sent trace), Backed (SignedIn trace) players request := by
  have signed : Along (fun earlier e => (∀ c ∈ signedIn (sent earlier), SignedIn trace c) ∧
      ∀ c ∈ signedIn e.own.out, SignedIn trace c) trace := by
    intro earlier e later htrace
    have hsent : sent trace = sent earlier ++ (e.own.out ++ sent later) := by
      simp [htrace, sent]
    simp only [SignedIn, hsent, signedIn_append, List.mem_append]
    exact ⟨fun c hc => Or.inl hc, fun c hc => Or.inr (Or.inl hc)⟩
  have hquorums := run.invariant
    (fun trace' t => Quorums (SignedIn trace) players (startedIn (sent trace')) t)
    ⟨fun i => ⟨shared i, sound_of_empty (fresh i)⟩, by simp [sent, startedIn]⟩ ?_
    (network.and signed)
  · exact hquorums.requests
  · rintro trace' t m out t' hinv hstep ⟨hnetwork, hearlier, hout⟩
    have hnext := hinv.step hstep hnetwork hearlier hout
    simpa [sent, Event.own] using hnext

/-- Over every interleaved run of services with different names, one list of players
and empty tables, which vote in order and get only what the others sent, every
request is of one round, and two requests of one height and round, by the same
service or by different ones, are for the same block. -/
theorem agreement_in_each_round (run : Run (Computes (Interleaved handle)) s₀ trace s)
    (fresh : ∀ i, (s₀ i).blockProposals = []) (shared : ∀ i, (s₀ i).players = players)
    (identities : Function.Injective fun i => (s₀ i).ownId)
    (ordered : Along (fun _ e => votesInOrder e.own.before e.own.input.msg = true) trace)
    (network : Along (fun earlier e => honest players (sent earlier) e.own.input.msg = true)
      trace) :
    (∀ request ∈ startedIn (sent trace), ∃ round, InRound round request) ∧
      AgreeInRound (startedIn (sent trace)) := by
  have backed := run_backed run fresh shared network
  refine ⟨fun request hrequest => (backed request hrequest).inRound, ?_⟩
  intro request hrequest request' hrequest' round hround hround' hheight
  refine (backed request hrequest).agree (backed request' hrequest') ?_ hround hround' hheight
  intro c c' hc hc' hplayer hkey
  exact signedIn_once run identities ordered hc hc' hplayer hkey

end Runs

end ConsensusService

/-! ## Two rounds of one height -/

namespace Sample

open ConsensusService StepMachines

/-- Alice, bob and carol after the genesis block. -/
def cluster (i : Fin 3) : Node := node (i.val + 1).toUInt8 3

/-- Bob completes the quorum of alice's block in round zero. The confirmation he
sends is lost: alice and carol time out, and alice votes for carol's block. -/
def twoRounds : List (Fin 3 × NodeInput) :=
  [(0, input (.proposalAfterBuild (block 1 1 0) 0 [])),
    (1, input (.blockFromPeer (block 1 1 0) (confirmation 1 (block 1 1 0) 0) [])),
    (1, input (.blockExecutionEnded (block 1 1 0) [])),
    (0, input (.blockElectionFailed 1 1)),
    (2, input (.blockElectionFailed 1 1)),
    (2, input (.proposalAfterBuild (block 3 1 1) 1 [])),
    (0, input (.blockFromPeer (block 3 1 1) (confirmation 3 (block 3 1 1) 1) [])),
    (0, input (.blockExecutionEnded (block 3 1 1) []))]

theorem cluster_identities : Function.Injective fun i => (cluster i).ownId := by
  have hdistinct : ∀ i j, (cluster i).ownId = (cluster j).ownId → i = j := by decide +kernel
  exact fun i j => hdistinct i j

/-- Bob and alice request different blocks of height one. -/
theorem rounds_disagree :
    (∀ i, (cluster i).blockProposals = [] ∧ (cluster i).players = (cluster 0).players ∧
        (cluster i).height = 0 ∧ (cluster i).lastBlockHash = Hash.default) ∧
      (Function.Injective fun i => (cluster i).ownId) ∧
      Run (Computes (Interleaved handle)) cluster (traceOf (Interleaved handle) cluster twoRounds)
        (finalOf (Interleaved handle) cluster twoRounds) ∧
      Along (fun _ e => votesInOrder e.own.before e.own.input.msg = true)
        (traceOf (Interleaved handle) cluster twoRounds) ∧
      Along (fun earlier e =>
          honest (cluster 0).players (sent earlier) e.own.input.msg = true)
        (traceOf (Interleaved handle) cluster twoRounds) ∧
      ¬ Agree (startedIn (sent (traceOf (Interleaved handle) cluster twoRounds))) := by
  refine ⟨fun _ => ⟨rfl, rfl, rfl, rfl⟩, cluster_identities, traceOf_run (by decide +kernel),
    along_of_all (by decide +kernel), along_of_check (by decide +kernel), ?_⟩
  unfold Agree
  decide +kernel

/-- Bob's request and alice's are of different rounds. -/
theorem rounds_agree_each :
    (startedIn (sent (traceOf (Interleaved handle) cluster twoRounds))).length = 2 ∧
      ((∀ request ∈ startedIn (sent (traceOf (Interleaved handle) cluster twoRounds)),
          ∃ round, InRound round request) ∧
        AgreeInRound (startedIn (sent (traceOf (Interleaved handle) cluster twoRounds)))) :=
  ⟨by decide +kernel, agreement_in_each_round (traceOf_run (by decide +kernel)) (fun _ => rfl)
    (fun _ => rfl) cluster_identities (along_of_all (by decide +kernel))
    (along_of_check (by decide +kernel))⟩

end Sample

end Trinci
