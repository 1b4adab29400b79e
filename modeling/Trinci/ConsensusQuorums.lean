import Mathlib.Data.Finset.Card
import Trinci.ConsensusBlocks
import Trinci.ConsensusConsolidations
import Trinci.ConsensusExecution

/-!
# What a consolidation request certifies

A request carries the confirmations stored with a proposal, and their number is
compared with a majority of the players. The number counts list entries: whether
they verify, are for the block and come from different players depends on how
they entered. A block sent by a peer brings a confirmation that is never
verified, and lists are taken as they are. When what is taken in verifies, is
uniform and holds one confirmation per player and vote, every request certifies
a majority of distinct players.
-/

namespace Trinci

namespace ConsensusService

open StepMachines

universe u

variable {A B C T : Type u} [Executable B] [Confirmable C]

/-- Two confirmations are for the same block in the same round. -/
def SameKey (c c' : C) : Prop :=
  Confirmable.getBlockHash c = Confirmable.getBlockHash c' ∧
    Confirmable.getBlockHeight c = Confirmable.getBlockHeight c' ∧
    Confirmable.getBlockRound c = Confirmable.getBlockRound c'

instance (c c' : C) : Decidable (SameKey c c') := inferInstanceAs (Decidable (_ ∧ _))

/-- The same player confirms the same block in the same round. -/
def SameVote (c c' : C) : Prop :=
  SameKey c c' ∧ Confirmable.getPlayerId c = Confirmable.getPlayerId c'

instance (c c' : C) : Decidable (SameVote c c') := inferInstanceAs (Decidable (_ ∧ _))

theorem SameVote.symm {c c' : C} (h : SameVote c c') : SameVote c' c :=
  ⟨⟨h.1.1.symm, h.1.2.1.symm, h.1.2.2.symm⟩, h.2.symm⟩

/-- The confirmations taken from a message are for one block and round, and none
is repeated. -/
def takesUniform [DecidableEq C] (s : ConsensusService B C) (msg : Msg A B C T) : Bool :=
  match (s.incoming msg).1 with
  | [] => true
  | first :: rest => decide (∀ c ∈ first :: rest, SameKey c first) && decide (first :: rest).Nodup

/-- A block filled in from a peer is the one its confirmations are for. -/
def fillsMatching (s : ConsensusService B C) (msg : Msg A B C T) : Bool :=
  match s.fills msg with
  | some (first, block) => Executable.getHeight block == Confirmable.getBlockHeight first &&
      Executable.getHash block == Confirmable.getBlockHash first
  | none => true

/-- The player a service votes as. -/
def ownId [Primitives] (s : ConsensusService B C) : String :=
  Confirmable.getPlayerId (Confirmable.new Hash.default 0 0 s.keypair.publicKey : C)

/-- The confirmations taken from a message verify, and one of this player's own is
among those it signed. -/
def takesValid [Primitives] [DecidableEq C] (signed : List C) (s : ConsensusService B C)
    (msg : Msg A B C T) : Bool :=
  (s.incoming msg).1.all fun c => Confirmable.verify c &&
    (Confirmable.getPlayerId c != s.ownId || decide (c ∈ signed))

/-- The confirmations taken along a trace. -/
def takenIn (trace : Trace A B C T) : List C :=
  trace.flatMap fun e => (e.before.incoming e.input.msg).1

/-- The confirmations of a request are valid, for its block and for one round, and
were signed by a majority of distinct players. -/
structure Certified (players : Players) (request : B × List C × List Hash) : Prop where
  valid : ∃ round, ∀ c ∈ request.2.1, Confirmable.verify c = true ∧
    Confirmable.getBlockHash c = Executable.getHash request.1 ∧
    Confirmable.getBlockHeight c = Executable.getHeight request.1 ∧
    Confirmable.getBlockRound c = round
  members : ∀ c ∈ request.2.1, Confirmable.getPlayerId c ∈ players.playersIds
  majority : players.playersIds.length / 2 + 1 ≤
    (request.2.1.map Confirmable.getPlayerId).toFinset.card

/-- A stored proposal counts confirmations that entered, each once, all for its own
hash, height and round. -/
structure Confirmed (Entered : C → Prop) (height : UInt64) (proposal : BlockProposal B C) :
    Prop where
  each : ∀ c ∈ proposal.receivedConfirmations, Entered c ∧
    Confirmable.getBlockHash c = proposal.blockHash ∧
    Confirmable.getBlockHeight c = height ∧ Confirmable.getBlockRound c = proposal.round
  distinct : proposal.receivedConfirmations.Nodup
  counted : proposal.count = proposal.receivedConfirmations.length

variable {Entered : C → Prop}

section Updates

variable [DecidableEq C]

omit [Executable B] in
theorem Confirmed.absorb {height : UInt64} {proposal : BlockProposal B C}
    (h : Confirmed Entered height proposal) {c : C} (hc : Entered c ∧
      Confirmable.getBlockHash c = proposal.blockHash ∧
      Confirmable.getBlockHeight c = height ∧ Confirmable.getBlockRound c = proposal.round)
    (block : Option (B × List Hash)) : Confirmed Entered height (proposal.absorb block c) := by
  by_cases hmem : c ∈ proposal.receivedConfirmations
  · refine ⟨?_, ?_, ?_⟩
    · simpa [absorb_received, hmem] using h.each
    · simpa [absorb_received, hmem] using h.distinct
    · simpa [absorb_received, absorb_count, hmem] using h.counted
  · refine ⟨?_, ?_, ?_⟩
    · intro d hd
      rw [absorb_received, if_neg hmem, List.mem_append, List.mem_singleton] at hd
      rw [absorb_blockHash, absorb_round]
      rcases hd with hd | rfl
      · exact h.each d hd
      · exact hc
    · rw [absorb_received, if_neg hmem]
      refine List.nodup_append.mpr ⟨h.distinct, by simp, ?_⟩
      intro d hd d' hd' heq
      obtain rfl : d' = c := by simpa using hd'
      exact hmem (heq ▸ hd)
    · rw [absorb_received, absorb_count, if_neg hmem, if_neg hmem, h.counted,
        List.length_append, List.length_singleton]

omit [Executable B] in
theorem Confirmed.foldl_absorb {height : UInt64} {proposal : BlockProposal B C}
    (h : Confirmed Entered height proposal) (block : Option (B × List Hash))
    {confirmations : List C} (all : ∀ c ∈ confirmations, Entered c ∧
      Confirmable.getBlockHash c = proposal.blockHash ∧
      Confirmable.getBlockHeight c = height ∧ Confirmable.getBlockRound c = proposal.round) :
    Confirmed Entered height (confirmations.foldl (BlockProposal.absorb block) proposal) := by
  induction confirmations generalizing proposal with
  | nil => exact h
  | cons c rest ih =>
    rw [List.foldl_cons]
    refine ih (h.absorb (all c (by simp)) block) ?_
    intro d hd
    rw [absorb_blockHash, absorb_round]
    exact all d (by simp [hd])

omit [Executable B] in
/-- An update by uniform confirmations that entered keeps the table confirmed; a
repeated one could only do harm in a fresh proposal. -/
theorem every_confirmed {env : Env} {s s' : ConsensusService B C} {first : C}
    {rest : List C} {block : Option (B × List Hash)}
    (h : s.updateProposals env (first :: rest) block = .ok s')
    (all : s.Every (Confirmed Entered))
    (uniform : ∀ c ∈ first :: rest, Entered c ∧ SameKey c first)
    (nodup : s.findKey first = none → (first :: rest).Nodup) :
    s'.Every (Confirmed Entered) := by
  refine every_updateProposals h all ?_ ?_
  · intro old hfound
    obtain ⟨hheld, hhash, hround⟩ := findProposal_some hfound
    refine (all _ old hheld).foldl_absorb block fun c hc => ?_
    obtain ⟨hentered, hkey⟩ := uniform c hc
    exact ⟨hentered, hkey.1.trans hhash.symm, hkey.2.1, hkey.2.2.trans hround.symm⟩
  · intro hnone
    refine ⟨fun c hc => ?_, nodup hnone, rfl⟩
    obtain ⟨hentered, hkey⟩ := uniform c hc
    exact ⟨hentered, hkey.1, hkey.2.1, hkey.2.2⟩

end Updates

/-- A request carries confirmations that entered, each once, for its block and for
one round, as many as a majority of the players. -/
structure Backed (Entered : C → Prop) (players : Players) (request : B × List C × List Hash) :
    Prop where
  uniform : ∃ round, ∀ c ∈ request.2.1, Entered c ∧
    Confirmable.getBlockHash c = Executable.getHash request.1 ∧
    Confirmable.getBlockHeight c = Executable.getHeight request.1 ∧
    Confirmable.getBlockRound c = round
  distinct : request.2.1.Nodup
  members : ∀ c ∈ request.2.1, Confirmable.getPlayerId c ∈ players.playersIds
  majority : players.playersIds.length / 2 + 1 ≤ request.2.1.length

/-- The confirmations of a request come from as many players as there are entries,
when no player entered two of them for one vote. -/
theorem Backed.card_players {players : Players} {request : B × List C × List Hash}
    (h : Backed Entered players request)
    (single : ∀ c c', Entered c → Entered c' → SameVote c c' → c = c') :
    (request.2.1.map Confirmable.getPlayerId).toFinset.card = request.2.1.length := by
  rw [List.toFinset_card_of_nodup, List.length_map]
  refine List.Nodup.map_on ?_ h.distinct
  intro c hc c' hc' hplayer
  obtain ⟨round, hall⟩ := h.uniform
  obtain ⟨hentered, hhash, hheight, hround⟩ := hall c hc
  obtain ⟨hentered', hhash', hheight', hround'⟩ := hall c' hc'
  exact single c c' hentered hentered' ⟨⟨hhash.trans hhash'.symm, hheight.trans hheight'.symm,
    hround.trans hround'.symm⟩, hplayer⟩

theorem Backed.certified {players : Players} {request : B × List C × List Hash}
    (h : Backed Entered players request)
    (valid : ∀ c, Entered c → Confirmable.verify c = true)
    (single : ∀ c c', Entered c → Entered c' → SameVote c c' → c = c') :
    Certified players request where
  valid := by
    obtain ⟨round, hall⟩ := h.uniform
    exact ⟨round, fun c hc => ⟨valid c (hall c hc).1, (hall c hc).2⟩⟩
  members := h.members
  majority := by
    rw [h.card_players single]
    exact h.majority

section Effects

variable [Primitives] [DecidableEq C] {env : Env} {s₀ s s' : ConsensusService B C}
  {msg : Msg A B C T} {done out : List (Output A B C T)}

/-- The confirmations an update brings entered, and are for one block and round; a
fresh proposal gets each of them once. -/
theorem source_uniform (uniform : s₀.takesUniform msg = true)
    (taken : ∀ c ∈ (s₀.incoming msg).1, Entered c) (signed : ∀ c ∈ signedIn out, Entered c)
    (headed : s.Every Headed) (table : s.Every (Confirmed Entered)) {first : C}
    {rest : List C} {block : Option (B × List Hash)} {t : ConsensusService B C}
    (source : Source env s₀ msg s (first :: rest) block out t) :
    (∀ c ∈ first :: rest, Entered c ∧ SameKey c first) ∧
      (t.findKey first = none → (first :: rest).Nodup) := by
  -- the confirmations of a stored proposal are for the key it is found under
  have stored : ∀ {hash height round} {p : BlockProposal B C},
      s.findProposal hash height round = some p → ∀ c ∈ p.receivedConfirmations, Entered c ∧
        Confirmable.getBlockHash c = hash ∧ Confirmable.getBlockHeight c = height ∧
        Confirmable.getBlockRound c = round := by
    intro hash height round p hfound c hc
    obtain ⟨hheld, rfl, rfl⟩ := findProposal_some hfound
    exact (table _ p hheld).each c hc
  generalize hconfirmations : first :: rest = confirmations at source
  cases source with
  | taken hincoming _ =>
    simp only [hincoming, ← hconfirmations] at taken
    simp only [takesUniform, hincoming, ← hconfirmations, Bool.and_eq_true,
      decide_eq_true_eq] at uniform
    rw [← hconfirmations]
    exact ⟨fun c hc => ⟨taken c hc, uniform.1 c hc⟩, fun _ => uniform.2⟩
  | @executed b _ p _ hfound =>
    have hfirst := stored hfound first (hconfirmations ▸ by simp)
    refine ⟨fun c hc => ?_, fun _ => ?_⟩
    · have hkey := stored hfound c hc
      exact ⟨hkey.1, hkey.2.1.trans hfirst.2.1.symm, hkey.2.2.1.trans hfirst.2.2.1.symm,
        hkey.2.2.2.trans hfirst.2.2.2.symm⟩
    · exact (table _ p (findProposal_some hfound).1).distinct
  | @voted _ b txsHashes round olds hcasts hvote =>
    obtain ⟨-, -, hround⟩ := shouldPlayerVote_spare hvote
    have hown : Entered (s.confirm env b round) :=
      signed _ (by simp [signedIn, Output.signed])
    cases hcasts with
    | @executed _ _ p hfound =>
      obtain ⟨head, tail, hreceived, -⟩ := headed _ _ (findProposal_some hfound).1
      obtain rfl : first = head := by
        rw [hreceived, List.cons_append] at hconfirmations
        exact (List.cons.inj hconfirmations).1
      have hfirst := stored hfound first (by simp [hreceived])
      refine ⟨fun c hc => ?_, fun hnone => ?_⟩
      · rcases List.mem_append.mp hc with hc | hc
        · have hkey := stored hfound c hc
          exact ⟨hkey.1, hkey.2.1.trans hfirst.2.1.symm, hkey.2.2.1.trans hfirst.2.2.1.symm,
            hkey.2.2.2.trans hfirst.2.2.2.symm⟩
        · obtain rfl : c = s.confirm env b s.actualRound := by simpa using hc
          refine ⟨hown, ?_, ?_, ?_⟩
          · simpa [confirm] using hfirst.2.1.symm
          · simpa [confirm] using hfirst.2.2.1.symm
          · simpa [confirm] using hfirst.2.2.2.symm
      · have hkey : (s.recordVote b s.actualRound).findKey first = some p := by
          rw [findKey, hfirst.2.1, hfirst.2.2.1, hfirst.2.2.2]
          exact hfound
        simp [hkey] at hnone
    | nextRound _ _ _ =>
      obtain ⟨rfl, -⟩ := List.cons.inj hconfirmations
      exact ⟨fun c hc => by
        obtain rfl : c = s.confirm env b round := by simpa using hc
        exact ⟨hown, rfl, rfl, rfl⟩, fun _ => by simp⟩
  | @built b round txsHashes _ _ =>
    obtain ⟨rfl, -⟩ := List.cons.inj hconfirmations
    have hown : Entered (s₀.confirm env b round) :=
      signed _ (by simp [signedIn, Output.signed])
    exact ⟨fun c hc => by
      obtain rfl : c = s₀.confirm env b round := by simpa using hc
      exact ⟨hown, rfl, rfl, rfl⟩, fun _ => by simp⟩

theorem effect_confirmed (uniform : s₀.takesUniform msg = true)
    (taken : ∀ c ∈ (s₀.incoming msg).1, Entered c) (signed : ∀ c ∈ signedIn out, Entered c)
    (headed : s.Every Headed) (table : s.Every (Confirmed Entered))
    (effect : Effect env s₀ msg s out s') : s'.Every (Confirmed Entered) := by
  refine effect_every (fun _ _ _ h => ⟨h.each, h.distinct, h.counted⟩) table effect ?_
  intro confirmations block t source hupdate
  obtain ⟨first, rest, rfl⟩ := updateProposals_cons hupdate
  obtain ⟨huniform, hnodup⟩ := source_uniform uniform taken signed headed table source
  exact every_confirmed hupdate (table.congr (source_blockProposals source)) huniform hnodup

/-- The invariant of a service: every stored proposal is confirmed and matches its
block. -/
structure Sound (Entered : C → Prop) (s : ConsensusService B C) : Prop where
  table : s.Every (Confirmed Entered)
  headed : s.Every Headed
  blocks : s.Every (BlocksAre fun height hash b =>
    Executable.getHeight b = height ∧ Executable.getHash b = hash)

omit [Primitives] [DecidableEq C] in
theorem sound_of_empty (h : s.blockProposals = []) : Sound Entered s :=
  ⟨every_of_empty h, every_of_empty h, every_of_empty h⟩

/-- While a message is handled, every request sent so far is backed as well. -/
structure Quorate (Entered : C → Prop) (players : Players) (out : List (Output A B C T))
    (s : ConsensusService B C) : Prop extends Sound Entered s where
  requests : ∀ request ∈ startedIn out, Backed Entered players request

omit [Primitives] [DecidableEq C] in
/-- A quorum over a confirmed proposal backs its block. -/
theorem Confirmed.backed {height : UInt64} {proposal : BlockProposal B C}
    (h : Confirmed Entered height proposal) {players : Players} {b : B}
    {txsHashes : List Hash} (hb : Executable.getHeight b = height ∧
      Executable.getHash b = proposal.blockHash)
    (members : ∀ c ∈ proposal.receivedConfirmations,
      Confirmable.getPlayerId c ∈ players.playersIds)
    (quorum : players.playersIds.length / 2 + 1 ≤ proposal.count) :
    Backed Entered players (b, proposal.receivedConfirmations, txsHashes) where
  uniform := by
    refine ⟨proposal.round, fun c hc => ?_⟩
    obtain ⟨hentered, hhash, hheight, hround⟩ := h.each c hc
    exact ⟨hentered, hhash.trans hb.2.symm, hheight.trans hb.1.symm, hround⟩
  distinct := h.distinct
  members := members
  majority := h.counted ▸ quorum

theorem effect_quorate (uniform : s₀.takesUniform msg = true)
    (matching : s₀.fillsMatching msg = true) (taken : ∀ c ∈ (s₀.incoming msg).1, Entered c)
    (signed : ∀ c ∈ signedIn out, Entered c)
    (h : Quorate Entered s₀.players done s) (effect : Effect env s₀ msg s out s') :
    Quorate Entered s₀.players (done ++ out) s' where
  table := effect_confirmed uniform taken signed h.headed h.table effect
  headed := effect_headed h.headed effect
  blocks := by
    refine effect_blocks (fun _ _ _ _ => ⟨rfl, rfl⟩) ?_ (fun _ _ _ => ⟨rfl, rfl⟩) ?_ h.headed
      h.blocks effect
    · intro first b hfills
      simpa [fillsMatching, hfills] using matching
    · intro b round txsHashes _
      simp
  requests := by
    intro request hrequest
    rw [startedIn_append, List.mem_append] at hrequest
    rcases hrequest with hrequest | hrequest
    · exact h.requests request hrequest
    · cases effect with
      | update source _ => simp [(source_started source).1] at hrequest
      | @start _ proposal b txsHashes _ _ _ hsame hfound hblock hmembers hquorum =>
        obtain ⟨hheld, -, -⟩ := findProposal_some hfound
        obtain rfl : request = (b, proposal.receivedConfirmations, txsHashes) := by
          simpa [startedIn, Output.started] using hrequest
        rw [hsame] at hmembers hquorum
        exact (h.table _ _ hheld).backed (h.blocks _ _ hheld b txsHashes hblock) hmembers hquorum
      | consolidated _ hquiet => simp [startedIn_quiet hquiet] at hrequest
      | notify hquiet => simp [startedIn_quiet hquiet] at hrequest
      | _ => simp [startedIn] at hrequest

/-- The confirmations a key pair can sign. -/
def SignedBy (keypair : TrinciKeyPair) (c : C) : Prop :=
  ∃ rng hash height round,
    c = Confirmable.sign keypair rng (Confirmable.new hash height round keypair.publicKey)

omit [Executable B] [DecidableEq C] in
theorem SignedBy.getPlayerId {c : C} (h : SignedBy s.keypair c) :
    Confirmable.getPlayerId c = s.ownId := by
  obtain ⟨rng, hash, height, round, rfl⟩ := h
  simp [ownId]

theorem effect_signedBy (h : s.keypair = s₀.keypair) (effect : Effect env s₀ msg s out s') :
    s'.keypair = s₀.keypair ∧ ∀ c ∈ signedIn out, SignedBy s₀.keypair c := by
  cases effect with
  | update source hupdate =>
    rw [updateProposals_eq hupdate]
    cases source with
    | taken _ _ => exact ⟨h, by simp [signedIn]⟩
    | executed _ _ => exact ⟨h, by simp [signedIn]⟩
    | voted _ _ =>
      refine ⟨h, fun c hc => ?_⟩
      obtain rfl : c = _ := by simpa [signedIn, Output.signed] using hc
      rw [← h]
      exact ⟨_, _, _, _, rfl⟩
    | built _ _ =>
      refine ⟨h, fun c hc => ?_⟩
      obtain rfl : c = _ := by simpa [signedIn, Output.signed] using hc
      exact ⟨_, _, _, _, rfl⟩
  | start _ _ _ _ _ _ => exact ⟨h, by simp [signedIn, Output.signed]⟩
  | consolidated _ hquiet => exact ⟨h, by simp [signedIn_quiet hquiet]⟩
  | notify hquiet => exact ⟨h, by simp [signedIn_quiet hquiet]⟩
  | _ => exact ⟨h, by simp [signedIn]⟩

/-- A service keeps its key pair and signs with no other. -/
theorem handle_signedBy {input : Input A B C T} (step : s.handle input = .ok (s', out)) :
    s'.keypair = s.keypair ∧ ∀ c ∈ signedIn out, SignedBy s.keypair c := by
  have start : s.keypair = s.keypair ∧
      ∀ c ∈ signedIn ([] : List (Output A B C T)), SignedBy s.keypair c :=
    ⟨rfl, by simp [signedIn]⟩
  refine handle_invariant (fun xs t => t.keypair = s.keypair ∧
    ∀ c ∈ signedIn xs, SignedBy s.keypair c) step start ?_ ?_
  · rintro xs ys t hperm ⟨hkeypair, hsigned⟩
    exact ⟨hkeypair, fun c hc => hsigned c ((hperm.filterMap _).mem_iff.mpr hc)⟩
  · rintro xs t ys t' ⟨hkeypair, hsigned⟩ effect
    obtain ⟨hkeypair', hsigned'⟩ := effect_signedBy hkeypair effect
    refine ⟨hkeypair', fun c hc => ?_⟩
    rw [signedIn_append, List.mem_append] at hc
    exact hc.elim (hsigned c) (hsigned' c)

/-- One message keeps the table confirmed and sends backed requests only, if all
that enters with it satisfies `Entered`. -/
theorem handle_quorate {input : Input A B C T}
    (uniform : s.takesUniform input.msg = true) (matching : s.fillsMatching input.msg = true)
    (taken : ∀ c ∈ (s.incoming input.msg).1, Entered c)
    (signed : ∀ c ∈ signedIn out, Entered c) (sound : Sound Entered s)
    (step : s.handle input = .ok (s', out)) : Quorate Entered s.players out s' := by
  -- an effect may use that what it signs entered, which is known of the whole output
  have start : (∀ c ∈ signedIn ([] : List (Output A B C T)), Entered c) →
      Quorate Entered s.players ([] : List (Output A B C T)) s :=
    fun _ => ⟨sound, by simp [startedIn]⟩
  refine handle_invariant (fun xs t => (∀ c ∈ signedIn xs, Entered c) →
    Quorate Entered s.players xs t) step start ?_ ?_ signed
  · intro xs ys t hperm h hys
    have hq := h fun c hc => hys c ((hperm.filterMap _).mem_iff.mp hc)
    exact ⟨hq.toSound, fun request hrequest =>
      hq.requests request ((hperm.filterMap _).mem_iff.mpr hrequest)⟩
  · intro xs t ys t' h effect hsigned
    simp only [signedIn_append, List.mem_append] at hsigned
    exact effect_quorate uniform matching taken
      (fun c hc => hsigned c (Or.inr hc)) (h fun c hc => hsigned c (Or.inl hc)) effect

/-- Over every run from an empty table each request is backed by what entered. -/
theorem run_quorate {trace : Trace A B C T} (run : Run (Computes handle) s₀ trace s)
    (fresh : s₀.blockProposals = [])
    (entered : Along (fun _ e => e.before.takesUniform e.input.msg = true ∧
      e.before.fillsMatching e.input.msg = true ∧
      (∀ c ∈ (e.before.incoming e.input.msg).1, Entered c) ∧
      ∀ c ∈ signedIn e.out, Entered c) trace) :
    Along (fun _ e => ∀ request ∈ startedIn e.out, Backed Entered e.before.players request)
      trace := by
  refine run.along (fun _ s => Sound Entered s) (sound_of_empty fresh) ?_ ?_ entered
  · rintro _ s m out s' hsound hstep ⟨huniform, hmatching, htaken, hsigned⟩
    exact (handle_quorate huniform hmatching htaken hsigned hsound hstep).toSound
  · rintro _ s m out s' hsound hstep ⟨huniform, hmatching, htaken, hsigned⟩
    exact (handle_quorate huniform hmatching htaken hsigned hsound hstep).requests

/-- A run keeps the key pair and signs with no other. -/
theorem run_signedBy {trace : Trace A B C T} (run : Run (Computes handle) s₀ trace s) :
    s.keypair = s₀.keypair ∧ ∀ c ∈ signedIn (outputs trace), SignedBy s₀.keypair c := by
  induction run with
  | nil => exact ⟨rfl, by simp [signedIn]⟩
  | snoc _ hstep ih =>
    obtain ⟨hkeypair, hsigned⟩ := handle_signedBy hstep
    refine ⟨hkeypair.trans ih.1, fun c hc => ?_⟩
    rw [outputs_snoc, signedIn_append, List.mem_append] at hc
    rcases hc with hc | hc
    · exact ih.2 c hc
    · exact ih.1 ▸ hsigned c hc

/-- A player that votes in order has one confirmation for each vote. -/
theorem signed_sameVote {trace : Trace A B C T} (run : Run (Computes handle) s₀ trace s)
    (ordered : Along (fun _ e => votesInOrder e.before e.input.msg = true) trace) {c c' : C}
    (hc : c ∈ signedIn (outputs trace)) (hc' : c' ∈ signedIn (outputs trace))
    (same : SameVote c c') : c = c' := by
  refine List.inj_on_of_nodup_map (run_votesRecorded run ordered).distinct hc hc' ?_
  exact Prod.ext same.1.2.1 same.1.2.2

/-- What entered a service along a run: the confirmations it took and those it
signed. -/
def EnteredIn (trace : Trace A B C T) (c : C) : Prop :=
  c ∈ takenIn trace ∨ c ∈ signedIn (outputs trace)

omit [Primitives] [DecidableEq C] in
theorem enteredIn_event {trace earlier later : Trace A B C T}
    {e : Event (ConsensusService B C) (Input A B C T) (Output A B C T)}
    (h : trace = earlier ++ e :: later) :
    (∀ c ∈ (e.before.incoming e.input.msg).1, EnteredIn trace c) ∧
      ∀ c ∈ signedIn e.out, EnteredIn trace c := by
  subst h
  refine ⟨fun c hc => Or.inl ?_, fun c hc => Or.inr ?_⟩
  · simp only [takenIn, List.flatMap_append, List.flatMap_cons, List.mem_append]
    exact Or.inr (Or.inl hc)
  · simp only [outputs, List.flatMap_append, List.flatMap_cons, signedIn_append,
      List.mem_append]
    exact Or.inr (Or.inl hc)

/-- A taken confirmation verifies, and one by this player was signed in the run. -/
theorem taken_valid {trace : Trace A B C T} (run : Run (Computes handle) s₀ trace s)
    (valid : Along (fun earlier e =>
      e.before.takesValid (signedIn (outputs earlier)) e.input.msg = true) trace)
    {c : C} (hc : c ∈ takenIn trace) : Confirmable.verify c = true ∧
      (Confirmable.getPlayerId c = s₀.ownId → c ∈ signedIn (outputs trace)) := by
  induction run with
  | nil => simp [takenIn] at hc
  | @snoc trace t t' m out run hstep ih =>
    obtain ⟨hall, hlast⟩ := along_snoc.mp valid
    have hown : t.ownId = s₀.ownId := by rw [ownId, ownId, (run_signedBy run).1]
    rw [outputs_snoc, signedIn_append, List.mem_append]
    rw [takenIn, List.flatMap_append, List.mem_append] at hc
    rcases hc with hc | hc
    · exact ⟨(ih hall hc).1, fun h => Or.inl ((ih hall hc).2 h)⟩
    · simp only [List.flatMap_cons, List.flatMap_nil, List.append_nil] at hc
      have hchecked := List.all_eq_true.mp hlast c hc
      simp only [Bool.and_eq_true, Bool.or_eq_true, bne_iff_ne, decide_eq_true_eq,
        hown] at hchecked
      exact ⟨hchecked.1, fun h => Or.inl (hchecked.2.resolve_left (not_not_intro h))⟩

/-- Over every run from an empty table that votes in order, in which the taken
confirmations verify, come one for each player and vote, in uniform lists, and
with the block they are for, each request certifies a majority of the current
players. -/
theorem started_certified {trace : Trace A B C T} (run : Run (Computes handle) s₀ trace s)
    (fresh : s₀.blockProposals = [])
    (signs : ∀ c : C, SignedBy s₀.keypair c → Confirmable.verify c = true)
    (ordered : Along (fun _ e => votesInOrder e.before e.input.msg = true) trace)
    (valid : Along (fun earlier e =>
      e.before.takesValid (signedIn (outputs earlier)) e.input.msg = true) trace)
    (single : ∀ c ∈ takenIn trace, ∀ c' ∈ takenIn trace, SameVote c c' → c = c')
    (uniform : Along (fun _ e => e.before.takesUniform e.input.msg = true) trace)
    (matching : Along (fun _ e => e.before.fillsMatching e.input.msg = true) trace) :
    Along (fun _ e => ∀ request ∈ startedIn e.out, Certified e.before.players request)
      trace := by
  have signed := (run_signedBy run).2
  have verified : ∀ c, EnteredIn trace c → Confirmable.verify c = true := by
    rintro c (hc | hc)
    · exact (taken_valid run valid hc).1
    · exact signs c (signed c hc)
  -- a taken confirmation that shares the vote of a signed one is this player's own
  have mixed : ∀ c c', c ∈ takenIn trace → c' ∈ signedIn (outputs trace) → SameVote c c' →
      c = c' := by
    intro c c' hc hc' hsame
    have hown := (taken_valid run valid hc).2 (hsame.2.trans (signed c' hc').getPlayerId)
    exact signed_sameVote run ordered hown hc' hsame
  have alone : ∀ c c', EnteredIn trace c → EnteredIn trace c' → SameVote c c' → c = c' := by
    rintro c c' (hc | hc) (hc' | hc') hsame
    · exact single c hc c' hc' hsame
    · exact mixed c c' hc hc' hsame
    · exact (mixed c' c hc' hc hsame.symm).symm
    · exact signed_sameVote run ordered hc hc' hsame
  have entered : Along (fun _ e => (∀ c ∈ (e.before.incoming e.input.msg).1,
      EnteredIn trace c) ∧ ∀ c ∈ signedIn e.out, EnteredIn trace c) trace :=
    fun _ _ _ htrace => enteredIn_event htrace
  have backed := run_quorate run fresh (uniform.and (matching.and entered))
  exact backed.imp fun _ _ h request hrequest => (h request hrequest).certified verified alone

omit [Primitives] [DecidableEq C] in
theorem certified_verify {trace : Trace A B C T}
    (h : Along (fun _ e => ∀ request ∈ startedIn e.out, Certified e.before.players request)
      trace) : ∀ request ∈ startedIn (outputs trace), ∀ c ∈ request.2.1,
      Confirmable.verify c = true := by
  intro request hrequest c hc
  obtain ⟨o, ho, hstarted⟩ := List.mem_filterMap.mp hrequest
  obtain ⟨e, he, hout⟩ := List.mem_flatMap.mp ho
  obtain ⟨earlier, later, htrace⟩ := List.append_of_mem he
  have hcertified := h earlier e later htrace request (List.mem_filterMap.mpr ⟨o, hout, hstarted⟩)
  obtain ⟨round, hall⟩ := hcertified.valid
  exact (hall c hc).1

end Effects

end ConsensusService

/-! ## A block with a forged confirmation -/

namespace Sample

open ConsensusService StepMachines

/-- A confirmation in the name of player `n` that nobody signed. -/
def forged (n : UInt8) (block : Block) (round : UInt8) : Confirmation :=
  { confirmation n block round with signature := [] }

/-- Bob receives alice's block with a forged confirmation of hers and executes it. -/
def bobIsFooled : List NodeInput :=
  [input (.blockFromPeer (block 1 1 0) (forged 1 (block 1 1 0) 0) []),
    input (.blockExecutionEnded (block 1 1 0) [])]

/-- His own vote completes the majority, with the forged confirmation in it. -/
theorem bob_starts_uncertified :
    Run (Computes handle) (node 2 3) (traceOf handle (node 2 3) bobIsFooled)
        (finalOf handle (node 2 3) bobIsFooled) ∧
      ¬ Along (fun _ e => ∀ request ∈ startedIn e.out, Certified e.before.players request)
        (traceOf handle (node 2 3) bobIsFooled) := by
  refine ⟨traceOf_run (by decide +kernel), fun h => ?_⟩
  have hforged : ∃ request ∈ startedIn (outputs (traceOf handle (node 2 3) bobIsFooled)),
      ∃ c ∈ request.2.1, Confirmable.verify c = false := by
    decide +kernel
  obtain ⟨request, hrequest, c, hc, hfalse⟩ := hforged
  rw [certified_verify h request hrequest c hc] at hfalse
  simp at hfalse

/-- Whatever a sample player signs verifies. -/
theorem verify_signedBy (n : UInt8) (c : Confirmation) (h : SignedBy (keypair n) c) :
    Confirmable.verify c = true := by
  obtain ⟨rng, hash, height, round, rfl⟩ := h
  exact beq_self_eq_true (_ : Bytes)

theorem bob_starts_certified :
    (startedIn (outputs (traceOf handle (node 2 3) bobExecutes))).length = 1 ∧
      Along (fun _ e => ∀ request ∈ startedIn e.out, Certified e.before.players request)
        (traceOf handle (node 2 3) bobExecutes) :=
  ⟨by decide +kernel,
    started_certified (traceOf_run (by decide +kernel)) rfl (verify_signedBy 2)
      (along_of_all (by decide +kernel)) (along_of_check (by decide +kernel))
      (by decide +kernel) (along_of_all (by decide +kernel)) (along_of_all (by decide +kernel))⟩

end Sample

end Trinci
