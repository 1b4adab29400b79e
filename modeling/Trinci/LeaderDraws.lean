import Trinci.ConsensusTables
import Trinci.DRand
import Trinci.WasmService

/-!
# The leader drawn after a block

The consensus service together with the drand service that answers it. A
consolidation settles the seed source on its block and draws from it, a restart
builds the seed source of its last block and draws as well, but only above the
genesis block. Contracts draw from the same seed in between, after a leader was
drawn and before the next one is: they ask for the leader first. Every draw is
answered here, as it is for every bound but the greatest.
-/

namespace Trinci

open StepMachines

universe u

variable {A B C T : Type u}

def defaultNetworkName : String := "bootstrap"

def nonce : Bytes := List.replicate 8 0

/-- The hashes a node starts with before its genesis block. -/
def initialHash : Hash := Hash.pack multihashTypeSha256
  [0xd4, 0xff, 0x2e, 0x94, 0xb9, 0xba, 0x93, 0xc2, 0xbd, 0x4f, 0x5e, 0x38, 0x3e, 0xeb, 0x5c, 0x50,
    0x22, 0xfd, 0x4a, 0x22, 0x32, 0x85, 0x62, 0x9c, 0xfe, 0x2c, 0x86, 0xed, 0x48, 0x86, 0xf7, 0x30]
  (by decide)

namespace SeedSource

/-- The seed source of `init_core_from_db`. -/
def ofBlock [Executable B] (block : B) : SeedSource :=
  new Trinci.nonce (bytesOf defaultNetworkName) (Executable.getHash block) (Executable.getTxsHash block)
    (Executable.getRxsHash block)

def settle [Executable B] (seed : SeedSource) (block : B) : SeedSource :=
  seed.updateSeedSource (Executable.getHash block) (Executable.getTxsHash block)
    (Executable.getRxsHash block)

/-- The parts of a seed source that no message changes. -/
def Named (seed : SeedSource) : Prop :=
  seed.nonce = Trinci.nonce ∧ seed.nwName = bytesOf defaultNetworkName

/-- What the drand service does with what the consensus service sends. -/
def serve [Pcg32] (seed : SeedSource) : Output A B C T → SeedSource
  | .msg .drandService (.updateSeedSource lastBlockHash txsHash rxsHash) =>
    seed.updateSeedSource lastBlockHash txsHash rxsHash
  | .req .drandService (.getDRandNum max) => (seed.getDRandNum max).1
  | _ => seed

theorem settle_named [Executable B] {seed : SeedSource} (h : seed.Named) (block : B) :
    seed.settle block = ofBlock block := by
  obtain ⟨hnonce, hname⟩ := h
  simp [settle, ofBlock, updateSeedSource, new, hnonce, hname]

theorem Named.serve [Pcg32] {seed : SeedSource} (h : seed.Named) (out : Output A B C T) :
    (seed.serve out).Named := by
  unfold SeedSource.serve
  split
  · exact h
  · exact h
  · exact h

theorem Named.foldl_serve [Pcg32] {seed : SeedSource} (h : seed.Named)
    (out : List (Output A B C T)) : (out.foldl SeedSource.serve seed).Named := by
  induction out generalizing seed with
  | nil => exact h
  | cons o out ih => exact ih (h.serve o)

end SeedSource

/-- The consensus service with the drand service. -/
structure Drawing (B C : Type u) where
  consensus : ConsensusService B C
  seed : SeedSource

inductive DrawingInput (A B C T : Type u)
  | message (env : Env) (msg : Msg A B C T)
  /-- A number drawn by a contract. -/
  | contractDraw (max : UInt64)

namespace Drawing

variable [Pcg32] [Executable B]

/-- The only number the consensus service asks for is drawn from the seed source that
it just settled on a block. -/
def answered (seed : SeedSource) (block : B) (env : Env) : Env :=
  { env with getDRandNum := fun max => some ((seed.settle block).getDRandNum max).2 }

/-- The leader after a block, with the seed source that is left. -/
def drawn (seed : SeedSource) (players : Players) (block : B) : Option (String × SeedSource) :=
  let seed := seed.settle block
  if players.playersIds.length > 1 then
    let (seed, drandNum) := seed.getDRandNum (players.weights.sum - 1)
    players.getWeightedPlayerIds[drandNum.toNat]?.map fun leader => (leader, seed)
  else players.playersIds.head?.map fun leader => (leader, seed)

def answeredFor (seed : SeedSource) (env : Env) : Msg A B C T → Env
  | .blockConsolidated block _ _ => answered seed block env
  | _ => env

variable [Primitives] [Confirmable C] [DecidableEq C]

def handleMessages (env : Env) (d : Drawing B C) (msg : Msg A B C T) :
    Except ConsensusPanic (Drawing B C × List (Output A B C T)) :=
  match d.consensus.handleMessages (answeredFor d.seed env msg) msg with
  | .error p => .error p
  | .ok (consensus, out) => .ok (⟨consensus, out.foldl SeedSource.serve d.seed⟩, out)

def handle (d : Drawing B C) :
    DrawingInput A B C T → Except ConsensusPanic (Drawing B C × List (Output A B C T))
  | .message env msg => d.handleMessages env msg
  | .contractDraw max => .ok ({ d with seed := (d.seed.getDRandNum max).1 }, [])

/-- A node without blocks is its own only player. -/
def initCoreFromBootstrap (env : Env) (keypair : TrinciKeyPair) (nodeId : String) :
    Except ConsensusPanic (Drawing B C) := do
  let (consensus, out) ←
    (ConsensusService.start env keypair nodeId ⟨[nodeId], [1]⟩ none : Except ConsensusPanic
      (ConsensusService B C × List (Output PUnit B C PUnit)))
  let seed := SeedSource.new nonce (bytesOf defaultNetworkName) initialHash initialHash initialHash
  return ⟨consensus, out.foldl SeedSource.serve seed⟩

/-- A restarted node, with the players and the last block of its database. -/
def initCoreFromDb (env : Env) (keypair : TrinciKeyPair) (nodeId : String) (players : Players)
    (block : B) : Except ConsensusPanic (Drawing B C) := do
  let seed := SeedSource.ofBlock block
  let (consensus, out) ←
    (ConsensusService.start (answered seed block env) keypair nodeId players (some block) :
      Except ConsensusPanic (ConsensusService B C × List (Output PUnit B C PUnit)))
  return ⟨consensus, out.foldl SeedSource.serve seed⟩

/-- The states a node starts with. -/
inductive Started : Drawing B C → Prop
  | bootstrap {env : Env} {keypair : TrinciKeyPair} {nodeId : String} {d : Drawing B C} :
      initCoreFromBootstrap env keypair nodeId = .ok d → Started d
  | restart {env : Env} {keypair : TrinciKeyPair} {nodeId : String} {players : Players}
      {block : B} {d : Drawing B C} :
      initCoreFromDb env keypair nodeId players block = .ok d → Started d

/-- The number drawn after the block is zero, and the first player has a weight. -/
def drawsFirst (players : Players) (block : B) : Bool :=
  Pcg32.nextU64 (SeedSource.ofBlock block).getSeed == 0 &&
    players.getWeightedPlayerIds.head? == players.playersIds.head?

section Draws

variable {env : Env} {d d' : Drawing B C} {msg : Msg A B C T} {out : List (Output A B C T)}
  {players : Players} {block : B}

omit [Confirmable C] [DecidableEq C] [Primitives] in
theorem drawn_named {seed : SeedSource} (h : seed.Named) :
    drawn seed players block = drawn (SeedSource.ofBlock block) players block := by
  have named : (SeedSource.ofBlock block).Named := ⟨rfl, rfl⟩
  simp only [drawn, SeedSource.settle_named h, SeedSource.settle_named named]

omit [Confirmable C] [DecidableEq C] [Primitives] in
theorem drawNewLeader_drawn {seed : SeedSource} {s s' : ConsensusService B C}
    (h : s.drawNewLeader (answered seed block env) block = .ok (s', out)) :
    s' = { s with leader := s'.leader } ∧
      drawn seed s.players block = some (s'.leader, out.foldl SeedSource.serve seed) := by
  simp only [ConsensusService.drawNewLeader, answered] at h
  simp only [drawn]
  split_ifs at h ⊢ with hmany
  · split at h
    · cases h
    · rename_i newLeader hleader
      cases h
      refine ⟨rfl, ?_⟩
      rw [hleader]
      rfl
  · split at h
    · cases h
    · rename_i playerId rest hplayers
      cases h
      refine ⟨rfl, ?_⟩
      rw [hplayers]
      rfl

/-- The consensus service takes the message, and the drand service what it sent. -/
theorem handleMessages_ok (h : d.handleMessages env msg = .ok (d', out)) :
    d.consensus.handleMessages (answeredFor d.seed env msg) msg = .ok (d'.consensus, out) ∧
      d'.seed = out.foldl SeedSource.serve d.seed := by
  unfold handleMessages at h
  split at h
  · cases h
  · next consensus out' hconsensus =>
    cases h
    exact ⟨hconsensus, rfl⟩

theorem handleMessages_named (named : d.seed.Named)
    (h : d.handleMessages env msg = .ok (d', out)) : d'.seed.Named := by
  unfold handleMessages at h
  split at h
  · cases h
  · cases h
    exact named.foldl_serve _

theorem handle_named {input : DrawingInput A B C T} (named : d.seed.Named)
    (h : d.handle input = .ok (d', out)) : d'.seed.Named := by
  cases input with
  | message env msg => exact handleMessages_named named h
  | contractDraw max =>
    cases h
    exact named

omit [Confirmable C] [DecidableEq C] [Primitives] in
theorem Started.named (h : Started d) : d.seed.Named := by
  cases h with
  | bootstrap hstart =>
    obtain ⟨⟨consensus, out⟩, -, hd⟩ := bind_eq_ok.mp hstart
    cases hd
    exact SeedSource.Named.foldl_serve ⟨rfl, rfl⟩ out
  | restart hstart =>
    obtain ⟨⟨consensus, out⟩, -, hd⟩ := bind_eq_ok.mp hstart
    cases hd
    exact SeedSource.Named.foldl_serve ⟨rfl, rfl⟩ out

/-- Nothing but the names of the seed source is left of what happened before. -/
theorem run_named {d₀ : Drawing B C}
    {trace : List (Event (Drawing B C) (DrawingInput A B C T) (Output A B C T))}
    (started : Started d₀) (run : Run (Computes handle) d₀ trace d) : d.seed.Named := by
  apply run.preserves (fun d => d.seed.Named) started.named
  intro d input out d' hnamed hstep
  exact handle_named hnamed hstep

omit [Pcg32] [Confirmable C] [DecidableEq C] [Primitives] in
theorem blockConsolidated_serve [Pcg32] {s : ConsensusService B C} (height : UInt64)
    (seed : SeedSource) : (s.blockConsolidated height : List (Output A B C T)).foldl
      SeedSource.serve seed = seed := by
  have served : ∀ out : List (Output A B C T), (∀ o ∈ out, ∃ msg, o = .msg .blockService msg) →
      out.foldl SeedSource.serve seed = seed := by
    intro out hout
    induction out with
    | nil => rfl
    | cons o out ih =>
      obtain ⟨msg, rfl⟩ := hout o (by simp)
      exact ih fun o ho => hout o (List.mem_cons_of_mem _ ho)
  apply served
  intro o ho
  unfold ConsensusService.blockConsolidated at ho
  split at ho
  · cases ho
  · obtain ⟨proposal, -, hmem⟩ := List.mem_filterMap.mp ho
    obtain ⟨entry, -, rfl⟩ := Option.map_eq_some_iff.mp hmem
    exact ⟨_, rfl⟩

/-- A consolidation leaves the leader and the seed source drawn for its block. -/
theorem handleMessages_blockConsolidated {txsHashes : List Hash}
    (h : d.handleMessages env (.blockConsolidated block txsHashes players) = .ok (d', out)) :
    drawn d.seed players block = some (d'.consensus.leader, d'.seed) := by
  unfold handleMessages at h
  split at h
  · cases h
  · rename_i consensus out' hconsensus
    cases h
    simp only [ConsensusService.handleMessages] at hconsensus
    obtain ⟨⟨s, drawnOut⟩, hdraw, h⟩ := bind_eq_ok.mp hconsensus
    obtain ⟨hs, hdrawn⟩ := drawNewLeader_drawn hdraw
    simp only [pure, Except.pure, Except.ok.injEq, Prod.mk.injEq] at h
    obtain ⟨rfl, rfl⟩ := h
    rw [List.foldl_append, blockConsolidated_serve]
    exact hdrawn

omit [Confirmable C] [DecidableEq C] [Primitives] in
/-- A restarted node is at its last block, with the leader that it draws or the first one. -/
theorem initCoreFromDb_ok {keypair : TrinciKeyPair} {nodeId : String} {r : Drawing B C}
    (h : initCoreFromDb env keypair nodeId players block = .ok r) :
    (r.consensus.height = Executable.getHeight block ∧ r.consensus.players = players ∧
      r.consensus.actualRound = 0) ∧
    (0 < Executable.getHeight block ∧
        drawn (SeedSource.ofBlock block) players block = some (r.consensus.leader, r.seed) ∨
      ¬ 0 < Executable.getHeight block ∧ players.playersIds.head? = some r.consensus.leader ∧
        r.seed = SeedSource.ofBlock block) := by
  obtain ⟨⟨consensus, out⟩, hstart, hr⟩ := bind_eq_ok.mp h
  cases hr
  unfold ConsensusService.start at hstart
  split at hstart
  · cases hstart
  · next leader rest hplayers =>
    dsimp only at hstart
    split at hstart
    · next positive =>
      obtain ⟨hs, hdrawn⟩ := drawNewLeader_drawn hstart
      refine ⟨?_, .inl ⟨positive, hdrawn⟩⟩
      rw [hs]
      exact ⟨rfl, rfl, rfl⟩
    · next genesis =>
      cases hstart
      refine ⟨⟨rfl, rfl, rfl⟩, .inr ⟨genesis, ?_, rfl⟩⟩
      rw [hplayers]
      rfl

omit [Confirmable C] [DecidableEq C] [Primitives] in
/-- A restarted node is at its last block, in the first round. -/
theorem initCoreFromDb_height {keypair : TrinciKeyPair} {nodeId : String} {r : Drawing B C}
    (h : initCoreFromDb env keypair nodeId players block = .ok r) :
    r.consensus.height = Executable.getHeight block ∧ r.consensus.players = players ∧
      r.consensus.actualRound = 0 :=
  (initCoreFromDb_ok h).1

omit [Confirmable C] [DecidableEq C] [Primitives] in
/-- Above the genesis block a restart draws as the consolidation did. -/
theorem initCoreFromDb_drawn {keypair : TrinciKeyPair} {nodeId : String} {r : Drawing B C}
    (positive : 0 < Executable.getHeight block)
    (h : initCoreFromDb env keypair nodeId players block = .ok r) :
    drawn (SeedSource.ofBlock block) players block = some (r.consensus.leader, r.seed) := by
  obtain ⟨-, hdrawn⟩ | ⟨genesis, -⟩ := (initCoreFromDb_ok h).2
  · exact hdrawn
  · exact absurd positive genesis

omit [Confirmable C] [DecidableEq C] [Primitives] in
/-- At the genesis block it takes the first player and leaves the seed source. -/
theorem initCoreFromDb_genesis {keypair : TrinciKeyPair} {nodeId : String} {r : Drawing B C}
    (genesis : ¬ 0 < Executable.getHeight block)
    (h : initCoreFromDb env keypair nodeId players block = .ok r) :
    players.playersIds.head? = some r.consensus.leader ∧ r.seed = SeedSource.ofBlock block := by
  obtain ⟨positive, -⟩ | ⟨-, first⟩ := (initCoreFromDb_ok h).2
  · exact absurd positive genesis
  · exact first

omit [Confirmable C] [DecidableEq C] [Primitives] in
/-- A draw that leaves the first player and an untouched seed source. -/
theorem drawn_first_iff {leader first : String} {seed : SeedSource}
    (h : drawn (SeedSource.ofBlock block) players block = some (leader, seed))
    (head : players.playersIds.head? = some first) :
    (leader = first ∧ seed = SeedSource.ofBlock block) ↔
      players.playersIds.length ≤ 1 ∨ drawsFirst players block = true := by
  have settled : (SeedSource.ofBlock block).settle block = SeedSource.ofBlock block :=
    SeedSource.settle_named ⟨rfl, rfl⟩ block
  simp only [drawn, settled] at h
  by_cases hmany : players.playersIds.length > 1
  · rw [if_pos hmany] at h
    obtain ⟨weighted, hweighted, hpair⟩ := Option.map_eq_some_iff.mp h
    obtain ⟨rfl, rfl⟩ := Prod.mk.inj hpair
    simp only [drawsFirst, Bool.and_eq_true, beq_iff_eq, head]
    constructor
    · rintro ⟨rfl, hseed⟩
      have hzero : Pcg32.nextU64 (SeedSource.ofBlock block).getSeed = 0 :=
        congrArg SeedSource.previousSeed hseed
      refine .inr ⟨hzero, ?_⟩
      rw [List.head?_eq_getElem?, ← hweighted]
      simp [SeedSource.getDRandNum, hzero]
    · rintro (hfew | ⟨hzero, hfirst⟩)
      · omega
      · have hnum : ((SeedSource.ofBlock block).getDRandNum (players.weights.sum - 1)).2 = 0 := by
          simp [SeedSource.getDRandNum, hzero]
        refine ⟨?_, ?_⟩
        · rw [hnum] at hweighted
          rw [List.head?_eq_getElem?] at hfirst
          exact Option.some.inj (hweighted.symm.trans hfirst)
        · simp only [SeedSource.getDRandNum, hzero]
          rfl
  · rw [if_neg hmany, head] at h
    obtain ⟨rfl, rfl⟩ := Prod.mk.inj (Option.some.inj h)
    exact iff_of_true ⟨rfl, rfl⟩ (.inl (by omega))

/-- While every draw is answered, a node that has just handled the consolidation of a block
and a node restarted from it with the same players have the same leader and seed source if
and only if the block is not the genesis block, or there is one player, or the draw after
genesis gives zero and the first player. -/
theorem restarted_agrees_iff {d₀ r : Drawing B C} {env' : Env} {keypair : TrinciKeyPair}
    {nodeId : String} {txsHashes : List Hash}
    {trace : List (Event (Drawing B C) (DrawingInput A B C T) (Output A B C T))}
    (started : Started d₀) (run : Run (Computes handle) d₀ trace d)
    (handled : d.handle (.message env (.blockConsolidated block txsHashes players)) =
      .ok (d', out))
    (restarted : initCoreFromDb env' keypair nodeId players block = .ok r) :
    (d'.consensus.leader = r.consensus.leader ∧ d'.seed = r.seed) ↔
      0 < Executable.getHeight block ∨ players.playersIds.length ≤ 1 ∨
        drawsFirst players block = true := by
  have live := handleMessages_blockConsolidated handled
  rw [drawn_named (run_named started run)] at live
  by_cases hpositive : 0 < Executable.getHeight block
  · have again := initCoreFromDb_drawn hpositive restarted
    obtain ⟨hleader, hseed⟩ := Prod.mk.inj (Option.some.inj (live.symm.trans again))
    exact iff_of_true ⟨hleader, hseed⟩ (.inl hpositive)
  · obtain ⟨hfirst, hseed⟩ := initCoreFromDb_genesis hpositive restarted
    rw [hseed, drawn_first_iff live hfirst]
    simp [hpositive]

end Draws

end Drawing

end Trinci
