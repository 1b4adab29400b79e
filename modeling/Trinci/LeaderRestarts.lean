import Trinci.DRandService
import Trinci.LeaderDraws
import Trinci.ServiceSteps

/-!
# A restarted node and one that stayed up

A draw with the greatest bound ends the thread of the drand service. From then on nobody
gets a number: the consensus service keeps the leader it has, while a restarted node has a
service again. The node below keeps the thread as an option, and as long as no bound is the
greatest one it does what the node does whose draws are all answered.
-/

namespace Trinci

open StepMachines

variable {A B C T : Type}

/-! ## The thread of the drand service -/

namespace SeedSource

variable [Pcg32]

/-- A draw of the service in a build without overflow checks, and the seed source it leaves.
The panic of `rand` leaves nothing. -/
def rand (seed : SeedSource) (max : UInt64) : Option (SeedSource × UInt64) :=
  match DRand.rand false ⟨seed.getSeed, seed⟩ max with
  | .ok (drand, drandNum) => some (drand.seed, drandNum)
  | .error _ => none

theorem rand_of_bounded (seed : SeedSource) {max : UInt64} (h : max ≠ usizeMax) :
    seed.rand max = some (seed.getDRandNum max) := by
  simp only [rand, rand_eq _ h, getDRandNum]

theorem rand_usizeMax (seed : SeedSource) : seed.rand usizeMax = none := by
  obtain ⟨p, hp⟩ : ∃ p, DRand.rand false ⟨seed.getSeed, seed⟩ usizeMax = .error p :=
    Trinci.rand_usizeMax _
  rw [rand, hp]

/-- What the thread does with what the consensus service sends. Only a draw can end it. -/
def serveThread (thread : Option SeedSource) : Output A B C T → Option SeedSource
  | .req .drandService (.getDRandNum max) =>
    thread.bind fun seed => (seed.rand max).map Prod.fst
  | o => thread.map fun seed => seed.serve o

theorem foldl_serveThread_none (out : List (Output A B C T)) :
    out.foldl serveThread none = none := by
  induction out with
  | nil => rfl
  | cons o out ih =>
    have gone : serveThread none o = none := by
      unfold serveThread
      split <;> rfl
    rw [List.foldl_cons, gone, ih]

/-- Where no bound is the greatest, the thread does what the service does that always
answers. -/
theorem foldl_serveThread_some {out : List (Output A B C T)} {seed : SeedSource}
    (bounded : ∀ max, .req .drandService (.getDRandNum max) ∈ out → max ≠ usizeMax) :
    out.foldl serveThread (some seed) = some (out.foldl serve seed) := by
  induction out generalizing seed with
  | nil => rfl
  | cons o out ih =>
    have served : serveThread (some seed) o = some (seed.serve o) := by
      unfold serveThread
      split
      · next max =>
        rw [Option.bind_some, rand_of_bounded seed (bounded max List.mem_cons_self)]
        rfl
      · rfl
    rw [List.foldl_cons, List.foldl_cons, served]
    exact ih fun max hmax => bounded max (List.mem_cons_of_mem _ hmax)

theorem foldl_serveThread_usizeMax {out : List (Output A B C T)} (thread : Option SeedSource)
    (greatest : .req .drandService (.getDRandNum usizeMax) ∈ out) :
    out.foldl serveThread thread = none := by
  induction out generalizing thread with
  | nil => cases greatest
  | cons o out ih =>
    rcases List.mem_cons.mp greatest with rfl | later
    · have gone : serveThread thread
          (.req .drandService (.getDRandNum usizeMax) : Output A B C T) = none := by
        cases thread with
        | none => rfl
        | some seed =>
          rw [serveThread, Option.bind_some, rand_usizeMax]
          rfl
      rw [List.foldl_cons, gone, foldl_serveThread_none]
    · exact ih _ later

end SeedSource

/-! ## The node -/

/-- The consensus service with the drand service, as long as its thread is there. -/
structure DrawingNode (B C : Type) where
  consensus : ConsensusService B C
  drand : Option SeedSource

/-- The bound of the number that a leader is drawn with, if one is drawn. -/
def leaderBounds (players : Players) : List UInt64 :=
  if players.playersIds.length > 1 then [players.weights.sum - 1] else []

/-- The bounds of the numbers drawn while a message is handled. -/
def Msg.bounds : Msg A B C T → List UInt64
  | .blockConsolidated _ _ players => leaderBounds players
  | _ => []

def DrawingInput.bounds : DrawingInput A B C T → List UInt64
  | .message _ msg => msg.bounds
  | .contractDraw max => [max]

namespace DrawingNode

variable [Pcg32] [Executable B]

/-- The answer that `draw_new_leader` gets, if there is a thread that answers. -/
def answered (drand : Option SeedSource) (block : B) (env : Env) : Env :=
  { env with getDRandNum := fun max =>
      drand.bind fun seed => ((seed.settle block).rand max).map Prod.snd }

def answeredFor (drand : Option SeedSource) (env : Env) : Msg A B C T → Env
  | .blockConsolidated block _ _ => answered drand block env
  | _ => env

variable [Primitives] [Confirmable C] [DecidableEq C]

def handleMessages (env : Env) (n : DrawingNode B C) (msg : Msg A B C T) :
    Except ConsensusPanic (DrawingNode B C × List (Output A B C T)) :=
  match n.consensus.handleMessages (answeredFor n.drand env msg) msg with
  | .error p => .error p
  | .ok (consensus, out) => .ok (⟨consensus, out.foldl SeedSource.serveThread n.drand⟩, out)

def handle (n : DrawingNode B C) :
    DrawingInput A B C T → Except ConsensusPanic (DrawingNode B C × List (Output A B C T))
  | .message env msg => n.handleMessages env msg
  | .contractDraw max =>
    .ok ({ n with drand := n.drand.bind fun seed => (seed.rand max).map Prod.fst }, [])

def initCoreFromBootstrap (env : Env) (keypair : TrinciKeyPair) (nodeId : String) :
    Except ConsensusPanic (DrawingNode B C) := do
  let (consensus, out) ←
    (ConsensusService.start env keypair nodeId ⟨[nodeId], [1]⟩ none : Except ConsensusPanic
      (ConsensusService B C × List (Output PUnit B C PUnit)))
  let seed := SeedSource.new nonce (bytesOf defaultNetworkName) initialHash initialHash initialHash
  return ⟨consensus, out.foldl SeedSource.serveThread (some seed)⟩

def initCoreFromDb (env : Env) (keypair : TrinciKeyPair) (nodeId : String) (players : Players)
    (block : B) : Except ConsensusPanic (DrawingNode B C) := do
  let seed := SeedSource.ofBlock block
  let (consensus, out) ←
    (ConsensusService.start (answered (some seed) block env) keypair nodeId players (some block) :
      Except ConsensusPanic (ConsensusService B C × List (Output PUnit B C PUnit)))
  return ⟨consensus, out.foldl SeedSource.serveThread (some seed)⟩

/-- The states a node starts with, and the bounds of what was drawn for them. -/
inductive Started : List UInt64 → DrawingNode B C → Prop
  | bootstrap {env : Env} {keypair : TrinciKeyPair} {nodeId : String} {n : DrawingNode B C} :
      initCoreFromBootstrap env keypair nodeId = .ok n → Started [] n
  | restart {env : Env} {keypair : TrinciKeyPair} {nodeId : String} {players : Players}
      {block : B} {n : DrawingNode B C} :
      initCoreFromDb env keypair nodeId players block = .ok n →
        Started (if 0 < Executable.getHeight block then leaderBounds players else []) n

/-- The bounds of all numbers drawn since a node was started. -/
def drawnBounds (bounds : List UInt64)
    (trace : List (Event (DrawingNode B C) (DrawingInput A B C T) (Output A B C T))) :
    List UInt64 :=
  bounds ++ trace.flatMap fun e => e.input.bounds

end DrawingNode

/-! ## What a message asks the drand service for -/

namespace ConsensusService

section Asks

variable [Executable B] {env env' : Env} {s s' : ConsensusService B C} {block : B}
  {out : List (Output A B C T)} {max : UInt64}

/-- A leader is drawn with one number at most. -/
theorem drawNewLeader_congr (same : ∀ max ∈ leaderBounds s.players,
      env.getDRandNum max = env'.getDRandNum max) :
    (s.drawNewLeader env block : Except ConsensusPanic (_ × List (Output A B C T))) =
      s.drawNewLeader env' block := by
  unfold drawNewLeader
  split
  · next many =>
    have asked : s.players.weights.sum - 1 ∈ leaderBounds s.players := by
      rw [leaderBounds, if_pos many]
      exact List.mem_singleton_self _
    simp only [same _ asked]
  · rfl

theorem drawNewLeader_asks_iff (h : s.drawNewLeader env block = .ok (s', out)) :
    .req .drandService (.getDRandNum max) ∈ out ↔ max ∈ leaderBounds s.players := by
  unfold drawNewLeader at h
  rw [leaderBounds]
  split at h
  · next many =>
    rw [if_pos many, List.mem_singleton]
    dsimp only at h
    split at h
    · cases h
      simp
    · split at h
      · cases h
      · cases h
        simp
  · next few =>
    rw [if_neg few]
    split at h
    · cases h
    · cases h
      simp

/-- What a start asks for: a number for its leader, above the genesis block. -/
theorem start_asks_iff {keypair : TrinciKeyPair} {nodeId : String} {players : Players}
    (h : start env keypair nodeId players (some block) = .ok (s', out)) :
    .req .drandService (.getDRandNum max) ∈ out ↔
      max ∈ if 0 < Executable.getHeight block then leaderBounds players else [] := by
  unfold start at h
  split at h
  · cases h
  · dsimp only at h
    split at h
    · next positive =>
      rw [if_pos positive]
      exact drawNewLeader_asks_iff h
    · next genesis =>
      cases h
      rw [if_neg genesis]
      exact iff_of_false List.not_mem_nil List.not_mem_nil

theorem start_congr {keypair : TrinciKeyPair} {nodeId : String} {players : Players}
    (same : ∀ max ∈ (if 0 < Executable.getHeight block then leaderBounds players else []),
      env.getDRandNum max = env'.getDRandNum max) :
    (start env keypair nodeId players (some block) :
        Except ConsensusPanic (ConsensusService B C × List (Output A B C T))) =
      start env' keypair nodeId players (some block) := by
  unfold start
  split
  · rfl
  · dsimp only
    split
    · next positive =>
      rw [if_pos positive] at same
      exact drawNewLeader_congr same
    · rfl

variable [Primitives] [Confirmable C] [DecidableEq C] {msg : Msg A B C T}

theorem handleMessages_asks_iff (h : s.handleMessages env msg = .ok (s', out)) :
    .req .drandService (.getDRandNum max) ∈ out ↔ max ∈ msg.bounds := by
  have sends := handleMessages_sends h
  cases msg with
  | blockConsolidated block txsHashes players =>
    simp only [handleMessages] at h
    obtain ⟨⟨s₁, out₁⟩, hdraw, h⟩ := bind_eq_ok.mp h
    cases h
    have asks : .req .drandService (.getDRandNum max) ∈ out₁ ↔ max ∈ leaderBounds players :=
      drawNewLeader_asks_iff hdraw
    rw [List.mem_append]
    constructor
    · rintro (hreq | hreq)
      · exact asks.mp hreq
      · have sends : s₁.MaySend (.buildBlock : Msg A B C T) _ :=
          blockConsolidated_sends _ _ hreq
        exact sends.elim
    · exact fun hmax => .inl (asks.mpr hmax)
  | _ => exact iff_of_false (fun hreq => sends _ hreq) List.not_mem_nil

end Asks

end ConsensusService

/-! ## While the thread is there -/

namespace DrawingNode

section Alive

variable [Pcg32] [Executable B] [Primitives] [Confirmable C] [DecidableEq C] {env : Env}
  {n n' : DrawingNode B C} {seed : SeedSource} {out : List (Output A B C T)}

omit [Primitives] [Confirmable C] [DecidableEq C] in
theorem answered_eq {block : B} {max : UInt64} (bounded : max ≠ usizeMax) :
    (answered (some seed) block env).getDRandNum max =
      (Drawing.answered seed block env).getDRandNum max := by
  change ((seed.settle block).rand max).map Prod.snd = some _
  rw [SeedSource.rand_of_bounded _ bounded]
  rfl

theorem handle_message {msg : Msg A B C T}
    (h : n.handle (.message env msg) = .ok (n', out)) :
    n.consensus.handleMessages (answeredFor n.drand env msg) msg = .ok (n'.consensus, out) ∧
      n'.drand = out.foldl SeedSource.serveThread n.drand := by
  rw [handle, handleMessages] at h
  split at h
  · cases h
  · next consensus out' hconsensus =>
    cases h
    exact ⟨hconsensus, rfl⟩

/-- With bounds below the greatest one, a node whose thread is there does what the node does
that is always answered. -/
theorem handle_of_bounded {input : DrawingInput A B C T} (alive : n.drand = some seed)
    (bounded : ∀ max ∈ input.bounds, max ≠ usizeMax) (h : n.handle input = .ok (n', out)) :
    ∃ seed', n'.drand = some seed' ∧
      Drawing.handle ⟨n.consensus, seed⟩ input = .ok (⟨n'.consensus, seed'⟩, out) := by
  cases input with
  | contractDraw max =>
    cases h
    refine ⟨(seed.getDRandNum max).1, ?_, rfl⟩
    rw [alive, Option.bind_some, seed.rand_of_bounded (bounded max List.mem_cons_self)]
    rfl
  | message env msg =>
    obtain ⟨hconsensus, served⟩ := handle_message h
    rw [alive] at hconsensus served
    have asked : ∀ max, Output.req .drandService (.getDRandNum max) ∈ out → max ≠ usizeMax :=
      fun max hreq => bounded max ((ConsensusService.handleMessages_asks_iff hconsensus).mp hreq)
    have same : n.consensus.handleMessages (Drawing.answeredFor seed env msg) msg =
        .ok (n'.consensus, out) := by
      rw [← hconsensus]
      cases msg with
      | blockConsolidated block txsHashes players =>
        simp only [ConsensusService.handleMessages]
        rw [ConsensusService.drawNewLeader_congr]
        exact fun max hmax => (answered_eq (bounded max hmax)).symm
      | _ => rfl
    refine ⟨_, served.trans (SeedSource.foldl_serveThread_some asked), ?_⟩
    rw [Drawing.handle, Drawing.handleMessages, same]

theorem handle_usizeMax {input : DrawingInput A B C T} (greatest : usizeMax ∈ input.bounds)
    (h : n.handle input = .ok (n', out)) : n'.drand = none := by
  cases input with
  | contractDraw max =>
    obtain rfl := List.mem_singleton.mp greatest
    cases h
    cases n.drand with
    | none => rfl
    | some seed =>
      rw [Option.bind_some, seed.rand_usizeMax]
      rfl
  | message env msg =>
    obtain ⟨hconsensus, served⟩ := handle_message h
    rw [served]
    exact SeedSource.foldl_serveThread_usizeMax _
      ((ConsensusService.handleMessages_asks_iff hconsensus).mpr greatest)

theorem handle_gone {input : DrawingInput A B C T} (gone : n.drand = none)
    (h : n.handle input = .ok (n', out)) : n'.drand = none := by
  cases input with
  | contractDraw max =>
    cases h
    rw [gone]
    rfl
  | message env msg =>
    rw [(handle_message h).2, gone]
    exact SeedSource.foldl_serveThread_none _

end Alive

/-! ## From the start -/

section Starts

variable [Pcg32] [Executable B] {env : Env} {n : DrawingNode B C} {keypair : TrinciKeyPair}
  {nodeId : String} {players : Players} {block : B} {bounds : List UInt64}

theorem initCoreFromDb_of_bounded
    (bounded : ∀ max ∈ (if 0 < Executable.getHeight block then leaderBounds players else []),
      max ≠ usizeMax)
    (h : initCoreFromDb env keypair nodeId players block = .ok n) :
    ∃ seed, n.drand = some seed ∧
      Drawing.initCoreFromDb env keypair nodeId players block = .ok ⟨n.consensus, seed⟩ := by
  obtain ⟨⟨consensus, out⟩, hstart, h⟩ := bind_eq_ok.mp h
  cases h
  refine ⟨_, SeedSource.foldl_serveThread_some fun max hreq => ?_, ?_⟩
  · exact bounded max ((ConsensusService.start_asks_iff hstart).mp hreq)
  · rw [ConsensusService.start_congr fun max hmax => answered_eq (bounded max hmax)] at hstart
    exact bind_eq_ok.mpr ⟨_, hstart, rfl⟩

theorem initCoreFromDb_usizeMax
    (greatest : usizeMax ∈ if 0 < Executable.getHeight block then leaderBounds players else [])
    (h : initCoreFromDb env keypair nodeId players block = .ok n) : n.drand = none := by
  obtain ⟨⟨consensus, out⟩, hstart, h⟩ := bind_eq_ok.mp h
  cases h
  exact SeedSource.foldl_serveThread_usizeMax _
    ((ConsensusService.start_asks_iff hstart).mpr greatest)

theorem Started.of_bounded (started : Started bounds n)
    (bounded : ∀ max ∈ bounds, max ≠ usizeMax) :
    ∃ seed, n.drand = some seed ∧ Drawing.Started ⟨n.consensus, seed⟩ := by
  cases started with
  | bootstrap hstart =>
    obtain ⟨⟨consensus, out⟩, hconsensus, h⟩ := bind_eq_ok.mp hstart
    cases h
    obtain rfl : out = [] := by
      cases hconsensus
      rfl
    exact ⟨_, rfl, .bootstrap (bind_eq_ok.mpr ⟨_, hconsensus, rfl⟩)⟩
  | restart hstart =>
    obtain ⟨seed, alive, same⟩ := initCoreFromDb_of_bounded bounded hstart
    exact ⟨seed, alive, .restart same⟩

theorem Started.gone (started : Started bounds n) (greatest : usizeMax ∈ bounds) :
    n.drand = none := by
  cases started with
  | bootstrap _ => cases greatest
  | restart hstart => exact initCoreFromDb_usizeMax greatest hstart

end Starts

/-! ## Every run -/

section Runs

variable [Pcg32] [Executable B] [Primitives] [Confirmable C] [DecidableEq C] {env env' : Env}
  {n₀ n n' r : DrawingNode B C} {bounds : List UInt64} {out : List (Output A B C T)}
  {trace : List (Event (DrawingNode B C) (DrawingInput A B C T) (Output A B C T))}

omit [Pcg32] [Executable B] [Primitives] [Confirmable C] [DecidableEq C] in
theorem drawnBounds_snoc (e : Event (DrawingNode B C) (DrawingInput A B C T) (Output A B C T)) :
    drawnBounds bounds (trace ++ [e]) = drawnBounds bounds trace ++ e.input.bounds := by
  simp [drawnBounds]

/-- As long as no bound was the greatest one, the run is one of the node that is always
answered. -/
theorem run_of_bounded (started : Started bounds n₀) (run : Run (Computes handle) n₀ trace n)
    (bounded : ∀ max ∈ drawnBounds bounds trace, max ≠ usizeMax) :
    ∃ seed d₀, n.drand = some seed ∧ Drawing.Started d₀ ∧
      ∃ trace' : List (Event (Drawing B C) (DrawingInput A B C T) (Output A B C T)),
        Run (Computes Drawing.handle) d₀ trace' ⟨n.consensus, seed⟩ := by
  induction run with
  | nil =>
    obtain ⟨seed, alive, started'⟩ := started.of_bounded fun max hmax =>
      bounded max (List.mem_append_left _ hmax)
    exact ⟨seed, _, alive, started', [], .nil⟩
  | snoc run hstep ih =>
    rw [drawnBounds_snoc] at bounded
    obtain ⟨seed, d₀, alive, started', trace', run'⟩ :=
      ih fun max hmax => bounded max (List.mem_append_left _ hmax)
    obtain ⟨seed', alive', step'⟩ := handle_of_bounded alive
      (fun max hmax => bounded max (List.mem_append_right _ hmax)) hstep
    exact ⟨seed', d₀, alive', started', _, run'.snoc step'⟩

/-- Once a bound was the greatest one, the thread is gone. -/
theorem run_gone (started : Started bounds n₀) (run : Run (Computes handle) n₀ trace n)
    (greatest : usizeMax ∈ drawnBounds bounds trace) : n.drand = none := by
  induction run with
  | nil =>
    rw [drawnBounds, List.flatMap_nil, List.append_nil] at greatest
    exact started.gone greatest
  | snoc run hstep ih =>
    rw [drawnBounds_snoc, List.mem_append] at greatest
    rcases greatest with earlier | now
    · exact handle_gone (ih earlier) hstep
    · exact handle_usizeMax now hstep

/-- Over every run, whatever was received and drawn before, a node that has just handled the
consolidation of a block and a node restarted from it with the same players have the same
leader and a drand service with the same seed source if and only if no number drawn since the
start, that for this block included, had the greatest bound, and the block is not the genesis
block, or there is one player, or the draw after genesis gives zero and the first player. -/
theorem restarted_node_agrees_iff {keypair : TrinciKeyPair} {nodeId : String} {players : Players}
    {block : B} {txsHashes : List Hash} (started : Started bounds n₀)
    (run : Run (Computes handle) n₀ trace n)
    (handled : n.handle (.message env (.blockConsolidated block txsHashes players)) =
      .ok (n', out))
    (restarted : initCoreFromDb env' keypair nodeId players block = .ok r) :
    (n'.consensus.leader = r.consensus.leader ∧
        ∃ seed, n'.drand = some seed ∧ r.drand = some seed) ↔
      (∀ max ∈ drawnBounds bounds trace ++ leaderBounds players, max ≠ usizeMax) ∧
        (0 < Executable.getHeight block ∨ players.playersIds.length ≤ 1 ∨
          Drawing.drawsFirst players block = true) := by
  by_cases bounded : ∀ max ∈ drawnBounds bounds trace ++ leaderBounds players, max ≠ usizeMax
  · have drawn : ∀ max ∈ leaderBounds players, max ≠ usizeMax :=
      fun max hmax => bounded max (List.mem_append_right _ hmax)
    have redrawn : ∀ max ∈ (if 0 < Executable.getHeight block then leaderBounds players else []),
        max ≠ usizeMax := by
      intro max hmax
      split at hmax
      · exact drawn max hmax
      · cases hmax
    obtain ⟨seed, d₀, alive, started', trace', run'⟩ :=
      run_of_bounded started run fun max hmax => bounded max (List.mem_append_left _ hmax)
    obtain ⟨seed₁, alive₁, handled'⟩ := handle_of_bounded alive (by exact drawn) handled
    obtain ⟨seed₂, alive₂, restarted'⟩ := initCoreFromDb_of_bounded redrawn restarted
    have agrees := Drawing.restarted_agrees_iff started' run' handled' restarted'
    rw [alive₁, alive₂]
    constructor
    · rintro ⟨leader, seed', same, same'⟩
      exact ⟨bounded, agrees.mp ⟨leader, Option.some.inj (same.trans same'.symm)⟩⟩
    · rintro ⟨-, first⟩
      obtain ⟨leader, same⟩ := agrees.mpr first
      exact ⟨leader, seed₁, rfl, congrArg some same.symm⟩
  · refine iff_of_false ?_ fun h => bounded h.1
    have greatest : usizeMax ∈ drawnBounds bounds trace ++ leaderBounds players := by
      simpa using bounded
    have gone : n'.drand = none := by
      rcases List.mem_append.mp greatest with earlier | now
      · exact handle_gone (run_gone started run earlier) handled
      · exact handle_usizeMax (by exact now) handled
    rintro ⟨-, seed, alive, -⟩
    rw [gone] at alive
    cases alive

end Runs

end DrawingNode

/-! ## Restarts of one node -/

namespace Sample

open DrawingNode

/-- The block that a bootstrap executes. -/
def bootstrapBlock : Block where
  data :=
    { validator := none
      height := 0
      size := 1
      prevHash := Hash.default
      txsHash := Hash.default
      rxsHash := Hash.default
      stateHash := Hash.default
      timestamp := 0 }
  signature := []

abbrev AliceInput := DrawingInput Hash Block Confirmation Transaction

/-- Alice's node before its genesis block. -/
def aliceAlone : DrawingNode Block Confirmation :=
  ⟨{ node 1 1 with
      nodeId := "alice"
      players := ⟨["alice"], [1]⟩ },
    some (SeedSource.new Trinci.nonce (bytesOf defaultNetworkName) initialHash initialHash
      initialHash)⟩

theorem alice_starts : Started [] aliceAlone :=
  .bootstrap (show initCoreFromBootstrap (input .buildBlock).env (keypair 1) "alice" =
    .ok aliceAlone from rfl)

def aliceGets (block : Block) : AliceInput :=
  .message (input .buildBlock).env (.blockConsolidated block [] players)

/-- After a contract drew a number up to five, alice is restarted from a block. -/
theorem restarted_alice_agrees : ∃ n out, ∃ r : DrawingNode Block Confirmation,
    (finalOf handle aliceAlone [(.contractDraw 5 : AliceInput)]).handle
        (aliceGets (block 2 1 0)) = .ok (n, out) ∧
      initCoreFromDb (input .buildBlock).env (keypair 1) "alice" players (block 2 1 0) = .ok r ∧
      n.consensus.leader = r.consensus.leader ∧
        ∃ seed, n.drand = some seed ∧ r.drand = some seed := by
  have positive : 0 < Executable.getHeight (block 2 1 0) := by decide
  have below : (drawnBounds [] (traceOf handle aliceAlone
      [(.contractDraw 5 : AliceInput)]) ++ leaderBounds players).all (· != usizeMax) = true := by
    decide +kernel
  have bounded : ∀ max ∈ drawnBounds [] (traceOf handle aliceAlone
      [(.contractDraw 5 : AliceInput)]) ++ leaderBounds players, max ≠ usizeMax :=
    fun max hmax => bne_iff_ne.mp (List.all_eq_true.mp below max hmax)
  refine ⟨_, _, _, rfl, rfl, ?_⟩
  exact (restarted_node_agrees_iff alice_starts (traceOf_run (by decide +kernel))
    (show (finalOf handle aliceAlone [(.contractDraw 5 : AliceInput)]).handle
      (aliceGets (block 2 1 0)) = _ from rfl)
    (show initCoreFromDb (input .buildBlock).env (keypair 1) "alice" players (block 2 1 0) = _
      from rfl)).mpr ⟨bounded, .inl positive⟩

/-- The players after genesis decide the leader by a draw, except on a node that was
restarted there. And after a contract drew with the greatest bound, alice keeps her old
leader at a block for which a restarted node draws one. -/
theorem restarted_alice_differs :
    (∃ n out, ∃ r : DrawingNode Block Confirmation,
      aliceAlone.handle (aliceGets bootstrapBlock) = .ok (n, out) ∧
      initCoreFromDb (input .buildBlock).env (keypair 1) "alice" players bootstrapBlock = .ok r ∧
      n.consensus.leader ≠ r.consensus.leader ∧ n.drand ≠ r.drand) ∧
    ∃ n out, ∃ r : DrawingNode Block Confirmation,
      (finalOf handle aliceAlone [(.contractDraw usizeMax : AliceInput)]).handle
        (aliceGets (block 2 1 1)) = .ok (n, out) ∧
      initCoreFromDb (input .buildBlock).env (keypair 1) "alice" players (block 2 1 1) = .ok r ∧
      n.consensus.leader ≠ r.consensus.leader ∧ n.drand = none ∧ r.drand.isSome := by
  refine ⟨⟨_, _, _, rfl, rfl, by decide +kernel, by decide +kernel⟩, _, _, _, rfl, rfl, ?_⟩
  decide +kernel

end Sample

end Trinci
