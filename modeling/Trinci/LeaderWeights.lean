import Trinci.DRandService
import Trinci.LeaderDraws
import Trinci.PlayersReaders
import Trinci.WeightedLists

/-!
# Leaders drawn by weight

The ids of the players are repeated by weight in one vector, and the number drawn is an
index into it. The sum of the weights, the bound below it, the capacity of the vector and
the index are kept with their panics.
-/

namespace Trinci

universe u

/-! ## The draw with its panics -/

inductive DrawPanic
  | arithmetic (panic : UsizePanic)
  | capacityOverflow
  | indexOutOfBounds
  deriving DecidableEq

/-- A vector holds at most `isize::MAX` bytes, and a string of it takes 24. -/
def maxStrings : Nat := (2 ^ 63 - 1) / 24

def sumUsize (checks : Bool) (weights : List UInt64) : Except UsizePanic UInt64 :=
  weights.foldlM (addUsize checks) 0

namespace Players

/-- `get_weighted_player_ids` with its panics. Neither the capacity the vector starts with
nor one it grows to may take too many bytes. -/
def getWeightedPlayerIdsOrPanic (checks : Bool) (players : Players) :
    Except DrawPanic (List String) := do
  let totalWeight ← (sumUsize checks players.weights).mapError .arithmetic
  if maxStrings < totalWeight.toNat then .error .capacityOverflow
  else if maxStrings < players.getWeightedPlayerIds.length then .error .capacityOverflow
  else .ok players.getWeightedPlayerIds

/-- The number of `draw_new_leader`, none if the request for it fails. -/
def drawNumber (checks : Bool) (answer : UInt64 → Option UInt64) (players : Players) :
    Except DrawPanic (Option UInt64) := do
  let sum ← (sumUsize checks players.weights).mapError .arithmetic
  let max ← (subUsize checks sum 1).mapError .arithmetic
  return answer max

def leaderFor (checks : Bool) (players : Players) (drandNum : UInt64) :
    Except DrawPanic String := do
  let weightedPlayerIds ← players.getWeightedPlayerIdsOrPanic checks
  match weightedPlayerIds[drandNum.toNat]? with
  | some newLeader => .ok newLeader
  | none => .error .indexOutOfBounds

/-- The new leader of `draw_new_leader`, none if the leader stays. -/
def drawLeader (checks : Bool) (answer : UInt64 → Option UInt64) (players : Players) :
    Except DrawPanic (Option String) :=
  if players.playersIds.length > 1 then do
    let drawn ← players.drawNumber checks answer
    match drawn with
    | none => return none
    | some drandNum => (players.leaderFor checks drandNum).map some
  else
    match players.playersIds with
    | [] => .error .indexOutOfBounds
    | playerId :: _ => .ok (some playerId)

/-! ## What the weights say -/

def entries (players : Players) : List (String × Nat) :=
  players.playersIds.zip (players.weights.map UInt64.toNat)

/-- The sum of the weights, without a bound. -/
def totalWeight (players : Players) : Nat := (players.weights.map UInt64.toNat).sum

def weightOf (players : Players) (id : String) : Nat :=
  Weighted.total (players.entries.filter fun entry => entry.1 = id)

theorem getWeightedPlayerIds_eq (players : Players) :
    players.getWeightedPlayerIds = Weighted.expand players.entries := by
  rw [getWeightedPlayerIds, Weighted.expand, entries, List.zip_map_right, List.flatMap_map]
  rfl

theorem length_getWeightedPlayerIds {players : Players}
    (paired : players.playersIds.length = players.weights.length) :
    players.getWeightedPlayerIds.length = players.totalWeight := by
  have seconds : players.entries.map Prod.snd = players.weights.map UInt64.toNat := by
    apply List.map_snd_zip
    rw [List.length_map, paired]
  rw [getWeightedPlayerIds_eq, Weighted.length_expand, Weighted.total, seconds, totalWeight]

end Players

/-- What the drand service answers when the generator gives the number. -/
def answersWith (checks : Bool) (randNumber max : UInt64) : Option UInt64 :=
  (DRand.bounded checks randNumber max).toOption

/-- Whatever number is drawn, the leader is the player whose interval it lies in, and of the
numbers that can be drawn each player has as many as its weight. -/
structure DrawnByWeight (checks : Bool) (players : Players) : Prop where
  leads : ∀ randNumber, ∃ leader,
    players.drawLeader checks (answersWith checks randNumber) = .ok (some leader)
  inInterval : 1 < players.playersIds.length → ∀ randNumber drandNum leader,
    players.drawNumber checks (answersWith checks randNumber) = .ok (some drandNum) →
    players.drawLeader checks (answersWith checks randNumber) = .ok (some leader) →
    Weighted.Covers players.entries drandNum.toNat leader
  byWeight : 1 < players.playersIds.length → ∀ id,
    {drandNum : UInt64 | (∃ randNumber, players.drawNumber checks (answersWith checks randNumber) =
      .ok (some drandNum)) ∧ players.leaderFor checks drandNum = .ok id}.ncard =
    players.weightOf id

/-! ## The arithmetic -/

section Arithmetic

variable (checks : Bool)

theorem addUsize_of_lt {a b : UInt64} (h : a.toNat + b.toNat < 2 ^ 64) :
    addUsize checks a b = .ok (a + b) ∧ (a + b).toNat = a.toNat + b.toNat := by
  refine ⟨if_neg ?_, ?_⟩
  · rintro ⟨-, overflow⟩
    exact absurd overflow (Nat.not_le.mpr h)
  · rw [UInt64.toNat_add, Nat.mod_eq_of_lt h]

theorem foldlM_addUsize {weights : List UInt64} {start : UInt64}
    (h : start.toNat + (weights.map UInt64.toNat).sum < 2 ^ 64) :
    ∃ sum, weights.foldlM (addUsize checks) start = .ok sum ∧
      sum.toNat = start.toNat + (weights.map UInt64.toNat).sum := by
  induction weights generalizing start with
  | nil => exact ⟨start, rfl, rfl⟩
  | cons w weights ih =>
    rw [List.map_cons, List.sum_cons] at h ⊢
    have room : start.toNat + w.toNat < 2 ^ 64 := by omega
    obtain ⟨added, bound⟩ := addUsize_of_lt checks room
    obtain ⟨sum, hsum, total⟩ := @ih (start + w) (by omega)
    refine ⟨sum, ?_, by omega⟩
    rw [List.foldlM_cons, added]
    exact hsum

theorem sumUsize_of_lt {weights : List UInt64} (h : (weights.map UInt64.toNat).sum < 2 ^ 64) :
    ∃ sum, sumUsize checks weights = .ok sum ∧ sum.toNat = (weights.map UInt64.toNat).sum := by
  have room : (0 : UInt64).toNat + (weights.map UInt64.toNat).sum < 2 ^ 64 := by
    rw [UInt64.toNat_zero, Nat.zero_add]
    exact h
  obtain ⟨sum, hsum, total⟩ := foldlM_addUsize checks room
  rw [UInt64.toNat_zero, Nat.zero_add] at total
  exact ⟨sum, hsum, total⟩

/-- A build without overflow checks adds up to the wrapped sum. -/
theorem sumUsize_false (weights : List UInt64) : sumUsize false weights = .ok weights.sum := by
  have wraps : ∀ start : UInt64,
      weights.foldlM (addUsize false) start = .ok (start + weights.sum) := by
    induction weights with
    | nil =>
      intro start
      rw [List.sum_nil, UInt64.add_zero]
      rfl
    | cons w weights ih =>
      intro start
      rw [List.sum_cons, ← UInt64.add_assoc, ← ih (start + w)]
      rfl
  rw [sumUsize, wraps, UInt64.zero_add]

theorem subUsize_one {a : UInt64} (h : 0 < a.toNat) :
    subUsize checks a 1 = .ok (a - 1) ∧ a - 1 ≠ usizeMax ∧ a - 1 + 1 = a := by
  have one : ¬ a < 1 := by
    rw [UInt64.lt_iff_toNat_lt]
    change ¬ a.toNat < 1
    omega
  refine ⟨if_neg fun underflow => one underflow.2, ?_, UInt64.sub_add_cancel a 1⟩
  intro greatest
  have zero : a = 0 := by
    rw [← UInt64.sub_add_cancel a 1, greatest]
    rfl
  rw [zero] at h
  exact absurd h (by decide)

end Arithmetic

/-! ## When the draws go by weight -/

namespace Players

variable {checks : Bool} {players : Players}

theorem mapError_ok {ε ε' α : Type} {f : ε → ε'} (a : α) :
    (Except.ok a : Except ε α).mapError f = .ok a := rfl

/-- A leader was found in a vector that fits. -/
theorem leaderFor_eq_ok {drandNum : UInt64} {leader : String}
    (h : players.leaderFor checks drandNum = .ok leader) :
    players.getWeightedPlayerIds.length ≤ maxStrings ∧
      players.getWeightedPlayerIds[drandNum.toNat]? = some leader := by
  obtain ⟨ids, hids, h⟩ := StepMachines.bind_eq_ok.mp h
  obtain ⟨totalWeight, -, hids⟩ := StepMachines.bind_eq_ok.mp hids
  split at hids
  · cases hids
  · split at hids
    · cases hids
    · next fits =>
      cases hids
      split at h
      · next newLeader hleader =>
        cases h
        exact ⟨by omega, hleader⟩
      · cases h

theorem drawLeader_many {answer : UInt64 → Option UInt64} {leader : String}
    (many : players.playersIds.length > 1)
    (h : players.drawLeader checks answer = .ok (some leader)) :
    ∃ drandNum, players.drawNumber checks answer = .ok (some drandNum) ∧
      players.leaderFor checks drandNum = .ok leader := by
  rw [drawLeader, if_pos many] at h
  obtain ⟨drawn, hdrawn, h⟩ := StepMachines.bind_eq_ok.mp h
  cases drawn with
  | none => cases h
  | some drandNum =>
    refine ⟨drandNum, hdrawn, ?_⟩
    change (players.leaderFor checks drandNum).map some = .ok (some leader) at h
    cases hleader : players.leaderFor checks drandNum with
    | error p =>
      rw [hleader] at h
      cases h
    | ok newLeader =>
      rw [hleader] at h
      cases h
      rfl

/-- The stakes fit into a vector of strings, and there is one. -/
structure Fits (players : Players) : Prop where
  many : 1 < players.playersIds.length
  paired : players.playersIds.length = players.weights.length
  positive : 1 ≤ players.totalWeight
  small : players.totalWeight ≤ maxStrings

section Fitting

variable (checks) (fits : players.Fits)

include fits

theorem Fits.sum : ∃ sum, sumUsize checks players.weights = .ok sum ∧
    sum.toNat = players.totalWeight := by
  have small : players.totalWeight < 2 ^ 64 := Nat.lt_of_le_of_lt fits.small (by decide)
  exact sumUsize_of_lt checks small

theorem Fits.drawNumber (randNumber : UInt64) :
    ∃ drandNum, players.drawNumber checks (answersWith checks randNumber) = .ok (some drandNum) ∧
      drandNum.toNat = randNumber.toNat % players.totalWeight := by
  obtain ⟨sum, hsum, total⟩ := fits.sum checks
  have positive : 0 < sum.toNat := by
    rw [total]
    exact fits.positive
  obtain ⟨hmax, below, above⟩ := subUsize_one checks positive
  refine ⟨randNumber % sum, ?_, by rw [UInt64.toNat_mod, total]⟩
  have answered : answersWith checks randNumber (sum - 1) = some (randNumber % sum) := by
    rw [answersWith, bounded_eq below, above]
    rfl
  simp only [Players.drawNumber, hsum, hmax, mapError_ok, bind, Except.bind, pure, Except.pure,
    answered]

theorem Fits.getWeightedPlayerIdsOrPanic :
    players.getWeightedPlayerIdsOrPanic checks = .ok players.getWeightedPlayerIds := by
  obtain ⟨sum, hsum, total⟩ := fits.sum checks
  have start : ¬ maxStrings < sum.toNat := by
    rw [total]
    exact Nat.not_lt.mpr fits.small
  have growth : ¬ maxStrings < players.getWeightedPlayerIds.length := by
    rw [length_getWeightedPlayerIds fits.paired]
    exact Nat.not_lt.mpr fits.small
  simp only [Players.getWeightedPlayerIdsOrPanic, hsum, mapError_ok, bind, Except.bind,
    if_neg start, if_neg growth]

theorem Fits.leaderFor_eq_ok_iff {drandNum : UInt64} {leader : String} :
    players.leaderFor checks drandNum = .ok leader ↔
      players.getWeightedPlayerIds[drandNum.toNat]? = some leader := by
  constructor
  · exact fun h => (leaderFor_eq_ok h).2
  · intro h
    simp only [leaderFor, fits.getWeightedPlayerIdsOrPanic checks, bind, Except.bind, h]

theorem Fits.leaderFor {drandNum : UInt64} (inside : drandNum.toNat < players.totalWeight) :
    ∃ leader, players.leaderFor checks drandNum = .ok leader := by
  rw [← length_getWeightedPlayerIds fits.paired] at inside
  exact ⟨_, (fits.leaderFor_eq_ok_iff checks).mpr (List.getElem?_eq_getElem inside)⟩

theorem Fits.leads (randNumber : UInt64) :
    ∃ leader, players.drawLeader checks (answersWith checks randNumber) = .ok (some leader) := by
  obtain ⟨drandNum, hdrawn, rest⟩ := fits.drawNumber checks randNumber
  have inside : drandNum.toNat < players.totalWeight := by
    rw [rest]
    exact Nat.mod_lt _ fits.positive
  obtain ⟨leader, hleader⟩ := fits.leaderFor checks inside
  refine ⟨leader, ?_⟩
  rw [drawLeader, if_pos fits.many, hdrawn]
  change (players.leaderFor checks drandNum).map some = _
  rw [hleader]
  rfl

/-- The numbers that can be drawn are those below the sum of the weights. -/
theorem Fits.drawn_iff (drandNum : UInt64) :
    (∃ randNumber, players.drawNumber checks (answersWith checks randNumber) =
      .ok (some drandNum)) ↔ drandNum.toNat < players.totalWeight := by
  constructor
  · rintro ⟨randNumber, h⟩
    obtain ⟨drandNum', h', rest⟩ := fits.drawNumber checks randNumber
    rw [h] at h'
    cases h'
    rw [rest]
    exact Nat.mod_lt _ fits.positive
  · intro inside
    obtain ⟨drandNum', h', rest⟩ := fits.drawNumber checks drandNum
    rw [Nat.mod_eq_of_lt inside] at rest
    rw [UInt64.toNat_inj.mp rest] at h'
    exact ⟨drandNum, h'⟩

theorem Fits.byWeight (id : String) :
    {drandNum : UInt64 | (∃ randNumber, players.drawNumber checks (answersWith checks randNumber) =
      .ok (some drandNum)) ∧ players.leaderFor checks drandNum = .ok id}.ncard =
    players.weightOf id := by
  have positions : UInt64.toNat '' {drandNum : UInt64 |
      (∃ randNumber, players.drawNumber checks (answersWith checks randNumber) =
        .ok (some drandNum)) ∧ players.leaderFor checks drandNum = .ok id} =
      {n : Nat | players.getWeightedPlayerIds[n]? = some id} := by
    ext n
    constructor
    · rintro ⟨drandNum, ⟨-, hleader⟩, rfl⟩
      exact (fits.leaderFor_eq_ok_iff checks).mp hleader
    · intro hn
      obtain ⟨inside, -⟩ := List.getElem?_eq_some_iff.mp hn
      rw [length_getWeightedPlayerIds fits.paired] at inside
      have word : n < 2 ^ 64 :=
        Nat.lt_of_lt_of_le inside (Nat.le_trans fits.small (by decide))
      have same : (UInt64.ofNat n).toNat = n := UInt64.toNat_ofNat_of_lt' word
      have drawn : (UInt64.ofNat n).toNat < players.totalWeight := by
        rw [same]
        exact inside
      refine ⟨UInt64.ofNat n, ⟨(fits.drawn_iff checks _).mpr drawn, ?_⟩, same⟩
      rw [fits.leaderFor_eq_ok_iff checks, same]
      exact hn
  have injective : Function.Injective UInt64.toNat := fun _ _ => UInt64.toNat_inj.mp
  rw [← Set.ncard_image_of_injective _ injective, positions, Weighted.ncard_positions,
    getWeightedPlayerIds_eq, Weighted.count_expand, weightOf]

end Fitting

/-- With one player nothing is drawn. With more, the draws go by weight exactly if there is a
stake at all and the ids repeated by stake fit into a vector. -/
theorem drawnByWeight_iff (checks : Bool) (players : Players)
    (paired : players.playersIds.length = players.weights.length) :
    DrawnByWeight checks players ↔ players.playersIds.length = 1 ∨
      1 < players.playersIds.length ∧ 1 ≤ players.totalWeight ∧
        players.totalWeight ≤ maxStrings := by
  constructor
  · intro drawn
    obtain ⟨leader, h⟩ := drawn.leads 0
    by_cases many : players.playersIds.length > 1
    · obtain ⟨drandNum, -, hleader⟩ := drawLeader_many many h
      obtain ⟨small, found⟩ := leaderFor_eq_ok hleader
      obtain ⟨inside, -⟩ := List.getElem?_eq_some_iff.mp found
      rw [length_getWeightedPlayerIds paired] at small inside
      exact .inr ⟨many, by omega, small⟩
    · rw [drawLeader, if_neg many] at h
      split at h
      · cases h
      · next playerId rest hplayers =>
        left
        rw [hplayers, List.length_cons] at many ⊢
        omega
  · rintro (single | ⟨many, positive, small⟩)
    · have few : ¬ players.playersIds.length > 1 := by omega
      obtain ⟨playerId, hplayers⟩ := List.length_eq_one_iff.mp single
      refine ⟨fun randNumber => ⟨playerId, ?_⟩, fun many => absurd many few,
        fun many => absurd many few⟩
      rw [drawLeader, if_neg few, hplayers]
    · have fits : players.Fits := ⟨many, paired, positive, small⟩
      refine ⟨fits.leads checks, fun _ randNumber drandNum leader hdrawn h => ?_,
        fun _ => fits.byWeight checks⟩
      obtain ⟨drandNum', hdrawn', hleader⟩ := drawLeader_many many h
      rw [hdrawn] at hdrawn'
      cases hdrawn'
      rw [← Weighted.getElem?_expand_iff, ← getWeightedPlayerIds_eq]
      exact (leaderFor_eq_ok hleader).2

end Players

/-! ## The services that draw -/

section Services

variable {A B C T : Type u} [Pcg32]

/-- The number of the generator is that of the seed source the service holds. -/
theorem DRandService.getDRandNum_answersWith [Primitives] (checks : Bool) {s : DRandService}
    (valid : s.drand.seed.Valid) (max : UInt64) :
    (s.getDRandNum checks max).toOption.map Prod.snd =
      answersWith checks (Pcg32.nextU64 s.drand.seed.getSeed) max := by
  simp only [DRandService.getDRandNum, DRand.new, SeedSource.getSeedOrPanic_eq valid, bind,
    Except.bind, DRand.rand, answersWith]
  cases DRand.bounded checks (Pcg32.nextU64 s.drand.seed.getSeed) max <;> rfl

omit [Pcg32] in
/-- Where no panic ends it, the consensus service takes the leader that is drawn. -/
theorem drawNewLeader_of_drawLeader [Executable B] (env : Env) (s : ConsensusService B C)
    (block : B) {drawn : Option String}
    (h : s.players.drawLeader false env.getDRandNum = .ok drawn) :
    ∃ out : List (Output A B C T),
      s.drawNewLeader env block = .ok ({ s with leader := drawn.getD s.leader }, out) := by
  rw [ConsensusService.drawNewLeader]
  by_cases many : s.players.playersIds.length > 1
  · rw [Players.drawLeader, if_pos many] at h
    have asked : s.players.drawNumber false env.getDRandNum =
        .ok (env.getDRandNum (s.players.weights.sum - 1)) := by
      rw [Players.drawNumber, sumUsize_false]
      rfl
    rw [asked] at h
    simp only [if_pos many]
    cases hnumber : env.getDRandNum (s.players.weights.sum - 1) with
    | none =>
      rw [hnumber] at h
      cases h
      exact ⟨_, rfl⟩
    | some drandNum =>
      rw [hnumber] at h
      change (s.players.leaderFor false drandNum).map some = .ok drawn at h
      cases hleader : s.players.leaderFor false drandNum with
      | error p =>
        rw [hleader] at h
        cases h
      | ok leader =>
        rw [hleader] at h
        cases h
        simp only [(Players.leaderFor_eq_ok hleader).2]
        exact ⟨_, rfl⟩
  · rw [Players.drawLeader, if_neg many] at h
    simp only [if_neg many]
    cases hplayers : s.players.playersIds with
    | nil =>
      rw [hplayers] at h
      cases h
    | cons playerId rest =>
      rw [hplayers] at h
      cases h
      exact ⟨_, rfl⟩

omit [Pcg32] in
/-- A consolidation sends as many weights as ids. -/
theorem loadPlayers_paired [NodeCodec] {accounts : Accounts} {players : Players}
    (h : loadPlayers accounts = .ok players) :
    players.playersIds.length = players.weights.length := by
  cases listed : accounts.listedIds with
  | error p =>
    rw [loadPlayers_eq, listed] at h
    cases h
  | ok playersIds =>
    cases playersIds with
    | none =>
      rw [loadPlayers_eq, listed] at h
      cases h
      rw [List.length_map]
    | some ids =>
      obtain ⟨-, rfl⟩ := (loadPlayers_listed listed).mp h
      rw [List.length_map]

/-- The leader of a consensus service whose players were sent by a consolidation has the
interval in which the number of its drand service lies, if there is a stake at all and the
ids repeated by stake fit into a vector. -/
theorem drawNewLeader_covers [NodeCodec] [Primitives] [Executable B] {env : Env}
    {s : ConsensusService B C} {drand : DRandService} {accounts : Accounts} (block : B)
    (loaded : loadPlayers accounts = .ok s.players) (many : 1 < s.players.playersIds.length)
    (positive : 1 ≤ s.players.totalWeight) (small : s.players.totalWeight ≤ maxStrings)
    (valid : drand.drand.seed.Valid)
    (answers : ∀ max, env.getDRandNum max = (drand.getDRandNum false max).toOption.map Prod.snd) :
    ∃ leader drandNum, ∃ out : List (Output A B C T),
      s.drawNewLeader env block = .ok ({ s with leader := leader }, out) ∧
      s.players.drawNumber false env.getDRandNum = .ok (some drandNum) ∧
      Weighted.Covers s.players.entries drandNum.toNat leader := by
  have fits : s.players.Fits := ⟨many, loadPlayers_paired loaded, positive, small⟩
  have answered : env.getDRandNum = answersWith false (Pcg32.nextU64 drand.drand.seed.getSeed) := by
    funext max
    rw [answers, DRandService.getDRandNum_answersWith false valid]
  obtain ⟨leader, hleader⟩ := fits.leads false (Pcg32.nextU64 drand.drand.seed.getSeed)
  obtain ⟨drandNum, hdrawn, hfor⟩ := Players.drawLeader_many many hleader
  rw [← answered] at hleader hdrawn
  obtain ⟨out, hdraw⟩ := drawNewLeader_of_drawLeader env s block hleader
  refine ⟨leader, drandNum, out, hdraw, hdrawn, ?_⟩
  rw [← Weighted.getElem?_expand_iff, ← Players.getWeightedPlayerIds_eq]
  exact (Players.leaderFor_eq_ok hfor).2

end Services

namespace Sample

theorem draws_by_stake : DrawnByWeight false ⟨["alice", "bob"], [1, 2]⟩ :=
  (Players.drawnByWeight_iff false ⟨["alice", "bob"], [1, 2]⟩ rfl).mpr (.inr (by decide))

/-- Two players without a stake: the bound of the draw is below zero, or the greatest number,
for which the drand service has no answer. -/
theorem no_stake_no_leader :
    Players.drawLeader true (answersWith true 7) ⟨["alice", "bob"], [0, 0]⟩ =
        .error (.arithmetic .subtractOverflow) ∧
      Players.drawLeader false (answersWith false 7) ⟨["alice", "bob"], [0, 0]⟩ = .ok none ∧
      DRand.bounded false 7 usizeMax = .error .divideByZero ∧
      ¬ DrawnByWeight false ⟨["alice", "bob"], [0, 0]⟩ := by
  have unanswered : Players.drawLeader false (answersWith false 7) ⟨["alice", "bob"], [0, 0]⟩ =
    .ok none := by decide +kernel
  refine ⟨by decide +kernel, unanswered, by decide +kernel, fun drawn => ?_⟩
  obtain ⟨leader, h⟩ := drawn.leads 7
  rw [unanswered] at h
  cases h

end Sample

end Trinci
