import Mathlib.Data.List.AList
import Trinci.CoreModels
import Trinci.StepMachines

/-!
# The history of the players

The mining tool records the players at every thousandth block, from the updates of all the
nodes it handles. It keeps the rows of all recorded updates and, apart, those of the last
one, by which it decides whether an update is new. The history has one row for a player and
a height, in the order of the heights, exactly as long as no two recorded updates report a
player at one height and none goes back. Access to the database does not fail here.
-/

namespace Trinci

open StepMachines

structure ResourceInfo where
  used : UInt64
  total : UInt64
  measure : String

structure SystemStats where
  cpusUsage : ResourceInfo
  diskUsage : ResourceInfo
  memUsage : ResourceInfo

structure NodeHealth where
  lastTime : UInt64
  systemStats : SystemStats
  unconfirmedPoolLen : UInt64
  blockHeight : UInt64

structure BitbelSnapshot where
  time : UInt64
  units : UInt64

structure TCoinSnapshot where
  time : UInt64
  unitsInStake : UInt64
  total : UInt64

structure LifeCoinSnapshot where
  time : UInt64
  units : UInt8
  total : UInt8

structure PoPUpdate where
  bitbel : BitbelSnapshot
  tcoin : TCoinSnapshot
  lifePoints : LifeCoinSnapshot

structure PoPStatus where
  bitbel : List BitbelSnapshot
  tcoin : List TCoinSnapshot
  lifePoints : List LifeCoinSnapshot

structure NodeNetworking where
  ip : String
  network : String
  rest : UInt16
  socket : UInt16

structure PlayerInfo where
  connection : NodeNetworking
  stats : PoPStatus
  health : NodeHealth
  status : Bool

structure NodeStateUpdate where
  accountId : String
  popUpdate : PoPUpdate
  healthUpdate : NodeHealth
  playersUpdate : List Player

structure PlayerSnapshot where
  accountId : String
  tCoin : UInt64
  time : UInt64
  blockHeight : UInt64
  deriving DecidableEq

/-- The entries of the database that an update reads and writes. -/
structure UpdateService where
  players : Option (List PlayerSnapshot)
  last : Option (List PlayerSnapshot)
  handled : AList fun _ : String => PlayerInfo

namespace NodeStateUpdate

variable (update : NodeStateUpdate)

def height : UInt64 := update.healthUpdate.blockHeight

def accounts : List String := update.playersUpdate.map Player.accountId

/-- The rows of an update. -/
def snapshots : List PlayerSnapshot :=
  update.playersUpdate.map fun player =>
    { accountId := player.accountId
      tCoin := player.unitsInStake
      time := update.healthUpdate.lastTime
      blockHeight := update.healthUpdate.blockHeight }

end NodeStateUpdate

def PlayerInfo.update (info : PlayerInfo) (update : NodeStateUpdate) : PlayerInfo :=
  { info with
    stats :=
      { bitbel := info.stats.bitbel ++ [update.popUpdate.bitbel]
        tcoin := info.stats.tcoin ++ [update.popUpdate.tcoin]
        lifePoints := info.stats.lifePoints ++ [update.popUpdate.lifePoints] }
    health := update.healthUpdate }

namespace UpdateService

/-- The database before the first update. -/
def empty (handled : AList fun _ : String => PlayerInfo) : UpdateService := ⟨none, none, handled⟩

/-- The height of the last rows, and zero if there are none. -/
def lastHeight (rows : List PlayerSnapshot) : UInt64 :=
  match rows.head? with
  | some player => player.blockHeight
  | none => 0

/-- The tables of all players after an update at a recorded height. -/
def recordPlayers (s : UpdateService) (update : NodeStateUpdate) : UpdateService :=
  match s.last with
  | some last =>
    if lastHeight last ≤ update.height then
      { s with
        last := some update.snapshots
        players := match s.players with
          | some players => some (players ++ update.snapshots)
          | none => some update.snapshots }
    else s
  | none => { s with players := some update.snapshots, last := some update.snapshots }

def updateDb (s : UpdateService) (update : NodeStateUpdate) : UpdateService :=
  if update.height % 1000 = 0 then
    let s := s.recordPlayers update
    match s.handled.lookup update.accountId with
    | some info => { s with handled := s.handled.insert update.accountId (info.update update) }
    | none => s
  else s

/-- The stored history. -/
def rows (s : UpdateService) : List PlayerSnapshot := s.players.getD []

/-- At most one row for each player and height, and the heights in order. -/
structure Ordered (rows : List PlayerSnapshot) : Prop where
  distinct : (rows.map fun row => (row.accountId, row.blockHeight)).Nodup
  ascending : rows.Pairwise fun row later => row.blockHeight ≤ later.blockHeight

abbrev UpdateStep := Event UpdateService NodeStateUpdate Unit

def Updates (s : UpdateService) (update : NodeStateUpdate) (_ : List Unit) (s' : UpdateService) :
    Prop :=
  s.updateDb update = s'

/-- Whether an update is recorded. -/
def Records (s : UpdateService) (update : NodeStateUpdate) : Prop :=
  update.height % 1000 = 0 ∧ ∀ last, s.last = some last → lastHeight last ≤ update.height

instance (s : UpdateService) (update : NodeStateUpdate) : Decidable (s.Records update) :=
  match h : s.last with
  | some last => decidable_of_iff (update.height % 1000 = 0 ∧ lastHeight last ≤ update.height)
      (by simp [Records, h])
  | none => decidable_of_iff (update.height % 1000 = 0) (by simp [Records, h])

/-- The updates that were recorded. -/
def recorded (trace : List UpdateStep) : List NodeStateUpdate :=
  (trace.filter fun e => decide (e.before.Records e.input)).map Event.input

theorem recorded_snoc (trace : List UpdateStep) (e : UpdateStep) :
    recorded (trace ++ [e]) =
      recorded trace ++ if e.before.Records e.input then [e.input] else [] := by
  rw [recorded, List.filter_append, List.map_append, ← recorded]
  by_cases records : e.before.Records e.input
  · simp [records]
  · simp [records]

/-! ## What is stored -/

/-- The rows of all recorded updates, and those of the last one. -/
structure Stores (updates : List NodeStateUpdate) (s : UpdateService) : Prop where
  rows : s.rows = updates.flatMap NodeStateUpdate.snapshots
  last : s.last = updates.getLast?.map NodeStateUpdate.snapshots
  both : s.last = none ↔ s.players = none

/-- An update that is not recorded leaves both tables. -/
theorem updateDb_of_not_records {s : UpdateService} {update : NodeStateUpdate}
    (h : ¬ s.Records update) :
    (s.updateDb update).players = s.players ∧ (s.updateDb update).last = s.last := by
  unfold updateDb
  split
  · next thousandth =>
    have same : s.recordPlayers update = s := by
      unfold recordPlayers
      split
      · next last hlast =>
        refine if_neg fun le => h ⟨thousandth, fun _ found => ?_⟩
        cases hlast.symm.trans found
        exact le
      · next hlast =>
        refine (h ⟨thousandth, fun _ found => ?_⟩).elim
        cases hlast.symm.trans found
    rw [same]
    dsimp only
    split <;> exact ⟨rfl, rfl⟩
  · exact ⟨rfl, rfl⟩

/-- A recorded update is appended to the history, and its rows are the last ones. -/
theorem updateDb_of_records {s : UpdateService} {update : NodeStateUpdate}
    (h : s.Records update) :
    (s.updateDb update).last = some update.snapshots ∧
      (s.updateDb update).players =
        some ((if s.last = none then [] else s.rows) ++ update.snapshots) := by
  obtain ⟨thousandth, newer⟩ := h
  have recorded : (s.recordPlayers update).last = some update.snapshots ∧
      (s.recordPlayers update).players =
        some ((if s.last = none then [] else s.rows) ++ update.snapshots) := by
    unfold recordPlayers
    split
    · next last hlast =>
      rw [if_pos (newer last hlast), if_neg (by simp [hlast])]
      refine ⟨rfl, ?_⟩
      rw [rows]
      cases s.players <;> rfl
    · next hlast =>
      rw [if_pos hlast]
      exact ⟨rfl, rfl⟩
  rw [updateDb, if_pos thousandth]
  dsimp only
  split <;> exact recorded

theorem Stores.step {updates : List NodeStateUpdate} {s : UpdateService} (h : Stores updates s)
    (update : NodeStateUpdate) :
    Stores (updates ++ if s.Records update then [update] else []) (s.updateDb update) := by
  by_cases records : s.Records update
  · obtain ⟨last, players⟩ := updateDb_of_records records
    rw [if_pos records]
    refine ⟨?_, ?_, ?_⟩
    · rw [UpdateService.rows, players, Option.getD_some, List.flatMap_append, List.flatMap_singleton]
      congr 1
      split
      · next none =>
        have players := h.both.mp none
        rw [← h.rows, UpdateService.rows, players]
        rfl
      · exact h.rows
    · rw [last, List.getLast?_concat]
      rfl
    · rw [last, players]
      simp
  · obtain ⟨players, last⟩ := updateDb_of_not_records records
    rw [if_neg records, List.append_nil]
    refine ⟨?_, last.trans h.last, ?_⟩
    · rw [UpdateService.rows, players]
      exact h.rows
    · rw [last, players]
      exact h.both

theorem run_stores {handled : AList fun _ : String => PlayerInfo} {trace : List UpdateStep}
    {s : UpdateService} (run : Run Updates (empty handled) trace s) :
    Stores (recorded trace) s := by
  induction run with
  | nil => exact ⟨rfl, rfl, Iff.rfl⟩
  | snoc _ hstep ih =>
    cases hstep
    rw [recorded_snoc]
    exact ih.step _

/-! ## When the history is in order -/

theorem ordered_snapshots_iff (update : NodeStateUpdate) :
    Ordered update.snapshots ↔ update.accounts.Nodup := by
  have keys : (update.snapshots.map fun row => (row.accountId, row.blockHeight)) =
      update.accounts.map fun account => (account, update.height) := by
    simp [NodeStateUpdate.snapshots, NodeStateUpdate.accounts, NodeStateUpdate.height]
  have nodup : (update.accounts.map fun account => (account, update.height)).Nodup ↔
      update.accounts.Nodup :=
    List.nodup_map_iff fun _ _ h => congrArg Prod.fst h
  constructor
  · intro ordered
    rw [← nodup, ← keys]
    exact ordered.distinct
  · intro distinct
    refine ⟨keys ▸ nodup.mpr distinct, ?_⟩
    rw [NodeStateUpdate.snapshots, List.pairwise_map]
    exact List.pairwise_of_forall fun _ _ => UInt64.le_refl _

/-- A recorded update names no player twice; none of its players was reported at its height
before, and none at a greater one. -/
def Follows (updates : List NodeStateUpdate) (update : NodeStateUpdate) : Prop :=
  update.accounts.Nodup ∧ ∀ before ∈ updates, ∀ account ∈ before.accounts,
    ∀ other ∈ update.accounts,
      before.height ≤ update.height ∧ (account = other → before.height ≠ update.height)

instance (updates : List NodeStateUpdate) (update : NodeStateUpdate) :
    Decidable (Follows updates update) :=
  inferInstanceAs (Decidable (_ ∧ _))

theorem forall_mem_snapshots (update : NodeStateUpdate) {P : String → UInt64 → Prop} :
    (∀ row ∈ update.snapshots, P row.accountId row.blockHeight) ↔
      ∀ account ∈ update.accounts, P account update.height := by
  simp [NodeStateUpdate.snapshots, NodeStateUpdate.accounts, NodeStateUpdate.height]

theorem ordered_append_iff (updates : List NodeStateUpdate) (update : NodeStateUpdate) :
    Ordered ((updates ++ [update]).flatMap NodeStateUpdate.snapshots) ↔
      Ordered (updates.flatMap NodeStateUpdate.snapshots) ∧ Follows updates update := by
  have across : (∀ row ∈ updates.flatMap NodeStateUpdate.snapshots, ∀ later ∈ update.snapshots,
      row.blockHeight ≤ later.blockHeight ∧
        (row.accountId = later.accountId → row.blockHeight ≠ later.blockHeight)) ↔
      ∀ before ∈ updates, ∀ account ∈ before.accounts, ∀ other ∈ update.accounts,
        before.height ≤ update.height ∧ (account = other → before.height ≠ update.height) := by
    rw [List.forall_mem_flatMap]
    refine forall₂_congr fun before _ => ?_
    have rewritten (row : PlayerSnapshot) := forall_mem_snapshots update
      (P := fun other height => row.blockHeight ≤ height ∧
        (row.accountId = other → row.blockHeight ≠ height))
    simp only [rewritten]
    exact forall_mem_snapshots before (P := fun account height => ∀ other ∈ update.accounts,
      height ≤ update.height ∧ (account = other → height ≠ update.height))
  rw [List.flatMap_append, List.flatMap_singleton, Follows, ← across, ← ordered_snapshots_iff]
  constructor
  · rintro ⟨distinct, ascending⟩
    rw [List.map_append, List.nodup_append] at distinct
    rw [List.pairwise_append] at ascending
    refine ⟨⟨distinct.1, ascending.1⟩, ⟨distinct.2.1, ascending.2.1⟩, ?_⟩
    intro row hrow later hlater
    refine ⟨ascending.2.2 row hrow later hlater, fun account height => ?_⟩
    exact distinct.2.2 _ (List.mem_map_of_mem hrow) _ (List.mem_map_of_mem hlater)
      (Prod.ext account height)
  · rintro ⟨before, now, cross⟩
    constructor
    · rw [List.map_append, List.nodup_append]
      refine ⟨before.distinct, now.distinct, ?_⟩
      intro key hkey key' hkey' same
      obtain ⟨row, hrow, rfl⟩ := List.mem_map.mp hkey
      obtain ⟨later, hlater, rfl⟩ := List.mem_map.mp hkey'
      obtain ⟨account, height⟩ := Prod.mk.inj same
      exact (cross row hrow later hlater).2 account height
    · rw [List.pairwise_append]
      exact ⟨before.ascending, now.ascending, fun row hrow later hlater =>
        (cross row hrow later hlater).1⟩

/-- What an update has to be so that the history stays in order. -/
def Fits (earlier : List UpdateStep) (e : UpdateStep) : Prop :=
  e.before.Records e.input → Follows (recorded earlier) e.input

instance (earlier : List UpdateStep) (e : UpdateStep) : Decidable (Fits earlier e) :=
  inferInstanceAs (Decidable (_ → _))

/-- In every run the history is in order, exactly as long as the recorded updates follow
each other. -/
theorem run_ordered_iff {handled : AList fun _ : String => PlayerInfo} {trace : List UpdateStep}
    {s : UpdateService} (run : Run Updates (empty handled) trace s) :
    Along (fun _ e => Ordered e.after.rows) trace ↔ Along Fits trace := by
  suffices both : (Along (fun _ e => Ordered e.after.rows) trace ↔ Along Fits trace) ∧
      (Along Fits trace → Ordered s.rows) from both.1
  induction run with
  | nil =>
    refine ⟨iff_of_true (along_nil _) (along_nil _), fun _ => ⟨?_, ?_⟩⟩
    · exact List.nodup_nil
    · exact List.Pairwise.nil
  | @snoc trace s s' update out run hstep ih =>
    obtain ⟨same, ordered⟩ := ih
    have step : Ordered s.rows → (Ordered s'.rows ↔ Fits trace ⟨s, update, out, s'⟩) := by
      intro before
      rw [(run_stores (run.snoc hstep)).rows, recorded_snoc]
      rw [(run_stores run).rows] at before
      by_cases records : s.Records update
      · rw [if_pos records, ordered_append_iff]
        exact ⟨fun after _ => after.2, fun fits => ⟨before, fits records⟩⟩
      · rw [if_neg records, List.append_nil]
        exact iff_of_true before fun recorded => (records recorded).elim
    rw [along_snoc, along_snoc]
    refine ⟨⟨?_, ?_⟩, ?_⟩
    · rintro ⟨all, last⟩
      have fits := same.mp all
      exact ⟨fits, (step (ordered fits)).mp last⟩
    · rintro ⟨fits, last⟩
      exact ⟨same.mpr fits, (step (ordered fits)).mpr last⟩
    · rintro ⟨fits, last⟩
      exact (step (ordered fits)).mpr last

/-- The events of the updates in a row, and the tables after them. -/
def updated : UpdateService → List NodeStateUpdate → List UpdateStep × UpdateService
  | s, [] => ([], s)
  | s, update :: updates =>
    let rest := updated (s.updateDb update) updates
    (⟨s, update, [], s.updateDb update⟩ :: rest.1, rest.2)

theorem updated_run (s : UpdateService) (updates : List NodeStateUpdate) :
    Run Updates s (updated s updates).1 (updated s updates).2 := by
  induction updates generalizing s with
  | nil => exact .nil
  | cons update updates ih => exact .cons rfl (ih _)

end UpdateService

namespace Sample

open UpdateService

/-- A handled node reports alice at a height. -/
def report (node : String) (height : UInt64) : NodeStateUpdate where
  accountId := node
  popUpdate := ⟨⟨7, 0⟩, ⟨7, 10, 10⟩, ⟨7, 3, 3⟩⟩
  healthUpdate := ⟨7, ⟨⟨1, 2, "percent"⟩, ⟨1, 2, "GB"⟩, ⟨1, 2, "MB"⟩⟩, 0, height⟩
  playersUpdate := [⟨"alice", 10, 3⟩]

def sameBlock : List NodeStateUpdate := [report "bob" 1000, report "carol" 1000]

/-- Two nodes report the same block, and alice is recorded twice. -/
theorem block_recorded_twice : ∃ trace s, Run Updates (UpdateService.empty ∅) trace s ∧
    trace.map Event.input = sameBlock ∧
    s.rows = [⟨"alice", 10, 7, 1000⟩, ⟨"alice", 10, 7, 1000⟩] ∧
    ¬ Along (fun _ e => UpdateService.Ordered e.after.rows) trace := by
  refine ⟨_, _, updated_run (UpdateService.empty ∅) sameBlock, rfl, by decide +kernel,
    fun along => ?_⟩
  have distinct := (along [_] _ [] rfl).distinct
  revert distinct
  decide +kernel

def laterBlock : List NodeStateUpdate := [report "bob" 1000, report "carol" 2000]

/-- Reports of different blocks are recorded in order. -/
theorem later_block_recorded : ∃ trace s, Run Updates (UpdateService.empty ∅) trace s ∧
    trace.map Event.input = laterBlock ∧
    s.rows = [⟨"alice", 10, 7, 1000⟩, ⟨"alice", 10, 7, 2000⟩] ∧
    Along (fun _ e => UpdateService.Ordered e.after.rows) trace := by
  have run := updated_run (UpdateService.empty ∅) laterBlock
  refine ⟨_, _, run, rfl, by decide +kernel, (run_ordered_iff run).mpr ?_⟩
  have fits : Along (fun earlier e => decide (Fits earlier e) = true)
      (updated (UpdateService.empty ∅) laterBlock).1 :=
    along_of_check (by decide +kernel)
  exact fits.imp fun _ _ h => of_decide_eq_true h

end Sample

end Trinci
