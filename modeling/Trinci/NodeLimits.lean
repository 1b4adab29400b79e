import Trinci.BulkBudget
import Trinci.FuelLimits

/-!
# The limits of the nodes of a bulk

Fuel for a bulk is limited at its root. A node of it has no limit of its own, and is
meant to share what the root and the nodes before it left, up to what its caller can pay
within the limit of the bulk. What it is given is the minimum of what is left and the
limit of its own data, which is zero. A node is given its share only where the share is
zero as well.
-/

namespace Trinci

open StatefulSteps Exec

variable {W : Type}

theorem word_min_eq_zero {x y : UInt64} : min x y = 0 ↔ x = 0 ∨ y = 0 := by
  rw [← UInt64.toNat_inj, ← UInt64.toNat_inj, ← UInt64.toNat_inj, toNat_min]
  change min x.toNat y.toNat = 0 ↔ x.toNat = 0 ∨ y.toNat = 0
  omega

/-! ## Shares -/

/-- A node that was run, with its caller, the accounts when its limit was taken, and the
limit and consumption of the run. -/
structure NodeRun where
  caller : String
  accounts : Accounts
  limit : UInt64
  consumed : UInt64

/-- The runs in a transcript of nodes. -/
def runsIn : List PartNote → List NodeRun
  | .asked ctxArgs accounts _ :: .called args _ consumed _ :: later =>
    ⟨ctxArgs.caller, accounts, args.initialFuel, consumed⟩ :: runsIn later
  | _ => []

section Shares

variable [Deserialize UInt64]

/-- What a node may burn of a bulk with this limit in bitbell: what remains in fuel, what
its caller can buy within the limit, and the maximum. -/
def NodeRun.share (fuelLimit remaining : UInt64) (run : NodeRun) : UInt64 :=
  min remaining
    (min (bitbellToWmFuel (min fuelLimit (balanceOf run.caller run.accounts))) maxWmFuel)

/-- Each run is given its share of what the runs before it left. -/
def SharesFuel (fuelLimit : UInt64) : (remaining : UInt64) → List NodeRun → Prop
  | _, [] => True
  | remaining, run :: later =>
    run.limit = run.share fuelLimit remaining ∧
      SharesFuel fuelLimit (remaining - min run.consumed run.limit) later

instance SharesFuel.decidable (fuelLimit : UInt64) :
    ∀ (remaining : UInt64) (runs : List NodeRun), Decidable (SharesFuel fuelLimit remaining runs)
  | _, [] => .isTrue trivial
  | remaining, run :: later =>
    have := SharesFuel.decidable fuelLimit (remaining - min run.consumed run.limit) later
    inferInstanceAs (Decidable (_ ∧ _))

/-- A run whose share is nothing: nothing remains, or its caller cannot buy any fuel
within the limit of the bulk. -/
def NodeRun.Starved (fuelLimit remaining : UInt64) (run : NodeRun) : Prop :=
  remaining = 0 ∨ bitbellToWmFuel (min fuelLimit (balanceOf run.caller run.accounts)) = 0

instance (fuelLimit remaining : UInt64) (run : NodeRun) :
    Decidable (run.Starved fuelLimit remaining) :=
  inferInstanceAs (Decidable (_ ∨ _))

variable {fuelLimit remaining : UInt64}

theorem NodeRun.share_eq_zero_iff {run : NodeRun} :
    run.share fuelLimit remaining = 0 ↔ run.Starved fuelLimit remaining := by
  have hmax : ¬ maxWmFuel = 0 := by decide
  rw [share, word_min_eq_zero, word_min_eq_zero, or_iff_left hmax]
  rfl

/-- Runs without fuel leave what remains, so they share it exactly if it is worth nothing
to any of them. -/
theorem sharesFuel_iff_starved {runs : List NodeRun} (unfuelled : ∀ run ∈ runs, run.limit = 0) :
    SharesFuel fuelLimit remaining runs ↔ ∀ run ∈ runs, run.Starved fuelLimit remaining := by
  induction runs with
  | nil =>
    refine iff_of_true trivial ?_
    rintro run ⟨⟩
  | cons run later ih =>
    obtain ⟨hlimit, hlater⟩ := List.forall_mem_cons.mp unfuelled
    have hfree : min run.consumed run.limit = 0 := word_min_eq_zero.mpr (.inr hlimit)
    rw [SharesFuel, hfree, UInt64.sub_zero, ih hlater, List.forall_mem_cons, hlimit,
      ← NodeRun.share_eq_zero_iff, eq_comm]

end Shares

/-! ## The runs of a bulk -/

section Runs

variable [Primitives] [NodeCodec] {config : WasmConfig} {height : UInt64}

/-- Once fuel is counted, nodes without a limit of their own run without fuel. -/
theorem NodesRan.unfuelled (counted : activateFuelConsumption < height)
    {nodes : List SignedTransaction} {remaining : UInt64} {notes : List PartNote}
    {events : List SmartContractEvent} {results : List (String × BulkResult)}
    (h : NodesRan config height nodes remaining notes events results)
    (unlimited : ∀ node ∈ nodes, node.data.getFuelLimit = 0) :
    ∀ run ∈ runsIn notes, run.limit = 0 := by
  have free : nodeLimit height = 0 := if_pos counted
  induction h with
  | failed ctxArgs args limited =>
    have hnode := unlimited _ (List.mem_cons_self ..)
    rintro run hrun
    cases List.mem_singleton.mp hrun
    rw [limited, calculateWmFuelLimit_node (fun _ => hnode), free]
  | next ctxArgs args limited later ih =>
    obtain ⟨hnode, hnodes⟩ := List.forall_mem_cons.mp unlimited
    rw [runsIn, List.forall_mem_cons]
    refine ⟨?_, ih hnodes⟩
    rw [limited, calculateWmFuelLimit_node (fun _ => hnode), free]
  | _ => rintro run ⟨⟩

variable [Wm W]

/-- What the root of a bulk leaves of its limit. -/
def WasmConfig.leftByRoot (config : WasmConfig) (tx : SignedTransaction)
    (data : TransactionDataBulkV1) (bulkCaller : String) (limit height : UInt64)
    (index : UInt32) (blockTimestamp : UInt64) (s : Execution W) : UInt64 :=
  match result (config.handleBulkRoot tx data.txs.root.data bulkCaller limit height index
    blockTimestamp) s with
  | .ok (.ok (_, consumed, _)) => limit - min consumed limit
  | _ => limit

/-- The runs of the nodes of a bulk, in order. -/
def WasmConfig.nodeRuns (config : WasmConfig) (tx : SignedTransaction)
    (data : TransactionDataBulkV1) (bulkCaller : String) (limit height : UInt64)
    (index : UInt32) (blockTimestamp : UInt64) (s : Execution W) : List NodeRun :=
  let root := config.handleBulkRoot tx data.txs.root.data bulkCaller limit height index
    blockTimestamp
  let bulk := config.handleBulkV1 tx data bulkCaller limit height index blockTimestamp
  runsIn ((after bulk (s.logged (L := PartNote))).wm.log.drop
    (after root (s.logged (L := PartNote))).wm.log.length)

theorem nodeRuns_unfuelled (counted : activateFuelConsumption < height)
    {tx : SignedTransaction} {data : TransactionDataBulkV1} {bulkCaller : String} {limit : UInt64}
    {index : UInt32} {blockTimestamp : UInt64} {s : Execution W}
    (unlimited : ∀ node ∈ data.txs.nodes.getD [], node.data.getFuelLimit = 0)
    {executed : Except Receipt (Option (List SmartContractEvent) × List (String × BulkResult))}
    (h : result (config.handleBulkV1 tx data bulkCaller limit height index blockTimestamp)
      (s.logged (L := PartNote)) = .ok executed) :
    ∀ run ∈ config.nodeRuns tx data bulkCaller limit height index blockTimestamp s,
      run.limit = 0 := by
  rw [WasmConfig.nodeRuns, WasmConfig.handleBulkV1]
  rw [WasmConfig.handleBulkV1] at h
  obtain ⟨rooted, -, h, hafter⟩ := of_bind_ok h
  obtain ⟨notes, hnotes, rest⟩ := config.handleBulkAfterRoot_ran h
  rw [hafter, hnotes, List.drop_left]
  cases rest with
  | nodes nodes => exact nodes.unfuelled counted unlimited
  | _ => rintro run ⟨⟩

/-- For every machine, every bulk that was verified and every limit, once fuel is counted:
where the bulk comes to results, each of its nodes is run with its share exactly if none
of them has a share. -/
theorem nodesShare_iff_starved (config : WasmConfig) (tx : SignedTransaction)
    (data : TransactionDataBulkV1) (hdata : tx.data = .bulkV1 data) (bulkCaller : String)
    (limit height : UInt64) (index : UInt32) (blockTimestamp : UInt64)
    (counted : activateFuelConsumption < height)
    (verified : (Transaction.bulkTransaction tx).verify = .ok true) (s : Execution W)
    (executed : Except Receipt (Option (List SmartContractEvent) × List (String × BulkResult)))
    (h : result (config.handleBulkV1 tx data bulkCaller limit height index blockTimestamp) s =
      .ok executed) :
    SharesFuel tx.data.getFuelLimit
        (config.leftByRoot tx data bulkCaller limit height index blockTimestamp s)
        (config.nodeRuns tx data bulkCaller limit height index blockTimestamp s) ↔
      ∀ run ∈ config.nodeRuns tx data bulkCaller limit height index blockTimestamp s,
        run.Starved tx.data.getFuelLimit
          (config.leftByRoot tx data bulkCaller limit height index blockTimestamp s) := by
  have same := (WasmConfig.handleBulkV1_related (SameLogged.congruence (L := PartNote))
    (SameNetwork.refl config) tx data bulkCaller limit height index blockTimestamp s s.logged rfl).1
  apply sharesFuel_iff_starved
  exact nodeRuns_unfuelled counted (verify_unlimited hdata verified) (same.symm.trans h)

end Runs

namespace Sample

section Coins

/-- Balances in thousands, in one byte. -/
local instance coinCodec : NodeCodec :=
  { nodeCodec with
    units := fun bytes => bytes.head?.map fun coins => 1000 * coins.toUInt64 }

/-- The accounts of alice and bob, each with this many thousands of bitbell. -/
def purses (coins : UInt8) : Accounts where
  accounts :=
    [keypair 1, keypair 2].foldl (fun accounts kp =>
      let id := kp.publicKey.accountId?.getD ""
      accounts.insert id { Account.new id none with assets := (∅ : AList _).insert "TRINCI" [coins] })
      ∅
  data := ∅

/-- The hungry machine over these accounts. -/
def hungryOver (coins : UInt8) : Execution Hungry :=
  { hungry 1 with fork := ({ Db.empty with accounts := purses coins } : Db).createFork }

def runsOver (coins : UInt8) : List NodeRun :=
  config.nodeRuns pairedBulk pairedData "alice" 700000 20001 0 0 (hungryOver coins)

def leftOver (coins : UInt8) : UInt64 :=
  config.leftByRoot pairedBulk pairedData "alice" 700000 20001 0 0 (hungryOver coins)

/-- Whether the bulk of the two nodes comes to results. -/
def comesToResults (coins : UInt8) : Bool :=
  match result (config.handleBulkV1 pairedBulk pairedData "alice" 700000 20001 0 0)
    (hungryOver coins) with
  | .ok _ => true
  | .error _ => false

theorem of_comesToResults {coins : UInt8} (h : comesToResults coins = true) :
    ∃ executed, result (config.handleBulkV1 pairedBulk pairedData "alice" 700000 20001 0 0)
      (hungryOver coins) = .ok executed := by
  rw [comesToResults] at h
  split at h
  · next executed hrun => exact ⟨executed, hrun⟩
  · cases h

/-- Callers without balances have no share. -/
theorem broke_nodes_share : SharesFuel 5000 (leftOver 0) (runsOver 0) := by
  obtain ⟨executed, hrun⟩ := of_comesToResults (show comesToResults 0 = true by decide +kernel)
  exact (nodesShare_iff_starved config pairedBulk pairedData rfl "alice" 700000 20001 0 0 (by decide)
    (by decide +kernel) (hungryOver 0) executed hrun).mpr (by decide +kernel)

/-- Bob can pay for all that the root left, and his node runs without fuel. -/
theorem funded_node_starves : (Transaction.bulkTransaction pairedBulk).verify = .ok true ∧
    comesToResults 5 = true ∧ (runsOver 5).head?.map (NodeRun.share 5000 (leftOver 5)) = some 700000 ∧
    (runsOver 5).head?.map NodeRun.limit = some 0 ∧
    ¬ SharesFuel 5000 (leftOver 5) (runsOver 5) := by
  decide +kernel

end Coins

end Sample

end Trinci
