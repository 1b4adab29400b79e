import Trinci.BulkTranscripts
import Trinci.FuelConversion
import Trinci.TransactionAuthentication

/-!
# The fuel budget of a bulk

The fuel limit of a bulk is handed down to its root and, as what remains of it, to its
nodes. A part is charged what it consumed, up to the limit it ran with, or a flat price
in the blocks before fuel was counted. The flat price, the price of a node that is
refused and the limit of a node that runs in the block of the change do not look at what
remains. What a machine replies to the parts of a bulk is kept in a log that nothing
reads; the budget of a bulk is kept exactly for some logs.
-/

namespace Trinci

open StatefulSteps Exec

variable {W : Type}

/-! ## Replies -/

/-- What a machine replied to a part of a bulk. -/
inductive MachineReply
  | refused
  | called (limit consumed : UInt64) (result : Except WasmError Bytes)

/-- The reply to the check of a contract: only a refusal is kept. -/
def MachineReply.ofCheck : Except WasmError Hash → List MachineReply
  | .error _ => [.refused]
  | .ok _ => []

/-- The reply to a call. -/
def MachineReply.ofCall (args : CallArgs)
    (out : List SmartContractEvent × UInt64 × Except WasmError Bytes) : List MachineReply :=
  [.called args.initialFuel out.2.1 out.2.2]

instance : Notes MachineReply W where
  ofCall args _ := MachineReply.ofCall args
  ofCheck _ _ _ _ := MachineReply.ofCheck

/-- What a note says was replied to a part. A part that is granted is called next. -/
def PartNote.reply? : PartNote → Option MachineReply
  | .asked _ _ granted => if granted then none else some .refused
  | .called args _ consumed result => some (.called args.initialFuel consumed result)

def repliesIn (notes : List PartNote) : List MachineReply := notes.filterMap PartNote.reply?

/-- The replies can be read from a transcript. -/
theorem replies_read : NotesRead W PartNote.reply? where
  ofCall args w out := rfl
  ofCheck contract ctxArgs blockTimestamp w checked := by
    cases checked with
    | error e => rfl
    | ok appHash => rfl

/-! ## What a bulk is charged -/

/-- The limit that a node of a bulk runs with. Only the block of the change and those
before it give it any fuel. -/
def nodeLimit (height : UInt64) : UInt64 :=
  if activateFuelConsumption < height then 0 else maxWmFuel

theorem calculateWmFuelLimit_node [NodeCodec] {height fuelLimit : UInt64}
    (unlimited : activateFuelConsumption < height → fuelLimit = 0) (caller : String)
    (accounts : Accounts) (remaining : UInt64) :
    calculateWmFuelLimit caller accounts height (min remaining fuelLimit) = nodeLimit height := by
  have zero_min : ∀ x : UInt64, min x 0 = 0 := by
    intro x
    rw [← UInt64.toNat_inj, toNat_min]
    exact Nat.min_zero _
  have min_zero : ∀ x : UInt64, min 0 x = 0 := by
    intro x
    rw [← UInt64.toNat_inj, toNat_min]
    exact Nat.zero_min _
  by_cases hheight : activateFuelConsumption < height
  · rw [calculateWmFuelLimit, nodeLimit, if_pos hheight, if_pos hheight, unlimited hheight,
      zero_min]
    split
    · rfl
    · split
      · rfl
      · rw [min_zero]
        exact min_zero _
  · rw [calculateWmFuelLimit, nodeLimit, if_neg hheight, if_neg hheight]

/-- The replies to the nodes of a bulk with what the nodes are charged. -/
inductive NodeReplies (height : UInt64) : List MachineReply → List UInt64 → Prop
  | done : NodeReplies height [] []
  | foreign : NodeReplies height [] [0]
  | refused : NodeReplies height [.refused] [getFuelBurntForError]
  | failed (consumed : UInt64) (e : WasmError) :
      NodeReplies height [.called (nodeLimit height) consumed (.error e)]
        [bulkFuel height consumed (nodeLimit height) (.error e)]
  | next (consumed : UInt64) (rcpt : Bytes) {replies : List MachineReply} {burnt : List UInt64} :
      NodeReplies height replies burnt →
      NodeReplies height (.called (nodeLimit height) consumed (.ok rcpt) :: replies)
        (bulkFuel height consumed (nodeLimit height) (.ok rcpt) :: burnt)

/-- What the results of a bulk say was burnt. -/
def burntIn (results : List (String × BulkResult)) : List UInt64 :=
  results.map fun entry => entry.2.burntWmFuel

/-- Nodes without a limit of their own are charged for their replies as listed. -/
theorem NodesRan.nodeReplies [Primitives] [NodeCodec] {config : WasmConfig} {height : UInt64}
    {nodes : List SignedTransaction}
    (unlimited : activateFuelConsumption < height → ∀ node ∈ nodes, node.data.getFuelLimit = 0)
    {remaining : UInt64} {notes : List PartNote} {events : List SmartContractEvent}
    {results : List (String × BulkResult)}
    (h : NodesRan config height nodes remaining notes events results) :
    NodeReplies height (repliesIn notes) (burntIn results) := by
  induction h with
  | done remaining => exact .done
  | foreign hnetwork => exact .foreign
  | refused => exact .refused
  | @failed node _ _ _ _ _ _ consumed e ctxArgs args limited =>
    have first : activateFuelConsumption < height → node.data.getFuelLimit = 0 :=
      fun hheight => unlimited hheight node (List.mem_cons_self ..)
    rw [calculateWmFuelLimit_node first] at limited
    change NodeReplies height [.called args.initialFuel consumed (.error e)]
      [bulkFuel height consumed args.initialFuel (.error e)]
    rw [limited]
    exact .failed consumed e
  | @next node _ _ _ rcpt _ _ _ consumed notes results ctxArgs args limited later ih =>
    have first : activateFuelConsumption < height → node.data.getFuelLimit = 0 :=
      fun hheight => unlimited hheight node (List.mem_cons_self ..)
    have rest := ih fun hheight node hnode => unlimited hheight node (List.mem_cons_of_mem _ hnode)
    rw [calculateWmFuelLimit_node first] at limited
    change NodeReplies height (.called args.initialFuel consumed (.ok rcpt) :: repliesIn notes)
      (bulkFuel height consumed args.initialFuel (.ok rcpt) :: burntIn results)
    rw [limited]
    exact .next consumed rcpt rest

/-- The replies to a bulk with what its parts are charged. An empty root is free. -/
inductive BulkReplies (height limit : UInt64) : List MachineReply → List UInt64 → Prop
  | failedRoot (consumed : UInt64) (e : WasmError) :
      BulkReplies height limit [.called limit consumed (.error e)]
        [bulkFuel height consumed limit (.error e)]
  | root (consumed : UInt64) (rcpt : Bytes) {replies : List MachineReply} {burnt : List UInt64} :
      NodeReplies height replies burnt →
      BulkReplies height limit (.called limit consumed (.ok rcpt) :: replies)
        (bulkFuel height consumed limit (.ok rcpt) :: burnt)
  | emptyRoot {replies : List MachineReply} {burnt : List UInt64} :
      NodeReplies height replies burnt → BulkReplies height limit replies (0 :: burnt)

theorem bulkFuel_zero (height limit : UInt64) (result : Except WasmError Bytes) :
    bulkFuel height 0 limit result = 0 := by
  have unburnt : min 0 limit = 0 := by
    rw [← UInt64.toNat_inj, toNat_min]
    exact Nat.zero_min _
  simp only [bulkFuel, unburnt, ne_eq, not_true, and_false, if_false]

theorem BulkRan.bulkReplies [Primitives] [NodeCodec] {config : WasmConfig} {height limit : UInt64}
    {data : TransactionDataBulkV1}
    (unlimited : activateFuelConsumption < height →
      ∀ node ∈ data.txs.nodes.getD [], node.data.getFuelLimit = 0)
    {notes : List PartNote} {events : Option (List SmartContractEvent)}
    {results : List (String × BulkResult)}
    (h : BulkRan config height limit data notes (.ok (events, results))) :
    BulkReplies height limit (repliesIn notes) (burntIn results) := by
  obtain ⟨root, rest⟩ := h
  cases rest with
  | @failedRoot _ consumed e name text =>
    cases root with
    | called hroot limited =>
      rw [← limited]
      exact .failedRoot consumed e
  | @nodes _ _ _ consumed rcpt name results nodes =>
    have later := nodes.nodeReplies unlimited
    cases root with
    | called hroot limited =>
      rw [← limited]
      exact .root consumed rcpt later
    | empty hroot =>
      change BulkReplies height limit (repliesIn _)
        (bulkFuel height 0 limit (.ok [192]) :: burntIn results)
      rw [bulkFuel_zero]
      exact .emptyRoot later

/-! ## The budget -/

/-- The sum of what was burnt, without wrapping. -/
def total (burnt : List UInt64) : ℕ := (burnt.map UInt64.toNat).sum

theorem total_cons (first : UInt64) (later : List UInt64) :
    total (first :: later) = first.toNat + total later :=
  List.sum_cons ..

/-- The subtractions from the remaining fuel, one after the other, do not wrap. -/
def Subtracts : (remaining : UInt64) → List UInt64 → Prop
  | _, [] => True
  | remaining, burnt :: later => burnt ≤ remaining ∧ Subtracts (remaining - burnt) later

/-- The parts burn no more than the limit together, and none of them more than what
remains when it ends. A refused part, which comes last, is not subtracted any more. -/
structure BudgetKept (limit : UInt64) (results : List (String × BulkResult)) : Prop where
  within : total (burntIn results) ≤ limit.toNat
  subtracts : Subtracts limit (burntIn results)

theorem subtracts_iff {remaining : UInt64} {burnt : List UInt64} :
    Subtracts remaining burnt ↔ total burnt ≤ remaining.toNat := by
  induction burnt generalizing remaining with
  | nil => simp [Subtracts, total]
  | cons first later ih =>
    rw [Subtracts, ih, total_cons]
    constructor
    · rintro ⟨hfirst, hlater⟩
      rw [UInt64.toNat_sub_of_le _ _ hfirst] at hlater
      have hnat : first.toNat ≤ remaining.toNat := UInt64.le_iff_toNat_le.mp hfirst
      omega
    · intro h
      have hfirst : first ≤ remaining := UInt64.le_iff_toNat_le.mpr (by omega)
      refine ⟨hfirst, ?_⟩
      rw [UInt64.toNat_sub_of_le _ _ hfirst]
      omega

theorem budgetKept_iff {limit : UInt64} {results : List (String × BulkResult)} :
    BudgetKept limit results ↔ total (burntIn results) ≤ limit.toNat :=
  ⟨BudgetKept.within, fun h => ⟨h, subtracts_iff.mpr h⟩⟩

namespace MachineReply

/-- What a reply costs before fuel is counted: a flat price, unless nothing was consumed
or the call failed outside the contract. -/
def flat : MachineReply → Bool
  | .refused => true
  | .called limit consumed result =>
    min consumed limit ≠ 0 && match result with
      | .ok _ => true
      | .error (.smartContractFault _) => true
      | .error _ => false

/-- What a reply costs once fuel is counted. -/
def counted : MachineReply → ℕ
  | .refused => 1000
  | .called limit consumed _ => min consumed.toNat limit.toNat

def isRefused : MachineReply → Bool
  | .refused => true
  | .called _ _ _ => false

/-- The price of a reply. -/
def price (height : UInt64) : MachineReply → ℕ
  | .refused => 1000
  | .called limit consumed result => (bulkFuel height consumed limit result).toNat

theorem price_eq_flat {height : UInt64} (h : height < activateFuelConsumption) (reply : MachineReply) :
    reply.price height = if reply.flat then 1000 else 0 := by
  cases reply with
  | refused => rfl
  | called limit consumed result =>
    by_cases hfree : min consumed limit = 0
    · simp [price, bulkFuel, flat, hfree]
    · cases result with
      | ok rcpt => simp [price, bulkFuel, flat, hfree, h]
      | error e => cases e <;> simp [price, bulkFuel, flat, hfree, h]

theorem price_eq_counted {height : UInt64} (h : ¬ height < activateFuelConsumption)
    (reply : MachineReply) : reply.price height = reply.counted := by
  cases reply with
  | refused => rfl
  | called limit consumed result =>
    simp only [price, bulkFuel, counted, h, false_and, if_false]
    exact toNat_min consumed limit

end MachineReply

section Totals

variable {height limit : UInt64} {replies : List MachineReply} {burnt : List UInt64}

theorem NodeReplies.total_eq (h : NodeReplies height replies burnt) :
    total burnt = (replies.map (MachineReply.price height)).sum := by
  induction h with
  | done => rfl
  | foreign => rfl
  | refused => rfl
  | failed consumed e => rfl
  | next consumed rcpt later ih =>
    rw [List.map_cons, List.sum_cons, ← ih]
    exact List.sum_cons ..

theorem BulkReplies.total_eq (h : BulkReplies height limit replies burnt) :
    total burnt = (replies.map (MachineReply.price height)).sum := by
  cases h with
  | failedRoot consumed e => rfl
  | root consumed rcpt nodes =>
    rw [List.map_cons, List.sum_cons, ← nodes.total_eq]
    exact List.sum_cons ..
  | emptyRoot nodes =>
    rw [← nodes.total_eq]
    exact (List.sum_cons ..).trans (Nat.zero_add _)

theorem sum_flat (replies : List MachineReply) :
    (replies.map fun reply => if reply.flat then 1000 else 0).sum =
      1000 * replies.countP MachineReply.flat := by
  induction replies with
  | nil => rfl
  | cons reply replies ih =>
    rw [List.map_cons, List.sum_cons, ih, List.countP_cons]
    split <;> omega

theorem price_free (hheight : activateFuelConsumption < height) (consumed : UInt64)
    (result : Except WasmError Bytes) :
    (bulkFuel height consumed (nodeLimit height) result).toNat = 0 := by
  have hcounted : ¬ height < activateFuelConsumption := fun h => UInt64.lt_asymm h hheight
  have hprice := MachineReply.price_eq_counted hcounted (.called (nodeLimit height) consumed result)
  have hlimit : (nodeLimit height).toNat = 0 := by
    rw [nodeLimit, if_pos hheight]
    rfl
  rw [MachineReply.counted, hlimit, Nat.min_zero] at hprice
  exact hprice

/-- After the block of the change the nodes run without fuel, so only a refused one
costs anything. -/
theorem NodeReplies.total_free (h : NodeReplies height replies burnt)
    (hheight : activateFuelConsumption < height) :
    total burnt = if replies.any MachineReply.isRefused then 1000 else 0 := by
  induction h with
  | done => rfl
  | foreign => rfl
  | refused => rfl
  | failed consumed e => exact congrArg (· + 0) (price_free hheight consumed (.error e))
  | @next consumed rcpt replies burnt later ih =>
    rw [total_cons, price_free hheight, ih, Nat.zero_add, List.any_cons]
    rfl

end Totals

/-- What the root of a bulk costs once fuel is counted. Where the root is empty the first
reply is one to a node, which runs without fuel. -/
def rootPrice : List MachineReply → ℕ
  | .called limit consumed _ :: _ => min consumed.toNat limit.toNat
  | _ => 0

/-- Replies that a bulk can afford. Before the block of the change each part that costs
anything costs a thousand; in this block the nodes are counted with a limit of their
own; after it only a refused node can exceed what the root left. -/
def Affordable (height limit : UInt64) (replies : List MachineReply) : Prop :=
  if height < activateFuelConsumption then 1000 * replies.countP MachineReply.flat ≤ limit.toNat
  else if height = activateFuelConsumption then (replies.map MachineReply.counted).sum ≤ limit.toNat
  else replies.any MachineReply.isRefused → rootPrice replies + 1000 ≤ limit.toNat

instance (height limit : UInt64) (replies : List MachineReply) :
    Decidable (Affordable height limit replies) :=
  inferInstanceAs (Decidable (if height < activateFuelConsumption then _ else
    if height = activateFuelConsumption then _ else _))

theorem BulkReplies.free_iff {height limit : UInt64} {replies : List MachineReply}
    {burnt : List UInt64} (h : BulkReplies height limit replies burnt)
    (hheight : activateFuelConsumption < height) :
    total burnt ≤ limit.toNat ↔
      (replies.any MachineReply.isRefused → rootPrice replies + 1000 ≤ limit.toNat) := by
  have hcounted : ¬ height < activateFuelConsumption := fun h => UInt64.lt_asymm h hheight
  have rooted : ∀ consumed result, (bulkFuel height consumed limit result).toNat =
      min consumed.toNat limit.toNat :=
    fun consumed result => MachineReply.price_eq_counted hcounted (.called limit consumed result)
  cases h with
  | failedRoot consumed e =>
    have fits : min consumed.toNat limit.toNat + 0 ≤ limit.toNat := Nat.min_le_right ..
    rw [total_cons, rooted]
    exact ⟨fun _ hrefused => (by cases hrefused), fun _ => fits⟩
  | @root consumed rcpt replies burnt nodes =>
    have fits : min consumed.toNat limit.toNat ≤ limit.toNat := Nat.min_le_right ..
    rw [total_cons, rooted, nodes.total_free hheight, List.any_cons, rootPrice]
    by_cases hrefused : replies.any MachineReply.isRefused
    · simp [hrefused]
    · simp [hrefused, MachineReply.isRefused]
  | @emptyRoot _ burnt nodes =>
    have hroot : rootPrice replies = 0 := by
      have free : (nodeLimit height).toNat = 0 := by
        rw [nodeLimit, if_pos hheight]
        rfl
      cases nodes with
      | failed consumed e => rw [rootPrice, free, Nat.min_zero]
      | next consumed rcpt later => rw [rootPrice, free, Nat.min_zero]
      | _ => rfl
    rw [total_cons, nodes.total_free hheight, hroot]
    by_cases hrefused : replies.any MachineReply.isRefused
    · simp [hrefused]
    · simp [hrefused]

theorem BulkReplies.affordable_iff {height limit : UInt64} {replies : List MachineReply}
    {burnt : List UInt64} (h : BulkReplies height limit replies burnt) :
    total burnt ≤ limit.toNat ↔ Affordable height limit replies := by
  by_cases hbefore : height < activateFuelConsumption
  · have prices : MachineReply.price height = fun reply => if reply.flat then 1000 else 0 :=
      funext (MachineReply.price_eq_flat hbefore)
    rw [Affordable, if_pos hbefore, h.total_eq, prices, sum_flat]
  · by_cases hat : height = activateFuelConsumption
    · have prices : MachineReply.price height = MachineReply.counted := funext (MachineReply.price_eq_counted hbefore)
      rw [Affordable, if_neg hbefore, if_pos hat, h.total_eq, prices]
    · have hafter : activateFuelConsumption < height :=
        UInt64.lt_of_le_of_ne (UInt64.not_lt.mp hbefore) (Ne.symm hat)
      rw [Affordable, if_neg hbefore, if_neg hat, h.free_iff hafter]

section Bulks

variable [Primitives] [NodeCodec]

theorem verify_unlimited {tx : SignedTransaction} {data : TransactionDataBulkV1}
    (hdata : tx.data = .bulkV1 data) (h : (Transaction.bulkTransaction tx).verify = .ok true) :
    ∀ node ∈ data.txs.nodes.getD [], node.data.getFuelLimit = 0 := by
  intro node hnode
  obtain ⟨txData, hnode⟩ := verify_bulkNodes hdata h node hnode
  rw [hnode]
  rfl

variable [Wm W]

/-- What the machine replies to the parts of a bulk, in order. -/
def WasmConfig.replies (config : WasmConfig) (tx : SignedTransaction)
    (data : TransactionDataBulkV1) (bulkCaller : String) (limit height : UInt64)
    (index : UInt32) (blockTimestamp : UInt64) (s : Execution W) : List MachineReply :=
  (after (config.handleBulkV1 tx data bulkCaller limit height index blockTimestamp)
    s.logged).wm.log

/-- For every machine, every bulk and every limit: where the bulk comes to results, they
keep the budget exactly if the bulk can afford what the machine replied. -/
theorem budgetKept_iff_affordable (config : WasmConfig) (tx : SignedTransaction)
    (data : TransactionDataBulkV1) (hdata : tx.data = .bulkV1 data) (bulkCaller : String)
    (limit height : UInt64) (index : UInt32) (blockTimestamp : UInt64)
    (verified : activateFuelConsumption < height →
      (Transaction.bulkTransaction tx).verify = .ok true)
    (s : Execution W) (events : Option (List SmartContractEvent))
    (results : List (String × BulkResult))
    (h : result (config.handleBulkV1 tx data bulkCaller limit height index blockTimestamp) s =
      .ok (.ok (events, results))) :
    BudgetKept limit results ↔ Affordable height limit
      (config.replies tx data bulkCaller limit height index blockTimestamp s) := by
  have same := (WasmConfig.handleBulkV1_related (SameLogged.congruence (L := PartNote))
    (SameNetwork.refl config) tx data bulkCaller limit height index blockTimestamp s s.logged rfl).1
  obtain ⟨notes, hlog, ran⟩ := config.handleBulkV1_ran (same.symm.trans h)
  have log : config.replies tx data bulkCaller limit height index blockTimestamp s =
      repliesIn notes := by
    have reads := (WasmConfig.handleBulkV1_related (ReadsLog.congruence replies_read)
      (SameNetwork.refl config) tx data bulkCaller limit height index blockTimestamp).log s
    rw [WasmConfig.replies, reads, hlog]
    rfl
  rw [budgetKept_iff, log]
  exact (ran.bulkReplies fun hheight => verify_unlimited hdata (verified hheight)).affordable_iff

/-- What a bulk burns, where it comes to results. -/
def bulkBurnt (outcome : Except Stop (Except Receipt
    (Option (List SmartContractEvent) × List (String × BulkResult)))) : Option (List UInt64) :=
  match outcome with
  | .ok (.ok (_, results)) => some (burntIn results)
  | _ => none

omit [Primitives] [NodeCodec] [Wm W] in
theorem of_bulkBurnt {outcome : Except Stop (Except Receipt
    (Option (List SmartContractEvent) × List (String × BulkResult)))} {burnt : List UInt64}
    (h : bulkBurnt outcome = some burnt) :
    ∃ events results, outcome = .ok (.ok (events, results)) ∧ burntIn results = burnt := by
  match outcome with
  | .ok (.ok (events, results)) => exact ⟨events, results, rfl, Option.some.inj h⟩
  | .ok (.error receipt) => cases h
  | .error e => cases h

end Bulks

/-! ## Two hungry nodes -/

namespace Sample

/-- A machine on which every call succeeds and consumes the same amount. -/
structure Hungry where
  amount : UInt64

instance : Wm Hungry where
  call _ w := .ok (w, [], w.wm.amount, .ok [])
  appHashCheck _ _ _ w := .ok (w, .ok Hash.default)

/-- A bulk of alice's with a node of bob's and one of carol's. -/
def pairedData : TransactionDataBulkV1 :=
  ⟨⟨⟨emptyRoot 1 (keypair 1)⟩,
    some [signed (keypair 2) (nodeOf (emptyRoot 1 (keypair 1)) 2 (keypair 2).publicKey),
      signed (keypair 3) (nodeOf (emptyRoot 1 (keypair 1)) 3 (keypair 3).publicKey)]⟩⟩

def pairedBulk : SignedTransaction := signed (keypair 1) (.bulkV1 pairedData)

/-- An execution on the hungry machine, before anything was executed. -/
def hungry (amount : UInt64) : Execution Hungry :=
  ⟨⟨amount⟩, SeedSource.new [] [] Hash.default Hash.default Hash.default,
    Db.empty.createFork, [], []⟩

/-- The bulk in the block of the change, with the limit that every caller has there. -/
def runPaired (amount : UInt64) : Except Stop (Except Receipt
    (Option (List SmartContractEvent) × List (String × BulkResult))) :=
  result (config.handleBulkV1 pairedBulk pairedData "alice" maxWmFuel 20000 0 0) (hungry amount)

/-- Each of the nodes may burn the whole limit. -/
theorem paired_nodes_exceed : (Transaction.bulkTransaction pairedBulk).verify = .ok true ∧
    ∃ events results, runPaired 600000000 = .ok (.ok (events, results)) ∧
      burntIn results = [0, 600000000, 600000000] ∧ ¬ BudgetKept maxWmFuel results := by
  have burnt : bulkBurnt (runPaired 600000000) = some [0, 600000000, 600000000] := by
    decide +kernel
  obtain ⟨events, results, hrun, hburnt⟩ := of_bulkBurnt burnt
  refine ⟨by decide +kernel, events, results, hrun, hburnt, fun kept => ?_⟩
  have within := kept.within
  rw [hburnt] at within
  exact absurd within (by decide)

theorem paired_nodes_fit : ∃ events results,
    runPaired 400000000 = .ok (.ok (events, results)) ∧ BudgetKept maxWmFuel results := by
  have burnt : bulkBurnt (runPaired 400000000) = some [0, 400000000, 400000000] := by
    decide +kernel
  obtain ⟨events, results, hrun, -⟩ := of_bulkBurnt burnt
  refine ⟨events, results, hrun, ?_⟩
  exact (budgetKept_iff_affordable config pairedBulk pairedData rfl "alice" maxWmFuel 20000 0 0
    (fun hheight => absurd hheight (by decide)) (hungry 400000000) events results hrun).mpr
    (by decide +kernel)

end Sample

end Trinci
