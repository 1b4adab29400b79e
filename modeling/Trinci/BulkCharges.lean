import Trinci.BulkBudget

/-!
# What a bulk is charged

The price of a bulk has two regimes. Before fuel was counted each part that burnt any is
charged a flat price in bitbell; once it is counted the fuel of all parts is turned into
bitbell. The flat price ends before the block of the change and the conversion begins
after it, so in this block fuel is charged as if it were bitbell.
-/

namespace Trinci

open StatefulSteps Exec

variable {W : Type}

/-! ## Sums of words -/

theorem sum_words (words : List UInt64) :
    words.sum = UInt64.ofNat (words.map UInt64.toNat).sum := by
  induction words with
  | nil => rfl
  | cons word words ih =>
    rw [List.sum_cons, ih, List.map_cons, List.sum_cons, UInt64.ofNat_add, UInt64.ofNat_toNat]

theorem ofNat_thousands {n k : ℕ} (hk : k ≤ 1) :
    UInt64.ofNat (1000 * (n + k)) = UInt64.ofNat (1000 * n) ↔ k = 0 := by
  rw [← UInt64.toNat_inj, UInt64.toNat_ofNat', UInt64.toNat_ofNat']
  omega

/-! ## Replies in a transcript -/

/-- A part that burnt fuel and succeeded or failed in its contract. -/
def MachineReply.paid : MachineReply → Bool
  | .refused => false
  | .called limit consumed result => (MachineReply.called limit consumed result).flat

theorem countP_flat (replies : List MachineReply) :
    replies.countP MachineReply.flat =
      replies.countP MachineReply.paid + replies.countP MachineReply.isRefused := by
  induction replies with
  | nil => rfl
  | cons reply replies ih =>
    rw [List.countP_cons, List.countP_cons, List.countP_cons, ih]
    cases reply with
    | refused =>
      change _ + 1 = _ + 0 + (_ + 1)
      omega
    | called limit consumed result =>
      change _ = _ + (if (MachineReply.called limit consumed result).flat then 1 else 0) + (_ + 0)
      omega

section Replies

variable {config : WasmConfig} {height limit : UInt64}

/-- A root that cannot be executed was never asked about, and a root that is refused is
the only part. -/
theorem RootRan.stopped_replies {root : TransactionData} {notes : List PartNote} {receipt : Receipt}
    (h : RootRan config height limit root notes (.error receipt)) :
    (¬ config.ExecutesRoot height root ∧ repliesIn notes = []) ∨
      (config.ExecutesRoot height root ∧ repliesIn notes = [.refused]) := by
  cases h with
  | unfit hroot failed silent => exact .inl ⟨hroot, rfl⟩
  | refused hroot failed silent => exact .inr ⟨hroot, rfl⟩

theorem RootRan.called_replies {root : TransactionData} {notes : List PartNote}
    {events : List SmartContractEvent} {consumed : UInt64} {outcome : Except WasmError Bytes}
    (h : RootRan config height limit root notes (.ok (events, consumed, outcome))) :
    config.ExecutesRoot height root ∧
      (bulkFuel height consumed limit outcome).toNat =
        ((repliesIn notes).map (MachineReply.price height)).sum ∧
      (repliesIn notes).countP MachineReply.isRefused = 0 := by
  cases h with
  | called hroot limited =>
    rw [← limited]
    exact ⟨hroot, rfl, rfl⟩
  | empty hroot =>
    rw [bulkFuel_zero]
    exact ⟨hroot, rfl, rfl⟩

variable [Primitives] [NodeCodec]

/-- The nodes are charged the prices of their replies. The refused node is the last. -/
theorem NodesRan.replies {nodes : List SignedTransaction} {remaining : UInt64}
    {notes : List PartNote} {events : List SmartContractEvent} {results : List (String × BulkResult)}
    (h : NodesRan config height nodes remaining notes events results) :
    total (burntIn results) = ((repliesIn notes).map (MachineReply.price height)).sum ∧
      (repliesIn notes).countP MachineReply.isRefused ≤ 1 := by
  induction h with
  | done remaining => exact ⟨rfl, Nat.zero_le _⟩
  | foreign hnetwork => exact ⟨rfl, Nat.zero_le _⟩
  | refused => exact ⟨rfl, Nat.le_refl _⟩
  | failed ctxArgs args limited => exact ⟨rfl, Nat.zero_le _⟩
  | @next _ _ _ _ rcpt _ _ _ consumed notes results ctxArgs args limited later ih =>
    obtain ⟨hsum, hrefused⟩ := ih
    refine ⟨?_, hrefused⟩
    change total (bulkFuel height consumed args.initialFuel (.ok rcpt) :: burntIn results) = _
    rw [total_cons, hsum]
    rfl

/-- Data that is executed, where it is a bulk. -/
def WasmConfig.ExecutesBulk (config : WasmConfig) (height : UInt64) (data : TransactionData) : Prop :=
  ∀ bulk, data = .bulkV1 bulk → config.ExecutesRoot height bulk.txs.root.data

/-- Where the bulk comes to results, its parts are charged the prices of their replies. -/
theorem BulkDataRan.replies {data : TransactionData} {notes : List PartNote}
    {events : Option (List SmartContractEvent)} {results : List (String × BulkResult)}
    (h : BulkDataRan config height limit data notes (.ok (events, results))) :
    config.ExecutesBulk height data ∧
      total (burntIn results) = ((repliesIn notes).map (MachineReply.price height)).sum ∧
      (repliesIn notes).countP MachineReply.isRefused ≤ 1 := by
  cases h with
  | other hdata => exact ⟨fun bulk hbulk => absurd hbulk (hdata bulk), rfl, Nat.zero_le _⟩
  | bulk ran =>
    obtain ⟨root, rest⟩ := ran
    cases rest with
    | @failedRoot _ consumed e name text =>
      obtain ⟨hroot, hprice, hrefused⟩ := root.called_replies
      rw [List.append_nil]
      refine ⟨?_, ?_, hrefused.le.trans (Nat.zero_le _)⟩
      · rintro bulk ⟨⟩
        exact hroot
      · rw [← hprice]
        exact Nat.add_zero _
    | @nodes _ _ _ consumed rcpt name results nodes =>
      obtain ⟨hroot, hprice, hrefused⟩ := root.called_replies
      obtain ⟨hsum, hlater⟩ := nodes.replies
      rw [repliesIn, List.filterMap_append, ← repliesIn, ← repliesIn]
      refine ⟨?_, ?_, ?_⟩
      · rintro bulk ⟨⟩
        exact hroot
      · change total (bulkFuel height consumed limit (.ok rcpt) :: burntIn results) = _
        rw [total_cons, hsum, hprice, List.map_append, List.sum_append]
      · rw [List.countP_append]
        omega

/-- A bulk that ends with a receipt was stopped at its root. -/
theorem BulkDataRan.stopped_replies {data : TransactionData} {notes : List PartNote}
    {receipt : Receipt} (h : BulkDataRan config height limit data notes (.error receipt)) :
    (¬ config.ExecutesBulk height data ∧ repliesIn notes = []) ∨
      (config.ExecutesBulk height data ∧ repliesIn notes = [.refused]) := by
  cases h with
  | bulk ran =>
    obtain ⟨root, rest⟩ := ran
    cases rest with
    | stopped receipt =>
      rw [List.append_nil]
      obtain ⟨hroot, hreplies⟩ | ⟨hroot, hreplies⟩ := root.stopped_replies
      · exact .inl ⟨fun executes => hroot (executes _ rfl), hreplies⟩
      · refine .inr ⟨?_, hreplies⟩
        rintro bulk ⟨⟩
        exact hroot

end Replies

/-! ## The amount to burn -/

/-- The amount that a bulk should be charged, from the replies to its parts. -/
def dueBitbell (height : UInt64) (replies : List MachineReply) : UInt64 :=
  if activateFuelConsumption < height then
    wmFuelToBitbell (UInt64.ofNat (replies.map MachineReply.counted).sum)
  else UInt64.ofNat (1000 * replies.countP MachineReply.paid)

/-- The amount that a bulk is charged if its root is executed. -/
def chargedBitbell (height : UInt64) (replies : List MachineReply) : UInt64 :=
  let burnt := UInt64.ofNat (replies.map (MachineReply.price height)).sum
  if activateFuelConsumption < height then wmFuelToBitbell burnt else burnt

section Charges

variable {config : WasmConfig} {height limit : UInt64}

/-- Above the block of the change the charge is the due amount. -/
theorem chargedBitbell_counted (counted : activateFuelConsumption < height)
    (replies : List MachineReply) : chargedBitbell height replies = dueBitbell height replies := by
  have hbefore : ¬ height < activateFuelConsumption := fun h => UInt64.lt_asymm h counted
  have prices : MachineReply.price height = MachineReply.counted :=
    funext (MachineReply.price_eq_counted hbefore)
  rw [chargedBitbell, dueBitbell, if_pos counted, if_pos counted, prices]

/-- Below it the charge is the due amount unless a part was refused. -/
theorem chargedBitbell_flat (flat : height < activateFuelConsumption) {replies : List MachineReply}
    (last : replies.countP MachineReply.isRefused ≤ 1) :
    chargedBitbell height replies = dueBitbell height replies ↔
      replies.countP MachineReply.isRefused = 0 := by
  have hcounted : ¬ activateFuelConsumption < height := fun h => UInt64.lt_asymm h flat
  have prices : MachineReply.price height = fun reply => if reply.flat then 1000 else 0 :=
    funext (MachineReply.price_eq_flat flat)
  rw [chargedBitbell, dueBitbell, if_neg hcounted, if_neg hcounted, prices, sum_flat, countP_flat]
  exact ofNat_thousands last

/-- In this block itself the charge is the fuel that was burnt. -/
theorem chargedBitbell_change (replies : List MachineReply) :
    chargedBitbell activateFuelConsumption replies =
      UInt64.ofNat (replies.map MachineReply.counted).sum := by
  have prices : MachineReply.price activateFuelConsumption = MachineReply.counted :=
    funext (MachineReply.price_eq_counted (UInt64.lt_irrefl _))
  rw [chargedBitbell, if_neg (UInt64.lt_irrefl _), prices]

variable [Primitives] [NodeCodec]

theorem charged_eq {tx : SignedTransaction} {bulkCaller : String} {index : UInt32}
    {notes : List PartNote}
    {executed : Except Receipt (Option (List SmartContractEvent) × List (String × BulkResult))}
    (h : BulkDataRan config height limit tx.data notes executed) :
    (config.ExecutesBulk height tx.data ∧
      (bulkReturns tx bulkCaller height index executed).burnFuelArgs.fuelToBurn =
        chargedBitbell height (repliesIn notes) ∧
      (repliesIn notes).countP MachineReply.isRefused ≤ 1) ∨
    (¬ config.ExecutesBulk height tx.data ∧
      (bulkReturns tx bulkCaller height index executed).burnFuelArgs.fuelToBurn = 1000 ∧
      repliesIn notes = []) := by
  obtain receipt | ⟨events, results⟩ := executed
  · obtain ⟨hdata, hreplies⟩ | ⟨hdata, hreplies⟩ := h.stopped_replies
    · exact .inr ⟨hdata, rfl, hreplies⟩
    · refine .inl ⟨hdata, ?_, ?_⟩
      · -- the price of an error is the same in both units
        have converted : wmFuelToBitbell 1000 = 1000 := by decide
        rw [hreplies, chargedBitbell]
        change 1000 = if activateFuelConsumption < height then wmFuelToBitbell 1000 else 1000
        rw [converted, ite_self]
      · rw [hreplies]
        exact Nat.le_refl _
  · obtain ⟨hdata, hsum, hrefused⟩ := h.replies
    refine .inl ⟨hdata, ?_, hrefused⟩
    have hwords : (results.map fun entry => entry.2.burntWmFuel).sum =
        UInt64.ofNat ((repliesIn notes).map (MachineReply.price height)).sum := by
      rw [← hsum]
      exact sum_words _
    change (if activateFuelConsumption < height then wmFuelToBitbell _ else _) = _
    rw [hwords, chargedBitbell]

/-- Replies and heights for which a bulk is charged in the unit of its block: above the
block of the change any; below it no part may be refused, as the price of an error is no
flat price of a part; in this block the fuel burnt has to be worth the flat prices as it
is. Up to this block a root that cannot be executed is charged for nothing. -/
def ChargedInUnit (config : WasmConfig) (height : UInt64) (data : TransactionData)
    (replies : List MachineReply) : Prop :=
  activateFuelConsumption < height ∨
    config.ExecutesBulk height data ∧
      if height < activateFuelConsumption then replies.countP MachineReply.isRefused = 0
      else UInt64.ofNat (replies.map MachineReply.counted).sum =
        UInt64.ofNat (1000 * replies.countP MachineReply.paid)

omit [Primitives] [NodeCodec] in
theorem charged_iff {data : TransactionData} {replies : List MachineReply} {amount : UInt64}
    (h : (config.ExecutesBulk height data ∧ amount = chargedBitbell height replies ∧
        replies.countP MachineReply.isRefused ≤ 1) ∨
      (¬ config.ExecutesBulk height data ∧ amount = 1000 ∧ replies = [])) :
    amount = dueBitbell height replies ↔ ChargedInUnit config height data replies := by
  by_cases counted : activateFuelConsumption < height
  · refine iff_of_true ?_ (.inl counted)
    obtain ⟨-, rfl, -⟩ | ⟨-, rfl, rfl⟩ := h
    · exact chargedBitbell_counted counted replies
    · rw [dueBitbell, if_pos counted]
      decide
  · rw [ChargedInUnit, or_iff_right counted]
    obtain ⟨hdata, rfl, last⟩ | ⟨hdata, rfl, rfl⟩ := h
    · rw [and_iff_right hdata]
      by_cases flat : height < activateFuelConsumption
      · rw [if_pos flat]
        exact chargedBitbell_flat flat last
      · have hchange : height = activateFuelConsumption :=
          UInt64.le_antisymm (UInt64.not_lt.mp counted) (UInt64.not_lt.mp flat)
        rw [if_neg flat, dueBitbell, if_neg counted, hchange, chargedBitbell_change]
    · rw [dueBitbell, if_neg counted]
      refine iff_of_false (by decide) ?_
      rintro ⟨executes, -⟩
      exact hdata executes

variable [Wm W]

/-- What the machine replies to the parts of a bulk, in order. -/
def WasmConfig.bulkReplies (config : WasmConfig) (tx : SignedTransaction) (height : UInt64)
    (index : UInt32) (blockTimestamp : UInt64) (s : Execution W) : List MachineReply :=
  repliesIn (after (config.handleBulkTransaction tx height index blockTimestamp)
    (s.logged (L := PartNote))).wm.log

/-- For every machine, every bulk and every height: the amount to burn is the due amount
exactly for the replies and heights that charge in the unit of the block. -/
theorem charged_due_iff (config : WasmConfig) (tx : SignedTransaction) (height : UInt64)
    (index : UInt32) (blockTimestamp : UInt64) (s : Execution W) (returns : HandleTransactionReturns)
    (h : result (config.handleBulkTransaction tx height index blockTimestamp) s = .ok returns) :
    returns.burnFuelArgs.fuelToBurn =
        dueBitbell height (config.bulkReplies tx height index blockTimestamp s) ↔
      ChargedInUnit config height tx.data
        (config.bulkReplies tx height index blockTimestamp s) := by
  have same := (WasmConfig.handleBulkTransaction_related (SameLogged.congruence (L := PartNote))
    (SameNetwork.refl config) tx height index blockTimestamp s s.logged rfl).1
  obtain ⟨notes, bulkCaller, limit, executed, hlog, ran, rfl⟩ :=
    config.handleBulkTransaction_ran (same.symm.trans h)
  have log : config.bulkReplies tx height index blockTimestamp s = repliesIn notes :=
    congrArg repliesIn (hlog.trans (List.nil_append notes))
  rw [log]
  exact charged_iff (charged_eq ran)

end Charges

namespace Sample

/-- What the bulk with two nodes has to burn on the hungry machine. -/
def amountAt (height amount : UInt64) : Option UInt64 :=
  match result (config.handleBulkTransaction pairedBulk height 0 0) (hungry amount) with
  | .ok returns => some returns.burnFuelArgs.fuelToBurn
  | .error _ => none

theorem of_amountAt {height amount burnt : UInt64} (h : amountAt height amount = some burnt) :
    ∃ returns, result (config.handleBulkTransaction pairedBulk height 0 0) (hungry amount) =
      .ok returns ∧ returns.burnFuelArgs.fuelToBurn = burnt := by
  rw [amountAt] at h
  split at h
  · next returns hrun =>
    cases h
    exact ⟨returns, hrun, rfl⟩
  · cases h

/-- One block earlier the nodes are charged the flat price. -/
theorem flat_price_charged : ∃ returns,
    result (config.handleBulkTransaction pairedBulk 19999 0 0) (hungry 600000000) = .ok returns ∧
      returns.burnFuelArgs.fuelToBurn =
        dueBitbell 19999 (config.bulkReplies pairedBulk 19999 0 0 (hungry 600000000)) := by
  obtain ⟨returns, hrun, -⟩ := of_amountAt (show amountAt 19999 600000000 = some 2000 by
    decide +kernel)
  refine ⟨returns, hrun, ?_⟩
  refine (charged_due_iff config pairedBulk 19999 0 0 (hungry 600000000) returns hrun).mpr ?_
  refine .inr ⟨?_, ?_⟩
  · rintro bulk ⟨⟩
    trivial
  · rw [if_pos (by decide)]
    decide +kernel

/-- In the block of the change the fuel that they burnt is charged as bitbell. -/
theorem raw_fuel_charged : ∃ returns,
    result (config.handleBulkTransaction pairedBulk 20000 0 0) (hungry 600000000) = .ok returns ∧
      returns.burnFuelArgs.fuelToBurn = 1200000000 ∧
      returns.burnFuelArgs.fuelToBurn ≠
        dueBitbell 20000 (config.bulkReplies pairedBulk 20000 0 0 (hungry 600000000)) := by
  obtain ⟨returns, hrun, hburnt⟩ := of_amountAt (show amountAt 20000 600000000 = some 1200000000 by
    decide +kernel)
  have due : dueBitbell 20000 (config.bulkReplies pairedBulk 20000 0 0 (hungry 600000000)) = 2000 := by
    decide +kernel
  refine ⟨returns, hrun, hburnt, ?_⟩
  rw [hburnt, due]
  decide

end Sample

end Trinci
