import Trinci.NestedCalls

/-!
# What failed transactions leave

A transaction opens a checkpoint of the fork, is handled, and its fuel is burnt. If it
fails, nothing but the burning of the fuel should be left of it, and nothing at all if
that fails too. The handler rolls back what it ran. It does not roll back what the check of
the contract did before it refused a unit or a root, so this stays with the fuel that is
burnt for the refusal.
-/

namespace Trinci

open StatefulSteps Exec

variable {W : Type}

/-- The same records in every table. -/
structure Db.Same (a b : Db) : Prop where
  accounts : a.accounts.Same b.accounts
  others : { a with accounts := b.accounts } = b

namespace Db.Same

variable {a b : Db}

theorem refl (a : Db) : Same a a := ⟨.refl _, rfl⟩

theorem of_eq (h : b = a) : Same a b := by
  subst h
  exact refl b

theorem setAccounts_iff {accounts : Accounts} :
    Same a { a with accounts := accounts } ↔ a.accounts.Same accounts := by
  constructor
  · exact fun same => same.accounts
  · exact fun same => ⟨same, rfl⟩

end Db.Same

namespace WasmConfig

variable [NodeCodec] [Wm W] (config : WasmConfig)

/-- Burning does not take place before the first block; after it, it fails if the burning
method says so or fails itself, or if more is to be burnt than the limit. -/
def BurnFails (args : BurnFuelArgs) (height blockTimestamp : UInt64) (s : Execution W) : Prop :=
  0 < height ∧
    ((∃ outcome, result (config.burnFuel args blockTimestamp) s = .ok outcome ∧
        (burnOutcome outcome).1 = false) ∨
      args.fuelLimit < args.fuelToBurn)

section Burning

variable {config} {args : BurnFuelArgs} {height blockTimestamp : UInt64} {s t : Execution W}

omit [NodeCodec] in
theorem call_result (same : world s = world t) (args : CallArgs) :
    result (Exec.call args) s = result (Exec.call args) t := by
  cases hcall : Wm.call args (world t) with
  | error p =>
    have hs : Wm.call args (world s) = .error p := by rw [same, hcall]
    rw [Exec.call, (ofMachine_error hs).2, (ofMachine_error hcall).2]
  | ok out =>
    obtain ⟨left, reply⟩ := out
    have hs : Wm.call args (world s) = .ok (left, reply) := by rw [same, hcall]
    rw [Exec.call, (ofMachine_ok hs).2, (ofMachine_ok hcall).2]

/-- How the burning ends depends on the world only. -/
theorem burnFuel_result (same : world s = world t) :
    result (config.burnFuel args blockTimestamp) s =
      result (config.burnFuel args blockTimestamp) t := by
  have accounts : s.fork.accounts = t.fork.accounts := congrArg World.accounts same
  rw [burnFuel]
  split
  · rfl
  · rw [callBurnFuel, (bind_ok (result_get s)).2, (bind_ok (result_get t)).2, after_get, after_get,
      accounts]
    split
    · rfl
    · split
      · rfl
      · next contract hcontract =>
        have hcall := call_result same ⟨0, serviceAccountId, serviceAccountId, serviceAccountId,
          serviceAccountId, contract, config.burningFuelMethod,
          rmpSerialize (BurnFuelRequest.mk args.account args.fuelToBurn), maxWmFuel, blockTimestamp⟩
        cases hreply : result (Exec.call _) t with
        | error e =>
          rw [hreply] at hcall
          rw [(bind_error hcall).2, (bind_error hreply).2]
        | ok reply =>
          rw [hreply] at hcall
          rw [(bind_ok hcall).2, (bind_ok hreply).2]
          rfl

theorem burnFails_congr (same : world s = world t) :
    config.BurnFails args height blockTimestamp s ↔ config.BurnFails args height blockTimestamp t := by
  rw [BurnFails, BurnFails, burnFuel_result same]

variable [Primitives] {tx : Transaction} {index : UInt32} {receipt : Receipt}

/-- A transaction is handled, its fuel is burnt, and it is rolled back if that fails. -/
theorem of_executeTransaction_ok
    (h : result (config.executeTransaction tx height index blockTimestamp) s = .ok receipt) :
    ∃ res, result (config.handleTransaction tx height index blockTimestamp) (opened tx s) = .ok res ∧
      let t := after (config.handleTransaction tx height index blockTimestamp) (opened tx s)
      let burnt := after (config.burnFuel res.burnFuelArgs blockTimestamp) t
      let u := after (config.executeTransaction tx height index blockTimestamp) s
      (config.BurnFails res.burnFuelArgs height blockTimestamp t ∧ u.fork = burnt.fork.rollback ∧
          receipt.success = false ∧ receipt.events = res.receipt.events) ∨
        (¬ config.BurnFails res.burnFuelArgs height blockTimestamp t ∧ u.fork = burnt.fork ∧
          receipt.success = res.receipt.success ∧ receipt.events = res.receipt.events) := by
  rw [after_executeTransaction]
  change result (config.handleTransaction tx height index blockTimestamp >>= fun res =>
    config.settled res height index blockTimestamp) (opened tx s) = .ok receipt at h
  obtain ⟨res, hres, h, hafter⟩ := of_bind_ok h
  refine ⟨res, hres, ?_⟩
  dsimp only
  rw [hafter]
  generalize after (config.handleTransaction tx height index blockTimestamp) (opened tx s) = t at h ⊢
  rw [settled] at h ⊢
  obtain ⟨outcome, hburn, h, hafter⟩ := of_bind_ok h
  rw [hafter]
  have fails : config.BurnFails res.burnFuelArgs height blockTimestamp t ↔
      0 < height ∧ (!(burnOutcome outcome).1 ∨ res.burnFuelArgs.fuelLimit < res.burnFuelArgs.fuelToBurn) := by
    have burnt : (∃ reply, result (config.burnFuel res.burnFuelArgs blockTimestamp) t = .ok reply ∧
        (burnOutcome reply).1 = false) ↔ (!(burnOutcome outcome).1) = true := by
      rw [hburn, Bool.not_eq_true']
      constructor
      · rintro ⟨reply, ⟨⟩, hreply⟩
        exact hreply
      · exact fun hreply => ⟨outcome, rfl, hreply⟩
    rw [BurnFails, burnt]
  generalize burnOutcome outcome = burned at h fails ⊢
  obtain ⟨burnOk, burntUnits⟩ := burned
  dsimp only at h fails ⊢
  by_cases hfails : 0 < height ∧ (!burnOk ∨ res.burnFuelArgs.fuelLimit < res.burnFuelArgs.fuelToBurn)
  · rw [if_pos hfails] at h ⊢
    cases h
    exact .inl ⟨fails.mpr hfails, rfl, rfl, rfl⟩
  · rw [if_neg hfails] at h ⊢
    cases h
    exact .inr ⟨fun burnFails => hfails (fails.mp burnFails), rfl, rfl, rfl⟩

end Burning

variable [Primitives]

/-- What a transaction should leave if it fails. If its fuel cannot be burnt, the fork holds
what it held before; otherwise it holds what burning the fuel leaves of that. -/
structure LeavesOnlyBurn (tx : Transaction) (height : UInt64) (index : UInt32)
    (blockTimestamp : UInt64) (s : Execution W) : Prop where
  nothing : ∀ res,
    result (config.handleTransaction tx height index blockTimestamp) (opened tx s) = .ok res →
    config.BurnFails res.burnFuelArgs height blockTimestamp
      (after (config.handleTransaction tx height index blockTimestamp) (opened tx s)) →
    s.fork.working.Same
      (after (config.executeTransaction tx height index blockTimestamp) s).fork.working
  burning : ∀ res,
    result (config.handleTransaction tx height index blockTimestamp) (opened tx s) = .ok res →
    ¬ config.BurnFails res.burnFuelArgs height blockTimestamp
      (after (config.handleTransaction tx height index blockTimestamp) (opened tx s)) →
    s.fork.working.Same
        (after (config.handleTransaction tx height index blockTimestamp) (opened tx s)).fork.working ∧
      (after (config.executeTransaction tx height index blockTimestamp) s).fork =
        (after (config.burnFuel res.burnFuelArgs blockTimestamp)
          (after (config.handleTransaction tx height index blockTimestamp) (opened tx s))).fork

/-- If the contract of the unit or of the root is refused, its check left the accounts as
they were, or the price of the refusal cannot be burnt. -/
def RefusalLeavesNothing (tx : Transaction) (height blockTimestamp : UInt64) (s : Execution W) :
    Prop :=
  ∀ contract ctxArgs left e, config.openingCheck height tx = some (contract, ctxArgs) →
    Wm.appHashCheck contract ctxArgs blockTimestamp (world s) = .ok (left, .error e) →
    s.fork.accounts.Same left.accounts ∨
      config.BurnFails ⟨ctxArgs.caller, getFuelBurntForError, feeLimit tx⟩ height blockTimestamp
        (setWorld s left)

section Leaves

variable {config} {tx : Transaction} {height : UInt64} {index : UInt32} {blockTimestamp : UInt64}
  {s : Execution W} {receipt : Receipt} {res : HandleTransactionReturns}

/-- What matters is what the handler left, where the fuel can be burnt. -/
theorem leavesOnlyBurn_iff_handled
    (h : result (config.executeTransaction tx height index blockTimestamp) s = .ok receipt)
    (hres : result (config.handleTransaction tx height index blockTimestamp) (opened tx s) =
      .ok res) :
    config.LeavesOnlyBurn tx height index blockTimestamp s ↔
      (¬ config.BurnFails res.burnFuelArgs height blockTimestamp
        (after (config.handleTransaction tx height index blockTimestamp) (opened tx s)) →
      s.fork.working.Same
        (after (config.handleTransaction tx height index blockTimestamp) (opened tx s)).fork.working) := by
  have saved := (config.executeTransaction_within tx height index blockTimestamp s).saved
  obtain ⟨res', hres', executed⟩ := of_executeTransaction_ok h
  rw [hres] at hres'
  cases hres'
  constructor
  · intro leaves burns
    exact (leaves.burning res hres burns).1
  · intro kept
    constructor
    · intro res' hres' burnFails
      rw [hres] at hres'
      cases hres'
      obtain ⟨-, fork, -⟩ | ⟨burns, -⟩ := executed
      · apply Db.Same.of_eq
        rw [fork]
        rw [fork] at saved
        exact saved
      · exact absurd burnFails burns
    · intro res' hres' burns
      rw [hres] at hres'
      cases hres'
      obtain ⟨burnFails, -⟩ | ⟨-, fork, -⟩ := executed
      · exact absurd burnFails burns
      · exact ⟨kept burns, fork⟩

theorem refusalLeavesNothing_of_accepted
    (accepted : Accepted (config.openingCheck height tx) blockTimestamp (opened tx s)) :
    config.RefusalLeavesNothing tx height blockTimestamp s := by
  intro contract ctxArgs left e asked answered
  exact absurd answered (accepted contract ctxArgs asked left e)

/-- A handled transaction leaves the fork as it was, succeeds, or was refused. -/
theorem handled_leaves_iff
    (hres : result (config.handleTransaction tx height index blockTimestamp) (opened tx s) =
      .ok res)
    (failed : res.receipt.success = true → config.BurnFails res.burnFuelArgs height blockTimestamp
      (after (config.handleTransaction tx height index blockTimestamp) (opened tx s))) :
    (¬ config.BurnFails res.burnFuelArgs height blockTimestamp
        (after (config.handleTransaction tx height index blockTimestamp) (opened tx s)) →
      s.fork.working.Same
        (after (config.handleTransaction tx height index blockTimestamp) (opened tx s)).fork.working) ↔
      config.RefusalLeavesNothing tx height blockTimestamp s := by
  have saved := (config.handleTransaction_runs tx height index blockTimestamp (opened tx s)).saved
  cases config.handleTransaction_handled hres with
  | succeeded accepted success =>
    exact iff_of_true (fun burns => absurd (failed success) burns) (refusalLeavesNothing_of_accepted accepted)
  | untouched accepted fork =>
    have working := congrArg DbFork.working fork
    exact iff_of_true (fun _ => .of_eq working) (refusalLeavesNothing_of_accepted accepted)
  | rolledBack accepted fork =>
    exact iff_of_true (fun _ => .of_eq (fork.trans saved)) (refusalLeavesNothing_of_accepted accepted)
  | refused asked answered same fork args notOk =>
    have burning : config.BurnFails res.burnFuelArgs height blockTimestamp
        (after (config.handleTransaction tx height index blockTimestamp) (opened tx s)) ↔
        config.BurnFails res.burnFuelArgs height blockTimestamp (setWorld s _) := burnFails_congr same
    have working := congrArg DbFork.working fork
    rw [burning, args, working]
    constructor
    · intro kept contract ctxArgs left e hasked hanswered
      rw [asked] at hasked
      cases hasked
      rw [show world (opened tx s) = world s from rfl, hanswered] at answered
      cases answered
      rw [or_iff_not_imp_right]
      intro burns
      exact (kept burns).accounts
    · intro leaves burns
      obtain same | burnFails := leaves _ _ _ _ asked answered
      · exact Db.Same.setAccounts_iff.mpr same
      · exact absurd burnFails burns

end Leaves

/-- For every machine, every fork, every transaction and every height: a transaction that
fails leaves only the burning of its fuel exactly if a refusal of its contract leaves
nothing. -/
theorem leavesOnlyBurn_iff (tx : Transaction) (height : UInt64) (index : UInt32)
    (blockTimestamp : UInt64) (s : Execution W) (receipt : Receipt)
    (h : result (config.executeTransaction tx height index blockTimestamp) s = .ok receipt)
    (failed : receipt.success = false) :
    config.LeavesOnlyBurn tx height index blockTimestamp s ↔
      config.RefusalLeavesNothing tx height blockTimestamp s := by
  obtain ⟨res, hres, executed⟩ := of_executeTransaction_ok h
  rw [leavesOnlyBurn_iff_handled h hres]
  apply handled_leaves_iff hres
  intro success
  obtain ⟨burnFails, -⟩ | ⟨-, -, hsuccess, -⟩ := executed
  · exact burnFails
  · rw [failed, success] at hsuccess
    cases hsuccess

end WasmConfig

namespace Sample

section Refusals

/-- The first contract notes what it is asked to allow and refuses it. The others do
nothing and fail. -/
local instance refusingEngine : WasmEngine := scripted fun wasmBin =>
  if wasmBin = [1] then .ok ⟨[], [.storeData "asked" [7]], .ok [1, 0]⟩
  else .ok ⟨[], [], .ok [0]⟩

/-- A network with a service contract and a shop, where fuel is not burnt. -/
def trading : Execution WmLocal where
  wm := freshWm 2
  drand := SeedSource.new [] [] Hash.default Hash.default Hash.default
  fork := { Db.empty with accounts := deployed [(serviceAccountId, 1), ("shop", 3)] }.createFork
  executed := []
  ran := []

/-- A call of alice's that asks for this contract at the shop. -/
def rebinding (contract : Option Hash) : Transaction :=
  .unitTransaction (signed (keypair 1) (.v1 { request 1 (keypair 1).publicKey with
    contract := contract }))

def traded (contract : Option Hash) : Except Stop Receipt :=
  result (config.executeTransaction (rebinding contract) 1 0 0) trading

def afterTrade (contract : Option Hash) : Execution WmLocal :=
  after (config.executeTransaction (rebinding contract) 1 0 0) trading

/-- Whether a transaction came to a receipt without success. -/
def failedIn : Except Stop Receipt → Bool
  | .ok receipt => !receipt.success
  | .error _ => false

theorem of_failedIn {outcome : Except Stop Receipt} (h : failedIn outcome = true) :
    ∃ receipt, outcome = .ok receipt ∧ receipt.success = false := by
  cases outcome with
  | error e => cases h
  | ok receipt => exact ⟨receipt, rfl, (Bool.not_eq_true' _).mp h⟩

/-- The note of the refused question stays in the fork, and nothing was burnt. -/
theorem refused_note_stays : failedIn (traded (some (contractHash 2))) = true ∧
    trading.fork.accounts.loadAccountData serviceAccountId "asked" = none ∧
    (afterTrade (some (contractHash 2))).fork.accounts.loadAccountData serviceAccountId "asked" =
      some [7] ∧
    ¬ config.LeavesOnlyBurn (rebinding (some (contractHash 2))) 1 0 0 trading := by
  have failed : failedIn (traded (some (contractHash 2))) = true := by decide +kernel
  have before : trading.fork.accounts.loadAccountData serviceAccountId "asked" = none := by
    decide +kernel
  have noted : (afterTrade (some (contractHash 2))).fork.accounts.loadAccountData serviceAccountId
      "asked" = some [7] := by decide +kernel
  refine ⟨failed, before, noted, fun leaves => ?_⟩
  obtain ⟨receipt, hreceipt, -⟩ := of_failedIn failed
  obtain ⟨res, hres, -⟩ := WasmConfig.of_executeTransaction_ok hreceipt
  have same : trading.fork.working.Same (afterTrade (some (contractHash 2))).fork.working := by
    by_cases burns : config.BurnFails res.burnFuelArgs 1 0
      (after (config.handleTransaction (rebinding (some (contractHash 2))) 1 0 0)
        (WasmConfig.opened (rebinding (some (contractHash 2))) trading))
    · exact leaves.nothing res hres burns
    · -- without a burning method nothing is called
      obtain ⟨kept, fork⟩ := leaves.burning res hres burns
      rw [afterTrade, fork]
      exact kept
  have data : trading.fork.accounts.loadAccountData serviceAccountId "asked" =
      (afterTrade (some (contractHash 2))).fork.accounts.loadAccountData serviceAccountId "asked" :=
    congrArg (fun data => data.lookup (serviceAccountId, "asked")) same.accounts.data
  rw [before, noted] at data
  cases data

/-- Whether a check was answered with an error. -/
def refusedIn {α : Type} : Except MachinePanic (α × Except WasmError Hash) → Bool
  | .ok (_, .error _) => true
  | _ => false

/-- A shop that keeps its contract is not refused. Its call fails and is rolled back. -/
theorem failed_call_leaves_nothing : ∃ receipt, traded none = .ok receipt ∧
    receipt.success = false ∧ config.LeavesOnlyBurn (rebinding none) 1 0 0 trading := by
  obtain ⟨receipt, hreceipt, failed⟩ := of_failedIn (show failedIn (traded none) = true by
    decide +kernel)
  refine ⟨receipt, hreceipt, failed, ?_⟩
  refine (config.leavesOnlyBurn_iff (rebinding none) 1 0 0 trading receipt hreceipt failed).mpr ?_
  intro contract ctxArgs left e asked answered
  have accepted : ((config.openingCheck 1 (rebinding none)).map fun check =>
      refusedIn (Wm.appHashCheck check.1 check.2 0 (world trading))) = some false := by
    decide +kernel
  rw [asked, Option.map_some, answered] at accepted
  cases accepted

end Refusals

end Sample

end Trinci
