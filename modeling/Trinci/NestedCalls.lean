import Trinci.TransactionFailures
import Trinci.TreeWrites

/-!
# Nested calls that return errors

Nested calls share one fork and one list of events, and there is no checkpoint inside
a transaction. What a callee wrote before it failed stays with its caller, and the
caller may go on. It is undone with the transaction only.
-/

namespace Trinci

open StatefulSteps Exec

/-- The same records, whatever the order they are kept in. -/
structure Accounts.Same (a b : Accounts) : Prop where
  accounts : ∀ id, a.loadAccount id = b.loadAccount id
  data : a.data = b.data

namespace Accounts.Same

variable {a b c : Accounts}

theorem refl (a : Accounts) : Same a a := ⟨fun _ => rfl, rfl⟩

theorem trans (h : Same a b) (h' : Same b c) : Same a c :=
  ⟨fun id => (h.accounts id).trans (h'.accounts id), h.data.trans h'.data⟩

/-- An account that is stored as it is. -/
theorem storeAccount {account : Account} (h : Same a b)
    (loaded : a.loadAccount account.id = some account) : Same a (b.storeAccount account) := by
  refine ⟨fun id => ?_, h.data⟩
  by_cases heq : id = account.id
  · subst heq
    rw [loaded]
    exact (AList.lookup_insert b.accounts).symm
  · exact (h.accounts id).trans (AList.lookup_insert_ne heq).symm

end Accounts.Same

section Nested

variable [WasmEngine]

/-- Nothing is written or emitted, and an account that is bound keeps its contract. -/
def Moment.Silent : Moment → Prop
  | .asked _ _ q _ => q.request.leavesTrace = false
  | .bound owner contract before _ =>
    ∃ account, before.loadAccount owner = some account ∧ account.id = owner ∧
      account.contract = contract
  | _ => True

instance : DecidablePred Moment.Silent
  | .asked _ _ q _ => inferInstanceAs (Decidable (q.request.leavesTrace = false))
  | .bound owner contract before _ =>
    decidable_of_iff ((before.loadAccount owner).any (fun account =>
        decide (account.id = owner ∧ account.contract = contract)) = true) (by
      rw [Moment.Silent, Option.any_eq_true]
      simp only [decide_eq_true_eq])
  | .looked _ _ => inferInstanceAs (Decidable True)
  | .left _ _ _ _ => inferInstanceAs (Decidable True)

/-- The invocation that a nested call makes. -/
def HostFunc.nestedCall (ctx : CallArgs) (account : String) (contract : Option Hash)
    (method : String) (args : Bytes) (fuel : UInt64) : Invocation where
  account := account
  contract := contract
  callable := false
  args := fun appHash => nestedArgs ctx account appHash method args fuel

/-- What a nested call leaves to its caller, with its charge and its result: nothing where
there is no machine yet, the world that the check of a refused contract left, or the world
that the callee left, with the callee's events behind those of the caller. -/
inductive HostFunc.Leaves (inner : Machine) (ctx : CallArgs) (f : Frame) (account : String)
    (contract : Option Hash) (method : String) (args : Bytes) (fuel : UInt64) :
    Frame → UInt64 → Except WasmError Bytes → Prop
  | absent (off : f.instantiated = false) :
      Leaves inner ctx f account contract method args fuel f getFuelBurntForError
        (.error (.wasmMachineFault "nested calls not implemented"))
  | refused (on : f.instantiated = true) {world : World WmLocal} {e : WasmError}
      (check : inner.appHashCheck contract ⟨ctx.origin, account, ctx.owner⟩ ctx.blockTimestamp
        f.world = .ok (world, .error e)) :
      Leaves inner ctx f account contract method args fuel { f with world := world } 0 (.error e)
  | called (on : f.instantiated = true) {world left : World WmLocal} {appHash : Hash}
      {events : List SmartContractEvent} {consumed : UInt64} {result : Except WasmError Bytes}
      (check : inner.appHashCheck contract ⟨ctx.origin, account, ctx.owner⟩ ctx.blockTimestamp
        f.world = .ok (world, .ok appHash))
      (callee : inner.call (nestedArgs ctx account appHash method args fuel) world =
        .ok (left, events, consumed, result)) :
      Leaves inner ctx f account contract method args fuel
        { f with world := left, events := f.events ++ events } consumed result

/-- Nothing that a callee left is taken back, whatever it returned. -/
theorem HostFunc.call_leaves {inner : Machine} {ctx : CallArgs} {f f' : Frame} {account : String}
    {contract : Option Hash} {method : String} {args : Bytes} {fuel consumed : UInt64}
    {outcome : Except WasmError Bytes}
    (h : call inner ctx f account contract method args fuel = .ok (f', consumed, outcome)) :
    Leaves inner ctx f account contract method args fuel f' consumed outcome := by
  rw [call] at h
  by_cases on : f.instantiated = true
  · rw [if_pos on] at h
    obtain ⟨⟨world, appHash⟩, check, h⟩ := StepMachines.bind_eq_ok.mp h
    cases appHash with
    | error e =>
      cases h
      exact .refused on check
    | ok appHash =>
      obtain ⟨⟨left, events, charge, result⟩, callee, h⟩ := StepMachines.bind_eq_ok.mp h
      cases h
      exact .called on check callee
  · rw [if_neg on] at h
    cases h
    exact .absent (Bool.eq_false_iff.2 on)

variable [Primitives] [Merkle] [Pcg32] [WmCodec]

omit [Primitives] [Pcg32] [WmCodec] in
/-- A silent tree leaves the accounts and emits nothing. -/
theorem silent_rule :
    TreeRule (fun w w' events => w.accounts.Same w'.accounts ∧ events = [])
      (fun _ w f => w.accounts.Same f.accounts ∧ f.events = [] ∧ f.dataUpdated = false)
      Moment.Silent where
  refl w := ⟨Accounts.Same.refl w.accounts, rfl⟩
  trans := by
    rintro u v w xs ys ⟨first, rfl⟩ ⟨second, rfl⟩
    exact ⟨first.trans second, rfl⟩
  hushed moved := ⟨moved.1, rfl⟩
  looked w _ _ := ⟨Accounts.Same.refl w.accounts, rfl⟩
  start _ w := ⟨Accounts.Same.refl w.accounts, rfl, rfl⟩
  effect := by
    rintro stack ctx w q f f' ⟨same, nothing, clean⟩ silent effect
    have quiet : q.request.leavesTrace = false := silent
    cases effect with
    | quiet accounts _ dataUpdated events =>
      exact ⟨accounts ▸ same, events.trans nothing, dataUpdated.trans clean⟩
    | emitted leaves => exact absurd (leaves.symm.trans quiet) (by decide)
    | stored leaves => exact absurd (leaves.symm.trans quiet) (by decide)
    | removed leaves => exact absurd (leaves.symm.trans quiet) (by decide)
    | assets leaves => exact absurd (leaves.symm.trans quiet) (by decide)
  nested := by
    rintro ctx w f f' xs ⟨same, nothing, clean⟩ ⟨moved, rfl⟩ events dataUpdated
    refine ⟨same.trans moved, ?_, dataUpdated.trans clean⟩
    rw [events, nothing]
    rfl
  faulted kept _ := ⟨kept.1, kept.2.1⟩
  finished := by
    rintro args w f fuel w' ⟨same, nothing, clean⟩ - updated
    rw [WmLocal.updateDataHash, clean] at updated
    cases updated
    exact ⟨same, nothing⟩
  bound := by
    rintro owner w w' appHash ⟨same, -⟩ ⟨account, loaded, hid, keeps⟩
    refine ⟨?_, rfl⟩
    subst hid
    rw [WmLocal.bind, loaded, Option.getD_some, ← keeps]
    exact same.storeAccount loaded

omit [Primitives] [Merkle] [Pcg32] [WmCodec] in
theorem nested_run {inner : Machine} {ctx : CallArgs} {f f' : Frame} {account : String}
    {contract : Option Hash} {method : String} {args : Bytes} {fuel consumed : UInt64}
    {outcome : Except WasmError Bytes}
    (h : HostFunc.call inner ctx f account contract method args fuel =
      .ok (f', consumed, outcome)) :
    (HostFunc.nestedCall ctx account contract method args fuel).run inner ctx f =
      .ok (f', consumed) := by
  rw [HostFunc.nestedCall, HostFunc.run_eq_call, h]
  rfl

omit [Primitives] [Merkle] [Pcg32] [WmCodec] in
/-- The events of a caller stay in front, whatever a nested call does. -/
theorem nested_events {inner : Machine} {ctx : CallArgs} {f f' : Frame} {account : String}
    {contract : Option Hash} {method : String} {args : Bytes} {fuel consumed : UInt64}
    {outcome : Except WasmError Bytes}
    (h : HostFunc.call inner ctx f account contract method args fuel =
      .ok (f', consumed, outcome)) : ∃ events, f'.events = f.events ++ events := by
  cases HostFunc.call_leaves h with
  | absent => exact ⟨[], (List.append_nil _).symm⟩
  | refused => exact ⟨[], (List.append_nil _).symm⟩
  | called => exact ⟨_, rfl⟩

/-- The accounts after a nested call are those before it with everything its tree did to
them. -/
theorem nested_replayed {stack : Nat} {ctx : CallArgs} {f f' : Frame} {account : String}
    {contract : Option Hash} {method : String} {args : Bytes} {fuel consumed : UInt64}
    {outcome : Except WasmError Bytes}
    (h : HostFunc.call (WmLocal.machine stack) ctx f account contract method args fuel =
      .ok (f', consumed, outcome)) :
    f'.accounts = replay ((HostFunc.nestedCall ctx account contract method args fuel).trace
      (WmLocal.machine stack) (WmLocal.tracer stack) ctx f) f.accounts := by
  have traced := replay_rule.machine_traced stack
  obtain ⟨events, replayed, -⟩ := Invocation.run_traced (fun w => rfl)
    (fun first second => by rw [second, first, replay_append]) traced (nested_run h)
  exact replayed

/-- A nested call that is silent all over leaves everything to its caller as it was. -/
theorem nested_silent {stack : Nat} {ctx : CallArgs} {f f' : Frame} {account : String}
    {contract : Option Hash} {method : String} {args : Bytes} {fuel consumed : UInt64}
    {outcome : Except WasmError Bytes}
    (h : HostFunc.call (WmLocal.machine stack) ctx f account contract method args fuel =
      .ok (f', consumed, outcome))
    (silent : ∀ m ∈ (HostFunc.nestedCall ctx account contract method args fuel).trace
      (WmLocal.machine stack) (WmLocal.tracer stack) ctx f, m.Silent) :
    f.accounts.Same f'.accounts ∧ f'.events = f.events := by
  have rule := silent_rule
  obtain ⟨events, ⟨same, rfl⟩, hevents, -⟩ := Invocation.run_relates rule.refl rule.trans
    (rule.machine_relates stack) silent (nested_run h)
  exact ⟨same, hevents.trans (List.append_nil _)⟩

end Nested

/-! ## Transactions that fail -/

section Transactions

variable {W : Type}

/-- What a transaction that was handled without success leaves in the fork. -/
inductive Undone [Wm W] (blockTimestamp : UInt64) (s t : Execution W) : Prop
  | untouched (fork : t.fork = s.fork)
  | rolledBack (fork : t.fork.working = t.fork.saved)
  /-- The transaction was refused when its contract was checked. -/
  | refused {contract : Option Hash} {ctxArgs : CtxArgs} {left : World W} {e : WasmError}
      (check : Wm.appHashCheck contract ctxArgs blockTimestamp (world s) = .ok (left, .error e))
      (fork : t.fork = s.fork.setAccounts left.accounts)

/-- How a transaction without success left the fork, without its opening check. -/
theorem LeavesFork.undone [Wm W] {check : Option (Option Hash × CtxArgs)}
    {fuelLimit blockTimestamp : UInt64} {s t : Execution W} {res : HandleTransactionReturns}
    (h : LeavesFork check fuelLimit blockTimestamp s t res) (failed : res.receipt.success = false) :
    Undone blockTimestamp s t := by
  cases h with
  | succeeded accepted success =>
    rw [failed] at success
    cases success
  | untouched accepted fork => exact .untouched fork
  | rolledBack accepted fork => exact .rolledBack fork
  | refused asked answered world fork args => exact .refused answered fork

namespace WasmConfig

variable [Primitives] [NodeCodec] [Wm W] (config : WasmConfig)

/-- A transaction that is handled without success is undone as a whole, unless it was
refused when its contract was checked. -/
theorem handleTransaction_undone {tx : Transaction} {height : UInt64} {index : UInt32}
    {blockTimestamp : UInt64} {s : Execution W} {res : HandleTransactionReturns}
    (h : result (config.handleTransaction tx height index blockTimestamp) (opened tx s) = .ok res)
    (failed : res.receipt.success = false) :
    let t := after (config.handleTransaction tx height index blockTimestamp) (opened tx s)
    t.fork.working = s.fork.working ∨
      ∃ contract ctxArgs left e, Wm.appHashCheck contract ctxArgs blockTimestamp (world s) =
          .ok (left, .error e) ∧ t.fork.accounts = left.accounts := by
  have saved := (config.handleTransaction_runs tx height index blockTimestamp (opened tx s)).saved
  cases (config.handleTransaction_handled h).undone failed with
  | untouched fork =>
    have working := congrArg DbFork.working fork
    exact .inl working
  | rolledBack fork => exact .inl (fork.trans saved)
  | refused check fork =>
    have accounts := congrArg DbFork.accounts fork
    exact .inr ⟨_, _, _, _, check, accounts⟩

end WasmConfig

end Transactions

/-! ## Nested errors -/

section Errors

variable [WasmEngine] [Primitives] [Merkle] [Pcg32] [WmCodec] [NodeCodec]

/-- A nested call that returns an error keeps the events before it, and leaves everything
as it was if nothing in its tree writes or emits. Its caller has exactly what it left: the
accounts with everything its tree did to them, and its events behind those before. This is
undone with the transaction: one that is handled without success leaves the fork as it found
it, or it was refused when its own contract was checked. -/
theorem nested_error_kept_with_transaction :
    (∀ (stack : Nat) (ctx : CallArgs) (f f' : Frame) (account : String) (contract : Option Hash)
        (method : String) (args : Bytes) (fuel consumed : UInt64) (e : WasmError),
      HostFunc.call (WmLocal.machine stack) ctx f account contract method args fuel =
        .ok (f', consumed, .error e) →
      (∃ events, f'.events = f.events ++ events) ∧
      ((∀ m ∈ (HostFunc.nestedCall ctx account contract method args fuel).trace
          (WmLocal.machine stack) (WmLocal.tracer stack) ctx f, m.Silent) →
        f.accounts.Same f'.accounts ∧ f'.events = f.events) ∧
      HostFunc.Leaves (WmLocal.machine stack) ctx f account contract method args fuel f' consumed
        (.error e) ∧
      f'.accounts = replay ((HostFunc.nestedCall ctx account contract method args fuel).trace
        (WmLocal.machine stack) (WmLocal.tracer stack) ctx f) f.accounts) ∧
    ∀ (config : WasmConfig) (tx : Transaction) (height : UInt64) (index : UInt32)
        (blockTimestamp : UInt64) (s : Execution WmLocal) (res : HandleTransactionReturns),
      result (config.handleTransaction tx height index blockTimestamp) (WasmConfig.opened tx s) =
        .ok res →
      res.receipt.success = false →
      let t := after (config.handleTransaction tx height index blockTimestamp)
        (WasmConfig.opened tx s)
      t.fork.working = s.fork.working ∨
        ∃ contract ctxArgs left e, Wm.appHashCheck contract ctxArgs blockTimestamp (world s) =
            .ok (left, .error e) ∧ t.fork.accounts = left.accounts := by
  constructor
  · intro stack ctx f f' account contract method args fuel consumed e h
    exact ⟨nested_events h, fun silent => nested_silent h silent, HostFunc.call_leaves h,
      nested_replayed h⟩
  · intro config tx height index blockTimestamp s res h failed
    exact config.handleTransaction_undone h failed

end Errors

namespace Sample

section Sales

/-- The first contract calls the second, which notes a sale and fails. The third fails at
once. -/
local instance sellingEngine : WasmEngine := scripted fun wasmBin =>
  if wasmBin = [1] then .ok ⟨[], [.call "oracle" "run" []], .ok [1]⟩
  else if wasmBin = [2] then .ok ⟨[], [.storeData "sold" [7], .emit "sold" []], .ok [0]⟩
  else .ok ⟨[], [], .ok [0]⟩

def market : Accounts := deployed [("shop", 1), ("oracle", 2), ("closed", 3)]

/-- The frame of the shop's contract. -/
def shopFrame : Frame := ⟨worldOf 1 market, [], false, true⟩

/-- The failed callee leaves its data and its event, and the caller goes on to succeed. -/
theorem failed_sale_stays :
    (∃ f' consumed e, HostFunc.call (WmLocal.machine 1) (callOf "shop" 1 1000) shopFrame "oracle"
        none "run" [] 1000 = .ok (f', consumed, .error e) ∧
      ¬ shopFrame.accounts.Same f'.accounts ∧ f'.events ≠ shopFrame.events) ∧
    ∃ left events consumed value, (WmLocal.machine 2).call (callOf "shop" 1 1000)
        (worldOf 2 market) = .ok (left, events, consumed, .ok value) ∧
      left.accounts.loadAccountData "oracle" "sold" = some [7] ∧ events.length = 1 := by
  constructor
  · refine ⟨_, _, _, rfl, fun same => ?_, ?_⟩
    · exact absurd (congrArg (fun data => data.lookup ("oracle", "sold")) same.data)
        (by decide +kernel)
    · exact List.cons_ne_nil _ _
  · exact ⟨_, _, _, _, rfl, by decide +kernel, by decide +kernel⟩

/-- A market in which the account of the sample requests has the contract that fails. -/
def closing : Execution WmLocal where
  wm := freshWm 2
  drand := SeedSource.new [] [] Hash.default Hash.default Hash.default
  fork := { Db.empty with accounts := deployed [("shop", 3)] }.createFork
  executed := []
  ran := []

/-- A callee that fails at once leaves nothing, and a transaction of alice's that fails
leaves the fork as it was. -/
theorem closed_callee_leaves_nothing :
    (∃ f' consumed e, HostFunc.call (WmLocal.machine 1) (callOf "shop" 1 1000) shopFrame "closed"
        none "run" [] 1000 = .ok (f', consumed, .error e) ∧
      shopFrame.accounts.Same f'.accounts ∧ f'.events = shopFrame.events) ∧
    let t := after (config.handleTransaction (unitOf 1 (keypair 1)) 1 0 0)
      (WasmConfig.opened (unitOf 1 (keypair 1)) closing)
    t.fork.working = closing.fork.working ∨
      ∃ contract ctxArgs left e, Wm.appHashCheck contract ctxArgs 0 (world closing) =
          .ok (left, .error e) ∧ t.fork.accounts = left.accounts := by
  constructor
  · refine ⟨_, _, _, rfl, ?_⟩
    refine (nested_error_kept_with_transaction.1 1 (callOf "shop" 1 1000) shopFrame _
      "closed" none "run" [] 1000 _ _ rfl).2.1 ?_
    decide +kernel
  · exact nested_error_kept_with_transaction.2 config (unitOf 1 (keypair 1)) 1 0 0 closing _ rfl
      rfl

end Sales

end Sample

end Trinci
