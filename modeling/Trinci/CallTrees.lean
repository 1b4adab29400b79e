import Trinci.WmLocal

/-!
# Call trees

A call of a contract is a tree: its host functions make nested calls, on a machine
with less stack. What happens in a tree is noted in order: the look-ups of modules,
the questions of contracts, how contracts end, and the bindings of accounts. A tracer
follows a machine and returns these notes; it computes no state of its own.

A rule for trees says what each of these moments does to the world. It gives what a
whole tree does, by induction on the stack and, inside a contract, on its program.
-/

namespace Trinci

open HostPrograms

section Trees

variable [WasmEngine]

inductive Moment
  /-- The module of a contract is looked up. -/
  | looked (accounts : Accounts) (target : Hash)
  /-- A contract asks its host, which answers with this much stack. -/
  | asked (stack : Nat) (ctx : CallArgs) (q : HostQuestion) (f : Frame)
  /-- A contract ends with this much fuel. Whether it faulted says if its data hash was
  left alone. -/
  | left (args : CallArgs) (f : Frame) (fuel : UInt64) (faulted : Bool)
  /-- An account is bound to a contract, as it was before the contract was accepted. -/
  | bound (owner : String) (contract : Option Hash) (before after : Accounts)

/-- The notes of the functions of a machine. -/
structure Tracer where
  call : CallArgs → World WmLocal → List Moment
  callableCall : CallArgs → World WmLocal → List Moment
  appHashCheck : Option Hash → CtxArgs → (blockTimestamp : UInt64) → World WmLocal → List Moment

/-! ## Nested invocations -/

/-- A nested invocation: of an account, with the contract that is asked for, of one of
the two entry points. -/
structure Invocation where
  account : String
  contract : Option Hash
  callable : Bool
  args : (appHash : Hash) → CallArgs

namespace HostFunc

/-- What a question makes the machine invoke. -/
def invocationOf (ctx : CallArgs) (q : HostQuestion) (f : Frame) : Option Invocation :=
  match q.request with
  | .isCallable account method => (getAccountContract f account).map fun hash =>
    ⟨account, some hash, true,
      fun appHash => nestedArgs ctx account appHash method (bytesOf method) q.fuel⟩
  | .call account method args =>
    some ⟨account, none, false, fun appHash => nestedArgs ctx account appHash method args q.fuel⟩
  | .sCall account contract method args =>
    some ⟨account, some contract, false,
      fun appHash => nestedArgs ctx account appHash method args q.fuel⟩
  | _ => none

theorem invocationOf_isCallable {ctx : CallArgs} {f : Frame} {account method : String}
    {fuel : UInt64} {i : Invocation}
    (hi : invocationOf ctx ⟨.isCallable account method, fuel⟩ f = some i) :
    ∃ hash, getAccountContract f account = some hash ∧ i = ⟨account, some hash, true,
      fun appHash => nestedArgs ctx account appHash method (bytesOf method) fuel⟩ := by
  obtain ⟨hash, bound, rfl⟩ := Option.map_eq_some_iff.mp hi
  exact ⟨hash, bound, rfl⟩

end HostFunc

namespace Invocation

variable (i : Invocation) (inner : Machine) (t : Tracer) (ctx : CallArgs) (f : Frame)

/-- The contract is checked for the account. -/
def check : Except MachinePanic (World WmLocal × Except WasmError Hash) :=
  inner.appHashCheck i.contract ⟨ctx.origin, i.account, ctx.owner⟩ ctx.blockTimestamp f.world

/-- What the callee leaves and what it is charged, without its result. -/
def callee (appHash : Hash) (w : World WmLocal) :
    Except MachinePanic (World WmLocal × List SmartContractEvent × UInt64) :=
  if i.callable then
    (inner.callableCall (i.args appHash) w).map fun left => (left.1, left.2.1, left.2.2.1)
  else (inner.call (i.args appHash) w).map fun left => (left.1, left.2.1, left.2.2.1)

/-- The frame after the invocation and the charge for it. -/
def run : Except MachinePanic (Frame × UInt64) :=
  if f.instantiated then do
    let (world, appHash) ← i.check inner ctx f
    match appHash with
    | .error _ => return ({ f with world := world }, 0)
    | .ok appHash => do
      let (world, events, consumed) ← i.callee inner appHash world
      return ({ f with world := world, events := f.events ++ events }, consumed)
  else .ok (f, getFuelBurntForError)

def traceCallee (appHash : Hash) (w : World WmLocal) : List Moment :=
  if i.callable then t.callableCall (i.args appHash) w else t.call (i.args appHash) w

/-- The notes of the check of the contract, and of the callee. -/
def trace : List Moment :=
  if f.instantiated then
    t.appHashCheck i.contract ⟨ctx.origin, i.account, ctx.owner⟩ ctx.blockTimestamp f.world ++
      match i.check inner ctx f with
      | .ok (world, .ok appHash) => i.traceCallee t appHash world
      | _ => []
  else []

/-- How an invocation goes: there is no machine yet, the contract is refused, or the
callee is entered. -/
inductive Runs : Frame → UInt64 → Prop
  | absent (off : f.instantiated = false) : Runs f getFuelBurntForError
  | refused (on : f.instantiated = true) {world : World WmLocal} {e : WasmError}
      (hcheck : i.check inner ctx f = .ok (world, .error e)) : Runs { f with world := world } 0
  | called (on : f.instantiated = true) {world left : World WmLocal} {appHash : Hash}
      {events : List SmartContractEvent} {consumed : UInt64}
      (hcheck : i.check inner ctx f = .ok (world, .ok appHash))
      (hcallee : i.callee inner appHash world = .ok (left, events, consumed)) :
      Runs { f with world := left, events := f.events ++ events } consumed

variable {i inner t ctx f}

theorem run_runs {f' : Frame} {consumed : UInt64} (h : i.run inner ctx f = .ok (f', consumed)) :
    i.Runs inner ctx f f' consumed := by
  rw [run] at h
  by_cases on : f.instantiated = true
  · rw [if_pos on] at h
    cases hcheck : i.check inner ctx f with
    | error p =>
      simp only [hcheck, bind, Except.bind] at h
      cases h
    | ok checked =>
      obtain ⟨world, appHash⟩ := checked
      cases appHash with
      | error e =>
        simp only [hcheck, bind, Except.bind, pure, Except.pure] at h
        cases h
        exact .refused on hcheck
      | ok appHash =>
        cases hcallee : i.callee inner appHash world with
        | error p =>
          simp only [hcheck, hcallee, bind, Except.bind] at h
          cases h
        | ok left =>
          obtain ⟨left, events, charge⟩ := left
          simp only [hcheck, hcallee, bind, Except.bind, pure, Except.pure] at h
          cases h
          exact .called on hcheck hcallee
  · rw [if_neg on] at h
    cases h
    exact .absent (Bool.eq_false_iff.2 on)

end Invocation

namespace HostFunc

/-- The notes of a question: itself, and what it makes the machine invoke. -/
def traceAnswer [Primitives] [Pcg32] [WmCodec] (stack : Nat) (inner : Machine) (t : Tracer)
    (ctx : CallArgs) (q : HostQuestion) (f : Frame) : List Moment :=
  .asked stack ctx q f ::
    match invocationOf ctx q f with
    | none => []
    | some i => i.trace inner t ctx f

end HostFunc

namespace WmLocal

variable [Primitives] [Merkle] [Pcg32] [WmCodec]

/-- The contract ended in an error, or its data was touched and its account is gone. -/
def faulted {α : Type} (args : CallArgs) (f : Frame) (ended : Ended α) : Bool :=
  match ended.result with
  | .error _ => true
  | .ok _ => (updateDataHash f args.owner).isNone

section Entries

variable (stack : Nat) (inner : Machine) (t : Tracer)

/-- The notes of a contract in the context of a call. -/
def traceExecute {α : Type} (args : CallArgs) (contract : Contract α) (w : World WmLocal) :
    List Moment :=
  contract.trace (HostFunc.answer inner args) (HostFunc.traceAnswer stack inner t args)
      ⟨w, [], false, false⟩ ++
    match execute inner args contract w with
    | .ok (f, ended) => [.left args f ended.fuel (faulted args f ended)]
    | .error _ => []

def traceEnter {α : Type} (args : CallArgs) (contract : WasmEngine.Module → Contract α)
    (w : World WmLocal) : List Moment :=
  .looked w.accounts args.contract ::
    match moduleOf w args.contract with
    | (w, .ok module) => traceExecute stack inner t args (contract module) w
    | (_, .error _) => []

def traceContractUpdatable (account : String) (currentHash newHash : Option Hash)
    (ctxArgs : CtxArgs) (blockTimestamp : UInt64) (w : World WmLocal) : List Moment :=
  match (w.accounts.loadAccount serviceAccountId).bind fun account => account.contract with
  | none => []
  | some contract =>
    t.call (contractUpdatableCall account currentHash newHash ctxArgs contract blockTimestamp) w

/-- The notes of a check that may ask the service contract for its agreement. -/
def traceAppHashCheck (appHash : Option Hash) (ctxArgs : CtxArgs) (blockTimestamp : UInt64)
    (w : World WmLocal) : List Moment :=
  let account := (w.accounts.loadAccount ctxArgs.owner).getD (Account.new ctxArgs.owner none)
  if account.contract ≠ appHash then
    let appHash := if account.contract.isSome && appHash.isNone then account.contract else appHash
    if account.contract = appHash then [.bound ctxArgs.owner appHash w.accounts w.accounts]
    else
      traceContractUpdatable t ctxArgs.owner account.contract appHash ctxArgs blockTimestamp w ++
        match contractUpdatable inner ctxArgs.owner account.contract appHash ctxArgs
          blockTimestamp w with
        | .ok (left, true) => [.bound ctxArgs.owner appHash w.accounts left.accounts]
        | _ => []
  else []

end Entries

/-- The tracer of the machine with this much stack. -/
def tracer : (stack : Nat) → Tracer
  | 0 =>
    { call := fun _ _ => []
      callableCall := fun _ _ => []
      appHashCheck := fun _ _ _ _ => [] }
  | stack + 1 =>
    { call := fun args => traceEnter stack (machine stack) (tracer stack) args fun module =>
        WasmEngine.run module (inputOf args args.method) args.args args.initialFuel
      callableCall := fun args => traceEnter stack (machine stack) (tracer stack) args fun module =>
        WasmEngine.isCallable module (inputOf args "is_callable") args.args args.initialFuel
      appHashCheck := traceAppHashCheck (machine stack) (tracer stack) }

end WmLocal

/-! ## What one host function does -/

namespace HostRequest

/-- The requests that by themselves write accounts or emit events. -/
def leavesTrace : HostRequest → Bool
  | .emit _ _ | .storeData _ _ | .removeData _ | .storeAsset _ _ | .removeAsset _ => true
  | _ => false

end HostRequest

/-- What host functions do to a frame by themselves: nothing to accounts, or data of the
owner stored or removed, or the assets of an account changed. -/
inductive Effect (ctx : CallArgs) (request : HostRequest) (f f' : Frame) : Prop
  | quiet (accounts : f'.accounts = f.accounts) (wm : f'.world.wm = f.world.wm)
      (dataUpdated : f'.dataUpdated = f.dataUpdated) (events : f'.events = f.events)
      (drand : f'.world.drand = f.world.drand ∨ ∃ max, request = .drand max)
  | emitted (leaves : request.leavesTrace = true) (emitted : List SmartContractEvent)
      (accounts : f'.accounts = f.accounts) (wm : f'.world.wm = f.world.wm)
      (dataUpdated : f'.dataUpdated = f.dataUpdated) (events : f'.events = f.events ++ emitted)
      (drand : f'.world.drand = f.world.drand)
  | stored (leaves : request.leavesTrace = true) (key : String) (data : Bytes)
      (accounts : f'.accounts = f.accounts.storeAccountData ctx.owner key data)
      (wm : f'.world.wm = f.world.wm) (dataUpdated : f'.dataUpdated = true)
      (events : f'.events = f.events) (drand : f'.world.drand = f.world.drand)
  | removed (leaves : request.leavesTrace = true) (key : String)
      (accounts : f'.accounts = f.accounts.removeAccountData ctx.owner key)
      (wm : f'.world.wm = f.world.wm) (dataUpdated : f'.dataUpdated = true)
      (events : f'.events = f.events) (drand : f'.world.drand = f.world.drand)
  | assets (leaves : request.leavesTrace = true) (id : String)
      (assets : AList fun _ : String => Bytes) (emitted : List SmartContractEvent)
      (accounts : f'.accounts = f.accounts.storeAccount
        { (f.accounts.loadAccount id).getD (Account.new id none) with assets := assets })
      (wm : f'.world.wm = f.world.wm) (dataUpdated : f'.dataUpdated = f.dataUpdated)
      (events : f'.events = f.events ++ emitted) (drand : f'.world.drand = f.world.drand)

/-- No host function by itself touches the machine. -/
theorem Effect.wm_eq {ctx : CallArgs} {request : HostRequest} {f f' : Frame}
    (h : Effect ctx request f f') : f'.world.wm = f.world.wm := by
  cases h with
  | quiet _ wm => exact wm
  | emitted _ _ _ wm => exact wm
  | stored _ _ _ _ wm => exact wm
  | removed _ _ _ wm => exact wm
  | assets _ _ _ _ _ wm => exact wm

/-- Only drawing a number touches the seed source. -/
theorem Effect.drand_eq {ctx : CallArgs} {request : HostRequest} {f f' : Frame}
    (h : Effect ctx request f f') (undrawn : ¬ ∃ max, request = .drand max) :
    f'.world.drand = f.world.drand := by
  cases h with
  | quiet _ _ _ _ drand =>
    obtain same | drawn := drand
    · exact same
    · exact absurd drawn undrawn
  | emitted _ _ _ _ _ _ drand => exact drand
  | stored _ _ _ _ _ _ _ drand => exact drand
  | removed _ _ _ _ _ _ drand => exact drand
  | assets _ _ _ _ _ _ _ _ drand => exact drand

namespace HostFunc

variable [Primitives] [Pcg32] [WmCodec] {inner : Machine} {ctx : CallArgs} {f f' : Frame}

omit [Primitives] [Pcg32] [WmCodec] in
/-- The nested call of a contract is the invocation of it. -/
theorem run_eq_call (account : String) (contract : Option Hash) (method : String) (args : Bytes)
    (fuel : UInt64) :
    (Invocation.mk account contract false
      fun appHash => nestedArgs ctx account appHash method args fuel).run inner ctx f =
      (call inner ctx f account contract method args fuel).map fun out => (out.1, out.2.1) := by
  rw [Invocation.run, call, Invocation.check]
  split
  · cases inner.appHashCheck contract ⟨ctx.origin, account, ctx.owner⟩ ctx.blockTimestamp
      f.world with
    | error p => rfl
    | ok checked =>
      obtain ⟨world, appHash⟩ := checked
      cases appHash with
      | error e => rfl
      | ok appHash =>
        dsimp only [bind, Except.bind, Invocation.callee]
        cases inner.call (nestedArgs ctx account appHash method args fuel) world <;> rfl
  · rfl

omit [Primitives] [Pcg32] [WmCodec] in
/-- Asking an account that has a contract is the invocation of that contract. -/
theorem run_eq_isCallable {account : String} (method : String) {hash : Hash} (fuel : UInt64)
    (bound : getAccountContract f account = some hash) :
    (Invocation.mk account (some hash) true fun appHash =>
      nestedArgs ctx account appHash method (bytesOf method) fuel).run inner ctx f =
      (isCallable inner ctx f account method fuel).map fun out => (out.1, out.2.1) := by
  rw [Invocation.run, isCallable, bound, Invocation.check]
  dsimp only
  split
  · cases inner.appHashCheck (some hash) ⟨ctx.origin, account, ctx.owner⟩ ctx.blockTimestamp
      f.world with
    | error p => rfl
    | ok checked =>
      obtain ⟨world, appHash⟩ := checked
      cases appHash with
      | error e => rfl
      | ok appHash =>
        dsimp only [bind, Except.bind, Invocation.callee]
        cases inner.callableCall (nestedArgs ctx account appHash method (bytesOf method) fuel)
          world <;> rfl
  · rfl

omit [Primitives] [Pcg32] in
/-- A nested call answers with the output of its result, and takes its charge. -/
theorem answer_call {account : String} {contract : Option Hash} {method : String} {args : Bytes}
    {fuel : UInt64} {a : HostAnswer}
    (h : (do
      let (f, consumed, result) ← call inner ctx f account contract method args fuel
      let output ← appOutputOf result
      return (f, HostAnswer.mk (.bytes output) (fuel - consumed))) = .ok (f', a)) :
    ∃ consumed result output, call inner ctx f account contract method args fuel =
        .ok (f', consumed, result) ∧ appOutputOf result = .ok output ∧
      a = ⟨.bytes output, fuel - consumed⟩ := by
  cases hcall : call inner ctx f account contract method args fuel with
  | error p =>
    simp only [hcall, bind, Except.bind] at h
    cases h
  | ok out =>
    obtain ⟨g, consumed, result⟩ := out
    cases houtput : appOutputOf result with
    | error p =>
      simp only [hcall, houtput, bind, Except.bind] at h
      cases h
    | ok output =>
      simp only [hcall, houtput, bind, Except.bind, pure, Except.pure] at h
      cases h
      exact ⟨consumed, result, output, rfl, houtput, rfl⟩

/-- What an answer does: a host function by itself leaves the fuel, and a nested
invocation takes its charge from it. -/
theorem answer_cases {q : HostQuestion} {a : HostAnswer}
    (h : answer inner ctx q f = .ok (f', a)) :
    invocationOf ctx q f = none ∧ Effect ctx q.request f f' ∧ a.fuel = q.fuel ∨
      ∃ i consumed, invocationOf ctx q f = some i ∧ i.run inner ctx f = .ok (f', consumed) ∧
        a.fuel = q.fuel - consumed := by
  obtain ⟨request, fuel⟩ := q
  cases request with
  | instantiated | log | loadData | loadAsset | getAccountContract | verify | sha256 |
      getBlockTime =>
    cases h
    exact .inl ⟨rfl, .quiet rfl rfl rfl rfl (.inl rfl), rfl⟩
  | emit eventName eventData =>
    cases h
    exact .inl ⟨rfl, .emitted rfl _ rfl rfl rfl rfl rfl, rfl⟩
  | storeData key data =>
    cases h
    exact .inl ⟨rfl, .stored rfl key data rfl rfl rfl rfl rfl, rfl⟩
  | removeData key =>
    cases h
    exact .inl ⟨rfl, .removed rfl key rfl rfl rfl rfl rfl, rfl⟩
  | isCallable account method =>
    cases hbound : getAccountContract f account with
    | none =>
      simp only [answer, isCallable, hbound, bind, Except.bind, pure, Except.pure] at h
      cases h
      refine .inl ⟨?_, .quiet rfl rfl rfl rfl (.inl rfl), ?_⟩
      · simp only [invocationOf, hbound, Option.map_none]
      · exact UInt64.sub_zero fuel
    | some hash =>
      cases hrun : isCallable inner ctx f account method fuel with
      | error p =>
        simp only [answer, hrun, bind, Except.bind] at h
        cases h
      | ok out =>
        obtain ⟨g, consumed, result⟩ := out
        simp only [answer, hrun, bind, Except.bind, pure, Except.pure] at h
        cases h
        refine .inr ⟨_, consumed, ?_, (run_eq_isCallable method fuel hbound).trans ?_, rfl⟩
        · simp only [invocationOf, hbound, Option.map_some]
        · rw [hrun]
          rfl
  | storeAsset accountId value =>
    cases h
    refine .inl ⟨rfl, ?_, rfl⟩
    rw [storeAsset]
    split
    · exact .quiet rfl rfl rfl rfl (.inl rfl)
    · exact .assets rfl accountId _ _ rfl rfl rfl rfl rfl
  | removeAsset accountId =>
    cases h
    exact .inl ⟨rfl, .assets rfl accountId _ [] rfl rfl rfl (List.append_nil _).symm rfl, rfl⟩
  | getKeys pattern =>
    cases houtput : keysOutput ctx f pattern with
    | error p =>
      simp only [answer, houtput, bind, Except.bind] at h
      cases h
    | ok output =>
      simp only [answer, houtput, bind, Except.bind, pure, Except.pure] at h
      cases h
      exact .inl ⟨rfl, .quiet rfl rfl rfl rfl (.inl rfl), rfl⟩
  | call account method args =>
    obtain ⟨consumed, result, output, hcall, -, rfl⟩ := answer_call h
    refine .inr ⟨_, consumed, rfl, (run_eq_call account none method args fuel).trans ?_, rfl⟩
    rw [hcall]
    rfl
  | sCall account contract method args =>
    obtain ⟨consumed, result, output, hcall, -, rfl⟩ := answer_call h
    refine .inr ⟨_, consumed, rfl,
      (run_eq_call account (some contract) method args fuel).trans ?_, rfl⟩
    rw [hcall]
    rfl
  | drand max =>
    cases h
    exact .inl ⟨rfl, .quiet rfl rfl rfl rfl (.inr ⟨max, rfl⟩), rfl⟩

end HostFunc

/-! ## Rules for trees -/

/-- What each moment of a tree adds: `R` relates the worlds around a call, with the
events it emits and its moments, and `F` what a call started from with the frame it has
come to and its moments so far. -/
structure TraceRule [Primitives] [Merkle] [Pcg32] [WmCodec]
    (R : World WmLocal → World WmLocal → List SmartContractEvent → List Moment → Prop)
    (F : CallArgs → World WmLocal → Frame → List Moment → Prop) : Prop where
  refl : ∀ w, R w w [] []
  trans : ∀ {u v w xs ys ms ns}, R u v xs ms → R v w ys ns → R u w (xs ++ ys) (ms ++ ns)
  /-- The events of the contract that says whether a contract is updatable are dropped. -/
  hushed : ∀ {u v xs ms}, R u v xs ms → R u v [] ms
  looked : ∀ w target, R w (WmLocal.moduleOf w target).1 [] [.looked w.accounts target]
  start : ∀ args w, F args w ⟨w, [], false, false⟩ []
  /-- A host function by itself. -/
  answered : ∀ {inner ctx w q f f' a ms} (stack : Nat), F ctx w f ms →
    HostFunc.invocationOf ctx q f = none → HostFunc.answer inner ctx q f = .ok (f', a) →
    F ctx w f' (ms ++ [.asked stack ctx q f])
  nested : ∀ {ctx w q i f f' xs ms ns} (stack : Nat), F ctx w f ms →
    HostFunc.invocationOf ctx q f = some i → R f.world f'.world xs ns →
    f'.events = f.events ++ xs → f'.dataUpdated = f.dataUpdated →
    F ctx w f' (ms ++ .asked stack ctx q f :: ns)
  faulted : ∀ {args w f ms} (fuel : UInt64), F args w f ms →
    R w f.world f.events (ms ++ [.left args f fuel true])
  finished : ∀ {args w f w' ms} (fuel : UInt64), F args w f ms →
    WmLocal.updateDataHash f args.owner = some w' →
    R w w' f.events (ms ++ [.left args f fuel false])
  bound : ∀ {owner w w' ms} (appHash : Option Hash), R w w' [] ms →
    R w (WmLocal.bind ((w.accounts.loadAccount owner).getD (Account.new owner none)) appHash w').1
      [] (ms ++ [.bound owner appHash w.accounts w'.accounts])

/-- A machine whose trees, with their moments, relate the worlds around them. -/
structure Traced
    (R : World WmLocal → World WmLocal → List SmartContractEvent → List Moment → Prop)
    (m : Machine) (t : Tracer) : Prop where
  call : ∀ {args w left}, m.call args w = .ok left → R w left.1 left.2.1 (t.call args w)
  callableCall : ∀ {args w left}, m.callableCall args w = .ok left →
    R w left.1 left.2.1 (t.callableCall args w)
  appHashCheck : ∀ {appHash ctxArgs blockTimestamp w left},
    m.appHashCheck appHash ctxArgs blockTimestamp w = .ok left →
    R w left.1 [] (t.appHashCheck appHash ctxArgs blockTimestamp w)

section Traces

variable [Primitives] [Merkle] [Pcg32] [WmCodec]
  {R : World WmLocal → World WmLocal → List SmartContractEvent → List Moment → Prop}
  {F : CallArgs → World WmLocal → Frame → List Moment → Prop} {inner : Machine} {t : Tracer}
  {stack : Nat}

omit [Primitives] [Merkle] [Pcg32] [WmCodec] in
/-- An invocation relates the worlds around it and leaves the frame's own data alone. -/
theorem Invocation.run_traced (refl : ∀ w, R w w [] [])
    (trans : ∀ {u v w xs ys ms ns}, R u v xs ms → R v w ys ns → R u w (xs ++ ys) (ms ++ ns))
    (hinner : Traced R inner t) {i : Invocation} {ctx : CallArgs} {f f' : Frame}
    {consumed : UInt64} (h : i.run inner ctx f = .ok (f', consumed)) :
    ∃ events, R f.world f'.world events (i.trace inner t ctx f) ∧
      f'.events = f.events ++ events ∧ f'.dataUpdated = f.dataUpdated := by
  rw [Invocation.trace]
  cases Invocation.run_runs h with
  | absent off =>
    rw [if_neg (Bool.eq_false_iff.1 off)]
    exact ⟨[], refl _, (List.append_nil _).symm, rfl⟩
  | refused on hcheck =>
    rw [if_pos on, hcheck, List.append_nil]
    exact ⟨[], hinner.appHashCheck hcheck, (List.append_nil _).symm, rfl⟩
  | @called on world left appHash events _ hcheck hcallee =>
    rw [if_pos on, hcheck]
    have checked := hinner.appHashCheck hcheck
    have entered : R world left events (i.traceCallee t appHash world) := by
      rw [Invocation.callee] at hcallee
      rw [Invocation.traceCallee]
      split at hcallee
      next callable =>
        rw [if_pos callable]
        obtain ⟨out, hcall, hout⟩ := of_map_ok hcallee
        cases hout
        exact hinner.callableCall hcall
      next run =>
        rw [if_neg run]
        obtain ⟨out, hcall, hout⟩ := of_map_ok hcallee
        cases hout
        exact hinner.call hcall
    exact ⟨events, trans checked entered, rfl, rfl⟩

theorem answer_traced (rule : TraceRule R F) (hinner : Traced R inner t) {ctx : CallArgs}
    {w : World WmLocal} {q : HostQuestion} {f f' : Frame} {a : HostAnswer} {ms : List Moment}
    (hf : F ctx w f ms) (h : HostFunc.answer inner ctx q f = .ok (f', a)) :
    F ctx w f' (ms ++ HostFunc.traceAnswer stack inner t ctx q f) := by
  rw [HostFunc.traceAnswer]
  obtain ⟨hnone, -, -⟩ | ⟨i, consumed, hi, hrun, -⟩ := HostFunc.answer_cases h
  · rw [hnone]
    exact rule.answered stack hf hnone h
  · rw [hi]
    obtain ⟨events, hworld, hevents, hdata⟩ :=
      Invocation.run_traced rule.refl rule.trans hinner hrun
    exact rule.nested stack hf hi hworld hevents hdata

/-- What a contract leaves behind. -/
theorem execute_traced (rule : TraceRule R F) (hinner : Traced R inner t) {α β : Type}
    {args : CallArgs} {contract : Contract α} {w : World WmLocal} {f : Frame} {ended : Ended α}
    (h : WmLocal.execute inner args contract w = .ok (f, ended))
    (errorOf : EngineError → WasmError) (faultFuel : UInt64 → UInt64)
    (resultOf : α → Except WasmError β) :
    R w (WmLocal.leave args errorOf faultFuel resultOf f ended).1
      (WmLocal.leave args errorOf faultFuel resultOf f ended).2.1
      (WmLocal.traceExecute stack inner t args contract w) := by
  -- the frame keeps its relation to the start of the call through every answer
  have hf : F args w f ([] ++ contract.trace (HostFunc.answer inner args)
      (HostFunc.traceAnswer stack inner t args) ⟨w, [], false, false⟩) :=
    Program.run_noted
      (fun q f earlier f' a hf hanswer => answer_traced rule hinner hf hanswer)
      (rule.start args w) h
  rw [List.nil_append] at hf
  rw [WmLocal.traceExecute, h, WmLocal.leave]
  dsimp only
  rw [WmLocal.faulted]
  cases hended : ended.result with
  | error e => exact rule.faulted ended.fuel hf
  | ok value =>
    cases hupdate : WmLocal.updateDataHash f args.owner with
    | none => exact rule.faulted ended.fuel hf
    | some w' => exact rule.finished ended.fuel hf hupdate

theorem enter_traced (rule : TraceRule R F) (hinner : Traced R inner t) {α β : Type}
    {args : CallArgs} {contract : WasmEngine.Module → Contract α} {w : World WmLocal}
    {left : Called WmLocal β} {errorOf : EngineError → WasmError} {faultFuel : UInt64 → UInt64}
    {resultOf : α → Except WasmError β}
    (h : WmLocal.enter inner args contract errorOf faultFuel resultOf w = .ok left) :
    R w left.1 left.2.1 (WmLocal.traceEnter stack inner t args contract w) := by
  have looked := rule.looked w args.contract
  rw [WmLocal.enter] at h
  rw [WmLocal.traceEnter]
  generalize WmLocal.moduleOf w args.contract = found at h looked ⊢
  obtain ⟨v, module⟩ := found
  cases module with
  | error e =>
    cases h
    exact looked
  | ok module =>
    dsimp only at h ⊢
    cases hrun : WmLocal.execute inner args (contract module) v with
    | error p =>
      simp only [hrun, bind, Except.bind] at h
      cases h
    | ok out =>
      obtain ⟨f, ended⟩ := out
      simp only [hrun, bind, Except.bind, pure, Except.pure] at h
      cases h
      exact rule.trans looked (execute_traced rule hinner hrun errorOf faultFuel resultOf)

theorem contractUpdatable_traced (rule : TraceRule R F) (hinner : Traced R inner t)
    {account : String} {currentHash newHash : Option Hash} {ctxArgs : CtxArgs}
    {blockTimestamp : UInt64} {w : World WmLocal} {left : World WmLocal × Bool}
    (h : WmLocal.contractUpdatable inner account currentHash newHash ctxArgs blockTimestamp w =
      .ok left) :
    R w left.1 [] (WmLocal.traceContractUpdatable t account currentHash newHash ctxArgs
      blockTimestamp w) := by
  rw [WmLocal.traceContractUpdatable]
  rw [WmLocal.contractUpdatable] at h
  cases hcontract :
    (w.accounts.loadAccount serviceAccountId).bind fun account => account.contract with
  | none =>
    rw [hcontract] at h
    cases h
    exact rule.refl w
  | some contract =>
    rw [hcontract] at h
    dsimp only at h ⊢
    cases hcall : inner.call (WmLocal.contractUpdatableCall account currentHash newHash ctxArgs
        contract blockTimestamp) w with
    | error p =>
      simp only [hcall, bind, Except.bind] at h
      cases h
    | ok out =>
      obtain ⟨v, events, consumed, outcome⟩ := out
      have called := rule.hushed (hinner.call hcall)
      simp only [hcall, bind, Except.bind] at h
      cases outcome with
      | error e =>
        cases h
        exact called
      | ok value =>
        cases h
        exact called

theorem appHashCheck_traced (rule : TraceRule R F) (hinner : Traced R inner t)
    {appHash : Option Hash} {ctxArgs : CtxArgs} {blockTimestamp : UInt64} {w : World WmLocal}
    {left : World WmLocal × Except WasmError Hash}
    (h : WmLocal.appHashCheck inner appHash ctxArgs blockTimestamp w = .ok left) :
    R w left.1 [] (WmLocal.traceAppHashCheck inner t appHash ctxArgs blockTimestamp w) := by
  simp only [WmLocal.traceAppHashCheck]
  simp only [WmLocal.appHashCheck] at h
  have bound : ∀ (kept : Option Hash) (v : World WmLocal) (ms : List Moment), R w v [] ms →
      R w (WmLocal.bind ((w.accounts.loadAccount ctxArgs.owner).getD
        (Account.new ctxArgs.owner none)) kept v).1 []
        (ms ++ [.bound ctxArgs.owner kept w.accounts v.accounts]) :=
    fun kept _ _ => rule.bound kept
  generalize (w.accounts.loadAccount ctxArgs.owner).getD (Account.new ctxArgs.owner none) =
    account at h bound ⊢
  by_cases differs : account.contract ≠ appHash
  · rw [if_pos differs] at h ⊢
    generalize (if (account.contract.isSome && appHash.isNone) = true then account.contract
      else appHash) = kept at h ⊢
    by_cases same : account.contract = kept
    · rw [if_pos same] at h ⊢
      cases h
      exact bound kept w [] (rule.refl w)
    · rw [if_neg same] at h ⊢
      cases hupdatable : WmLocal.contractUpdatable inner ctxArgs.owner account.contract kept
          ctxArgs blockTimestamp w with
      | error p =>
        simp only [hupdatable, bind, Except.bind] at h
        cases h
      | ok out =>
        obtain ⟨v, updatable⟩ := out
        have moved := contractUpdatable_traced rule hinner hupdatable
        simp only [hupdatable, bind, Except.bind, pure, Except.pure] at h
        cases updatable with
        | true =>
          cases h
          exact bound kept v _ moved
        | false =>
          cases h
          dsimp only
          rw [List.append_nil]
          exact moved
  · rw [if_neg differs] at h ⊢
    cases appHash with
    | none =>
      cases h
      exact rule.refl w
    | some hash =>
      cases h
      exact rule.refl w

/-- A rule for the moments of trees is one for machines with any stack. -/
theorem TraceRule.machine_traced (rule : TraceRule R F) (stack : Nat) :
    Traced R (WmLocal.machine stack) (WmLocal.tracer stack) := by
  induction stack with
  | zero =>
    constructor
    · rintro args w left ⟨⟩
    · rintro args w left ⟨⟩
    · rintro appHash ctxArgs blockTimestamp w left ⟨⟩
  | succ stack ih =>
    constructor
    · intro args w left h
      exact enter_traced rule ih h
    · intro args w left h
      exact enter_traced rule ih h
    · intro appHash ctxArgs blockTimestamp w left h
      exact appHashCheck_traced rule ih h

end Traces

/-! ## Rules for good trees -/

/-- What the moments of a tree do: `R` relates the worlds around a call, with the events
it emits, and `F` what a call started from with the frame it has come to. -/
structure TreeRule [Merkle] (R : World WmLocal → World WmLocal → List SmartContractEvent → Prop)
    (F : CallArgs → World WmLocal → Frame → Prop) (good : Moment → Prop) : Prop where
  refl : ∀ w, R w w []
  trans : ∀ {u v w xs ys}, R u v xs → R v w ys → R u w (xs ++ ys)
  /-- The events of the contract that says whether a contract is updatable are dropped. -/
  hushed : ∀ {u v xs}, R u v xs → R u v []
  looked : ∀ w target, good (.looked w.accounts target) → R w (WmLocal.moduleOf w target).1 []
  start : ∀ args w, F args w ⟨w, [], false, false⟩
  effect : ∀ {stack ctx w q f f'}, F ctx w f → good (.asked stack ctx q f) →
    Effect ctx q.request f f' → F ctx w f'
  nested : ∀ {ctx w f f' xs}, F ctx w f → R f.world f'.world xs → f'.events = f.events ++ xs →
    f'.dataUpdated = f.dataUpdated → F ctx w f'
  faulted : ∀ {args w f fuel}, F args w f → good (.left args f fuel true) → R w f.world f.events
  finished : ∀ {args w f fuel w'}, F args w f → good (.left args f fuel false) →
    WmLocal.updateDataHash f args.owner = some w' → R w w' f.events
  bound : ∀ {owner w w'} (appHash : Option Hash), R w w' [] →
    good (.bound owner appHash w.accounts w'.accounts) →
    R w (WmLocal.bind ((w.accounts.loadAccount owner).getD (Account.new owner none)) appHash w').1
      []

/-- A machine whose good trees relate the worlds around them. -/
structure Relates (R : World WmLocal → World WmLocal → List SmartContractEvent → Prop)
    (good : Moment → Prop) (m : Machine) (t : Tracer) : Prop where
  call : ∀ {args w left}, (∀ x ∈ t.call args w, good x) → m.call args w = .ok left →
    R w left.1 left.2.1
  callableCall : ∀ {args w left}, (∀ x ∈ t.callableCall args w, good x) →
    m.callableCall args w = .ok left → R w left.1 left.2.1
  appHashCheck : ∀ {appHash ctxArgs blockTimestamp w left},
    (∀ x ∈ t.appHashCheck appHash ctxArgs blockTimestamp w, good x) →
    m.appHashCheck appHash ctxArgs blockTimestamp w = .ok left → R w left.1 []

section Rules

variable [Primitives] [Merkle] [Pcg32] [WmCodec]
  {R : World WmLocal → World WmLocal → List SmartContractEvent → Prop}
  {F : CallArgs → World WmLocal → Frame → Prop} {good : Moment → Prop} {inner : Machine}
  {t : Tracer} {stack : Nat}

omit [Primitives] [Merkle] [Pcg32] [WmCodec] in
/-- An invocation relates the worlds around it and leaves the frame's own data alone. -/
theorem Invocation.run_relates (refl : ∀ w, R w w [])
    (trans : ∀ {u v w xs ys}, R u v xs → R v w ys → R u w (xs ++ ys))
    (hinner : Relates R good inner t) {i : Invocation} {ctx : CallArgs} {f f' : Frame}
    {consumed : UInt64} (hgood : ∀ x ∈ i.trace inner t ctx f, good x)
    (h : i.run inner ctx f = .ok (f', consumed)) :
    ∃ events, R f.world f'.world events ∧ f'.events = f.events ++ events ∧
      f'.dataUpdated = f.dataUpdated := by
  have traced : Traced (fun w w' events moments => (∀ m ∈ moments, good m) → R w w' events)
      inner t := by
    constructor
    · exact fun h hgood => hinner.call hgood h
    · exact fun h hgood => hinner.callableCall hgood h
    · exact fun h hgood => hinner.appHashCheck hgood h
  obtain ⟨events, related, hevents, hdata⟩ := Invocation.run_traced (fun w _ => refl w)
    (fun first second all => trans (first fun m hm => all m (List.mem_append_left _ hm))
      (second fun m hm => all m (List.mem_append_right _ hm))) traced h
  exact ⟨events, related hgood, hevents, hdata⟩

/-- Where all moments are good the rule holds of them. -/
theorem TreeRule.traceRule (rule : TreeRule R F good) :
    TraceRule (fun w w' events moments => (∀ m ∈ moments, good m) → R w w' events)
      fun args w f moments => (∀ m ∈ moments, good m) → F args w f where
  refl w _ := rule.refl w
  trans first second hgood := rule.trans (first fun m hm => hgood m (List.mem_append_left _ hm))
    (second fun m hm => hgood m (List.mem_append_right _ hm))
  hushed related hgood := rule.hushed (related hgood)
  looked w target hgood := rule.looked w target (hgood _ (List.mem_singleton_self _))
  start args w _ := rule.start args w
  answered := by
    intro inner ctx w q f f' a ms stack hf hnone h hgood
    obtain ⟨-, effect, -⟩ | ⟨i, consumed, hi, -, -⟩ := HostFunc.answer_cases h
    · have asked : good (.asked stack ctx q f) :=
        hgood _ (List.mem_append_right _ (List.mem_singleton_self _))
      exact rule.effect (hf fun m hm => hgood m (List.mem_append_left _ hm)) asked effect
    · rw [hnone] at hi
      cases hi
  nested := by
    intro ctx w q i f f' xs ms ns stack hf _ related hevents hdata hgood
    have noted : ∀ m ∈ ns, good m :=
      fun m hm => hgood m (List.mem_append_right _ (List.mem_cons_of_mem _ hm))
    exact rule.nested (hf fun m hm => hgood m (List.mem_append_left _ hm)) (related noted)
      hevents hdata
  faulted _ hf hgood := rule.faulted (hf fun m hm => hgood m (List.mem_append_left _ hm))
    (hgood _ (List.mem_append_right _ (List.mem_singleton_self _)))
  finished _ hf hupdate hgood := rule.finished
    (hf fun m hm => hgood m (List.mem_append_left _ hm))
    (hgood _ (List.mem_append_right _ (List.mem_singleton_self _))) hupdate
  bound appHash related hgood := rule.bound appHash
    (related fun m hm => hgood m (List.mem_append_left _ hm))
    (hgood _ (List.mem_append_right _ (List.mem_singleton_self _)))

/-- A rule for the good moments of trees is one for machines with any stack. -/
theorem TreeRule.machine_relates (rule : TreeRule R F good) (stack : Nat) :
    Relates R good (WmLocal.machine stack) (WmLocal.tracer stack) := by
  have traced := rule.traceRule.machine_traced stack
  exact ⟨fun hgood h => traced.call h hgood, fun hgood h => traced.callableCall h hgood,
    fun hgood h => traced.appHashCheck h hgood⟩

end Rules

end Trees

/-! ## Scripted contracts -/

namespace Sample

/-- A contract that makes its requests in order, whatever the answers: first those of
its start section, and the others when the instance exists. -/
structure Script where
  start : List HostRequest
  body : List HostRequest
  outcome : Except EngineError Bytes

/-- Every request costs ten units of fuel. -/
def asking {α : Type} (outcome : Except EngineError α) :
    List HostRequest → (fuel : UInt64) → Contract α
  | [], fuel => .done ⟨fuel, outcome⟩
  | request :: requests, fuel =>
    .ask ⟨request, fuel - min 10 fuel⟩ fun answer => asking outcome requests answer.fuel

def Script.contract {α : Type} (script : Script) (value : Bytes → α) (fuel : UInt64) :
    Contract α :=
  asking (script.outcome.map value) (script.start ++ .instantiated :: script.body) fuel

/-- An engine that compiles code to scripts. -/
abbrev scripted (compile : Bytes → Except String Script) : WasmEngine where
  Module := Script
  new := compile
  run script _ _ fuel := script.contract some fuel
  isCallable script _ _ fuel := script.contract (fun _ => 1) fuel

/-- Outputs are the data after a byte that tells success. -/
scoped instance wmCodec : WmCodec where
  appOutput output := output.success.toUInt8 :: output.data
  appOutput? bytes := .ok ⟨bytes.head? == some 1, bytes.tail⟩
  keys keys := keys.flatMap bytesOf
  storeAssetData entry := bytesOf entry.1 ++ entry.2
  contractUpdatableArgs args := bytesOf args.account ++ args.currentContract ++ args.newContract
  bool? bytes := some (bytes == [1])
  fromUtf8Lossy _ := "fault"

/-- The hash of the sample contract with this number. -/
def contractHash (n : UInt8) : Hash := Hash.primary [n]

/-- The accounts of the contracts with these numbers, and their codes. -/
def deployed (contracts : List (String × UInt8)) : Accounts where
  accounts := contracts.foldl (fun accounts entry =>
    accounts.insert entry.1 (Account.new entry.1 (some (contractHash entry.2)))) ∅
  data := contracts.foldl (fun data entry =>
    data.insert (serviceAccountId, codeKey (contractHash entry.2)) [entry.2]) ∅

/-- A call of the contract with this number on an account. -/
def callOf (owner : String) (n : UInt8) (fuel : UInt64) : CallArgs :=
  ⟨0, "net", "alice", owner, "alice", contractHash n, "run", [], fuel, 0⟩

/-- A machine with an empty cache. -/
def freshWm [WasmEngine] (stack : Nat) : WmLocal where
  cache := ∅
  cacheMax := 10
  clock := fun _ => 0
  reads := 0
  walk := fun _ entries => entries
  walk_perm := fun _ entries => List.Perm.refl entries
  stack := stack

def worldOf [WasmEngine] (stack : Nat) (accounts : Accounts) : World WmLocal :=
  ⟨freshWm stack, SeedSource.new [] [] Hash.default Hash.default Hash.default, accounts⟩

end Sample

end Trinci
