import Trinci.CachedModules
import Trinci.CallTrees

/-!
# The machine on two nodes

Two nodes with one database may differ in what their machines keep, which is the cache
of compiled modules and the clock, and in the number that was drawn last. None of this
is felt in a call whose moments are repeatable: each look-up finds the module that a
node may have cached for the contract by then, and numbers are drawn from equal seed
sources only. Then the call does the same on both nodes.
-/

namespace Trinci

open HostPrograms

section Machine

variable [WasmEngine]

/-! ## Repeatable moments -/

/-- What is left of the past of two nodes: the modules that one of them may have cached,
and whether their seed sources are equal. -/
structure Past where
  cached : Hash → WasmEngine.Module → Prop
  seeded : Prop

namespace Moment

/-- If the contract is looked up, this is the module of its code. -/
def Finds (target : Hash) (module : WasmEngine.Module) : Moment → Prop
  | .looked accounts hash => hash = target → compiled accounts.codeOf target = .ok module
  | _ => True

/-- The contract is looked up, and this is the module of its code. -/
def Compiles (target : Hash) (module : WasmEngine.Module) : Moment → Prop
  | .looked accounts hash => hash = target ∧ compiled accounts.codeOf target = .ok module
  | _ => False

/-- A number is drawn. -/
def Draws : Moment → Prop
  | .asked _ _ q _ => ∃ max, q.request = .drand max
  | _ => False

end Moment

/-- The modules that may be cached after these moments. -/
def Past.Known (past : Past) (earlier : List Moment) (target : Hash)
    (module : WasmEngine.Module) : Prop :=
  past.cached target module ∨ ∃ m ∈ earlier, m.Compiles target module

theorem Past.Known.append {past : Past} {earlier : List Moment} {target : Hash}
    {module : WasmEngine.Module} (h : past.Known earlier target module) (xs : List Moment) :
    past.Known (earlier ++ xs) target module := by
  obtain cached | ⟨m, hm, compiles⟩ := h
  · exact .inl cached
  · exact .inr ⟨m, List.mem_append_left _ hm, compiles⟩

/-- Every look-up finds the module that was cached before or compiled earlier, and
numbers are drawn from equal seed sources only. -/
structure Repeatable (past : Past) (moments : List Moment) : Prop where
  cached : ∀ m ∈ moments, ∀ target module, past.cached target module → m.Finds target module
  compiled : moments.Pairwise fun m m' =>
    ∀ target module, m.Compiles target module → m'.Finds target module
  drawn : ∀ m ∈ moments, m.Draws → past.seeded

namespace Repeatable

variable {past : Past}

theorem left {xs ys : List Moment} (h : Repeatable past (xs ++ ys)) : Repeatable past xs := by
  constructor
  · exact fun m hm => h.cached m (List.mem_append_left _ hm)
  · exact (List.pairwise_append.1 h.compiled).1
  · exact fun m hm => h.drawn m (List.mem_append_left _ hm)

theorem finds {earlier later : List Moment} {m : Moment}
    (h : Repeatable past (earlier ++ m :: later)) {target : Hash} {module : WasmEngine.Module}
    (known : past.Known earlier target module) : m.Finds target module := by
  have here : m ∈ m :: later := List.mem_cons_self ..
  obtain cached | ⟨m', hm', compiles⟩ := known
  · exact h.cached m (List.mem_append_right _ here) target module cached
  · exact (List.pairwise_append.1 h.compiled).2.2 m' hm' m here target module compiles

end Repeatable

/-! ## Worlds in step -/

/-- Two worlds in which repeatable moments are the same, after some of them. -/
structure Agree (past : Past) (earlier : List Moment) (w w' : World WmLocal) : Prop where
  accounts : w.accounts = w'.accounts
  stack : w.wm.stack = w'.wm.stack
  cached : w.wm.Holds (past.Known earlier)
  cached' : w'.wm.Holds (past.Known earlier)
  drand : past.seeded → w.drand = w'.drand

variable {past : Past} {earlier : List Moment}

namespace Agree

variable {w w' : World WmLocal}

theorem append (h : Agree past earlier w w') (xs : List Moment) :
    Agree past (earlier ++ xs) w w' where
  accounts := h.accounts
  stack := h.stack
  cached := h.cached.imp fun _ _ known => known.append xs
  cached' := h.cached'.imp fun _ _ known => known.append xs
  drand := h.drand

/-- Both change their accounts in the same way. -/
theorem mapAccounts (h : Agree past earlier w w') (f : Accounts → Accounts) :
    Agree past earlier { w with accounts := f w.accounts }
      { w' with accounts := f w'.accounts } :=
  ⟨congrArg f h.accounts, h.stack, h.cached, h.cached', h.drand⟩

/-- Both draw the same number. -/
theorem draw [Pcg32] (h : Agree past earlier w w') (seeded : past.seeded) (max : UInt64) :
    (w.drand.getDRandNum max).2 = (w'.drand.getDRandNum max).2 ∧
      Agree past earlier { w with drand := (w.drand.getDRandNum max).1 }
        { w' with drand := (w'.drand.getDRandNum max).1 } := by
  rw [← h.drand seeded]
  exact ⟨rfl, h.accounts, h.stack, h.cached, h.cached', fun _ => rfl⟩

end Agree

/-- The same result, and worlds in step. -/
def Alike {β : Type} (past : Past) (earlier : List Moment) (x y : World WmLocal × β) : Prop :=
  x.2 = y.2 ∧ Agree past earlier x.1 y.1

/-- A machine whose repeatable trees keep worlds in step. -/
structure KeepsStep (past : Past) (m : Machine) (t : Tracer) : Prop where
  call : ∀ {earlier args w w'}, Agree past earlier w w' →
    Repeatable past (earlier ++ t.call args w) →
    Outcomes (Alike past (earlier ++ t.call args w)) (m.call args w) (m.call args w')
  callableCall : ∀ {earlier args w w'}, Agree past earlier w w' →
    Repeatable past (earlier ++ t.callableCall args w) →
    Outcomes (Alike past (earlier ++ t.callableCall args w)) (m.callableCall args w)
      (m.callableCall args w')
  appHashCheck : ∀ {earlier appHash ctxArgs blockTimestamp w w'}, Agree past earlier w w' →
    Repeatable past (earlier ++ t.appHashCheck appHash ctxArgs blockTimestamp w) →
    Outcomes (Alike past (earlier ++ t.appHashCheck appHash ctxArgs blockTimestamp w))
      (m.appHashCheck appHash ctxArgs blockTimestamp w)
      (m.appHashCheck appHash ctxArgs blockTimestamp w')

/-- Frames in step. -/
structure FramesAgree (past : Past) (earlier : List Moment) (f f' : Frame) : Prop where
  world : Agree past earlier f.world f'.world
  events : f.events = f'.events
  dataUpdated : f.dataUpdated = f'.dataUpdated
  instantiated : f.instantiated = f'.instantiated

namespace FramesAgree

variable {f f' : Frame}

theorem accounts (h : FramesAgree past earlier f f') : f.accounts = f'.accounts :=
  h.world.accounts

theorem withWorld (h : FramesAgree past earlier f f') {later : List Moment}
    {w w' : World WmLocal} (hw : Agree past later w w') :
    FramesAgree past later { f with world := w } { f' with world := w' } :=
  ⟨hw, h.events, h.dataUpdated, h.instantiated⟩

theorem append (h : FramesAgree past earlier f f') (xs : List Moment) :
    FramesAgree past (earlier ++ xs) f f' :=
  h.withWorld (h.world.append xs)

theorem emit (h : FramesAgree past earlier f f') (ctx : CallArgs) (eventName : String)
    (eventData : Bytes) :
    FramesAgree past earlier (HostFunc.emit ctx f eventName eventData)
      (HostFunc.emit ctx f' eventName eventData) := by
  refine ⟨h.world, ?_, h.dataUpdated, h.instantiated⟩
  simp only [HostFunc.emit, HostFunc.getSmartcontractHash, h.accounts, h.events]

theorem storeData (h : FramesAgree past earlier f f') (ctx : CallArgs) (key : String)
    (data : Bytes) :
    FramesAgree past earlier (HostFunc.storeData ctx f key data)
      (HostFunc.storeData ctx f' key data) :=
  ⟨h.world.mapAccounts (·.storeAccountData ctx.owner key data), h.events, rfl, h.instantiated⟩

theorem removeData (h : FramesAgree past earlier f f') (ctx : CallArgs) (key : String) :
    FramesAgree past earlier (HostFunc.removeData ctx f key)
      (HostFunc.removeData ctx f' key) :=
  ⟨h.world.mapAccounts (·.removeAccountData ctx.owner key), h.events, rfl, h.instantiated⟩

theorem storeAsset [WmCodec] (h : FramesAgree past earlier f f') (ctx : CallArgs)
    (accountId : String) (value : Bytes) :
    FramesAgree past earlier (HostFunc.storeAsset ctx f accountId value)
      (HostFunc.storeAsset ctx f' accountId value) := by
  rw [HostFunc.storeAsset, HostFunc.storeAsset]
  split
  · exact h
  · refine FramesAgree.emit (h.withWorld ?_) ctx _ _
    exact h.world.mapAccounts fun accounts => accounts.storeAccount
      (((accounts.loadAccount accountId).getD (Account.new accountId none)).storeAsset
        ctx.owner value)

theorem removeAsset (h : FramesAgree past earlier f f') (ctx : CallArgs) (accountId : String) :
    FramesAgree past earlier (HostFunc.removeAsset ctx f accountId)
      (HostFunc.removeAsset ctx f' accountId) :=
  h.withWorld (h.world.mapAccounts fun accounts => accounts.storeAccount
    (((accounts.loadAccount accountId).getD (Account.new accountId none)).removeAsset ctx.owner))

end FramesAgree

/-! ## Host functions in step -/

section Hosts

variable {inner : Machine} {t : Tracer} {stack : Nat} {ctx : CallArgs} {f f' : Frame}

/-- The same answer, and frames in step. -/
def Answered {β : Type} (past : Past) (earlier : List Moment) (x y : Frame × β) : Prop :=
  x.2 = y.2 ∧ FramesAgree past earlier x.1 y.1

/-- What a nested invocation leaves, added to the frame that made it. -/
theorem nested_inStep {β : Type} (h : FramesAgree past earlier f f') {later : List Moment}
    {called called' : Except MachinePanic (Called WmLocal β)}
    (hcalled : Outcomes (Alike past later) called called') :
    Outcomes (Answered past later)
      (called >>= fun out => pure
        ({ f with world := out.1, events := f.events ++ out.2.1 }, out.2.2))
      (called' >>= fun out => pure
        ({ f' with world := out.1, events := f'.events ++ out.2.1 }, out.2.2)) := by
  refine hcalled.bind ?_
  rintro ⟨v, out⟩ ⟨v', out'⟩ ⟨rfl, hworld⟩
  exact .ended ⟨rfl, hworld, congrArg (· ++ out.1) h.events, h.dataUpdated, h.instantiated⟩

/-- A nested call of a contract. -/
theorem call_inStep (hinner : KeepsStep past inner t) (h : FramesAgree past earlier f f')
    (account : String) (contract : Option Hash) (method : String) (args : Bytes) (fuel : UInt64)
    {i : Invocation} (hi : i = ⟨account, contract, false,
      fun appHash => HostFunc.nestedArgs ctx account appHash method args fuel⟩)
    (good : Repeatable past (earlier ++ i.trace inner t ctx f)) :
    Outcomes (Answered past (earlier ++ i.trace inner t ctx f))
      (HostFunc.call inner ctx f account contract method args fuel)
      (HostFunc.call inner ctx f' account contract method args fuel) := by
  subst hi
  rw [HostFunc.call, HostFunc.call]
  rw [Invocation.trace] at good ⊢
  by_cases on : f.instantiated = true
  · have on' : f'.instantiated = true := h.instantiated ▸ on
    simp only [if_pos on, if_pos on', ← List.append_assoc] at good ⊢
    have checked := hinner.appHashCheck h.world good.left
    rw [Invocation.check] at good ⊢
    generalize inner.appHashCheck contract ⟨ctx.origin, account, ctx.owner⟩ ctx.blockTimestamp
      f.world = x at checked good ⊢
    generalize inner.appHashCheck contract ⟨ctx.origin, account, ctx.owner⟩ ctx.blockTimestamp
      f'.world = y at checked ⊢
    cases checked with
    | stopped p => exact .stopped p
    | @ended checked checked' hchecked =>
      obtain ⟨v, appHash⟩ := checked
      obtain ⟨v', appHash'⟩ := checked'
      obtain ⟨rfl, hworld⟩ := hchecked
      cases appHash with
      | error e => exact .ended ⟨rfl, h.withWorld (hworld.append [])⟩
      | ok appHash => exact nested_inStep h (hinner.call hworld good)
  · have off' : ¬ f'.instantiated = true := h.instantiated ▸ on
    simp only [if_neg on, if_neg off']
    exact .ended ⟨rfl, h.append []⟩

/-- The question whether a contract has a method. -/
theorem isCallable_inStep (hinner : KeepsStep past inner t) (h : FramesAgree past earlier f f')
    {account : String} (method : String) (fuel : UInt64) {hash : Hash}
    (bound : HostFunc.getAccountContract f account = some hash) {i : Invocation}
    (hi : i = ⟨account, some hash, true,
      fun appHash => HostFunc.nestedArgs ctx account appHash method (bytesOf method) fuel⟩)
    (good : Repeatable past (earlier ++ i.trace inner t ctx f)) :
    Outcomes (Answered past (earlier ++ i.trace inner t ctx f))
      (HostFunc.isCallable inner ctx f account method fuel)
      (HostFunc.isCallable inner ctx f' account method fuel) := by
  subst hi
  have bound' : HostFunc.getAccountContract f' account = some hash := by
    rw [← bound, HostFunc.getAccountContract, HostFunc.getAccountContract, h.accounts]
  rw [HostFunc.isCallable, HostFunc.isCallable, bound, bound']
  rw [Invocation.trace] at good ⊢
  dsimp only
  by_cases on : f.instantiated = true
  · have on' : f'.instantiated = true := h.instantiated ▸ on
    simp only [if_pos on, if_pos on', ← List.append_assoc] at good ⊢
    have checked := hinner.appHashCheck h.world good.left
    rw [Invocation.check] at good ⊢
    generalize inner.appHashCheck (some hash) ⟨ctx.origin, account, ctx.owner⟩ ctx.blockTimestamp
      f.world = x at checked good ⊢
    generalize inner.appHashCheck (some hash) ⟨ctx.origin, account, ctx.owner⟩ ctx.blockTimestamp
      f'.world = y at checked ⊢
    cases checked with
    | stopped p => exact .stopped p
    | @ended checked checked' hchecked =>
      obtain ⟨v, appHash⟩ := checked
      obtain ⟨v', appHash'⟩ := checked'
      obtain ⟨rfl, hworld⟩ := hchecked
      cases appHash with
      | error e => exact .ended ⟨rfl, h.withWorld (hworld.append [])⟩
      | ok appHash => exact nested_inStep h (hinner.callableCall hworld good)
  · have off' : ¬ f'.instantiated = true := h.instantiated ▸ on
    simp only [if_neg on, if_neg off']
    exact .ended ⟨rfl, h.append []⟩

/-- What a contract gets to read of a nested call. -/
theorem appOutputOf_inStep [WmCodec] {x y : Frame × UInt64 × Except WasmError Bytes}
    (h : Answered past earlier x y) (fuel : UInt64) :
    Outcomes (Answered past earlier)
      (HostFunc.appOutputOf x.2.2 >>= fun output =>
        pure (x.1, HostAnswer.mk (.bytes output) (fuel - x.2.1)))
      (HostFunc.appOutputOf y.2.2 >>= fun output =>
        pure (y.1, HostAnswer.mk (.bytes output) (fuel - y.2.1))) := by
  obtain ⟨hsame, hframe⟩ := h
  rw [← hsame]
  cases HostFunc.appOutputOf x.2.2 with
  | error p => exact .stopped p
  | ok output => exact .ended ⟨rfl, hframe⟩

/-- Every question whose moments are repeatable gets the same answer. -/
theorem answer_inStep [Primitives] [Pcg32] [WmCodec] (hinner : KeepsStep past inner t)
    {q : HostQuestion} (h : FramesAgree past earlier f f')
    (good : Repeatable past (earlier ++ HostFunc.traceAnswer stack inner t ctx q f)) :
    Outcomes (Answered past (earlier ++ HostFunc.traceAnswer stack inner t ctx q f))
      (HostFunc.answer inner ctx q f) (HostFunc.answer inner ctx q f') := by
  obtain ⟨request, fuel⟩ := q
  rw [HostFunc.traceAnswer, List.append_cons] at good ⊢
  have asked := h.append [.asked stack ctx ⟨request, fuel⟩ f]
  generalize hasked : earlier ++ [.asked stack ctx ⟨request, fuel⟩ f] = now at asked good ⊢
  cases request with
  | instantiated =>
    exact .ended ⟨rfl, (asked.append []).world, asked.events, asked.dataUpdated, rfl⟩
  | log msg => exact .ended ⟨rfl, asked.append []⟩
  | emit eventName eventData =>
    exact .ended ⟨rfl, (asked.append []).emit ctx eventName eventData⟩
  | loadData key =>
    refine .ended ⟨?_, asked.append []⟩
    rw [h.accounts]
  | storeData key data => exact .ended ⟨rfl, (asked.append []).storeData ctx key data⟩
  | removeData key => exact .ended ⟨rfl, (asked.append []).removeData ctx key⟩
  | isCallable account method =>
    cases bound : HostFunc.getAccountContract f account with
    | none =>
      have bound' : HostFunc.getAccountContract f' account = none := by
        rw [← bound, HostFunc.getAccountContract, HostFunc.getAccountContract, h.accounts]
      simp only [HostFunc.answer, HostFunc.isCallable, HostFunc.invocationOf, bound, bound']
      exact .ended ⟨rfl, asked.append []⟩
    | some hash =>
      simp only [HostFunc.invocationOf, bound, Option.map_some] at good ⊢
      refine (isCallable_inStep hinner asked method fuel bound rfl good).bind ?_
      rintro ⟨g, out⟩ ⟨g', out'⟩ ⟨rfl, hframe⟩
      exact .ended ⟨rfl, hframe⟩
  | loadAsset accountId =>
    refine .ended ⟨?_, asked.append []⟩
    simp only [HostFunc.loadAsset, h.accounts]
  | storeAsset accountId value =>
    exact .ended ⟨rfl, (asked.append []).storeAsset ctx accountId value⟩
  | removeAsset accountId => exact .ended ⟨rfl, (asked.append []).removeAsset ctx accountId⟩
  | getAccountContract accountId =>
    refine .ended ⟨?_, asked.append []⟩
    simp only [HostFunc.getAccountContract, h.accounts]
  | getKeys pattern =>
    have hsame : HostFunc.keysOutput ctx f pattern = HostFunc.keysOutput ctx f' pattern := by
      simp only [HostFunc.keysOutput, HostFunc.getKeys, h.accounts]
    simp only [HostFunc.answer, ← hsame]
    cases HostFunc.keysOutput ctx f pattern with
    | error p => exact .stopped p
    | ok output => exact .ended ⟨rfl, asked.append []⟩
  | call account method args =>
    refine (call_inStep hinner asked account none method args fuel rfl good).bind ?_
    intro x y hanswered
    exact appOutputOf_inStep hanswered fuel
  | sCall account contract method args =>
    refine (call_inStep hinner asked account (some contract) method args fuel rfl good).bind ?_
    intro x y hanswered
    exact appOutputOf_inStep hanswered fuel
  | verify pk data sign => exact .ended ⟨rfl, asked.append []⟩
  | sha256 data => exact .ended ⟨rfl, asked.append []⟩
  | drand max =>
    have here : Moment.asked stack ctx ⟨.drand max, fuel⟩ f ∈ now := by
      rw [← hasked]
      exact List.mem_append_right _ (List.mem_singleton_self _)
    have seeded := good.drawn _ (List.mem_append_left _ here) ⟨max, rfl⟩
    obtain ⟨hnum, hworld⟩ := asked.world.draw seeded max
    refine .ended ⟨?_, (asked.withWorld hworld).append []⟩
    exact congrArg (fun num => HostAnswer.mk (.num num) fuel) hnum
  | getBlockTime => exact .ended ⟨rfl, asked.append []⟩

end Hosts

/-! ## The machine in step -/

section Machines

variable [Primitives] [Merkle] [Pcg32] [WmCodec] {inner : Machine} {t : Tracer} {stack : Nat}
  {w w' : World WmLocal}

omit [Primitives] [Merkle] [Pcg32] [WmCodec] in
theorem moduleOf_inStep (h : Agree past earlier w w') {target : Hash} {later : List Moment}
    (good : Repeatable past (earlier ++ .looked w.accounts target :: later)) :
    (WmLocal.moduleOf w target).2 = (WmLocal.moduleOf w' target).2 ∧
      Agree past (earlier ++ [.looked w.accounts target]) (WmLocal.moduleOf w target).1
        (WmLocal.moduleOf w' target).1 := by
  have found : ∀ module, past.Known earlier target module →
      compiled w.accounts.codeOf target = .ok module := fun _ known => good.finds known rfl
  have compiles : ∀ module, compiled w.accounts.codeOf target = .ok module →
      past.Known (earlier ++ [.looked w.accounts target]) target module := by
    intro module hmodule
    exact .inr ⟨_, List.mem_append_right _ (List.mem_singleton_self _), rfl, hmodule⟩
  have looked := h.append [.looked w.accounts target]
  have same : (w.wm.getModule w.accounts target).2 = (w'.wm.getModule w'.accounts target).2 := by
    rw [← h.accounts, WmLocal.getModule_finds h.cached found,
      WmLocal.getModule_finds h.cached' found]
  refine ⟨same, h.accounts, ?_, ?_, ?_, h.drand⟩
  · exact ((w.wm.getModule_stack _ _).trans h.stack).trans (w'.wm.getModule_stack _ _).symm
  · exact WmLocal.getModule_holds looked.cached compiles
  · refine WmLocal.getModule_holds looked.cached' fun module hmodule => ?_
    rw [← h.accounts] at hmodule
    exact compiles module hmodule

omit [Primitives] [Pcg32] [WmCodec] in
theorem updateDataHash_inStep {f f' : Frame} (h : FramesAgree past earlier f f')
    (owner : String) :
    (WmLocal.updateDataHash f owner = none ∧ WmLocal.updateDataHash f' owner = none) ∨
      ∃ v v', WmLocal.updateDataHash f owner = some v ∧
        WmLocal.updateDataHash f' owner = some v' ∧ Agree past earlier v v' := by
  rw [WmLocal.updateDataHash, WmLocal.updateDataHash, ← h.dataUpdated, ← h.accounts]
  by_cases updated : f.dataUpdated = true
  · rw [if_pos updated, if_pos updated]
    cases f.accounts.loadAccount owner with
    | none => exact .inl ⟨rfl, rfl⟩
    | some account =>
      refine .inr ⟨_, _, rfl, rfl, ?_⟩
      exact h.world.mapAccounts fun _ => f.accounts.storeAccount
        { account with dataHash := some (f.accounts.stateHash account.id) }
  · rw [if_neg updated, if_neg updated]
    exact .inr ⟨_, _, rfl, rfl, h.world⟩

omit [Primitives] [Pcg32] [WmCodec] in
theorem leave_alike {α β : Type} (args : CallArgs) (errorOf : EngineError → WasmError)
    (faultFuel : UInt64 → UInt64) (resultOf : α → Except WasmError β) {f f' : Frame}
    (h : FramesAgree past earlier f f') (ended : Ended α) :
    Alike past earlier (WmLocal.leave args errorOf faultFuel resultOf f ended)
      (WmLocal.leave args errorOf faultFuel resultOf f' ended) := by
  obtain ⟨fuel, outcome⟩ := ended
  cases outcome with
  | error e => exact ⟨congrArg (·, _, _) h.events, h.world⟩
  | ok value =>
    obtain ⟨hnone, hnone'⟩ | ⟨u, u', hsome, hsome', hupdated⟩ :=
      updateDataHash_inStep h args.owner
    · simp only [WmLocal.leave, hnone, hnone']
      exact ⟨congrArg (·, _, _) h.events, h.world⟩
    · simp only [WmLocal.leave, hsome, hsome']
      exact ⟨congrArg (·, _, _) h.events, hupdated⟩

omit [Merkle] in
/-- A contract whose questions are repeatable. -/
theorem execute_inStep {α : Type} (hinner : KeepsStep past inner t) {args : CallArgs}
    {contract : Contract α} (h : Agree past earlier w w')
    (good : Repeatable past (earlier ++ contract.trace (HostFunc.answer inner args)
      (HostFunc.traceAnswer stack inner t args) ⟨w, [], false, false⟩)) :
    Outcomes (Answered past (earlier ++ contract.trace (HostFunc.answer inner args)
        (HostFunc.traceAnswer stack inner t args) ⟨w, [], false, false⟩))
      (WmLocal.execute inner args contract w) (WmLocal.execute inner args contract w') := by
  have started : FramesAgree past earlier ⟨w, [], false, false⟩ ⟨w', [], false, false⟩ :=
    ⟨h, rfl, rfl, rfl⟩
  have answers : ∀ earlier q f f', FramesAgree past earlier f f' →
      Repeatable past (earlier ++ HostFunc.traceAnswer stack inner t args q f) →
      Outcomes (Answered past (earlier ++ HostFunc.traceAnswer stack inner t args q f))
        (HostFunc.answer inner args q f) (HostFunc.answer inner args q f') := by
    intro earlier q f f' hframes hgood
    exact answer_inStep hinner hframes hgood
  exact Program.run_lockstep (fun _ _ => Repeatable.left) answers started good

theorem enter_alike {α β : Type} (hinner : KeepsStep past inner t) {args : CallArgs}
    {contract : WasmEngine.Module → Contract α} {errorOf : EngineError → WasmError}
    {faultFuel : UInt64 → UInt64} {resultOf : α → Except WasmError β}
    (h : Agree past earlier w w')
    (good : Repeatable past (earlier ++ WmLocal.traceEnter stack inner t args contract w)) :
    Outcomes (Alike past (earlier ++ WmLocal.traceEnter stack inner t args contract w))
      (WmLocal.enter inner args contract errorOf faultFuel resultOf w)
      (WmLocal.enter inner args contract errorOf faultFuel resultOf w') := by
  rw [WmLocal.traceEnter] at good ⊢
  obtain ⟨hmodule, hworld⟩ := moduleOf_inStep h good
  rw [List.append_cons] at good ⊢
  rw [WmLocal.enter, WmLocal.enter]
  generalize WmLocal.moduleOf w args.contract = looked at hmodule hworld good ⊢
  generalize WmLocal.moduleOf w' args.contract = looked' at hmodule hworld ⊢
  obtain ⟨v, module⟩ := looked
  obtain ⟨v', module'⟩ := looked'
  obtain rfl : module = module' := hmodule
  cases module with
  | error e => exact .ended ⟨rfl, hworld.append []⟩
  | ok module =>
    dsimp only [WmLocal.traceExecute] at good ⊢
    rw [← List.append_assoc] at good ⊢
    have ran := execute_inStep hinner hworld good.left
    generalize WmLocal.execute inner args (contract module) v = x at ran good ⊢
    generalize WmLocal.execute inner args (contract module) v' = y at ran ⊢
    cases ran with
    | stopped p => exact .stopped p
    | @ended out out' hout =>
      obtain ⟨f, ended⟩ := out
      obtain ⟨f', ended'⟩ := out'
      obtain ⟨rfl, hframe⟩ := hout
      exact .ended (leave_alike args errorOf faultFuel resultOf (hframe.append _) ended)

omit [Primitives] [Merkle] [Pcg32] in
theorem contractUpdatable_inStep (hinner : KeepsStep past inner t) {account : String}
    {currentHash newHash : Option Hash} {ctxArgs : CtxArgs} {blockTimestamp : UInt64}
    (h : Agree past earlier w w')
    (good : Repeatable past (earlier ++ WmLocal.traceContractUpdatable t account currentHash
      newHash ctxArgs blockTimestamp w)) :
    Outcomes (Alike past (earlier ++ WmLocal.traceContractUpdatable t account currentHash newHash
        ctxArgs blockTimestamp w))
      (WmLocal.contractUpdatable inner account currentHash newHash ctxArgs blockTimestamp w)
      (WmLocal.contractUpdatable inner account currentHash newHash ctxArgs blockTimestamp w') := by
  rw [WmLocal.traceContractUpdatable] at good ⊢
  rw [WmLocal.contractUpdatable, WmLocal.contractUpdatable, ← h.accounts]
  cases hcontract :
    (w.accounts.loadAccount serviceAccountId).bind fun account => account.contract with
  | none => exact .ended ⟨rfl, h.append []⟩
  | some contract =>
    rw [hcontract] at good
    refine (hinner.call h good).bind ?_
    rintro ⟨v, events, consumed, outcome⟩ ⟨v', out'⟩ ⟨rfl, hworld⟩
    cases outcome with
    | error e => exact .ended ⟨rfl, hworld⟩
    | ok val => exact .ended ⟨rfl, hworld⟩

omit [Primitives] [Merkle] [Pcg32] [WmCodec] in
theorem bind_alike (account : Account) (appHash : Option Hash) (h : Agree past earlier w w') :
    Alike past earlier (WmLocal.bind account appHash w) (WmLocal.bind account appHash w') :=
  ⟨rfl, h.mapAccounts (·.storeAccount { account with contract := appHash })⟩

omit [Primitives] [Merkle] [Pcg32] in
theorem appHashCheck_inStep (hinner : KeepsStep past inner t) {appHash : Option Hash}
    {ctxArgs : CtxArgs} {blockTimestamp : UInt64} (h : Agree past earlier w w')
    (good : Repeatable past (earlier ++ WmLocal.traceAppHashCheck inner t appHash ctxArgs
      blockTimestamp w)) :
    Outcomes (Alike past (earlier ++ WmLocal.traceAppHashCheck inner t appHash ctxArgs
        blockTimestamp w))
      (WmLocal.appHashCheck inner appHash ctxArgs blockTimestamp w)
      (WmLocal.appHashCheck inner appHash ctxArgs blockTimestamp w') := by
  rw [WmLocal.traceAppHashCheck] at good ⊢
  simp only [WmLocal.appHashCheck]
  rw [← h.accounts]
  dsimp only at good ⊢
  generalize (w.accounts.loadAccount ctxArgs.owner).getD (Account.new ctxArgs.owner none) =
    account at good ⊢
  by_cases differs : account.contract ≠ appHash
  · rw [if_pos differs] at good
    rw [if_pos differs, if_pos differs, if_pos differs]
    generalize (if (account.contract.isSome && appHash.isNone) = true then account.contract
      else appHash) = kept at good ⊢
    by_cases same : account.contract = kept
    · rw [if_pos same, if_pos same, if_pos same]
      exact .ended (bind_alike account kept (h.append _))
    · rw [if_neg same] at good
      rw [if_neg same, if_neg same, if_neg same]
      rw [← List.append_assoc] at good ⊢
      have asked := contractUpdatable_inStep hinner h good.left
      generalize WmLocal.contractUpdatable inner ctxArgs.owner account.contract kept ctxArgs
        blockTimestamp w = x at asked good ⊢
      generalize WmLocal.contractUpdatable inner ctxArgs.owner account.contract kept ctxArgs
        blockTimestamp w' = y at asked ⊢
      cases asked with
      | stopped p => exact .stopped p
      | @ended out out' hout =>
        obtain ⟨v, updatable⟩ := out
        obtain ⟨v', updatable'⟩ := out'
        obtain ⟨rfl, hworld⟩ := hout
        cases updatable with
        | true => exact .ended (bind_alike account kept (hworld.append _))
        | false => exact .ended ⟨rfl, hworld.append _⟩
  · rw [if_neg differs, if_neg differs, if_neg differs]
    cases appHash with
    | some hash => exact .ended ⟨rfl, h.append []⟩
    | none => exact .ended ⟨rfl, h.append []⟩

/-- Every stack keeps worlds in step. -/
theorem machine_keepsStep (past : Past) (stack : Nat) :
    KeepsStep past (WmLocal.machine stack) (WmLocal.tracer stack) := by
  induction stack with
  | zero =>
    constructor
    · intro earlier args w w' h good
      exact .stopped _
    · intro earlier args w w' h good
      exact .stopped _
    · intro earlier appHash ctxArgs blockTimestamp w w' h good
      exact .stopped _
  | succ stack ih =>
    constructor
    · intro earlier args w w' h good
      exact enter_alike ih h good
    · intro earlier args w w' h good
      exact enter_alike ih h good
    · intro earlier appHash ctxArgs blockTimestamp w w' h good
      exact appHashCheck_inStep ih h good

end Machines

end Machine

end Trinci
