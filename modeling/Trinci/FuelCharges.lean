import Trinci.CallTrees

/-!
# What a nested invocation is charged

A nested invocation runs the callee in a store of its own, with the fuel of the caller,
and the caller pays what the machine reports. The report of a call is what the store of
the callee consumed, however the callee ends. A callee that is only asked whether it is
callable reports nothing for a fault, and an invocation from the start section, where
there is no machine yet, costs a flat price without a callee.
-/

namespace Trinci

open HostPrograms

/-- What was taken from the fuel, in machine words. -/
theorem sub_sub_self (fuel consumed : UInt64) : fuel - (fuel - consumed) = consumed := by
  grind

section Charges

variable [WasmEngine] [Primitives] [Merkle] [Pcg32] [WmCodec]

/-! ## The store of a callee -/

/-- How the contract of a call ends, if its module is found and nothing panics. -/
def endOf {α : Type} (inner : Machine) (args : CallArgs)
    (contract : WasmEngine.Module → Contract α) (w : World WmLocal) : Option (Frame × Ended α) :=
  match WmLocal.moduleOf w args.contract with
  | (w, .ok module) => (WmLocal.execute inner args (contract module) w).toOption
  | (_, .error _) => none

/-- The fuel that the store of a call consumed. Without a module there is no store. -/
def storeConsumed {α : Type} (inner : Machine) (args : CallArgs)
    (contract : WasmEngine.Module → Contract α) (w : World WmLocal) : UInt64 :=
  match endOf inner args contract w with
  | some (_, ended) => args.initialFuel - ended.fuel
  | none => 0

/-- The contract of a call ended in a fault. -/
def storeFaulted {α : Type} (inner : Machine) (args : CallArgs)
    (contract : WasmEngine.Module → Contract α) (w : World WmLocal) : Bool :=
  match endOf inner args contract w with
  | some (f, ended) => WmLocal.faulted args f ended
  | none => false

/-- A call has no store, or leaves what its contract ended with. -/
theorem enter_cases {α β : Type} {inner : Machine} {args : CallArgs}
    {contract : WasmEngine.Module → Contract α} {errorOf : EngineError → WasmError}
    {faultFuel : UInt64 → UInt64} {resultOf : α → Except WasmError β} {w : World WmLocal}
    {left : Called WmLocal β}
    (h : WmLocal.enter inner args contract errorOf faultFuel resultOf w = .ok left) :
    endOf inner args contract w = none ∧ left.2.2.1 = 0 ∨
      ∃ f ended, endOf inner args contract w = some (f, ended) ∧
        left = WmLocal.leave args errorOf faultFuel resultOf f ended := by
  rw [WmLocal.enter] at h
  rw [endOf]
  generalize WmLocal.moduleOf w args.contract = found at h ⊢
  obtain ⟨v, module⟩ := found
  cases module with
  | error e =>
    cases h
    exact .inl ⟨rfl, rfl⟩
  | ok module =>
    dsimp only at h ⊢
    cases hrun : WmLocal.execute inner args (contract module) v with
    | error p =>
      simp only [hrun, bind, Except.bind] at h
      cases h
    | ok out =>
      simp only [hrun, bind, Except.bind, pure, Except.pure] at h
      cases h
      exact .inr ⟨out.1, out.2, rfl, rfl⟩

/-- A contract that ended lets its call return. -/
theorem enter_of_end {α β : Type} {inner : Machine} {args : CallArgs}
    {contract : WasmEngine.Module → Contract α} {w : World WmLocal} {out : Frame × Ended α}
    (h : endOf inner args contract w = some out) (errorOf : EngineError → WasmError)
    (faultFuel : UInt64 → UInt64) (resultOf : α → Except WasmError β) :
    ∃ left, WmLocal.enter inner args contract errorOf faultFuel resultOf w = .ok left := by
  rw [endOf] at h
  rw [WmLocal.enter]
  generalize WmLocal.moduleOf w args.contract = found at h ⊢
  obtain ⟨v, module⟩ := found
  cases module with
  | error e => cases h
  | ok module =>
    dsimp only at h ⊢
    cases hrun : WmLocal.execute inner args (contract module) v with
    | error p =>
      rw [hrun] at h
      cases h
    | ok out =>
      simp only [bind, Except.bind, pure, Except.pure]
      exact ⟨_, rfl⟩

omit [Primitives] [Pcg32] [WmCodec] in
theorem leave_consumed {α β : Type} {args : CallArgs} {errorOf : EngineError → WasmError}
    {faultFuel : UInt64 → UInt64} {resultOf : α → Except WasmError β} {f : Frame}
    {ended : Ended α} :
    (WmLocal.leave args errorOf faultFuel resultOf f ended).2.2.1 =
      if WmLocal.faulted args f ended then faultFuel (args.initialFuel - ended.fuel)
      else args.initialFuel - ended.fuel := by
  rw [WmLocal.leave, WmLocal.faulted]
  cases ended.result with
  | error e => rfl
  | ok value => cases hupdate : WmLocal.updateDataHash f args.owner <;> rfl

/-- A call reports what its store consumed, unless it faulted. -/
theorem enter_consumed {α β : Type} {inner : Machine} {args : CallArgs}
    {contract : WasmEngine.Module → Contract α} {errorOf : EngineError → WasmError}
    {faultFuel : UInt64 → UInt64} {resultOf : α → Except WasmError β} {w : World WmLocal}
    {left : Called WmLocal β}
    (h : WmLocal.enter inner args contract errorOf faultFuel resultOf w = .ok left) :
    left.2.2.1 = if storeFaulted inner args contract w then
        faultFuel (storeConsumed inner args contract w)
      else storeConsumed inner args contract w := by
  rw [storeFaulted, storeConsumed]
  obtain ⟨hend, hzero⟩ | ⟨f, ended, hend, rfl⟩ := enter_cases h
  · rw [hend, hzero]
    rfl
  · rw [hend]
    exact leave_consumed

/-- The fuel that the store of the callee of an invocation consumed. -/
def calleeConsumed (stack : Nat) (callable : Bool) (args : CallArgs) (w : World WmLocal) : UInt64 :=
  match stack with
  | 0 => 0
  | stack + 1 =>
    if callable then
      storeConsumed (WmLocal.machine stack) args (fun module => WasmEngine.isCallable module
        (WmLocal.inputOf args "is_callable") args.args args.initialFuel) w
    else
      storeConsumed (WmLocal.machine stack) args (fun module => WasmEngine.run module
        (WmLocal.inputOf args args.method) args.args args.initialFuel) w

/-- The callee that is asked whether it is callable ended in a fault. -/
def callableFaulted (stack : Nat) (args : CallArgs) (w : World WmLocal) : Bool :=
  match stack with
  | 0 => false
  | stack + 1 =>
    storeFaulted (WmLocal.machine stack) args (fun module => WasmEngine.isCallable module
      (WmLocal.inputOf args "is_callable") args.args args.initialFuel) w

/-- The charge of a callee. -/
theorem callee_consumed {stack : Nat} {i : Invocation} {appHash : Hash} {w : World WmLocal}
    {left : World WmLocal × List SmartContractEvent × UInt64}
    (h : i.callee (WmLocal.machine stack) appHash w = .ok left) :
    left.2.2 = if i.callable && callableFaulted stack (i.args appHash) w then 0
      else calleeConsumed stack i.callable (i.args appHash) w := by
  rw [Invocation.callee] at h
  cases stack with
  | zero =>
    split at h
    · obtain ⟨out, hout, -⟩ := of_map_ok h
      cases hout
    · obtain ⟨out, hout, -⟩ := of_map_ok h
      cases hout
  | succ stack =>
    rw [calleeConsumed, callableFaulted]
    split at h
    next callable =>
      obtain ⟨out, hout, rfl⟩ := of_map_ok h
      rw [callable, Bool.true_and, if_pos rfl]
      exact enter_consumed hout
    next run =>
      obtain ⟨out, hout, rfl⟩ := of_map_ok h
      rw [Bool.eq_false_iff.2 run, Bool.false_and, if_neg Bool.false_ne_true,
        if_neg Bool.false_ne_true]
      exact (enter_consumed hout).trans (ite_self _)

/-! ## Fair invocations -/

/-- The fuel that the store of the callee of a question consumed: nothing where no
callee is entered. -/
def nestedConsumed (stack : Nat) (ctx : CallArgs) (q : HostQuestion) (f : Frame) : UInt64 :=
  match HostFunc.invocationOf ctx q f with
  | none => 0
  | some i =>
    if f.instantiated then
      match i.check (WmLocal.machine stack) ctx f with
      | .ok (world, .ok appHash) => calleeConsumed stack i.callable (i.args appHash) world
      | _ => 0
    else 0

/-- What a question takes from the caller's fuel is what the callee's store consumed. -/
def Moment.Charged : Moment → Prop
  | .asked stack ctx q f => ∀ f' a, HostFunc.answer (WmLocal.machine stack) ctx q f = .ok (f', a) →
    q.fuel - a.fuel = nestedConsumed stack ctx q f
  | _ => True

/-- An invocation is made by an instance that has its machine, and a callee that is
only asked whether it is callable faults without having consumed fuel, if it faults. -/
def Moment.Fair : Moment → Prop
  | .asked stack ctx q f => ∀ i, HostFunc.invocationOf ctx q f = some i →
    f.instantiated = true ∧
      (i.callable = true → ∀ world appHash,
        i.check (WmLocal.machine stack) ctx f = .ok (world, .ok appHash) →
        callableFaulted stack (i.args appHash) world = true →
          calleeConsumed stack true (i.args appHash) world = 0)
  | _ => True

section Answers

variable {inner : Machine} {ctx : CallArgs} {q : HostQuestion} {f : Frame} {i : Invocation}

omit [Merkle] in
/-- An account that is asked whether it is callable always gets to answer. -/
theorem answer_of_callable {f' : Frame} {consumed : UInt64}
    (hi : HostFunc.invocationOf ctx q f = some i) (callable : i.callable = true)
    (hrun : i.run inner ctx f = .ok (f', consumed)) :
    ∃ a, HostFunc.answer inner ctx q f = .ok (f', a) ∧ a.fuel = q.fuel - consumed := by
  obtain ⟨request, fuel⟩ := q
  cases request with
  | isCallable account method =>
    obtain ⟨hash, hbound, rfl⟩ := HostFunc.invocationOf_isCallable hi
    rw [HostFunc.run_eq_isCallable method fuel hbound] at hrun
    obtain ⟨out, hout, heq⟩ := of_map_ok hrun
    cases heq
    obtain ⟨g, consumed, result⟩ := out
    cases result with
    | ok value =>
      refine ⟨⟨.int value, fuel - consumed⟩, ?_, rfl⟩
      simp only [HostFunc.answer, hout]
      rfl
    | error e =>
      refine ⟨⟨.int 0, fuel - consumed⟩, ?_, rfl⟩
      simp only [HostFunc.answer, hout]
      rfl
  | call account method args =>
    cases hi
    cases callable
  | sCall account contract method args =>
    cases hi
    cases callable
  | _ => cases hi

omit [Merkle] in
/-- Without a machine the flat price is taken. -/
theorem answer_of_absent {m : Machine} (hi : HostFunc.invocationOf ctx q f = some i)
    (off : f.instantiated = false) :
    ∃ a, HostFunc.answer m ctx q f = .ok (f, a) ∧ a.fuel = q.fuel - getFuelBurntForError := by
  have hrun : i.run m ctx f = .ok (f, getFuelBurntForError) := by
    rw [Invocation.run, if_neg (Bool.eq_false_iff.1 off)]
  have text : ∃ output, HostFunc.appOutputOf
      (.error (.wasmMachineFault "nested calls not implemented")) = .ok output := ⟨_, rfl⟩
  obtain ⟨output, houtput⟩ := text
  have called : ∀ account contract method args, HostFunc.call m ctx f account contract method
      args q.fuel = .ok (f, getFuelBurntForError,
        .error (.wasmMachineFault "nested calls not implemented")) := by
    intro account contract method args
    rw [HostFunc.call, if_neg (Bool.eq_false_iff.1 off)]
  cases callable : i.callable with
  | true => exact answer_of_callable hi callable hrun
  | false =>
    obtain ⟨request, fuel⟩ := q
    cases request with
    | isCallable account method =>
      obtain ⟨hash, -, rfl⟩ := HostFunc.invocationOf_isCallable hi
      cases callable
    | call account method args =>
      refine ⟨⟨.bytes output, fuel - getFuelBurntForError⟩, ?_, rfl⟩
      simp only [HostFunc.answer, called, houtput, bind, Except.bind, pure, Except.pure]
    | sCall account contract method args =>
      refine ⟨⟨.bytes output, fuel - getFuelBurntForError⟩, ?_, rfl⟩
      simp only [HostFunc.answer, called, houtput, bind, Except.bind, pure, Except.pure]
    | _ => cases hi

end Answers

/-- A callee that faulted was entered, and the machine reports on it. -/
theorem callee_of_faulted {stack : Nat} {i : Invocation} {appHash : Hash} {w : World WmLocal}
    (callable : i.callable = true)
    (faulted : callableFaulted stack (i.args appHash) w = true) :
    ∃ left, i.callee (WmLocal.machine stack) appHash w = .ok left := by
  cases stack with
  | zero => cases faulted
  | succ stack =>
    rw [callableFaulted, storeFaulted] at faulted
    cases hend : endOf (WmLocal.machine stack) (i.args appHash)
        (fun module => WasmEngine.isCallable module
          (WmLocal.inputOf (i.args appHash) "is_callable") (i.args appHash).args
          (i.args appHash).initialFuel) w with
    | none =>
      rw [hend] at faulted
      cases faulted
    | some out =>
      obtain ⟨left, hleft⟩ := enter_of_end hend WmLocal.callableError (fun _ => 0) Except.ok
      refine ⟨(left.1, left.2.1, left.2.2.1), ?_⟩
      rw [Invocation.callee, if_pos callable]
      change (WmLocal.callableCall (WmLocal.machine stack) (i.args appHash) w).map _ = _
      rw [WmLocal.callableCall, hleft]
      rfl

omit [Primitives] [Merkle] [Pcg32] [WmCodec] in
theorem run_of_callee {inner : Machine} {ctx : CallArgs} {f : Frame} {i : Invocation}
    {world : World WmLocal} {appHash : Hash}
    {left : World WmLocal × List SmartContractEvent × UInt64} (on : f.instantiated = true)
    (hcheck : i.check inner ctx f = .ok (world, .ok appHash))
    (hcallee : i.callee inner appHash world = .ok left) :
    i.run inner ctx f =
      .ok ({ f with world := left.1, events := f.events ++ left.2.1 }, left.2.2) := by
  rw [Invocation.run, if_pos on]
  simp only [hcheck, hcallee, bind, Except.bind, pure, Except.pure]

/-- The charge of an invocation that was made with a machine. -/
theorem run_consumed {stack : Nat} {ctx : CallArgs} {q : HostQuestion} {f f' : Frame}
    {i : Invocation} {consumed : UInt64} (hi : HostFunc.invocationOf ctx q f = some i)
    (on : f.instantiated = true)
    (fair : i.callable = true → ∀ world appHash,
      i.check (WmLocal.machine stack) ctx f = .ok (world, .ok appHash) →
      callableFaulted stack (i.args appHash) world = true →
        calleeConsumed stack true (i.args appHash) world = 0)
    (hrun : i.run (WmLocal.machine stack) ctx f = .ok (f', consumed)) :
    consumed = nestedConsumed stack ctx q f := by
  rw [nestedConsumed, hi]
  dsimp only
  rw [if_pos on]
  cases Invocation.run_runs hrun with
  | absent off =>
    rw [on] at off
    cases off
  | refused _ hcheck => rw [hcheck]
  | @called _ world left appHash events _ hcheck hcallee =>
    rw [hcheck]
    have charge := callee_consumed hcallee
    dsimp only at charge ⊢
    rw [charge]
    split
    next exempt =>
      rw [Bool.and_eq_true] at exempt
      obtain ⟨callable, faulted⟩ := exempt
      rw [callable]
      exact (fair callable world appHash hcheck faulted).symm
    next => rfl

/-- A question is charged what the callee's store consumed exactly if it is fair. -/
theorem Moment.charged_iff_fair (m : Moment) : m.Charged ↔ m.Fair := by
  cases m with
  | asked stack ctx q f =>
    constructor
    · intro charged i hi
      have on : f.instantiated = true := by
        by_contra off
        obtain ⟨a, hanswer, hfuel⟩ :=
          answer_of_absent (m := WmLocal.machine stack) hi (Bool.eq_false_iff.2 off)
        have taken := charged f a hanswer
        rw [hfuel, sub_sub_self, nestedConsumed, hi] at taken
        dsimp only at taken
        rw [if_neg off] at taken
        exact absurd taken (by decide)
      refine ⟨on, fun callable world appHash hcheck faulted => ?_⟩
      obtain ⟨left, hcallee⟩ := callee_of_faulted callable faulted
      have hrun := run_of_callee on hcheck hcallee
      obtain ⟨a, hanswer, hfuel⟩ := answer_of_callable hi callable hrun
      have taken := charged _ a hanswer
      have free := callee_consumed hcallee
      rw [callable, Bool.true_and, if_pos faulted] at free
      rw [hfuel, sub_sub_self, free, nestedConsumed, hi] at taken
      dsimp only at taken
      rw [if_pos on, hcheck] at taken
      dsimp only at taken
      rw [callable] at taken
      exact taken.symm
    · intro fair f' a hanswer
      obtain ⟨hnone, -, hfuel⟩ | ⟨i, consumed, hi, hrun, hfuel⟩ := HostFunc.answer_cases hanswer
      · rw [nestedConsumed, hnone, hfuel]
        exact UInt64.sub_self _
      · obtain ⟨on, exempt⟩ := fair i hi
        rw [hfuel, sub_sub_self]
        exact run_consumed hi on exempt hrun
  | _ => exact Iff.rfl

/-- In every call tree: every nested invocation takes from its caller what the store of
its callee consumed exactly if every nested invocation is fair. -/
theorem tree_charged_iff_fair (stack : Nat) (args : CallArgs) (w : World WmLocal) :
    (∀ m ∈ (WmLocal.tracer stack).call args w, m.Charged) ↔
      ∀ m ∈ (WmLocal.tracer stack).call args w, m.Fair :=
  forall₂_congr fun m _ => m.charged_iff_fair

end Charges

/-! ## A free callee -/

namespace Sample

section Free

/-- The first contract asks the second whether it is callable. That one logs and traps. -/
local instance askingEngine : WasmEngine := scripted fun wasmBin =>
  if wasmBin = [1] then .ok ⟨[], [.isCallable "oracle" "run"], .ok [1]⟩
  else .ok ⟨[], [.log "work", .log "work"], .error (.trap "unreachable")⟩

def askedOracle : Accounts := deployed [("shop", 1), ("oracle", 2)]

/-- The callee consumed thirty units, and nothing is taken from the caller. -/
theorem trapped_callee_is_free :
    ∃ m ∈ (WmLocal.tracer 2).call (callOf "shop" 1 1000) (worldOf 2 askedOracle), ¬ m.Charged := by
  refine ⟨.asked 1 (callOf "shop" 1 1000) ⟨.isCallable "oracle" "run", 980⟩ _,
    List.mem_of_getElem? (i := 2) rfl, fun charged => ?_⟩
  have taken := charged _ _ rfl
  exact absurd taken (by decide +kernel)

end Free

end Sample

end Trinci
