import Trinci.FuelCharges

/-!
# Fuel never comes back

The engine only consumes fuel. A host function takes the charge of a nested invocation
from what remains, in machine words: a charge above it wraps and leaves more than there
was. The reports of callees are bounded by the fuel they were given. The flat price for
an invocation from the start section is not, and over a whole call tree it is the only
charge that can exceed what remains.
-/

namespace Trinci

open HostPrograms

/-- In machine words a difference is at most what was taken from exactly if it does not
wrap. -/
theorem sub_le_self_iff {fuel consumed : UInt64} : fuel - consumed ≤ fuel ↔ consumed ≤ fuel := by
  constructor
  · intro h
    by_contra wraps
    rw [UInt64.le_iff_toNat_le, UInt64.toNat_sub] at h
    rw [UInt64.le_iff_toNat_le] at wraps
    have := fuel.toNat_lt
    have := consumed.toNat_lt
    omega
  · intro h
    rw [UInt64.le_iff_toNat_le, UInt64.toNat_sub_of_le _ _ h]
    omega

section Thrift

variable [WasmEngine]

/-- A contract that is given fuel, and after each answer what the answer leaves, and
never has more than that. -/
def Spending {α : Type} : (fuel : UInt64) → Contract α → Prop
  | fuel, .done ended => ended.fuel ≤ fuel
  | fuel, .ask q next => q.fuel ≤ fuel ∧ ∀ a, Spending a.fuel (next a)

/-- An engine that only consumes fuel. -/
class Thrifty : Prop where
  run : ∀ module input args fuel, Spending fuel (WasmEngine.run module input args fuel)
  isCallable : ∀ module input args fuel,
    Spending fuel (WasmEngine.isCallable module input args fuel)

variable [Primitives] [Merkle] [Pcg32] [WmCodec]

/-- An answer does not add fuel, the charge of an invocation is at most what remains, and
a contract ends with at most the fuel it was given. -/
def Moment.Spent : Moment → Prop
  | .asked stack ctx q f =>
    (∀ f' a, HostFunc.answer (WmLocal.machine stack) ctx q f = .ok (f', a) → a.fuel ≤ q.fuel) ∧
      ∀ i f' consumed, HostFunc.invocationOf ctx q f = some i →
        i.run (WmLocal.machine stack) ctx f = .ok (f', consumed) → consumed ≤ q.fuel
  | .left args _ fuel _ => fuel ≤ args.initialFuel
  | _ => True

/-- An invocation without a machine finds its flat price. -/
def Moment.Funded : Moment → Prop
  | .asked _ ctx q f => (HostFunc.invocationOf ctx q f).isSome →
    f.instantiated = true ∨ getFuelBurntForError ≤ q.fuel
  | _ => True

instance (m : Moment) : Decidable m.Funded :=
  match m with
  | .asked _ ctx q f => inferInstanceAs (Decidable ((HostFunc.invocationOf ctx q f).isSome →
      f.instantiated = true ∨ getFuelBurntForError ≤ q.fuel))
  | .looked _ _ => inferInstanceAs (Decidable True)
  | .left _ _ _ _ => inferInstanceAs (Decidable True)
  | .bound _ _ _ _ => inferInstanceAs (Decidable True)

/-- What was taken without a machine was there. -/
theorem Moment.Spent.funded {m : Moment} (h : m.Spent) : m.Funded := by
  cases m with
  | asked stack ctx q f =>
    intro some
    obtain ⟨i, hi⟩ := Option.isSome_iff_exists.1 some
    cases on : f.instantiated with
    | true => exact .inl rfl
    | false =>
      obtain ⟨a, hanswer, hfuel⟩ := answer_of_absent (m := WmLocal.machine stack) hi on
      have bounded := h.1 f a hanswer
      rw [hfuel, sub_le_self_iff] at bounded
      exact .inr bounded
  | _ => trivial

/-! ## Funded trees -/

/-- A machine whose funded trees are spent, with reports within the fuel of the call. -/
structure Bounded (m : Machine) (t : Tracer) : Prop where
  call : ∀ {args w}, (∀ x ∈ t.call args w, x.Funded) →
    (∀ x ∈ t.call args w, x.Spent) ∧
      ∀ left, m.call args w = .ok left → left.2.2.1 ≤ args.initialFuel
  callableCall : ∀ {args w}, (∀ x ∈ t.callableCall args w, x.Funded) →
    (∀ x ∈ t.callableCall args w, x.Spent) ∧
      ∀ left, m.callableCall args w = .ok left → left.2.2.1 ≤ args.initialFuel
  appHashCheck : ∀ {appHash ctxArgs blockTimestamp w},
    (∀ x ∈ t.appHashCheck appHash ctxArgs blockTimestamp w, x.Funded) →
    ∀ x ∈ t.appHashCheck appHash ctxArgs blockTimestamp w, x.Spent

variable {stack : Nat} {t : Tracer} {ctx : CallArgs}

omit [Primitives] [Merkle] [Pcg32] [WmCodec] in
/-- A callee is given what remains. -/
theorem invocationOf_fuel {q : HostQuestion} {f : Frame} {i : Invocation}
    (hi : HostFunc.invocationOf ctx q f = some i) (appHash : Hash) :
    (i.args appHash).initialFuel = q.fuel := by
  obtain ⟨request, fuel⟩ := q
  cases request with
  | isCallable account method =>
    simp only [HostFunc.invocationOf, Option.map_eq_some_iff] at hi
    obtain ⟨hash, -, rfl⟩ := hi
    rfl
  | call account method args =>
    cases hi
    rfl
  | sCall account contract method args =>
    cases hi
    rfl
  | _ => cases hi

omit [Primitives] [Merkle] [Pcg32] [WmCodec] in
theorem forall_mem_append_iff {p : Moment → Prop} {xs ys : List Moment} :
    (∀ x ∈ xs ++ ys, p x) ↔ (∀ x ∈ xs, p x) ∧ ∀ x ∈ ys, p x := by
  simp only [List.mem_append, or_imp, forall_and]

theorem callee_bounded {inner : Machine} (hinner : Bounded inner t) {i : Invocation}
    {appHash : Hash} {w : World WmLocal}
    (funded : ∀ x ∈ i.traceCallee t appHash w, x.Funded) :
    (∀ x ∈ i.traceCallee t appHash w, x.Spent) ∧
      ∀ left, i.callee inner appHash w = .ok left → left.2.2 ≤ (i.args appHash).initialFuel := by
  rw [Invocation.traceCallee] at funded ⊢
  simp only [Invocation.callee]
  split at funded
  next callable =>
    obtain ⟨spent, reports⟩ := hinner.callableCall funded
    simp only [if_pos callable]
    refine ⟨spent, fun left hleft => ?_⟩
    obtain ⟨out, hout, rfl⟩ := of_map_ok hleft
    exact reports out hout
  next run =>
    obtain ⟨spent, reports⟩ := hinner.call funded
    simp only [if_neg run]
    refine ⟨spent, fun left hleft => ?_⟩
    obtain ⟨out, hout, rfl⟩ := of_map_ok hleft
    exact reports out hout

/-- The notes of an invocation are spent, and with a machine it is charged what its
callee reports. -/
theorem invocation_bounded {inner : Machine} (hinner : Bounded inner t) {i : Invocation}
    {f : Frame} {fuel : UInt64} (given : ∀ appHash, (i.args appHash).initialFuel = fuel)
    (funded : ∀ x ∈ i.trace inner t ctx f, x.Funded) :
    (∀ x ∈ i.trace inner t ctx f, x.Spent) ∧
      ∀ f' consumed, f.instantiated = true → i.run inner ctx f = .ok (f', consumed) →
        consumed ≤ fuel := by
  rw [Invocation.trace] at funded ⊢
  by_cases on : f.instantiated = true
  · rw [if_pos on] at funded ⊢
    obtain ⟨checked, entered⟩ := forall_mem_append_iff.1 funded
    have checkSpent := hinner.appHashCheck checked
    rw [forall_mem_append_iff]
    refine ⟨⟨checkSpent, ?_⟩, fun f' consumed _ hrun => ?_⟩
    · cases hcheck : i.check inner ctx f with
      | error p =>
        intro x hx
        exact absurd hx List.not_mem_nil
      | ok out =>
        obtain ⟨world, appHash⟩ := out
        rw [hcheck] at entered
        cases appHash with
        | error e =>
          intro x hx
          exact absurd hx List.not_mem_nil
        | ok appHash => exact (callee_bounded hinner entered).1
    · cases Invocation.run_runs hrun with
      | absent off =>
        rw [on] at off
        cases off
      | refused _ hcheck => exact UInt64.zero_le
      | @called _ world left appHash events _ hcheck hcallee =>
        rw [hcheck] at entered
        exact given appHash ▸ (callee_bounded hinner entered).2 _ hcallee
  · rw [if_neg on]
    refine ⟨fun x hx => (by cases hx), fun f' consumed hon => absurd hon on⟩

/-- A funded question is spent, with everything it makes the machine invoke. -/
theorem answer_bounded (hinner : Bounded (WmLocal.machine stack) t) {q : HostQuestion} {f : Frame}
    (funded : ∀ x ∈ HostFunc.traceAnswer stack (WmLocal.machine stack) t ctx q f, x.Funded) :
    (∀ x ∈ HostFunc.traceAnswer stack (WmLocal.machine stack) t ctx q f, x.Spent) ∧
      ∀ f' a, HostFunc.answer (WmLocal.machine stack) ctx q f = .ok (f', a) → a.fuel ≤ q.fuel := by
  rw [HostFunc.traceAnswer] at funded ⊢
  obtain ⟨first, nested⟩ := List.forall_mem_cons.1 funded
  -- what an invocation takes is there, with a machine or without one
  have charge : ∀ i f' consumed, HostFunc.invocationOf ctx q f = some i →
      i.run (WmLocal.machine stack) ctx f = .ok (f', consumed) → consumed ≤ q.fuel := by
    intro i f' consumed hi hrun
    rw [hi] at nested
    cases on : f.instantiated with
    | true => exact (invocation_bounded hinner (invocationOf_fuel hi) nested).2 f' consumed on hrun
    | false =>
      rw [Invocation.run, if_neg (Bool.eq_false_iff.1 on)] at hrun
      cases hrun
      obtain hon | price := first (Option.isSome_iff_exists.2 ⟨i, hi⟩)
      · rw [on] at hon
        cases hon
      · exact price
  have bounded : ∀ f' a, HostFunc.answer (WmLocal.machine stack) ctx q f = .ok (f', a) →
      a.fuel ≤ q.fuel := by
    intro f' a hanswer
    obtain ⟨-, -, hfuel⟩ | ⟨i, consumed, hi, hrun, hfuel⟩ := HostFunc.answer_cases hanswer
    · rw [hfuel]
      exact UInt64.le_refl _
    · rw [hfuel, sub_le_self_iff]
      exact charge i f' consumed hi hrun
  refine ⟨List.forall_mem_cons.2 ⟨⟨bounded, charge⟩, ?_⟩, bounded⟩
  cases hi : HostFunc.invocationOf ctx q f with
  | none =>
    intro x hx
    cases hx
  | some i =>
    rw [hi] at nested
    exact (invocation_bounded hinner (invocationOf_fuel hi) nested).1

/-- Along a spending contract the fuel only falls. -/
theorem contract_bounded (hinner : Bounded (WmLocal.machine stack) t) {α : Type}
    {contract : Contract α} {fuel : UInt64} (spending : Spending fuel contract) {f : Frame}
    (funded : ∀ x ∈ contract.trace (HostFunc.answer (WmLocal.machine stack) ctx)
      (HostFunc.traceAnswer stack (WmLocal.machine stack) t ctx) f, x.Funded) :
    (∀ x ∈ contract.trace (HostFunc.answer (WmLocal.machine stack) ctx)
      (HostFunc.traceAnswer stack (WmLocal.machine stack) t ctx) f, x.Spent) ∧
      ∀ f' ended, contract.run (HostFunc.answer (WmLocal.machine stack) ctx) f = .ok (f', ended) →
        ended.fuel ≤ fuel := by
  induction contract generalizing fuel f with
  | done ended =>
    refine ⟨fun x hx => (by cases hx), fun f' ended' hrun => ?_⟩
    cases hrun
    exact spending
  | ask q next ih =>
    obtain ⟨asked, goesOn⟩ := spending
    rw [Program.trace, forall_mem_append_iff] at funded
    rw [Program.trace, forall_mem_append_iff]
    obtain ⟨first, later⟩ := funded
    obtain ⟨spent, falls⟩ := answer_bounded hinner first
    cases hanswer : HostFunc.answer (WmLocal.machine stack) ctx q f with
    | error p =>
      refine ⟨⟨spent, fun x hx => (by cases hx)⟩, fun f' ended hrun => ?_⟩
      rw [Program.run, hanswer] at hrun
      cases hrun
    | ok answered =>
      obtain ⟨g, a⟩ := answered
      rw [hanswer] at later
      obtain ⟨laterSpent, laterFalls⟩ := ih a (goesOn a) later
      refine ⟨⟨spent, laterSpent⟩, fun f' ended hrun => ?_⟩
      rw [Program.run_ask_of_ok hanswer] at hrun
      have ends : ended.fuel ≤ q.fuel :=
        UInt64.le_trans (laterFalls f' ended hrun) (falls g a hanswer)
      exact UInt64.le_trans ends asked

theorem enter_bounded (hinner : Bounded (WmLocal.machine stack) t) {α β : Type} {args : CallArgs}
    {contract : WasmEngine.Module → Contract α}
    (spending : ∀ module, Spending args.initialFuel (contract module)) {w : World WmLocal}
    (errorOf : EngineError → WasmError) {faultFuel : UInt64 → UInt64}
    (faultLess : ∀ consumed, faultFuel consumed ≤ consumed) (resultOf : α → Except WasmError β)
    (funded : ∀ x ∈ WmLocal.traceEnter stack (WmLocal.machine stack) t args contract w, x.Funded) :
    (∀ x ∈ WmLocal.traceEnter stack (WmLocal.machine stack) t args contract w, x.Spent) ∧
      ∀ left, WmLocal.enter (WmLocal.machine stack) args contract errorOf faultFuel resultOf w =
        .ok left → left.2.2.1 ≤ args.initialFuel := by
  rw [WmLocal.traceEnter, List.forall_mem_cons] at funded
  rw [WmLocal.traceEnter, List.forall_mem_cons]
  simp only [WmLocal.enter]
  obtain ⟨-, funded⟩ := funded
  generalize WmLocal.moduleOf w args.contract = found at funded ⊢
  obtain ⟨v, module⟩ := found
  cases module with
  | error e =>
    refine ⟨⟨trivial, fun x hx => (by cases hx)⟩, fun left hleft => ?_⟩
    cases hleft
    exact UInt64.zero_le
  | ok module =>
    dsimp only at funded ⊢
    rw [WmLocal.traceExecute, forall_mem_append_iff] at funded
    rw [WmLocal.traceExecute, forall_mem_append_iff]
    obtain ⟨asked, -⟩ := funded
    obtain ⟨spent, falls⟩ := contract_bounded hinner (spending module) asked
    cases hrun : WmLocal.execute (WmLocal.machine stack) args (contract module) v with
    | error p =>
      refine ⟨⟨trivial, spent, fun x hx => (by cases hx)⟩, fun left hleft => ?_⟩
      simp only [bind, Except.bind] at hleft
      cases hleft
    | ok out =>
      obtain ⟨f, ended⟩ := out
      have ends := falls f ended hrun
      refine ⟨⟨trivial, spent, List.forall_mem_singleton.2 ends⟩, fun left hleft => ?_⟩
      simp only [bind, Except.bind, pure, Except.pure] at hleft
      cases hleft
      have consumed : args.initialFuel - ended.fuel ≤ args.initialFuel := sub_le_self_iff.2 ends
      rw [leave_consumed]
      split
      · exact UInt64.le_trans (faultLess _) consumed
      · exact consumed

theorem contractUpdatable_bounded {inner : Machine} (hinner : Bounded inner t) {account : String}
    {currentHash newHash : Option Hash} {ctxArgs : CtxArgs} {blockTimestamp : UInt64}
    {w : World WmLocal}
    (funded : ∀ x ∈ WmLocal.traceContractUpdatable t account currentHash newHash ctxArgs
      blockTimestamp w, x.Funded) :
    ∀ x ∈ WmLocal.traceContractUpdatable t account currentHash newHash ctxArgs blockTimestamp w,
      x.Spent := by
  rw [WmLocal.traceContractUpdatable] at funded ⊢
  cases hcontract :
    (w.accounts.loadAccount serviceAccountId).bind fun account => account.contract with
  | none =>
    intro x hx
    cases hx
  | some contract =>
    rw [hcontract] at funded
    exact (hinner.call funded).1

/-- Checks have no fuel of their own. -/
theorem appHashCheck_bounded {inner : Machine} (hinner : Bounded inner t) {appHash : Option Hash}
    {ctxArgs : CtxArgs} {blockTimestamp : UInt64} {w : World WmLocal}
    (funded : ∀ x ∈ WmLocal.traceAppHashCheck inner t appHash ctxArgs blockTimestamp w, x.Funded) :
    ∀ x ∈ WmLocal.traceAppHashCheck inner t appHash ctxArgs blockTimestamp w, x.Spent := by
  rw [WmLocal.traceAppHashCheck] at funded ⊢
  dsimp only at funded ⊢
  generalize (w.accounts.loadAccount ctxArgs.owner).getD (Account.new ctxArgs.owner none) =
    account at funded ⊢
  by_cases differs : account.contract ≠ appHash
  · rw [if_pos differs] at funded ⊢
    generalize (if (account.contract.isSome && appHash.isNone) = true then account.contract
      else appHash) = kept at funded ⊢
    by_cases same : account.contract = kept
    · rw [if_pos same]
      exact List.forall_mem_singleton.2 trivial
    · rw [if_neg same, forall_mem_append_iff] at funded
      rw [if_neg same, forall_mem_append_iff]
      refine ⟨contractUpdatable_bounded hinner funded.1, fun x hx => ?_⟩
      split at hx
      · rw [List.mem_singleton.1 hx]
        trivial
      · cases hx
  · rw [if_neg differs]
    intro x hx
    cases hx

theorem machine_bounded [Thrifty] (stack : Nat) :
    Bounded (WmLocal.machine stack) (WmLocal.tracer stack) := by
  induction stack with
  | zero =>
    constructor
    · intro args w _
      exact ⟨fun x hx => (by cases hx), fun left hleft => (by cases hleft)⟩
    · intro args w _
      exact ⟨fun x hx => (by cases hx), fun left hleft => (by cases hleft)⟩
    · intro appHash ctxArgs blockTimestamp w _ x hx
      cases hx
  | succ stack ih =>
    constructor
    · intro args w funded
      exact enter_bounded ih (fun module => Thrifty.run module _ _ _) _
        (fun _ => UInt64.le_refl _) _ funded
    · intro args w funded
      exact enter_bounded ih (fun module => Thrifty.isCallable module _ _ _) _
        (fun _ => UInt64.zero_le) _ funded
    · intro appHash ctxArgs blockTimestamp w funded
      exact appHashCheck_bounded ih funded

/-- In every call tree of an engine that only consumes fuel: no host function adds fuel,
no charge exceeds what remains and no contract ends with more than it was given exactly
if every invocation without a machine finds its flat price. -/
theorem tree_spent_iff_funded [Thrifty] (stack : Nat) (args : CallArgs) (w : World WmLocal) :
    (∀ m ∈ (WmLocal.tracer stack).call args w, m.Spent) ↔
      ∀ m ∈ (WmLocal.tracer stack).call args w, m.Funded := by
  constructor
  · intro spent m hm
    exact (spent m hm).funded
  · intro funded
    exact ((machine_bounded stack).call funded).1

end Thrift

/-! ## An invocation from the start section -/

namespace Sample

section Started

/-- The first contract calls the second from its start section, the others do nothing. -/
local instance startingEngine : WasmEngine := scripted fun wasmBin =>
  if wasmBin = [1] then .ok ⟨[.call "oracle" "run" []], [], .ok [1]⟩
  else .ok ⟨[], [], .ok [1]⟩

theorem asking_spending {α : Type} (outcome : Except EngineError α) (requests : List HostRequest)
    (fuel : UInt64) : Spending fuel (asking outcome requests fuel) := by
  induction requests generalizing fuel with
  | nil => exact UInt64.le_refl fuel
  | cons request requests ih =>
    refine ⟨sub_le_self_iff.2 ?_, fun a => ih a.fuel⟩
    change (if 10 ≤ fuel then 10 else fuel) ≤ fuel
    split
    next enough => exact enough
    next => exact UInt64.le_refl fuel

theorem startingEngine_thrifty : Thrifty where
  run _ _ _ _ := asking_spending _ _ _
  isCallable _ _ _ _ := asking_spending _ _ _

def startedAccounts : Accounts := deployed [("shop", 1), ("oracle", 2)]

/-- With five hundred units the flat price wraps around. -/
theorem start_section_adds_fuel : Thrifty ∧
    ∃ m ∈ (WmLocal.tracer 2).call (callOf "shop" 1 500) (worldOf 2 startedAccounts), ¬ m.Spent := by
  refine ⟨startingEngine_thrifty, ?_⟩
  refine ⟨.asked 1 (callOf "shop" 1 500) ⟨.call "oracle" "run" [], 490⟩ _,
    List.mem_of_getElem? (i := 1) rfl, fun spent => ?_⟩
  have bounded := spent.1 _ _ rfl
  exact absurd bounded (by decide +kernel)

/-- With five thousand it is paid. -/
theorem start_section_pays : Thrifty ∧
    ∀ m ∈ (WmLocal.tracer 2).call (callOf "shop" 1 5000) (worldOf 2 startedAccounts), m.Spent := by
  have thrifty := startingEngine_thrifty
  refine ⟨thrifty, ?_⟩
  refine (tree_spent_iff_funded 2 (callOf "shop" 1 5000) (worldOf 2 startedAccounts)).2 ?_
  decide +kernel

end Started

end Sample

end Trinci
