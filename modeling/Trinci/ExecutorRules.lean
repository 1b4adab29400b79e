import Trinci.ExecutionEffects

/-!
# Rules for the executor

What the executor does to its state between the opening of a transaction and its end
are five kinds of steps. A relation that composes and allows each of them holds around
the handling of any transaction and around what settles it.
-/

namespace Trinci

open StatefulSteps Exec

variable {W : Type} [Wm W]

/-- A relation that composes and allows the steps of the executor. -/
structure ExecutorRule (R : Execution W → Execution W → Prop) : Prop where
  refl : ∀ s, R s s
  trans : ∀ {s t u}, R s t → R t u → R s u
  recorded : ∀ s part, R s { s with ran := s.ran ++ [part] }
  rolledBack : ∀ s, R s { s with fork := s.fork.rollback }
  called : ∀ {args s w out}, Wm.call args (world s) = .ok (w, out) → R s (setWorld s w)
  checked : ∀ {contract ctxArgs blockTimestamp s w out},
    Wm.appHashCheck contract ctxArgs blockTimestamp (world s) = .ok (w, out) →
    R s (setWorld s w)

namespace ExecutorRule

variable {α β : Type} {R : Execution W → Execution W → Prop}

theorem pure (rule : ExecutorRule R) (a : α) : Moves R (pure a : Exec W α) :=
  Moves.pure rule.refl a

theorem bind (rule : ExecutorRule R) {x : Exec W α} {f : α → Exec W β} (hx : Moves R x)
    (hf : ∀ a, Moves R (f a)) : Moves R (x >>= f) :=
  Moves.bind hx hf (fun _ _ h => h) fun _ _ _ h h' => rule.trans h h'

omit [Wm W] in
theorem ite {c : Prop} [Decidable c] {x y : Exec W α} (hx : c → Moves R x)
    (hy : ¬ c → Moves R y) : Moves R (if c then x else y) := by
  by_cases hc : c
  · rw [if_pos hc]
    exact hx hc
  · rw [if_neg hc]
    exact hy hc

/-- A step that leaves the state. -/
theorem quiet (rule : ExecutorRule R) {x : Exec W α} (h : ∀ s, after x s = s) : Moves R x := by
  intro s
  rw [h]
  exact rule.refl s

theorem ofText (rule : ExecutorRule R) (x : Except MachinePanic α) :
    Moves R (Exec.ofText x : Exec W α) :=
  rule.quiet (after_ofText x)

theorem ofTransaction (rule : ExecutorRule R) (x : Except TransactionPanic α) :
    Moves R (Exec.ofTransaction x : Exec W α) :=
  rule.quiet (after_ofTransaction x)

theorem record (rule : ExecutorRule R) (part : Ran) : Moves R (Exec.record part : Exec W PUnit) :=
  Moves.modify fun s => rule.recorded s part

theorem rollback (rule : ExecutorRule R) :
    Moves R (modifyFork DbFork.rollback : Exec W PUnit) :=
  Moves.modify rule.rolledBack

theorem rollback_if (rule : ExecutorRule R) (keep : Bool) :
    Moves R (modifyFork fun fork => if keep then fork else fork.rollback : Exec W PUnit) := by
  cases keep with
  | false => exact rule.rollback
  | true => exact Moves.modify rule.refl

omit [Wm W] in
theorem ofMachine {run : World W → Except MachinePanic (World W × α)}
    (refl : ∀ s, R s s) (h : ∀ s w a, run (world s) = .ok (w, a) → R s (setWorld s w)) :
    Moves R (Exec.ofMachine run) := by
  intro s
  cases hrun : run (world s) with
  | error p =>
    rw [(ofMachine_error hrun).1]
    exact refl s
  | ok left =>
    obtain ⟨w, a⟩ := left
    rw [(ofMachine_ok hrun).1]
    exact h s w a hrun

theorem call (rule : ExecutorRule R) (args : CallArgs) : Moves R (Exec.call args : Exec W _) :=
  ofMachine rule.refl fun _ _ _ => rule.called

theorem appHashCheck (rule : ExecutorRule R) (contract : Option Hash) (ctxArgs : CtxArgs)
    (blockTimestamp : UInt64) :
    Moves R (Exec.appHashCheck contract ctxArgs blockTimestamp : Exec W _) :=
  ofMachine rule.refl fun _ _ _ => rule.checked

end ExecutorRule

namespace WasmConfig

variable [NodeCodec] {R : Execution W → Execution W → Prop} (config : WasmConfig)

omit [NodeCodec] in
theorem unitOutcome_moves (rule : ExecutorRule R) (outcome : Except WasmError Bytes) :
    Moves R (unitOutcome outcome : Exec W (Bool × Bytes × Bool)) := by
  cases outcome with
  | ok value => exact rule.pure _
  | error err =>
    refine rule.bind rule.rollback fun _ => ?_
    split
    · exact rule.bind (rule.ofText _) fun msg => rule.pure _
    · exact rule.bind (rule.ofText _) fun msg => rule.pure _
    · refine rule.bind (rule.ofText _) fun kind => ?_
      cases kind with
      | some msg => exact rule.pure _
      | none => exact Moves.throw rule.refl _

section Handling

variable [Primitives]

theorem handleUnitTransaction_moves (rule : ExecutorRule R) (tx : SignedTransaction)
    (height : UInt64) (index : UInt32) (blockTimestamp : UInt64) :
    Moves R (config.handleUnitTransaction tx height index blockTimestamp :
      Exec W HandleTransactionReturns) := by
  refine ExecutorRule.ite (fun _ => ?_) (fun _ => ?_)
  · exact rule.bind (rule.quiet (after_toAccountId _)) fun account => rule.pure _
  · refine rule.bind (rule.quiet (after_toAccountId _)) fun caller => ?_
    refine rule.bind (Moves.get rule.refl) fun s => ?_
    refine rule.bind (rule.ofTransaction _) fun contract => ?_
    refine rule.bind (rule.record _) fun _ => ?_
    refine rule.bind (rule.appHashCheck _ _ _) fun appHash => ?_
    cases appHash with
    | error e => exact rule.bind (rule.ofText _) fun msg => rule.pure _
    | ok appHash =>
      refine rule.bind (rule.ofTransaction _) fun method => ?_
      refine rule.bind (rule.ofTransaction _) fun args => ?_
      refine rule.bind (rule.call _) fun called => ?_
      exact rule.bind (unitOutcome_moves rule _) fun outcome => rule.pure _

theorem handleBulkNodesExecution_moves (rule : ExecutorRule R) (height blockTimestamp : UInt64)
    (nodes : List SignedTransaction) (remainingWmFuel : UInt64) :
    Moves R (config.handleBulkNodesExecution height blockTimestamp nodes remainingWmFuel :
      Exec W _) := by
  induction nodes generalizing remainingWmFuel with
  | nil => exact rule.pure _
  | cons node nodes ih =>
    rw [handleBulkNodesExecution]
    refine ExecutorRule.ite (fun _ => rule.pure _) (fun _ => ?_)
    refine rule.bind (rule.quiet (after_expectAccountId _)) fun caller => ?_
    refine rule.bind (Moves.get rule.refl) fun s => ?_
    refine rule.bind (rule.ofTransaction _) fun contract => ?_
    refine rule.bind (rule.record _) fun _ => ?_
    refine rule.bind (rule.appHashCheck _ _ _) fun appHash => ?_
    cases appHash with
    | error e => exact rule.bind (rule.ofText _) fun msg => rule.pure _
    | ok appHash =>
      refine rule.bind (rule.ofTransaction _) fun method => ?_
      refine rule.bind (rule.ofTransaction _) fun args => ?_
      refine rule.bind (rule.call _) fun called => ?_
      obtain ⟨events, burntWmFuel, outcome⟩ := called
      cases outcome with
      | error e => exact rule.bind (rule.ofText _) fun msg => rule.pure _
      | ok rcpt => exact rule.bind (ih _) fun later => rule.pure _

omit [NodeCodec] [Primitives] in
theorem handleBulkRoot_moves (rule : ExecutorRule R) (tx : SignedTransaction)
    (root : TransactionData) (bulkCaller : String) (limit height : UInt64) (index : UInt32)
    (blockTimestamp : UInt64) :
    Moves R (config.handleBulkRoot tx root bulkCaller limit height index blockTimestamp :
      Exec W _) := by
  cases root with
  | bulkRootV1 txData =>
    refine ExecutorRule.ite (fun _ => rule.pure _) (fun _ => ?_)
    refine rule.bind (rule.record _) fun _ => ?_
    refine rule.bind (rule.appHashCheck _ _ _) fun appHash => ?_
    cases appHash with
    | error e => exact rule.bind (rule.ofText _) fun msg => rule.pure _
    | ok appHash => exact rule.bind (rule.call _) fun out => rule.pure _
  | _ => exact rule.pure _

theorem handleBulkData_moves (rule : ExecutorRule R) (tx : SignedTransaction)
    (bulkCaller : String) (limit height : UInt64) (index : UInt32) (blockTimestamp : UInt64) :
    Moves R (config.handleBulkData tx bulkCaller limit height index blockTimestamp :
      Exec W _) := by
  rw [handleBulkData]
  split
  · refine rule.bind (config.handleBulkRoot_moves rule tx _ bulkCaller limit height index
      blockTimestamp) fun rooted => ?_
    obtain receipt | ⟨events, burntWmFuel, e | rcpt⟩ := rooted
    · exact rule.pure _
    · exact rule.bind (rule.ofText _) fun msg => rule.pure _
    · exact rule.bind (config.handleBulkNodesExecution_moves rule height blockTimestamp _ _)
        fun later => rule.pure _
  · exact rule.pure _

/-- A rule holds around the handling of a transaction. -/
theorem handleTransaction_moves (rule : ExecutorRule R) (tx : Transaction) (height : UInt64)
    (index : UInt32) (blockTimestamp : UInt64) :
    Moves R (config.handleTransaction tx height index blockTimestamp :
      Exec W HandleTransactionReturns) := by
  cases tx with
  | unitTransaction tx => exact config.handleUnitTransaction_moves rule tx height index blockTimestamp
  | bulkTransaction tx =>
    refine rule.bind (rule.quiet (after_toAccountId _)) fun bulkCaller => ?_
    refine rule.bind (Moves.get rule.refl) fun s => ?_
    refine rule.bind (config.handleBulkData_moves rule tx bulkCaller _ height index
      blockTimestamp) fun executed => ?_
    cases executed with
    | error receipt => exact rule.pure _
    | ok out => exact rule.bind (rule.rollback_if _) fun _ => rule.pure _

end Handling

/-- A rule holds around the burning of the fuel and what follows from it. -/
theorem settled_moves (rule : ExecutorRule R) (res : HandleTransactionReturns) (height : UInt64)
    (index : UInt32) (blockTimestamp : UInt64) :
    Moves R (config.settled res height index blockTimestamp : Exec W Receipt) := by
  have burnt : Moves R (config.burnFuel res.burnFuelArgs blockTimestamp : Exec W _) := by
    refine ExecutorRule.ite (fun _ => rule.pure _) (fun _ => ?_)
    refine rule.bind (Moves.get rule.refl) fun s => ?_
    split
    · exact rule.pure _
    · split
      · exact rule.pure _
      · exact rule.bind (rule.call _) fun _ => rule.pure _
  refine rule.bind burnt fun outcome => ?_
  refine ExecutorRule.ite (fun _ => ?_) (fun _ => rule.pure _)
  exact rule.bind rule.rollback fun _ => rule.pure _

end WasmConfig

end Trinci
