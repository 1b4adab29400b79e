import Trinci.CallTrees
import Trinci.ExecutorRelations

/-!
# Machines that keep a log

A machine can keep a log of what it was asked and what it replied. The executor does not
look at the log, so a block is executed the same with it, and what the machine did while
a block was executed can be read from the log afterwards.
-/

namespace Trinci

open StatefulSteps Exec

variable {L W : Type}

/-- What is noted about a function of the machine, from what it is given and what it
replies. -/
class Notes (L : Type) (W : Type) where
  ofCall : CallArgs → World W →
    List SmartContractEvent × UInt64 × Except WasmError Bytes → List L
  ofCheck : Option Hash → CtxArgs → (blockTimestamp : UInt64) → World W →
    Except WasmError Hash → List L

/-- A machine that keeps notes. -/
structure Logged (L : Type) (W : Type) where
  wm : W
  log : List L

namespace Logged

def forget (w : World (Logged L W)) : World W := ⟨w.wm.wm, w.drand, w.accounts⟩

/-- The world with the notes that are added to the log. -/
def keep (w : World (Logged L W)) (left : World W) (notes : List L) : World (Logged L W) :=
  ⟨⟨left.wm, w.wm.log ++ notes⟩, left.drand, left.accounts⟩

/-- A function of the machine, with the notes about it. -/
def run {α : Type} (notes : World W → α → List L)
    (f : World W → Except MachinePanic (World W × α)) (w : World (Logged L W)) :
    Except MachinePanic (World (Logged L W) × α) :=
  match f (forget w) with
  | .error p => .error p
  | .ok (left, a) => .ok (keep w left (notes (forget w) a), a)

instance [Wm W] [Notes L W] : Wm (Logged L W) where
  call args := run (Notes.ofCall args) (Wm.call args)
  appHashCheck contract ctxArgs blockTimestamp :=
    run (Notes.ofCheck contract ctxArgs blockTimestamp)
      (Wm.appHashCheck contract ctxArgs blockTimestamp)

section Runs

variable {α : Type} (notes : World W → α → List L)
  {f : World W → Except MachinePanic (World W × α)} {w : World (Logged L W)}

theorem run_ok {left : World W} {a : α} (h : f (forget w) = .ok (left, a)) :
    run notes f w = .ok (keep w left (notes (forget w) a), a) := by
  rw [run, h]

theorem run_error {p : MachinePanic} (h : f (forget w) = .error p) : run notes f w = .error p := by
  rw [run, h]

end Runs

/-- What a function that replied did without the log. -/
theorem run_eq_ok {α : Type} {notes : World W → α → List L}
    {f : World W → Except MachinePanic (World W × α)} {w w' : World (Logged L W)} {a : α}
    (h : run notes f w = .ok (w', a)) :
    f (forget w) = .ok (forget w', a) ∧ w'.wm.log = w.wm.log ++ notes (forget w) a := by
  rw [run] at h
  cases hf : f (forget w) with
  | error p =>
    rw [hf] at h
    cases h
  | ok out =>
    obtain ⟨left, b⟩ := out
    rw [hf] at h
    cases h
    exact ⟨rfl, rfl⟩

end Logged

namespace Execution

/-- The execution without the log. -/
def forget (s : Execution (Logged L W)) : Execution W :=
  ⟨s.wm.wm, s.drand, s.fork, s.executed, s.ran⟩

/-- The execution with an empty log. -/
def logged (s : Execution W) : Execution (Logged L W) :=
  ⟨⟨s.wm, []⟩, s.drand, s.fork, s.executed, s.ran⟩

end Execution

/-- A computation that does the same with a log. -/
abbrev SameLogged {α : Type} (x : Exec W α) (y : Exec (Logged L W) α) : Prop :=
  Lockstep (fun s s' => s'.forget = s) x y

namespace SameLogged

variable {α : Type}

theorem ofMachine (notes : World W → α → List L)
    (f : World W → Except MachinePanic (World W × α)) :
    SameLogged (Exec.ofMachine f) (Exec.ofMachine (Logged.run notes f)) := by
  rintro s s' rfl
  cases hf : f (Exec.world s'.forget) with
  | error p =>
    have hlogged := Logged.run_error notes (w := Exec.world s') hf
    rw [(ofMachine_error hf).1, (ofMachine_error hf).2, (ofMachine_error hlogged).1,
      (ofMachine_error hlogged).2]
    exact ⟨rfl, rfl⟩
  | ok left =>
    obtain ⟨w, a⟩ := left
    have hlogged := Logged.run_ok notes (w := Exec.world s') hf
    rw [(ofMachine_ok hf).1, (ofMachine_ok hf).2, (ofMachine_ok hlogged).1,
      (ofMachine_ok hlogged).2]
    exact ⟨rfl, rfl⟩

/-- The executor runs the same steps on both machines. -/
theorem congruence [Wm W] [Notes L W] :
    ExecutorCongruence fun {α} => SameLogged (α := α) (L := L) (W := W) where
  pure a := Lockstep.pure a
  throw e := Lockstep.throw e
  bind hx hf := Lockstep.bind hx hf
  get h := Lockstep.get fun s s' hs => h s s' (congrArg Execution.fork hs).symm
  modifyFork f := Lockstep.modify fun s s' h => by rw [← h]; rfl
  record part := Lockstep.modify fun s s' h => by rw [← h]; rfl
  opened hash := Lockstep.modify fun s s' h => by rw [← h]; rfl
  call args := ofMachine _ _
  appHashCheck contract ctxArgs blockTimestamp := ofMachine _ _

end SameLogged

/-! ## One log read from another -/

section Reading

variable {L' : Type} [Notes L W] [Notes L' W] {f : L → Option L'}

/-- Notes that can be read from other notes. -/
structure NotesRead (W : Type) [Notes L W] [Notes L' W] (f : L → Option L') : Prop where
  ofCall : ∀ args (w : World W) out,
    Notes.ofCall args w out = (Notes.ofCall args w out : List L).filterMap f
  ofCheck : ∀ contract ctxArgs blockTimestamp (w : World W) checked,
    Notes.ofCheck contract ctxArgs blockTimestamp w checked =
      (Notes.ofCheck contract ctxArgs blockTimestamp w checked : List L).filterMap f

/-- The execution with the log that is read from its own. -/
def Execution.readLog (f : L → Option L') (s : Execution (Logged L W)) : Execution (Logged L' W) :=
  ⟨⟨s.wm.wm, s.wm.log.filterMap f⟩, s.drand, s.fork, s.executed, s.ran⟩

/-- A computation that does the same with the log that is read from the other. -/
abbrev ReadsLog (f : L → Option L') {α : Type} (x : Exec (Logged L W) α)
    (y : Exec (Logged L' W) α) : Prop :=
  Lockstep (fun s s' => s.readLog f = s') x y

omit [Notes L W] [Notes L' W] in
theorem ReadsLog.ofMachine {α : Type} {notes : World W → α → List L}
    {notes' : World W → α → List L'} (read : ∀ w a, notes' w a = (notes w a).filterMap f)
    (g : World W → Except MachinePanic (World W × α)) :
    ReadsLog f (Exec.ofMachine (Logged.run notes g)) (Exec.ofMachine (Logged.run notes' g)) := by
  rintro s _ rfl
  cases hg : g (Logged.forget (Exec.world s)) with
  | error p =>
    have hlog := Logged.run_error notes (w := Exec.world s) hg
    have hread := Logged.run_error notes' (w := Exec.world (s.readLog f)) hg
    rw [(ofMachine_error hlog).1, (ofMachine_error hlog).2, (ofMachine_error hread).1,
      (ofMachine_error hread).2]
    exact ⟨rfl, rfl⟩
  | ok left =>
    obtain ⟨w, a⟩ := left
    have hlog := Logged.run_ok notes (w := Exec.world s) hg
    have hread := Logged.run_ok notes' (w := Exec.world (s.readLog f)) hg
    rw [(ofMachine_ok hlog).1, (ofMachine_ok hlog).2, (ofMachine_ok hread).1, (ofMachine_ok hread).2]
    refine ⟨rfl, ?_⟩
    have logs : (s.wm.log ++ notes (Exec.world s.forget) a).filterMap f =
        s.wm.log.filterMap f ++ notes' (Exec.world s.forget) a := by
      rw [List.filterMap_append, read]
    exact congrArg (fun log => Exec.setWorld (s.readLog f) ⟨⟨w.wm, log⟩, w.drand, w.accounts⟩) logs

/-- The executor runs the same steps with either log. -/
theorem ReadsLog.congruence [Wm W] (read : NotesRead W f) :
    ExecutorCongruence fun {α} => ReadsLog (α := α) (W := W) f where
  pure a := Lockstep.pure a
  throw e := Lockstep.throw e
  bind hx hf := Lockstep.bind hx hf
  get h := Lockstep.get fun s s' hs => h s s' (congrArg Execution.fork hs)
  modifyFork f := Lockstep.modify fun s s' h => by rw [← h]; rfl
  record part := Lockstep.modify fun s s' h => by rw [← h]; rfl
  opened hash := Lockstep.modify fun s s' h => by rw [← h]; rfl
  call args := ReadsLog.ofMachine (read.ofCall args) _
  appHashCheck contract ctxArgs blockTimestamp :=
    ReadsLog.ofMachine (read.ofCheck contract ctxArgs blockTimestamp) _

omit [Notes L W] [Notes L' W] in
theorem ReadsLog.log {α : Type} {x : Exec (Logged L W) α} {y : Exec (Logged L' W) α}
    (h : ReadsLog f x y) (s : Execution W) :
    (after y s.logged).wm.log = (after x s.logged).wm.log.filterMap f := by
  have same := (h s.logged s.logged rfl).2
  exact (congrArg (fun t : Execution (Logged L' W) => t.wm.log) same).symm

end Reading

/-- What a function of the machine notes is added to the log. -/
theorem ofMachine_log {α : Type} {notes : World W → α → List L}
    {f : World W → Except MachinePanic (World W × α)} {s : Execution (Logged L W)} {a : α}
    (h : result (Exec.ofMachine (Logged.run notes f)) s = .ok a) :
    (after (Exec.ofMachine (Logged.run notes f)) s).wm.log =
      s.wm.log ++ notes (Exec.world s.forget) a := by
  cases hlogged : Logged.run notes f (Exec.world s) with
  | error p =>
    rw [(ofMachine_error hlogged).2] at h
    cases h
  | ok left =>
    obtain ⟨w, b⟩ := left
    rw [(ofMachine_ok hlogged).2] at h
    cases h
    rw [(ofMachine_ok hlogged).1]
    exact (Logged.run_eq_ok hlogged).2

/-! ## The log of the node's machine -/

section Trees

variable [WasmEngine] [Primitives] [Merkle] [Pcg32] [WmCodec]

/-- The machine keeps the moments of its trees. -/
instance : Notes Moment WmLocal where
  ofCall args w _ := (WmLocal.tracer w.wm.stack).call args w
  ofCheck contract ctxArgs blockTimestamp w _ :=
    (WmLocal.tracer w.wm.stack).appHashCheck contract ctxArgs blockTimestamp w

abbrev NotedExecution := Execution (Logged Moment WmLocal)

/-- What is noted between two states. -/
def notedSince (s t : NotedExecution) : List Moment := t.wm.log.drop s.wm.log.length

end Trees

end Trinci
