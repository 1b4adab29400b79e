import Trinci.MachineLogs
import Trinci.WmDeterminism

/-!
# The executor on two nodes

The executor of one node keeps notes and that of another follows it: as long as what is
noted is repeatable, the second returns what the first returns, over the same fork. The
nodes may differ in their names and in what their machines keep.
-/

namespace Trinci

open StatefulSteps Exec HostPrograms

section Lockstep

variable [WasmEngine] [Primitives] [Merkle] [Pcg32] [WmCodec]

/-- An execution that keeps notes, in step with one on another node. -/
structure InStep (past : Past) (s : NotedExecution) (s' : Execution WmLocal) : Prop where
  world : Agree past s.wm.log (world s.forget) (world s')
  fork : s.fork = s'.fork

/-- As long as what is noted is repeatable, the second computation returns what the first
returns and stays in step. -/
structure Follows {α : Type} (past : Past) (x : Exec (Logged Moment WmLocal) α)
    (y : Exec WmLocal α) : Prop where
  grows : ∀ s, s.wm.log <+: (after x s).wm.log
  follows : ∀ {s s' a}, InStep past s s' → Repeatable past (after x s).wm.log →
    result x s = .ok a → result y s' = .ok a ∧ InStep past (after x s) (after y s')

variable {past : Past}

omit [Primitives] [Merkle] [Pcg32] [WmCodec] in
theorem Repeatable.of_prefix {xs ys : List Moment} (h : Repeatable past ys) (le : xs <+: ys) :
    Repeatable past xs := by
  obtain ⟨later, rfl⟩ := le
  exact h.left

namespace Follows

variable {α β : Type}

omit [Primitives] [Merkle] [Pcg32] [WmCodec] in
theorem pure (a : α) : Follows past (pure a) (pure a) where
  grows _ := List.prefix_rfl
  follows hs _ ha := ⟨ha, hs⟩

omit [Primitives] [Merkle] [Pcg32] [WmCodec] in
theorem throw (e : Stop) :
    Follows past (throw e : Exec (Logged Moment WmLocal) α) (throw e) where
  grows _ := List.prefix_rfl
  follows _ _ ha := by cases ha

omit [Primitives] [Merkle] [Pcg32] [WmCodec] in
theorem bind {x : Exec (Logged Moment WmLocal) α} {y : Exec WmLocal α}
    {f : α → Exec (Logged Moment WmLocal) β} {g : α → Exec WmLocal β} (hx : Follows past x y)
    (hf : ∀ a, Follows past (f a) (g a)) : Follows past (x >>= f) (y >>= g) := by
  constructor
  · intro s
    cases h : result x s with
    | error e =>
      rw [(bind_error h).1]
      exact hx.grows s
    | ok a =>
      rw [(bind_ok h).1]
      exact (hx.grows s).trans ((hf a).grows _)
  · intro s s' b hs good hb
    obtain ⟨a, ha, hb, hafter⟩ := of_bind_ok hb
    rw [hafter] at good ⊢
    have first := good.of_prefix ((hf a).grows (after x s))
    obtain ⟨hy, hstates⟩ := hx.follows hs first ha
    obtain ⟨hg, hstates'⟩ := (hf a).follows hstates good hb
    rw [(bind_ok hy).1, (bind_ok hy).2]
    exact ⟨hg, hstates'⟩

omit [Primitives] [Merkle] [Pcg32] [WmCodec] in
/-- Both go on with their states, which have one fork. -/
theorem get {f : NotedExecution → Exec (Logged Moment WmLocal) β}
    {g : Execution WmLocal → Exec WmLocal β}
    (h : ∀ s s', s.fork = s'.fork → Follows past (f s) (g s')) :
    Follows past (get >>= f) (get >>= g) where
  grows s := (h s s.forget rfl).grows s
  follows {s s' _} hs good ha := (h s s' hs.fork).follows hs good ha

omit [Primitives] [Merkle] [Pcg32] [WmCodec] in
theorem modify {f : NotedExecution → NotedExecution} {g : Execution WmLocal → Execution WmLocal}
    (log : ∀ s, (f s).wm.log = s.wm.log)
    (h : ∀ s s', InStep past s s' → InStep past (f s) (g s')) :
    Follows past (modify f) (modify g) where
  grows s := by
    rw [after_modify, log]
  follows hs _ ha := ⟨ha, h _ _ hs⟩

omit [Primitives] [Merkle] [Pcg32] [WmCodec] in
/-- A function of the machine that keeps worlds in step. -/
theorem ofMachine {notes : World WmLocal → α → List Moment}
    {run : World WmLocal → Except MachinePanic (World WmLocal × α)}
    (hrun : ∀ {earlier w w' left a}, Agree past earlier w w' → run w = .ok (left, a) →
      Repeatable past (earlier ++ notes w a) →
      ∃ left', run w' = .ok (left', a) ∧ Agree past (earlier ++ notes w a) left left') :
    Follows past (Exec.ofMachine (Logged.run notes run)) (Exec.ofMachine run) := by
  constructor
  · intro s
    cases hresult : result (Exec.ofMachine (Logged.run notes run)) s with
    | ok a =>
      rw [ofMachine_log hresult]
      exact List.prefix_append ..
    | error e =>
      cases hlogged : Logged.run notes run (world s) with
      | error p =>
        rw [(ofMachine_error hlogged).1]
      | ok left =>
        rw [(ofMachine_ok hlogged).2] at hresult
        cases hresult
  · intro s s' a hs good ha
    cases hlogged : Logged.run notes run (world s) with
    | error p =>
      rw [(ofMachine_error hlogged).2] at ha
      cases ha
    | ok out =>
      obtain ⟨w, b⟩ := out
      rw [ofMachine_log ha] at good
      rw [(ofMachine_ok hlogged).2] at ha
      cases ha
      obtain ⟨hfirst, hlog⟩ := Logged.run_eq_ok hlogged
      obtain ⟨left', hsecond, hworld⟩ := hrun hs.world hfirst good
      rw [(ofMachine_ok hlogged).1, (ofMachine_ok hsecond).1, (ofMachine_ok hsecond).2]
      have log : (setWorld s w).wm.log = s.wm.log ++ notes (world s.forget) a := hlog
      refine ⟨rfl, ?_, ?_⟩
      · rw [log]
        exact ⟨hworld.accounts, hworld.stack, hworld.cached, hworld.cached', hworld.drand⟩
      · have accounts : w.accounts = left'.accounts := hworld.accounts
        change s.fork.setAccounts w.accounts = s'.fork.setAccounts left'.accounts
        rw [hs.fork, accounts]

omit [Primitives] [Merkle] [Pcg32] [WmCodec] in
/-- What two machines in step come to. -/
theorem of_outcomes {later : List Moment}
    {x y : Except MachinePanic (World WmLocal × α)} {left : World WmLocal} {a : α}
    (outcomes : Outcomes (Alike past later) x y) (hx : x = .ok (left, a)) :
    ∃ left', y = .ok (left', a) ∧ Agree past later left left' := by
  subst hx
  generalize hx : (Except.ok (left, a) : Except MachinePanic (World WmLocal × α)) = x at outcomes
  cases outcomes with
  | stopped p => cases hx
  | @ended out out' hout =>
    cases hx
    obtain ⟨left', b⟩ := out'
    obtain ⟨hsame, hworld⟩ := hout
    obtain rfl : a = b := hsame
    exact ⟨left', rfl, hworld⟩

/-- The executor of one node follows that of another. -/
theorem congruence (past : Past) : ExecutorCongruence fun {α} => Follows (α := α) past where
  pure := pure
  throw := throw
  bind := bind
  get := get
  modifyFork f := by
    refine modify (fun s => rfl) fun s s' hs => ?_
    have fork : f s.fork = f s'.fork := congrArg f hs.fork
    exact ⟨⟨congrArg DbFork.accounts fork, hs.world.stack, hs.world.cached, hs.world.cached',
      hs.world.drand⟩, fork⟩
  record part := modify (fun s => rfl) fun s s' hs => ⟨hs.world, hs.fork⟩
  opened hash := modify (fun s => rfl) fun s s' hs => ⟨hs.world, hs.fork⟩
  call args := by
    refine ofMachine fun {earlier w w' left a} h hw good => ?_
    have outcomes := (machine_keepsStep past w.wm.stack).call h good
    obtain ⟨left', hleft, hworld⟩ := of_outcomes outcomes hw
    rw [h.stack] at hleft
    exact ⟨left', hleft, hworld⟩
  appHashCheck contract ctxArgs blockTimestamp := by
    refine ofMachine fun {earlier w w' left a} h hw good => ?_
    have outcomes := (machine_keepsStep past w.wm.stack).appHashCheck h good
    obtain ⟨left', hleft, hworld⟩ := of_outcomes outcomes hw
    rw [h.stack] at hleft
    exact ⟨left', hleft, hworld⟩

end Follows

end Lockstep

end Trinci
