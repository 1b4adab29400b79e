import Trinci.ExecutionLockstep
import Trinci.StepMachines

/-!
# Two nodes that execute the same block

A node may execute several proposals at a height before it consolidates one. What an
execution leaves behind on the node, whatever becomes of its fork, is the number that
was drawn last, which is part of the next seed, and the cached modules. Nothing else is
left: a block gives the same roots on two nodes with one database where each module it
looks up is the one that the proposals before met under the same hash, and where neither
node drew a number before if the block draws any.
-/

namespace Trinci

open StatefulSteps StepMachines Exec

section Determinism

variable [WasmEngine] [Primitives] [Merkle] [Pcg32] [WmCodec]

/-! ## What one node is left with -/

/-- The machine keeps its stack and holds modules of the kind only, and the seed source is
as it was unless numbers may be drawn. -/
structure Leaves (P : Hash → WasmEngine.Module → Prop) (drawn : Prop) (w w' : World WmLocal) :
    Prop where
  stack : w'.wm.stack = w.wm.stack
  cached : w.wm.Holds P → w'.wm.Holds P
  drand : ¬ drawn → w'.drand = w.drand

/-- A moment that compiles modules of the kind only, and draws a number only if that may
be. -/
structure Moment.Within (P : Hash → WasmEngine.Module → Prop) (drawn : Prop) (m : Moment) :
    Prop where
  compiles : ∀ target module, m.Compiles target module → P target module
  draws : m.Draws → drawn

variable {P : Hash → WasmEngine.Module → Prop} {drawn : Prop}

namespace Leaves

variable {u v w : World WmLocal}

omit [Primitives] [Merkle] [Pcg32] [WmCodec] in
theorem refl (w : World WmLocal) : Leaves P drawn w w := ⟨rfl, fun h => h, fun _ => rfl⟩

omit [Primitives] [Merkle] [Pcg32] [WmCodec] in
theorem trans (h : Leaves P drawn u v) (h' : Leaves P drawn v w) : Leaves P drawn u w where
  stack := h'.stack.trans h.stack
  cached held := h'.cached (h.cached held)
  drand undrawn := (h'.drand undrawn).trans (h.drand undrawn)

omit [Primitives] [Merkle] [Pcg32] [WmCodec] in
theorem setAccounts (h : Leaves P drawn u v) (accounts : Accounts) :
    Leaves P drawn u { v with accounts := accounts } :=
  ⟨h.stack, h.cached, h.drand⟩

end Leaves

omit [Primitives] [Pcg32] [WmCodec] in
/-- Only look-ups and draws leave anything. -/
theorem leaves_rule (P : Hash → WasmEngine.Module → Prop) (drawn : Prop) :
    TreeRule (fun w w' _ => Leaves P drawn w w') (fun _ w f => Leaves P drawn w f.world)
      (Moment.Within P drawn) where
  refl w := Leaves.refl w
  trans first second := first.trans second
  hushed moved := moved
  looked w target within := by
    refine ⟨w.wm.getModule_stack _ _, fun held => ?_, fun _ => rfl⟩
    exact WmLocal.getModule_holds held fun module hmodule =>
      within.compiles target module ⟨rfl, hmodule⟩
  start _ w := Leaves.refl w
  effect kept within effect := by
    have wm := effect.wm_eq
    refine ⟨wm ▸ kept.stack, wm ▸ kept.cached, fun undrawn => ?_⟩
    rw [effect.drand_eq fun draws => undrawn (within.draws draws)]
    exact kept.drand undrawn
  nested kept moved _ _ := kept.trans moved
  faulted kept _ := kept
  finished kept _ updated := by
    rw [WmLocal.updateDataHash] at updated
    split at updated
    · obtain ⟨account, -, rfl⟩ := Option.map_eq_some_iff.1 updated
      exact kept.setAccounts _
    · cases updated
      exact kept
  bound _ moved _ := moved.setAccounts _

/-- A computation that leaves only what it notes. -/
def Noting {α : Type} (P : Hash → WasmEngine.Module → Prop) (drawn : Prop)
    (x : Exec (Logged Moment WmLocal) α) : Prop :=
  ∀ s, ∃ moments, (after x s).wm.log = s.wm.log ++ moments ∧
    ((∀ m ∈ moments, m.Within P drawn) →
      Leaves P drawn (world s.forget) (world (after x s).forget))

namespace Noting

variable {α β : Type}

omit [Primitives] [Merkle] [Pcg32] [WmCodec] in
theorem still {x : Exec (Logged Moment WmLocal) α} (h : ∀ s, (after x s).wm = s.wm)
    (drand : ∀ s, (after x s).drand = s.drand) : Noting P drawn x := by
  intro s
  refine ⟨[], ?_, fun _ => ⟨?_, ?_, fun _ => drand s⟩⟩
  · rw [h, List.append_nil]
  · exact congrArg (fun wm => wm.wm.stack) (h s)
  · intro held
    have same : (world (after x s).forget).wm = (world s.forget).wm := congrArg Logged.wm (h s)
    rw [same]
    exact held

omit [Primitives] [Merkle] [Pcg32] [WmCodec] in
theorem bind {x : Exec (Logged Moment WmLocal) α} {f : α → Exec (Logged Moment WmLocal) β}
    (hx : Noting P drawn x) (hf : ∀ a, Noting P drawn (f a)) : Noting P drawn (x >>= f) := by
  intro s
  obtain ⟨moments, hlog, leaves⟩ := hx s
  cases h : result x s with
  | error e =>
    rw [(bind_error h).1]
    exact ⟨moments, hlog, leaves⟩
  | ok a =>
    obtain ⟨moments', hlog', leaves'⟩ := hf a (after x s)
    rw [(bind_ok h).1]
    refine ⟨moments ++ moments', ?_, fun within => ?_⟩
    · rw [hlog', hlog, List.append_assoc]
    · have first := leaves fun m hm => within m (List.mem_append_left _ hm)
      exact first.trans (leaves' fun m hm => within m (List.mem_append_right _ hm))

omit [Primitives] [Merkle] [Pcg32] [WmCodec] in
theorem ofMachine {notes : World WmLocal → α → List Moment}
    {run : World WmLocal → Except MachinePanic (World WmLocal × α)}
    (hrun : ∀ {w left a}, run w = .ok (left, a) → (∀ m ∈ notes w a, m.Within P drawn) →
      Leaves P drawn w left) : Noting P drawn (Exec.ofMachine (Logged.run notes run)) := by
  intro s
  cases hlogged : Logged.run notes run (world s) with
  | error p =>
    rw [(ofMachine_error hlogged).1]
    exact ⟨[], (List.append_nil _).symm, fun _ => Leaves.refl _⟩
  | ok out =>
    obtain ⟨w, a⟩ := out
    obtain ⟨hran, hlog⟩ := Logged.run_eq_ok hlogged
    rw [(ofMachine_ok hlogged).1]
    refine ⟨_, hlog, fun within => ?_⟩
    exact (hrun hran within).setAccounts _

theorem congruence (P : Hash → WasmEngine.Module → Prop) (drawn : Prop) :
    ExecutorCongruence fun {α} (x : Exec (Logged Moment WmLocal) α)
      (_ : Exec (Logged Moment WmLocal) α) => Noting P drawn x where
  pure _ := still (fun _ => rfl) fun _ => rfl
  throw _ := still (fun _ => rfl) fun _ => rfl
  bind := bind
  get h s := h s s rfl s
  modifyFork _ := still (fun _ => rfl) fun _ => rfl
  record _ := still (fun _ => rfl) fun _ => rfl
  opened _ := still (fun _ => rfl) fun _ => rfl
  call _ := ofMachine fun {w _ _} hw within =>
    ((leaves_rule P drawn).machine_relates w.wm.stack).call within hw
  appHashCheck _ _ _ := ofMachine fun {w _ _} hw within =>
    ((leaves_rule P drawn).machine_relates w.wm.stack).appHashCheck within hw

end Noting

/-! ## Proposals -/

variable [NodeCodec]

namespace WasmService

/-- The moments of a block that is executed on a node. -/
def moments (s : WasmService WmLocal) (block : Block) (txs : List Transaction)
    (expectedLeader : Option String) : List Moment :=
  (after (s.config.executeInFork block txs expectedLeader) s.begin.logged).wm.log

/-- The moments of an input. A block at the height of a stored one is not executed. -/
def momentsOf (s : WasmService WmLocal) : WasmInput → List Moment
  | .executeBlock block _ txs expectedLeader =>
    if (s.db.loadBlock block.data.height).isSome then [] else s.moments block txs expectedLeader
  | _ => []

end WasmService

variable {s s' t t' : WasmService WmLocal}

/-- The machine and the seed source that a block leaves. -/
theorem executeInFork_leaves (s : WasmService WmLocal) (block : Block) (txs : List Transaction)
    (expectedLeader : Option String)
    (within : ∀ m ∈ s.moments block txs expectedLeader, m.Within P drawn) :
    Leaves P drawn (world s.begin)
      (world (after (s.config.executeInFork block txs expectedLeader) s.begin)) := by
  have same := WasmConfig.executeInFork_related (SameLogged.congruence (L := Moment))
    (SameNetwork.refl s.config) txs (rfl : s.config.noteLeader block expectedLeader = _)
    s.begin s.begin.logged rfl
  have noting := WasmConfig.executeInFork_related (Noting.congruence P drawn)
    (SameNetwork.refl s.config) txs (rfl : s.config.noteLeader block expectedLeader = _)
  obtain ⟨moments, hlog, leaves⟩ := noting s.begin.logged
  have log : s.moments block txs expectedLeader = moments := hlog.trans (List.nil_append _)
  rw [log] at within
  rw [← same.2]
  exact leaves within

/-- What the executions of a height leave on a node. -/
structure Kept (P : Hash → WasmEngine.Module → Prop) (drawn : Prop)
    (s t : WasmService WmLocal) : Prop where
  config : t.config = s.config
  db : t.db = s.db
  leaves : Leaves P drawn (world s.begin) (world t.begin)

namespace Kept

omit [Primitives] [Merkle] [Pcg32] [WmCodec] [NodeCodec] in
theorem refl (s : WasmService WmLocal) : Kept P drawn s s := ⟨rfl, rfl, Leaves.refl _⟩

omit [Primitives] [Merkle] [Pcg32] [WmCodec] [NodeCodec] in
theorem trans {u : WasmService WmLocal} (h : Kept P drawn s t) (h' : Kept P drawn t u) :
    Kept P drawn s u :=
  ⟨h'.config.trans h.config, h'.db.trans h.db, h.leaves.trans h'.leaves⟩

end Kept

/-- What a node is asked at a height before it consolidates a block. -/
inductive Proposed : WasmInput → Prop
  | executeBlock (block : Block) (round : UInt8) (txs : List Transaction)
      (expectedLeader : Option String) :
      Proposed (.executeBlock block round txs expectedLeader)
  | getDRandNum (max : UInt64) : Proposed (.getDRandNum max)

abbrev ServiceEvent := Event (WasmService WmLocal) WasmInput WasmOutput

omit [WasmEngine] [Primitives] [Merkle] [Pcg32] [WmCodec] [NodeCodec] in
theorem loadBlock_genesis {db : Db} (h : db.blocks ≠ []) : (db.loadBlock 0).isSome := by
  obtain ⟨block, blocks, hblocks⟩ := List.exists_cons_of_ne_nil h
  rw [Db.loadBlock, if_neg (by decide), hblocks]
  rfl

variable [Serialize BlockData]

/-- Above the genesis block an execution only collects its fork. -/
theorem executeBlock_keeps (consolidated : s.db.blocks ≠ []) {block : Block} {round : UInt8}
    {txs : List Transaction} {expectedLeader : Option String}
    (within : ∀ m ∈ s.momentsOf (.executeBlock block round txs expectedLeader), m.Within P drawn)
    {ok : Bool} {out : List WasmOutput}
    (h : s.executeBlock block round txs expectedLeader = .ok (ok, t, out)) : Kept P drawn s t := by
  have done (new : ¬ (s.db.loadBlock block.data.height).isSome = true) :
      ∀ forks, Kept P drawn s { s with
        forksCollector := forks
        wm := (after (s.config.executeInFork block txs expectedLeader) s.begin).wm
        drand := (after (s.config.executeInFork block txs expectedLeader) s.begin).drand } := by
    rw [WasmService.momentsOf, if_neg new] at within
    have leaves := executeInFork_leaves s block txs expectedLeader within
    exact fun _ => ⟨rfl, rfl, leaves.setAccounts _⟩
  cases WasmService.executeBlock_outcome h with
  | stored _ => exact Kept.refl s
  | failed absent _ => exact done (Bool.eq_false_iff.mp absent) s.forksCollector
  | executed absent _ hdone outcome =>
    cases hdone
    have new := Bool.eq_false_iff.mp absent
    have height : 0 < block.data.height := by
      rw [UInt64.pos_iff_ne_zero]
      intro zero
      rw [zero] at new
      exact new (loadBlock_genesis consolidated)
    cases outcome with
    | announced _ => exact done new _
    | rejected _ _ _ => exact done new s.forksCollector
    | confirmed _ _ _ _ _ => exact done new _
    | settled _ genesis _ => exact absurd height genesis

/-- What one input leaves. -/
theorem handle_keeps (consolidated : s.db.blocks ≠ []) {input : WasmInput}
    (proposed : Proposed input) (within : ∀ m ∈ s.momentsOf input, m.Within P drawn)
    (draws : ∀ max, input = .getDRandNum max → drawn) {out : List WasmOutput}
    (h : s.handle input = .ok (t, out)) : Kept P drawn s t := by
  cases proposed with
  | executeBlock block round txs expectedLeader =>
    obtain ⟨⟨ok, executed, sent⟩, hexec, hok⟩ := bind_eq_ok.mp h
    cases hok
    exact executeBlock_keeps consolidated within hexec
  | getDRandNum max =>
    cases h
    exact ⟨rfl, rfl, rfl, fun held => held, fun undrawn => absurd (draws max rfl) undrawn⟩

end Determinism

/-! ## A lottery after a lottery -/

namespace Sample

section Lottery

/-- A contract that draws a number and returns it. -/
def drawing (fuel : UInt64) : Contract (Option Bytes) :=
  .ask ⟨.instantiated, fuel⟩ fun _ => .ask ⟨.drand 255, fuel⟩ fun answer =>
    match answer.value with
    | .num n => .done ⟨answer.fuel, .ok (some [1, n.toUInt8])⟩
    | _ => .done ⟨answer.fuel, .ok (some [1])⟩

/-- Code is compiled to whether it is that of a lottery. Other contracts return at once. -/
local instance lotteryEngine : WasmEngine where
  Module := Bool
  new code := .ok (code == [2])
  run lottery _ _ fuel := if lottery then drawing fuel else .done ⟨fuel, .ok (some [1])⟩
  isCallable _ _ _ fuel := .done ⟨fuel, .ok 1⟩

/-- A node of the network, with a shop and a lottery. -/
def playground (nodeId : String) : WasmService WmLocal where
  config := { config with nodeId := nodeId }
  db := { Db.empty with
    accounts := deployed [("shop", 1), ("lottery", 2)]
    blocks := [⟨⟨none, 0, 0, Hash.default, Hash.default, Hash.default, Hash.default, 0⟩, []⟩]
    confirmations := [[]] }
  forksCollector := ∅
  wm := freshWm 2
  drand := SeedSource.new [] [] Hash.default Hash.default Hash.default
  executed := []
  ran := []

def secondBlock : Block where
  data := ⟨some (keypair 1).publicKey, 1, 1, Hash.default, Hash.default, Hash.default,
    Hash.default, 0⟩
  signature := []

/-- A call of the lottery. -/
def play : Transaction :=
  .unitTransaction (signed (keypair 1)
    (.v1 { request 1 (keypair 1).publicKey with account := "lottery" }))

/-- The events of a node that executed one proposal. -/
def proposals (nodeId : String) (tx : Transaction) : List ServiceEvent :=
  traceOf WasmService.handle (playground nodeId) [.executeBlock secondBlock 0 [tx] none]

def undrawn : Moment → Bool
  | .asked _ _ ⟨.drand _, _⟩ _ => false
  | _ => true

end Lottery

end Sample

end Trinci
