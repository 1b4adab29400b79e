import Trinci.CachedModules
import Trinci.CallTrees
import Trinci.StepMachines

/-!
# The cache of modules over a history of calls

The machine keeps a compiled module under the hash of its contract and never looks at
the database again while it has one. The forks that calls ran on may be dropped or
rolled back, and what was compiled from them stays. A look-up gives what it would give
with an empty cache exactly when the cache holds nothing else for the contract; after a
history it does where every look-up that compiled the contract found the code that the
database has.
-/

namespace Trinci

open HostPrograms StepMachines

section Cache

variable [WasmEngine]

/-- A look-up that depends on the database alone: it succeeds exactly if there is code,
with the module of that code, as with an empty cache. -/
structure Transparent (wm : WmLocal) (db : Accounts) (hash : Hash) : Prop where
  succeeds : (∃ module, (wm.getModule db hash).2 = .ok module) ↔
    ∃ wasmBin, db.codeOf hash = some wasmBin
  yields : ∀ module wasmBin, (wm.getModule db hash).2 = .ok module →
    db.codeOf hash = some wasmBin → WasmEngine.new wasmBin = .ok module
  uncached : (wm.getModule db hash).2 = (({ wm with cache := ∅ } : WmLocal).getModule db hash).2

/-- The code of the contract, if there is any, compiles. -/
def Compiles (db : Accounts) (hash : Hash) : Prop :=
  ∀ wasmBin, db.codeOf hash = some wasmBin →
    ∃ module : WasmEngine.Module, WasmEngine.new wasmBin = .ok module

/-- Whatever the cache holds for the contract was compiled from the code that the
database has. -/
def Coherent (db : Accounts) (hash : Hash) (wm : WmLocal) : Prop :=
  ∀ entry, wm.cache.lookup hash = some entry → compiled db.codeOf hash = .ok entry.module

/-- A look-up is transparent exactly where the code compiles and the cache holds
nothing else. -/
theorem transparent_iff {wm : WmLocal} {db : Accounts} {hash : Hash} :
    Transparent wm db hash ↔ Compiles db hash ∧ Coherent db hash wm := by
  have empty : (({ wm with cache := ∅ } : WmLocal).getModule db hash).2 =
      compiled db.codeOf hash := WmLocal.getModule_of_none (AList.lookup_empty hash)
  constructor
  · intro h
    have same := h.uncached.trans empty
    constructor
    · intro wasmBin hcode
      obtain ⟨module, hmodule⟩ := h.succeeds.2 ⟨wasmBin, hcode⟩
      exact ⟨module, h.yields module wasmBin hmodule hcode⟩
    · intro entry hentry
      rw [← same, WmLocal.getModule_of_some hentry]
  · rintro ⟨compiles, coherent⟩
    have same : (wm.getModule db hash).2 = compiled db.codeOf hash := by
      cases hcached : wm.cache.lookup hash with
      | none => exact WmLocal.getModule_of_none hcached
      | some entry => rw [WmLocal.getModule_of_some hcached, coherent entry hcached]
    constructor
    · rw [same]
      constructor
      · rintro ⟨module, hmodule⟩
        obtain ⟨wasmBin, hcode, -⟩ := compiled_eq_ok_iff.1 hmodule
        exact ⟨wasmBin, hcode⟩
      · rintro ⟨wasmBin, hcode⟩
        obtain ⟨module, hnew⟩ := compiles wasmBin hcode
        exact ⟨module, compiled_eq_ok_iff.2 ⟨wasmBin, hcode, hnew⟩⟩
    · intro module wasmBin hmodule hcode
      obtain ⟨found, hfound, hnew⟩ := compiled_eq_ok_iff.1 (same.symm.trans hmodule)
      rw [hcode] at hfound
      cases hfound
      exact hnew
    · rw [same, empty]

/-! ## What look-ups leave in the cache -/

theorem coherent_iff_holds {wm : WmLocal} {db : Accounts} {hash : Hash} :
    Coherent db hash wm ↔
      wm.Holds fun target module => target = hash → compiled db.codeOf hash = .ok module := by
  constructor
  · intro h target entry hentry heq
    subst heq
    exact h entry hentry
  · intro h entry hentry
    exact h hash entry hentry rfl

/-- A look-up of the contract that compiles it finds the code that the database has. -/
def SameCode (db : Accounts) (hash : Hash) : Moment → Prop
  | .looked accounts target => target = hash →
    ∀ module : WasmEngine.Module, compiled accounts.codeOf hash = .ok module →
      compiled db.codeOf hash = .ok module
  | _ => True

theorem getModule_coherent {wm : WmLocal} {db accounts : Accounts} {hash target : Hash}
    (h : Coherent db hash wm) (same : SameCode db hash (.looked accounts target)) :
    Coherent db hash (wm.getModule accounts target).1 := by
  rw [coherent_iff_holds] at h ⊢
  refine WmLocal.getModule_holds h fun module hmodule heq => ?_
  subst heq
  exact same rfl module hmodule

/-! ## Histories -/

variable [Primitives] [Merkle] [Pcg32] [WmCodec]

/-- What a machine is asked to do, on a fork of its own each time. -/
inductive WmInput
  | call (args : CallArgs) (drand : SeedSource) (fork : Accounts)
  | callableCall (args : CallArgs) (drand : SeedSource) (fork : Accounts)
  | appHashCheck (appHash : Option Hash) (ctxArgs : CtxArgs) (blockTimestamp : UInt64)
      (drand : SeedSource) (fork : Accounts)

namespace WmInput

/-- The machine afterwards. The fork is dropped. -/
def run (wm : WmLocal) : WmInput → Except MachinePanic WmLocal
  | .call args drand fork =>
    ((WmLocal.machine wm.stack).call args ⟨wm, drand, fork⟩).map fun left => left.1.wm
  | .callableCall args drand fork =>
    ((WmLocal.machine wm.stack).callableCall args ⟨wm, drand, fork⟩).map fun left => left.1.wm
  | .appHashCheck appHash ctxArgs blockTimestamp drand fork =>
    ((WmLocal.machine wm.stack).appHashCheck appHash ctxArgs blockTimestamp
      ⟨wm, drand, fork⟩).map fun left => left.1.wm

def moments (wm : WmLocal) : WmInput → List Moment
  | .call args drand fork => (WmLocal.tracer wm.stack).call args ⟨wm, drand, fork⟩
  | .callableCall args drand fork => (WmLocal.tracer wm.stack).callableCall args ⟨wm, drand, fork⟩
  | .appHashCheck appHash ctxArgs blockTimestamp drand fork =>
    (WmLocal.tracer wm.stack).appHashCheck appHash ctxArgs blockTimestamp ⟨wm, drand, fork⟩

end WmInput

/-- One machine that goes on as long as nothing panics. -/
def wmStep (wm : WmLocal) (input : WmInput) (_ : List Unit) (wm' : WmLocal) : Prop :=
  input.run wm = .ok wm'

omit [Primitives] [Pcg32] [WmCodec] in
/-- Nothing but look-ups changes the cache. -/
theorem coherent_rule (db : Accounts) (hash : Hash) :
    TreeRule (fun w w' _ => Coherent db hash w.wm → Coherent db hash w'.wm)
      (fun _ w f => Coherent db hash w.wm → Coherent db hash f.world.wm) (SameCode db hash) where
  refl _ h := h
  trans first second h := second (first h)
  hushed moved := moved
  looked _ _ same h := getModule_coherent h same
  start _ _ h := h
  effect kept _ effect h := by
    have wm := effect.wm_eq
    exact wm ▸ kept h
  nested kept moved _ _ h := moved (kept h)
  faulted kept _ h := kept h
  finished kept _ updated h := by
    rw [WmLocal.updateDataHash] at updated
    split at updated
    · obtain ⟨account, -, rfl⟩ := Option.map_eq_some_iff.1 updated
      exact kept h
    · cases updated
      exact kept h
  bound _ moved _ h := moved h

/-- The cache stays coherent over a history whose look-ups find the same code. -/
theorem history_coherent {start wm : WmLocal} {db : Accounts} {hash : Hash}
    {trace : List (Event WmLocal WmInput Unit)} (history : Run wmStep start trace wm)
    (same : Along (fun _ e => ∀ m ∈ e.input.moments e.before, SameCode db hash m) trace)
    (h : Coherent db hash start) : Coherent db hash wm := by
  induction history with
  | nil => exact h
  | @snoc trace s s' input out _ step ih =>
    obtain ⟨before, now⟩ := along_snoc.1 same
    have rule := (coherent_rule db hash).machine_relates s.stack
    have hs := ih before
    cases input with
    | call args drand fork =>
      obtain ⟨left, hleft, rfl⟩ := of_map_ok step
      exact rule.call now hleft hs
    | callableCall args drand fork =>
      obtain ⟨left, hleft, rfl⟩ := of_map_ok step
      exact rule.callableCall now hleft hs
    | appHashCheck appHash ctxArgs blockTimestamp drand fork =>
      obtain ⟨left, hleft, rfl⟩ := of_map_ok step
      exact rule.appHashCheck now hleft hs

/-- After every history of a machine that started with an empty cache, a look-up in a
database is transparent if its code compiles and every earlier look-up of the contract
that compiled it found the code that the database has. -/
theorem getModule_transparent {start wm : WmLocal} (empty : start.cache = ∅)
    {trace : List (Event WmLocal WmInput Unit)} (history : Run wmStep start trace wm)
    (db : Accounts) (hash : Hash) (compiles : Compiles db hash)
    (same : Along (fun _ e => ∀ m ∈ e.input.moments e.before, SameCode db hash m) trace) :
    Transparent wm db hash := by
  have nothing : Coherent db hash start := by
    intro entry hentry
    rw [empty, AList.lookup_empty] at hentry
    cases hentry
  exact transparent_iff.2 ⟨compiles, history_coherent history same nothing⟩

end Cache

/-! ## A module from a dropped fork -/

namespace Sample

section Dropped

/-- Every code compiles to a contract that does nothing. -/
local instance idleEngine : WasmEngine := scripted fun _ => .ok ⟨[], [], .ok [1]⟩

/-- A call of a contract in a fork that has its code. -/
def firstCall : WmInput :=
  .call (callOf "shop" 1 1000) (SeedSource.new [] [] Hash.default Hash.default Hash.default)
    (deployed [("shop", 1)])

def afterFirstCall : WmLocal :=
  match firstCall.run (freshWm 1) with
  | .ok wm => wm
  | .error _ => freshWm 1

def firstHistory : List (Event WmLocal WmInput Unit) :=
  [⟨freshWm 1, firstCall, [], afterFirstCall⟩]

theorem firstHistory_run : Run wmStep (freshWm 1) firstHistory afterFirstCall := by
  have step : wmStep (freshWm 1) firstCall [] afterFirstCall := rfl
  exact Run.snoc .nil step

/-- The fork is consolidated: the database has the code. -/
theorem consolidated_lookup : Transparent afterFirstCall (deployed [("shop", 1)]) (contractHash 1) := by
  refine getModule_transparent rfl firstHistory_run _ _ (fun wasmBin _ => ⟨_, rfl⟩) ?_
  refine along_snoc.2 ⟨along_nil _, fun m hm => ?_⟩
  change m ∈ [Moment.looked _ _, Moment.asked _ _ _ _, Moment.left _ _ _ _] at hm
  simp only [List.mem_cons, List.not_mem_nil, or_false] at hm
  rcases hm with rfl | rfl | rfl
  · exact fun _ module h => h
  · trivial
  · trivial

/-- The fork is dropped: the database has no code, and the machine has a module. -/
theorem dropped_lookup : Run wmStep (freshWm 1) firstHistory afterFirstCall ∧
    (freshWm 1).cache = ∅ ∧ (deployed []).codeOf (contractHash 1) = none ∧
    ¬ Transparent afterFirstCall (deployed []) (contractHash 1) := by
  refine ⟨firstHistory_run, rfl, rfl, fun transparent => ?_⟩
  have found : ∃ module, (afterFirstCall.getModule (deployed []) (contractHash 1)).2 = .ok module :=
    ⟨_, rfl⟩
  obtain ⟨wasmBin, hcode⟩ := transparent.succeeds.1 found
  cases hcode

end Dropped

end Sample

end Trinci
