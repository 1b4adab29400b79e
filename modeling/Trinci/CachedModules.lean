import Trinci.WmLocal

/-!
# What the cache of modules holds

A module that is cached for a contract is returned without a look at the database. All
that is cached has a property of modules if it had it before and every module that is
compiled has it. A look-up gives what is compiled from the database if whatever may be
cached for the contract is compiled from there.
-/

namespace Trinci

section Cache

variable [WasmEngine]

/-- The module of a contract, compiled from its code. -/
def compiled (code : Hash → Option Bytes) (target : Hash) :
    Except WasmError WasmEngine.Module :=
  match code target with
  | none => .error (.resourceNotFound "smart contract not found")
  | some wasmBin =>
    match WasmEngine.new wasmBin with
    | .error e => .error (.resourceNotFound e)
    | .ok module => .ok module

/-- A module that was compiled was compiled from code. -/
theorem compiled_eq_ok_iff {code : Hash → Option Bytes} {hash : Hash}
    {module : WasmEngine.Module} :
    compiled code hash = .ok module ↔
      ∃ wasmBin, code hash = some wasmBin ∧ WasmEngine.new wasmBin = .ok module := by
  rw [compiled]
  cases code hash with
  | none => simp
  | some wasmBin =>
    cases hnew : (WasmEngine.new wasmBin : Except String WasmEngine.Module) with
    | error e => simp [hnew]
    | ok found => simp [hnew]

namespace WmLocal

/-- Every cached module has the property. -/
def Holds (P : Hash → WasmEngine.Module → Prop) (wm : WmLocal) : Prop :=
  ∀ target entry, wm.cache.lookup target = some entry → P target entry.module

variable {P Q : Hash → WasmEngine.Module → Prop} {wm : WmLocal} {accounts : Accounts}
  {target : Hash}

namespace Holds

theorem imp (h : wm.Holds P) (weaken : ∀ target module, P target module → Q target module) :
    wm.Holds Q :=
  fun target entry hentry => weaken target entry.module (h target entry hentry)

theorem erase (h : wm.Holds P) (target : Hash) :
    ({ wm with cache := wm.cache.erase target } : WmLocal).Holds P := by
  intro hash entry hentry
  by_cases heq : hash = target
  · subst heq
    simp at hentry
  · rw [AList.lookup_erase_ne heq] at hentry
    exact h hash entry hentry

theorem evict (h : wm.Holds P) : wm.evict.Holds P := by
  rw [WmLocal.evict]
  split
  · split
    · exact h
    · exact h.erase _
  · exact h

theorem insert (h : wm.Holds P) {e : CachedModule} (hentry : P target e.module) :
    ({ wm with cache := wm.cache.insert target e } : WmLocal).Holds P := by
  intro hash found hfound
  by_cases heq : hash = target
  · subst heq
    rw [AList.lookup_insert] at hfound
    cases hfound
    exact hentry
  · rw [AList.lookup_insert_ne heq] at hfound
    exact h hash found hfound

theorem touch (h : wm.Holds P) {module : WasmEngine.Module} (hmodule : P target module) :
    (wm.touch target module).Holds P := by
  have inserted := h.insert (e := ⟨module, wm.clock wm.reads⟩) hmodule
  exact fun hash entry hentry => inserted hash entry hentry

end Holds

/-- Without an entry the module is the one of the code in the database. -/
theorem getModule_of_none (hnone : wm.cache.lookup target = none) :
    (wm.getModule accounts target).2 = compiled accounts.codeOf target := by
  rw [getModule, hnone, loadModule, compiled]
  cases accounts.codeOf target with
  | none => rfl
  | some wasmBin =>
    cases hnew : (WasmEngine.new wasmBin : Except String WasmEngine.Module) with
    | error e => simp only [hnew]
    | ok module => simp only [hnew]

theorem getModule_of_some {entry : CachedModule} (hsome : wm.cache.lookup target = some entry) :
    (wm.getModule accounts target).2 = .ok entry.module := by
  rw [getModule, hsome]

/-- A look-up whose cached module, if there is one, is compiled from the database. -/
theorem getModule_finds (h : wm.Holds P)
    (found : ∀ module, P target module → compiled accounts.codeOf target = .ok module) :
    (wm.getModule accounts target).2 = compiled accounts.codeOf target := by
  cases hcached : wm.cache.lookup target with
  | none => exact getModule_of_none hcached
  | some entry => rw [getModule_of_some hcached, found entry.module (h target entry hcached)]

/-- A look-up adds at most the module that it compiles. -/
theorem getModule_holds (h : wm.Holds P)
    (compiles : ∀ module, compiled accounts.codeOf target = .ok module → P target module) :
    (wm.getModule accounts target).1.Holds P := by
  rw [getModule]
  cases hcached : wm.cache.lookup target with
  | some entry => exact h.touch (h target entry hcached)
  | none =>
    rw [loadModule]
    cases hcode : accounts.codeOf target with
    | none => exact h.evict
    | some wasmBin =>
      cases hnew : (WasmEngine.new wasmBin : Except String WasmEngine.Module) with
      | error e =>
        simp only [hnew]
        exact h.evict
      | ok module =>
        simp only [hnew]
        have hmodule := compiles module (compiled_eq_ok_iff.2 ⟨wasmBin, hcode, hnew⟩)
        exact (h.evict.insert (e := ⟨module, 0⟩) hmodule).touch hmodule

theorem evict_stack (wm : WmLocal) : wm.evict.stack = wm.stack := by
  rw [evict]
  split
  · split
    · rfl
    · rfl
  · rfl

theorem getModule_stack (wm : WmLocal) (accounts : Accounts) (target : Hash) :
    (wm.getModule accounts target).1.stack = wm.stack := by
  rw [getModule]
  cases wm.cache.lookup target with
  | some entry => rfl
  | none =>
    rw [loadModule]
    cases accounts.codeOf target with
    | none => exact wm.evict_stack
    | some wasmBin =>
      cases hnew : (WasmEngine.new wasmBin : Except String WasmEngine.Module) with
      | error e =>
        simp only [hnew]
        exact wm.evict_stack
      | ok module =>
        simp only [hnew]
        exact wm.evict_stack

end WmLocal

end Cache

end Trinci
