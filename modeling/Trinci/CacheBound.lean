import Trinci.ModuleCache

/-!
# How many modules the cache holds

A look-up that misses makes room before it compiles, but only where the cache holds more
modules than its limit. One that finds the limit reached adds a module beyond it. The module
that goes is always one of the least recently used, whatever order the cache is walked in
and however the clock goes.
-/

namespace Trinci

open StepMachines

section Cache

variable [WasmEngine]

namespace WmLocal

/-! ## The module that goes -/

section Oldest

/-- A pick of the fold in `older` is one of the entries, and none was used before it. -/
theorem foldl_older (rest : List (Sigma fun _ : Hash => CachedModule))
    (first : Sigma fun _ : Hash => CachedModule) :
    rest.foldl (fun older curr =>
        if curr.2.lastUsed < older.2.lastUsed then curr else older) first ∈ first :: rest ∧
      ∀ e ∈ first :: rest, (rest.foldl (fun older curr =>
        if curr.2.lastUsed < older.2.lastUsed then curr else older) first).2.lastUsed ≤
          e.2.lastUsed := by
  induction rest generalizing first with
  | nil =>
    refine ⟨List.mem_cons_self, fun e he => ?_⟩
    rw [List.mem_singleton.mp he]
    exact UInt64.le_refl _
  | cons curr rest ih =>
    rw [List.foldl_cons]
    by_cases earlier : curr.2.lastUsed < first.2.lastUsed
    · rw [if_pos earlier]
      obtain ⟨hmem, hleast⟩ := ih curr
      refine ⟨List.mem_cons_of_mem _ hmem, fun e he => ?_⟩
      rcases List.mem_cons.mp he with rfl | he
      · exact UInt64.le_trans (hleast curr List.mem_cons_self) (UInt64.le_of_lt earlier)
      · exact hleast e he
    · rw [if_neg earlier]
      obtain ⟨hmem, hleast⟩ := ih first
      have hfirst := hleast first List.mem_cons_self
      constructor
      · rcases List.mem_cons.mp hmem with same | hmem
        · exact List.mem_cons.mpr (.inl same)
        · exact List.mem_cons_of_mem _ (List.mem_cons_of_mem _ hmem)
      · intro e he
        rcases List.mem_cons.mp he with rfl | he
        · exact hfirst
        · rcases List.mem_cons.mp he with rfl | he
          · exact UInt64.le_trans hfirst (UInt64.not_lt.mp earlier)
          · exact hleast e (List.mem_cons_of_mem _ he)

/-- The module of the hash is cached, and no cached module was used before it. -/
def LeastUsed (wm : WmLocal) (hash : Hash) : Prop :=
  ∃ entry, wm.cache.lookup hash = some entry ∧
    ∀ other entry', wm.cache.lookup other = some entry' → entry.lastUsed ≤ entry'.lastUsed

variable {wm : WmLocal} {hash : Hash}

theorem older_spec (h : older (wm.walk wm.reads wm.cache.entries) = some hash) :
    wm.LeastUsed hash := by
  have walked := wm.walk_perm wm.reads wm.cache.entries
  generalize wm.walk wm.reads wm.cache.entries = entries at h walked
  cases entries with
  | nil => cases h
  | cons first rest =>
    cases h
    obtain ⟨hmem, hleast⟩ := foldl_older rest first
    refine ⟨_, AList.mem_lookup_iff.mpr (walked.mem_iff.mp hmem), fun other entry' hother => ?_⟩
    exact hleast ⟨other, entry'⟩ (walked.mem_iff.mpr (AList.mem_lookup_iff.mp hother))

theorem older_isSome (nonempty : wm.cache.entries ≠ []) :
    ∃ hash, older (wm.walk wm.reads wm.cache.entries) = some hash := by
  have walked := wm.walk_perm wm.reads wm.cache.entries
  cases hentries : wm.walk wm.reads wm.cache.entries with
  | nil =>
    rw [hentries] at walked
    exact absurd walked.symm.eq_nil nonempty
  | cons first rest => exact ⟨_, rfl⟩

/-- Beyond the limit one of the least recently used modules goes, and none otherwise. -/
theorem evict_spec (wm : WmLocal) :
    wm.cache.entries.length ≤ wm.cacheMax ∧ wm.evict = wm ∨
      wm.cacheMax < wm.cache.entries.length ∧
        ∃ hash, wm.LeastUsed hash ∧ wm.evict = { wm with cache := wm.cache.erase hash } := by
  by_cases full : wm.cacheMax < wm.cache.entries.length
  · have nonempty : wm.cache.entries ≠ [] := by
      intro empty
      rw [empty] at full
      exact absurd full (Nat.not_lt_zero _)
    obtain ⟨hash, hhash⟩ := older_isSome nonempty
    exact .inr ⟨full, hash, older_spec hhash, by rw [evict, if_pos full, hhash]⟩
  · exact .inl ⟨Nat.le_of_not_lt full, by rw [evict, if_neg full]⟩

end Oldest

/-! ## What a look-up leaves -/

section Lookups

variable {wm : WmLocal} {db : Accounts} {target : Hash}

theorem length_keys (cache : AList fun _ : Hash => CachedModule) :
    cache.keys.length = cache.entries.length :=
  List.length_map ..

theorem length_insert_cached {cache : AList fun _ : Hash => CachedModule} (cached : target ∈ cache)
    (entry : CachedModule) :
    (cache.insert target entry).entries.length = cache.entries.length := by
  have positive := List.length_pos_of_mem (AList.mem_keys.mp cached)
  rw [← length_keys, ← length_keys, AList.keys_insert, List.length_cons,
    List.length_erase_of_mem (AList.mem_keys.mp cached)]
  omega

theorem length_insert_new {cache : AList fun _ : Hash => CachedModule} (new : target ∉ cache)
    (entry : CachedModule) :
    (cache.insert target entry).entries.length = cache.entries.length + 1 := by
  rw [AList.entries_insert_of_notMem new, List.length_cons]

theorem length_erase {cache : AList fun _ : Hash => CachedModule} {hash : Hash}
    (cached : hash ∈ cache) :
    (cache.erase hash).entries.length = cache.entries.length - 1 := by
  rw [← length_keys, ← length_keys, AList.keys_erase,
    List.length_erase_of_mem (AList.mem_keys.mp cached)]

theorem LeastUsed.mem {hash : Hash} (h : wm.LeastUsed hash) : hash ∈ wm.cache := by
  obtain ⟨entry, hentry, -⟩ := h
  rw [← AList.lookup_isSome, hentry]
  rfl

/-- With at most one module beyond the limit, making room leaves no more than the limit. -/
theorem length_evict (atMost : wm.cache.entries.length ≤ wm.cacheMax + 1) :
    wm.evict.cache.entries.length = min wm.cache.entries.length wm.cacheMax := by
  obtain ⟨room, same⟩ | ⟨full, hash, least, evicted⟩ := wm.evict_spec
  · rw [same]
    omega
  · have shorter := length_erase least.mem
    rw [evicted]
    change (wm.cache.erase hash).entries.length = _
    omega

theorem evict_cacheMax (wm : WmLocal) : wm.evict.cacheMax = wm.cacheMax := by
  obtain ⟨-, same⟩ | ⟨-, hash, -, evicted⟩ := wm.evict_spec
  · rw [same]
  · rw [evicted]

theorem not_mem_evict (absent : target ∉ wm.cache) : target ∉ wm.evict.cache := by
  obtain ⟨-, same⟩ | ⟨-, hash, -, evicted⟩ := wm.evict_spec
  · rwa [same]
  · rw [evicted]
    exact fun kept => absent (AList.mem_erase.mp kept).2

/-- Only one of the least recently used modules goes. -/
theorem leastUsed_of_evicted {hash : Hash} (cached : hash ∈ wm.cache)
    (gone : hash ∉ wm.evict.cache) : wm.LeastUsed hash := by
  obtain ⟨-, same⟩ | ⟨-, victim, least, evicted⟩ := wm.evict_spec
  · rw [same] at gone
    exact absurd cached gone
  · by_cases chosen : hash = victim
    · rwa [chosen]
    · rw [evicted] at gone
      exact absurd (AList.mem_erase.mpr ⟨chosen, cached⟩) gone

/-- The cache with the module of a look-up that missed. -/
def loaded (wm : WmLocal) (target : Hash) (module : WasmEngine.Module) : WmLocal :=
  { wm.evict with cache := wm.evict.cache.insert target ⟨module, 0⟩ }

theorem mem_loaded (wm : WmLocal) (target : Hash) (module : WasmEngine.Module) :
    target ∈ (wm.loaded target module).cache :=
  (AList.mem_insert _).mpr (.inl rfl)

theorem length_loaded {module : WasmEngine.Module} (absent : target ∉ wm.cache) :
    (wm.loaded target module).cache.entries.length = wm.evict.cache.entries.length + 1 :=
  length_insert_new (not_mem_evict absent) _

/-- A look-up hits, or it misses and makes room before it compiles. -/
theorem getModule_cases (wm : WmLocal) (db : Accounts) (target : Hash) :
    (∃ entry, wm.cache.lookup target = some entry ∧
      wm.getModule db target = (wm.touch target entry.module, .ok entry.module)) ∨
    (∃ e, target ∉ wm.cache ∧ compiled db.codeOf target = .error e ∧
      wm.getModule db target = (wm.evict, .error e)) ∨
    ∃ module, target ∉ wm.cache ∧ compiled db.codeOf target = .ok module ∧
      wm.getModule db target = ((wm.loaded target module).touch target module, .ok module) := by
  cases hcached : wm.cache.lookup target with
  | some entry => exact .inl ⟨entry, rfl, by rw [getModule, hcached]⟩
  | none =>
    have absent : target ∉ wm.cache := AList.lookup_eq_none.mp hcached
    right
    cases hcode : db.codeOf target with
    | none =>
      refine .inl ⟨.resourceNotFound "smart contract not found", absent, ?_, ?_⟩
      · rw [compiled, hcode]
      · rw [getModule, hcached, loadModule, hcode]
    | some wasmBin =>
      cases hnew : (WasmEngine.new wasmBin : Except String WasmEngine.Module) with
      | error e =>
        refine .inl ⟨.resourceNotFound e, absent, ?_, ?_⟩
        · simp only [compiled, hcode, hnew]
        · simp only [getModule, hcached, loadModule, hcode, hnew]
      | ok module =>
        refine .inr ⟨module, absent, ?_, ?_⟩
        · simp only [compiled, hcode, hnew]
        · simp only [getModule, hcached, loadModule, hcode, hnew, loaded]

theorem length_touch {module : WasmEngine.Module} (cached : target ∈ wm.cache) :
    (wm.touch target module).cache.entries.length = wm.cache.entries.length :=
  length_insert_cached cached _

theorem lookup_touch (wm : WmLocal) (target : Hash) (module : WasmEngine.Module) :
    (wm.touch target module).cache.lookup target = some ⟨module, wm.clock wm.reads⟩ :=
  AList.lookup_insert _

theorem mem_touch {hash : Hash} {module : WasmEngine.Module} (cached : hash ∈ wm.cache) :
    hash ∈ (wm.touch target module).cache :=
  (AList.mem_insert _).mpr (.inr cached)

/-- What is cached and gone after a look-up was one of the least recently used modules. -/
theorem getModule_evicts {hash : Hash} (cached : hash ∈ wm.cache)
    (gone : hash ∉ (wm.getModule db target).1.cache) : wm.LeastUsed hash := by
  apply leastUsed_of_evicted cached
  intro kept
  apply gone
  obtain ⟨entry, -, heq⟩ | ⟨e, -, -, heq⟩ | ⟨module, -, -, heq⟩ := wm.getModule_cases db target
  · rw [heq]
    exact mem_touch cached
  · rwa [heq]
  · rw [heq]
    exact mem_touch ((AList.mem_insert _).mpr (.inr kept))

theorem getModule_caches {module : WasmEngine.Module}
    (h : (wm.getModule db target).2 = .ok module) :
    ∃ entry, (wm.getModule db target).1.cache.lookup target = some entry ∧
      entry.module = module := by
  obtain ⟨entry, -, heq⟩ | ⟨e, -, -, heq⟩ | ⟨found, -, -, heq⟩ := wm.getModule_cases db target
  · rw [heq] at h ⊢
    cases h
    exact ⟨_, lookup_touch .., rfl⟩
  · rw [heq] at h
    cases h
  · rw [heq] at h ⊢
    cases h
    exact ⟨_, lookup_touch .., rfl⟩

theorem getModule_cacheMax (wm : WmLocal) (db : Accounts) (target : Hash) :
    (wm.getModule db target).1.cacheMax = wm.cacheMax := by
  obtain ⟨entry, -, heq⟩ | ⟨e, -, -, heq⟩ | ⟨module, -, -, heq⟩ := wm.getModule_cases db target
  · rw [heq]
    rfl
  · rw [heq]
    exact evict_cacheMax wm
  · rw [heq]
    exact evict_cacheMax wm

/-- A module of the database comes into a cache that holds as many as its limit. -/
def Overfills (wm : WmLocal) (db : Accounts) (target : Hash) : Prop :=
  target ∉ wm.cache ∧ (∃ module, compiled db.codeOf target = .ok module) ∧
    wm.cache.entries.length = wm.cacheMax

/-- From a cache within its limit a look-up leaves one beyond it exactly if it overfills. -/
theorem getModule_bounded_iff (within : wm.cache.entries.length ≤ wm.cacheMax) :
    (wm.getModule db target).1.cache.entries.length ≤ wm.cacheMax ↔
      ¬ wm.Overfills db target := by
  have evicted := length_evict (Nat.le_succ_of_le within)
  rw [Nat.min_eq_left within] at evicted
  obtain ⟨entry, hcached, heq⟩ | ⟨e, absent, failed, heq⟩ | ⟨module, absent, compiles, heq⟩ :=
    wm.getModule_cases db target
  · have cached : target ∈ wm.cache := AList.lookup_isSome.mp (by rw [hcached]; rfl)
    rw [heq, length_touch cached]
    exact ⟨fun _ overfills => overfills.1 cached, fun _ => within⟩
  · rw [heq, evicted]
    refine ⟨fun _ overfills => ?_, fun _ => within⟩
    obtain ⟨-, ⟨module, compiles⟩, -⟩ := overfills
    rw [failed] at compiles
    cases compiles
  · rw [heq, length_touch (mem_loaded wm target module), length_loaded absent, evicted]
    constructor
    · rintro bounded ⟨-, -, full⟩
      omega
    · intro room
      have notFull : wm.cache.entries.length ≠ wm.cacheMax :=
        fun full => room ⟨absent, ⟨module, compiles⟩, full⟩
      omega

end Lookups

/-! ## Runs of look-ups -/

section Runs

/-- One look-up, of a contract in a database of its own. -/
def getModuleStep (wm : WmLocal) (m : Accounts × Hash)
    (out : List (Except WasmError WasmEngine.Module)) (wm' : WmLocal) : Prop :=
  out = [(wm.getModule m.1 m.2).2] ∧ wm' = (wm.getModule m.1 m.2).1

/-- What the cache is for, after one look-up. -/
structure Bounded (e : Event WmLocal (Accounts × Hash) (Except WasmError WasmEngine.Module)) :
    Prop where
  within : e.after.cache.entries.length ≤ e.after.cacheMax
  requested : ∀ module, .ok module ∈ e.out →
    ∃ entry, e.after.cache.lookup e.input.2 = some entry ∧ entry.module = module
  evicted : ∀ hash ∈ e.before.cache, hash ∉ e.after.cache → e.before.LeastUsed hash

/-- The look-up of the event overfills the cache. -/
def overfilled (e : Event WmLocal (Accounts × Hash) (Except WasmError WasmEngine.Module)) : Prop :=
  e.before.Overfills e.input.1 e.input.2

/-- In every run from an empty cache, all look-ups keep the cache bounded exactly if none
overfills it. -/
theorem bounded_iff_not_overfilled {start last : WmLocal} (empty : start.cache = ∅)
    {trace : List (Event WmLocal (Accounts × Hash) (Except WasmError WasmEngine.Module))}
    (run : Run getModuleStep start trace last) :
    Along (fun _ e => Bounded e) trace ↔ Along (fun _ e => ¬ overfilled e) trace := by
  suffices h : (Along (fun _ e => Bounded e) trace ↔ Along (fun _ e => ¬ overfilled e) trace) ∧
      (Along (fun _ e => Bounded e) trace →
        last.cache.entries.length ≤ last.cacheMax) from h.1
  induction run with
  | nil =>
    refine ⟨⟨fun _ => along_nil _, fun _ => along_nil _⟩, fun _ => ?_⟩
    rw [empty]
    exact Nat.zero_le _
  | @snoc trace wm wm' m out _ step ih =>
    obtain ⟨rfl, rfl⟩ := step
    obtain ⟨same, within⟩ := ih
    have kept := getModule_cacheMax wm m.1 m.2
    rw [along_snoc, along_snoc]
    refine ⟨⟨?_, ?_⟩, fun h => h.2.within⟩
    · rintro ⟨earlier, now⟩
      have bounded := now.within
      rw [kept] at bounded
      exact ⟨same.mp earlier, (getModule_bounded_iff (within earlier)).mp bounded⟩
    · rintro ⟨earlier, now⟩
      have bounded := (getModule_bounded_iff (within (same.mpr earlier))).mpr now
      refine ⟨same.mpr earlier, ?_, ?_, ?_⟩
      · rwa [kept]
      · intro module found
        exact getModule_caches (List.mem_singleton.mp found).symm
      · exact fun hash => getModule_evicts

end Runs

end WmLocal

end Cache

/-! ## Two contracts and room for one -/

namespace Sample

section Bound

attribute [local instance] idleEngine

open WmLocal

/-- A machine with an empty cache and room for one module. -/
def smallWm : WmLocal := { freshWm 1 with cacheMax := 1 }

def twoContracts : Accounts := deployed [("shop", 1), ("bank", 2)]

/-- The machine after look-ups in the database of two contracts. -/
def lookedUp (wm : WmLocal) (n : UInt8) : WmLocal :=
  (wm.getModule twoContracts (contractHash n)).1

/-- The look-up of a contract as an event. -/
def lookup (wm : WmLocal) (n : UInt8) :
    Event WmLocal (Accounts × Hash) (Except WasmError WasmEngine.Module) :=
  ⟨wm, (twoContracts, contractHash n), [(wm.getModule twoContracts (contractHash n)).2],
    lookedUp wm n⟩

theorem lookup_step (wm : WmLocal) (n : UInt8) :
    getModuleStep wm (lookup wm n).input (lookup wm n).out (lookup wm n).after :=
  ⟨rfl, rfl⟩

/-- A contract, the same one and one that is not there. -/
def boundedTrace : List (Event WmLocal (Accounts × Hash) (Except WasmError WasmEngine.Module)) :=
  [lookup smallWm 1, lookup (lookedUp smallWm 1) 1, lookup (lookedUp (lookedUp smallWm 1) 1) 3]

theorem boundedTrace_run : Run getModuleStep smallWm boundedTrace
    (lookedUp (lookedUp (lookedUp smallWm 1) 1) 3) :=
  ((Run.nil.snoc (lookup_step smallWm 1)).snoc (lookup_step _ 1)).snoc (lookup_step _ 3)

theorem boundedTrace_bounded : Along (fun _ e => WmLocal.Bounded e) boundedTrace := by
  refine (bounded_iff_not_overfilled rfl boundedTrace_run).mpr ?_
  rw [along_iff_forall]
  intro e he
  simp only [boundedTrace, List.mem_cons, List.not_mem_nil, or_false] at he
  rcases he with rfl | rfl | rfl
  · rintro ⟨-, -, full⟩
    exact absurd full (by decide)
  · rintro ⟨absent, -, -⟩
    exact absent (by decide)
  · rintro ⟨-, ⟨module, compiles⟩, -⟩
    cases compiles

/-- The second contract is compiled while the first still fills the cache. -/
theorem second_overfills : ∃ start trace last, start.cache = ∅ ∧ 1 ≤ start.cacheMax ∧
    Run getModuleStep start trace last ∧ ¬ Along (fun _ e => WmLocal.Bounded e) trace := by
  refine ⟨smallWm, [lookup smallWm 1, lookup (lookedUp smallWm 1) 2],
    lookedUp (lookedUp smallWm 1) 2, rfl, Nat.le_refl 1,
    (Run.nil.snoc (lookup_step smallWm 1)).snoc (lookup_step _ 2), fun bounded => ?_⟩
  have within := (along_iff_forall.mp bounded _ (List.mem_cons_of_mem _ List.mem_cons_self)).within
  exact absurd within (by decide)

end Bound

end Sample

end Trinci
