import Trinci.BlockWrites
import Trinci.LiveNode

/-!
# Accounts under their own ids

What is known of the accounts after a block starts from accounts that are kept under their
own ids. They are never stored otherwise: if it holds of those in the bootstrap file, it
holds in every state of a node, of its database and of every fork.
-/

namespace Trinci

open StepMachines StatefulSteps Exec

section Blocks

variable [WasmEngine] [Primitives] [Merkle] [Pcg32] [WmCodec] [NodeCodec]

namespace WasmService

variable {s t : WasmService WmLocal} {block : Block} {txs : List Transaction}
  {expectedLeader : Option String} {out : List WasmOutput}

/-- The accounts of the database and of every fork are kept under their own ids. -/
structure Keyed (s : WasmService WmLocal) : Prop where
  db : s.db.accounts.Keyed
  forks : ∀ key forked, s.forksCollector.lookup key = some forked → forked.fork.accounts.Keyed

theorem executeInFork_keyed (keyed : s.db.accounts.Keyed) {roots : Roots}
    (h : result (s.config.executeInFork block txs expectedLeader) s.begin = .ok roots) :
    (after (s.config.executeInFork block txs expectedLeader) s.begin).fork.accounts.Keyed := by
  obtain ⟨noted, -⟩ := noteLeader_sameAt s.config block expectedLeader keyed
  exact (executeInFork_moved untouched_momentRule h noted).1

omit [Primitives] [Merkle] [Pcg32] [WmCodec] [NodeCodec] in
theorem Keyed.insert (h : s.Keyed) (executed : ExecutedFork)
    (keyed : executed.fork.accounts.Keyed) (key : Hash) :
    ({ s with forksCollector := s.forksCollector.insert key executed } :
      WasmService WmLocal).Keyed where
  db := h.db
  forks key' forked hforked := by
    by_cases same : key' = key
    · subst same
      rw [AList.lookup_insert] at hforked
      cases hforked
      exact keyed
    · rw [AList.lookup_insert_ne same] at hforked
      exact h.forks key' forked hforked

variable [Serialize BlockData]

omit [Merkle] [Pcg32] [WmCodec] in
/-- The database that a consolidation leaves is the fork of the block. -/
theorem Keyed.consolidateBlock (h : s.Keyed) {confirmations : List Confirmation}
    {txsHashes : List Hash}
    (hconsolidate : s.consolidateBlock block confirmations txsHashes = .ok (t, out)) :
    t.Keyed := by
  obtain ⟨forked, players, hforked, -, rfl, -⟩ := consolidateBlock_ok hconsolidate
  refine ⟨h.forks _ forked hforked, fun key other hother => ?_⟩
  rw [AList.lookup_empty] at hother
  cases hother

theorem Keyed.executeBlock (h : s.Keyed) {round : UInt8} {ok : Bool}
    (hexecute : s.executeBlock block round txs expectedLeader = .ok (ok, t, out)) : t.Keyed := by
  cases executeBlock_outcome hexecute with
  | stored _ => exact h
  | failed _ _ => exact ⟨h.db, h.forks⟩
  | @executed roots done t out absent hroots hdone outcome =>
    have keyed := executeInFork_keyed h.db hroots
    rw [hdone] at keyed
    have left : ({ s with wm := done.wm, drand := done.drand } : WasmService WmLocal).Keyed :=
      ⟨h.db, h.forks⟩
    have inserted := left.insert ⟨done.fork, done.executed, done.ran⟩ keyed
    cases outcome with
    | announced _ => exact inserted _
    | rejected _ _ _ => exact left
    | confirmed _ _ _ _ _ => exact inserted _
    | settled _ _ hconsolidate => exact (inserted _).consolidateBlock hconsolidate

omit [Merkle] [Pcg32] [WmCodec] [Serialize BlockData] in
/-- The settings and the transactions of the bootstrap file are no accounts. -/
theorem Keyed.settleGenesis (h : s.Keyed) {bootstrapTxs : List Transaction} {networkName : String}
    (hsettle : s.settleGenesis bootstrapTxs networkName = .ok t) : t.Keyed := by
  obtain ⟨settings, -, rfl⟩ := settleGenesis_ok hsettle
  have same : ∀ (txs : List Transaction) (db : Db), (txs.foldl (fun db tx =>
      db.storeTransaction (Hash.primary (rmpSerialize tx)) tx) db).accounts = db.accounts := by
    intro txs
    induction txs with
    | nil => exact fun _ => rfl
    | cons tx txs ih => exact fun db => ih _
  refine ⟨?_, h.forks⟩
  rw [same]
  exact h.db

/-- No input of the service stores an account under another id. -/
theorem Keyed.handle (h : s.Keyed) {input : WasmInput} (hstep : s.handle input = .ok (t, out)) :
    t.Keyed := by
  cases input with
  | executeBlock block round txs expectedLeader =>
    obtain ⟨⟨ok, u, sent⟩, hexecute, hstep⟩ := bind_eq_ok.mp hstep
    cases hstep
    exact h.executeBlock hexecute
  | startBlockConsolidation block confirmations txsHashes => exact h.consolidateBlock hstep
  | executeGenesisBlock block bootstrapTxs networkName expectedLeader =>
    obtain ⟨⟨ok, u, sent⟩, hexecute, hstep⟩ := bind_eq_ok.mp hstep
    have executed := h.executeBlock hexecute
    cases ok with
    | false =>
      cases hstep
      exact executed
    | true =>
      obtain ⟨settled, hsettled, hstep⟩ := bind_eq_ok.mp hstep
      cases hstep
      exact executed.settleGenesis hsettled
  | updateSeedSource previousBlockHash txsHash rxsHash =>
    cases hstep
    exact ⟨h.db, h.forks⟩
  | getDRandNum max =>
    cases hstep
    exact ⟨h.db, h.forks⟩

end WasmService

end Blocks

/-! ## Every run of a node -/

namespace LiveNode

variable [WasmEngine] [Primitives] [Merkle] [Pcg32] [WmCodec] [NodeCodec] [Serialize BlockData]
  [Serialize ConfirmationData] {n n' : LiveNode WmLocal} {input : LiveInput WmLocal}
  {out : List NodeOutput}

theorem LiveStep.keyed (step : LiveStep n input out n') (h : n.wasm.Keyed) : n'.wasm.Keyed := by
  cases step with
  | consensus _ _ => exact ⟨h.db, h.forks⟩
  | consolidates _ _ hconsolidate => exact h.consolidateBlock hconsolidate
  | finishes _ hwasm => exact h.handle hwasm
  | restarts hrestart =>
    obtain ⟨block, core, config, -, -, rfl⟩ := restart_ok hrestart
    refine ⟨h.db, fun key forked hforked => ?_⟩
    rw [AList.lookup_empty] at hforked
    cases hforked
  | _ => exact h

variable {env : Env} {keypair : TrinciKeyPair} {nodeId : String} {wm : WmLocal}
  {accounts : Accounts} {bootstrapTxs : List Transaction} {networkName : String}
  {start : LiveNode WmLocal} {trace : List (LiveEvent WmLocal)}

omit [Serialize ConfirmationData] in
theorem keyed_of_bootstrap (keyed : accounts.Keyed)
    (hstart : bootstrap env keypair nodeId wm accounts bootstrapTxs networkName = .ok n) :
    n.wasm.Keyed := by
  obtain ⟨core, wasm, sent, -, -, -, hwasm, -, rfl⟩ := bootstrap_ok hstart
  refine WasmService.Keyed.handle ⟨keyed, fun key forked hforked => ?_⟩ hwasm
  rw [AList.lookup_empty] at hforked
  cases hforked

/-- In every state of a node that started with accounts under their own ids, restarts
included, they are under their own ids in the database and in every fork. -/
theorem run_keyed (keyed : accounts.Keyed)
    (hstart : bootstrap env keypair nodeId wm accounts bootstrapTxs networkName = .ok start)
    (run : Run (Computes handle) start trace n) : n.wasm.Keyed :=
  run.preserves (fun n => n.wasm.Keyed) (keyed_of_bootstrap keyed hstart)
    fun _ _ _ _ h hstep => (handle_step hstep).keyed h

end LiveNode

end Trinci
