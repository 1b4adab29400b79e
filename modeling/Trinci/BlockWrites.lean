import Trinci.TreeWrites

/-!
# What a block writes

While a block is executed the machine notes its moments, and a rollback takes back what
was written since the checkpoint. What holds of the accounts around each tree, and
around moments that are taken back, holds around the block. So the accounts of a block
are replayed from some of its moments, and a place is written by those entitled to it
only.
-/

namespace Trinci

open StatefulSteps Exec

section Blocks

variable [WasmEngine] [Primitives] [Merkle] [Pcg32] [WmCodec]

/-- A relation between the accounts before and after moments, some of which may have been
taken back. -/
structure MomentRule (P : List Moment → Accounts → Accounts → Prop) : Prop where
  idle : ∀ moments a, P moments a a
  trans : ∀ {ms ns a b c}, P ms a b → P ns b c → P (ms ++ ns) a c
  traced : ∀ stack, Traced (fun w w' _ moments => P moments w.accounts w'.accounts)
    (WmLocal.machine stack) (WmLocal.tracer stack)

/-- The accounts are replayed from some of the moments. -/
def ReplayedFrom (moments : List Moment) (a b : Accounts) : Prop :=
  ∃ kept, kept.Sublist moments ∧ b = replay kept a

theorem replayedFrom_rule : MomentRule ReplayedFrom where
  idle moments a := ⟨[], List.nil_sublist moments, rfl⟩
  trans := by
    rintro ms ns a b c ⟨kept, sub, rfl⟩ ⟨kept', sub', rfl⟩
    exact ⟨kept ++ kept', sub.append sub', (replay_append kept kept' a).symm⟩
  traced stack := by
    have whole := replay_rule.machine_traced stack
    constructor
    · exact fun h => ⟨_, List.Sublist.refl _, whole.call h⟩
    · exact fun h => ⟨_, List.Sublist.refl _, whole.callableCall h⟩
    · exact fun h => ⟨_, List.Sublist.refl _, whole.appHashCheck h⟩

theorem untouched_momentRule : MomentRule Untouched where
  idle := Untouched.idle
  trans := Untouched.trans
  traced := untouched_rule.machine_traced

/-- The accounts have moved from where they were, or from the checkpoint. -/
structure MovedBy (P : List Moment → Accounts → Accounts → Prop) (s t : NotedExecution) : Prop where
  saved : t.fork.saved = s.fork.saved
  noted : ∃ moments, t.wm.log = s.wm.log ++ moments ∧
    (P moments s.fork.accounts t.fork.accounts ∨
      P moments s.fork.saved.accounts t.fork.accounts)

variable {P : List Moment → Accounts → Accounts → Prop}

namespace MovedBy

variable {s t u : NotedExecution}

theorem still (rule : MomentRule P) (wm : t.wm = s.wm) (fork : t.fork = s.fork) :
    MovedBy P s t := by
  refine ⟨congrArg DbFork.saved fork, [], ?_, .inl ?_⟩
  · rw [wm, List.append_nil]
  · rw [fork]
    exact rule.idle _ _

theorem trans (rule : MomentRule P) (h : MovedBy P s t) (h' : MovedBy P t u) : MovedBy P s u := by
  obtain ⟨hsaved, ms, hlog, moved⟩ := h
  obtain ⟨hsaved', ns, hlog', moved'⟩ := h'
  refine ⟨hsaved'.trans hsaved, ms ++ ns, ?_, ?_⟩
  · rw [hlog', hlog, List.append_assoc]
  · rw [hsaved] at moved'
    obtain here | back := moved'
    · obtain first | first := moved
      · exact .inl (rule.trans first here)
      · exact .inr (rule.trans first here)
    · exact .inr (rule.trans (rule.idle ms _) back)

omit [Primitives] [Merkle] [Pcg32] [WmCodec] in
/-- A function of the machine, with the moments it notes. -/
theorem ofMachine {α : Type} {notes : World WmLocal → α → List Moment}
    {f : World WmLocal → Except MachinePanic (World WmLocal × α)}
    (hf : ∀ {w w' a}, f w = .ok (w', a) → P (notes w a) w.accounts w'.accounts)
    {w : World (Logged Moment WmLocal)} {a : α}
    (h : Logged.run notes f (world s) = .ok (w, a)) : MovedBy P s (setWorld s w) := by
  obtain ⟨hrun, hlog⟩ := Logged.run_eq_ok h
  exact ⟨rfl, notes (Logged.forget (world s)) a, hlog, .inl (hf hrun)⟩

end MovedBy

theorem movedBy_rule (rule : MomentRule P) : ExecutorRule (MovedBy P) where
  refl _ := .still rule rfl rfl
  trans := .trans rule
  recorded _ _ := .still rule rfl rfl
  rolledBack _ := ⟨rfl, [], (List.append_nil _).symm, .inr (rule.idle _ _)⟩
  called h := .ofMachine (fun {w _ _} hrun => (rule.traced w.wm.stack).call hrun) h
  checked h := .ofMachine (fun {w _ _} hrun => (rule.traced w.wm.stack).appHashCheck hrun) h

variable [NodeCodec]

namespace WasmConfig

variable (config : WasmConfig)

/-- A transaction starts from a checkpoint, so its accounts have moved from where it
found them. -/
theorem executeTransaction_moved (rule : MomentRule P) (tx : Transaction) (height : UInt64)
    (index : UInt32) (blockTimestamp : UInt64) (s : NotedExecution) :
    ∃ moments, (after (config.executeTransaction tx height index blockTimestamp) s).wm.log =
        s.wm.log ++ moments ∧ P moments s.fork.accounts
      (after (config.executeTransaction tx height index blockTimestamp) s).fork.accounts := by
  rw [after_executeTransaction]
  have executing := (movedBy_rule rule).bind
    (config.handleTransaction_moves (movedBy_rule rule) tx height index blockTimestamp)
    (fun res => config.settled_moves (movedBy_rule rule) res height index blockTimestamp)
    (opened tx s)
  obtain ⟨-, moments, hlog, moved | moved⟩ := executing
  · exact ⟨moments, hlog, moved⟩
  · exact ⟨moments, hlog, moved⟩

/-- The transactions of a block, one after the other. -/
theorem executeBlockTransactions_moved (rule : MomentRule P) {height blockTimestamp : UInt64}
    {txs : List Transaction} {index : UInt32} {s : NotedExecution} {hashes : List Hash}
    (h : result (config.executeBlockTransactions height blockTimestamp txs index) s =
      .ok hashes) :
    ∃ moments,
      (after (config.executeBlockTransactions height blockTimestamp txs index) s).wm.log =
        s.wm.log ++ moments ∧
      P moments s.fork.accounts
        (after (config.executeBlockTransactions height blockTimestamp txs index)
          s).fork.accounts := by
  induction txs generalizing index s hashes with
  | nil => exact ⟨[], (List.append_nil _).symm, rule.idle _ _⟩
  | cons tx txs ih =>
    obtain ⟨moments, hlog, moved⟩ :=
      config.executeTransaction_moved rule tx height index blockTimestamp s
    obtain ⟨receipt, -, h, hafter⟩ := of_bind_ok h
    obtain ⟨-, -, h, hstored⟩ := of_bind_ok h
    obtain ⟨later, hlater, -, hreturn⟩ := of_bind_ok h
    rw [executeBlockTransactions, hafter, hstored, hreturn, after_pure]
    generalize after (config.executeTransaction tx height index blockTimestamp) s = done
      at hlog moved hlater ⊢
    obtain ⟨rest, hlog', moved'⟩ := ih hlater
    refine ⟨moments ++ rest, ?_, rule.trans moved moved'⟩
    rw [hlog', ← List.append_assoc, ← hlog]
    rfl

end WasmConfig

namespace WasmService

variable (s : WasmService WmLocal) (block : Block) (txs : List Transaction)
  (expectedLeader : Option String)

/-- What the machine notes while the transactions of a block are executed. -/
def treeMoments : List Moment :=
  (after (s.config.executeBlockTransactions block.data.height block.data.timestamp txs 0)
    (s.noted block expectedLeader)).wm.log

variable {s block txs expectedLeader}

/-- The accounts move from those with the note about the leader. -/
theorem executeInFork_moved (rule : MomentRule P) {roots : Roots}
    (h : result (s.config.executeInFork block txs expectedLeader) s.begin = .ok roots) :
    P (s.treeMoments block txs expectedLeader)
      (s.config.noteLeader block expectedLeader s.db).accounts
      (after (s.config.executeInFork block txs expectedLeader) s.begin).fork.accounts := by
  obtain ⟨-, -, h, hnoted⟩ := of_bind_ok h
  obtain ⟨hashes, hhashes, h, hexecuted⟩ := of_bind_ok h
  -- the log changes neither the result nor the fork
  have same := WasmConfig.executeBlockTransactions_related (SameLogged.congruence (L := Moment))
    (SameNetwork.refl s.config) block.data.height block.data.timestamp txs 0 _
    (s.noted block expectedLeader) rfl
  obtain ⟨moments, hlog, moved⟩ :=
    s.config.executeBlockTransactions_moved rule (same.1.symm.trans hhashes)
  have fork : (after (s.config.executeBlockTransactions block.data.height block.data.timestamp txs
      0) (s.noted block expectedLeader)).fork.accounts =
      (after (s.config.executeInFork block txs expectedLeader) s.begin).fork.accounts := by
    rw [WasmConfig.executeInFork, hnoted, hexecuted]
    exact congrArg (fun t : Execution WmLocal => t.fork.accounts) same.2
  rw [← fork, WasmService.treeMoments, hlog]
  exact moved

/-- The accounts after a block are those with the note about the leader, on which some of
the moments of its trees are replayed, in order. -/
theorem executeInFork_replays {roots : Roots}
    (h : result (s.config.executeInFork block txs expectedLeader) s.begin = .ok roots) :
    ∃ kept, kept.Sublist (s.treeMoments block txs expectedLeader) ∧
      (after (s.config.executeInFork block txs expectedLeader) s.begin).fork.accounts =
        replay kept (s.config.noteLeader block expectedLeader s.db).accounts :=
  executeInFork_moved replayedFrom_rule h

omit [WasmEngine] [Merkle] [Pcg32] [WmCodec] in
/-- The note about the leader is a datum of the service account. -/
theorem noteLeader_sameAt (config : WasmConfig) (block : Block) (expectedLeader : Option String)
    {db : Db} (keyed : db.accounts.Keyed) :
    (config.noteLeader block expectedLeader db).accounts.Keyed ∧
      ∀ place, place ≠ .datum serviceAccountId slashedKey →
        db.accounts.SameAt place (config.noteLeader block expectedLeader db).accounts := by
  have written : ∀ request : HostRequest,
      request.place? serviceAccountId = some (.datum serviceAccountId slashedKey) →
      (request.write serviceAccountId db.accounts).Keyed ∧
        ∀ place, place ≠ .datum serviceAccountId slashedKey →
          db.accounts.SameAt place (request.write serviceAccountId db.accounts) := by
    intro request noted
    refine ⟨HostRequest.write_keyed keyed _ _, fun place other => ?_⟩
    refine HostRequest.write_sameAt keyed ?_
    rw [noted]
    exact fun heq => other (Option.some.inj heq).symm
  cases expectedLeader with
  | none => exact ⟨keyed, fun place _ => .refl place db.accounts⟩
  | some leader =>
    simp only [WasmConfig.noteLeader]
    by_cases built : leader = block.getBuilderId.getD config.nodeId
    · rw [if_pos built]
      exact written (.removeData slashedKey) rfl
    · rw [if_neg built]
      exact written (.storeData slashedKey _) rfl

/-- For every database, block and list of transactions, whatever the contracts do: a datum
differs afterwards only if a frame of its account stored or removed it, an asset only if
a frame of its token's account did, and a contract only if its account was bound. -/
theorem executeInFork_untouched (keyed : s.db.accounts.Keyed) {roots : Roots}
    (h : result (s.config.executeInFork block txs expectedLeader) s.begin = .ok roots)
    {place : Place} (noted : place ≠ .datum serviceAccountId slashedKey)
    (other : ∀ m ∈ s.treeMoments block txs expectedLeader, m.place? ≠ some place) :
    s.db.accounts.SameAt place
      (after (s.config.executeInFork block txs expectedLeader) s.begin).fork.accounts := by
  obtain ⟨hkeyed, same⟩ := noteLeader_sameAt s.config block expectedLeader keyed
  obtain ⟨-, untouched⟩ := executeInFork_moved untouched_momentRule h hkeyed
  exact (same place noted).trans (untouched place other)

end WasmService

end Blocks

/-! ## A sale -/

namespace Sample

section Sales

/-- Every contract notes a sale and gives bob a coin of its account. -/
local instance shopEngine : WasmEngine := scripted fun _ =>
  .ok ⟨[], [.storeData "sold" [7], .storeAsset "bob" [1]], .ok [1]⟩

/-- The service of alice's node, with a service account and a shop. -/
def salesService : WasmService WmLocal where
  config := config
  db := { Db.empty with accounts := deployed [(serviceAccountId, 1), ("shop", 2)] }
  forksCollector := ∅
  wm := freshWm 2
  drand := SeedSource.new [] [] Hash.default Hash.default Hash.default
  executed := []
  ran := []

/-- A block with a sale of the shop, which alice should have built. -/
abbrev sale : List Transaction := [unitOf 1 (keypair 1)]

theorem sale_is_replayed :
    ∃ kept, kept.Sublist (salesService.treeMoments alicesBlock sale (some "alice")) ∧
      (after (salesService.config.executeInFork alicesBlock sale (some "alice"))
        salesService.begin).fork.accounts =
        replay kept (salesService.config.noteLeader alicesBlock (some "alice")
          salesService.db).accounts :=
  WasmService.executeInFork_replays rfl

/-- The service account sells nothing, and bob gets none of its coins. -/
theorem sale_leaves_service_coins :
    salesService.db.accounts.SameAt (.asset "bob" serviceAccountId)
      (after (salesService.config.executeInFork alicesBlock sale (some "alice"))
        salesService.begin).fork.accounts :=
  WasmService.executeInFork_untouched (deployed_keyed _) rfl (by decide) (by decide +kernel)

/-- The coins of the shop are another matter. -/
example : ¬ salesService.db.accounts.SameAt (.asset "bob" "shop")
    (after (salesService.config.executeInFork alicesBlock sale (some "alice"))
      salesService.begin).fork.accounts := by
  decide +kernel

end Sales

end Sample

end Trinci
