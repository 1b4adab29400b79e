import Trinci.CallTrees
import Trinci.ExecutorRules
import Trinci.MachineLogs

/-!
# The commitment to account data

The state hash of a block covers the accounts, and an account commits to its data with
its data hash. The hash is refreshed when a contract that wrote data ends well. It is
left stale by a contract that wrote and then faulted under a caller that goes on, by an
account that is bound as it was before its own data was written, by data of the account
with the empty name, whose hash is that of all accounts, and by the note about the
leader. A block in which none of this stays commits to all the data it writes.
-/

namespace Trinci

open StatefulSteps Exec

namespace Accounts

/-- Accounts are kept under their own ids. -/
def Keyed (s : Accounts) : Prop :=
  ∀ id account, s.loadAccount id = some account → account.id = id

def hashOf (s : Accounts) (id : String) : Option Hash :=
  (s.loadAccount id).bind fun account => account.dataHash

variable [Merkle]

/-- Every account whose data differ from before commits to its data. -/
def CommitsSince (before after : Accounts) : Prop :=
  ∀ id, after.dataOf id ≠ before.dataOf id → ∃ account, after.loadAccount id = some account ∧
    account.dataHash = some (after.stateHash account.id)

/-- The data of an account and its hash are as before, or the hash is fresh. -/
def Tracks (id : String) (a b : Accounts) : Prop :=
  (b.dataOf id = a.dataOf id ∧ b.hashOf id = a.hashOf id) ∨
    (id ≠ "" ∧ b.hashOf id = some (b.stateHash id))

variable {a b c : Accounts} {id owner : String}

/-! ## Writes -/

omit [Merkle] in
theorem loadAccount_storeAccount_ne {account : Account} (h : id ≠ account.id) :
    (a.storeAccount account).loadAccount id = a.loadAccount id :=
  AList.lookup_insert_ne h

omit [Merkle] in
theorem loadAccount_storeAccount (account : Account) :
    (a.storeAccount account).loadAccount account.id = some account :=
  AList.lookup_insert a.accounts

omit [Merkle] in
theorem hashOf_storeAccount_ne {account : Account} (h : id ≠ account.id) :
    (a.storeAccount account).hashOf id = a.hashOf id := by
  rw [hashOf, loadAccount_storeAccount_ne h, hashOf]

omit [Merkle] in
theorem hashOf_storeAccount (account : Account) :
    (a.storeAccount account).hashOf account.id = account.dataHash := by
  rw [hashOf, loadAccount_storeAccount, Option.bind_some]

omit [Merkle] in
theorem Keyed.storeAccount (h : a.Keyed) (account : Account) : (a.storeAccount account).Keyed := by
  intro id loaded hload
  by_cases heq : id = account.id
  · subst heq
    rw [loadAccount_storeAccount] at hload
    cases hload
    rfl
  · rw [loadAccount_storeAccount_ne heq] at hload
    exact h id loaded hload

omit [Merkle] in
/-- The account of a name, as it is loaded or made, has this name. -/
theorem Keyed.getD_id (h : a.Keyed) (id : String) :
    ((a.loadAccount id).getD (Account.new id none)).id = id := by
  cases hload : a.loadAccount id with
  | none => rfl
  | some account => exact h id account hload

omit [Merkle] in
theorem getD_dataHash (a : Accounts) (id : String) :
    ((a.loadAccount id).getD (Account.new id none)).dataHash = a.hashOf id := by
  rw [hashOf]
  cases a.loadAccount id with
  | none => rfl
  | some account => rfl

omit [Merkle] in
/-- Entries of another account are not erased. -/
theorem filter_kerase {k : String × String} (h : k.1 ≠ id)
    (entries : List (Sigma fun _ : String × String => Bytes)) :
    (entries.kerase k).filter (fun entry => entry.1.1 == id) =
      entries.filter fun entry => entry.1.1 == id := by
  induction entries with
  | nil => rfl
  | cons entry entries ih =>
    by_cases heq : k = entry.1
    · have other : (entry.1.1 == id) = false := by
        rw [← heq]
        exact beq_false_of_ne h
      rw [List.kerase_cons_eq heq, List.filter_cons_of_neg (by rw [other]; decide)]
    · rw [List.kerase_cons_ne heq, List.filter_cons, List.filter_cons, ih]

omit [Merkle] in
theorem dataOf_storeAccountData_ne (h : owner ≠ id) (key : String) (data : Bytes) :
    (a.storeAccountData owner key data).dataOf id = a.dataOf id := by
  have kept := filter_kerase (k := (owner, key)) h a.data.entries
  have other : ((owner, key).1 == id) = false := beq_false_of_ne h
  have entries : (a.storeAccountData owner key data).data.entries =
      ⟨(owner, key), data⟩ :: a.data.entries.kerase (owner, key) := AList.entries_insert
  rw [dataOf, dataOf, entries, List.filter_cons_of_neg (by rw [other]; decide), kept]

omit [Merkle] in
theorem dataOf_removeAccountData_ne (h : owner ≠ id) (key : String) :
    (a.removeAccountData owner key).dataOf id = a.dataOf id := by
  have kept := filter_kerase (k := (owner, key)) h a.data.entries
  have entries : (a.removeAccountData owner key).data.entries =
      a.data.entries.kerase (owner, key) := rfl
  rw [dataOf, dataOf, entries, kept]

/-- The hash of an account depends on its data only, but for the empty name. -/
theorem stateHash_congr (named : id ≠ "") (h : a.dataOf id = b.dataOf id) :
    a.stateHash id = b.stateHash id := by
  have unempty : id.isEmpty = false := by
    rw [Bool.eq_false_iff]
    intro hempty
    exact named (String.isEmpty_iff.1 hempty)
  rw [stateHash, stateHash, if_neg (Bool.eq_false_iff.1 unempty),
    if_neg (Bool.eq_false_iff.1 unempty), h]

/-! ## Tracked accounts -/

namespace Tracks

theorem refl (id : String) (a : Accounts) : Tracks id a a := .inl ⟨rfl, rfl⟩

theorem trans (h : Tracks id a b) (h' : Tracks id b c) : Tracks id a c := by
  obtain ⟨hdata', hhash'⟩ | fresh' := h'
  · obtain ⟨hdata, hhash⟩ | ⟨named, fresh⟩ := h
    · exact .inl ⟨hdata'.trans hdata, hhash'.trans hhash⟩
    · refine .inr ⟨named, ?_⟩
      rw [hhash', fresh, stateHash_congr named hdata'.symm]
  · exact .inr fresh'

/-- Writes of data to another account. -/
theorem of_data (hdata : b.dataOf id = a.dataOf id) (haccounts : b.accounts = a.accounts) :
    Tracks id a b := by
  refine .inl ⟨hdata, ?_⟩
  rw [hashOf, hashOf, loadAccount, loadAccount, haccounts]

/-- An account that is stored with the hash it had. -/
theorem storeAccount {account : Account} (h : account.dataHash = a.hashOf account.id) :
    Tracks id a (a.storeAccount account) := by
  refine .inl ⟨rfl, ?_⟩
  by_cases heq : id = account.id
  · subst heq
    rw [hashOf_storeAccount, h]
  · exact hashOf_storeAccount_ne heq

end Tracks

/-- What is tracked everywhere commits to what was written. -/
theorem commitsSince_of_tracks (keyed : b.Keyed) (h : ∀ id, Tracks id a b) :
    a.CommitsSince b := by
  intro id differs
  obtain ⟨same, -⟩ | ⟨-, fresh⟩ := h id
  · exact absurd same differs
  · obtain ⟨account, hload, hhash⟩ := Option.bind_eq_some_iff.1 fresh
    refine ⟨account, hload, ?_⟩
    rw [hhash, keyed id account hload]

end Accounts

/-! ## Trees that keep commitments -/

section Trees

variable [WasmEngine]

/-- The hash of the contract's account is refreshed if its data were written, and an
account is bound with the hash of the data it still has. -/
def Moment.Committed : Moment → Prop
  | .left args f _ faulted => f.dataUpdated = true → faulted = false ∧ args.owner ≠ ""
  | .bound owner _ before after => after.dataOf owner = before.dataOf owner
  | _ => True

instance : DecidablePred Moment.Committed
  | .left args f _ faulted =>
    inferInstanceAs (Decidable (f.dataUpdated = true → faulted = false ∧ args.owner ≠ ""))
  | .bound owner _ before after =>
    inferInstanceAs (Decidable (after.dataOf owner = before.dataOf owner))
  | .looked _ _ => inferInstanceAs (Decidable True)
  | .asked _ _ _ _ => inferInstanceAs (Decidable True)

variable [Merkle]

/-- The accounts keep to their ids and all of them are tracked. -/
def TracksAll (a b : Accounts) : Prop := a.Keyed → b.Keyed ∧ ∀ id, Accounts.Tracks id a b

omit [WasmEngine] in
theorem TracksAll.refl (a : Accounts) : TracksAll a a :=
  fun keyed => ⟨keyed, fun id => Accounts.Tracks.refl id a⟩

omit [WasmEngine] in
theorem TracksAll.trans {a b c : Accounts} (h : TracksAll a b) (h' : TracksAll b c) :
    TracksAll a c := by
  intro keyed
  obtain ⟨hkeyed, tracks⟩ := h keyed
  obtain ⟨hkeyed', tracks'⟩ := h' hkeyed
  exact ⟨hkeyed', fun id => (tracks id).trans (tracks' id)⟩

/-- While a contract runs, only the account it wrote may be off its hash. -/
def TracksOthers (ctx : CallArgs) (w : World WmLocal) (f : Frame) : Prop :=
  w.accounts.Keyed → f.accounts.Keyed ∧
    ∀ id, (id = ctx.owner → f.dataUpdated = false) → Accounts.Tracks id w.accounts f.accounts

variable {ctx : CallArgs} {w : World WmLocal} {f f' : Frame}

theorem TracksOthers.written (h : TracksOthers ctx w f) (updated : f'.dataUpdated = true)
    (accounts : f'.accounts.accounts = f.accounts.accounts)
    (data : ∀ id, ctx.owner ≠ id → f'.accounts.dataOf id = f.accounts.dataOf id) :
    TracksOthers ctx w f' := by
  intro keyed
  obtain ⟨hkeyed, tracks⟩ := h keyed
  constructor
  · intro id account hload
    rw [Accounts.loadAccount, accounts] at hload
    exact hkeyed id account hload
  · intro id other
    have differs : id ≠ ctx.owner := by
      intro heq
      exact absurd (updated.symm.trans (other heq)) (by decide)
    have before := tracks id fun heq => absurd heq differs
    exact before.trans (Accounts.Tracks.of_data (data id differs.symm) accounts)

theorem TracksOthers.moved (h : TracksOthers ctx w f) (updated : f'.dataUpdated = f.dataUpdated)
    (moved : TracksAll f.accounts f'.accounts) : TracksOthers ctx w f' := by
  intro keyed
  obtain ⟨hkeyed, tracks⟩ := h keyed
  obtain ⟨hkeyed', tracks'⟩ := moved hkeyed
  refine ⟨hkeyed', fun id other => ?_⟩
  rw [updated] at other
  exact (tracks id other).trans (tracks' id)

omit [WasmEngine] in
/-- Assets are stored with the hash that the account has. -/
theorem tracksAll_assets (a : Accounts) (id : String) (assets : AList fun _ : String => Bytes) :
    TracksAll a (a.storeAccount
      { (a.loadAccount id).getD (Account.new id none) with assets := assets }) := by
  intro keyed
  have hid := keyed.getD_id id
  have hhash := a.getD_dataHash id
  refine ⟨keyed.storeAccount _, fun other => Accounts.Tracks.storeAccount ?_⟩
  dsimp only
  rw [hid, hhash]

theorem TracksOthers.effect {request : HostRequest} (h : TracksOthers ctx w f)
    (effect : Effect ctx request f f') : TracksOthers ctx w f' := by
  cases effect with
  | quiet accounts _ dataUpdated => exact h.moved dataUpdated (accounts ▸ TracksAll.refl _)
  | emitted _ _ accounts _ dataUpdated => exact h.moved dataUpdated (accounts ▸ TracksAll.refl _)
  | stored _ key data accounts _ dataUpdated =>
    refine h.written dataUpdated ?_ fun id differs => ?_
    · rw [accounts]
      rfl
    · rw [accounts, Accounts.dataOf_storeAccountData_ne differs]
  | removed _ key accounts _ dataUpdated =>
    refine h.written dataUpdated ?_ fun id differs => ?_
    · rw [accounts]
      rfl
    · rw [accounts, Accounts.dataOf_removeAccountData_ne differs]
  | assets _ id assets _ accounts _ dataUpdated =>
    exact h.moved dataUpdated (accounts ▸ tracksAll_assets f.accounts id assets)

/-- The refresh of the hash at the end of a contract. -/
theorem TracksOthers.refreshed (h : TracksOthers ctx w f)
    (named : f.dataUpdated = true → ctx.owner ≠ "") {w' : World WmLocal}
    (updated : WmLocal.updateDataHash f ctx.owner = some w') :
    TracksAll w.accounts w'.accounts := by
  intro keyed
  obtain ⟨hkeyed, tracks⟩ := h keyed
  rw [WmLocal.updateDataHash] at updated
  by_cases written : f.dataUpdated = true
  · rw [if_pos written] at updated
    obtain ⟨account, hload, rfl⟩ := Option.map_eq_some_iff.1 updated
    have hid : account.id = ctx.owner := hkeyed _ _ hload
    refine ⟨hkeyed.storeAccount _, fun id => ?_⟩
    by_cases heq : id = ctx.owner
    · subst heq
      refine .inr ⟨named written, ?_⟩
      have stored := Accounts.hashOf_storeAccount (a := f.accounts)
        { account with dataHash := some (f.accounts.stateHash account.id) }
      dsimp only at stored
      rw [hid] at stored ⊢
      rw [stored]
      exact congrArg some (Accounts.stateHash_congr (named written) rfl)
    · have before := tracks id fun owner => absurd owner heq
      refine before.trans (.inl ⟨rfl, Accounts.hashOf_storeAccount_ne ?_⟩)
      dsimp only
      rw [hid]
      exact heq
  · rw [if_neg written] at updated
    cases updated
    exact ⟨hkeyed, fun id => tracks id fun _ => Bool.eq_false_iff.2 written⟩

/-- The moments of a tree that keep commitments keep them over the whole tree. -/
theorem committed_rule :
    TreeRule (fun w w' _ => TracksAll w.accounts w'.accounts) TracksOthers Moment.Committed where
  refl w := TracksAll.refl w.accounts
  trans first second := first.trans second
  hushed moved := moved
  looked w _ _ := TracksAll.refl w.accounts
  start _ w keyed := ⟨keyed, fun id _ => Accounts.Tracks.refl id w.accounts⟩
  effect kept _ effect := kept.effect effect
  nested kept moved _ dataUpdated := kept.moved dataUpdated moved
  faulted := by
    intro args w f fuel kept good keyed
    obtain ⟨hkeyed, tracks⟩ := kept keyed
    have clean : f.dataUpdated = false := by
      by_contra written
      have refreshed := (good (Bool.eq_true_of_not_eq_false written)).1
      cases refreshed
    exact ⟨hkeyed, fun id => tracks id fun _ => clean⟩
  finished kept good updated := kept.refreshed (fun written => (good written).2) updated
  bound := by
    intro owner w w' appHash moved same keyed
    obtain ⟨hkeyed, tracks⟩ := moved keyed
    have hid := keyed.getD_id owner
    have hhash := w.accounts.getD_dataHash owner
    generalize (w.accounts.loadAccount owner).getD (Account.new owner none) = account
      at hid hhash ⊢
    subst hid
    refine ⟨hkeyed.storeAccount _, fun id => ?_⟩
    by_cases heq : id = account.id
    · subst heq
      have stored := Accounts.hashOf_storeAccount (a := w'.accounts)
        { account with contract := appHash }
      exact .inl ⟨same, stored.trans hhash⟩
    · have kept : (w'.accounts.storeAccount { account with contract := appHash }).hashOf id =
          w'.accounts.hashOf id := Accounts.hashOf_storeAccount_ne heq
      exact (tracks id).trans (.inl ⟨rfl, kept⟩)

/-! ## Blocks that keep commitments -/

section Blocks

variable [Primitives] [Pcg32] [WmCodec]

/-- What has moved since the checkpoint is tracked as long as all moments keep
commitments. -/
structure Tidy (s t : NotedExecution) : Prop where
  saved : t.fork.saved = s.fork.saved
  noted : ∃ moments, t.wm.log = s.wm.log ++ moments ∧
    ((∀ m ∈ moments, m.Committed) → TracksAll s.fork.saved.accounts s.fork.accounts →
      TracksAll s.fork.saved.accounts t.fork.accounts)

namespace Tidy

variable {s t u : NotedExecution}

omit [Primitives] [Pcg32] [WmCodec] in
theorem refl (s : NotedExecution) : Tidy s s :=
  ⟨rfl, [], (List.append_nil _).symm, fun _ tracks => tracks⟩

omit [Primitives] [Pcg32] [WmCodec] in
theorem trans (h : Tidy s t) (h' : Tidy t u) : Tidy s u := by
  obtain ⟨hsaved, moments, hlog, tracks⟩ := h
  obtain ⟨hsaved', moments', hlog', tracks'⟩ := h'
  refine ⟨hsaved'.trans hsaved, moments ++ moments', ?_, fun good before => ?_⟩
  · rw [hlog', hlog, List.append_assoc]
  · have first := tracks (fun m hm => good m (List.mem_append_left _ hm)) before
    rw [← hsaved] at first ⊢
    exact tracks' (fun m hm => good m (List.mem_append_right _ hm)) first

omit [Primitives] [Pcg32] [WmCodec] in
/-- A function of the machine whose good trees are tracked. -/
theorem ofMachine {α : Type} {notes : World WmLocal → α → List Moment}
    {f : World WmLocal → Except MachinePanic (World WmLocal × α)}
    (hf : ∀ {w w' a}, f w = .ok (w', a) → (∀ m ∈ notes w a, m.Committed) →
      TracksAll w.accounts w'.accounts)
    {w : World (Logged Moment WmLocal)} {a : α}
    (h : Logged.run notes f (world s) = .ok (w, a)) : Tidy s (setWorld s w) := by
  obtain ⟨hrun, hlog⟩ := Logged.run_eq_ok h
  refine ⟨rfl, notes (Logged.forget (world s)) a, hlog, fun good before => ?_⟩
  exact before.trans (hf hrun good)

omit [Primitives] [Pcg32] [WmCodec] in
/-- The log grows by what is noted. -/
theorem tracks_of_committed (h : Tidy s t) (good : ∀ m ∈ notedSince s t, m.Committed)
    (before : TracksAll s.fork.saved.accounts s.fork.accounts) :
    TracksAll s.fork.saved.accounts t.fork.accounts := by
  obtain ⟨-, moments, hlog, tracks⟩ := h
  rw [notedSince, hlog, List.drop_left] at good
  exact tracks good before

end Tidy

theorem tidy_rule : ExecutorRule Tidy where
  refl := Tidy.refl
  trans := Tidy.trans
  recorded s part := ⟨rfl, [], (List.append_nil _).symm, fun _ tracks => tracks⟩
  rolledBack s := ⟨rfl, [], (List.append_nil _).symm, fun _ _ => TracksAll.refl _⟩
  called {args s w out} h := by
    refine Tidy.ofMachine (fun {w w' a} hrun good => ?_) h
    exact (committed_rule.machine_relates w.wm.stack).call good hrun
  checked {contract ctxArgs blockTimestamp s w out} h := by
    refine Tidy.ofMachine (fun {w w' a} hrun good => ?_) h
    exact (committed_rule.machine_relates w.wm.stack).appHashCheck good hrun

variable [NodeCodec]

namespace WasmConfig

variable (config : WasmConfig)

/-- A transaction is undone as a whole, or its burning keeps commitments and its handling
was undone or keeps them. -/
def TransactionCommits (tx : Transaction) (height : UInt64) (index : UInt32)
    (blockTimestamp : UInt64) (s : NotedExecution) : Prop :=
  let handled := after (config.handleTransaction tx height index blockTimestamp) (opened tx s)
  let done := after (config.executeTransaction tx height index blockTimestamp) s
  done.fork.accounts = s.fork.accounts ∨
    (handled.fork.accounts = s.fork.accounts ∨ ∀ m ∈ notedSince s handled, m.Committed) ∧
      ∀ m ∈ notedSince handled done, m.Committed

/-- Each transaction of a block does, up to the first that fails. -/
def BlockCommits (height blockTimestamp : UInt64) :
    List Transaction → (index : UInt32) → NotedExecution → Prop
  | [], _, _ => True
  | tx :: txs, index, s =>
    config.TransactionCommits tx height index blockTimestamp s ∧
      match result (config.executeTransaction tx height index blockTimestamp) s with
      | .error _ => True
      | .ok receipt => BlockCommits height blockTimestamp txs (index + 1)
          (stored tx receipt
            (after (config.executeTransaction tx height index blockTimestamp) s))

theorem executeTransaction_tracks {tx : Transaction} {height : UInt64} {index : UInt32}
    {blockTimestamp : UInt64} {s : NotedExecution}
    (commits : config.TransactionCommits tx height index blockTimestamp s) :
    TracksAll s.fork.accounts
      (after (config.executeTransaction tx height index blockTimestamp) s).fork.accounts := by
  have handling := config.handleTransaction_moves tidy_rule tx height index blockTimestamp
    (opened tx s)
  rw [TransactionCommits, after_executeTransaction] at commits
  rw [after_executeTransaction]
  generalize handled_def :
    after (config.handleTransaction tx height index blockTimestamp) (opened tx s) = handled
    at handling commits
  -- the checkpoint is the state that the transaction started from
  have checkpoint : handled.fork.saved.accounts = s.fork.accounts :=
    congrArg Db.accounts handling.saved
  have before : TracksAll (opened tx s).fork.saved.accounts (opened tx s).fork.accounts :=
    TracksAll.refl s.fork.accounts
  obtain undone | ⟨handles, burns⟩ := commits
  · rw [undone]
    exact TracksAll.refl _
  · have first : TracksAll s.fork.accounts handled.fork.accounts := by
      obtain undone | good := handles
      · rw [undone]
        exact TracksAll.refl _
      · exact handling.tracks_of_committed good before
    cases hres : result (config.handleTransaction tx height index blockTimestamp)
        (opened tx s) with
    | error e =>
      rw [(bind_error hres).1, handled_def]
      exact first
    | ok res =>
      rw [(bind_ok hres).1, handled_def] at burns ⊢
      have settling := config.settled_moves tidy_rule res height index blockTimestamp handled
      have last := settling.tracks_of_committed burns (by
        rw [checkpoint]
        exact first)
      rw [checkpoint] at last
      exact last

/-- The transactions of a block, one after the other. -/
theorem executeBlockTransactions_tracks {height blockTimestamp : UInt64}
    {txs : List Transaction} {index : UInt32} {s : NotedExecution} {hashes : List Hash}
    (h : result (config.executeBlockTransactions height blockTimestamp txs index) s = .ok hashes)
    (commits : config.BlockCommits height blockTimestamp txs index s) :
    TracksAll s.fork.accounts
      (after (config.executeBlockTransactions height blockTimestamp txs index)
        s).fork.accounts := by
  induction txs generalizing index s hashes with
  | nil => exact TracksAll.refl _
  | cons tx txs ih =>
    obtain ⟨first, rest⟩ := commits
    have executed := config.executeTransaction_tracks first
    obtain ⟨receipt, hreceipt, h, hafter⟩ := of_bind_ok h
    obtain ⟨-, -, h, hstored⟩ := of_bind_ok h
    obtain ⟨later, hlater, -, hreturn⟩ := of_bind_ok h
    rw [executeBlockTransactions, hafter, hstored, hreturn, after_pure]
    rw [hreceipt] at rest
    generalize after (config.executeTransaction tx height index blockTimestamp) s = done
      at executed rest hlater ⊢
    exact executed.trans (ih hlater rest)

end WasmConfig

omit [WasmEngine] [Pcg32] [WmCodec] in
/-- The note about the leader is tracked if it leaves the data of the service account. -/
theorem noteLeader_tracks (config : WasmConfig) (block : Block) (expectedLeader : Option String)
    (db : Db) (same : (config.noteLeader block expectedLeader db).accounts.dataOf serviceAccountId =
      db.accounts.dataOf serviceAccountId) :
    TracksAll db.accounts (config.noteLeader block expectedLeader db).accounts := by
  have tracks : ∀ b : Accounts, b.accounts = db.accounts.accounts →
      (∀ id, serviceAccountId ≠ id → b.dataOf id = db.accounts.dataOf id) →
      b.dataOf serviceAccountId = db.accounts.dataOf serviceAccountId → TracksAll db.accounts b := by
    intro b accounts others service keyed
    constructor
    · intro id account hload
      rw [Accounts.loadAccount, accounts] at hload
      exact keyed id account hload
    · intro id
      by_cases heq : serviceAccountId = id
      · subst heq
        exact Accounts.Tracks.of_data service accounts
      · exact Accounts.Tracks.of_data (others id heq) accounts
  cases expectedLeader with
  | none => exact TracksAll.refl _
  | some leader =>
    simp only [WasmConfig.noteLeader] at same ⊢
    by_cases built : leader = block.getBuilderId.getD config.nodeId
    · rw [if_pos built] at same ⊢
      exact tracks _ rfl (fun id other => Accounts.dataOf_removeAccountData_ne other _) same
    · rw [if_neg built] at same ⊢
      exact tracks _ rfl (fun id other => Accounts.dataOf_storeAccountData_ne other _ _) same

namespace WasmService

/-- The state in which the transactions of a block start, with an empty log. -/
def noted (s : WasmService WmLocal) (block : Block) (expectedLeader : Option String) :
    NotedExecution :=
  ({ s.begin with
    fork := s.begin.fork.modify (s.config.noteLeader block expectedLeader) } :
      Execution WmLocal).logged

/-- For every database, block and list of transactions: where the note about the leader
leaves the data of the service account as they are, and each transaction keeps
commitments or is undone, every account whose data differ afterwards commits to them. -/
theorem executeInFork_commits (s : WasmService WmLocal) (keyed : s.db.accounts.Keyed)
    (block : Block) (txs : List Transaction) (expectedLeader : Option String) (roots : Roots)
    (h : result (s.config.executeInFork block txs expectedLeader) s.begin = .ok roots)
    (note : (s.config.noteLeader block expectedLeader s.db).accounts.dataOf serviceAccountId =
      s.db.accounts.dataOf serviceAccountId)
    (commits : s.config.BlockCommits block.data.height block.data.timestamp txs 0
      (s.noted block expectedLeader)) :
    s.db.accounts.CommitsSince
      (after (s.config.executeInFork block txs expectedLeader) s.begin).fork.accounts := by
  have noting := noteLeader_tracks s.config block expectedLeader s.db note
  obtain ⟨-, -, h, hnoted⟩ := of_bind_ok h
  obtain ⟨hashes, hhashes, h, hexecuted⟩ := of_bind_ok h
  -- the log changes neither the result nor the fork
  have same := WasmConfig.executeBlockTransactions_related (SameLogged.congruence (L := Moment))
    (SameNetwork.refl s.config) block.data.height block.data.timestamp txs 0 _
    (s.noted block expectedLeader) rfl
  have executing := s.config.executeBlockTransactions_tracks
    (same.1.symm.trans hhashes) commits
  have fork : (after (s.config.executeBlockTransactions block.data.height block.data.timestamp txs
      0) (s.noted block expectedLeader)).fork.accounts =
      (after (s.config.executeInFork block txs expectedLeader) s.begin).fork.accounts := by
    rw [WasmConfig.executeInFork, hnoted, hexecuted]
    exact congrArg (fun t : Execution WmLocal => t.fork.accounts) same.2
  rw [← fork]
  obtain ⟨keyed', tracks⟩ := noting.trans executing keyed
  exact Accounts.commitsSince_of_tracks keyed' tracks

end WasmService

end Blocks

end Trees

/-! ## A block that only slashes -/

namespace Sample

theorem deployed_keyed (contracts : List (String × UInt8)) : (deployed contracts).Keyed := by
  have keyed : ∀ accounts : AList fun _ : String => Account,
      (∀ id account, accounts.lookup id = some account → account.id = id) →
      ∀ id account, (contracts.foldl (fun accounts entry => accounts.insert entry.1
        (Account.new entry.1 (some (contractHash entry.2)))) accounts).lookup id = some account →
        account.id = id := by
    induction contracts with
    | nil => exact fun accounts h => h
    | cons entry contracts ih =>
      intro accounts h
      refine ih (accounts.insert entry.1 (Account.new entry.1 (some (contractHash entry.2)))) ?_
      exact (Accounts.Keyed.storeAccount (a := ⟨accounts, ∅⟩) h
        (Account.new entry.1 (some (contractHash entry.2))))
  exact keyed ∅ fun id account hload => by
    rw [AList.lookup_empty] at hload
    cases hload

section Slashing

/-- Every contract stores a datum. -/
local instance storingEngine : WasmEngine := scripted fun _ =>
  .ok ⟨[], [.storeData "sold" [7]], .ok [1]⟩

/-- The service of alice's node, with a service account and a shop. -/
def aliceService : WasmService WmLocal where
  config := config
  db := { Db.empty with accounts := deployed [(serviceAccountId, 1), ("shop", 2)] }
  forksCollector := ∅
  wm := freshWm 2
  drand := SeedSource.new [] [] Hash.default Hash.default Hash.default
  executed := []
  ran := []

/-- A block that alice builds herself. -/
def alicesBlock : Block where
  data := ⟨some (keypair 1).publicKey, 1, 0, Hash.default, Hash.default, Hash.default,
    Hash.default, 0⟩
  signature := []

/-- Bob should have built the block. His slashing is noted and nothing commits to it. -/
theorem slashing_is_uncommitted :
    (∃ roots, result (aliceService.config.executeInFork alicesBlock [] (some "bob"))
      aliceService.begin = .ok roots) ∧
    ¬ aliceService.db.accounts.CommitsSince
      (after (aliceService.config.executeInFork alicesBlock [] (some "bob"))
        aliceService.begin).fork.accounts := by
  refine ⟨⟨_, rfl⟩, fun commits => ?_⟩
  obtain ⟨account, hload, hhash⟩ := commits serviceAccountId (by decide +kernel)
  cases hload
  exact absurd hhash (by decide +kernel)

/-- Alice should have built it, and her shop's datum is committed to. -/
theorem sale_is_committed : aliceService.db.accounts.CommitsSince
    (after (aliceService.config.executeInFork alicesBlock [unitOf 1 (keypair 1)] (some "alice"))
      aliceService.begin).fork.accounts := by
  refine aliceService.executeInFork_commits (deployed_keyed _) alicesBlock [unitOf 1 (keypair 1)]
    (some "alice") _ rfl (by decide +kernel) ⟨.inr ⟨.inr ?_, ?_⟩, trivial⟩
  · decide +kernel
  · decide +kernel

end Slashing

end Sample

end Trinci
