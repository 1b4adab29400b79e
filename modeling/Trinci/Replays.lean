import Trinci.ExecutionEffects
import Trinci.ForkLedgers
import Trinci.Node
import Trinci.StepMachines
import Trinci.TransactionAuthentication

/-!
# What is executed once

The database records the transactions of consolidated blocks by hash, and the roots
and nodes of their bulks as attachments. Execution writes both records and reads
neither. If the blocks that the executor takes bring nothing that is recorded and
nothing twice, then nothing is executed twice in consolidated blocks: the service
with its forks is a ledger that is extended through forks, once with the hashes of
transactions as keys and once with those of nodes.
-/

namespace Trinci

open StatefulSteps StepMachines ForkLedgers

variable {W : Type}

section Views

variable [Primitives] [NodeCodec]

/-- What is counted as executed, where it is recorded, and what a block brings. -/
structure View where
  keys : List Hash → List Ran → List Hash
  recorded : Db → Set Hash
  blockKeys : List Transaction → List Hash
  keys_nil : keys [] [] = []
  keys_append : ∀ executed executed' ran ran',
    keys (executed ++ executed') (ran ++ ran') = keys executed ran ++ keys executed' ran'
  recorded_eq : ∀ {db db'}, Db.SameLedger db db' → recorded db = recorded db'
  recorded_store : ∀ db hash tx, recorded db ⊆ recorded (db.storeTransaction hash tx)
  /-- An executed block has at most its keys executed, and records them. -/
  executes : ∀ {W : Type} {txs} {s t : Execution W}, Executes txs s t →
    s.executed = [] → s.ran = [] →
    (keys t.executed t.ran).Sublist (blockKeys txs) ∧
      recorded s.fork.working ⊆ recorded t.fork.working ∧
      ∀ key ∈ blockKeys txs, key ∈ recorded t.fork.working

/-- Transactions, by the hash they are executed under. -/
def transactionsView : View where
  keys executed _ := executed
  recorded db := {hash | hash ∈ db.transactions}
  blockKeys txs := txs.map Transaction.getHash
  keys_nil := rfl
  keys_append _ _ _ _ := rfl
  recorded_eq h := by rw [h.transactions]
  recorded_store db hash tx key hkey := by
    simp only [Set.mem_ofPred_eq, Db.storeTransaction_transactions, AList.mem_insert]
    exact .inr hkey
  executes h hexecuted _ := by
    refine ⟨?_, fun key hkey => (h.transactions key).mpr (.inl hkey),
      fun key hkey => (h.transactions key).mpr (.inr hkey)⟩
    rw [h.executed, hexecuted, List.nil_append]

/-- The nodes among what was run, by the hash of their data. -/
def nodeKeys (ran : List Ran) : List Hash :=
  (ran.filter fun part => part.part = .node).map fun part => part.data.getHash

/-- The nodes that a transaction lists, by the hash of their data. -/
def nodeHashes : Transaction → List Hash
  | .bulkTransaction ⟨.bulkV1 data, _⟩ => (data.txs.nodes.getD []).map fun node => node.data.getHash
  | _ => []

theorem nodeKeys_append (ran ran' : List Ran) :
    nodeKeys (ran ++ ran') = nodeKeys ran ++ nodeKeys ran' := by
  simp [nodeKeys]

theorem nodeKeys_sublist {ran ran' : List Ran} (h : ran.Sublist ran') :
    (nodeKeys ran).Sublist (nodeKeys ran') :=
  (h.filter _).map _

theorem nodeKeys_nodes (nodes : List SignedTransaction) :
    nodeKeys (nodes.map nodePart) = nodes.map fun node => node.data.getHash := by
  induction nodes with
  | nil => rfl
  | cons node nodes ih => exact congrArg (node.data.getHash :: ·) ih

/-- A transaction runs only nodes it lists, each at most once for each place. -/
theorem nodeKeys_partsOf (tx : Transaction) :
    (nodeKeys (partsOf tx)).Sublist (nodeHashes tx) := by
  cases tx with
  | unitTransaction tx => exact List.nil_sublist _
  | bulkTransaction tx =>
    obtain ⟨data, signature⟩ := tx
    cases data with
    | bulkV1 data =>
      have listed : ((runnableNodes (data.txs.nodes.getD [])).map fun node =>
          node.data.getHash).Sublist (nodeHashes (.bulkTransaction ⟨.bulkV1 data, signature⟩)) :=
        (List.takeWhile_sublist _).map _
      rw [← nodeKeys_nodes] at listed
      simp only [partsOf, bulkParts]
      split
      · split
        · exact listed
        · exact listed
        · exact List.nil_sublist _
      · exact List.nil_sublist _
    | _ => exact List.nil_sublist _

theorem nodeKeys_blockParts (txs : List Transaction) :
    (nodeKeys (txs.flatMap partsOf)).Sublist (txs.flatMap nodeHashes) := by
  induction txs with
  | nil => exact List.Sublist.refl _
  | cons tx txs ih =>
    rw [List.flatMap_cons, List.flatMap_cons, nodeKeys_append]
    exact (nodeKeys_partsOf tx).append ih

theorem nodeHashes_subset_attached (tx : Transaction) : nodeHashes tx ⊆ attached tx := by
  intro hash hhash
  unfold nodeHashes at hhash
  split at hhash
  · exact List.mem_cons_of_mem _ hhash
  · cases hhash

/-- The nodes of bulks. -/
def nodesView : View where
  keys _ ran := nodeKeys ran
  recorded db := {hash | hash ∈ db.attachments}
  blockKeys txs := txs.flatMap nodeHashes
  keys_nil := rfl
  keys_append _ _ ran ran' := nodeKeys_append ran ran'
  recorded_eq h := by rw [h.attachments]
  recorded_store db hash tx key hkey := Db.mem_storeTransaction_attachments.mpr (.inl hkey)
  executes h _ hran := by
    obtain ⟨extra, hextra, hsub⟩ := h.ran
    refine ⟨?_, fun key hkey => (h.attachments key).mpr (.inl hkey), fun key hkey => ?_⟩
    · rw [hextra, hran, List.nil_append]
      exact (nodeKeys_sublist hsub).trans (nodeKeys_blockParts _)
    · obtain ⟨tx, htx, hkey⟩ := List.mem_flatMap.mp hkey
      exact (h.attachments key).mpr
        (.inr (List.mem_flatMap.mpr ⟨tx, htx, nodeHashes_subset_attached tx hkey⟩))

end Views

/-! ## The wasm service as a ledger -/

namespace View

variable [Primitives] [NodeCodec] (v : View)

def forkOf (e : ExecutedFork) : Fork Hash := ⟨v.keys e.executed e.ran, v.recorded e.fork.working⟩

def ledgerOf (s : WasmService W) : Ledger Hash where
  done := v.keys s.executed s.ran
  ledger := v.recorded s.db
  forks := {f | ∃ hash e, s.forksCollector.lookup hash = some e ∧ f = v.forkOf e}

variable [Serialize BlockData] [Merkle] [Wm W]

variable {s t : WasmService W}

/-- A fork that was produced from the current database by a block of fresh keys. -/
structure Produced (s : WasmService W) (e : ExecutedFork) : Prop where
  fresh : Fresh (v.forkOf e).keys (v.recorded s.db)
  keeps : v.recorded s.db ⊆ (v.forkOf e).ledger
  records : ∀ key ∈ (v.forkOf e).keys, key ∈ (v.forkOf e).ledger

omit [Serialize BlockData] [Merkle] [Wm W] in
theorem forks_insert (s : WasmService W) (hash : Hash) (e : ExecutedFork) :
    (v.ledgerOf { s with forksCollector := s.forksCollector.insert hash e }).forks ⊆
      insert (v.forkOf e) (v.ledgerOf s).forks := by
  rintro f ⟨hash', e', hlookup, rfl⟩
  by_cases heq : hash' = hash
  · subst heq
    rw [AList.lookup_insert] at hlookup
    cases hlookup
    exact .inl rfl
  · rw [AList.lookup_insert_ne heq] at hlookup
    exact .inr ⟨hash', e', hlookup, rfl⟩

omit [Serialize BlockData] [Merkle] [Wm W] in
/-- A produced fork goes into the collector. -/
theorem insert_step {e : ExecutedFork} (produced : v.Produced s e) (hash : Hash) :
    Step (v.ledgerOf s)
      (v.ledgerOf { s with forksCollector := s.forksCollector.insert hash e }) :=
  Step.fork produced.fresh produced.keeps produced.records (v.forks_insert s hash e)

omit [Merkle] [Wm W] in
/-- A consolidation merges the fork of its block and clears the collector. -/
theorem consolidateBlock_step {block : Block} {confirmations : List Confirmation}
    {txsHashes : List Hash} {out : List WasmOutput}
    (h : s.consolidateBlock block confirmations txsHashes = .ok (t, out)) :
    Step (v.ledgerOf s) (v.ledgerOf t) := by
  obtain ⟨e, _, hfork, -, rfl, -⟩ := WasmService.consolidateBlock_ok h
  have merged := Step.merge (s := v.ledgerOf s) (f := v.forkOf e) ⟨_, e, hfork, rfl⟩
  have same : v.recorded (e.fork.working.storeBlock block confirmations) =
      v.recorded e.fork.working := v.recorded_eq ⟨rfl, rfl⟩
  have cleared : {f | ∃ hash e', (∅ : AList fun _ : Hash => ExecutedFork).lookup hash =
      some e' ∧ f = v.forkOf e'} = ∅ := by
    ext f
    simp
  simpa [ledgerOf, forkOf, v.keys_append, same, cleared] using merged

omit [Merkle] [Wm W] in
theorem updateDbFork_steps {block : Block} {round : UInt8} {txsHashes : List Hash}
    {roots : Roots} {e : ExecutedFork} {out : List WasmOutput} (produced : v.Produced s e)
    (outcome : s.UpdateOutcome block round txsHashes roots e t out) :
    Steps (v.ledgerOf s) (v.ledgerOf t) := by
  have inserted := fun hash => Relation.ReflTransGen.single (v.insert_step produced hash)
  cases outcome with
  | announced _ => exact inserted _
  | rejected _ _ _ => exact Relation.ReflTransGen.refl
  | confirmed _ _ _ _ _ => exact inserted _
  | settled _ _ hconsolidate => exact (inserted _).tail (v.consolidateBlock_step hconsolidate)

omit [Serialize BlockData] in
/-- What the execution of a block of fresh keys leaves is such a fork. -/
theorem produced_of_executeInFork {block : Block} {txs : List Transaction}
    {expectedLeader : Option String} {roots : Roots}
    (fresh : Fresh (v.blockKeys txs) (v.recorded s.db))
    (h : result (s.config.executeInFork block txs expectedLeader) s.begin = .ok roots)
    (t : WasmService W) (same : t.db = s.db) :
    v.Produced t
      (let done := after (s.config.executeInFork block txs expectedLeader) s.begin
       ⟨done.fork, done.executed, done.ran⟩) := by
  have executes := s.config.executeInFork_executes block txs expectedLeader s.begin roots h
  obtain ⟨hkeys, hkeeps, hrecords⟩ := v.executes executes rfl rfl
  constructor
  · rw [same]
    exact fresh.sublist hkeys
  · rw [same]
    exact hkeeps
  · exact fun key hkey => hrecords key (hkeys.subset hkey)

theorem executeBlock_steps {block : Block} {round : UInt8} {txs : List Transaction}
    {expectedLeader : Option String} {ok : Bool} {out : List WasmOutput}
    (fresh : (s.db.loadBlock block.data.height).isSome = false →
      Fresh (v.blockKeys txs) (v.recorded s.db))
    (h : s.executeBlock block round txs expectedLeader = .ok (ok, t, out)) :
    Steps (v.ledgerOf s) (v.ledgerOf t) := by
  cases WasmService.executeBlock_outcome h with
  | stored _ => exact Relation.ReflTransGen.refl
  | failed _ _ => exact Relation.ReflTransGen.refl
  | executed absent hroots hdone outcome =>
    cases hdone
    have produced := v.produced_of_executeInFork (fresh absent) hroots
    -- a ledger does not depend on the machine and the seed source that the execution left
    have steps := v.updateDbFork_steps (produced _ (by rfl)) outcome
    exact steps

omit [Serialize BlockData] [Merkle] [Wm W] in
theorem foldl_storeTransaction_recorded (txs : List Transaction) (db : Db) :
    v.recorded db ⊆ v.recorded (txs.foldl (fun db tx =>
      db.storeTransaction (Hash.primary (rmpSerialize tx)) tx) db) := by
  induction txs generalizing db with
  | nil => exact subset_rfl
  | cons tx txs ih => exact (v.recorded_store db _ tx).trans (ih _)

omit [Serialize BlockData] [Merkle] [Wm W] in
/-- The settings of the genesis block only add records. -/
theorem settleGenesis_step {txs : List Transaction} {networkName : String}
    (h : s.settleGenesis txs networkName = .ok t) : Step (v.ledgerOf s) (v.ledgerOf t) := by
  obtain ⟨settings, -, rfl⟩ := WasmService.settleGenesis_ok h
  have same : v.recorded s.db = v.recorded (s.db.storeConfiguration settingsKey
      (rmpSerialize { settings with networkName := some networkName })) :=
    v.recorded_eq ⟨rfl, rfl⟩
  refine Step.grow ?_ subset_rfl
  refine (subset_of_eq same).trans ?_
  exact v.foldl_storeTransaction_recorded txs _

end View

/-- The transactions that are executed for a block, unless there is one at its height. -/
def Db.takes (db : Db) (block : Block) (txs : List Transaction) : Option (List Transaction) :=
  if (db.loadBlock block.data.height).isSome then none else some txs

theorem Db.takes_of_absent {db : Db} {block : Block} (txs : List Transaction)
    (absent : (db.loadBlock block.data.height).isSome = false) :
    db.takes block txs = some txs := by
  rw [takes, absent]
  rfl

/-- The transactions that an input has executed. -/
def WasmInput.taken (db : Db) : WasmInput → Option (List Transaction)
  | .executeBlock block _ txs _ => db.takes block txs
  | .executeGenesisBlock block txs _ _ => db.takes block txs
  | _ => none

/-- The service is a ledger extended through forks, as long as it takes fresh blocks. -/
theorem View.handle_steps [Primitives] [NodeCodec] [Serialize BlockData] [Merkle] [Pcg32] [Wm W]
    (v : View) {s t : WasmService W} {input : WasmInput} {out : List WasmOutput}
    (fresh : ∀ txs, input.taken s.db = some txs → Fresh (v.blockKeys txs) (v.recorded s.db))
    (h : s.handle input = .ok (t, out)) : Steps (v.ledgerOf s) (v.ledgerOf t) := by
  cases input with
  | executeBlock block round txs expectedLeader =>
    obtain ⟨⟨ok, u, sent⟩, hexecuted, h⟩ := bind_eq_ok.mp h
    cases h
    exact v.executeBlock_steps (fun absent => fresh txs (Db.takes_of_absent txs absent)) hexecuted
  | startBlockConsolidation block confirmations txsHashes =>
    exact Relation.ReflTransGen.single (v.consolidateBlock_step h)
  | executeGenesisBlock block txs networkName expectedLeader =>
    obtain ⟨⟨ok, u, sent⟩, hexecuted, h⟩ := bind_eq_ok.mp h
    have steps := v.executeBlock_steps
      (fun absent => fresh txs (Db.takes_of_absent txs absent)) hexecuted
    cases ok with
    | false =>
      cases h
      exact steps
    | true =>
      obtain ⟨settled, hsettled, h⟩ := bind_eq_ok.mp h
      cases h
      exact steps.tail (v.settleGenesis_step hsettled)
  | updateSeedSource previousBlockHash txsHash rxsHash =>
    cases h
    exact Relation.ReflTransGen.refl
  | getDRandNum max =>
    cases h
    exact Relation.ReflTransGen.refl

/-! ## Runs of a node -/

/-- The blocks for the executor among the messages, by what it executes of them. -/
def blockOf (db : Db) : NodeOutput → Option (List Transaction)
  | .msg .nodeInterface (.executeBlock block _ txs) => db.takes block txs
  | _ => none

/-- Blocks for the executor do not come from outside. -/
theorem blockOf_outside {db : Db} {msg : NodeOutput} (h : fromOutside msg = true) :
    blockOf db msg = none := by
  unfold blockOf
  split
  · cases h
  · rfl

section Nodes

variable [Primitives] [Serialize BlockData] [Serialize ConfirmationData] [NodeCodec] [Merkle]
  [Pcg32] [Wm W]

/-- The transactions that an input gives the executor to execute. -/
def Node.taken (n : Node W) : NodeInput → Option (List Transaction)
  | .deliver index _ => n.inFlight[index]?.bind (blockOf n.wasm.db)
  | .bootstrap block bootstrapTxs _ _ => n.wasm.db.takes block bootstrapTxs
  | _ => none

/-- What the node does to its wasm service: nothing, or one of its inputs. -/
def WasmMoves (n n' : Node W) (taken : Option (List Transaction)) : Prop :=
  n'.wasm = n.wasm ∨
    ∃ input out, n.wasm.handle input = .ok (n'.wasm, out) ∧ input.taken n.wasm.db = taken

omit [Serialize ConfirmationData] in
theorem Node.execute_moves {n n' : Node W} {input : WasmInput} {out : List NodeOutput}
    (h : n.execute input = .ok (n', out)) : WasmMoves n n' (input.taken n.wasm.db) := by
  unfold Node.execute at h
  cases hwasm : n.wasm.handle input with
  | error p =>
    rw [hwasm] at h
    cases h
  | ok result =>
    obtain ⟨wasm, sent⟩ := result
    rw [hwasm] at h
    cases h
    exact .inr ⟨input, out, hwasm, rfl⟩

omit [Serialize ConfirmationData] in
theorem Node.coreInterface_moves {n n' : Node W} {env : NodeEnv} {msg : NodeMsg}
    {out : List NodeOutput} (h : n.coreInterface env msg = .ok (n', out)) :
    WasmMoves n n' (blockOf n.wasm.db (.msg .nodeInterface msg)) := by
  cases msg with
  | executeBlock block round txs => exact Node.execute_moves h
  | startBlockConsolidation block confirmations txsHashes => exact Node.execute_moves h
  | _ =>
    cases h
    exact .inl rfl

theorem Node.receive_moves {n n' : Node W} {env : NodeEnv} {msg : NodeOutput}
    {out : List NodeOutput} (h : n.receive env msg = .ok (n', out)) :
    WasmMoves n n' (blockOf n.wasm.db msg) := by
  unfold Node.receive at h
  split at h
  · split at h
    · cases h
    · cases h
      exact .inl rfl
  · split at h
    · cases h
    · cases h
      exact .inl rfl
  · split at h
    · cases h
    · cases h
      exact .inl rfl
  · exact Node.execute_moves h
  · exact Node.execute_moves h
  · exact Node.coreInterface_moves h
  · cases h
    exact .inl rfl

theorem Node.respond_moves {n n' : Node W} {input : NodeInput} {out : List NodeOutput}
    (h : n.respond input = .ok (n', out)) : WasmMoves n n' (n.taken input) := by
  cases input with
  | deliver index env =>
    simp only [Node.respond] at h
    simp only [Node.taken]
    cases hmsg : n.inFlight[index]? with
    | none =>
      rw [hmsg] at h
      cases h
      exact .inl rfl
    | some msg =>
      rw [hmsg] at h
      have moves := Node.receive_moves (n := { n with inFlight := n.inFlight.eraseIdx index }) h
      exact moves
  | outside msg env =>
    simp only [Node.respond] at h
    split at h
    · next houtside =>
      have moves := Node.receive_moves h
      rwa [blockOf_outside houtside] at moves
    · cases h
      exact .inl rfl
  | submit tx =>
    simp only [Node.respond] at h
    split at h
    · cases h
      exact .inl rfl
    · split at h
      · cases h
        exact .inl rfl
      · cases h
        exact .inl rfl
  | oldTransactions txs =>
    cases h
    exact .inl rfl
  | bootstrap block txs networkName expectedLeader => exact Node.execute_moves h

theorem Node.handle_moves {n n' : Node W} {input : NodeInput} {out : List NodeOutput}
    (h : n.handle input = .ok (n', out)) : WasmMoves n n' (n.taken input) := by
  unfold Node.handle at h
  cases hrespond : n.respond input with
  | error p =>
    rw [hrespond] at h
    cases h
  | ok result =>
    obtain ⟨last, sent⟩ := result
    rw [hrespond] at h
    cases h
    exact (Node.respond_moves hrespond : WasmMoves n last _)

/-- A node whose wasm service has executed nothing yet. -/
def Node.Fresh (n : Node W) : Prop :=
  n.wasm.executed = [] ∧ n.wasm.ran = [] ∧ n.wasm.forksCollector = ∅

/-- In every run whose blocks are fresh when the executor takes them, what is done in
consolidated blocks is done once, and nothing that was recorded at the start. -/
theorem View.run_once (v : View) {start : Node W} (hstart : start.Fresh)
    {trace : List (Event (Node W) NodeInput NodeOutput)} {n : Node W}
    (run : Run (Computes Node.handle) start trace n)
    (fresh : Along (fun _ e => ∀ txs, e.before.taken e.input = some txs →
      ForkLedgers.Fresh (v.blockKeys txs) (v.recorded e.before.wasm.db)) trace) :
    Once (v.recorded start.wasm.db) (v.ledgerOf n.wasm) := by
  refine run.invariant (fun _ n => Once (v.recorded start.wasm.db) (v.ledgerOf n.wasm)) ?_ ?_ fresh
  · obtain ⟨hexecuted, hran, hforks⟩ := hstart
    have empty : v.ledgerOf start.wasm = ⟨[], v.recorded start.wasm.db, ∅⟩ := by
      simp [View.ledgerOf, hexecuted, hran, hforks, v.keys_nil]
    rw [empty]
    exact once_start _
  · intro trace s m out s' once hstep hfresh
    obtain heq | ⟨input, sent, hwasm, htaken⟩ := Node.handle_moves hstep
    · rw [heq]
      exact once
    · refine once.steps (v.handle_steps (fun txs htxs => ?_) hwasm)
      exact hfresh txs (htaken ▸ htxs)

/-- Every block the executor takes, and has none at the height of, lists each transaction
once, and none that the database records. -/
def FreshTransactions (n : Node W) (input : NodeInput) : Prop :=
  ∀ txs ∈ n.taken input, (txs.map Transaction.getHash).Nodup ∧
    ∀ tx ∈ txs, tx.getHash ∉ n.wasm.db.transactions

/-- Every block the executor takes, and has none at the height of, lists each bulk node
once, and none that the database records as an attachment. -/
def FreshNodes (n : Node W) (input : NodeInput) : Prop :=
  ∀ txs ∈ n.taken input, (txs.flatMap nodeHashes).Nodup ∧
    ∀ hash ∈ txs.flatMap nodeHashes, hash ∉ n.wasm.db.attachments

instance (n : Node W) (input : NodeInput) : Decidable (FreshTransactions n input) :=
  inferInstanceAs (Decidable (∀ txs ∈ n.taken input, _))

instance (n : Node W) (input : NodeInput) : Decidable (FreshNodes n input) :=
  inferInstanceAs (Decidable (∀ txs ∈ n.taken input, _))

/-- No transaction is executed twice in consolidated blocks, and none that the
database recorded at the start of the run. -/
theorem transactions_executed_once {start : Node W} (hstart : start.Fresh)
    {trace : List (Event (Node W) NodeInput NodeOutput)} {n : Node W}
    (run : Run (Computes Node.handle) start trace n)
    (fresh : Along (fun _ e => FreshTransactions e.before e.input) trace) :
    n.wasm.executed.Nodup ∧ ∀ hash ∈ n.wasm.executed, hash ∉ start.wasm.db.transactions := by
  have once := transactionsView.run_once hstart run <| fresh.imp fun _ e h txs htaken => by
    obtain ⟨hnodup, hnew⟩ := h txs htaken
    refine ⟨hnodup, fun hash hhash => ?_⟩
    obtain ⟨tx, htx, rfl⟩ := List.mem_map.mp hhash
    exact hnew tx htx
  exact ⟨once.nodup, once.notBase⟩

/-- No bulk node is executed twice in consolidated blocks, whatever bulk lists it,
and none that the database recorded at the start of the run. -/
theorem nodes_executed_once {start : Node W} (hstart : start.Fresh)
    {trace : List (Event (Node W) NodeInput NodeOutput)} {n : Node W}
    (run : Run (Computes Node.handle) start trace n)
    (fresh : Along (fun _ e => FreshNodes e.before e.input) trace) :
    (nodeKeys n.wasm.ran).Nodup ∧
      ∀ hash ∈ nodeKeys n.wasm.ran, hash ∉ start.wasm.db.attachments := by
  have once := nodesView.run_once hstart run <| fresh.imp fun _ e h txs htaken =>
    ⟨(h txs htaken).1, (h txs htaken).2⟩
  exact ⟨once.nodup, once.notBase⟩

end Nodes

/-! ## A node that is its own network -/

namespace Sample

def genesis : Block where
  data := ⟨none, 0, 0, Hash.default, Hash.default, Hash.default, Hash.default, 0⟩
  signature := []

/-- The database after the genesis block, with alice as the only player. -/
def firstDb : Db :=
  { Db.empty with
    accounts := ⟨∅, ((∅ : AList fun _ : String × String => Bytes).insert
      (serviceAccountId, validatorsKey) [1]).insert
      (serviceAccountId, "blockchain:validators:alice") [1]⟩
    blocks := [genesis]
    confirmations := [[]] }

/-- The node of alice, on a machine whose calls succeed. -/
def alone : Trinci.Node Willing where
  consensus :=
    { actualRound := 0
      blocksCollector := ∅
      blockProposals := []
      consolidationInProgress := none
      height := 0
      keypair := keypair 1
      lastBlockHash := genesis.getHash
      leader := "alice"
      nodeId := "alice"
      players := ⟨["alice"], [1]⟩
      proposalExitPoll := [] }
  blockService :=
    { BlockService.start (keypair 1) "alice" (some genesis) with actualRound := 0 }
  transactionService := TransactionService.start "alice"
  wasm :=
    { config := config
      db := firstDb
      forksCollector := ∅
      wm := .mk
      drand := SeedSource.new [] [] genesis.getHash Hash.default Hash.default
      executed := []
      ran := [] }
  inFlight := []

/-- The answers in the network of alice, with the transactions in her pool. -/
def answers (pool : List Transaction) : NodeEnv :=
  let hashes := pool.map fun tx => (tx.getHash, (rmpSerialize tx).length)
  { consensus := ⟨0, 0, 0, fun _ => none, fun _ => none⟩
    block :=
      { now := 7
        isLeader := .answer true
        builtFrom := .answer hashes
        unconfirmedHashes := .answer hashes
        actualPlayers := .failed
        actualPlayersAgain := .failed
        getTxs := fun _ => .failed
        getFullBlock := fun _ => .failed
        getNeighbors := .failed
        getLastBlockInfo := fun _ => .failed
        iterate := id }
    now := fun _ => 0
    expectedLeader := some "alice" }

/-- The timer of the height fires and the block of the pool is built, executed,
proposed and consolidated. `place` is the first free place among the messages. -/
def consolidate (pool : List Transaction) (height : UInt64) (place : Nat) : List Trinci.NodeInput :=
  .outside (.msg .blockService (.buildBlockTimeout height)) (answers pool) ::
    [place, place + 1, place + 1, place + 1, place + 2, place + 2, place + 2].map
      fun index => .deliver index (answers pool)

/-- A transaction is submitted twice before it is executed. Its second copy reaches
the pool after the block with the first one. -/
def resubmitted : List Trinci.NodeInput :=
  let tx := unitOf 1 (keypair 1)
  [.submit tx, .submit tx, .deliver 0 (answers [])] ++ consolidate [tx] 0 2 ++
    [.deliver 0 (answers [])] ++ consolidate [tx] 1 5

/-- The node of alice executes the transaction in both blocks. -/
theorem alice_replays : alone.Fresh ∧ ∃ trace n, Run (Computes Node.handle) alone trace n ∧
    n.wasm.executed = [(unitOf 1 (keypair 1)).getHash, (unitOf 1 (keypair 1)).getHash] ∧
    ¬ n.wasm.executed.Nodup := by
  refine ⟨⟨rfl, rfl, rfl⟩, traceOf Node.handle alone resubmitted,
    finalOf Node.handle alone resubmitted, traceOf_run (by decide +kernel), ?_, ?_⟩
  · decide +kernel
  · decide +kernel

/-- The same transaction once, and another one in the next block. -/
def submittedOnce : List Trinci.NodeInput :=
  let tx := unitOf 1 (keypair 1)
  let other := unitOf 2 (keypair 1)
  [.submit tx, .submit other, .deliver 0 (answers [])] ++ consolidate [tx] 0 2 ++
    [.deliver 0 (answers [])] ++ consolidate [other] 1 5

theorem alice_executes_once :
    (finalOf Node.handle alone submittedOnce).wasm.executed =
      [(unitOf 1 (keypair 1)).getHash, (unitOf 2 (keypair 1)).getHash] ∧
    (finalOf Node.handle alone submittedOnce).wasm.executed.Nodup :=
  have permitted : (traceOf Node.handle alone submittedOnce).all (fun e =>
      decide (FreshTransactions e.before e.input)) = true := by decide +kernel
  ⟨by decide +kernel,
    (transactions_executed_once ⟨rfl, rfl, rfl⟩ (traceOf_run (by decide +kernel))
      ((along_of_all permitted).imp fun _ _ h => of_decide_eq_true h)).1⟩

/-! Two bulks of alice's with the same root share a node of bob's. -/

def bobsNode : SignedTransaction :=
  signed (keypair 2) (nodeOf (emptyRoot 1 (keypair 1)) 2 (keypair 2).publicKey)

def carolsNode : SignedTransaction :=
  signed (keypair 3) (nodeOf (emptyRoot 1 (keypair 1)) 3 (keypair 3).publicKey)

def overlapping : List Transaction :=
  [bulkOf (keypair 1) (emptyRoot 1 (keypair 1)) [bobsNode],
    bulkOf (keypair 1) (emptyRoot 1 (keypair 1)) [bobsNode, carolsNode]]

def separate : List Transaction :=
  [bulkOf (keypair 1) (emptyRoot 1 (keypair 1)) [bobsNode],
    bulkOf (keypair 1) (emptyRoot 1 (keypair 1)) [carolsNode]]

/-- The two bulks are submitted and go into one block. -/
def submitBoth (txs : List Transaction) : List Trinci.NodeInput :=
  txs.map .submit ++ [.deliver 0 (answers []), .deliver 0 (answers [])] ++ consolidate txs 0 1

/-- Both bulks verify, and both execute the node of bob's. -/
theorem alice_repeats_node : alone.Fresh ∧ (∀ tx ∈ overlapping, tx.verify = .ok true) ∧
    ∃ trace n, Run (Computes Node.handle) alone trace n ∧
      n.wasm.executed.Nodup ∧
      (nodeKeys n.wasm.ran).count bobsNode.data.getHash = 2 ∧ ¬ (nodeKeys n.wasm.ran).Nodup := by
  refine ⟨⟨rfl, rfl, rfl⟩, by decide +kernel, traceOf Node.handle alone (submitBoth overlapping),
    finalOf Node.handle alone (submitBoth overlapping), traceOf_run (by decide +kernel), ?_, ?_, ?_⟩
  · decide +kernel
  · decide +kernel
  · decide +kernel

theorem alice_runs_nodes_once :
    nodeKeys (finalOf Node.handle alone (submitBoth separate)).wasm.ran =
      [carolsNode.data.getHash, bobsNode.data.getHash] ∧
    (nodeKeys (finalOf Node.handle alone (submitBoth separate)).wasm.ran).Nodup :=
  have permitted : (traceOf Node.handle alone (submitBoth separate)).all (fun e =>
      decide (FreshNodes e.before e.input)) = true := by decide +kernel
  ⟨by decide +kernel,
    (nodes_executed_once ⟨rfl, rfl, rfl⟩ (traceOf_run (by decide +kernel))
      ((along_of_all permitted).imp fun _ _ h => of_decide_eq_true h)).1⟩

end Sample

end Trinci
