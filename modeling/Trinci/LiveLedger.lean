import Trinci.HashChains
import Trinci.LiveChain
import Trinci.ReceiptLedgers

/-!
# The ledger of a node

A block commits to its transactions and to their receipts by the roots of the hashes that
the database lists at its height, and to the accounts as it left them. The roots were
computed in the fork of the block, which becomes the database when the block is
consolidated; so in every state of a node the blocks have the roots of what is there.
The chain commits to all of it: nodes with the same last block have the same ledger.
-/

namespace Trinci

open StepMachines StatefulSteps

variable {W : Type}

namespace LiveNode

/-- The receipts of the blocks, one after the other. -/
def receiptsOf [Primitives] [Serialize TransactionData]
    (blocks : List (FullBlock Block Confirmation Transaction))
    (receipts : List (List Receipt)) : AList fun _ : Hash => Receipt :=
  (blocks.zip receipts).foldl (fun map entry => storeReceipts entry.1.txs entry.2 map) ∅

variable [Primitives] [NodeCodec] [Merkle]

/-- What the database has of a block of the chronicle and its receipts. -/
structure Entered (db : Db) (height : UInt64)
    (fullBlock : FullBlock Block Confirmation Transaction) (receipts : List Receipt) : Prop where
  placed : ReceiptsFrom height 0 fullBlock.txs receipts
  txsListed : db.transactionsHashes.lookup height =
    some (fullBlock.txs.map (WasmConfig.listedHash height))
  listed : db.receiptsHashes.lookup height = some (receipts.map Receipt.getHash)
  txsHash : fullBlock.block.data.txsHash =
    Merkle.listRoot (fullBlock.txs.map (WasmConfig.listedHash height))
  rxsHash : fullBlock.block.data.rxsHash = Merkle.listRoot (receipts.map Receipt.getHash)

/-- The database has the receipts of every block, and the blocks have its roots. -/
structure Accounted (c : Chronicle) (receipts : List (List Receipt)) (db : Db) : Prop where
  count : receipts.length = c.blocks.length
  entered : ∀ (i : Nat) fullBlock rxs, c.blocks[i]? = some fullBlock → receipts[i]? = some rxs →
    Entered db (UInt64.ofNat i) fullBlock rxs
  unlisted : ∀ height : UInt64, c.blocks.length ≤ height.toNat →
    db.receiptsHashes.lookup height = none
  stored : db.receipts = receiptsOf c.blocks receipts
  stateHash : ∀ fullBlock, c.blocks.getLast? = some fullBlock →
    fullBlock.block.data.stateHash = db.accounts.stateHash ""

variable [Serialize BlockData]

def rootsOf (block : Block) : Roots :=
  ⟨block.data.stateHash, block.data.txsHash, block.data.rxsHash⟩

/-- Every fork was left by the execution of a block for the next height, and has the roots
of the block that was given to the consensus. -/
def ForksRooted (earlier : List (LiveEvent W)) (c : Chronicle) (n : LiveNode W) : Prop :=
  ∀ key forked, n.wasm.forksCollector.lookup key = some forked →
    ∃ e ∈ earlier, ∃ given txs receipts, execution e = some (given, txs) ∧ given.getHash = key ∧
      c.executed.lookup key = some txs ∧ Extends n.wasm.db given ∧
      Rooted n.wasm.db given.data.height txs (rootsOf given) receipts forked.fork.working

section Steps

variable [Serialize ConfirmationData] [Pcg32] [Wm W] {n n' : LiveNode W}
  {input : LiveInput W} {out : List NodeOutput} {tip : Option Block} {c : Chronicle}
  {earlier : List (LiveEvent W)} {receipts : List (List Receipt)}

/-- The fork of a block that is executed has its roots. -/
theorem execution_rooted {given : Block} {txs : List Transaction} (ordered : Ordered n tip)
    (step : LiveStep n input out n') (he : execution ⟨n, input, out, n'⟩ = some (given, txs)) :
    ∃ forked rxs, n'.wasm.db = n.wasm.db ∧
      n'.wasm.forksCollector = n.wasm.forksCollector.insert given.getHash forked ∧
      Rooted n.wasm.db given.data.height txs (rootsOf given) rxs forked.fork.working := by
  cases step with
  | @finishes block round taken leader wasm _ htaken hwasm =>
    simp only [execution, htaken] at he
    have positive := (ordered.taken _ htaken).positive
    cases executeBlock_step positive hwasm with
    | dropped _ => cases he
    | @kept _ _ given' _ _ _ _ _ _ sent =>
      have same : (given', taken) = (given, txs) := by
        rcases sent with rfl | rfl
        · exact Option.some.inj he
        · exact Option.some.inj he
      cases same
      obtain ⟨roots, hroots, height, rfl⟩ := executeBlock_given positive hwasm sent
      obtain ⟨rxs, rooted⟩ := forkAfter_rooted hroots
      rw [← height] at rooted
      exact ⟨_, rxs, rfl, rfl, rooted⟩
  | enters entry _ => cases input <;> first | cases he | cases entry
  | _ => cases he

omit [Serialize ConfirmationData] [Pcg32] [Wm W] in
/-- A block is entered with the fork that is merged, and stays entered. -/
theorem Accounted.consolidate (h : Accounted c receipts n.wasm.db) (recorded : Recorded c n)
    {block : Block} {confirmations : List Confirmation} {forked : ExecutedFork}
    {txs : List Transaction} {rxs : List Receipt}
    (recorded' : Recorded ⟨c.blocks ++ [⟨block, confirmations, txs⟩], c.executed⟩ n')
    (onTop : Extends n.wasm.db block)
    (rooted : Rooted n.wasm.db block.data.height txs (rootsOf block) rxs forked.fork.working)
    (db : n'.wasm.db = forked.fork.working.storeBlock block confirmations) :
    Accounted ⟨c.blocks ++ [⟨block, confirmations, txs⟩], c.executed⟩ (receipts ++ [rxs])
      n'.wasm.db := by
  have length := recorded.length
  have next : block.data.height = UInt64.ofNat c.blocks.length := by
    rw [length, ← onTop.height, UInt64.ofNat_toNat]
  have located : block.data.height.toNat = c.blocks.length := onTop.height.trans length.symm
  have unlisted := h.unlisted block.data.height located.symm.le
  have untaken := recorded.unlisted block.data.height onTop.height.symm.le
  obtain ⟨placed, stored, listed, txsRoot, rxsRoot, stateHash⟩ := rooted
  rw [unlisted, Option.getD_none, List.nil_append] at listed rxsRoot
  rw [untaken, Option.getD_none, List.nil_append] at txsRoot
  have hashes : n'.wasm.db.receiptsHashes = forked.fork.working.receiptsHashes := by
    rw [db]
    rfl
  have apart : ∀ height : UInt64, height ≠ block.data.height →
      n'.wasm.db.receiptsHashes.lookup height = n.wasm.db.receiptsHashes.lookup height := by
    intro height other
    rw [hashes, listed]
    exact AList.lookup_insert_ne other
  constructor
  · rw [List.length_append, List.length_append, h.count]
    rfl
  · intro i fullBlock rs hentry hrs
    obtain ⟨below, hblock⟩ | ⟨rfl, rfl⟩ := getElem?_concat_cases hentry
    · obtain ⟨-, hrs⟩ | ⟨rfl, -⟩ := getElem?_concat_cases hrs
      · obtain ⟨placed, -, listed, txsHash, rxsHash⟩ := h.entered i fullBlock rs hblock hrs
        refine ⟨placed, recorded'.listed i fullBlock hentry, ?_, txsHash, rxsHash⟩
        rw [apart, listed]
        rw [next]
        have room : c.blocks.length < 2 ^ 64 := located ▸ block.data.height.toNat_lt
        intro same
        have := congrArg UInt64.toNat same
        rw [UInt64.toNat_ofNat_of_lt' (show i < 2 ^ 64 by omega),
          UInt64.toNat_ofNat_of_lt' room] at this
        omega
      · exact absurd h.count below.ne
    · obtain ⟨below, -⟩ | ⟨-, rfl⟩ := getElem?_concat_cases hrs
      · exact absurd h.count below.ne'
      · rw [← next]
        refine ⟨placed, ?_, ?_, txsRoot, rxsRoot⟩
        · rw [next]
          exact recorded'.listed _ _ hentry
        · rw [hashes, listed, AList.lookup_insert]
  · intro height above
    rw [List.length_append, List.length_singleton] at above
    rw [apart]
    · exact h.unlisted height (by omega)
    · rintro rfl
      omega
  · rw [receiptsOf, List.zip_append h.count.symm, List.foldl_append]
    change n'.wasm.db.receipts = storeReceipts txs rxs (receiptsOf c.blocks receipts)
    rw [← h.stored, ← stored, db]
    rfl
  · intro fullBlock last
    rw [List.getLast?_concat, Option.some.injEq] at last
    subst last
    rw [db]
    exact stateHash

theorem ForksRooted.step (h : ForksRooted earlier c n) (ordered : Ordered n tip)
    (hstep : n.handle input = .ok (n', out)) :
    ForksRooted (earlier ++ [⟨n, input, out, n'⟩]) (note c ⟨n, input, out, n'⟩) n' := by
  have step := handle_step hstep
  unfold note
  split
  · next block confirmations _ hc =>
    obtain ⟨-, -, -, forks⟩ := consolidation_ok hstep hc
    intro key forked hforked
    rw [forks] at hforked
    cases hforked
  · next given txs _ he =>
    obtain ⟨fork, rxs, db, forks, rooted⟩ := execution_rooted ordered step he
    have onTop := execution_extends ordered step he
    intro key forked hforked
    rw [forks] at hforked
    rw [db]
    by_cases new : key = given.getHash
    · subst new
      rw [AList.lookup_insert] at hforked
      cases hforked
      exact ⟨_, by simp, given, txs, rxs, he, rfl, AList.lookup_insert _, onTop, rooted⟩
    · rw [AList.lookup_insert_ne new] at hforked
      obtain ⟨e, hmem, given', txs', rxs', he', hkey, hexecuted, rest⟩ := h key forked hforked
      exact ⟨e, List.mem_append_left _ hmem, given', txs', rxs', he', hkey,
        (AList.lookup_insert_ne new).trans hexecuted, rest⟩
  · next hc he =>
    obtain ⟨db, forks⟩ := step.keeps_db ordered hc he
    intro key forked hforked
    obtain ⟨e, hmem, rest⟩ := h key forked (forks key forked hforked)
    rw [db]
    exact ⟨e, List.mem_append_left _ hmem, rest⟩

/-- Every step keeps the ledger accounted for. -/
theorem Accounted.step (h : Accounted c receipts n.wasm.db) (ordered : Ordered n tip)
    (recorded : Recorded c n) (recorded' : Recorded (note c ⟨n, input, out, n'⟩) n')
    (rooted : ForksRooted earlier c n) (hstep : n.handle input = .ok (n', out))
    (apart : ToldApart earlier ⟨n, input, out, n'⟩) :
    ∃ receipts', Accounted (note c ⟨n, input, out, n'⟩) receipts' n'.wasm.db := by
  unfold note at recorded' ⊢
  -- only the chronicle of a consolidation has a new block
  split
  · next _ block confirmations hc =>
    obtain ⟨forked, hforked, db, -⟩ := consolidation_ok hstep hc
    obtain ⟨e, he, given, txs, rxs, hgiven, hkey, hexecuted, onTop, rooted⟩ := rooted _ _ hforked
    -- the block that is consolidated is the one that was executed
    have same := apart block confirmations hc e he given txs hgiven hkey
    have onTop : Extends n.wasm.db block :=
      { positive := same ▸ onTop.positive
        height := same ▸ onTop.height
        room := same ▸ onTop.room
        prevHash := same ▸ onTop.prevHash }
    rw [rootsOf, same] at rooted
    rw [hc] at recorded'
    dsimp only at recorded'
    rw [hexecuted] at recorded'
    rw [hexecuted]
    exact ⟨receipts ++ [rxs], h.consolidate recorded recorded' onTop rooted db⟩
  · next given txs _ he =>
    obtain ⟨-, -, db, -, -⟩ := execution_rooted ordered (handle_step hstep) he
    rw [db]
    exact ⟨receipts, h.count, h.entered, h.unlisted, h.stored, h.stateHash⟩
  · next hc he =>
    obtain ⟨db, -⟩ := (handle_step hstep).keeps_db ordered hc he
    rw [db]
    exact ⟨receipts, h⟩

/-! ## Every run -/

section Started

variable {env : Env} {keypair : TrinciKeyPair} {nodeId : String} {wm : W} {accounts : Accounts}
  {bootstrapTxs : List Transaction} {networkName : String} {start : LiveNode W}
  {trace : List (LiveEvent W)}

omit [Serialize ConfirmationData] in
/-- The first start enters the genesis block. -/
theorem accounted_of_bootstrap
    (h : bootstrap env keypair nodeId wm accounts bootstrapTxs networkName = .ok n) :
    ∃ receipts, Accounted (chronicle n bootstrapTxs []) receipts n.wasm.db := by
  obtain ⟨core, wasm, out, named, some, -, hwasm, sent, rfl⟩ := bootstrap_ok h
  obtain ⟨players, roots, settings, hroots, db, forks, -, rfl⟩ :=
    executeGenesisBlock_settles rfl (UInt64.lt_irrefl 0) named hwasm sent
  obtain ⟨rxs, placed, stored, listed, txsRoot, rxsRoot, stateHash⟩ := forkAfter_rooted hroots
  have part {α : Type} {f : Db → α}
      (configured : ∀ db id config, f (db.storeConfiguration id config) = f db)
      (stored : ∀ db hash tx, f (db.storeTransaction hash tx) = f db) :=
    (congrArg f db).trans (settledGenesis_apart configured stored _ settings bootstrapTxs)
  have hashes : wasm.db.receiptsHashes =
      AList.insert (β := fun _ : UInt64 => List Hash) 0 (rxs.map Receipt.getHash) ∅ :=
    (part (fun _ _ _ => rfl) fun _ _ _ => rfl).trans listed
  have receipts : wasm.db.receipts = storeReceipts bootstrapTxs rxs ∅ :=
    (part (fun _ _ _ => rfl) fun _ _ _ => rfl).trans stored
  have state : roots.stateHash = wasm.db.accounts.stateHash "" :=
    stateHash.trans (congrArg (Accounts.stateHash · "")
      (part (f := Db.accounts) (fun _ _ _ => rfl) fun _ _ _ => rfl).symm)
  have genesis : Accounted
      ⟨[⟨WasmService.withRoots (genesisBlock bootstrapTxs) roots, [], bootstrapTxs⟩], ∅⟩ [rxs]
      wasm.db := by
    refine ⟨rfl, fun i fullBlock rs hblock hrs => ?_, fun height above => ?_, receipts,
      fun fullBlock last => ?_⟩
    · obtain ⟨below, rfl⟩ := List.getElem?_eq_some_iff.mp hblock
      obtain rfl : i = 0 := by simpa using below
      cases hrs
      refine ⟨placed, (recorded_of_bootstrap h).1.listed 0 _ rfl, ?_, txsRoot, rxsRoot⟩
      exact (congrArg (AList.lookup 0) hashes).trans (AList.lookup_insert _)
    · refine (congrArg (AList.lookup height) hashes).trans ?_
      rw [AList.lookup_insert_ne]
      · rfl
      · rintro rfl
        exact absurd above (Nat.not_succ_le_zero 0)
    · cases last
      exact state
  exact ⟨[rxs], genesis⟩

/-- What is known of the ledger of a node. -/
structure Books (c : Chronicle) (n : LiveNode W) : Prop where
  ordered : ∃ tip, Ordered n tip
  recorded : Recorded c n
  linked : Linked n.wasm.db.blocks
  accounted : ∃ receipts, Accounted c receipts n.wasm.db

theorem run_books (hashed : HeightsHashed)
    (hstart : bootstrap env keypair nodeId wm accounts bootstrapTxs networkName = .ok start)
    (run : Run (Computes handle) start trace n) (apart : Along ToldApart trace) :
    Books (chronicle start bootstrapTxs trace) n := by
  have invariant : ForksRooted trace (chronicle start bootstrapTxs trace) n ∧
      (Forked trace n ∧ Linked n.wasm.db.blocks) ∧
      ∃ receipts, Accounted (chronicle start bootstrapTxs trace) receipts n.wasm.db := by
    induction run with
    | nil =>
      refine ⟨fun key forked hforked => ?_, chain_of_started ⟨hstart⟩,
        accounted_of_bootstrap hstart⟩
      obtain ⟨txs, htxs, -⟩ := (recorded_of_bootstrap hstart).1.forks key forked hforked
      cases htxs
    | snoc run hstep ih =>
      obtain ⟨before, last⟩ := along_snoc.mp apart
      obtain ⟨rooted, ⟨forked, linked⟩, receipts, accounted⟩ := ih before
      obtain ⟨tip, ordered, -, recorded⟩ := run_recorded hashed hstart run
      obtain ⟨-, -, -, recorded'⟩ := run_recorded hashed hstart (run.snoc hstep)
      rw [chronicle_snoc] at recorded' ⊢
      exact ⟨rooted.step ordered hstep, chain_step ordered forked linked hstep last,
        accounted.step ordered recorded recorded' rooted hstep last⟩
  obtain ⟨tip, ordered, -, recorded⟩ := run_recorded hashed hstart run
  exact ⟨⟨tip, ordered⟩, recorded, invariant.2.1.2, invariant.2.2⟩

/-- In every state of a node the database has the receipts of its blocks, each with its
place, and every block has the roots of the hashes that are listed at its height; the
last one has the root of the accounts. -/
theorem run_accounted (hashed : HeightsHashed)
    (hstart : bootstrap env keypair nodeId wm accounts bootstrapTxs networkName = .ok start)
    (run : Run (Computes handle) start trace n) (apart : Along ToldApart trace) :
    n.wasm.db.blocks = (chronicle start bootstrapTxs trace).blocks.map FullBlock.block ∧
      ∃ receipts, Accounted (chronicle start bootstrapTxs trace) receipts n.wasm.db :=
  have books := run_books hashed hstart run apart
  ⟨books.recorded.blocks, books.accounted⟩

end Started

/-! ## Two nodes -/

/-- The same blocks, with the same hashes listed and the same accounts by their root. -/
structure SameHistory (db db' : Db) : Prop where
  blocks : db.blocks.map Block.data = db'.blocks.map Block.data
  transactionsHashes : ∀ height,
    db.transactionsHashes.lookup height = db'.transactionsHashes.lookup height
  receiptsHashes : ∀ height, db.receiptsHashes.lookup height = db'.receiptsHashes.lookup height
  accounts : db.accounts.stateHash "" = db'.accounts.stateHash ""

/-- The hashes that are listed in a database. -/
def Listed (db : Db) (hashes : List Hash) : Prop :=
  ∃ height, db.transactionsHashes.lookup height = some hashes ∨
    db.receiptsHashes.lookup height = some hashes

/-- No two different lists of these databases have one root. -/
def RootsApart (db db' : Db) : Prop :=
  ∀ hashes hashes', Listed db hashes → Listed db' hashes' →
    Merkle.listRoot hashes = Merkle.listRoot hashes' → hashes = hashes'

section Agreement

variable {n₁ n₂ : LiveNode W} {c₁ c₂ : Chronicle}

omit [Serialize ConfirmationData] [NodeCodec] [Merkle] [Pcg32] [Wm W] in
/-- A node has the genesis block at least. -/
theorem Ordered.exists_last {tip : Option Block} (h : Ordered n tip) :
    ∃ last, n.wasm.db.blocks.getLast? = some last := by
  cases h.stage with
  | settled last _ => exact ⟨_, last⟩
  | due blocks _ _ _ _ =>
    rw [blocks]
    exact ⟨_, List.getLast?_concat⟩

omit [Serialize ConfirmationData] [Pcg32] [Wm W] in
/-- The last block is at the height of the others before it. -/
theorem Books.length_eq (h : Books c n) {last : Block}
    (hlast : n.wasm.db.blocks.getLast? = some last) :
    n.wasm.db.blocks.length = last.data.height.toNat + 1 := by
  obtain ⟨⟨tip, ordered⟩, -⟩ := h
  rw [List.getLast?_eq_getElem?] at hlast
  have located := ordered.heights _ last hlast
  have below := (List.getElem?_eq_some_iff.mp hlast).1
  omega

omit [Serialize ConfirmationData] [Pcg32] [Wm W] in
/-- What is listed at a height is listed for the block there. -/
theorem Books.listed (h : Books c n) (height : UInt64) :
    (n.wasm.db.blocks.length ≤ height.toNat ∧ n.wasm.db.transactionsHashes.lookup height = none ∧
        n.wasm.db.receiptsHashes.lookup height = none) ∨
      ∃ block txsHashes rxsHashes, n.wasm.db.blocks[height.toNat]? = some block ∧
        n.wasm.db.transactionsHashes.lookup height = some txsHashes ∧
        n.wasm.db.receiptsHashes.lookup height = some rxsHashes ∧
        block.data.txsHash = Merkle.listRoot txsHashes ∧
        block.data.rxsHash = Merkle.listRoot rxsHashes := by
  obtain ⟨-, recorded, -, receipts, accounted⟩ := h
  have length := recorded.length
  by_cases below : height.toNat < n.wasm.db.blocks.length
  · right
    rw [← length] at below
    have hblock := List.getElem?_eq_getElem below
    have hrxs := List.getElem?_eq_getElem (accounted.count.symm ▸ below)
    have entered := accounted.entered _ _ _ hblock hrxs
    have listed := recorded.listed _ _ hblock
    rw [UInt64.ofNat_toNat] at entered listed
    refine ⟨c.blocks[height.toNat].block, _, _, ?_, listed, entered.listed, entered.txsHash,
      entered.rxsHash⟩
    rw [recorded.blocks, List.getElem?_map, hblock]
    rfl
  · left
    have above := Nat.le_of_not_lt below
    exact ⟨above, recorded.unlisted height above, accounted.unlisted height (length ▸ above)⟩

omit [Serialize ConfirmationData] [Pcg32] [Wm W] in
/-- Ledgers with one last block are the same. -/
theorem Books.sameHistory (h₁ : Books c₁ n₁) (h₂ : Books c₂ n₂)
    (blocks : HashChains.ToldApart Block.getHash Block.data n₁.wasm.db.blocks n₂.wasm.db.blocks)
    (roots : RootsApart n₁.wasm.db n₂.wasm.db)
    (last : n₁.wasm.db.blocks.getLast?.map Block.getHash =
      n₂.wasm.db.blocks.getLast?.map Block.getHash) :
    SameHistory n₁.wasm.db n₂.wasm.db := by
  obtain ⟨tip, ordered⟩ := h₁.ordered
  obtain ⟨b₁, hb₁⟩ := ordered.exists_last
  rw [hb₁, Option.map_some, eq_comm, Option.map_eq_some_iff] at last
  obtain ⟨b₂, hb₂, same⟩ := last
  have tips : b₁.data = b₂.data :=
    blocks b₁ (List.mem_of_getLast? hb₁) b₂ (List.mem_of_getLast? hb₂) same.symm
  have length : n₁.wasm.db.blocks.length = n₂.wasm.db.blocks.length := by
    rw [h₁.length_eq hb₁, h₂.length_eq hb₂, tips]
  have contents : n₁.wasm.db.blocks.map Block.data = n₂.wasm.db.blocks.map Block.data :=
    HashChains.contents_eq_of_last h₁.linked h₂.linked blocks
      length (by rw [hb₁, hb₂, Option.map_some, Option.map_some, same])
  have listed : ∀ height,
      n₁.wasm.db.transactionsHashes.lookup height = n₂.wasm.db.transactionsHashes.lookup height ∧
        n₁.wasm.db.receiptsHashes.lookup height = n₂.wasm.db.receiptsHashes.lookup height := by
    intro height
    obtain ⟨above₁, txs₁, rxs₁⟩ | ⟨block₁, txs₁, rxs₁, hblock₁, htxs₁, hrxs₁, txsHash₁, rxsHash₁⟩ :=
      h₁.listed height
    · obtain ⟨-, txs₂, rxs₂⟩ | ⟨block₂, txs₂, rxs₂, hblock₂, -⟩ := h₂.listed height
      · exact ⟨txs₁.trans txs₂.symm, rxs₁.trans rxs₂.symm⟩
      · have below := (List.getElem?_eq_some_iff.mp hblock₂).1
        omega
    · obtain ⟨above₂, -, -⟩ | ⟨block₂, txs₂, rxs₂, hblock₂, htxs₂, hrxs₂, txsHash₂, rxsHash₂⟩ :=
        h₂.listed height
      · have below := (List.getElem?_eq_some_iff.mp hblock₁).1
        omega
      · have data : block₁.data = block₂.data := by
          have at₁ := congrArg (fun l => l[height.toNat]?) contents
          simp only [List.getElem?_map, hblock₁, hblock₂, Option.map_some] at at₁
          exact Option.some.inj at₁
        have txs := roots txs₁ txs₂ ⟨height, .inl htxs₁⟩ ⟨height, .inl htxs₂⟩
          (by rw [← txsHash₁, ← txsHash₂, data])
        have rxs := roots rxs₁ rxs₂ ⟨height, .inr hrxs₁⟩ ⟨height, .inr hrxs₂⟩
          (by rw [← rxsHash₁, ← rxsHash₂, data])
        rw [htxs₁, htxs₂, hrxs₁, hrxs₂, txs, rxs]
        exact ⟨rfl, rfl⟩
  have state : ∀ {c : Chronicle} {n : LiveNode W} {b : Block}, Books c n →
      n.wasm.db.blocks.getLast? = some b →
      b.data.stateHash = n.wasm.db.accounts.stateHash "" := by
    intro c n b books hb
    obtain ⟨-, recorded, -, receipts, accounted⟩ := books
    rw [recorded.blocks, List.getLast?_map, Option.map_eq_some_iff] at hb
    obtain ⟨fullBlock, hlast, rfl⟩ := hb
    exact accounted.stateHash fullBlock hlast
  refine ⟨contents, fun height => (listed height).1, fun height => (listed height).2, ?_⟩
  rw [← state h₁ hb₁, ← state h₂ hb₂, tips]

variable {env₁ env₂ : Env} {keypair₁ keypair₂ : TrinciKeyPair} {nodeId₁ nodeId₂ : String}
  {wm₁ wm₂ : W} {accounts₁ accounts₂ : Accounts} {bootstrapTxs₁ bootstrapTxs₂ : List Transaction}
  {networkName₁ networkName₂ : String} {start₁ start₂ : LiveNode W}
  {trace₁ trace₂ : List (LiveEvent W)}

/-- Over any runs of any two nodes: with the same last block they have the same blocks, the
same transactions and receipts listed at each height, and the same accounts by their
root, where neither blocks nor lists of these two share a hash. -/
theorem same_tip_same_history (hashed : HeightsHashed)
    (hstart₁ : bootstrap env₁ keypair₁ nodeId₁ wm₁ accounts₁ bootstrapTxs₁ networkName₁ =
      .ok start₁)
    (run₁ : Run (Computes handle) start₁ trace₁ n₁) (apart₁ : Along ToldApart trace₁)
    (hstart₂ : bootstrap env₂ keypair₂ nodeId₂ wm₂ accounts₂ bootstrapTxs₂ networkName₂ =
      .ok start₂)
    (run₂ : Run (Computes handle) start₂ trace₂ n₂) (apart₂ : Along ToldApart trace₂)
    (blocks : HashChains.ToldApart Block.getHash Block.data n₁.wasm.db.blocks n₂.wasm.db.blocks)
    (roots : RootsApart n₁.wasm.db n₂.wasm.db)
    (last : n₁.wasm.db.blocks.getLast?.map Block.getHash =
      n₂.wasm.db.blocks.getLast?.map Block.getHash) :
    SameHistory n₁.wasm.db n₂.wasm.db :=
  (run_books hashed hstart₁ run₁ apart₁).sameHistory (run_books hashed hstart₂ run₂ apart₂)
    blocks roots last

end Agreement

end Steps

end LiveNode

namespace Sample.Duo

open LiveNode

/-- Bob's block is accounted for. -/
theorem small_block_accounted : ∃ node trace n receipts, start 2 = .ok node ∧
    Run (Computes handle) node trace n ∧ n.wasm.db.blocks.length = 2 ∧
    n.wasm.db.blocks =
      (chronicle node [unitOf 1 (keypair 1)] trace).blocks.map FullBlock.block ∧
    Accounted (chronicle node [unitOf 1 (keypair 1)] trace) receipts n.wasm.db := by
  obtain ⟨node, trace, n, hstart, run, check, -⟩ := exists_run_from 2 consolidatesSmall
    (fun trace n => checkAlong toldApart [] trace && decide (n.wasm.db.blocks.length = 2))
    (by decide +kernel)
  rw [Bool.and_eq_true, decide_eq_true_eq] at check
  have apart : Along ToldApart trace :=
    (along_of_check check.1).imp fun _ _ h => toldApart_of_check h
  obtain ⟨blocks, receipts, accounted⟩ := run_accounted heightsHashed hstart run apart
  exact ⟨node, trace, n, receipts, hstart, run, check.2, blocks, accounted⟩

/-- The lists of a database. -/
def listsOf (db : Db) : List (List Hash) :=
  db.transactionsHashes.entries.map Sigma.snd ++ db.receiptsHashes.entries.map Sigma.snd

theorem mem_listsOf {db : Db} {hashes : List Hash} (h : Listed db hashes) :
    hashes ∈ listsOf db := by
  obtain ⟨height, h | h⟩ := h
  · exact List.mem_append_left _ (List.mem_map_of_mem (AList.mem_lookup_iff.mp h))
  · exact List.mem_append_right _ (List.mem_map_of_mem (AList.mem_lookup_iff.mp h))

/-- Whether the ledgers of two nodes can be told apart by their hashes. -/
def comparable (n₁ n₂ : LiveNode Willing) : Bool :=
  decide (n₁.wasm.db.blocks.getLast?.map Block.getHash =
      n₂.wasm.db.blocks.getLast?.map Block.getHash) &&
    n₁.wasm.db.blocks.all (fun b₁ => n₂.wasm.db.blocks.all fun b₂ =>
      b₁.getHash ≠ b₂.getHash || b₁.data = b₂.data) &&
    (listsOf n₁.wasm.db).all fun l₁ => (listsOf n₂.wasm.db).all fun l₂ =>
      Merkle.listRoot l₁ ≠ Merkle.listRoot l₂ || l₁ = l₂

/-- Alice follows bob's block and both consolidate it: they have the same history of two
blocks. -/
theorem players_share_history : ∃ alice bob n₁ n₂ trace₁ trace₂, start 1 = .ok alice ∧
    start 2 = .ok bob ∧ Run (Computes handle) alice trace₁ n₁ ∧
    Run (Computes handle) bob trace₂ n₂ ∧ n₁.wasm.db.blocks.length = 2 ∧
    SameHistory n₁.wasm.db n₂.wasm.db := by
  obtain ⟨alice, trace₁, n₁, halice, run₁, check, -⟩ := exists_run_from 1 followsBob
    (fun trace₁ n₁ => checkAlong toldApart [] trace₁ && decide (n₁.wasm.db.blocks.length = 2) &&
      runs 2 consolidatesSmall fun trace₂ n₂ =>
        checkAlong toldApart [] trace₂ && comparable n₁ n₂) (by decide +kernel)
  simp only [Bool.and_eq_true, decide_eq_true_eq] at check
  obtain ⟨⟨apart₁, two⟩, check⟩ := check
  obtain ⟨bob, trace₂, n₂, hbob, run₂, check, -⟩ := exists_run_from 2 consolidatesSmall _ check
  simp only [comparable, Bool.and_eq_true, decide_eq_true_eq, List.all_eq_true] at check
  obtain ⟨apart₂, ⟨last, blocks⟩, lists⟩ := check
  refine ⟨alice, bob, n₁, n₂, trace₁, trace₂, halice, hbob, run₁, run₂, two,
    same_tip_same_history heightsHashed halice run₁
      ((along_of_check apart₁).imp fun _ _ h => toldApart_of_check h) hbob run₂
      ((along_of_check apart₂).imp fun _ _ h => toldApart_of_check h)
      (fun b₁ h₁ b₂ h₂ same => ?_) (fun l₁ l₂ h₁ h₂ same => ?_) last⟩
  · have told := blocks b₁ h₁ b₂ h₂
    simpa [same] using told
  · have told := lists l₁ (mem_listsOf h₁) l₂ (mem_listsOf h₂)
    simpa [same] using told

end Sample.Duo

end Trinci
