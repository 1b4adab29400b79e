import Mathlib.Algebra.Order.BigOperators.Group.List
import Mathlib.Algebra.Order.Group.Nat
import Trinci.LiveBlocks

/-!
# What bounds a block

The number of transactions and their total size are bounded where a block is built, and
nowhere else. A block of a peer is compared with what its execution gives: it commits to
the list of its transactions, of whatever length and size, and says any size of itself.
-/

namespace Trinci

open StepMachines StatefulSteps Exec

/-! ## The bounds of a builder -/

/-- The size that a block gives is its number of transactions, and they are within the
limits, by the size of each. -/
def WithinLimits (block : Block) (sizes : List Nat) : Prop :=
  block.data.size.toNat = sizes.length ∧ sizes.length ≤ maxTxsInBlock ∧
    sizes.sum < blockMaxSizeBytes - blockBaseSizeBytes

instance (block : Block) (sizes : List Nat) : Decidable (WithinLimits block sizes) :=
  inferInstanceAs (Decidable (_ ∧ _))

namespace BlockService

/-- What is taken from the end of the pool fits. -/
theorem fill_fits {limit : Nat} (listed : List (Hash × Nat)) {size : Nat} (room : size < limit) :
    ∃ picked, picked <+: listed ∧ fill limit size listed = picked.map Prod.fst ∧
      size + (picked.map Prod.snd).sum < limit := by
  induction listed generalizing size with
  | nil => exact ⟨[], List.nil_prefix, rfl, room⟩
  | cons entry rest ih =>
    obtain ⟨hash, txSize⟩ := entry
    by_cases fits : size + txSize < limit
    · obtain ⟨picked, hprefix, hfill, hsum⟩ := ih fits
      refine ⟨(hash, txSize) :: picked, List.cons_prefix_cons.mpr ⟨rfl, hprefix⟩, ?_, ?_⟩
      · rw [fill, if_pos fits, hfill, List.map_cons]
      · rw [List.map_cons, List.sum_cons]
        omega
    · refine ⟨[], List.nil_prefix, ?_, ?_⟩
      · rw [fill, if_neg fits, List.map_nil]
      · simpa using room

/-- What a block is built from are entries of the pool that are within the limits. -/
structure Picked (listed picked : List (Hash × Nat)) (hashes : List Hash) : Prop where
  listed : picked <+: listed.reverse
  hashes : hashes = picked.map Prod.fst
  few : picked.length ≤ maxTxsInBlock
  small : (picked.map Prod.snd).sum < blockMaxSizeBytes - blockBaseSizeBytes

theorem exists_picked (listed : List (Hash × Nat)) :
    ∃ picked, Picked listed picked (chosen listed) := by
  have room : 0 < blockMaxSizeBytes - blockBaseSizeBytes := by decide
  obtain ⟨filled, hprefix, hfill, hsum⟩ := fill_fits listed.reverse room
  refine ⟨filled.take maxTxsInBlock, (List.take_prefix _ _).trans hprefix, ?_, ?_, ?_⟩
  · rw [chosen, hfill, List.map_take]
  · rw [List.length_take]
    omega
  · have split := congrArg (fun l : List (Hash × Nat) => (l.map Prod.snd).sum)
      (List.take_append_drop maxTxsInBlock filled)
    simp only [List.map_append, List.sum_append] at split
    omega

end BlockService

/-! ## The check of an executor -/

section Roots

variable {W : Type} [Primitives] [Serialize BlockData] [NodeCodec] [Merkle] [Wm W]
  {s t : WasmService W} {block : Block} {round : UInt8} {txs : List Transaction}
  {expectedLeader : Option String} {out : List WasmOutput}

omit [Serialize BlockData] in
/-- The root of an execution is that of the hashes listed at its height. -/
theorem executeInFork_txsRoot {roots : Roots}
    (h : result (s.config.executeInFork block txs expectedLeader) s.begin = .ok roots) :
    roots.txsRoot = Merkle.listRoot
      ((s.db.transactionsHashes.lookup block.data.height).getD [] ++
        txs.map (WasmConfig.listedHash block.data.height)) := by
  have keeps := executeBlockTransactions_keepsLists s block txs expectedLeader
  obtain ⟨-, -, hrest, hnoted⟩ := of_bind_ok h
  obtain ⟨receiptsHashes, hreceipts, hrest, hexecuted⟩ := of_bind_ok hrest
  cases hrest
  rw [← keeps]

/-- A block of a peer whose execution is announced commits to the executed transactions. -/
theorem executeBlock_commits [Pcg32] (positive : 0 < block.data.height) {given : Block}
    {hashes : List Hash}
    (h : s.handle (.executeBlock block round txs expectedLeader) = .ok (t, out))
    (sent : .msg .consensusService (.blockExecutionEnded given hashes) ∈ out) :
    given = block ∧ hashes = txs.map Transaction.getHash ∧
      block.data.txsHash = Merkle.listRoot
        ((s.db.transactionsHashes.lookup block.data.height).getD [] ++ hashes) := by
  obtain ⟨⟨ok, u, sent'⟩, hexecute, h⟩ := bind_eq_ok.mp h
  cases h
  cases WasmService.executeBlock_outcome hexecute with
  | stored _ => cases sent
  | failed _ _ => cases sent
  | executed _ hroots hdone outcome =>
    cases hdone
    have listed : txs.map (WasmConfig.listedHash block.data.height) =
        txs.map Transaction.getHash :=
      List.map_congr_left fun tx _ => if_pos positive
    have root := executeInFork_txsRoot hroots
    rw [listed] at root outcome
    cases outcome with
    | announced _ => cases List.mem_singleton.mp sent
    | rejected _ _ _ => cases sent
    | confirmed _ _ _ committed _ =>
      cases List.mem_singleton.mp sent
      exact ⟨rfl, rfl, committed.trans root⟩
    | settled _ genesis _ => exact absurd positive genesis

end Roots

/-! ## Every run -/

namespace LiveNode

variable {W : Type} [Primitives] [Serialize BlockData] [NodeCodec] [Merkle]

/-- A block that is built is of entries of the pool, and within the limits. -/
def BuildsBounded (e : LiveEvent W) : Prop :=
  ∀ msg block round hashes, takenByBlock e = some msg →
    BlockService.BuildsOn e.before.blockService msg →
    .msg .transactionService (.collectBlockTxs block round hashes) ∈ e.out →
      ∃ entries : List (Hash × Nat), entries.Subperm e.before.poolList ∧
        hashes = entries.map Prod.fst ∧ WithinLimits block (entries.map Prod.snd)

/-- A block of a peer that is executed commits to the list of its transactions. -/
def ExecutesCommitted (e : LiveEvent W) : Prop :=
  ∀ given hashes, e.input = .finish →
    .msg .consensusService (.blockExecutionEnded given hashes) ∈ e.out →
      ∃ taken, e.before.taken = some taken ∧ given = taken.block ∧
        hashes = taken.txs.map Transaction.getHash ∧ given.data.txsHash = Merkle.listRoot hashes

/-- The node confirms a block to its peers. -/
def Votes (hash : Hash) (e : LiveEvent W) : Prop :=
  ∃ confirmation, .msg .nodeInterface (.propagateConfirmationToPeers confirmation) ∈ e.out ∧
    confirmation.data.blockHash = hash

/-- A block of a peer that is executed and voted for is within the limits. -/
def VotesBounded (trace : List (LiveEvent W)) : Prop :=
  ∀ e ∈ trace, ∀ given txs hashes, execution e = some (given, txs) →
    .msg .consensusService (.blockExecutionEnded given hashes) ∈ e.out →
    (∃ e' ∈ trace, Votes given.getHash e') →
      WithinLimits given (txs.map fun tx => (rmpSerialize tx).length)

section Steps

variable [Serialize ConfirmationData] [Pcg32] [Wm W] {n n' : LiveNode W}
  {input : LiveInput W} {out : List NodeOutput} {tip : Option Block} {c : Chronicle}

omit [Serialize BlockData] [Serialize ConfirmationData] [Merkle] [Pcg32] [Wm W] in
/-- What is built from what the pool lists is of its entries. -/
theorem picked_of_answers {env : BlockEnv Hash Block Confirmation Transaction} {msg : NodeMsg}
    {listed entries : List (Hash × Nat)} {hashes : List Hash}
    (honest : n.answers msg env out = true) (asked : out.any collects = true)
    (hlisted : env.builtFrom = .answer listed)
    (picked : BlockService.Picked listed entries hashes) : entries.Subperm n.poolList := by
  simp only [answers, asked, hlisted, Bool.not_true, Bool.false_or, Bool.and_eq_true,
    decide_eq_true_eq] at honest
  have perm : listed.Perm n.poolList := honest.1.2
  exact picked.listed.sublist.subperm.trans ((List.reverse_perm listed).trans perm).subperm

theorem LiveStep.buildsBounded (step : LiveStep n input out n') :
    BuildsBounded ⟨n, input, out, n'⟩ := by
  intro msg block round hashes taken builds asked
  cases step with
  | @block env msg' rest blockService out heq hblock honest =>
    obtain rfl : msg' = msg := by simpa [takenByBlock, heq] using taken
    have collects : out.any collects = true := List.any_eq_true.mpr ⟨_, asked, rfl⟩
    obtain ⟨listed, hlisted, rfl, hnew⟩ := BlockService.built_collects
      (BlockService.handleMessages_step hblock) builds asked
    obtain ⟨entries, picked⟩ := BlockService.exists_picked listed
    refine ⟨entries, picked_of_answers honest collects hlisted picked, picked.hashes, ?_, ?_, ?_⟩
    · have few := picked.few
      have room : maxTxsInBlock < 2 ^ 32 := by decide
      rw [hnew, List.length_map]
      change (UInt32.ofNat _).toNat = _
      rw [picked.hashes, List.length_map]
      exact UInt32.toNat_ofNat_of_lt' (by show entries.length < 2 ^ 32; omega)
    · rw [List.length_map]
      exact picked.few
    · exact picked.small
  | enters entry _ => cases input <;> first | cases taken | cases entry
  | _ => cases taken

/-- Nothing was listed before at the height of a block that is executed. -/
theorem LiveStep.executesCommitted (step : LiveStep n input out n') (ordered : Ordered n tip)
    (recorded : Recorded c n) : ExecutesCommitted ⟨n, input, out, n'⟩ := by
  intro given hashes finish sent
  cases step with
  | @finishes block round txs leader wasm out htaken hwasm =>
    have onTop := ordered.taken _ htaken
    have fresh : n.wasm.db.transactionsHashes.lookup block.data.height = none :=
      recorded.unlisted _ (by rw [onTop.height])
    obtain ⟨same, hhashes, root⟩ := executeBlock_commits onTop.positive hwasm sent
    rw [fresh, Option.getD_none, List.nil_append] at root
    exact ⟨_, htaken, same, hhashes, same ▸ root⟩
  | enters entry _ =>
    cases finish
    cases entry
  | _ => cases finish

/-- In every run a block that is built is within the limits, whereas a block of a peer
that is executed commits to the list of its transactions. -/
theorem run_bounded {start : LiveNode W} {trace : List (LiveEvent W)} (hashed : HeightsHashed)
    (started : Started start) (run : Run (Computes handle) start trace n) :
    Along (fun _ e => BuildsBounded e ∧ ExecutesCommitted e) trace := by
  obtain ⟨hstart⟩ := started
  induction run with
  | nil => exact along_nil _
  | snoc run hstep ih =>
    have step := handle_step hstep
    obtain ⟨tip, ordered, -, recorded⟩ := run_recorded hashed hstart run
    exact along_snoc.mpr ⟨ih, step.buildsBounded, step.executesCommitted ordered recorded⟩

end Steps

end LiveNode

namespace Sample.Duo

open LiveNode

/-- A call whose arguments take two kilobytes. -/
def fillerTx : Transaction :=
  .unitTransaction (signed (keypair 1)
    (.v1 { request 2 (keypair 1).publicKey with args := List.replicate 2100 0 }))

def fillers : List Transaction := List.replicate 501 fillerTx

/-- A block of bob that lists the call 501 times and commits to what its execution gives. It
says that it has seven transactions. -/
def overfullBlock : Block :=
  Block.sign (keypair 2) 0
    { data :=
        { validator := some (keypair 2).publicKey
          height := 1
          size := 7
          prevHash := genesisHash
          txsHash := Merkle.listRoot (fillers.map Transaction.getHash)
          rxsHash := Merkle.listRoot (List.replicate 501 (Hash.primary [1, 1]))
          stateHash := Hash.primary []
          timestamp := 1 }
      signature := [] }

/-- The answers to alice once the call is in her pool. -/
def fillerEnv : BlockEnv Hash Block Confirmation Transaction :=
  { blockEnv with
    builtFrom := .answer [(fillerTx.getHash, (rmpSerialize fillerTx).length)]
    unconfirmedHashes := .answer [(fillerTx.getHash, (rmpSerialize fillerTx).length)] }

/-- Alice has the transaction of the block, receives the block and executes it. -/
def believesBlock : List (LiveInput Willing) :=
  takeGenesis ++
    [.submit fillerTx, .transactions fun _ => 0,
      .arrive (.msg .consensusService (.blockFromPeer overfullBlock
        (Confirmation.sign (keypair 2) 0
          (Confirmation.new overfullBlock.getHash 1 0 (keypair 2).publicKey))
        (fillers.map Transaction.getHash))),
      .consensus env, .block blockEnv, .block fillerEnv, .transactions fun _ => 0, .pass 1,
      .consensus env, .finish, .consensus env]

/-- Whether the block of a peer is announced as executed. -/
def announces (given : Block) (e : LiveEvent Willing) : Bool :=
  e.out.any fun o =>
    match o with
    | .msg .consensusService (.blockExecutionEnded block _) => decide (block = given)
    | _ => false

theorem exists_of_announces {given : Block} {e : LiveEvent Willing} (h : announces given e = true) :
    ∃ hashes, .msg .consensusService (.blockExecutionEnded given hashes) ∈ e.out := by
  obtain ⟨o, ho, announced⟩ := List.any_eq_true.mp h
  split at announced
  · next block hashes =>
    obtain rfl := decide_eq_true_eq.mp announced
    exact ⟨hashes, ho⟩
  · cases announced

/-- Whether a block is executed that no builder makes. -/
def executesOverfull (e : LiveEvent Willing) : Bool :=
  match execution e with
  | some (given, txs) => decide (given.getHash = overfullBlock.getHash) &&
      decide (given.data.size.toNat ≠ txs.length) && decide (txs.length = 501) &&
      txs.all (fun tx => decide (2104 ≤ (rmpSerialize tx).length)) && announces given e
  | none => false

def votesFor (hash : Hash) (e : LiveEvent Willing) : Bool :=
  e.out.any fun o =>
    match o with
    | .msg .nodeInterface (.propagateConfirmationToPeers confirmation) =>
      decide (confirmation.data.blockHash = hash)
    | _ => false

theorem votes_of_check {hash : Hash} {e : LiveEvent Willing} (h : votesFor hash e = true) :
    Votes hash e := by
  obtain ⟨o, ho, confirms⟩ := List.any_eq_true.mp h
  split at confirms
  · next confirmation => exact ⟨confirmation, ho, decide_eq_true_eq.mp confirms⟩
  · cases confirms

theorem large_of_each {txs : List Transaction} (count : txs.length = 501)
    (each : ∀ tx ∈ txs, 2104 ≤ (rmpSerialize tx).length) :
    blockMaxSizeBytes - blockBaseSizeBytes ≤ (txs.map fun tx => (rmpSerialize tx).length).sum := by
  have sizes : ∀ size ∈ txs.map fun tx => (rmpSerialize tx).length, 2104 ≤ size := by
    intro size h
    obtain ⟨tx, htx, rfl⟩ := List.mem_map.mp h
    exact each tx htx
  have total := List.card_nsmul_le_sum _ 2104 sizes
  rw [List.length_map, count, nsmul_eq_mul] at total
  have above : blockMaxSizeBytes - blockBaseSizeBytes ≤ 501 * 2104 := by decide
  omega

/-- Alice executes a block that gives a wrong number of transactions, has more of them than
a builder takes and is larger than a builder makes it, and votes for it. -/
theorem overfull_block_voted : ∃ start trace n, Started start ∧
    Run (Computes handle) start trace (n : LiveNode Willing) ∧
    trace.map Event.input = believesBlock ∧
    (∃ e ∈ trace, ∃ given txs hashes, execution e = some (given, txs) ∧
      .msg .consensusService (.blockExecutionEnded given hashes) ∈ e.out ∧
      (∃ e' ∈ trace, Votes given.getHash e') ∧ given.data.size.toNat ≠ txs.length ∧
      maxTxsInBlock < txs.length ∧
      blockMaxSizeBytes - blockBaseSizeBytes ≤ (txs.map fun tx => (rmpSerialize tx).length).sum) ∧
    ¬ VotesBounded trace := by
  obtain ⟨start, trace, n, started, run, check, inputs⟩ := exists_run 1 believesBlock
    (fun trace _ => trace.any executesOverfull && trace.any (votesFor overfullBlock.getHash))
    (by decide +kernel)
  rw [Bool.and_eq_true, List.any_eq_true, List.any_eq_true] at check
  obtain ⟨⟨e, he, overfull⟩, e', he', votes⟩ := check
  unfold executesOverfull at overfull
  split at overfull
  · next given txs executed =>
    simp only [Bool.and_eq_true, decide_eq_true_eq, List.all_eq_true] at overfull
    obtain ⟨⟨⟨⟨hash, other⟩, count⟩, each⟩, announced⟩ := overfull
    obtain ⟨hashes, sent⟩ := exists_of_announces announced
    have voted : ∃ e' ∈ trace, Votes given.getHash e' := ⟨e', he', hash ▸ votes_of_check votes⟩
    have many : maxTxsInBlock < txs.length := by
      rw [count]
      decide
    refine ⟨start, trace, n, started, run, inputs,
      ⟨e, he, given, txs, hashes, executed, sent, voted, other, many, large_of_each count each⟩,
      fun bounded => ?_⟩
    have size := (bounded e he given txs hashes executed sent voted).1
    rw [List.length_map] at size
    exact other size
  · cases overfull

/-- Bob builds a block within the limits. -/
theorem small_block_bounded : ∃ start trace n, Started start ∧
    Run (Computes handle) start trace (n : LiveNode Willing) ∧
    trace.any (buildsAtTimeout false) = true ∧
    Along (fun _ e => BuildsBounded e ∧ ExecutesCommitted e) trace := by
  obtain ⟨start, trace, n, started, run, check, -⟩ := exists_run 2 buildsSmall
    (fun trace _ => trace.any (buildsAtTimeout false)) (by decide +kernel)
  exact ⟨start, trace, n, started, run, check, run_bounded heightsHashed started run⟩

end Sample.Duo

end Trinci
