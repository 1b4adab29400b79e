import Trinci.ChainAgreement
import Trinci.PeerRequests
import Trinci.TransactionSources

/-!
# Where the transactions of a network come from

Any number of nodes that gossip the transactions of their pools and answer each other from
their databases and pools. What one of them stores was handed to some node by a user, or is
in a bootstrap file, with one exception: a database that is asked for the hash of a node of a
bulk answers with this node as a transaction of its own, which the asking node may store and
execute.
-/

namespace Trinci

open StepMachines

variable {I W : Type}

/-- These transactions, and the nodes of the bulks among them. -/
inductive Derived (P : Transaction → Prop) : Transaction → Prop
  | whole {tx : Transaction} : P tx → Derived P tx
  | node {bulk : TransactionDataBulkV1} {signature : Bytes} {nodes : List SignedTransaction}
      {node : SignedTransaction} : P (.bulkTransaction ⟨.bulkV1 bulk, signature⟩) →
      bulk.txs.nodes = some nodes → node ∈ nodes → Derived P (.unitTransaction node)

section Databases

variable {P Q : Transaction → Prop} {db : Db} {tx : Transaction}

theorem Derived.imp (h : Derived P tx) (weaken : ∀ tx, P tx → Q tx) : Derived Q tx := by
  cases h with
  | whole h => exact .whole (weaken _ h)
  | node h nodes mem => exact .node (weaken _ h) nodes mem

/-- A node of a bulk has no nodes. -/
theorem Derived.flatten (h : Derived (Derived P) tx) : Derived P tx := by
  cases h with
  | whole h => exact h
  | node h nodes mem =>
    cases h with
    | whole h => exact .node h nodes mem

variable [Primitives] [NodeCodec]

/-- What a database gives for a hash is stored, or a node of what is stored. -/
theorem derived_of_loadTransaction
    (stored : ∀ hash tx, db.transactions.lookup hash = some tx → P tx) {hash : Hash}
    (h : db.loadTransaction hash = some tx) : Derived P tx := by
  unfold Db.loadTransaction at h
  split at h
  · next found hfound =>
    cases h
    exact .whole (stored hash _ hfound)
  · obtain ⟨parent, -, h⟩ := Option.bind_eq_some_iff.mp h
    obtain ⟨bulk, hbulk, h⟩ := Option.bind_eq_some_iff.mp h
    split at h
    · next data signature =>
      obtain ⟨nodes, hnodes, h⟩ := Option.bind_eq_some_iff.mp h
      obtain ⟨node, hnode, h⟩ := Option.bind_eq_some_iff.mp h
      cases h
      exact .node (stored parent _ hbulk) hnodes (List.mem_of_find?_eq_some hnode)
    · cases h

theorem derived_of_loadFullBlock
    (stored : ∀ hash tx, db.transactions.lookup hash = some tx → P tx) {height : UInt64}
    {fullBlock : FullBlock Block Confirmation Transaction}
    (h : db.loadFullBlock height = some fullBlock) : ∀ tx ∈ fullBlock.txs, Derived P tx := by
  obtain ⟨block, -, h⟩ := Option.bind_eq_some_iff.mp h
  obtain ⟨confirmations, -, h⟩ := Option.bind_eq_some_iff.mp h
  obtain ⟨hashes, -, h⟩ := Option.bind_eq_some_iff.mp h
  dsimp only at h
  split at h
  · cases h
  · cases h
    intro tx htx
    obtain ⟨hash, -, loaded⟩ := List.mem_filterMap.mp htx
    exact derived_of_loadTransaction stored loaded

/-- What answers a request for transactions is in the database or was in the pool. -/
theorem derived_of_getTxs (stored : ∀ hash tx, db.transactions.lookup hash = some tx → P tx)
    {unconfirmed : List Hash → Reply (List (Transaction × Nat × Option (List Hash)))}
    (pooled : ∀ hashes reply, unconfirmed hashes = .answer reply → ∀ entry ∈ reply, P entry.1)
    {hashes : List Hash} : ∀ tx ∈ DbService.getTxs db unconfirmed hashes, Derived P tx := by
  intro tx htx
  have found : tx ∈ hashes.filterMap db.loadTransaction → Derived P tx := by
    intro h
    obtain ⟨hash, -, loaded⟩ := List.mem_filterMap.mp h
    exact derived_of_loadTransaction stored loaded
  simp only [DbService.getTxs] at htx
  split at htx
  · split at htx
    · next reply answered =>
      obtain htx | htx := List.mem_append.mp htx
      · exact found htx
      · obtain ⟨entry, hentry, rfl⟩ := List.mem_map.mp htx
        exact .whole (pooled _ reply answered entry hentry)
    · exact found htx
  · exact found htx

end Databases

namespace LiveNode

/-- What users hand to the nodes, themselves or by gossip: a transaction, or one of an old
block. -/
inductive Submits : LiveInput W → Transaction → Prop
  | transaction {tx : Transaction} : Submits (.submit tx) tx
  | imported {tx : Transaction} {size : Nat} {attachments : Option (List Hash)} :
      Submits (.arrive (.msg .transactionService (.addTx tx size attachments))) tx

/-- A pool of a node at some moment of the run. -/
def Kept (trace : List (NetEvent I W)) (s : TransactionService Hash Transaction) : Prop :=
  ∃ e ∈ trace, ∃ j, (e.before j).transactionService = s

section Network

variable [Primitives] [Serialize BlockData] [Serialize ConfirmationData] [NodeCodec]

/-- The transactions that reach a node from its peers are gossiped from their pools, or
answers of their databases and pools. -/
structure Relays (Held : Db → Prop) (Kept : TransactionService Hash Transaction → Prop)
    (sent : List NodeOutput) (input : LiveInput W) : Prop where
  gossip : ∀ txs, input = .oldTransactions txs → ∀ tx ∈ txs,
    ∃ old, .msg .nodeInterface (.propagateOldTxs old) ∈ sent ∧ tx ∈ old
  missing : ∀ env attempt txs, input = .block env → env.getTxs attempt = .answer txs →
    ∃ db unconfirmed hashes, Held db ∧ txs.map Prod.fst = DbService.getTxs db unconfirmed hashes ∧
      ∀ hashes reply, unconfirmed hashes = .answer reply → ∃ s, Kept s ∧
        s.handleRequests (.getTxs hashes) =
          some (.getTxs reply : Res Hash Block Confirmation Transaction)
  fullBlock : ∀ env attempt fullBlock, input = .block env →
    env.getFullBlock attempt = .answer (some fullBlock) →
      ∃ db height, Held db ∧ db.loadFullBlock height = some fullBlock

/-- In a bootstrap file, or handed to a node by a user. -/
def Initiated (bootstrapTxs : I → List Transaction) (trace : List (NetEvent I W))
    (tx : Transaction) : Prop :=
  (∃ j, tx ∈ bootstrapTxs j) ∨ ∃ e ∈ trace, Submits e.own.input tx

variable [DecidableEq I] {bootstrapTxs : I → List Transaction} {trace : List (NetEvent I W)}
  {net net' : I → LiveNode W} {tx : Transaction}

/-- Where everything that the nodes hold, held and sent comes from. -/
structure NetworkSourced (bootstrapTxs : I → List Transaction) (trace : List (NetEvent I W))
    (net : I → LiveNode W) : Prop where
  member : ∀ i, Sourced (fun tx => ∃ j, tx ∈ bootstrapTxs j)
    (Derived (Initiated bootstrapTxs trace)) (net i)
  stood : ∀ db, Stood trace db → ∀ hash tx, db.transactions.lookup hash = some tx →
    Derived (Initiated bootstrapTxs trace) tx
  kept : ∀ s, Kept trace s → ∀ hash entry, s.unconfirmedPool.lookup hash = some entry →
    Derived (Initiated bootstrapTxs trace) entry.1
  gossiped : ∀ old, .msg .nodeInterface (.propagateOldTxs old) ∈ sent trace → ∀ tx ∈ old,
    Derived (Initiated bootstrapTxs trace) tx

omit [Primitives] [Serialize BlockData] [Serialize ConfirmationData] [NodeCodec]
  [DecidableEq I] in
theorem Initiated.snoc (h : Initiated bootstrapTxs trace tx) (e : NetEvent I W) :
    Initiated bootstrapTxs (trace ++ [e]) tx :=
  h.imp_right fun ⟨x, hx, submits⟩ => ⟨x, List.mem_append_left _ hx, submits⟩

omit [Primitives] [Serialize BlockData] [Serialize ConfirmationData] [NodeCodec]
  [DecidableEq I] in
theorem derived_snoc (h : Derived (Initiated bootstrapTxs trace) tx) (e : NetEvent I W) :
    Derived (Initiated bootstrapTxs (trace ++ [e])) tx :=
  h.imp fun _ initiated => initiated.snoc e

omit [Serialize BlockData] [Serialize ConfirmationData] [DecidableEq I] in
/-- The database of a node held such transactions only, also right before a step. -/
theorem NetworkSourced.held (h : NetworkSourced bootstrapTxs trace net) {e : NetEvent I W}
    (before : e.before = net) {db : Db} (stood : Stood (trace ++ [e]) db) :
    ∀ hash tx, db.transactions.lookup hash = some tx →
      Derived (Initiated bootstrapTxs trace) tx := by
  subst before
  obtain ⟨x, hx, j, rfl⟩ := stood
  rw [List.mem_append, List.mem_singleton] at hx
  obtain hx | rfl := hx
  · exact h.stood _ ⟨x, hx, j, rfl⟩
  · intro hash tx held
    obtain initial | passed := (h.member j).stored.db hash tx held
    · exact .whole (.inl initial)
    · exact passed.1

omit [Serialize BlockData] [Serialize ConfirmationData] [DecidableEq I] in
theorem NetworkSourced.pooled (h : NetworkSourced bootstrapTxs trace net) {e : NetEvent I W}
    (before : e.before = net) {s : TransactionService Hash Transaction}
    (kept : Kept (trace ++ [e]) s) :
    ∀ hash entry, s.unconfirmedPool.lookup hash = some entry →
      Derived (Initiated bootstrapTxs trace) entry.1 := by
  subst before
  obtain ⟨x, hx, j, rfl⟩ := kept
  rw [List.mem_append, List.mem_singleton] at hx
  obtain hx | rfl := hx
  · exact h.kept _ ⟨x, hx, j, rfl⟩
  · exact fun hash entry held => ((h.member j).pooled hash entry held).1

omit [Serialize BlockData] [Serialize ConfirmationData] [DecidableEq I] in
/-- What reaches a node was initiated before, or the input is from a user. -/
theorem NetworkSourced.brought (h : NetworkSourced bootstrapTxs trace net) {e : NetEvent I W}
    (before : e.before = net)
    (relays : Relays (Stood (trace ++ [e])) (Kept (trace ++ [e])) (sent trace) e.own.input)
    (introduces : Introduces e.own.input tx) :
    Derived (Initiated bootstrapTxs (trace ++ [e])) tx := by
  have user (submits : Submits e.own.input tx) : Initiated bootstrapTxs (trace ++ [e]) tx :=
    .inr ⟨e, List.mem_append_right _ (List.mem_singleton_self _), submits⟩
  generalize hinput : e.own.input = input at relays introduces user
  cases introduces with
  | arrived => exact .whole (user .imported)
  | submitted => exact .whole (user .transaction)
  | repropagated mem =>
    obtain ⟨old, hold, among⟩ := relays.gossip _ rfl tx mem
    exact derived_snoc (h.gossiped old hold tx among) e
  | supplied supplied =>
    cases supplied with
    | missing answered among =>
      obtain ⟨db, unconfirmed, hashes, stood, same, replies⟩ := relays.missing _ _ _ rfl answered
      rw [same] at among
      refine derived_snoc (Derived.flatten (derived_of_getTxs (h.held before stood) ?_ tx among)) e
      intro asked reply answer entry hentry
      obtain ⟨s, kept, served⟩ := replies asked reply answer
      cases served
      obtain ⟨hash, -, found⟩ := List.mem_filterMap.mp hentry
      exact h.pooled before kept hash entry found
    | aligned answered among =>
      obtain ⟨db, height, stood, loaded⟩ := relays.fullBlock _ _ _ rfl answered
      exact derived_snoc
        (Derived.flatten (derived_of_loadFullBlock (h.held before stood) loaded tx among)) e

variable [Merkle] [Pcg32] [Wm W]

/-- A step of the network holds on to what was initiated. -/
theorem NetworkSourced.step (h : NetworkSourced bootstrapTxs trace net) {m : I × LiveInput W}
    {out : List (I × NodeOutput)} (hstep : Interleaved handle net m = .ok (net', out))
    (relays : Relays (Stood (trace ++ [⟨net, m, out, net'⟩]))
      (Kept (trace ++ [⟨net, m, out, net'⟩])) (sent trace) m.2) :
    NetworkSourced bootstrapTxs (trace ++ [⟨net, m, out, net'⟩]) net' := by
  obtain ⟨n', own, hown, same, rfl⟩ := interleaved_ok hstep
  have mine : (own.map (m.1, ·)).map Prod.snd = own := by simp [Function.comp_def]
  generalize he : (⟨net, m, own.map (m.1, ·), net'⟩ : NetEvent I W) = e at relays
  have before : e.before = net := by rw [← he]
  have input : e.own.input = m.2 := by rw [← he, Event.own]
  have outputs : e.own.out = own := by rw [← he, Event.own, mine]
  have earlier (i : I) : Sourced (fun tx => ∃ j, tx ∈ bootstrapTxs j)
      (Derived (Initiated bootstrapTxs (trace ++ [e]))) (net i) :=
    (h.member i).imp fun tx derived => derived_snoc derived e
  obtain ⟨moved, conveys⟩ := (earlier m.1).step hown fun tx introduces =>
    h.brought before (input ▸ relays) (input ▸ introduces)
  refine ⟨fun i => ?_, fun db stood hash tx held => ?_, fun s kept hash entry held => ?_,
    fun old gossiped tx among => ?_⟩
  · rw [same]
    by_cases hi : i = m.1
    · subst hi
      rw [Function.update_self]
      exact moved
    · rw [Function.update_of_ne hi]
      exact earlier i
  · exact derived_snoc (h.held before stood hash tx held) e
  · exact derived_snoc (h.pooled before kept hash entry held) e
  · rw [sent_snoc, List.mem_append, outputs] at gossiped
    obtain gossiped | gossiped := gossiped
    · exact derived_snoc (h.gossiped old gossiped tx among) e
    · exact (conveys.gives _ gossiped tx among).1

/-! ## The runs of the network -/

variable {env : I → Env} {keypair : I → TrinciKeyPair} {nodeId : I → String} {wm : I → W}
  {accounts : I → Accounts} {networkName : I → String} {start : I → LiveNode W}

omit [Serialize BlockData] [Serialize ConfirmationData] [Merkle] [Pcg32] [Wm W]
  [DecidableEq I] in
theorem Sourced.initial {Initial Initial' P : Transaction → Prop} {n : LiveNode W}
    (h : Sourced Initial P n) (weaken : ∀ tx, Initial tx → Initial' tx) : Sourced Initial' P n :=
  { h with stored := h.stored.imp fun _ stored => stored.imp_left (weaken _) }

/-- Over every interleaved run of nodes that answer each other from what they hold, whatever
they ask for and in whatever order: a transaction that a node stores is in a bootstrap file,
or it passed its check and was handed to some node by a user, or is in a bootstrap file, or is
a node of a bulk that was. -/
theorem stored_initiated
    (hstart : ∀ i, bootstrap (env i) (keypair i) (nodeId i) (wm i) (accounts i) (bootstrapTxs i)
      (networkName i) = .ok (start i))
    (run : Run (Computes (Interleaved handle)) start trace net)
    (relays : Along (fun earlier e => Relays (Stood (earlier ++ [e])) (Kept (earlier ++ [e]))
      (sent earlier) e.own.input) trace) (i : I) {hash : Hash}
    (stored : (net i).wasm.db.transactions.lookup hash = some tx) :
    (∃ j, tx ∈ bootstrapTxs j) ∨ Passed (Derived (Initiated bootstrapTxs trace)) tx := by
  have sourced : NetworkSourced bootstrapTxs trace net := by
    refine run.invariant (fun trace net => NetworkSourced bootstrapTxs trace net) ?_ ?_ relays
    · refine ⟨fun j => (sourced_of_bootstrap (hstart j)).initial fun tx h => ⟨j, h⟩, ?_, ?_, ?_⟩
      · rintro db ⟨e, he, -⟩
        cases he
      · rintro s ⟨e, he, -⟩
        cases he
      · intro old gossiped
        cases gossiped
    · rintro trace net m out net' kept hstep relays
      exact kept.step hstep relays
  exact (sourced.member i).stored.db hash tx stored

end Network

end LiveNode

namespace Sample.Duo

open LiveNode

/-- Alice executes what bob proposes, for which she has to ask for its transaction. -/
def aliceAsks (proposal : Block × Confirmation × List Hash) : List (LiveInput Willing) :=
  takeGenesis ++
    [.arrive (.msg .consensusService (.blockFromPeer proposal.1 proposal.2.1 proposal.2.2)),
      .consensus env, .block (replyEnv [unitOf 2 (keypair 1)]), .transactions fun _ => 0,
      .transactions fun _ => 0, .pass 0, .consensus env, .finish, .consensus env, .pass 0]

def bobReplies : List (Bool × LiveInput Willing) :=
  (buildsSmall ++ executes).map (true, ·) ++
    (bobsProposal.toList.flatMap aliceAsks).map (false, ·)

/-- What a pool answers. -/
def poolReply (s : TransactionService Hash Transaction) (hashes : List Hash) :
    Reply (List (Transaction × Nat × Option (List Hash))) :=
  match (s.handleRequests (.getTxs hashes) : Option (Res Hash Block Confirmation Transaction)) with
  | some (.getTxs reply) => .answer reply
  | _ => .failed

theorem poolReply_answers {s : TransactionService Hash Transaction} {hashes : List Hash}
    {reply : List (Transaction × Nat × Option (List Hash))}
    (h : poolReply s hashes = .answer reply) :
    s.handleRequests (.getTxs hashes) =
      some (.getTxs reply : Res Hash Block Confirmation Transaction) := by
  cases h
  rfl

/-- The transaction of bob's block. -/
def wanted : Transaction := unitOf 2 (keypair 1)

def isWanted : Transaction → Bool
  | .unitTransaction ⟨.v1 data, signature⟩ =>
    decide (data = request 2 (keypair 1).publicKey ∧
      signature = (signed (keypair 1) (.v1 data)).signature)
  | _ => false

theorem eq_of_isWanted {tx : Transaction} (h : isWanted tx = true) : tx = wanted := by
  unfold isWanted at h
  split at h
  · obtain ⟨rfl, rfl⟩ := of_decide_eq_true h
    rfl
  · cases h

/-- Whether transactions only arrive as bob replies. -/
def repliesOfBob (e : NetEvent Bool Willing) : Bool :=
  match e.own.input with
  | .oldTransactions _ => false
  | .block env =>
    match env.getTxs 0 with
    | .answer _ =>
      match DbService.getTxs (e.before true).wasm.db
        (poolReply (e.before true).transactionService) [wanted.getHash] with
      | [tx] => isWanted tx
      | _ => false
    | _ => true
  | _ => true

theorem bobReplies_known {m : Bool × LiveInput Willing} (hm : m ∈ bobReplies)
    {answers : BlockEnv Hash Block Confirmation Transaction} (same : m.2 = .block answers) :
    (∀ k, answers.getFullBlock k = .failed) ∧ (∀ k, answers.getTxs k = answers.getTxs 0) ∧
      ∀ txs, answers.getTxs 0 = .answer txs → txs.map Prod.fst = [wanted] := by
  obtain ⟨i, input⟩ := m
  obtain rfl : input = .block answers := same
  have known : answers = blockEnv ∨ answers = leaderEnv [2] ∨ answers = replyEnv [wanted] := by
    rw [bobReplies, List.mem_append] at hm
    obtain hm | hm := hm
    · obtain ⟨built, hm, ⟨⟩⟩ := List.mem_map.mp hm
      have built : answers = blockEnv ∨ answers = leaderEnv [2] := by
        simpa [buildsSmall, executes, takeGenesis, enterPool] using hm
      exact built.imp_right .inl
    · obtain ⟨followed, hm, ⟨⟩⟩ := List.mem_map.mp hm
      obtain ⟨proposal, -, hm⟩ := List.mem_flatMap.mp hm
      have asked : answers = blockEnv ∨ answers = replyEnv [wanted] := by
        simpa [aliceAsks, takeGenesis, wanted] using hm
      exact asked.imp_right .inr
  obtain rfl | rfl | rfl := known
  · exact ⟨fun _ => rfl, fun _ => rfl, fun txs answered => by cases answered⟩
  · exact ⟨fun _ => rfl, fun _ => rfl, fun txs answered => by cases answered⟩
  · refine ⟨fun _ => rfl, fun _ => rfl, fun txs answered => ?_⟩
    cases answered
    rfl

theorem relays_of_bob {trace : List (NetEvent Bool Willing)} {e : NetEvent Bool Willing}
    (h : repliesOfBob e = true) (given : e.input ∈ bobReplies) :
    Relays (Stood (trace ++ [e])) (Kept (trace ++ [e])) (sent trace) e.own.input where
  gossip txs same := by
    rw [repliesOfBob, same] at h
    cases h
  missing answers attempt txs same answered := by
    obtain ⟨-, always, first⟩ := bobReplies_known given same
    rw [always attempt] at answered
    have last : e ∈ trace ++ [e] := List.mem_append_right _ (List.mem_singleton_self e)
    have replied : [wanted] = DbService.getTxs (e.before true).wasm.db
        (poolReply (e.before true).transactionService) [wanted.getHash] := by
      simp only [repliesOfBob, same, answered] at h
      split at h
      · next tx single =>
        rw [single, eq_of_isWanted h]
      · cases h
    refine ⟨_, _, _, ⟨e, last, true, rfl⟩, (first txs answered).trans replied, ?_⟩
    exact fun hashes reply served => ⟨_, ⟨e, last, true, rfl⟩, poolReply_answers served⟩
  fullBlock answers attempt fullBlock same answered := by
    rw [(bobReplies_known given same).1] at answered
    cases answered

/-- Alice stores the transaction of bob's block, which was submitted to him alone. -/
theorem alice_stores_bobs : ∃ (start net : Bool → LiveNode Willing) (trace : _) (hash : Hash),
    Run (Computes (Interleaved handle)) start trace net ∧
    (net false).wasm.db.transactions.lookup hash = some wanted ∧
    Passed (Derived (Initiated (fun _ => [unitOf 1 (keypair 1)]) trace)) wanted := by
  have other : wanted ≠ unitOf 1 (keypair 1) := fun same =>
    absurd (congrArg Transaction.getHash same) (by decide +kernel)
  have check : networkRuns bobReplies (fun _ trace net =>
      trace.all repliesOfBob &&
      ((net false).wasm.db.transactions.lookup wanted.getHash).any isWanted) = true := by
    decide +kernel
  unfold networkRuns at check
  split at check
  · next alice bob halice hbob =>
    split at check
    · next trace net hexec =>
      rw [Bool.and_eq_true] at check
      obtain ⟨replies, stored⟩ := check
      obtain ⟨tx, stored, same⟩ := (Option.any_eq_true _ _).mp stored
      rw [eq_of_isWanted same] at stored
      have given : Along (fun _ (e : NetEvent Bool Willing) => e.input ∈ bobReplies) trace :=
        along_iff_forall.mpr fun e he => exec_inputs hexec ▸ List.mem_map_of_mem he
      have relays := ((along_of_all replies).and given).imp fun earlier e h =>
        (relays_of_bob h.1 h.2 : Relays (Stood (earlier ++ [e])) (Kept (earlier ++ [e]))
          (sent earlier) e.own.input)
      have hstart : ∀ i : Bool, bootstrap env (keyOf i) (bif i then "bob" else "alice") .mk accounts
          [unitOf 1 (keypair 1)] "net" = .ok (bif i then bob else alice) := by
        intro i
        cases i with
        | false => exact halice
        | true => exact hbob
      have source : (∃ _ : Bool, wanted ∈ [unitOf 1 (keypair 1)]) ∨
          Passed (Derived (Initiated (fun _ => [unitOf 1 (keypair 1)]) trace)) wanted :=
        stored_initiated hstart (exec_run hexec) relays false stored
      exact ⟨_, net, trace, _, exec_run hexec, stored,
        source.resolve_left fun ⟨_, initial⟩ => other (List.mem_singleton.mp initial)⟩
    · cases check
  · cases check

end Sample.Duo

end Trinci
