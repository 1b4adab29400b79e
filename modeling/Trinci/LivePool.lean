import Trinci.LiveRounds

/-!
# The transactions of a block that is executed

The block service asks for the transactions of a block after it saw that the pool holds
them, or right after it sent those that were missing. The transaction service takes what
it is sent in order, so the pool holds them when it comes to the request: what is
consolidated before was taken when the block service saw the pool, and what is
consolidated later is sent after the request. All depends on the answer of the peer that
sent the missing transactions.
-/

namespace Trinci

open StepMachines

variable {W : Type}

namespace LiveNode

/-! ## The channel of the transaction service -/

section Queue

variable [Primitives] [NodeCodec]

/-- The transaction of this hash enters the pool with the message. -/
def Provides : NodeMsg → Hash → Prop
  | .addTx tx _ _, hash => Transactable.verify tx = some true ∧ Transactable.getHash tx = hash
  | .addTxs txs, hash =>
    ∃ tx ∈ txs.map Prod.fst, Transactable.verify tx = some true ∧ Transactable.getHash tx = hash
  | _, _ => False

def isCollect : NodeMsg → Bool
  | .collectBlockTxs _ _ _ => true
  | _ => false

/-- Whatever a request in the channel asks for is in the pool or ahead of it, and no
consolidation is ahead of it. -/
def Collectable (s : TransactionService Hash Transaction) (queue : List NodeMsg) : Prop :=
  ∀ before block round hashes after, queue = before ++ .collectBlockTxs block round hashes :: after →
    (∀ msg ∈ before, consolidatedBlock msg = none) ∧
      ∀ hash ∈ hashes, hash ∈ s.unconfirmedPool ∨ ∃ msg ∈ before, Provides msg hash

variable {s s' : TransactionService Hash Transaction} {msg : NodeMsg} {queue msgs : List NodeMsg}
  {out : List NodeOutput} {hash : Hash}

theorem mem_of_poolStep (step : TransactionService.PoolStep s msg s' out)
    (other : consolidatedBlock msg = none) (h : hash ∈ s.unconfirmedPool) :
    hash ∈ s'.unconfirmedPool := by
  cases step with
  | added grows => exact grows.keeps hash h
  | addedAll grows => exact grows.keeps hash h
  | consolidated _ _ _ _ => cases other
  | collected _ _ => exact h
  | rests _ same _ => rwa [same]

theorem provided_of_poolStep (step : TransactionService.PoolStep s msg s' out)
    (h : Provides msg hash) : hash ∈ s'.unconfirmedPool := by
  cases step with
  | added grows =>
    obtain ⟨verified, rfl⟩ := h
    exact grows.adds _ (List.mem_singleton.mpr rfl) verified
  | addedAll grows =>
    obtain ⟨tx, htx, verified, rfl⟩ := h
    exact grows.adds tx htx verified
  | consolidated _ _ _ _ => exact h.elim
  | collected _ _ => exact h.elim
  | rests rests _ _ => cases msg <;> first | exact rests.elim | exact h.elim

/-- The transaction service takes a message. -/
theorem Collectable.pop (h : Collectable s (msg :: queue))
    (step : TransactionService.PoolStep s msg s' out) : Collectable s' queue := by
  intro before block round hashes after hqueue
  obtain ⟨quiet, held⟩ := h (msg :: before) block round hashes after (by rw [hqueue]; rfl)
  rw [List.forall_mem_cons] at quiet
  refine ⟨quiet.2, fun hash hhash => ?_⟩
  rcases held hash hhash with pooled | ⟨m, hm, provides⟩
  · exact .inl (mem_of_poolStep step quiet.1 pooled)
  · rcases List.mem_cons.mp hm with rfl | hm
    · exact .inl (provided_of_poolStep step provides)
    · exact .inr ⟨m, hm, provides⟩

omit [Primitives] [NodeCodec] in
/-- A request is in the first part of a channel, or in what was written behind it. -/
theorem split_append {before after : List NodeMsg}
    (h : queue ++ msgs = before ++ msg :: after) :
    (∃ rest, queue = before ++ msg :: rest) ∨
      ∃ between, before = queue ++ between ∧ msgs = between ++ msg :: after := by
  rcases List.append_eq_append_iff.mp h with ⟨between, hbefore, hmsgs⟩ | ⟨rest, hqueue, hrest⟩
  · exact .inr ⟨between, hbefore, hmsgs⟩
  · cases rest with
    | nil => exact .inr ⟨[], by simpa using hqueue.symm, hrest.symm⟩
    | cons first rest =>
      obtain ⟨rfl, -⟩ := List.cons.inj hrest
      exact .inl ⟨rest, hqueue⟩

/-- Nothing is asked for by what was written. -/
theorem Collectable.append (h : Collectable s queue) (quiet : ∀ msg ∈ msgs, isCollect msg = false) :
    Collectable s (queue ++ msgs) := by
  intro before block round hashes after hqueue
  rcases split_append hqueue with ⟨rest, hqueue⟩ | ⟨between, -, hmsgs⟩
  · exact h before block round hashes rest hqueue
  · have := quiet (.collectBlockTxs block round hashes) (by rw [hmsgs]; simp)
    cases this

/-- A request is written behind what it asks for, while no consolidation is on its way. -/
theorem Collectable.ask (h : Collectable s queue) {block : Block} {round : UInt8}
    {hashes : List Hash} (calm : ∀ msg ∈ queue, consolidatedBlock msg = none)
    (quiet : ∀ msg ∈ msgs, isCollect msg = false ∧ consolidatedBlock msg = none)
    (held : ∀ hash ∈ hashes, hash ∈ s.unconfirmedPool ∨ ∃ msg ∈ msgs, Provides msg hash) :
    Collectable s (queue ++ (msgs ++ [.collectBlockTxs block round hashes])) := by
  intro before block' round' hashes' after hqueue
  rcases split_append hqueue with ⟨rest, hqueue⟩ | ⟨between, rfl, hmsgs⟩
  · exact h before block' round' hashes' rest hqueue
  · rcases split_append hmsgs with ⟨rest, hmsgs⟩ | ⟨more, rfl, hlast⟩
    · have := (quiet (.collectBlockTxs block' round' hashes') (by rw [hmsgs]; simp)).1
      cases this
    · cases more with
      | cons first more => simp at hlast
      | nil =>
        cases hlast
        rw [List.append_nil]
        refine ⟨?_, fun hash hhash => (held hash hhash).imp_right ?_⟩
        · rw [List.forall_mem_append]
          exact ⟨calm, fun msg hmsg => (quiet msg hmsg).2⟩
        · exact fun ⟨msg, hmsg, provides⟩ => ⟨msg, List.mem_append_right _ hmsg, provides⟩

end Queue

/-! ## What the block service asks for -/

section Requests

variable [Primitives] [NodeCodec]

/-- The transactions of a block that a message may lead to execute. -/
def Requested (env : BlockEnv Hash Block Confirmation Transaction) :
    NodeMsg → List Hash → Prop
  | .blockFromPeer _ _ txsHashes, hashes => hashes = txsHashes
  | .retrieveBlock _, hashes => ∃ attempt fullBlock,
    env.getFullBlock attempt = .answer (some fullBlock) ∧
      hashes = fullBlock.txs.map Transactable.getHash
  | _, hashes => ∃ listed, env.builtFrom = .answer listed ∧ hashes = BlockService.chosen listed

/-- An answer to `GetTxs` that passes the test has all the transactions that were
missing. -/
def Covers (env : BlockEnv Hash Block Confirmation Transaction) (hashes : List Hash) : Prop :=
  ∀ unconfirmed attempt txs, env.unconfirmedHashes = .answer unconfirmed →
    env.getTxs attempt = .answer txs →
    BlockService.Accepted (BlockService.missingTxs unconfirmed hashes) txs →
    ∀ hash ∈ BlockService.missingTxs unconfirmed hashes,
      ∃ tx ∈ txs.map Prod.fst, Transactable.getHash tx = hash

def RepliesCover (e : LiveEvent W) : Prop :=
  ∀ env msg, e.input = .block env → takenByBlock e = some msg →
    ∀ hashes, Requested env msg hashes → Covers env hashes

variable {env : BlockEnv Hash Block Confirmation Transaction} {hashes : List Hash}
  {s : TransactionService Hash Transaction} {out : List NodeOutput}

theorem anyUnwanted_verified {missing : List Hash}
    {txs : List (Transaction × Nat × Option (List Hash))}
    (h : BlockService.anyUnwanted missing txs = some false) :
    ∀ tx ∈ txs.map Prod.fst, Transactable.verify tx = some true := by
  induction txs with
  | nil => simp
  | cons entry txs ih =>
    obtain ⟨tx, size, attachments⟩ := entry
    rw [BlockService.anyUnwanted] at h
    rw [List.map_cons, List.forall_mem_cons]
    split at h
    · cases h
    · cases h
    · next verified =>
      split at h
      · exact ⟨verified, ih h⟩
      · cases h

/-- What is sent for a block: what was missing, and the request. -/
theorem begun_asks {block : Block} {round : UInt8} (earlier : List NodeMsg)
    (h : BlockService.Begun env block round hashes out) (covers : Covers env hashes)
    (listed : ∀ unconfirmed, env.unconfirmedHashes = .answer unconfirmed →
      ∀ hash ∈ unconfirmed.map Prod.fst,
        hash ∈ s.unconfirmedPool ∨ ∃ msg ∈ earlier, Provides msg hash) :
    ∃ msgs, out.filterMap (messageTo .transactionService) =
        msgs ++ [.collectBlockTxs block round hashes] ∧
      (∀ msg ∈ msgs, isCollect msg = false ∧ consolidatedBlock msg = none) ∧
      ∀ hash ∈ hashes,
        hash ∈ s.unconfirmedPool ∨ ∃ msg ∈ earlier ++ msgs, Provides msg hash := by
  have present {unconfirmed : List (Hash × Nat)} {hash : Hash} (hhash : hash ∈ hashes)
      (absent : hash ∉ BlockService.missingTxs unconfirmed hashes) :
      hash ∈ unconfirmed.map Prod.fst := by
    simpa [BlockService.missingTxs, hhash] using absent
  cases h with
  | @held unconfirmed hanswer none =>
    refine ⟨[], rfl, by simp, fun hash hhash => ?_⟩
    rw [List.append_nil]
    exact listed unconfirmed hanswer hash (present hhash (by simp [none]))
  | @supplied unconfirmed attempt txs hanswer hreply accepted =>
    refine ⟨[.addTxs txs], rfl, by simp [isCollect, consolidatedBlock], fun hash hhash => ?_⟩
    by_cases missing : hash ∈ BlockService.missingTxs unconfirmed hashes
    · obtain ⟨tx, htx, hsame⟩ := covers unconfirmed attempt txs hanswer hreply accepted hash missing
      refine .inr ⟨.addTxs txs, by simp, tx, htx, ?_, hsame⟩
      exact anyUnwanted_verified accepted.1 tx htx
    · rcases listed unconfirmed hanswer hash (present hhash missing) with
        pooled | ⟨msg, hmsg, provides⟩
      · exact .inl pooled
      · exact .inr ⟨msg, List.mem_append_left _ hmsg, provides⟩

end Requests

/-! ## Every request finds its transactions -/

section Steps

variable [Primitives] [Serialize BlockData] [Serialize ConfirmationData] [NodeCodec] [Merkle]
  [Pcg32] [Wm W] {n n' : LiveNode W} {input : LiveInput W} {out : List NodeOutput}

omit [Serialize BlockData] [Serialize ConfirmationData] [Merkle] [Pcg32] [Wm W] in
theorem mem_of_holds {before : List Transaction} {hash : Hash}
    (h : n.holds before hash = true) : hash ∈ n.transactionService.unconfirmedPool ∨
      ∃ tx ∈ before, Transactable.verify tx = some true ∧ Transactable.getHash tx = hash := by
  simp only [holds, Bool.or_eq_true, List.any_eq_true, Bool.and_eq_true, decide_eq_true_eq] at h
  exact h

omit [Serialize BlockData] [Serialize ConfirmationData] [Merkle] [Pcg32] [Wm W] in
/-- The answers to a block service that sends a request. -/
theorem answers_asked {msg : NodeMsg} {env : BlockEnv Hash Block Confirmation Transaction}
    (h : n.answers msg env out = true) (asked : out.any collects = true) :
    (∀ m ∈ n.toTransactions, consolidatedBlock m = none) ∧
      ∀ unconfirmed, env.unconfirmedHashes = .answer unconfirmed →
        ∀ hash ∈ unconfirmed.map Prod.fst, hash ∈ n.transactionService.unconfirmedPool ∨
          ∃ tx ∈ sentBefore msg out,
            Transactable.verify tx = some true ∧ Transactable.getHash tx = hash := by
  simp only [answers, asked, Bool.not_true, Bool.false_or, Bool.and_eq_true] at h
  obtain ⟨⟨abroad, -⟩, held⟩ := h
  constructor
  · intro m hm
    have := List.all_eq_true.mp abroad m hm
    cases m <;> first | rfl | cases this
  · intro unconfirmed hanswer hash hhash
    rw [hanswer] at held
    exact mem_of_holds (List.all_eq_true.mp held hash hhash)

omit [Serialize BlockData] [Serialize ConfirmationData] [Merkle] [Pcg32] in
theorem begun_collects {env : BlockEnv Hash Block Confirmation Transaction} {block : Block}
    {round : UInt8} {hashes : List Hash} (h : BlockService.Begun env block round hashes out) :
    out.any collects = true := by
  cases h with
  | held _ _ => rfl
  | supplied _ _ _ => rfl

/-- The invariant of the channel, with the pool that keeps every transaction under its
hash. -/
structure Pooled (n : LiveNode W) : Prop where
  collectable : Collectable n.transactionService n.toTransactions
  keyed : n.transactionService.Keyed

omit [Serialize BlockData] [Serialize ConfirmationData] [Merkle] [Pcg32] [Wm W] in
/-- A block is handed on to be executed, with what the block service sent before. -/
theorem Collectable.begin {env : BlockEnv Hash Block Confirmation Transaction} {block : Block}
    {msg : NodeMsg} {round : UInt8} {hashes : List Hash} {sent : List NodeOutput}
    (h : Collectable n.transactionService n.toTransactions) (before : List NodeMsg)
    (honest : n.answers msg env out = true) (asked : out.any collects = true)
    (begun : BlockService.Begun env block round hashes sent) (covers : Covers env hashes)
    (quiet : ∀ m ∈ before, isCollect m = false ∧ consolidatedBlock m = none)
    (supplied : ∀ tx ∈ sentBefore msg out, Transactable.verify tx = some true →
      ∃ m ∈ before, Provides m (Transactable.getHash tx))
    (split : out.filterMap (messageTo .transactionService) =
      before ++ sent.filterMap (messageTo .transactionService)) :
    Collectable n.transactionService
      (n.toTransactions ++ out.filterMap (messageTo .transactionService)) := by
  obtain ⟨calm, listed⟩ := answers_asked honest asked
  obtain ⟨msgs, hmsgs, quiet', held⟩ := begun_asks (s := n.transactionService) before
    begun covers fun unconfirmed hanswer hash hhash => by
      refine (listed unconfirmed hanswer hash hhash).imp_right ?_
      rintro ⟨tx, htx, verified, rfl⟩
      exact supplied tx htx verified
  rw [split, hmsgs, ← List.append_assoc before]
  refine h.ask calm ?_ held
  rw [List.forall_mem_append]
  exact ⟨quiet, quiet'⟩

omit [Serialize BlockData] [Serialize ConfirmationData] [Merkle] [Pcg32] [Wm W] in
/-- Nothing that was sent asks for transactions. -/
theorem Pooled.post (h : Pooled n) (quiet : ∀ o ∈ out, collects o = false) :
    Pooled (n.post out) := by
  refine ⟨h.collectable.append fun msg hmsg => ?_, h.keyed⟩
  have := quiet _ (mem_messageTo.mp hmsg)
  cases msg <;> first | rfl | cases this

omit [Primitives] [Serialize BlockData] [Serialize ConfirmationData] [NodeCodec] [Merkle] [Pcg32]
  [Wm W] in
theorem sentBefore_other {msg : NodeMsg} (other : ∀ peers, msg ≠ .retrieveBlock peers) :
    sentBefore msg out = [] := by
  unfold sentBefore
  split
  · exact absurd rfl (other _)
  · rfl

omit [Merkle] [Pcg32] [Wm W] in
theorem Pooled.takeBlock (h : Pooled n) {env : BlockEnv Hash Block Confirmation Transaction}
    {msg : NodeMsg} {rest : List NodeMsg} {blockService : BlockService}
    (heq : n.toBlock = msg :: rest)
    (hblock : n.blockService.handleMessages env msg = .ok (blockService, out))
    (honest : n.answers msg env out = true) (replies : RepliesCover ⟨n, .block env, out, n'⟩) :
    Collectable n.transactionService
      (n.toTransactions ++ out.filterMap (messageTo .transactionService)) := by
  have covers : ∀ hashes, Requested env msg hashes → Covers env hashes :=
    replies env msg rfl (by simp only [takenByBlock, heq])
  have silent (quiet : ∀ o ∈ out, collects o = false) : Collectable n.transactionService
      (n.toTransactions ++ out.filterMap (messageTo .transactionService)) :=
    (h.post quiet).collectable
  cases BlockService.handleMessages_step hblock with
  | consolidated =>
    apply silent
    simp only [List.mem_append, List.mem_cons, List.not_mem_nil, or_false]
    rintro o (ho | rfl | rfl)
    · split at ho <;> simp_all [collects]
    · rfl
    · rfl
  | refreshed => exact silent (by simp)
  | verified sent =>
    rcases sent with rfl | verified
    · exact silent (by simp)
    · refine h.collectable.begin [] honest (begun_collects verified.begun) verified.begun
        (covers _ rfl) (by simp) (fun tx htx _ => ?_) rfl
      rw [sentBefore_other (by simp)] at htx
      cases htx
  | @built _ b sent timer builds hsent htimer =>
    have late : timer.filterMap (messageTo .transactionService) = [] := by
      rcases htimer with rfl | rfl <;> rfl
    have other : ∀ peers, msg ≠ .retrieveBlock peers := by
      rintro peers rfl
      exact builds.elim
    rcases hsent with rfl | @⟨listed, _, hlisted, begun⟩
    · refine silent fun o ho => ?_
      rcases htimer with rfl | rfl
      · cases ho
      · obtain rfl := List.mem_singleton.mp ho
        rfl
    · refine h.collectable.begin [] honest ?_ begun (covers _ ?_)
        (by simp) (fun tx htx _ => ?_) ?_
      · rw [List.any_append, begun_collects begun, Bool.true_or]
      · cases msg <;> first | exact ⟨listed, hlisted, rfl⟩ | exact builds.elim
      · rw [sentBefore_other other] at htx
        cases htx
      · rw [List.filterMap_append, late, List.append_nil]
        rfl
  | @retrieved peers a sent hsent _ =>
    rcases hsent with rfl | @⟨attempt, fullBlock, sent, hfull, verified⟩
    · exact silent (by simp)
    · rcases verified with rfl | verified
      · exact silent (by simp [collects])
      · refine h.collectable.begin
          [.addTxs (fullBlock.txs.map fun tx => (tx, (rmpSerialize tx).length, none))] honest ?_
          verified.begun (covers _ ⟨attempt, fullBlock, hfull, rfl⟩)
          (by simp [isCollect, consolidatedBlock]) ?_ rfl
        · simp only [List.any_cons, begun_collects verified.begun, Bool.or_true]
        · intro tx htx checked
          exact ⟨_, List.mem_singleton.mpr rfl, tx, htx, checked, rfl⟩
  | aligned _ _ _ => exact silent (by simp [collects])
  | ended => exact silent (by simp)
  | timed => exact silent (by simp [collects])
  | idle _ => exact silent (by simp)

omit [Primitives] [Serialize BlockData] [Serialize ConfirmationData] [NodeCodec] [Merkle] [Pcg32]
  [Wm W] in
theorem collects_enters {o : NodeOutput} (h : Enters o) : collects o = false := by
  rcases h with h | ⟨txs, rfl⟩
  · unfold arrives at h
    split at h
    · rfl
    · rfl
    · split at h <;> first | rfl | cases h
    · cases h
  · rfl

/-- A step whose answers cover what was missing. -/
theorem Pooled.step (h : Pooled n) (step : LiveStep n input out n')
    (replies : RepliesCover ⟨n, input, out, n'⟩) : Pooled n' := by
  cases step with
  | consensus _ hcore =>
    have sends := ConsensusService.handleMessages_sends (Drawing.handleMessages_ok hcore).1
    refine Pooled.post ⟨h.collectable, h.keyed⟩ fun o ho => ?_
    have := sends o ho
    unfold ConsensusService.MaySend at this
    split at this <;> first | rfl | exact this.elim
  | leader _ => exact ⟨h.collectable, h.keyed⟩
  | block heq hblock honest => exact ⟨h.takeBlock heq hblock honest replies, h.keyed⟩
  | transactions heq hpool =>
    have step := TransactionService.handleMessages_pool hpool
    have collectable := h.collectable
    rw [heq] at collectable
    refine Pooled.post ⟨collectable.pop step, step.keyed h.keyed⟩ fun o ho => ?_
    rcases step.sends ho with (rfl | rfl) | ⟨_, _, _, _, -, rfl⟩ | ⟨_, rfl⟩ <;> rfl
  | begins _ _ _ => exact ⟨h.collectable, h.keyed⟩
  | consolidates _ _ hwasm =>
    obtain ⟨forked, players, -, rfl, -⟩ := WasmService.consolidateBlock_ok hwasm
    exact Pooled.post ⟨h.collectable, h.keyed⟩ (by simp [collects])
  | verifies _ _ => exact Pooled.post ⟨h.collectable, h.keyed⟩ (by simp [collects])
  | elects _ => exact Pooled.post ⟨h.collectable, h.keyed⟩ (by simp [collects])
  | waits _ => exact Pooled.post ⟨h.collectable, h.keyed⟩ (by simp [collects])
  | times _ => exact Pooled.post ⟨h.collectable, h.keyed⟩ (by simp [collects])
  | passes => exact ⟨h.collectable, h.keyed⟩
  | finishes _ hwasm =>
    refine Pooled.post ⟨h.collectable, h.keyed⟩ fun o ho => ?_
    rcases executeBlock_sends hwasm o ho with ⟨_, _, rfl⟩ | ⟨_, _, rfl⟩ | ⟨_, _, _, rfl⟩ <;> rfl
  | enters _ entering => exact h.post fun o ho => collects_enters (entering o ho)
  | restarts hrestart =>
    obtain ⟨block, core, config, -, -, rfl⟩ := restart_ok hrestart
    refine ⟨fun before block round hashes after h => ?_, fun hash entry h => ?_⟩
    · simp at h
    · cases h

omit [Serialize ConfirmationData] in
theorem pooled_of_started (h : Started n) : Pooled n := by
  obtain ⟨hstart⟩ := h
  obtain ⟨core, wasm, out, named, -, -, hwasm, sent, rfl⟩ := bootstrap_ok hstart
  obtain ⟨given, players, -, -, -, -, rfl⟩ :=
    executeGenesisBlock_ok rfl (UInt64.lt_irrefl 0) named hwasm sent
  refine ⟨fun before block round hashes after h => ?_, fun hash entry h => ?_⟩
  · simp [LiveNode.post, messageTo] at h
  · cases h

/-- A request that the transaction service takes next finds all its hashes in the pool
and is served with their transactions, in their order. -/
def Serves (n : LiveNode W) : Prop :=
  ∀ block round hashes rest, n.toTransactions = .collectBlockTxs block round hashes :: rest →
    (∀ hash ∈ hashes, hash ∈ n.transactionService.unconfirmedPool) ∧
      ∀ now, ∃ txs : List Transaction, txs.map Transactable.getHash = hashes ∧
        n.transactionService.handleMessages now (.collectBlockTxs block round hashes : NodeMsg) =
          .ok (n.transactionService, [.msg .nodeInterface (.executeBlock block round txs)])

omit [Serialize BlockData] [Serialize ConfirmationData] [Merkle] [Pcg32] [Wm W] in
theorem Pooled.serves (h : Pooled n) : Serves n := by
  intro block round hashes rest hqueue
  obtain ⟨-, held⟩ := h.collectable [] block round hashes rest hqueue
  have held : ∀ hash ∈ hashes, hash ∈ n.transactionService.unconfirmedPool := by
    intro hash hhash
    exact (held hash hhash).resolve_right fun ⟨m, hm, _⟩ => nomatch hm
  obtain ⟨txs, htxs⟩ := TransactionService.collectBlockTxs_held held
  refine ⟨held, fun now => ⟨txs, (TransactionService.collectBlockTxs_ok htxs).2 h.keyed, ?_⟩⟩
  rw [TransactionService.handleMessages, htxs]
  rfl

/-- Over every run in which the answers to `GetTxs` that pass the test cover what was
missing, the transaction service serves every request it comes to. -/
theorem run_serves {start : LiveNode W} {trace : List (LiveEvent W)} (started : Started start)
    (run : Run (Computes handle) start trace n)
    (replies : Along (fun _ e => RepliesCover e) trace) : Serves n := by
  refine Pooled.serves ?_
  refine run.invariant (fun _ n => Pooled n) (pooled_of_started started) ?_ replies
  exact fun _ _ _ _ _ pooled hstep reply => pooled.step (handle_step hstep) reply

end Steps

end LiveNode

namespace Sample.Duo

open LiveNode

/-- The answers while a peer replies with these transactions. -/
def replyEnv (reply : List Transaction) : BlockEnv Hash Block Confirmation Transaction :=
  { blockEnv with getTxs := fun _ => .answer (reply.map Node.poolEntry) }

/-- Bob's block arrives, and alice asks for its two transactions. -/
def asksForTxs (reply : List Transaction) : List (LiveInput Willing) :=
  takeGenesis ++
    [.arrive (.msg .consensusService
        (.blockFromPeer bobsBlock (confirmation 2 0) (bobsTxs.map Transaction.getHash))),
      .consensus env, .block (replyEnv reply), .transactions fun _ => 0]

/-- Whether the transaction service comes to a request for a transaction it does not hold. -/
def lacking (n : LiveNode Willing) : Bool :=
  match n.toTransactions with
  | .collectBlockTxs _ _ hashes :: _ =>
    hashes.any fun hash => decide (hash ∉ n.transactionService.unconfirmedPool)
  | _ => false

/-- A reply with one of the two transactions twice passes the test. -/
theorem doubled_reply_accepted : ∃ start trace n, Started start ∧
    Run (Computes handle) start trace n ∧ ¬ Serves (n : LiveNode Willing) := by
  obtain ⟨start, trace, n, started, run, lacks, -⟩ := exists_run 1
    (asksForTxs [unitOf 2 (keypair 1), unitOf 2 (keypair 1)]) (fun _ n => lacking n)
    (by decide +kernel)
  refine ⟨start, trace, n, started, run, fun serves => ?_⟩
  unfold lacking at lacks
  split at lacks
  · next block round hashes rest hqueue =>
    obtain ⟨hash, hhash, absent⟩ := List.any_eq_true.mp lacks
    exact of_decide_eq_true absent ((serves block round hashes rest hqueue).1 hash hhash)
  · cases lacks

/-- Whether the block service is asked for no block but bob's. -/
def asksForBobs (e : LiveEvent Willing) : Bool :=
  match takenByBlock e with
  | some (.blockFromPeer _ _ hashes) => decide (hashes = bobsTxs.map Transaction.getHash)
  | _ => true

theorem covers_nil (env : BlockEnv Hash Block Confirmation Transaction) : Covers env [] := by
  intro unconfirmed attempt txs _ _ _ hash hhash
  cases hhash

theorem covers_bobsTxs : Covers (replyEnv bobsTxs) (bobsTxs.map Transaction.getHash) := by
  intro unconfirmed attempt txs _ hreply _ hash hhash
  cases hreply
  obtain ⟨tx, htx, rfl⟩ := List.mem_map.mp (List.mem_of_mem_filter hhash)
  exact ⟨tx, by simpa [Node.poolEntry] using htx, rfl⟩

theorem repliesCover_of_asksForBobs {e : LiveEvent Willing} (h : asksForBobs e = true)
    (hinput : e.input ∈ asksForTxs bobsTxs) : RepliesCover e := by
  intro env msg henv htaken hashes requested
  rw [henv] at hinput
  have answered : env = blockEnv ∨ env = replyEnv bobsTxs := by
    simpa [asksForTxs, takeGenesis] using hinput
  have unbuilt : env.builtFrom = .answer [] := by rcases answered with rfl | rfl <;> rfl
  have unserved : ∀ attempt, env.getFullBlock attempt = .failed := by
    rcases answered with rfl | rfl <;> exact fun _ => rfl
  unfold Requested at requested
  split at requested
  · next _ _ txsHashes =>
    subst requested
    simp only [asksForBobs, htaken, decide_eq_true_eq] at h
    subst h
    rcases answered with rfl | rfl
    · intro unconfirmed attempt txs _ hreply
      cases hreply
    · exact covers_bobsTxs
  · obtain ⟨attempt, fullBlock, hfull, -⟩ := requested
    cases (unserved attempt).symm.trans hfull
  · obtain ⟨listed, hlisted, rfl⟩ := requested
    cases unbuilt.symm.trans hlisted
    exact covers_nil env

/-- Whether the transaction service comes to the request for the transactions of bob's block. -/
def collectsBobs (n : LiveNode Willing) : Bool :=
  match n.toTransactions with
  | .collectBlockTxs _ _ hashes :: _ => decide (hashes = bobsTxs.map Transaction.getHash)
  | _ => false

/-- Both transactions arrive, and alice collects them in order. -/
theorem complete_reply_served : ∃ start trace n, Started start ∧ Run (Computes handle) start trace n ∧
    Serves (n : LiveNode Willing) ∧ ∃ block round rest, n.toTransactions =
      .collectBlockTxs block round (bobsTxs.map Transaction.getHash) :: rest := by
  obtain ⟨start, trace, n, started, run, check, inputs⟩ := exists_run 1 (asksForTxs bobsTxs)
    (fun trace n => trace.all asksForBobs && collectsBobs n) (by decide +kernel)
  rw [Bool.and_eq_true] at check
  obtain ⟨asks, collects⟩ := check
  have replies : Along (fun _ (e : LiveEvent Willing) => RepliesCover e) trace := by
    refine along_iff_forall.mpr fun e he => ?_
    refine repliesCover_of_asksForBobs (List.all_eq_true.mp asks e he) ?_
    rw [← inputs]
    exact List.mem_map_of_mem he
  refine ⟨start, trace, n, started, run, run_serves started run replies, ?_⟩
  unfold collectsBobs at collects
  split at collects
  · next block round hashes rest hqueue =>
    obtain rfl := of_decide_eq_true collects
    exact ⟨block, round, rest, hqueue⟩
  · cases collects

end Sample.Duo

end Trinci
