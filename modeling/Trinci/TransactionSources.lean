import Trinci.LiveBlocks
import Trinci.PoolContents

/-!
# Where the transactions of a node come from

Users, gossip and the answers of peers bring transactions to a node. The pool takes those
that pass their check, and a block is executed from the pool. So whatever is stored was
brought to the node and passed its check, apart from the transactions of the bootstrap file,
however peers behave.
-/

namespace Trinci

open StepMachines StatefulSteps

variable {W : Type}

/-! ## The pool -/

section Pools

variable {A B C T : Type}

/-- The transactions that a message brings to the pool. -/
def Msg.offered : Msg A B C T → List T
  | .addTx tx _ _ => [tx]
  | .addTxs txs => txs.map Prod.fst
  | _ => []

/-- The transactions that the pool gives away with a message. -/
def Msg.given : Msg A B C T → List T
  | .executeBlock _ _ txs => txs
  | .propagateOldTxs txs => txs
  | _ => []

variable [DecidableEq A] [Transactable T]

theorem Pool.lookup_foldl_edit {edits : List (PoolEdit A T)} {p : Pool A T} {hash : Hash}
    {entry : PoolEntry A T} (h : (edits.foldl Pool.edit p).entries.lookup hash = some entry) :
    p.entries.lookup hash = some entry ∨ .insert entry ∈ edits := by
  induction edits generalizing p with
  | nil => exact .inl h
  | cons first rest ih =>
    rw [List.mem_cons]
    obtain h | h := ih h
    · cases first with
      | insert new =>
        by_cases same : hash = Transactable.getHash new.tx
        · subst same
          rw [Pool.edit, AList.lookup_insert, Option.some.injEq] at h
          exact .inr (.inl (congrArg _ h.symm))
        · rw [Pool.edit, AList.lookup_insert_ne same] at h
          exact .inl h
      | remove gone =>
        by_cases same : hash = gone
        · subst same
          rw [Pool.edit, AList.lookup_erase] at h
          cases h
        · rw [Pool.edit, AList.lookup_erase_ne same] at h
          exact .inl h
    · exact .inr (.inr h)

namespace TransactionService

variable {s s' : TransactionService A T} {now : Nat → UInt64} {msg : Msg A B C T}
  {out : List (Output A B C T)}

/-- An entry of the pool was there before, or its transaction was offered and passed its
check. -/
theorem handleMessages_admits (h : s.handleMessages now msg = .ok (s', out)) {hash : Hash}
    {entry : PoolEntry A T} (held : s'.unconfirmedPool.lookup hash = some entry) :
    s.unconfirmedPool.lookup hash = some entry ∨
      (entry.tx ∈ msg.offered ∧ Transactable.verify entry.tx = some true) := by
  have edited : ((edits msg).foldl Pool.edit s.pool).entries.lookup hash = some entry := by
    rw [← handleMessages_edits h]
    exact held
  obtain kept | inserted := Pool.lookup_foldl_edit edited
  · exact .inl kept
  · refine .inr ⟨?_, edits_checked msg _ inserted⟩
    have new : entry ∈ insertions msg := by simpa [edits] using inserted
    cases msg with
    | addTx tx size attachments =>
      obtain rfl := List.mem_singleton.mp (List.mem_filter.mp new).1
      exact List.mem_singleton_self _
    | addTxs txs => exact List.mem_map_of_mem (List.mem_filter.mp new).1
    | _ => cases new

omit [DecidableEq A] [Transactable T] in
theorem collectBlockTxs_pooled {txsHashes : List Hash} {txs : List T}
    (h : s.collectBlockTxs txsHashes = .ok txs) :
    ∀ tx ∈ txs, ∃ hash entry, s.unconfirmedPool.lookup hash = some entry ∧ entry.1 = tx := by
  induction txsHashes generalizing txs with
  | nil =>
    cases h
    simp
  | cons hash rest ih =>
    obtain ⟨entry, later, hlookup, hlater, rfl⟩ := collectBlockTxs_cons_ok h
    rw [List.forall_mem_cons]
    exact ⟨⟨hash, entry, hlookup, rfl⟩, ih hlater⟩

/-- What the service sends away it has in its pool. -/
theorem handleMessages_gives (h : s.handleMessages now msg = .ok (s', out)) {dest : Service}
    {sent : Msg A B C T} (hsent : .msg dest sent ∈ out) :
    sent.offered = [] ∧ ∀ tx ∈ sent.given,
      ∃ hash entry, s.unconfirmedPool.lookup hash = some entry ∧ entry.1 = tx := by
  obtain (trigger | trigger) | ⟨block, round, txsHashes, txs, rfl, same⟩ | ⟨txs, same⟩ :=
    (handleMessages_pool h).sends hsent
  · cases trigger
    exact ⟨rfl, by simp [Msg.given]⟩
  · cases trigger
    exact ⟨rfl, by simp [Msg.given]⟩
  · cases same
    obtain ⟨collected, hcollected, h⟩ := bind_eq_ok.mp h
    cases h
    cases List.mem_singleton.mp hsent
    exact ⟨rfl, collectBlockTxs_pooled hcollected⟩
  · cases same
    refine ⟨rfl, ?_⟩
    cases msg with
    | checkOldTxs =>
      simp only [handleMessages, checkOldTxs, Except.ok.injEq] at h
      split at h
      · cases h
        cases hsent
      · cases h
        split at hsent
        · cases hsent
        · cases List.mem_singleton.mp hsent
          intro tx htx
          obtain ⟨entry, -, held⟩ := List.mem_filterMap.mp htx
          obtain ⟨stored, hstored, rfl⟩ := Option.map_eq_some_iff.mp held
          exact ⟨entry.1, stored, hstored, rfl⟩
    | addTx tx size attachments =>
      rcases (addTx_grows h).triggers _ hsent with trigger | trigger <;> cases trigger
    | addTxs txs =>
      rcases (addTxs_grows h).triggers _ hsent with trigger | trigger <;> cases trigger
    | blockConsolidated block txsHashes players =>
      cases handleMessages_pool h with
      | consolidated _ triggers _ _ =>
        rcases triggers _ hsent with trigger | trigger <;> cases trigger
      | rests rests _ _ => cases rests
    | collectBlockTxs block round txsHashes =>
      obtain ⟨collected, hcollected, h⟩ := bind_eq_ok.mp h
      cases h
      cases List.mem_singleton.mp hsent
    | _ =>
      cases h
      cases hsent

end TransactionService

end Pools

/-! ## The block service -/

namespace BlockService

variable {A B C T : Type} [Primitives] [Executable B] [Confirmable C] [Transactable T] [Serialize T]
  {env : BlockEnv A B C T} {s s' : BlockService} {msg : Msg A B C T} {out : List (Output A B C T)}

/-- The transactions in the answers of peers. -/
inductive Supplied (env : BlockEnv A B C T) (tx : T) : Prop
  | missing {attempt : Nat} {txs : List (T × Nat × Option (List A))} :
      env.getTxs attempt = .answer txs → tx ∈ txs.map Prod.fst → Supplied env tx
  | aligned {attempt : Nat} {fullBlock : FullBlock B C T} :
      env.getFullBlock attempt = .answer (some fullBlock) → tx ∈ fullBlock.txs → Supplied env tx

omit [Primitives] [Executable B] [Confirmable C] [Serialize T] in
theorem Begun.offers {block : B} {round : UInt8} {txsHashes : List Hash}
    (h : Begun env block round txsHashes out) {dest : Service} {sent : Msg A B C T}
    (hsent : .msg dest sent ∈ out) : sent.given = [] ∧ ∀ tx ∈ sent.offered, Supplied env tx := by
  cases h with
  | held _ _ =>
    cases List.mem_singleton.mp hsent
    exact ⟨rfl, by simp [Msg.offered]⟩
  | supplied _ answered _ =>
    rw [List.mem_cons, List.mem_singleton] at hsent
    obtain same | same := hsent
    · cases same
      exact ⟨rfl, fun tx htx => .missing answered htx⟩
    · cases same
      exact ⟨rfl, by simp [Msg.offered]⟩

/-- What the service sends to the pool it was given by peers. -/
theorem handleMessages_offers (h : handleMessages env s msg = .ok (s', out)) {dest : Service}
    {sent : Msg A B C T} (hsent : .msg dest sent ∈ out) :
    sent.given = [] ∧ ∀ tx ∈ sent.offered, Supplied env tx := by
  cases handleMessages_step h with
  | consolidated =>
    simp only [List.mem_append, List.mem_cons, List.not_mem_nil, or_false] at hsent
    rcases hsent with hsent | same | same
    · split at hsent
      · cases List.mem_singleton.mp hsent
      · cases hsent
    · cases same
      exact ⟨rfl, by simp [Msg.offered]⟩
    · cases same
      exact ⟨rfl, by simp [Msg.offered]⟩
  | refreshed => cases hsent
  | verified sent =>
    obtain rfl | verified := sent
    · cases hsent
    · exact verified.begun.offers hsent
  | built _ sent timer =>
    obtain hsent | hsent := List.mem_append.mp hsent
    · obtain rfl | ⟨-, begun⟩ := sent
      · cases hsent
      · exact begun.offers hsent
    · obtain rfl | rfl := timer
      · cases hsent
      · cases List.mem_singleton.mp hsent
  | retrieved sent _ =>
    obtain rfl | ⟨answered, verified⟩ := sent
    · cases hsent
    · rw [List.mem_cons, List.mem_cons] at hsent
      obtain same | same | hsent := hsent
      · cases same
        exact ⟨rfl, by simp [Msg.offered]⟩
      · cases same
        refine ⟨rfl, fun tx htx => .aligned answered ?_⟩
        simpa [Msg.offered] using htx
      · obtain rfl | verified := verified
        · cases hsent
        · exact verified.begun.offers hsent
  | aligned _ _ _ =>
    rw [List.mem_cons, List.mem_singleton] at hsent
    obtain same | same := hsent
    · cases same
      exact ⟨rfl, by simp [Msg.offered]⟩
    · cases same
  | ended => cases hsent
  | timed => cases List.mem_singleton.mp hsent
  | idle _ => cases hsent

end BlockService

/-! ## The database -/

theorem forall_storeAll {hashOf : Transaction → Hash} {txs : List Transaction}
    {map : AList fun _ : Hash => Transaction} {P : Transaction → Prop}
    (stored : ∀ hash tx, map.lookup hash = some tx → P tx) (new : ∀ tx ∈ txs, P tx) (hash : Hash)
    (tx : Transaction) (h : (storeAll hashOf txs map).lookup hash = some tx) : P tx := by
  induction txs generalizing map with
  | nil => exact stored hash tx h
  | cons first rest ih =>
    rw [List.forall_mem_cons] at new
    refine ih (fun other old hold => ?_) new.2 h
    by_cases same : other = hashOf first
    · subst same
      rw [AList.lookup_insert, Option.some.injEq] at hold
      exact hold ▸ new.1
    · rw [AList.lookup_insert_ne same] at hold
      exact stored other old hold

namespace WasmService

/-- Every transaction that is stored, in the database or in a fork, is one of these. -/
structure StoresOnly (P : Transaction → Prop) (s : WasmService W) : Prop where
  db : ∀ hash tx, s.db.transactions.lookup hash = some tx → P tx
  forks : ∀ key forked, s.forksCollector.lookup key = some forked →
    ∀ hash tx, forked.fork.working.transactions.lookup hash = some tx → P tx

variable {P Q : Transaction → Prop} {s t : WasmService W} {block : Block} {round : UInt8}
  {txs : List Transaction} {out : List WasmOutput}

theorem StoresOnly.imp (h : s.StoresOnly P) (weaken : ∀ tx, P tx → Q tx) : s.StoresOnly Q :=
  ⟨fun hash tx stored => weaken tx (h.db hash tx stored),
    fun key forked kept hash tx stored => weaken tx (h.forks key forked kept hash tx stored)⟩

theorem StoresOnly.insert (h : s.StoresOnly P) {forked : ExecutedFork}
    (new : ∀ hash tx, forked.fork.working.transactions.lookup hash = some tx → P tx) (key : Hash) :
    ({ s with forksCollector := s.forksCollector.insert key forked } :
      WasmService W).StoresOnly P := by
  refine ⟨h.db, fun other kept hkept => ?_⟩
  by_cases same : other = key
  · subst same
    rw [AList.lookup_insert, Option.some.injEq] at hkept
    exact hkept ▸ new
  · rw [AList.lookup_insert_ne same] at hkept
    exact h.forks other kept hkept

variable [Primitives] [Serialize BlockData] [NodeCodec]

theorem StoresOnly.consolidate (h : s.StoresOnly P) {confirmations : List Confirmation}
    {txsHashes : List Hash}
    (done : s.consolidateBlock block confirmations txsHashes = .ok (t, out)) : t.StoresOnly P := by
  obtain ⟨forked, players, hforked, -, rfl, -⟩ := consolidateBlock_ok done
  exact ⟨h.forks _ forked hforked, fun key kept hkept => by cases hkept⟩

/-- The execution of a block stores its transactions in the fork. -/
theorem StoresOnly.execute [Merkle] [Wm W] (h : s.StoresOnly P) (new : ∀ tx ∈ txs, P tx)
    {leader : Option String} {ok : Bool}
    (done : s.executeBlock block round txs leader = .ok (ok, t, out)) : t.StoresOnly P := by
  cases executeBlock_outcome done with
  | stored _ => exact h
  | failed _ _ => exact ⟨h.db, h.forks⟩
  | executed _ hroots hdone outcome =>
    cases hdone
    have kept : ∀ hash tx,
        (forkAfter s block txs leader).fork.working.transactions.lookup hash = some tx → P tx := by
      rw [(forkAfter_writes hroots).1]
      exact forall_storeAll h.db new
    have moved : ({ s with
        wm := (after (s.config.executeInFork block txs leader) s.begin).wm
        drand := (after (s.config.executeInFork block txs leader) s.begin).drand } :
        WasmService W).StoresOnly P := ⟨h.db, h.forks⟩
    cases outcome with
    | announced _ => exact moved.insert kept _
    | rejected _ _ _ => exact moved
    | confirmed _ _ _ _ _ => exact moved.insert kept _
    | settled _ _ settled => exact (moved.insert kept _).consolidate settled

end WasmService

/-! ## The node -/

namespace LiveNode

/-- The transactions that an input brings to the node. -/
inductive Introduces : LiveInput W → Transaction → Prop
  | arrived {tx : Transaction} {size : Nat} {attachments : Option (List Hash)} :
      Introduces (.arrive (.msg .transactionService (.addTx tx size attachments))) tx
  | submitted {tx : Transaction} : Introduces (.submit tx) tx
  | repropagated {txs : List Transaction} {tx : Transaction} :
      tx ∈ txs → Introduces (.oldTransactions txs) tx
  | supplied {env : BlockEnv Hash Block Confirmation Transaction} {tx : Transaction} :
      BlockService.Supplied env tx → Introduces (.block env) tx

section Sources

variable [Primitives] [NodeCodec] {Initial P Q : Transaction → Prop} {n n' : LiveNode W}
  {input : LiveInput W} {out : List NodeOutput}

/-- A transaction that was brought and passed its check. -/
def Passed (P : Transaction → Prop) (tx : Transaction) : Prop := P tx ∧ tx.verify = .ok true

/-- Where everything that the node holds comes from. -/
structure Sourced (Initial P : Transaction → Prop) (n : LiveNode W) : Prop where
  queued : ∀ msg ∈ n.toTransactions, ∀ tx ∈ msg.offered, P tx
  pooled : ∀ hash entry, n.transactionService.unconfirmedPool.lookup hash = some entry →
    Passed P entry.1
  passing : ∀ msg, .msg .nodeInterface msg ∈ n.threads → ∀ tx ∈ msg.given, Passed P tx
  taken : ∀ taken, n.taken = some taken → ∀ tx ∈ taken.txs, Passed P tx
  stored : n.wasm.StoresOnly fun tx => Initial tx ∨ Passed P tx

/-- What is sent to the pool was brought, and what the pool gave away passed its check. -/
structure Conveys (P : Transaction → Prop) (out : List NodeOutput) : Prop where
  offers : ∀ msg, .msg .transactionService msg ∈ out → ∀ tx ∈ msg.offered, P tx
  gives : ∀ msg, .msg .nodeInterface msg ∈ out → ∀ tx ∈ msg.given, Passed P tx

theorem Passed.imp (weaken : ∀ tx, P tx → Q tx) {tx : Transaction} (h : Passed P tx) :
    Passed Q tx :=
  ⟨weaken tx h.1, h.2⟩

theorem Sourced.imp (h : Sourced Initial P n) (weaken : ∀ tx, P tx → Q tx) :
    Sourced Initial Q n where
  queued msg queued tx htx := weaken tx (h.queued msg queued tx htx)
  pooled hash entry held := (h.pooled hash entry held).imp weaken
  passing msg passing tx htx := (h.passing msg passing tx htx).imp weaken
  taken taken htaken tx htx := (h.taken taken htaken tx htx).imp weaken
  stored := h.stored.imp fun _ stored => stored.imp_right (Passed.imp weaken)

theorem Sourced.post (h : Sourced Initial P n) (conveys : Conveys P out) :
    Sourced Initial P (n.post out) where
  queued msg queued := by
    obtain queued | queued := List.mem_append.mp queued
    · exact h.queued msg queued
    · exact conveys.offers msg (mem_messageTo.mp queued)
  pooled := h.pooled
  passing msg passing := by
    obtain passing | passing := List.mem_append.mp passing
    · exact h.passing msg passing
    · exact conveys.gives msg (List.mem_filter.mp passing).1
  taken := h.taken
  stored := h.stored

/-- Messages without transactions. -/
theorem conveys_of_quiet
    (quiet : ∀ dest msg, .msg dest msg ∈ out → msg.offered = [] ∧ msg.given = []) :
    Conveys P out where
  offers msg sent tx htx := by
    rw [(quiet _ msg sent).1] at htx
    cases htx
  gives msg sent tx htx := by
    rw [(quiet _ msg sent).2] at htx
    cases htx

theorem Sourced.post_quiet (h : Sourced Initial P n)
    (quiet : ∀ dest msg, .msg dest msg ∈ out → msg.offered = [] ∧ msg.given = []) :
    Sourced Initial P (n.post out) ∧ Conveys P out :=
  ⟨h.post (conveys_of_quiet quiet), conveys_of_quiet quiet⟩

/-- The consensus service never handles transactions. -/
theorem conveys_of_maySend {s : ConsensusService Block Confirmation} {msg : NodeMsg}
    (sends : ∀ o ∈ out, s.MaySend msg o) : Conveys P out where
  offers sent hsent := by
    have allowed := sends _ hsent
    cases sent <;> exact allowed.elim
  gives sent hsent tx htx := by
    have allowed := sends _ hsent
    cases sent <;> first | exact allowed.elim | cases htx

variable [Serialize BlockData] [Serialize ConfirmationData] [Merkle] [Pcg32] [Wm W]

/-- What enters the node was brought by the input. -/
theorem entry_offers (hstep : n.handle input = .ok (n', out)) (entry : isEntry input = true)
    {dest : Service} {msg : NodeMsg} (sent : .msg dest msg ∈ out) :
    msg.given = [] ∧ ∀ tx ∈ msg.offered, Introduces input tx := by
  cases input with
  | arrive o =>
    simp only [handle] at hstep
    split at hstep
    · next arrives =>
      cases hstep
      obtain rfl := List.mem_singleton.mp sent
      cases msg with
      | addTx tx size attachments =>
        cases dest with
        | transactionService =>
          refine ⟨rfl, fun tx htx => ?_⟩
          obtain rfl := List.mem_singleton.mp htx
          exact .arrived
        | _ => cases arrives
      | addTxs txs => cases dest <;> cases arrives
      | executeBlock block round txs => cases dest <;> cases arrives
      | propagateOldTxs txs => cases dest <;> cases arrives
      | _ => exact ⟨rfl, by simp [Msg.offered]⟩
    · cases hstep
  | submit tx =>
    simp only [handle] at hstep
    split at hstep
    · cases hstep
      cases sent
    · split at hstep
      · cases hstep
        cases sent
      · cases hstep
        cases List.mem_singleton.mp sent
        refine ⟨rfl, fun tx htx => ?_⟩
        obtain rfl := List.mem_singleton.mp htx
        exact .submitted
  | oldTransactions txs =>
    cases hstep
    cases List.mem_singleton.mp sent
    refine ⟨rfl, fun tx htx => .repropagated ?_⟩
    simp only [Msg.offered, List.map_map] at htx
    obtain ⟨old, hold, rfl⟩ := List.mem_map.mp htx
    exact (List.mem_filter.mp hold).1
  | _ => cases entry

omit [Serialize BlockData] [Serialize ConfirmationData] [Merkle] [Pcg32] [Wm W] in
theorem verify_eq_ok {tx : Transaction} (h : Transactable.verify tx = some true) :
    tx.verify = .ok true := by
  change tx.verify.toOption = some true at h
  cases hv : tx.verify with
  | error p =>
    rw [hv] at h
    cases h
  | ok passes =>
    rw [hv] at h
    exact congrArg Except.ok (Option.some.inj h)

/-- A step holds on to what it was brought, and sends nothing else. -/
theorem Sourced.step (h : Sourced Initial P n) (hstep : n.handle input = .ok (n', out))
    (brought : ∀ tx, Introduces input tx → P tx) : Sourced Initial P n' ∧ Conveys P out := by
  obtain ⟨queued, pooled, passing, taken, stored⟩ := h
  have left (index : Nat) : ∀ msg, .msg .nodeInterface msg ∈ n.threads.eraseIdx index →
      ∀ tx ∈ msg.given, Passed P tx := fun msg left => passing msg (List.eraseIdx_subset left)
  have step := handle_step hstep
  cases step with
  | consensus _ hcore =>
    have conveys : Conveys P out :=
      conveys_of_maySend (ConsensusService.handleMessages_sends (Drawing.handleMessages_ok hcore).1)
    exact ⟨Sourced.post ⟨queued, pooled, passing, taken, ⟨stored.db, stored.forks⟩⟩ conveys,
      conveys⟩
  | leader _ =>
    refine ⟨⟨queued, pooled, passing, fun answered hanswered => ?_, stored⟩, by simp, by simp⟩
    obtain ⟨before, hbefore, rfl⟩ := Option.map_eq_some_iff.mp hanswered
    exact taken before hbefore
  | block heq hblock _ =>
    have conveys : Conveys P out :=
      { offers := fun msg sent tx htx =>
          brought tx (.supplied ((BlockService.handleMessages_offers hblock sent).2 tx htx))
        gives := fun msg sent tx htx => by
          rw [(BlockService.handleMessages_offers hblock sent).1] at htx
          cases htx }
    exact ⟨Sourced.post ⟨queued, pooled, passing, taken, stored⟩ conveys, conveys⟩
  | @transactions now msg rest transactionService _ heq hpool =>
    rw [heq, List.forall_mem_cons] at queued
    have conveys : Conveys P out :=
      { offers := fun sent hsent tx htx => by
          rw [(TransactionService.handleMessages_gives hpool hsent).1] at htx
          cases htx
        gives := fun sent hsent tx htx => by
          obtain ⟨hash, entry, held, rfl⟩ :=
            (TransactionService.handleMessages_gives hpool hsent).2 tx htx
          exact pooled hash entry held }
    refine ⟨Sourced.post ⟨queued.2, fun hash entry held => ?_, passing, taken, stored⟩ conveys,
      conveys⟩
    obtain kept | ⟨offered, passes⟩ := TransactionService.handleMessages_admits hpool held
    · exact pooled hash entry kept
    · exact ⟨queued.1 _ offered, verify_eq_ok passes⟩
  | begins hthread _ _ =>
    refine ⟨⟨queued, pooled, left _, fun begun hbegun => ?_, stored⟩, by simp, by simp⟩
    cases hbegun
    exact passing _ hthread
  | consolidates _ _ hwasm =>
    refine Sourced.post_quiet ⟨queued, pooled, left _, taken, stored.consolidate hwasm⟩
      fun dest msg sent => ?_
    obtain ⟨forked, players, -, rfl, -⟩ := WasmService.consolidateBlock_ok hwasm
    cases List.mem_singleton.mp sent
    exact ⟨rfl, rfl⟩
  | verifies _ _ =>
    refine Sourced.post_quiet ⟨queued, pooled, left _, taken, stored⟩ fun dest msg sent => ?_
    cases List.mem_singleton.mp sent
    exact ⟨rfl, rfl⟩
  | elects _ =>
    refine Sourced.post_quiet ⟨queued, pooled, left _, taken, stored⟩ fun dest msg sent => ?_
    rw [List.mem_cons, List.mem_singleton] at sent
    rcases sent with same | same <;> cases same <;> exact ⟨rfl, rfl⟩
  | waits _ =>
    refine Sourced.post_quiet ⟨queued, pooled, left _, taken, stored⟩ fun dest msg sent => ?_
    cases List.mem_singleton.mp sent
    exact ⟨rfl, rfl⟩
  | times _ =>
    refine Sourced.post_quiet ⟨queued, pooled, left _, taken, stored⟩ fun dest msg sent => ?_
    cases List.mem_singleton.mp sent
    exact ⟨rfl, rfl⟩
  | passes => exact ⟨⟨queued, pooled, left _, taken, stored⟩, by simp, by simp⟩
  | finishes htaken hwasm =>
    obtain ⟨⟨ok, wasm, sent⟩, hexecute, same⟩ := bind_eq_ok.mp hwasm
    cases same
    have stored := stored.execute (fun tx htx => .inr (taken _ htaken tx htx)) hexecute
    refine Sourced.post_quiet ⟨queued, pooled, passing, by simp, stored⟩ fun dest msg sent => ?_
    rcases executeBlock_sends hwasm _ sent with ⟨_, _, same⟩ | ⟨_, _, same⟩ | ⟨_, _, _, same⟩ <;>
      cases same <;> exact ⟨rfl, rfl⟩
  | enters entry _ =>
    have conveys : Conveys P out :=
      { offers := fun msg sent tx htx => brought tx ((entry_offers hstep entry sent).2 tx htx)
        gives := fun msg sent tx htx => by
          rw [(entry_offers hstep entry sent).1] at htx
          cases htx }
    exact ⟨Sourced.post ⟨queued, pooled, passing, taken, stored⟩ conveys, conveys⟩
  | restarts hrestart =>
    obtain ⟨block, core, config, -, -, rfl⟩ := restart_ok hrestart
    refine ⟨⟨by simp, fun hash entry held => ?_, by simp, by simp, stored.db, ?_⟩, by simp, by simp⟩
    · cases held
    · intro key forked hforked
      cases hforked

/-! ## Every run -/

variable {env : Env} {keypair : TrinciKeyPair} {nodeId : String} {wm : W} {accounts : Accounts}
  {bootstrapTxs : List Transaction} {networkName : String} {start : LiveNode W}
  {trace : List (LiveEvent W)}

omit [Serialize ConfirmationData] in
/-- The first start stores the transactions of the bootstrap file. -/
theorem sourced_of_bootstrap
    (h : bootstrap env keypair nodeId wm accounts bootstrapTxs networkName = .ok n) :
    Sourced (· ∈ bootstrapTxs) P n := by
  obtain ⟨core, wasm, out, named, -, -, hwasm, sent, rfl⟩ := bootstrap_ok h
  obtain ⟨players, roots, settings, hroots, db, forks, -, rfl⟩ :=
    executeGenesisBlock_settles rfl (UInt64.lt_irrefl 0) named hwasm sent
  have transactions : wasm.db.transactions =
      storeAll (fun tx => Hash.primary (rmpSerialize tx)) bootstrapTxs
        (storeAll Transaction.getHash bootstrapTxs ∅) :=
    (congrArg Db.transactions db).trans ((settledGenesis_transactions _ settings bootstrapTxs).trans
      (congrArg (storeAll _ bootstrapTxs) (forkAfter_writes hroots).1))
  have stored : wasm.StoresOnly fun tx => tx ∈ bootstrapTxs ∨ Passed P tx := by
    refine ⟨fun hash tx held => .inl ?_, fun key forked hforked => ?_⟩
    · rw [transactions] at held
      refine forall_storeAll (forall_storeAll ?_ fun _ h => h) (fun _ h => h) hash tx held
      intro _ _ none
      cases none
    · rw [forks] at hforked
      cases hforked
  refine (Sourced.post_quiet ⟨by simp, fun hash entry held => ?_, by simp, by simp, stored⟩
    fun dest msg sent => ?_).1
  · cases held
  · cases List.mem_singleton.mp sent
    exact ⟨rfl, rfl⟩

/-- A transaction that some event brought and that passed its check. -/
def Admitted (trace : List (LiveEvent W)) : Transaction → Prop :=
  Passed fun tx => ∃ e ∈ trace, Introduces e.input tx

/-- Everything that a node holds was brought by the events before. -/
theorem run_sourced
    (hstart : bootstrap env keypair nodeId wm accounts bootstrapTxs networkName = .ok start)
    (run : Run (Computes handle) start trace n) :
    Sourced (· ∈ bootstrapTxs) (fun tx => ∃ e ∈ trace, Introduces e.input tx) n := by
  induction run with
  | nil => exact sourced_of_bootstrap hstart
  | snoc run hstep ih =>
    refine (Sourced.step (ih.imp ?_) hstep fun tx brought =>
      ⟨_, List.mem_append_right _ (List.mem_singleton_self _), brought⟩).1
    rintro tx ⟨e, he, brought⟩
    exact ⟨e, List.mem_append_left _ he, brought⟩

/-- Over every run, whatever peers send: a transaction that is stored is one of the bootstrap
file, or was brought to the node and passed its check, and only such transactions are
executed in a block. -/
theorem run_admitted
    (hstart : bootstrap env keypair nodeId wm accounts bootstrapTxs networkName = .ok start)
    (run : Run (Computes handle) start trace n) :
    (∀ hash tx, n.wasm.db.transactions.lookup hash = some tx →
      tx ∈ bootstrapTxs ∨ Admitted trace tx) ∧
    Along (fun earlier e => ∀ block txs, execution e = some (block, txs) →
      ∀ tx ∈ txs, Admitted earlier tx) trace := by
  refine ⟨(run_sourced hstart run).stored.db, fun earlier e later split block txs executed => ?_⟩
  have sourced := run_sourced hstart (run.split split).1
  unfold execution at executed
  split at executed
  · next taken _ htaken =>
    obtain ⟨_, -, same⟩ := Option.map_eq_some_iff.mp executed
    cases same
    exact sourced.taken taken htaken
  · cases executed

end Sources

end LiveNode

namespace Sample.Duo

open LiveNode

/-- The transaction of bob's block was submitted to him. -/
theorem small_block_admitted : ∃ node trace n, start 2 = .ok node ∧
    Run (Computes handle) node trace n ∧ n.wasm.db.blocks.length = 2 ∧
    (∀ hash tx, n.wasm.db.transactions.lookup hash = some tx →
      tx ∈ [unitOf 1 (keypair 1)] ∨ Admitted trace tx) ∧
    Along (fun earlier e => ∀ block txs, execution e = some (block, txs) →
      ∀ tx ∈ txs, Admitted earlier tx) trace := by
  obtain ⟨node, trace, n, hstart, run, check, -⟩ := exists_run_from 2 consolidatesSmall
    (fun _ n => decide (n.wasm.db.blocks.length = 2)) (by decide +kernel)
  exact ⟨node, trace, n, hstart, run, of_decide_eq_true check, run_admitted hstart run⟩

end Sample.Duo

end Trinci
