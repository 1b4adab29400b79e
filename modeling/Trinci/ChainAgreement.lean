import Trinci.LiveVotes

/-!
# Agreement on the chain

Any number of nodes with the same genesis block, each with a key pair of its own, while
whatever reaches a node was signed or is kept by another. A player of one height and round
confirms one block, so two databases first differ at a height where their blocks were
confirmed in different rounds.
-/

namespace Trinci

open StepMachines
open ConsensusService (Fair SignedBy voteKey)

variable {I W : Type}

namespace LiveNode

abbrev NetEvent (I W : Type) := Event (I → LiveNode W) (I × LiveInput W) (I × NodeOutput)

/-- The database of a node at some moment of the run. -/
def Stood (trace : List (NetEvent I W)) (db : Db) : Prop :=
  ∃ e ∈ trace, ∃ j, (e.before j).wasm.db = db

/-- A database that has grown since. -/
structure Grew (db db' : Db) : Prop where
  paired : db.confirmations.length = db.blocks.length
  blocks : ∃ new, db'.blocks = db.blocks ++ new
  confirmations : ∃ new, db'.confirmations = db.confirmations ++ new

section Grows

variable {n n' : LiveNode W} {input : LiveInput W} {out : List NodeOutput} {db db' db'' : Db}
  {c : Chronicle}

theorem paired_of_recorded [Primitives] [NodeCodec] (h : Recorded c n) :
    n.wasm.db.confirmations.length = n.wasm.db.blocks.length := by
  rw [h.blocks, h.confirmations, List.length_map, List.length_map]

theorem Grew.refl (paired : db.confirmations.length = db.blocks.length) : Grew db db :=
  ⟨paired, ⟨[], (List.append_nil _).symm⟩, ⟨[], (List.append_nil _).symm⟩⟩

theorem Grew.trans (h : Grew db db') (h' : Grew db' db'') : Grew db db'' := by
  obtain ⟨blocks, hblocks⟩ := h.blocks
  obtain ⟨blocks', hblocks'⟩ := h'.blocks
  obtain ⟨confirmations, hconfirmations⟩ := h.confirmations
  obtain ⟨confirmations', hconfirmations'⟩ := h'.confirmations
  refine ⟨h.paired, ⟨blocks ++ blocks', ?_⟩, ⟨confirmations ++ confirmations', ?_⟩⟩
  · rw [hblocks', hblocks, List.append_assoc]
  · rw [hconfirmations', hconfirmations, List.append_assoc]

theorem Grew.keeps (h : Grew db db') {block : Block} {confirmations : List Confirmation}
    (keeps : Keeps db block confirmations) : Keeps db' block confirmations := by
  obtain ⟨k, hblock, hconfirmations⟩ := keeps
  obtain ⟨blocks, hblocks⟩ := h.blocks
  obtain ⟨more, hmore⟩ := h.confirmations
  refine ⟨k, ?_, ?_⟩
  · rw [hblocks, List.getElem?_append_left (List.getElem?_eq_some_iff.mp hblock).1]
    exact hblock
  · rw [hmore, List.getElem?_append_left (List.getElem?_eq_some_iff.mp hconfirmations).1]
    exact hconfirmations

theorem Stores.grew [Primitives] [NodeCodec] (h : Stores n out n') (recorded : Recorded c n) :
    Grew n.wasm.db n'.wasm.db := by
  refine ⟨paired_of_recorded recorded, h.grows, ?_⟩
  cases h with
  | keeps _ same _ => exact ⟨[], same.trans (List.append_nil _).symm⟩
  | adds _ _ confirmations _ _ => exact ⟨_, confirmations⟩

end Grows

/-- The account that a key pair votes as. -/
def accountOf [Primitives] [Serialize ConfirmationData] (keypair : TrinciKeyPair) : String :=
  Confirmation.getPlayerId (Confirmation.new Hash.default 0 0 keypair.publicKey)

/-- What was signed along the run. -/
def Signed (trace : List (NetEvent I W)) (c : Confirmation) : Prop := c ∈ signedIn (sent trace)

theorem signed_located [DecidableEq I] {trace : List (NetEvent I W)} {c : Confirmation}
    (hc : Signed trace c) : ∃ i, c ∈ signedIn (outputs (component i trace)) := by
  obtain ⟨o, ho, signed⟩ := List.mem_filterMap.mp hc
  obtain ⟨i, hi⟩ := mem_sent.mp ho
  exact ⟨i, List.mem_filterMap.mpr ⟨o, hi, signed⟩⟩

section Network

variable [Primitives] [Serialize BlockData] [Serialize ConfirmationData] [NodeCodec]

/-- A confirmation that reaches a node was signed. Other confirmations, and the blocks that
it aligns with, are answers of a database service. -/
structure Honest (signed : List Confirmation) (Held : Db → Prop) (input : LiveInput W) :
    Prop where
  confirmation : ∀ c, input = .arrive (.msg .consensusService (.blockConfirmationFromPeer c)) →
    c ∈ signed
  block : ∀ b c txsHashes,
    input = .arrive (.msg .consensusService (.blockFromPeer b c txsHashes)) → c ∈ signed
  confirmations : ∀ answer confirmations,
    input = .arrive (.msg .consensusService (.verifyConfirmations answer confirmations)) →
      ∃ db height hash ask, Held db ∧
        DbService.getConfirmations db height hash ask = .ok (some confirmations, answer)
  fullBlock : ∀ env attempt fullBlock, input = .block env →
    env.getFullBlock attempt = .answer (some fullBlock) →
      ∃ db height, Held db ∧ db.loadFullBlock height = some fullBlock

/-- The players that were announced with the block of a hash. -/
def Told (start : I → LiveNode W) (trace : List (NetEvent I W)) (hash : Hash)
    (players : Players) : Prop :=
  ∃ (block : Block) (txsHashes : List Hash), block.getHash = hash ∧
    ((∃ i, .blockConsolidated block txsHashes players ∈ (start i).toBlock) ∨
      .msg .blockService (.blockConsolidated block txsHashes players) ∈ sent trace)

/-- The confirmations of a height are all of this round, and there is one. -/
def ConfirmedIn (db : Db) (k : Nat) (round : UInt8) : Prop :=
  ∃ confirmations, db.confirmations[k]? = some confirmations ∧ confirmations ≠ [] ∧
    ∀ c ∈ confirmations, c.data.blockRound = round

/-- The chains of two databases have the same blocks up to where one ends, or up to a height
that was confirmed in different rounds. -/
def AgreeInRounds (db db' : Db) : Prop :=
  ∀ k b b', db.blocks[k]? = some b → db'.blocks[k]? = some b' →
    (∀ m < k, db.blocks[m]?.map Block.getHash = db'.blocks[m]?.map Block.getHash) →
    b.getHash = b'.getHash ∨
      ∃ round round', round ≠ round' ∧ ConfirmedIn db k round ∧ ConfirmedIn db' k round'

/-! ## What is known of each node -/

variable [DecidableEq I] {keypair : I → TrinciKeyPair} {genesis : Hash} {start : I → LiveNode W}
  {trace : List (NetEvent I W)} {net net' : I → LiveNode W}

/-- What is known of a node of the network, which sent `done`. -/
structure Member (keypair : TrinciKeyPair) (genesis : Hash) (Entered : Confirmation → Prop)
    (Told : Hash → Players → Prop) (done : List NodeOutput) (n : LiveNode W) : Prop where
  phase : ∃ tip, Ordered n tip ∧ Phase Told n tip
  recorded : ∃ c, Recorded c n
  collected : Collected n
  standing : Standing Entered Told n
  votes : Ballots keypair (accountOf keypair) done n.consensus
  genesis : n.wasm.db.blocks[0]?.map Block.getHash = some genesis

/-- What is known of all nodes, and of the databases that they had. -/
structure Network (keypair : I → TrinciKeyPair) (genesis : Hash) (start : I → LiveNode W)
    (trace : List (NetEvent I W)) (net : I → LiveNode W) : Prop where
  member : ∀ i, Member (keypair i) genesis (Signed trace) (Told start trace)
    (outputs (component i trace)) (net i)
  grew : ∀ db, Stood trace db → ∃ j, Grew db (net j).wasm.db

omit [DecidableEq I] in
theorem Member.signer {done : List NodeOutput} {keypair : TrinciKeyPair}
    {Entered : Confirmation → Prop} {Told : Hash → Players → Prop} {n : LiveNode W}
    (h : Member keypair genesis Entered Told done n) {c : Confirmation}
    (hc : c ∈ signedIn done) : Confirmable.getPlayerId c = accountOf keypair := by
  have signed := h.votes.signed c hc
  rw [← h.votes.key] at signed ⊢
  exact signed.getPlayerId

section Members

variable {Entered : Confirmation → Prop} {Told : Hash → Players → Prop} {done : List NodeOutput}
  {keypair : TrinciKeyPair} {n : LiveNode W} {k : Nat} {b : Block}

theorem Member.confirmed (h : Member keypair genesis Entered Told done n)
    (hb : n.wasm.db.blocks[k]? = some b) :
    ∃ confirmations, n.wasm.db.confirmations[k]? = some confirmations := by
  obtain ⟨c, recorded⟩ := h.recorded
  have inside := (List.getElem?_eq_some_iff.mp hb).1
  rw [← paired_of_recorded recorded] at inside
  exact ⟨_, List.getElem?_eq_getElem inside⟩

theorem Member.height (h : Member keypair genesis Entered Told done n)
    (hb : n.wasm.db.blocks[k]? = some b) : b.data.height.toNat = k := by
  obtain ⟨tip, ordered, -⟩ := h.phase
  exact ordered.heights k b hb

/-- What stands behind a block, by the block below. -/
theorem Member.founded (h : Member keypair genesis Entered Told done n)
    {confirmations : List Confirmation} (hb : n.wasm.db.blocks[k + 1]? = some b)
    (hconfirmations : n.wasm.db.confirmations[k + 1]? = some confirmations) :
    ∃ last players txsHashes, n.wasm.db.blocks[k]? = some last ∧ Told last.getHash players ∧
      ConsensusService.Backed Entered players (b, confirmations, txsHashes) := by
  obtain ⟨height, hlast, announced, backed⟩ := h.standing.stored k b confirmations hb hconfirmations
  obtain rfl := Nat.succ.inj ((h.height hb).symm.trans height)
  exact ⟨_, _, _, hlast, announced, backed⟩

end Members

/-- Nobody signs in the name of a node that has not voted. -/
theorem Network.alone (h : Network keypair genesis start trace net)
    (identities : Function.Injective fun i => accountOf (keypair i)) (i : I)
    (empty : (net i).consensus.proposalExitPoll = []) (c : Confirmation) (hc : Signed trace c) :
    Confirmable.getPlayerId c ≠ (net i).consensus.nodeId := by
  intro named
  obtain ⟨j, hj⟩ := signed_located hc
  rw [(h.member j).signer hj, (h.member i).votes.nodeId] at named
  obtain rfl : j = i := identities named
  have polled := (h.member j).votes.recorded.polled _ (List.mem_map_of_mem hj)
  rw [empty] at polled
  cases polled

/-- A player signs once for a height and a round. -/
theorem Network.once (h : Network keypair genesis start trace net)
    (identities : Function.Injective fun i => accountOf (keypair i)) {c c' : Confirmation}
    (hc : Signed trace c) (hc' : Signed trace c')
    (player : Confirmable.getPlayerId c = Confirmable.getPlayerId c')
    (key : voteKey c = voteKey c') : c = c' := by
  obtain ⟨i, hi⟩ := signed_located hc
  obtain ⟨j, hj⟩ := signed_located hc'
  rw [(h.member i).signer hi, (h.member j).signer hj] at player
  obtain rfl : i = j := identities player
  exact List.inj_on_of_nodup_map (h.member i).votes.recorded.distinct hi hj key

/-- What a database answers is fair. -/
theorem Network.fair (h : Network keypair genesis start trace net) {db : Db}
    {e : NetEvent I W} (before : e.before = net) (stood : Stood (trace ++ [e]) db) :
    db.confirmations.length = db.blocks.length ∧
      ∀ block confirmations, Keeps db block confirmations →
        Fair (Signed trace) (.proposalFromAlignmentBlock confirmations : NodeMsg) ∧
          ∀ answer : Option (Block × List Hash), (∀ entry ∈ answer, entry.1 = block) →
            Fair (Signed trace) (.verifyConfirmations answer confirmations : NodeMsg) := by
  subst before
  have grew : ∃ j, Grew db (e.before j).wasm.db := by
    obtain ⟨x, hx, j, rfl⟩ := stood
    rw [List.mem_append, List.mem_singleton] at hx
    obtain hx | rfl := hx
    · exact h.grew _ ⟨x, hx, j, rfl⟩
    · obtain ⟨c, recorded⟩ := (h.member j).recorded
      exact ⟨j, Grew.refl (paired_of_recorded recorded)⟩
  obtain ⟨j, grew⟩ := grew
  exact ⟨grew.paired, fun block confirmations keeps =>
    (h.member j).standing.fair (grew.keeps keeps)⟩

/-! ## Two databases -/

/-- Two nodes whose chains have parted only between rounds. -/
theorem Network.agree (h : Network keypair genesis start trace net)
    (identities : Function.Injective fun i => accountOf (keypair i))
    (told : ∀ hash players players', Told start trace hash players →
      Told start trace hash players' → players = players') (i j : I) :
    AgreeInRounds (net i).wasm.db (net j).wasm.db := by
  intro k b b' hb hb' below
  cases k with
  | zero =>
    have first := (h.member i).genesis
    have first' := (h.member j).genesis
    rw [hb] at first
    rw [hb'] at first'
    exact .inl (Option.some.inj (first.trans first'.symm))
  | succ k =>
    obtain ⟨confirmations, hconfirmations⟩ := (h.member i).confirmed hb
    obtain ⟨confirmations', hconfirmations'⟩ := (h.member j).confirmed hb'
    obtain ⟨last, players, txsHashes, hlast, announced, backed⟩ :=
      (h.member i).founded hb hconfirmations
    obtain ⟨last', players', txsHashes', hlast', announced', backed'⟩ :=
      (h.member j).founded hb' hconfirmations'
    -- the block below is the same, so its players are, too
    have parent := below k (Nat.lt_succ_self k)
    rw [hlast, hlast'] at parent
    have parent : last.getHash = last'.getHash := Option.some.inj parent
    rw [parent] at announced
    obtain rfl := told _ _ _ announced announced'
    obtain ⟨round, inRound⟩ := backed.inRound
    obtain ⟨round', inRound'⟩ := backed'.inRound
    by_cases same : round = round'
    · subst same
      have height : b.data.height = b'.data.height := by
        rw [← UInt64.toNat_inj, (h.member i).height hb, (h.member j).height hb']
      exact .inl (backed.agree backed' (fun c c' hc hc' => h.once identities hc hc') inRound
        inRound' height)
    · exact .inr ⟨round, round', same, ⟨_, hconfirmations, inRound⟩, ⟨_, hconfirmations', inRound'⟩⟩

/-! ## The steps of the network -/

variable [Merkle] [Pcg32] [Wm W]

/-- What reaches a node from honest peers is fair. -/
theorem Network.fairInput (h : Network keypair genesis start trace net) {e : NetEvent I W}
    (before : e.before = net) {n n' : LiveNode W} {input : LiveInput W} {out : List NodeOutput}
    (hstep : n.handle input = .ok (n', out))
    (honest : Honest (signedIn (sent trace)) (Stood (trace ++ [e])) input) :
    FairInput (Signed trace) input := by
  constructor
  · rintro msg rfl
    cases msg with
    | blockConfirmationFromPeer c =>
      exact ConsensusService.fair_confirmation (honest.confirmation c rfl)
    | blockFromPeer b c txsHashes =>
      exact ConsensusService.fair_block (honest.block b c txsHashes rfl)
    | verifyConfirmations answer confirmations =>
      obtain ⟨db, height, hash, ask, held, answered⟩ := honest.confirmations answer _ rfl
      obtain ⟨paired, fair⟩ := h.fair before held
      obtain ⟨block, keeps, same⟩ := keeps_of_getConfirmations paired answered
      exact (fair block _ keeps).2 answer same
    | checkOldBlockProposals => exact .inl fun _ => rfl
    | _ => cases hstep
  · rintro env attempt fullBlock rfl answered
    obtain ⟨db, height, held, loaded⟩ := honest.fullBlock env attempt fullBlock rfl answered
    obtain ⟨paired, fair⟩ := h.fair before held
    exact (fair _ _ (keeps_of_loadFullBlock paired loaded)).1

/-- A fair step keeps what is known of the node that takes it, and its database grows. -/
theorem Member.step {keypair : TrinciKeyPair} {Entered Entered' : Confirmation → Prop}
    {Told Told' : Hash → Players → Prop} {done : List NodeOutput} {n n' : LiveNode W}
    {input : LiveInput W} {out : List NodeOutput}
    (h : Member keypair genesis Entered Told done n) (hashed : HeightsHashed)
    (hstep : n.handle input = .ok (n', out)) (lasting : isRestart input = false)
    (fair : FairInput Entered' input) (later : ∀ c, Entered c → Entered' c)
    (told : ∀ hash players, Told hash players → Told' hash players)
    (signs : ∀ c ∈ signedIn out, Entered' c)
    (tells : ∀ block txsHashes players,
      .msg .blockService (.blockConsolidated block txsHashes players) ∈ out →
        Told' block.getHash players)
    (alone : n.consensus.proposalExitPoll = [] →
      ∀ c, Entered c → Confirmable.getPlayerId c ≠ n.consensus.nodeId) :
    Member keypair genesis Entered' Told' (done ++ out) n' ∧ Grew n.wasm.db n'.wasm.db := by
  obtain ⟨tip, ordered, phase⟩ := h.phase
  obtain ⟨c, recorded⟩ := h.recorded
  have step := handle_step hstep
  have grew := (step.stores hashed ordered recorded).grew recorded
  refine ⟨⟨⟨_, ordered.step hashed step, ?_⟩, ⟨_, recorded.step ordered h.collected hstep⟩,
    h.collected.step step, ?_, ?_, ?_⟩, grew⟩
  · exact phase.step hashed h.standing ordered recorded step lasting told alone
  · exact h.standing.step phase hashed ordered recorded hstep lasting fair later told signs tells
      alone
  · exact h.votes.step h.standing phase hstep lasting alone
  · obtain ⟨new, blocks⟩ := grew.blocks
    obtain ⟨first, hfirst, _⟩ := Option.map_eq_some_iff.mp h.genesis
    rw [blocks, List.getElem?_append_left (List.getElem?_eq_some_iff.mp hfirst).1]
    exact h.genesis

omit [Merkle] [Pcg32] [Wm W] [DecidableEq I] in
/-- What is known of a node while another one takes a step. -/
theorem Member.mono {keypair : TrinciKeyPair} {Entered Entered' : Confirmation → Prop}
    {Told Told' : Hash → Players → Prop} {done : List NodeOutput} {n : LiveNode W}
    (h : Member keypair genesis Entered Told done n) (later : ∀ c, Entered c → Entered' c)
    (told : ∀ hash players, Told hash players → Told' hash players) :
    Member keypair genesis Entered' Told' done n := by
  obtain ⟨tip, ordered, phase⟩ := h.phase
  exact ⟨⟨tip, ordered, phase.mono told⟩, h.recorded, h.collected, h.standing.mono later told,
    h.votes, h.genesis⟩

/-- A step of an honest network keeps what is known of its nodes. -/
theorem Network.step (h : Network keypair genesis start trace net) (hashed : HeightsHashed)
    (identities : Function.Injective fun i => accountOf (keypair i)) {m : I × LiveInput W}
    {out : List (I × NodeOutput)} (hstep : Interleaved handle net m = .ok (net', out))
    (lasting : isRestart m.2 = false)
    (honest : Honest (signedIn (sent trace)) (Stood (trace ++ [⟨net, m, out, net'⟩])) m.2) :
    Network keypair genesis start (trace ++ [⟨net, m, out, net'⟩]) net' := by
  obtain ⟨n', own, hown, same, rfl⟩ := interleaved_ok hstep
  have fair := h.fairInput rfl hown honest
  have mine : (own.map (m.1, ·)).map Prod.snd = own := by simp [Function.comp_def]
  have moved : net' m.1 = n' := by rw [same, Function.update_self]
  have others : ∀ j, j ≠ m.1 → net' j = net j := fun j hj => by
    rw [same, Function.update_of_ne hj]
  have later : ∀ c, Signed trace c →
      Signed (trace ++ [(⟨net, m, own.map (m.1, ·), net'⟩ : NetEvent I W)]) c := by
    intro c hc
    rw [Signed, sent_snoc, signedIn_append]
    exact List.mem_append_left _ hc
  have told : ∀ hash players, Told start trace hash players →
      Told start (trace ++ [(⟨net, m, own.map (m.1, ·), net'⟩ : NetEvent I W)]) hash players := by
    rintro hash players ⟨block, txsHashes, hhash, held⟩
    refine ⟨block, txsHashes, hhash, held.imp_right fun announced => ?_⟩
    rw [sent_snoc]
    exact List.mem_append_left _ announced
  obtain ⟨member, grew⟩ := (h.member m.1).step hashed hown lasting (fair.mono later) later told
    (fun c hc => by
      rw [Signed, sent_snoc, signedIn_append, Event.own, mine]
      exact List.mem_append_right _ hc)
    (fun block txsHashes players announced => ⟨block, txsHashes, rfl, .inr (by
      rw [sent_snoc, Event.own, mine]
      exact List.mem_append_right _ announced)⟩)
    (h.alone identities m.1)
  have grows : ∀ j, Grew (net j).wasm.db (net' j).wasm.db := by
    intro j
    by_cases hj : j = m.1
    · subst hj
      rw [moved]
      exact grew
    · obtain ⟨c, recorded⟩ := (h.member j).recorded
      rw [others j hj]
      exact Grew.refl (paired_of_recorded recorded)
  refine ⟨fun i => ?_, ?_⟩
  · rw [component_snoc]
    by_cases hi : m.1 = i
    · subst hi
      rw [if_pos rfl, outputs_snoc, Event.own, mine, moved]
      exact member
    · rw [if_neg hi, others i (Ne.symm hi)]
      exact (h.member i).mono later told
  · rintro db ⟨e, he, j, rfl⟩
    rw [List.mem_append, List.mem_singleton] at he
    obtain he | rfl := he
    · obtain ⟨k, earlier⟩ := h.grew _ ⟨e, he, j, rfl⟩
      exact ⟨k, earlier.trans (grows k)⟩
    · exact ⟨j, grows j⟩

/-! ## The runs of the network -/

section Runs

variable {env : I → Env} {wm : I → W} {accounts : I → Accounts}
  {bootstrapTxs : I → List Transaction} {networkName : I → String}

theorem network_of_bootstrap
    (hstart : ∀ i, bootstrap (env i) (keypair i) (accountOf (keypair i)) (wm i) (accounts i)
      (bootstrapTxs i) (networkName i) = .ok (start i))
    (shared : ∀ i, (start i).wasm.db.blocks[0]?.map Block.getHash = some genesis) :
    Network keypair genesis start [] start := by
  refine ⟨fun i => ?_, ?_⟩
  · have tells : ∀ block txsHashes players,
        .blockConsolidated block txsHashes players ∈ (start i).toBlock →
          Told start ([] : List (NetEvent I W)) block.getHash players :=
      fun block txsHashes players queued => ⟨block, txsHashes, rfl, .inl ⟨i, queued⟩⟩
    exact ⟨⟨none, ordered_of_started ⟨hstart i⟩, phase_of_bootstrap (hstart i)⟩,
      ⟨_, (recorded_of_bootstrap (hstart i)).1⟩, collected_of_started ⟨hstart i⟩,
      standing_of_bootstrap (hstart i) tells, ballots_of_bootstrap (hstart i), shared i⟩
  · rintro db ⟨e, he, -⟩
    cases he

/-- Over every interleaved run of an honest network from its first start on, while no node
starts again: two databases have the same blocks, up to where one ends or to a height that was
confirmed in different rounds. -/
theorem chains_part_between_rounds (hashed : HeightsHashed)
    (hstart : ∀ i, bootstrap (env i) (keypair i) (accountOf (keypair i)) (wm i) (accounts i)
      (bootstrapTxs i) (networkName i) = .ok (start i))
    (shared : ∀ i, (start i).wasm.db.blocks[0]?.map Block.getHash = some genesis)
    (identities : Function.Injective fun i => accountOf (keypair i))
    (run : Run (Computes (Interleaved handle)) start trace net)
    (lasting : Along (fun _ e => isRestart e.own.input = false) trace)
    (honest : Along (fun earlier e =>
      Honest (signedIn (sent earlier)) (Stood (earlier ++ [e])) e.own.input) trace)
    (told : ∀ hash players players', Told start trace hash players →
      Told start trace hash players' → players = players') (i j : I) :
    AgreeInRounds (net i).wasm.db (net j).wasm.db := by
  have network : Network keypair genesis start trace net := by
    refine run.invariant (fun trace net => Network keypair genesis start trace net)
      (network_of_bootstrap hstart shared) ?_ (lasting.and honest)
    rintro trace net m out net' kept hstep ⟨lasts, fair⟩
    exact kept.step hashed identities hstep lasts fair
  exact network.agree identities told i j

end Runs

end Network

end LiveNode

namespace Sample.Duo

open LiveNode

/-- The keys of alice and of bob. -/
def keyOf (bob : Bool) : TrinciKeyPair := keypair (bif bob then 2 else 1)

/-- Whether the network of both takes the inputs from its first start on, to a run with the
property. -/
def networkRuns (inputs : List (Bool × LiveInput Willing))
    (property : (Bool → LiveNode Willing) → List (NetEvent Bool Willing) →
      (Bool → LiveNode Willing) → Bool) : Bool :=
  match start 1, start 2 with
  | .ok alice, .ok bob =>
    match exec (Interleaved handle) (fun i => bif i then bob else alice) inputs with
    | .ok (trace, net) => property (fun i => bif i then bob else alice) trace net
    | .error _ => false
  | _, _ => false

/-- Bob builds and executes a block, alice follows, and bob gets her confirmation. -/
def bothConsolidate : List (Bool × LiveInput Willing) :=
  (buildsSmall ++ executes).map (true, ·) ++
    followsBob.map (false, ·) ++
    [(true, .arrive (.msg .consensusService (.blockConfirmationFromPeer (Confirmation.sign
        (keypair 1) 0 (Confirmation.new (executedHash (buildsSmall ++ executes)) 1 0
          (keypair 1).publicKey))))),
      (true, .consensus env), (true, .pass 1)]

/-- The confirmations that arrive were signed before. -/
def arrivesSigned (signed : List Confirmation) : LiveInput Willing → Bool
  | .arrive (.msg .consensusService (.blockConfirmationFromPeer c)) => decide (c ∈ signed)
  | .arrive (.msg .consensusService (.blockFromPeer _ c _)) => decide (c ∈ signed)
  | .arrive (.msg .consensusService (.verifyConfirmations _ _)) => false
  | _ => true

theorem honest_of_arrivesSigned {signed : List Confirmation} {Held : Db → Prop}
    {input : LiveInput Willing} (h : arrivesSigned signed input = true)
    (alone : ∀ blockEnv, input = .block blockEnv → ∀ k, blockEnv.getFullBlock k = .failed) :
    Honest signed Held input where
  confirmation c same := by
    rw [same] at h
    exact of_decide_eq_true h
  block b c txsHashes same := by
    rw [same] at h
    exact of_decide_eq_true h
  confirmations answer confirmations same := by
    rw [same] at h
    cases h
  fullBlock blockEnv attempt fullBlock same answered := by
    rw [alone blockEnv same attempt] at answered
    cases answered

theorem bothConsolidate_alone {m : Bool × LiveInput Willing} (hm : m ∈ bothConsolidate)
    (answers : BlockEnv Hash Block Confirmation Transaction) (same : m.2 = .block answers)
    (k : Nat) : answers.getFullBlock k = .failed := by
  obtain ⟨i, input⟩ := m
  obtain rfl : input = .block answers := same
  have known : answers = blockEnv ∨ answers = leaderEnv [2] := by
    rw [bothConsolidate, List.mem_append, List.mem_append] at hm
    obtain (hm | hm) | hm := hm
    · obtain ⟨built, hm, ⟨⟩⟩ := List.mem_map.mp hm
      simpa [buildsSmall, executes, takeGenesis, enterPool] using hm
    · obtain ⟨followed, hm, ⟨⟩⟩ := List.mem_map.mp hm
      obtain ⟨proposal, -, hm⟩ := List.mem_flatMap.mp hm
      simpa [aliceFollows, takeGenesis, enterPool] using hm
    · simp at hm
  obtain rfl | rfl := known
  · rfl
  · rfl

/-- The blocks that were announced, with their players. -/
def announcements (start : Bool → LiveNode Willing) (trace : List (NetEvent Bool Willing)) :
    List (Hash × Players) :=
  ((start false).toBlock ++ (start true).toBlock ++
    (sent trace).filterMap (messageTo .blockService)).filterMap fun msg =>
      match msg with
      | .blockConsolidated block _ players => some (block.getHash, players)
      | _ => none

theorem announced_of_told {start : Bool → LiveNode Willing}
    {trace : List (NetEvent Bool Willing)} {hash : Hash} {players : Players}
    (h : Told start trace hash players) : (hash, players) ∈ announcements start trace := by
  obtain ⟨block, txsHashes, rfl, queued⟩ := h
  refine List.mem_filterMap.mpr ⟨.blockConsolidated block txsHashes players, ?_, rfl⟩
  rw [List.mem_append, List.mem_append]
  obtain ⟨i, hi⟩ | announced := queued
  · cases i with
    | false => exact .inl (.inl hi)
    | true => exact .inl (.inr hi)
  · exact .inr (mem_messageTo.mpr announced)

/-- Both consolidate the block of bob, and their chains agree. -/
theorem both_chains_agree : ∃ (start net : Bool → LiveNode Willing) (trace : _),
    (∀ i, bootstrap env (keyOf i) (accountOf (keyOf i)) .mk accounts [unitOf 1 (keypair 1)] "net" =
      .ok (start i)) ∧ Run (Computes (Interleaved handle)) start trace net ∧
    (∀ i, (net i).wasm.db.blocks.length = 2) ∧
    AgreeInRounds (net false).wasm.db (net true).wasm.db := by
  have check : networkRuns bothConsolidate (fun start trace net =>
      (trace.all fun e => !isRestart e.own.input) &&
      checkAlong (fun earlier e => arrivesSigned (signedIn (sent earlier)) e.own.input) [] trace &&
      decide (∀ told ∈ announcements start trace, ∀ told' ∈ announcements start trace,
        told.1 = told'.1 → told.2 = told'.2) &&
      decide (∀ i, (start i).wasm.db.blocks[0]?.map Block.getHash = some genesisHash) &&
      decide (∀ i, (net i).wasm.db.blocks.length = 2)) = true := by
    decide +kernel
  unfold networkRuns at check
  split at check
  · next alice bob halice hbob =>
    split at check
    · next trace net hexec =>
      simp only [Bool.and_eq_true, decide_eq_true_eq] at check
      obtain ⟨⟨⟨⟨lasting, signed⟩, told⟩, shared⟩, two⟩ := check
      have hstart : ∀ i : Bool, bootstrap env (keyOf i) (accountOf (keyOf i)) .mk accounts
          [unitOf 1 (keypair 1)] "net" = .ok (bif i then bob else alice) := by
        intro i
        cases i with
        | false => exact halice
        | true => exact hbob
      have identities : Function.Injective fun i => accountOf (keyOf i) := by
        have apart : ∀ i j, accountOf (keyOf i) = accountOf (keyOf j) → i = j := by decide
        exact fun i j => apart i j
      have given : Along (fun _ (e : NetEvent Bool Willing) => e.input ∈ bothConsolidate) trace :=
        along_iff_forall.mpr fun e he => exec_inputs hexec ▸ List.mem_map_of_mem he
      have honest := ((along_of_check signed).and given).imp fun earlier e h =>
        (honest_of_arrivesSigned h.1 (bothConsolidate_alone h.2) :
          Honest (signedIn (sent earlier)) (Stood (earlier ++ [e])) e.own.input)
      refine ⟨_, net, trace, hstart, exec_run hexec, two, ?_⟩
      refine chains_part_between_rounds heightsHashed hstart shared identities (exec_run hexec)
        ?_ honest ?_ false true
      · exact (along_of_all lasting).imp fun _ e h => by simpa using h
      · intro hash players players' h h'
        exact told _ (announced_of_told h) _ (announced_of_told h') rfl
    · cases check
  · cases check

end Sample.Duo

end Trinci
