import Trinci.LiveRounds

/-!
# The context of an execution

A block is executed on the database as it is when the wasm service takes the block, and
for the leader that the consensus service answers then. The request of the leader stands
behind the announcement of the last block in the channel of the consensus service, so the
leader is drawn for that block. A restart draws again, except after the genesis block.
-/

namespace Trinci

open StepMachines

variable {W : Type}

namespace LiveNode

/-- The newest block in the channel of the consensus service. -/
def newestBlock (entries : List ConsensusEntry) : Option Block :=
  (entries.filterMap ConsensusEntry.block?).getLast?

section Newest

variable {xs ys : List ConsensusEntry} {entry : ConsensusEntry}

theorem newestBlock_cons :
    newestBlock (entry :: xs) = (newestBlock xs).or entry.block? := by
  unfold newestBlock
  cases hentry : entry.block? with
  | none => rw [List.filterMap_cons_none hentry, Option.or_none]
  | some block =>
    rw [List.filterMap_cons_some hentry, List.getLast?_cons]
    cases (xs.filterMap ConsensusEntry.block?).getLast? <;> rfl

theorem newestBlock_append (quiet : ∀ entry ∈ ys, entry.block? = none) :
    newestBlock (xs ++ ys) = newestBlock xs := by
  rw [newestBlock, List.filterMap_append, List.filterMap_eq_nil_iff.mpr quiet, List.append_nil]
  rfl

theorem newestBlock_concat {block : Block} (h : entry.block? = some block) :
    newestBlock (xs ++ [entry]) = some block := by
  rw [newestBlock, List.filterMap_append, List.filterMap_cons_some h]
  simp

end Newest

/-! ## The draws of a run -/

/-- The consensus service takes a new block, or the node starts again. -/
def Draws (e : LiveEvent W) : Prop :=
  isRestart e.input = true ∨ ∃ block, (takenMsg e).bind consolidatedBlock = some block

section Drawn

variable [Pcg32] [Primitives] [Serialize BlockData]

/-- The leader is drawn for a block when the consensus service takes it, and again when
the node starts from it. -/
inductive Drew [NodeCodec] (e : LiveEvent W) (block : Block) (leader : String) : Prop
  | consolidated {txsHashes : List Hash} {players : Players} {seed : SeedSource} :
      takenMsg e = some (.blockConsolidated block txsHashes players) →
      Drawing.drawn e.before.wasm.drand players block = some (leader, seed) → Drew e block leader
  | restarted {seed : SeedSource} :
      isRestart e.input = true → e.before.wasm.db.lastBlock? = some block →
      Drawing.drawn (SeedSource.ofBlock block) (initPlayers e.before.wasm.db.accounts) block =
        some (leader, seed) → Drew e block leader

/-- The leader of the latest draw of a run, which was for this block. -/
def DrawnLast [NodeCodec] (trace : List (LiveEvent W)) (block : Block) (leader : String) : Prop :=
  ∃ earlier e later, trace = earlier ++ e :: later ∧ Drew e block leader ∧
    ∀ x ∈ later, ¬ Draws x

/-- What the execution of a taken block starts from: the block before it is the last one
of the database, and a leader that was answered is the one drawn for it. -/
structure InContext [NodeCodec] (trace : List (LiveEvent W)) (n : LiveNode W)
    (taken : TakenBlock) (last : Block) : Prop where
  onTop : n.wasm.db.lastBlock? = some last
  height : taken.block.data.height.toNat = last.data.height.toNat + 1
  prevHash : taken.block.data.prevHash = last.getHash
  leader : ∀ leader, taken.leader = some leader → DrawnLast trace last leader

/-- A restart draws, or would draw the first player. -/
def RestartDraws [NodeCodec] (e : LiveEvent W) : Prop :=
  isRestart e.input = true → ∀ block, e.before.wasm.db.lastBlock? = some block →
    0 < block.data.height ∨
      (Drawing.drawn (SeedSource.ofBlock block) (initPlayers e.before.wasm.db.accounts)
        block).map Prod.fst = (initPlayers e.before.wasm.db.accounts).playersIds.head?

variable [NodeCodec] {trace : List (LiveEvent W)} {e : LiveEvent W} {block : Block}
  {leader : String}

theorem DrawnLast.later (h : DrawnLast trace block leader) (quiet : ¬ Draws e) :
    DrawnLast (trace ++ [e]) block leader := by
  obtain ⟨earlier, x, later, rfl, drew, none⟩ := h
  refine ⟨earlier, x, later ++ [e], by simp, drew, fun y hy => ?_⟩
  rcases List.mem_append.mp hy with hy | hy
  · exact none y hy
  · obtain rfl := List.mem_singleton.mp hy
    exact quiet

theorem Drew.last (h : Drew e block leader) : DrawnLast (trace ++ [e]) block leader :=
  ⟨trace, e, [], rfl, h, by simp⟩

end Drawn

/-! ## What a step does to the channel of the consensus service -/

section Channel

variable [Primitives] [Serialize BlockData] [Serialize ConfirmationData] [NodeCodec] [Merkle]
  [Pcg32] [Wm W] {n n' : LiveNode W} {input : LiveInput W} {out : List NodeOutput}

inductive ChannelStep (e : LiveEvent W) : Prop
  | takes {env : Env} {msg : NodeMsg} {core : Drawing Block Confirmation} :
      e.input = .consensus env → e.before.toConsensus = .msg msg :: e.after.toConsensus →
      Drawing.handleMessages env ⟨e.before.consensus, e.before.wasm.drand⟩ msg = .ok (core, e.out) →
      e.after.consensus = core.consensus → e.after.taken = e.before.taken → ChannelStep e
  | answers {env : Env} :
      e.input = .consensus env → e.before.toConsensus = .getLeader :: e.after.toConsensus →
      e.after.consensus = e.before.consensus →
      e.after.taken =
        e.before.taken.map (fun taken =>
          { taken with leader := some e.before.consensus.leader }) → ChannelStep e
  | asks {taken : TakenBlock} {index : Nat} :
      e.input = .pass index → e.before.taken = none → e.after.taken = some taken →
      taken.leader = none → e.after.toConsensus = e.before.toConsensus ++ [.getLeader] →
      e.after.consensus = e.before.consensus → ChannelStep e
  | announces {block : Block} {txsHashes : List Hash} {players : Players}
      {env : BlockEnv Hash Block Confirmation Transaction} {rest : List NodeMsg} :
      e.input = .block env → e.before.toBlock = .blockConsolidated block txsHashes players :: rest →
      e.after.toConsensus =
        e.before.toConsensus ++ [.msg (.blockConsolidated block txsHashes players)] →
      e.after.consensus = e.before.consensus → e.after.taken = e.before.taken → ChannelStep e
  | writes :
      ¬ Draws e → (∀ tip, tipAfter tip e = tip) → (∀ o ∈ e.out, NoRound o) →
      e.after.toConsensus = e.before.toConsensus ++ e.out.filterMap consensusEntry →
      e.after.consensus = e.before.consensus →
      (e.after.taken = e.before.taken ∨ e.after.taken = none ∧ ∃ taken leader,
        e.before.taken = some taken ∧ taken.leader = some leader) → ChannelStep e
  | restarts {wm : W} {env : Env} :
      e.input = .restart wm env → e.before.restart wm env = .ok e.after → ChannelStep e

omit [Primitives] [Serialize BlockData] [Serialize ConfirmationData] [NodeCodec] [Merkle] [Pcg32]
  [Wm W] in
/-- The consensus service writes to the others only. -/
theorem maySend_entries {s : ConsensusService Block Confirmation} {msg : NodeMsg}
    (sends : ∀ o ∈ out, s.MaySend msg o) : out.filterMap consensusEntry = [] := by
  rw [List.filterMap_eq_nil_iff]
  intro o ho
  have := sends o ho
  unfold ConsensusService.MaySend at this
  split at this <;> first | rfl | exact this.elim

omit [Primitives] [Serialize BlockData] [Serialize ConfirmationData] [NodeCodec] [Merkle] [Pcg32]
  [Wm W] in
theorem not_draws {e : LiveEvent W} (live : isRestart e.input = false)
    (quiet : takenMsg e = none) : ¬ Draws e := by
  rintro (restart | ⟨block, taken⟩)
  · rw [live] at restart
    cases restart
  · rw [quiet] at taken
    cases taken

/-- Every step does one of these to the channel. -/
theorem LiveStep.channel (step : LiveStep n input out n') : ChannelStep ⟨n, input, out, n'⟩ := by
  cases step with
  | consensus heq hcore =>
    have sends := ConsensusService.handleMessages_sends (Drawing.handleMessages_ok hcore).1
    refine .takes rfl ?_ hcore rfl rfl
    change n.toConsensus = _ :: (_ ++ _)
    rw [maySend_entries sends, List.append_nil]
    exact heq
  | leader heq => exact .answers rfl heq rfl rfl
  | @block env msg rest blockService out heq hblock _ =>
    have step := BlockService.handleMessages_step hblock
    cases hmsg : consolidatedBlock msg with
    | some block =>
      cases msg <;> cases hmsg
      refine .announces rfl heq ?_ rfl rfl
      obtain ⟨-, rfl⟩ := BlockService.handleMessages_announced hblock
      rw [post]
      split <;> rfl
    | none =>
      have quiet : ∀ o ∈ out, NoRound o := by
        intro o ho
        refine noRound_of_addresses (step.addresses ?_ o ho)
        rintro block txsHashes players rfl
        cases hmsg
      refine .writes (not_draws rfl rfl) (fun tip => ?_) quiet rfl rfl (.inl rfl)
      simp only [tipAfter, isRestart, takenByBlock, heq, Option.bind_some, hmsg]
      rfl
  | transactions heq hpool =>
    have sends := TransactionService.handleMessages_pool hpool
    exact .writes (not_draws rfl rfl) (fun _ => rfl) (fun o ho => noRound_of_poolStep sends ho)
      rfl rfl (.inl rfl)
  | begins _ idle _ => exact .asks rfl idle rfl rfl rfl rfl
  | consolidates _ _ hwasm =>
    obtain ⟨forked, players, -, rfl, -⟩ := WasmService.consolidateBlock_ok hwasm
    exact .writes (not_draws rfl rfl) (fun _ => rfl) (by simp [NoRound]) rfl rfl (.inl rfl)
  | verifies _ _ =>
    exact .writes (not_draws rfl rfl) (fun _ => rfl) (by simp [NoRound]) rfl rfl (.inl rfl)
  | elects _ =>
    exact .writes (not_draws rfl rfl) (fun _ => rfl) (by simp [NoRound]) rfl rfl (.inl rfl)
  | waits _ =>
    exact .writes (not_draws rfl rfl) (fun _ => rfl) (by simp [NoRound]) rfl rfl (.inl rfl)
  | times _ =>
    exact .writes (not_draws rfl rfl) (fun _ => rfl) (by simp [NoRound]) rfl rfl (.inl rfl)
  | passes =>
    refine .writes (not_draws rfl rfl) (fun _ => rfl) (by simp) ?_ rfl (.inl rfl)
    exact (List.append_nil _).symm
  | finishes htaken hwasm =>
    refine .writes (not_draws rfl rfl) (fun _ => rfl) (fun o ho => ?_) rfl rfl
      (.inr ⟨rfl, _, _, htaken, rfl⟩)
    rcases executeBlock_sends hwasm o ho with ⟨_, _, rfl⟩ | ⟨_, _, rfl⟩ | ⟨_, _, _, rfl⟩
    · trivial
    · trivial
    · trivial
  | enters entry entering =>
    refine .writes ?_ ?_ (fun o ho => noRound_of_enters (entering o ho)) rfl rfl (.inl rfl)
    · cases input <;> first | exact not_draws rfl rfl | cases entry
    · intro tip
      cases input <;> first | rfl | cases entry
  | restarts hrestart => exact .restarts rfl hrestart

end Channel

/-! ## The request of the leader -/

/-- The wasm service asks for the leader once for each block it takes, behind the
announcements in the channel, and none follows until it is answered. -/
inductive Asking (n : LiveNode W) : Prop
  | idle : n.taken = none → .getLeader ∉ n.toConsensus → Asking n
  | asked {taken : TakenBlock} {xs ys : List ConsensusEntry} :
      n.taken = some taken → taken.leader = none → n.toConsensus = xs ++ .getLeader :: ys →
      .getLeader ∉ xs → .getLeader ∉ ys → (∀ entry ∈ ys, entry.block? = none) → Asking n
  | answered {taken : TakenBlock} :
      n.taken = some taken → taken.leader = some n.consensus.leader →
      .getLeader ∉ n.toConsensus → (∀ entry ∈ n.toConsensus, entry.block? = none) → Asking n

section Asks

variable {n n' : LiveNode W} {out : List NodeOutput}

theorem quiet_entries (quiet : ∀ o ∈ out, NoRound o) :
    .getLeader ∉ out.filterMap consensusEntry ∧
      ∀ entry ∈ out.filterMap consensusEntry, entry.block? = none := by
  constructor
  · intro hmem
    obtain ⟨o, -, ho⟩ := List.mem_filterMap.mp hmem
    unfold consensusEntry at ho
    split at ho <;> cases ho
  · intro entry hmem
    cases entry with
    | getLeader => rfl
    | msg msg =>
      have := quiet _ (mem_consensusEntry.mp hmem)
      cases msg <;> first | rfl | exact this.elim

/-- More entries without a block, while the wasm service goes on or is done. -/
theorem Asking.append {entries : List ConsensusEntry} (h : Asking n)
    (same : n'.consensus = n.consensus) (written : n'.toConsensus = n.toConsensus ++ entries)
    (unasked : .getLeader ∉ entries) (quiet : ∀ entry ∈ entries, entry.block? = none)
    (taken : n'.taken = n.taken ∨ n'.taken = none ∧ ∃ taken leader,
      n.taken = some taken ∧ taken.leader = some leader) : Asking n' := by
  have unasked' {xs : List ConsensusEntry} (none : .getLeader ∉ xs) :
      .getLeader ∉ xs ++ entries := by
    rw [List.mem_append, not_or]
    exact ⟨none, unasked⟩
  have quiet' {xs : List ConsensusEntry} (before : ∀ entry ∈ xs, entry.block? = none) :
      ∀ entry ∈ xs ++ entries, entry.block? = none := by
    rw [List.forall_mem_append]
    exact ⟨before, quiet⟩
  rcases taken with taken | ⟨done, t, leader, ht, hleader⟩
  · cases h with
    | idle free none =>
      refine .idle (taken.trans free) ?_
      rw [written]
      exact unasked' none
    | asked ht hleader hsplit before after rest =>
      refine .asked (taken.trans ht) hleader ?_ before (unasked' after) (quiet' rest)
      rw [written, hsplit, List.append_assoc]
      rfl
    | answered ht hleader none rest =>
      refine .answered (taken.trans ht) (hleader.trans (by rw [same])) ?_ ?_
      · rw [written]
        exact unasked' none
      · rw [written]
        exact quiet' rest
  · cases h with
    | idle free none => cases free.symm.trans ht
    | asked ht' hnone _ _ _ _ =>
      cases ht'.symm.trans ht
      cases hnone.symm.trans hleader
    | answered _ _ none _ =>
      refine .idle done ?_
      rw [written]
      exact unasked' none

/-- The consensus service takes a message. -/
theorem Asking.pop {msg : NodeMsg} (h : Asking n)
    (heq : n.toConsensus = .msg msg :: n'.toConsensus) (taken : n'.taken = n.taken)
    (kept : consolidatedBlock msg = none → n'.consensus.leader = n.consensus.leader) :
    Asking n' := by
  cases h with
  | idle free unasked =>
    rw [heq, List.mem_cons, not_or] at unasked
    exact .idle (taken.trans free) unasked.2
  | @asked t xs ys ht hleader hsplit before after rest =>
    rw [heq] at hsplit
    cases xs with
    | nil =>
      obtain ⟨request, -⟩ := List.cons.inj hsplit
      cases request
    | cons entry xs =>
      obtain ⟨-, hsplit⟩ := List.cons.inj hsplit
      rw [List.mem_cons, not_or] at before
      exact .asked (taken.trans ht) hleader hsplit before.2 after rest
  | answered ht hleader unasked rest =>
    rw [heq, List.mem_cons, not_or] at unasked
    rw [heq, List.forall_mem_cons] at rest
    obtain ⟨other, rest⟩ := rest
    exact .answered (taken.trans ht) (hleader.trans (congrArg some (kept other).symm))
      unasked.2 rest

/-- The consensus service answers, which it does only when asked. -/
theorem Asking.answer (h : Asking n) (heq : n.toConsensus = .getLeader :: n'.toConsensus)
    (same : n'.consensus = n.consensus)
    (taken : n'.taken =
      n.taken.map fun taken => { taken with leader := some n.consensus.leader }) : Asking n' := by
  cases h with
  | idle _ unasked => exact absurd (heq ▸ List.mem_cons_self) unasked
  | @asked t xs ys ht hleader hsplit before after rest =>
    rw [heq] at hsplit
    cases xs with
    | nil =>
      obtain ⟨-, hrest⟩ := List.cons.inj hsplit
      rw [ht] at taken
      refine .answered taken (by rw [same]) ?_ ?_
      · rwa [hrest]
      · rwa [hrest]
    | cons entry xs =>
      obtain ⟨hentry, -⟩ := List.cons.inj hsplit
      exact absurd (hentry ▸ List.mem_cons_self) before
  | answered _ _ unasked _ => exact absurd (heq ▸ List.mem_cons_self) unasked

end Asks

/-! ## The leader and the last block -/

section Led

variable [Primitives] [Serialize BlockData] [Serialize ConfirmationData] [NodeCodec] [Merkle]
  [Pcg32] [Wm W] {n n' : LiveNode W} {input : LiveInput W} {out : List NodeOutput}
  {trace : List (LiveEvent W)} {tip : Option Block}

/-- The newest block in the channel of the consensus service is where the block service
is. Once it is taken, the leader is drawn for it. -/
structure Led (trace : List (LiveEvent W)) (n : LiveNode W) (tip : Option Block) : Prop where
  newest : ∀ block, newestBlock n.toConsensus = some block → tip = some block
  drawn : newestBlock n.toConsensus = none → ∀ block, tip = some block →
    DrawnLast trace block n.consensus.leader
  asking : Asking n

omit [Merkle] [Wm W] in
/-- The consensus service takes a message other than a new block. -/
theorem Led.takeOther {env : Env} {msg : NodeMsg} {core : Drawing Block Confirmation}
    (h : Led trace n tip) (heq : n.toConsensus = .msg msg :: n'.toConsensus)
    (hcore : Drawing.handleMessages env ⟨n.consensus, n.wasm.drand⟩ msg = .ok (core, out))
    (hconsensus : n'.consensus = core.consensus) (htaken : n'.taken = n.taken)
    (other : consolidatedBlock msg = none) :
    Led (trace ++ [⟨n, .consensus env, out, n'⟩]) n' tip := by
  have kept : n'.consensus.leader = n.consensus.leader := by
    rw [hconsensus]
    refine (ConsensusService.handleMessages_keeps ?_ (Drawing.handleMessages_ok hcore).1).2.1
    rintro block txsHashes players rfl
    cases other
  have same : newestBlock n.toConsensus = newestBlock n'.toConsensus := by
    rw [heq, newestBlock_cons, ConsensusEntry.block?, other, Option.or_none]
  have quiet : ¬ Draws (⟨n, .consensus env, out, n'⟩ : LiveEvent W) := by
    rintro (restart | ⟨block, taken⟩)
    · cases restart
    · simp only [takenMsg, heq, Option.bind_some, other] at taken
      cases taken
  refine ⟨fun block hblock => h.newest block (same.trans hblock), ?_,
    h.asking.pop heq htaken fun _ => kept⟩
  intro free block hblock
  rw [kept]
  exact (h.drawn (same.trans free) block hblock).later quiet

omit [Merkle] [Wm W] in
/-- The consensus service takes a new block and draws. -/
theorem Led.takeBlock {env : Env} {block : Block} {txsHashes : List Hash} {players : Players}
    {core : Drawing Block Confirmation} (h : Led trace n tip)
    (heq : n.toConsensus = .msg (.blockConsolidated block txsHashes players) :: n'.toConsensus)
    (hcore : Drawing.handleMessages env ⟨n.consensus, n.wasm.drand⟩
      (.blockConsolidated block txsHashes players) = .ok (core, out))
    (hconsensus : n'.consensus = core.consensus) (htaken : n'.taken = n.taken) :
    Led (trace ++ [⟨n, .consensus env, out, n'⟩]) n' tip := by
  have newest : newestBlock n.toConsensus = (newestBlock n'.toConsensus).or (some block) := by
    rw [heq, newestBlock_cons]
    rfl
  refine ⟨fun b hb => h.newest b (by rw [newest, hb]; rfl), ?_,
    h.asking.pop heq htaken fun other => nomatch other⟩
  intro free b hb
  rw [free] at newest
  cases hb.symm.trans (h.newest block newest)
  have taken : takenMsg ⟨n, .consensus env, out, n'⟩ =
      some (.blockConsolidated block txsHashes players) := by
    simp only [takenMsg, heq]
  have drawn := Drawing.handleMessages_blockConsolidated hcore
  rw [hconsensus]
  exact Drew.last (.consolidated taken drawn)

omit [Serialize ConfirmationData] [Merkle] [Wm W] in
/-- The consensus service does not change, and what is written announces nothing. -/
theorem Led.quiet {e : LiveEvent W} (h : Led trace n tip)
    (quiet : ¬ Draws e) (same : n'.consensus = n.consensus)
    (newest : newestBlock n'.toConsensus = newestBlock n.toConsensus) (asking : Asking n') :
    Led (trace ++ [e]) n' tip := by
  refine ⟨fun block hblock => h.newest block (newest.symm.trans hblock), ?_, asking⟩
  intro free block hblock
  rw [same]
  exact (h.drawn (newest.symm.trans free) block hblock).later quiet

omit [Serialize ConfirmationData] [Merkle] [Wm W] in
/-- A restart that draws leaves the leader drawn for the last block. -/
theorem Led.restart {wm : W} {env : Env} (hrestart : n.restart wm env = .ok n')
    (restart : RestartDraws ⟨n, .restart wm env, out, n'⟩) :
    Led (trace ++ [⟨n, .restart wm env, out, n'⟩]) n' n.wasm.db.lastBlock? := by
  obtain ⟨block, core, config, hblock, hcore, rfl⟩ := restart_ok hrestart
  rw [hblock]
  refine ⟨fun b hb => (by cases hb), fun _ b hb => ?_, .idle rfl (by simp)⟩
  cases hb
  by_cases positive : 0 < block.data.height
  · have drawn := Drawing.initCoreFromDb_drawn positive hcore
    exact Drew.last (.restarted rfl hblock drawn)
  · obtain ⟨first, -⟩ := Drawing.initCoreFromDb_genesis positive hcore
    have same := (restart rfl block hblock).resolve_left positive
    obtain ⟨⟨leader, seed⟩, drawn, hleader⟩ := Option.map_eq_some_iff.mp (same.trans first)
    obtain rfl : leader = core.consensus.leader := hleader
    exact Drew.last (.restarted rfl hblock drawn)

theorem Led.step (h : Led trace n tip) (ordered : Ordered n tip)
    (step : LiveStep n input out n') (restart : RestartDraws ⟨n, input, out, n'⟩) :
    Led (trace ++ [⟨n, input, out, n'⟩]) n' (tipAfter tip ⟨n, input, out, n'⟩) := by
  cases step.channel with
  | @takes env msg core hinput heq hcore hconsensus htaken =>
    obtain rfl : input = .consensus env := hinput
    cases hmsg : consolidatedBlock msg with
    | none => exact h.takeOther heq hcore hconsensus htaken hmsg
    | some block =>
      cases msg <;> cases hmsg
      exact h.takeBlock heq hcore hconsensus htaken
  | @answers env hinput heq hconsensus htaken =>
    obtain rfl : input = .consensus env := hinput
    have heq : n.toConsensus = .getLeader :: n'.toConsensus := heq
    refine h.quiet (not_draws rfl ?_) hconsensus ?_ (h.asking.answer heq hconsensus htaken)
    · simp only [takenMsg, heq]
    · rw [heq, newestBlock_cons, ConsensusEntry.block?, Option.or_none]
  | @asks taken index hinput free htaken hleader heq hconsensus =>
    obtain rfl : input = .pass index := hinput
    have heq : n'.toConsensus = n.toConsensus ++ [.getLeader] := heq
    refine h.quiet (not_draws rfl rfl) hconsensus ?_ ?_
    · rw [heq]
      exact newestBlock_append (by simp [ConsensusEntry.block?])
    · cases h.asking with
      | idle _ unasked => exact .asked htaken hleader heq unasked (by simp) (by simp)
      | asked ht _ _ _ _ _ => cases ht.symm.trans free
      | answered ht _ _ _ => cases ht.symm.trans free
  | @announces block txsHashes players env rest hinput hblock heq hconsensus htaken =>
    obtain rfl : input = .block env := hinput
    have hblock : n.toBlock = .blockConsolidated block txsHashes players :: rest := hblock
    have heq : n'.toConsensus = n.toConsensus ++ [.msg (.blockConsolidated block txsHashes players)] :=
      heq
    have tip' : tipAfter tip ⟨n, .block env, out, n'⟩ = some block := by
      simp only [tipAfter, isRestart, takenByBlock, hblock]
      rfl
    have free : n.taken = none := by
      cases ordered.stage with
      | settled _ none => simp [LiveNode.announced, hblock, consolidatedBlock] at none
      | due _ _ free _ _ => exact free
    have newest : newestBlock n'.toConsensus = some block := by
      rw [heq]
      exact newestBlock_concat rfl
    rw [tip']
    refine ⟨fun b hb => newest.symm.trans hb, fun absent => ?_, ?_⟩
    · cases newest.symm.trans absent
    · cases h.asking with
      | idle _ unasked =>
        refine .idle (htaken.trans free) ?_
        rw [heq]
        simpa using unasked
      | asked ht _ _ _ _ _ => cases ht.symm.trans free
      | answered ht _ _ _ => cases ht.symm.trans free
  | writes quiet same other heq hconsensus htaken =>
    rw [same]
    obtain ⟨unasked, silent⟩ := quiet_entries other
    refine h.quiet quiet hconsensus ?_ (h.asking.append hconsensus heq unasked silent htaken)
    exact (congrArg newestBlock heq).trans (newestBlock_append silent)
  | @restarts wm env hinput hrestart =>
    obtain rfl : input = .restart wm env := hinput
    exact Led.restart hrestart restart

omit [Serialize ConfirmationData] in
theorem led_of_started (h : Started n) : Led [] n none := by
  obtain ⟨hstart⟩ := h
  obtain ⟨core, wasm, out, named, -, -, hwasm, sent, rfl⟩ := bootstrap_ok hstart
  obtain ⟨given, players, -, -, -, -, rfl⟩ :=
    executeGenesisBlock_ok rfl (UInt64.lt_irrefl 0) named hwasm sent
  constructor
  · intro b hb
    cases hb
  · intro _ b hb
    cases hb
  · exact .idle rfl (by simp [post, consensusEntry])

/-- Every block that is executed has the last block of the database before it, and the
leader that is answered for it is the one drawn for that block: over every run whose
restarts draw the leader. -/
theorem run_inContext {start : LiveNode W} (hashed : HeightsHashed) (started : Started start)
    (run : Run (Computes handle) start trace n)
    (restarts : Along (fun _ e => RestartDraws e) trace) {taken : TakenBlock}
    (htaken : n.taken = some taken) : ∃ last, InContext trace n taken last := by
  obtain ⟨tip, ordered, led⟩ : ∃ tip, Ordered n tip ∧ Led trace n tip := by
    refine run.invariant (fun trace n => ∃ tip, Ordered n tip ∧ Led trace n tip)
      ⟨none, ordered_of_started started, led_of_started started⟩ ?_ restarts
    rintro trace n input out n' ⟨tip, ordered, led⟩ hstep restart
    have step := handle_step hstep
    exact ⟨_, ordered.step hashed step, led.step ordered step restart⟩
  obtain ⟨last, rfl, hlast⟩ : ∃ last, tip = some last ∧ n.wasm.db.blocks.getLast? = some last := by
    cases ordered.stage with
    | settled last _ => exact ⟨_, rfl, last⟩
    | due _ _ free _ _ => cases free.symm.trans htaken
  have extends_ := ordered.taken taken htaken
  refine ⟨last, hlast, ?_, extends_.prevHash last hlast, ?_⟩
  · rw [extends_.height]
    exact (getLast_height ordered.heights (List.append_nil _).symm hlast).symm
  · intro leader hleader
    cases led.asking with
    | idle free _ => cases free.symm.trans htaken
    | asked ht hnone _ _ _ _ =>
      cases ht.symm.trans htaken
      cases hnone.symm.trans hleader
    | answered ht hanswer _ rest =>
      cases ht.symm.trans htaken
      cases hanswer.symm.trans hleader
      refine led.drawn ?_ last rfl
      rw [newestBlock, List.filterMap_eq_nil_iff.mpr rest]
      rfl

end Led

end LiveNode

namespace Sample.Duo

open LiveNode

/-- A transaction arrives, its timer runs out and the leader builds a block, which the
wasm service takes and asks for the leader. -/
def buildsAndExecutes : List (LiveInput Willing) :=
  enterPool 2 ++
    [.block blockEnv, .pass 0, .block (leaderEnv [2]), .transactions fun _ => 0, .pass 1,
      .consensus env]

def drewFor (block : Block) (leader : String) (e : LiveEvent Willing) : Bool :=
  (match takenMsg e with
    | some (.blockConsolidated _ _ players) =>
      decide ((Drawing.drawn e.before.wasm.drand players block).map Prod.fst = some leader)
    | _ => false) ||
  isRestart e.input && decide ((Drawing.drawn (SeedSource.ofBlock block)
    (initPlayers e.before.wasm.db.accounts) block).map Prod.fst = some leader)

theorem drewFor_of_drew {e : LiveEvent Willing} {block : Block} {leader : String}
    (h : Drew e block leader) : drewFor block leader e = true := by
  cases h with
  | consolidated taken drawn => simp [drewFor, taken, drawn]
  | restarted restart _ drawn => simp [drewFor, restart, drawn]

/-- Whether a block is executed for a leader that nobody drew. -/
def misled (leader : String) (trace : List (LiveEvent Willing)) (n : LiveNode Willing) : Bool :=
  match n.taken, n.wasm.db.lastBlock? with
  | some taken, some last =>
    decide (taken.leader = some leader) && trace.all fun e => !drewFor last leader e
  | _, _ => false

/-- Bob is drawn after the genesis block. Alice restarts there and executes her own block
as that of the leader. -/
theorem restarted_alice_misled : ∃ start trace n taken, Started start ∧
    Run (Computes handle) start trace n ∧ (n : LiveNode Willing).taken = some taken ∧
    taken.leader = some "alice" ∧ ∀ last, ¬ InContext trace n taken last := by
  obtain ⟨start, trace, n, started, run, check, -⟩ := exists_run 1
    (takeGenesis ++ [.restart .mk env] ++ buildsAndExecutes) (misled "alice") (by decide +kernel)
  unfold misled at check
  split at check
  · next taken last htaken hlast =>
    rw [Bool.and_eq_true, decide_eq_true_eq] at check
    obtain ⟨leader, undrawn⟩ := check
    refine ⟨start, trace, n, taken, started, run, htaken, leader, fun last' context => ?_⟩
    cases hlast.symm.trans context.onTop
    obtain ⟨earlier, e, later, rfl, drew, -⟩ := context.leader _ leader
    have := List.all_eq_true.mp undrawn e (by simp)
    rw [drewFor_of_drew drew] at this
    cases this
  · cases check

/-- Bob, who was drawn, executes his block. -/
theorem bob_executes_in_context : ∃ start trace n taken last, HeightsHashed ∧ Started start ∧
    Run (Computes handle) start trace n ∧ (n : LiveNode Willing).taken = some taken ∧
    taken.leader = some "bob" ∧ InContext trace n taken last := by
  obtain ⟨start, trace, n, started, run, check, -⟩ := exists_run 2
    (takeGenesis ++ buildsAndExecutes)
    (fun trace n => decide (n.taken.bind TakenBlock.leader = some "bob") &&
      trace.all fun e => !isRestart e.input) (by decide +kernel)
  rw [Bool.and_eq_true, decide_eq_true_eq] at check
  obtain ⟨leader, live⟩ := check
  obtain ⟨taken, htaken, leader⟩ := Option.bind_eq_some_iff.mp leader
  have restarts : Along (fun _ (e : LiveEvent Willing) => RestartDraws e) trace := by
    refine (along_of_all live).imp fun _ e h restart => ?_
    rw [restart] at h
    cases h
  obtain ⟨last, context⟩ := run_inContext heightsHashed started run restarts htaken
  exact ⟨start, trace, n, taken, last, heightsHashed, started, run, htaken, leader, context⟩

end Sample.Duo

end Trinci
