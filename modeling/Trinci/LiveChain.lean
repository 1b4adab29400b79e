import Mathlib.Data.List.Chain
import Trinci.LiveBlocks

/-!
# The chain of a node

A block is appended to the database by its place alone: its height and its previous hash
were checked before it was executed, by services that keep their own copies of the last
block. Every fork is one of the last block of the database, and is dropped with the first
that is merged; so the blocks form a chain in every state of a node.
-/

namespace Trinci

open StepMachines

/-- The blocks are kept by their heights, and each names the hash of the one before it. -/
structure Chained [Primitives] [Serialize BlockData] (blocks : List Block) : Prop where
  heights : ∀ (i : Nat) (b : Block), blocks[i]? = some b → b.data.height.toNat = i
  linked : ∀ (i : Nat) (b b' : Block), blocks[i]? = some b → blocks[i + 1]? = some b' →
    b'.data.prevHash = b.getHash

namespace LiveNode

variable {W : Type} [Primitives] [Serialize BlockData]

/-- Each block names the hash of the one before it. -/
def Linked (blocks : List Block) : Prop :=
  blocks.IsChain fun b b' => b'.data.prevHash = b.getHash

theorem Linked.append {blocks : List Block} {block : Block} (h : Linked blocks)
    (names : ∀ last, blocks.getLast? = some last → block.data.prevHash = last.getHash) :
    Linked (blocks ++ [block]) := by
  refine List.isChain_append.mpr ⟨h, List.isChain_singleton block, ?_⟩
  intro last hlast next hnext
  obtain rfl : block = next := by simpa using hnext
  exact names last hlast

theorem Linked.chained {blocks : List Block} (h : Linked blocks)
    (heights : ∀ (i : Nat) (b : Block), blocks[i]? = some b → b.data.height.toNat = i) :
    Chained blocks := by
  refine ⟨heights, fun i b b' hb hb' => ?_⟩
  obtain ⟨below, rfl⟩ := List.getElem?_eq_some_iff.mp hb
  obtain ⟨next, rfl⟩ := List.getElem?_eq_some_iff.mp hb'
  exact List.isChain_iff_getElem.mp h i next

/-- A block that is consolidated is the one that was executed under its hash. -/
def ToldApart (earlier : List (LiveEvent W)) (e : LiveEvent W) : Prop :=
  ∀ block confirmations, consolidation e = some (block, confirmations) →
    ∀ e' ∈ earlier, ∀ given txs, execution e' = some (given, txs) →
      given.getHash = block.getHash → given.data = block.data

/-- Every fork is of an executed block, on the last block of the database. -/
def Forked (earlier : List (LiveEvent W)) (n : LiveNode W) : Prop :=
  ∀ key forked, n.wasm.forksCollector.lookup key = some forked →
    ∃ e ∈ earlier, ∃ given txs, execution e = some (given, txs) ∧ given.getHash = key ∧
      Extends n.wasm.db given

section Steps

variable [NodeCodec] [Serialize ConfirmationData] [Merkle] [Pcg32] [Wm W] {n n' : LiveNode W}
  {input : LiveInput W} {out : List NodeOutput} {tip : Option Block}
  {earlier : List (LiveEvent W)}

/-- The block that an execution gives is on the last block. -/
theorem execution_extends {given : Block} {txs : List Transaction} (ordered : Ordered n tip)
    (step : LiveStep n input out n') (he : execution ⟨n, input, out, n'⟩ = some (given, txs)) :
    Extends n.wasm.db given := by
  cases step with
  | finishes htaken hwasm =>
    simp only [execution, htaken] at he
    have onTop := ordered.taken _ htaken
    cases executeBlock_step onTop.positive hwasm with
    | dropped _ => cases he
    | @kept _ _ given' _ _ _ _ height prevHash sent =>
      have same : given' = given := by
        rcases sent with rfl | rfl
        · exact congrArg Prod.fst (Option.some.inj he)
        · exact congrArg Prod.fst (Option.some.inj he)
      subst same
      exact
        { positive := height ▸ onTop.positive
          height := height ▸ onTop.height
          room := height ▸ onTop.room
          prevHash := fun last hlast => prevHash.trans (onTop.prevHash last hlast) }
  | enters entry _ => cases input <;> first | cases he | cases entry
  | _ => cases he

/-- Every step keeps the forks on the last block, and the chain. -/
theorem chain_step (ordered : Ordered n tip) (forked : Forked earlier n)
    (linked : Linked n.wasm.db.blocks) (hstep : n.handle input = .ok (n', out))
    (apart : ToldApart earlier ⟨n, input, out, n'⟩) :
    Forked (earlier ++ [⟨n, input, out, n'⟩]) n' ∧ Linked n'.wasm.db.blocks := by
  have step := handle_step hstep
  cases hc : consolidation ⟨n, input, out, n'⟩ with
  | some pair =>
    obtain ⟨block, confirmations⟩ := pair
    obtain ⟨fork, hfork, db, forks⟩ := consolidation_ok hstep hc
    obtain ⟨e, he, given, txs, hgiven, hkey, onTop⟩ := forked _ _ hfork
    have same := apart block confirmations hc e he given txs hgiven hkey
    obtain ⟨blocks, -⟩ := ordered.forks _ _ hfork
    refine ⟨fun key fork hkey => ?_, ?_⟩
    · rw [forks] at hkey
      cases hkey
    · have appended : n'.wasm.db.blocks = n.wasm.db.blocks ++ [block] := by
        rw [db, ← blocks]
        rfl
      rw [appended]
      exact linked.append fun last hlast => same ▸ onTop.prevHash last hlast
  | none =>
    cases he : execution ⟨n, input, out, n'⟩ with
    | some pair =>
      obtain ⟨given, txs⟩ := pair
      obtain ⟨_, _, _, _, -, -, db, forks⟩ := execution_ok ordered step he
      rw [db]
      refine ⟨fun key fork hkey => ?_, linked⟩
      rw [forks] at hkey
      by_cases new : key = given.getHash
      · subst new
        rw [db]
        exact ⟨_, by simp, given, txs, he, rfl, execution_extends ordered step he⟩
      · rw [AList.lookup_insert_ne new] at hkey
        obtain ⟨e, hmem, rest⟩ := forked key fork hkey
        rw [db]
        exact ⟨e, List.mem_append_left _ hmem, rest⟩
    | none =>
      obtain ⟨db, kept⟩ := step.keeps_db ordered hc he
      rw [db]
      refine ⟨fun key fork hkey => ?_, linked⟩
      obtain ⟨e, hmem, rest⟩ := forked key fork (kept key fork hkey)
      rw [db]
      exact ⟨e, List.mem_append_left _ hmem, rest⟩

omit [Serialize ConfirmationData] in
theorem chain_of_started (h : Started n) : Forked [] n ∧ Linked n.wasm.db.blocks := by
  obtain ⟨hstart⟩ := h
  obtain ⟨core, wasm, out, named, -, -, hwasm, sent, rfl⟩ := bootstrap_ok hstart
  obtain ⟨given, players, height, blocks, forks, -, rfl⟩ :=
    executeGenesisBlock_ok rfl (UInt64.lt_irrefl 0) named hwasm sent
  refine ⟨fun key fork hkey => ?_, ?_⟩
  · have : wasm.forksCollector.lookup key = some fork := hkey
    rw [forks] at this
    cases this
  · have only : wasm.db.blocks = [given] := blocks
    change Linked wasm.db.blocks
    rw [only]
    exact List.isChain_singleton given

/-- Over every run whose blocks are told apart by their hashes, the database has the block of
height `i` at place `i`, and each block names the hash of the one before it. -/
theorem run_chained {start : LiveNode W} {trace : List (LiveEvent W)} (hashed : HeightsHashed)
    (started : Started start) (run : Run (Computes handle) start trace n)
    (apart : Along ToldApart trace) : Chained n.wasm.db.blocks := by
  have invariant : (∃ tip, Ordered n tip) ∧ Forked trace n ∧ Linked n.wasm.db.blocks := by
    refine run.invariant (fun earlier n => (∃ tip, Ordered n tip) ∧ Forked earlier n ∧
      Linked n.wasm.db.blocks) ?_ ?_ apart
    · exact ⟨⟨none, ordered_of_started started⟩, chain_of_started started⟩
    · rintro earlier n input out n' ⟨⟨tip, ordered⟩, forked, linked⟩ hstep apart
      exact ⟨⟨_, ordered.step hashed (handle_step hstep)⟩,
        chain_step ordered forked linked hstep apart⟩
  obtain ⟨⟨tip, ordered⟩, -, linked⟩ := invariant
  exact linked.chained ordered.heights

end Steps

end LiveNode

namespace Sample.Duo

open LiveNode

def toldApart (earlier : List (LiveEvent Willing)) (e : LiveEvent Willing) : Bool :=
  match consolidation e with
  | none => true
  | some (block, _) => earlier.all fun e' =>
    match execution e' with
    | none => true
    | some (given, _) => given.getHash ≠ block.getHash || given.data = block.data

theorem toldApart_of_check {earlier : List (LiveEvent Willing)} {e : LiveEvent Willing}
    (h : toldApart earlier e = true) : ToldApart earlier e := by
  intro block confirmations hc e' he' given txs hgiven same
  simp only [toldApart, hc, List.all_eq_true] at h
  have apart := h e' he'
  simpa [hgiven, same] using apart

/-- Bob's block is on the genesis block. -/
theorem two_blocks_chained : ∃ start trace n, Started start ∧ Run (Computes handle) start trace n ∧
    (n : LiveNode Willing).wasm.db.blocks.length = 2 ∧ Chained n.wasm.db.blocks := by
  obtain ⟨start, trace, n, started, run, check, -⟩ := exists_run 2 consolidatesSmall
    (fun trace n => checkAlong toldApart [] trace && decide (n.wasm.db.blocks.length = 2))
    (by decide +kernel)
  rw [Bool.and_eq_true, decide_eq_true_eq] at check
  have apart : Along ToldApart trace :=
    (along_of_check check.1).imp fun _ _ h => toldApart_of_check h
  exact ⟨start, trace, n, started, run, check.2, run_chained heightsHashed started run apart⟩

end Sample.Duo

end Trinci
