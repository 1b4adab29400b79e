import Trinci.PoolContents

/-!
# What starts the building of a block

The service asks for a block when a transaction enters an empty pool, when enough are
pooled, and when transactions are left over by a block. It does not ask while the node is
in alignment, and it does not ask again when the alignment ends. Transactions are left
without a request exactly if they had to wait for the end of an alignment.
-/

namespace Trinci

open StepMachines

universe u

namespace TransactionService

variable {A B C T : Type u}

/-! ## Messages and requests -/

/-- A block is asked for, at once or with a timer. -/
def Fires (out : List (Output A B C T)) : Prop := ∃ o ∈ out, Triggers o

def triggers : Output A B C T → Bool
  | .msg .blockService .startTimerToBuildBlock => true
  | .msg .blockService .buildBlock => true
  | _ => false

theorem triggers_iff {o : Output A B C T} : triggers o = true ↔ Triggers o := by
  constructor
  · intro h
    unfold triggers at h
    split at h
    · exact .inl rfl
    · exact .inr rfl
    · cases h
  · rintro (rfl | rfl) <;> rfl

instance (out : List (Output A B C T)) : Decidable (Fires out) :=
  decidable_of_iff (out.any triggers = true) (by simp only [List.any_eq_true, triggers_iff, Fires])

def EndsAlignment : Msg A B C T → Prop
  | .alignmentEnded => True
  | _ => False

instance (msg : Msg A B C T) : Decidable (Consolidates msg) :=
  let consolidates : Msg A B C T → Bool
    | .blockConsolidated _ _ _ => true
    | _ => false
  decidable_of_iff (consolidates msg = true) (by cases msg <;> simp [consolidates, Consolidates])

instance (msg : Msg A B C T) : Decidable (EndsAlignment msg) :=
  let ends : Msg A B C T → Bool
    | .alignmentEnded => true
    | _ => false
  decidable_of_iff (ends msg = true) (by cases msg <;> simp [ends, EndsAlignment])

/-- How many transactions are left once these are removed. -/
def left (s : TransactionService A T) (txsHashes : List Hash) : Nat :=
  (s.unconfirmedPool.keys.filter (· ∉ txsHashes)).length

/-- A message in an alignment that leaves transactions for which nothing was asked: they
are the first in the pool, or too many for the timer. -/
def Strands [Transactable T] (s : TransactionService A T) (msg : Msg A B C T) : Prop :=
  s.alignmentInProgress = true ∧ ((s.poolLength = 0 ∧ insertions msg ≠ []) ∨
    (Consolidates msg ∧ minTxsToBuild ≤ s.left (removals msg)))

instance [Transactable T] (s : TransactionService A T) (msg : Msg A B C T) :
    Decidable (s.Strands msg) :=
  inferInstanceAs (Decidable (_ ∧ (_ ∧ _ ∨ _ ∧ _)))

theorem not_fires_nil : ¬ Fires ([] : List (Output A B C T)) := by
  rintro ⟨o, ho, -⟩
  cases ho

theorem fires_append {out later : List (Output A B C T)} :
    Fires (out ++ later) ↔ Fires out ∨ Fires later := by
  simp only [Fires, List.mem_append, or_and_right, exists_or]

/-! ## What a message asks for -/

/-- What the entries that are inserted ask for. -/
structure Asks (entries : List (PoolEntry A T)) (s s' : TransactionService A T)
    (out : List (Output A B C T)) : Prop where
  aligning : s'.alignmentInProgress = s.alignmentInProgress
  filled : s'.poolLength ≠ 0 ↔ s.poolLength ≠ 0 ∨ entries ≠ []
  quiet : s.alignmentInProgress = true → ¬ Fires out
  first : s.alignmentInProgress = false → s.poolLength = 0 → s'.poolLength ≠ 0 → Fires out
  pooled : Fires out → s'.poolLength ≠ 0

/-- What one message does to the length of the pool, and what it asks for. -/
inductive AskStep [Transactable T] (s : TransactionService A T) :
    Msg A B C T → TransactionService A T → List (Output A B C T) → Prop
  | ended : AskStep s .alignmentEnded { s with alignmentInProgress := false } []
  | started : AskStep s .alignmentStarted { s with alignmentInProgress := true } []
  | consolidated {block : B} {txsHashes : List Hash} {players : Players}
      {s' : TransactionService A T} {out : List (Output A B C T)} :
      s'.alignmentInProgress = s.alignmentInProgress → s'.poolLength = s.left txsHashes →
      (Fires out ↔ s'.poolLength ≠ 0 ∧
        (s.alignmentInProgress = true → s'.poolLength < minTxsToBuild)) →
      AskStep s (.blockConsolidated block txsHashes players) s' out
  | asks {msg : Msg A B C T} {s' : TransactionService A T} {out : List (Output A B C T)} :
      ¬ Consolidates msg → ¬ EndsAlignment msg → Asks (insertions msg) s s' out →
      AskStep s msg s' out

variable {s s' t u : TransactionService A T} {out later : List (Output A B C T)}

theorem Asks.trans {xs ys : List (PoolEntry A T)} (h : Asks xs s t out)
    (h' : Asks ys t u later) : Asks (xs ++ ys) s u (out ++ later) where
  aligning := h'.aligning.trans h.aligning
  filled := by
    rw [h'.filled, h.filled, or_assoc, ne_eq, ne_eq, ne_eq, ne_eq, List.append_eq_nil_iff,
      not_and_or]
  quiet aligning := by
    rw [fires_append, not_or]
    exact ⟨h.quiet aligning, h'.quiet (h.aligning.trans aligning)⟩
  first idle empty pooled := by
    rw [fires_append]
    by_cases between : t.poolLength = 0
    · exact .inr (h'.first (h.aligning.trans idle) between pooled)
    · exact .inl (h.first idle empty between)
  pooled fires := by
    rcases fires_append.mp fires with fires | fires
    · exact h'.filled.mpr (.inl (h.pooled fires))
    · exact h'.pooled fires

/-- A message that leaves the pool and asks for nothing. -/
theorem asks_nothing (aligning : s'.alignmentInProgress = s.alignmentInProgress)
    (same : s'.unconfirmedPool = s.unconfirmedPool) (silent : ¬ Fires out) : Asks [] s s' out where
  aligning := aligning
  filled := by simp [poolLength, same]
  quiet _ := silent
  first _ empty pooled := by
    rw [poolLength, same] at pooled
    exact absurd empty pooled
  pooled fires := absurd fires silent

/-- What the check asks for. -/
theorem checkWhetherToBuildBlock_asks (h : s.checkWhetherToBuildBlock = (s', out)) :
    s'.alignmentInProgress = s.alignmentInProgress ∧ s'.unconfirmedPool = s.unconfirmedPool ∧
      (Fires out ↔ s.alignmentInProgress = false ∧ (s.poolLength = 1 ∨
        (minTxsToBuild ≤ s.poolLength ∧ s.buildInProgress = false))) := by
  unfold checkWhetherToBuildBlock at h
  split at h
  · next aligning =>
    cases h
    exact ⟨rfl, rfl, iff_of_false not_fires_nil fun asked => by simp [aligning] at asked⟩
  · next idle =>
    dsimp only at h
    split at h
    · next many =>
      cases h
      refine ⟨rfl, rfl, iff_of_true ?_ ⟨by simpa using idle, .inr (by simpa using many)⟩⟩
      exact ⟨.msg .blockService .buildBlock, by simp, .inr rfl⟩
    · next few =>
      cases h
      refine ⟨rfl, rfl, ?_⟩
      have few' : ¬ (minTxsToBuild ≤ s.poolLength ∧ s.buildInProgress = false) := by
        simpa using few
      rw [or_iff_left few', and_iff_right (by simpa using idle)]
      split
      · next single => exact iff_of_true ⟨_, List.mem_singleton_self _, .inl rfl⟩ single
      · next other => exact iff_of_false not_fires_nil other

section Steps

variable [DecidableEq A] [Transactable T]

omit [DecidableEq A] [Transactable T] in
theorem poolLength_eq_zero (empty : s.poolLength = 0) (hash : Hash) : hash ∉ s.unconfirmedPool := by
  intro held
  obtain ⟨entry, hentry, -⟩ := List.mem_map.mp (AList.mem_keys.mp held)
  rw [poolLength, List.length_eq_zero_iff] at empty
  rw [empty] at hentry
  cases hentry

theorem addTx_asks {now : UInt64} {tx : T} {size : Nat} {attachments : Option (List A)}
    (h : s.addTx now tx size attachments = .ok (s', out)) :
    Asks (checked [(tx, size, attachments)]) s s' out := by
  have some_ : (s.insertInPool tx size attachments).1.poolLength ≠ 0 := Nat.succ_ne_zero _
  cases addTx_addition h with
  | refused fails =>
    have none_ : checked [((tx, size, attachments) : PoolEntry A T)] = [] := by
      simp [checked, PoolEntry.tx, fails]
    rw [none_]
    exact asks_nothing rfl rfl not_fires_nil
  | replaced passes held =>
    rw [checked_singleton passes]
    refine ⟨rfl, ?_, fun _ => not_fires_nil, fun _ empty => ?_, fun fires => ?_⟩
    · exact iff_of_true some_ (.inr (List.cons_ne_nil _ _))
    · exact absurd held (poolLength_eq_zero empty _)
    · exact absurd fires not_fires_nil
  | pooled passes absent hcheck =>
    have longer : (s.insertInPool tx size attachments).1.poolLength = s.poolLength + 1 := by
      simp [insertInPool, poolLength, List.kerase_of_notMem_keys absent]
    obtain ⟨aligning, same, fires⟩ := checkWhetherToBuildBlock_asks hcheck
    have length : s'.poolLength = s.poolLength + 1 := by
      rw [poolLength, same]
      exact longer
    rw [checked_singleton passes]
    refine ⟨aligning, ?_, fun busy asked => ?_, fun idle empty _ => ?_, fun _ => ?_⟩
    · rw [length]
      exact iff_of_true (Nat.succ_ne_zero _) (.inr (List.cons_ne_nil _ _))
    · have idle := (fires.mp asked).1
      exact Bool.noConfusion (busy.symm.trans idle)
    · refine fires.mpr ⟨idle, .inl ?_⟩
      rw [empty] at longer
      exact longer
    · rw [length]
      exact Nat.succ_ne_zero _

theorem addTxs_asks {now : Nat → UInt64} {txs : List (PoolEntry A T)}
    (h : s.addTxs now txs = .ok (s', out)) : Asks (checked txs) s s' out := by
  induction txs generalizing now s out with
  | nil =>
    cases h
    exact asks_nothing rfl rfl not_fires_nil
  | cons entry txs ih =>
    obtain ⟨tx, size, attachments⟩ := entry
    obtain ⟨⟨t, first⟩, hfirst, h⟩ := bind_eq_ok.mp h
    obtain ⟨⟨u, rest⟩, hrest, h⟩ := bind_eq_ok.mp h
    cases h
    have split : checked ((tx, size, attachments) :: txs) =
        checked [(tx, size, attachments)] ++ checked txs := List.filter_append [_] txs
    rw [split]
    exact (addTx_asks hfirst).trans (ih hrest)

omit [Transactable T] in
theorem foldl_forget_left (txsHashes : List Hash) (s : TransactionService A T) :
    (txsHashes.foldl forget s).poolLength = s.left txsHashes ∧
      (txsHashes.foldl forget s).alignmentInProgress = s.alignmentInProgress := by
  induction txsHashes generalizing s with
  | nil => simp [left, poolLength, AList.keys, List.keys]
  | cons first rest ih =>
    obtain ⟨length, aligning⟩ := ih (s.forget first)
    refine ⟨?_, aligning⟩
    have erased : (s.forget first).unconfirmedPool.keys =
        s.unconfirmedPool.keys.filter (· ≠ first) := by
      have keys : (s.forget first).unconfirmedPool.keys = s.unconfirmedPool.keys.erase first :=
        AList.keys_erase _ _
      rw [keys, s.unconfirmedPool.keys_nodup.erase_eq_filter]
      refine List.filter_congr fun hash _ => ?_
      rw [Bool.eq_iff_iff]
      simp
    rw [List.foldl_cons, length, left, left, erased, List.filter_filter]
    congr 2
    funext hash
    simp [Bool.and_comm]

theorem blockConsolidated_asks {block : B} {txsHashes : List Hash} {players : Players}
    (h : s.blockConsolidated txsHashes = (s', out)) :
    AskStep s (.blockConsolidated block txsHashes players : Msg A B C T) s' out := by
  obtain ⟨length, aligning⟩ := foldl_forget_left txsHashes s
  simp only [blockConsolidated] at h
  split at h
  · next few =>
    cases h
    refine .consolidated aligning length (iff_of_true ?_ ⟨few.1, fun _ => few.2⟩)
    exact ⟨_, List.mem_singleton_self _, .inl rfl⟩
  · next other =>
    obtain ⟨aligning', same, fires⟩ := checkWhetherToBuildBlock_asks h
    have length' : s'.poolLength = (txsHashes.foldl forget s).poolLength := by
      rw [poolLength, same, poolLength]
    refine .consolidated (aligning'.trans aligning) (length'.trans length) ?_
    generalize txsHashes.foldl forget s = t at *
    have asked : Fires out ↔ t.alignmentInProgress = false ∧
        (t.poolLength = 1 ∨ minTxsToBuild ≤ t.poolLength) := by
      rw [fires, and_iff_left rfl]
      rfl
    have other' : ¬ (t.poolLength ≠ 0 ∧ t.poolLength < minTxsToBuild) := other
    rw [asked, length', aligning]
    cases s.alignmentInProgress with
    | true => simpa using other'
    | false =>
      simp only [minTxsToBuild] at other' ⊢
      simp
      omega

theorem handleMessages_asks {now : Nat → UInt64} {msg : Msg A B C T}
    (h : s.handleMessages now msg = .ok (s', out)) : AskStep s msg s' out := by
  cases msg with
  | addTx tx size attachments => exact .asks id id (addTx_asks h)
  | addTxs txs => exact .asks id id (addTxs_asks h)
  | alignmentEnded =>
    cases h
    exact .ended
  | alignmentStarted =>
    cases h
    exact .started
  | blockConsolidated block txsHashes players => exact blockConsolidated_asks (Except.ok.inj h)
  | collectBlockTxs block round txsHashes =>
    obtain ⟨txs, -, h⟩ := bind_eq_ok.mp h
    cases h
    refine .asks id id (asks_nothing rfl rfl ?_)
    simp [Fires, Triggers]
  | checkOldTxs =>
    simp only [handleMessages, checkOldTxs, Except.ok.injEq] at h
    split at h
    · cases h
      exact .asks id id (asks_nothing rfl rfl not_fires_nil)
    · cases h
      refine .asks id id (asks_nothing rfl rfl ?_)
      split
      · exact not_fires_nil
      · simp [Fires, Triggers]
  | _ =>
    cases h
    exact .asks id id (asks_nothing rfl rfl not_fires_nil)

/-! ## Whole runs -/

/-- Since the start or the last block, a block was asked for. -/
def Asked (trace : List (PoolEvent A B C T)) : Prop :=
  Since (fun e => Fires e.out) (fun e => Consolidates e.input.2) trace

/-- Since the start or the last block, transactions were left in an alignment. -/
def Stranded (trace : List (PoolEvent A B C T)) : Prop :=
  Since (fun e => Strands e.before e.input.2) (fun e => Consolidates e.input.2) trace

/-- Pooled transactions of a node that is not in alignment have been asked a block for. -/
def NoneStranded (trace : List (PoolEvent A B C T)) (s : TransactionService A T) : Prop :=
  s.unconfirmedPool.entries ≠ [] → s.alignmentInProgress = false → Asked trace

/-- No alignment ends with transactions left in it. -/
def EndsClean (earlier : List (PoolEvent A B C T)) (e : PoolEvent A B C T) : Prop :=
  EndsAlignment e.input.2 → ¬ Stranded earlier

instance (trace : List (PoolEvent A B C T)) : Decidable (Asked trace) :=
  inferInstanceAs (Decidable (Since _ _ trace))

omit [DecidableEq A] in
instance (trace : List (PoolEvent A B C T)) : Decidable (Stranded trace) :=
  inferInstanceAs (Decidable (Since _ _ trace))

instance (earlier : List (PoolEvent A B C T)) (e : PoolEvent A B C T) :
    Decidable (EndsClean earlier e) :=
  inferInstanceAs (Decidable (_ → ¬ _))

/-- What was asked for after a history without an alignment that ended otherwise. -/
structure Accounts (trace : List (PoolEvent A B C T)) (s : TransactionService A T) : Prop where
  waits : s.poolLength ≠ 0 → Asked trace ∨ (s.alignmentInProgress = true ∧ Stranded trace)
  stranded : Stranded trace → s.alignmentInProgress = true ∧ s.poolLength ≠ 0 ∧ ¬ Asked trace
  asked : Asked trace → s.poolLength ≠ 0

variable {nodeId : String} {trace : List (PoolEvent A B C T)} {input : PoolInput A B C T}

omit [DecidableEq A] in
theorem accounts_start : Accounts ([] : List (PoolEvent A B C T)) (start nodeId) where
  waits pooled := absurd rfl pooled
  stranded h := h.elim
  asked h := h.elim

omit [DecidableEq A] in
/-- The switches of the alignment leave what was asked and what was left. -/
theorem switch_accounts (trace : List (PoolEvent A B C T)) (e : PoolEvent A B C T)
    (other : ¬ Consolidates e.input.2) (inserts : insertions e.input.2 = []) (silent : e.out = []) :
    (Asked (trace ++ [e]) ↔ Asked trace) ∧ (Stranded (trace ++ [e]) ↔ Stranded trace) := by
  have unasked : ¬ Fires e.out := by
    rw [silent]
    exact not_fires_nil
  have strands : ¬ Strands e.before e.input.2 := by
    rintro ⟨-, ⟨-, added⟩ | ⟨consolidates, -⟩⟩
    · exact added inserts
    · exact other consolidates
  constructor
  · exact since_snoc.trans ((or_iff_right unasked).trans (and_iff_right other))
  · exact since_snoc.trans ((or_iff_right strands).trans (and_iff_right other))

omit [DecidableEq A] in
theorem Accounts.step (h : Accounts trace s) (step : AskStep s input.2 s' out)
    (clean : EndsClean trace ⟨s, input, out, s'⟩) :
    Accounts (trace ++ [⟨s, input, out, s'⟩]) s' := by
  obtain ⟨now, msg⟩ := input
  cases step with
  | ended =>
    obtain ⟨asked, stranded⟩ := switch_accounts trace
      ⟨s, (now, .alignmentEnded), [], { s with alignmentInProgress := false }⟩ id rfl rfl
    have none_ : ¬ Stranded trace := clean trivial
    refine ⟨fun pooled => ?_, fun left => ?_, fun fired => ?_⟩
    · rcases h.waits pooled with before | ⟨-, left⟩
      · exact .inl (asked.mpr before)
      · exact absurd left none_
    · exact absurd (stranded.mp left) none_
    · exact h.asked (asked.mp fired)
  | started =>
    obtain ⟨asked, stranded⟩ := switch_accounts trace
      ⟨s, (now, .alignmentStarted), [], { s with alignmentInProgress := true }⟩ id rfl rfl
    refine ⟨fun pooled => ?_, fun left => ?_, fun fired => ?_⟩
    · rcases h.waits pooled with before | ⟨-, left⟩
      · exact .inl (asked.mpr before)
      · exact .inr ⟨rfl, stranded.mpr left⟩
    · obtain ⟨-, pooled, unasked⟩ := h.stranded (stranded.mp left)
      exact ⟨rfl, pooled, fun fired => unasked (asked.mp fired)⟩
    · exact h.asked (asked.mp fired)
  | @consolidated block txsHashes players s' out aligning length fires =>
    have asked : Asked (trace ++ [⟨s, (now, .blockConsolidated block txsHashes players), out, s'⟩]) ↔
        Fires out := since_snoc.trans (or_iff_left fun kept => kept.1 trivial)
    have stranded : Stranded
        (trace ++ [⟨s, (now, .blockConsolidated block txsHashes players), out, s'⟩]) ↔
        s.alignmentInProgress = true ∧ minTxsToBuild ≤ s'.poolLength := by
      refine since_snoc.trans ((or_iff_left fun kept => kept.1 trivial).trans ?_)
      rw [length]
      exact and_congr_right fun _ => by simp [insertions, removals, Consolidates]
    rw [← aligning] at fires stranded
    refine ⟨fun pooled => ?_, fun left => ?_, fun fired => (fires.mp (asked.mp fired)).1⟩
    · rw [asked, stranded, fires]
      by_cases many : minTxsToBuild ≤ s'.poolLength
      · by_cases busy : s'.alignmentInProgress = true
        · exact .inr ⟨busy, busy, many⟩
        · exact .inl ⟨pooled, fun aligned => absurd aligned busy⟩
      · exact .inl ⟨pooled, fun _ => Nat.not_le.mp many⟩
    · obtain ⟨busy, many⟩ := stranded.mp left
      refine ⟨busy, ?_, fun fired => ?_⟩
      · rw [minTxsToBuild] at many
        omega
      · exact absurd ((fires.mp (asked.mp fired)).2 busy) (Nat.not_lt.mpr many)
  | asks other going asks =>
    have asked : Asked (trace ++ [⟨s, (now, msg), out, s'⟩]) ↔ Fires out ∨ Asked trace :=
      since_snoc.trans (or_congr_right (and_iff_right other))
    have stranded : Stranded (trace ++ [⟨s, (now, msg), out, s'⟩]) ↔
        (s.alignmentInProgress = true ∧ s.poolLength = 0 ∧ insertions msg ≠ []) ∨
          Stranded trace := by
      refine since_snoc.trans (or_congr ?_ (and_iff_right other))
      exact and_congr_right fun _ => or_iff_left fun consolidates => other consolidates.1
    refine ⟨fun pooled => ?_, fun left => ?_, fun fired => ?_⟩
    · rw [asked, stranded, asks.aligning]
      by_cases before : s.poolLength = 0
      · cases busy : s.alignmentInProgress with
        | false => exact .inl (.inl (asks.first busy before pooled))
        | true =>
          have inserts := (asks.filled.mp pooled).resolve_left (not_not.mpr before)
          exact .inr ⟨rfl, .inl ⟨rfl, before, inserts⟩⟩
      · rcases h.waits before with fired | ⟨busy, left⟩
        · exact .inl (.inr fired)
        · exact .inr ⟨busy, .inr left⟩
    · rw [asked, asks.aligning]
      rcases stranded.mp left with ⟨busy, empty, inserts⟩ | left
      · refine ⟨busy, asks.filled.mpr (.inr inserts), ?_⟩
        rintro (fired | fired)
        · exact asks.quiet busy fired
        · exact h.asked fired empty
      · obtain ⟨busy, pooled, unasked⟩ := h.stranded left
        refine ⟨busy, asks.filled.mpr (.inl pooled), ?_⟩
        rintro (fired | fired)
        · exact asks.quiet busy fired
        · exact unasked fired
    · rcases asked.mp fired with fired | fired
      · exact asks.pooled fired
      · exact asks.filled.mpr (.inl (h.asked fired))

omit [DecidableEq A] [Transactable T] in
theorem poolLength_ne_zero : s.unconfirmedPool.entries ≠ [] ↔ s.poolLength ≠ 0 := by
  rw [poolLength, ne_eq, ne_eq, List.length_eq_zero_iff]

/-- In a run no transaction is stranded, exactly as long as no alignment ends with
transactions left in it. -/
theorem run_noneStranded_iff (run : Run (Computes handle) (start nodeId) trace s) :
    Along (fun earlier e => NoneStranded (earlier ++ [e]) e.after) trace ↔
      Along EndsClean trace := by
  suffices both : (Along (fun earlier e => NoneStranded (earlier ++ [e]) e.after) trace ↔
      Along EndsClean trace) ∧ (Along EndsClean trace → Accounts trace s) from both.1
  induction run with
  | nil => exact ⟨iff_of_true (along_nil _) (along_nil _), fun _ => accounts_start⟩
  | @snoc trace s s' input out run hstep ih =>
    obtain ⟨same, accounts⟩ := ih
    have step := handleMessages_asks hstep
    rw [along_snoc, along_snoc]
    refine ⟨⟨?_, ?_⟩, ?_⟩
    · rintro ⟨all, last⟩
      have clean := same.mp all
      refine ⟨clean, fun ends left => ?_⟩
      obtain ⟨-, pooled, unasked⟩ := (accounts clean).stranded left
      obtain ⟨now, msg⟩ := input
      cases step with
      | ended =>
        apply unasked
        have asked := last (poolLength_ne_zero.mpr pooled) rfl
        exact (switch_accounts trace ⟨s, (now, .alignmentEnded), [], _⟩ id rfl rfl).1.mp asked
      | started => exact ends
      | consolidated _ _ _ => exact ends
      | asks _ going _ => exact going ends
    · rintro ⟨clean, last⟩
      refine ⟨same.mpr clean, fun pooled idle => ?_⟩
      rcases ((accounts clean).step step last).waits (poolLength_ne_zero.mp pooled) with
        asked | ⟨busy, -⟩
      · exact asked
      · exact Bool.noConfusion (idle.symm.trans busy)
    · rintro ⟨clean, last⟩
      exact (accounts clean).step step last

end Steps

end TransactionService

namespace Sample

open TransactionService

abbrev SampleInput := PoolInput Hash Block Confirmation Transaction

/-- Alice's transaction enters the pool. -/
def enters (n : UInt8) : SampleInput := (fun _ => 0, .addTx (unitOf n (keypair 1)) 100 none)

def alignmentOf (inputs : List SampleInput) : List SampleInput :=
  (fun _ => 0, .alignmentStarted) :: inputs ++ [(fun _ => 0, .alignmentEnded)]

def emptyConsolidated : SampleInput :=
  (fun _ => 0, .blockConsolidated (Block.new (keypair 1).publicKey [] 1 Hash.default 0) [] ⟨[], []⟩)

/-- A transaction that came in an alignment is pooled after it, and nothing was asked. -/
theorem transaction_stranded : ∃ trace s, Run (Computes handle) (start "alice") trace s ∧
    trace.map Event.input = alignmentOf [enters 1] ∧ s.poolLength = 1 ∧ ¬ Asked trace ∧
    ¬ Along (fun earlier e => NoneStranded (earlier ++ [e]) e.after) trace := by
  have run := traceOf_run (f := handle) (s := start "alice") (l := alignmentOf [enters 1])
    (by decide +kernel)
  refine ⟨_, _, run, rfl, by decide +kernel, by decide +kernel, fun along => ?_⟩
  have asked := along [_, _] _ [] rfl (by decide +kernel) rfl
  revert asked
  decide +kernel

/-- A block that comes in the alignment starts the timer for what it leaves. -/
theorem transaction_waits : ∃ trace s, Run (Computes handle) (start "alice") trace s ∧
    trace.map Event.input = alignmentOf [enters 1, emptyConsolidated] ∧ s.poolLength = 1 ∧
    Along (fun earlier e => NoneStranded (earlier ++ [e]) e.after) trace := by
  have run := traceOf_run (f := handle) (s := start "alice")
    (l := alignmentOf [enters 1, emptyConsolidated]) (by decide +kernel)
  refine ⟨_, _, run, rfl, by decide +kernel, (run_noneStranded_iff run).mpr ?_⟩
  have clean : Along (fun earlier e => decide (EndsClean earlier e) = true)
      (traceOf handle (start "alice") (alignmentOf [enters 1, emptyConsolidated])) :=
    along_of_check (by decide +kernel)
  exact clean.imp fun _ _ h => of_decide_eq_true h

end Sample

end Trinci
