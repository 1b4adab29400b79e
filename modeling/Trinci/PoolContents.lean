import Trinci.NodeStore
import Trinci.ServiceSteps
import Trinci.WasmService

/-!
# What the pool of transactions keeps in step

The pool, the set of the attachments and the collector of old transactions are changed by
insertions and removals only, and a message is a list of these. The collector lists every
pooled transaction once. The set holds the attachments of the pooled transactions as long
as no entry is replaced or removed with an attachment that has to stay or to go.
-/

namespace Trinci

open StepMachines

universe u

/-! ## The pool and its edits -/

/-- An entry of the pool. -/
abbrev PoolEntry (A T : Type u) := T × Nat × Option (List A)

namespace PoolEntry

variable {A T : Type u}

def tx (entry : PoolEntry A T) : T := entry.1

def attachments (entry : PoolEntry A T) : List A := entry.2.2.getD []

end PoolEntry

/-- The part of the service that insertions and removals change. -/
structure Pool (A T : Type u) where
  entries : AList fun _ : Hash => PoolEntry A T
  attachments : Finset A
  /-- The hashes of the collector of old transactions. -/
  collected : List Hash

inductive PoolEdit (A T : Type u)
  | insert (entry : PoolEntry A T)
  | remove (hash : Hash)

namespace Pool

variable {A T : Type u}

def empty : Pool A T := ⟨∅, ∅, []⟩

variable [DecidableEq A] [Transactable T]

def edit (p : Pool A T) : PoolEdit A T → Pool A T
  | .insert entry =>
    let hash := Transactable.getHash entry.tx
    { entries := p.entries.insert hash entry
      attachments := p.attachments ∪ entry.attachments.toFinset
      collected := if hash ∈ p.entries then p.collected else p.collected ++ [hash] }
  | .remove hash =>
    { entries := p.entries.erase hash
      attachments :=
        p.attachments \ ((p.entries.lookup hash).elim [] PoolEntry.attachments).toFinset
      collected := p.collected.filter (· ≠ hash) }

/-! ## The collector -/

/-- The collector lists the pooled transactions, each once, and every entry is that of a
transaction that passed its check, under its own hash. -/
structure Kept (p : Pool A T) : Prop where
  once : ∀ hash, p.collected.count hash = if hash ∈ p.entries then 1 else 0
  keyed : ∀ hash entry, p.entries.lookup hash = some entry →
    Transactable.getHash entry.tx = hash ∧ Transactable.verify entry.tx = some true

/-- Only transactions that pass their check are inserted. -/
def Checked : PoolEdit A T → Prop
  | .insert entry => Transactable.verify entry.tx = some true
  | .remove _ => True

omit [DecidableEq A] in
theorem kept_empty : (empty : Pool A T).Kept where
  once hash := rfl
  keyed hash entry h := by cases h

theorem Kept.insert {p : Pool A T} (h : p.Kept) {entry : PoolEntry A T}
    (checked : Transactable.verify entry.tx = some true) : (p.edit (.insert entry)).Kept := by
  constructor
  · intro hash
    simp only [edit, AList.mem_insert]
    by_cases same : hash = Transactable.getHash entry.tx
    · rw [if_pos (Or.inl same), ← same]
      by_cases held : hash ∈ p.entries
      · rw [if_pos held, h.once, if_pos held]
      · rw [if_neg held, List.count_append, h.once, if_neg held, List.count_singleton_self]
    · have other : (if Transactable.getHash entry.tx ∈ p.entries then p.collected
          else p.collected ++ [Transactable.getHash entry.tx]).count hash =
          p.collected.count hash := by
        split
        · rfl
        · rw [List.count_append, List.count_singleton, if_neg (by simpa using Ne.symm same),
            Nat.add_zero]
      simp only [other, h.once, same, false_or]
  · intro hash stored hstored
    simp only [edit] at hstored
    by_cases same : hash = Transactable.getHash entry.tx
    · rw [same, AList.lookup_insert] at hstored
      cases hstored
      exact ⟨same.symm, checked⟩
    · rw [AList.lookup_insert_ne same] at hstored
      exact h.keyed hash stored hstored

theorem Kept.remove {p : Pool A T} (h : p.Kept) (gone : Hash) : (p.edit (.remove gone)).Kept := by
  constructor
  · intro hash
    simp only [edit, AList.mem_erase]
    by_cases same : hash = gone
    · rw [if_neg fun left => left.1 same, List.count_eq_zero]
      simp [same]
    · have held : (hash ≠ gone ∧ hash ∈ p.entries) ↔ hash ∈ p.entries := and_iff_right same
      rw [List.count_filter (by simpa using same), h.once hash]
      simp only [held]
  · intro hash stored hstored
    simp only [edit] at hstored
    by_cases same : hash = gone
    · rw [same, AList.lookup_erase] at hstored
      cases hstored
    · rw [AList.lookup_erase_ne same] at hstored
      exact h.keyed hash stored hstored

theorem Kept.foldl {p : Pool A T} (h : p.Kept) {edits : List (PoolEdit A T)}
    (checked : ∀ edit ∈ edits, Checked edit) : (edits.foldl Pool.edit p).Kept := by
  induction edits generalizing p with
  | nil => exact h
  | cons edit edits ih =>
    rw [List.forall_mem_cons] at checked
    apply ih _ checked.2
    cases edit with
    | insert entry => exact h.insert checked.1
    | remove hash => exact h.remove hash

/-! ## The attachments -/

/-- The attachments of the entries, one entry after the other. -/
def attached (entries : AList fun _ : Hash => PoolEntry A T) : List A :=
  entries.entries.flatMap fun stored => stored.2.attachments

/-- The set is the union of the attachments of the entries. -/
def Covered (p : Pool A T) : Prop := p.attachments = (attached p.entries).toFinset

omit [DecidableEq A] [Transactable T] in
theorem mem_attached {entries : AList fun _ : Hash => PoolEntry A T} {a : A} :
    a ∈ attached entries ↔
      ∃ hash entry, entries.lookup hash = some entry ∧ a ∈ entry.attachments := by
  rw [attached, List.mem_flatMap]
  constructor
  · rintro ⟨⟨hash, entry⟩, stored, ha⟩
    exact ⟨hash, entry, AList.mem_lookup_iff.mpr stored, ha⟩
  · rintro ⟨hash, entry, stored, ha⟩
    exact ⟨⟨hash, entry⟩, AList.mem_lookup_iff.mp stored, ha⟩

omit [DecidableEq A] in
/-- The entries once others are inserted. -/
def inserted (entries : AList fun _ : Hash => PoolEntry A T) (more : List (PoolEntry A T)) :
    AList fun _ : Hash => PoolEntry A T :=
  more.foldl (fun entries entry => entries.insert (Transactable.getHash entry.tx) entry) entries

/-- Whatever was attached to an entry that is replaced is still attached to one. -/
def Lossless (p : Pool A T) (more : List (PoolEntry A T)) : Prop :=
  ∀ a ∈ attached p.entries ++ more.flatMap PoolEntry.attachments,
    a ∈ attached (inserted p.entries more)

/-- What is removed shares no attachment with what stays. -/
def Apart (p : Pool A T) (hashes : List Hash) : Prop :=
  ∀ gone ∈ p.entries.entries, gone.1 ∈ hashes → ∀ stays ∈ p.entries.entries, stays.1 ∉ hashes →
    ∀ a ∈ gone.2.attachments, a ∉ stays.2.attachments

instance (p : Pool A T) (more : List (PoolEntry A T)) : Decidable (p.Lossless more) :=
  inferInstanceAs (Decidable (∀ a ∈ _, a ∈ _))

instance (p : Pool A T) (hashes : List Hash) : Decidable (p.Apart hashes) :=
  inferInstanceAs (Decidable (∀ gone ∈ _, _ → ∀ stays ∈ _, _ → ∀ a ∈ _, ¬ _))

omit [DecidableEq A] in
theorem lossless_nil (p : Pool A T) : p.Lossless [] := by
  intro a ha
  simpa [inserted] using ha

omit [DecidableEq A] [Transactable T] in
theorem apart_nil (p : Pool A T) : p.Apart [] := by
  intro gone _ removed
  cases removed

variable {p : Pool A T}

theorem foldl_insert (more : List (PoolEntry A T)) (p : Pool A T) :
    ((more.map .insert).foldl edit p).entries = inserted p.entries more ∧
      ((more.map .insert).foldl edit p).attachments =
        p.attachments ∪ (more.flatMap PoolEntry.attachments).toFinset := by
  induction more generalizing p with
  | nil => simp [inserted]
  | cons entry more ih =>
    obtain ⟨entries, attachments⟩ := ih (p.edit (.insert entry))
    rw [List.map_cons, List.foldl_cons, entries, attachments]
    refine ⟨rfl, ?_⟩
    rw [List.flatMap_cons, List.toFinset_append, ← Finset.union_assoc]
    rfl

omit [DecidableEq A] [Transactable T] in
theorem attached_insert {entries : AList fun _ : Hash => PoolEntry A T} {entry : PoolEntry A T}
    {hash : Hash} {a : A} (h : a ∈ attached (entries.insert hash entry)) :
    a ∈ attached entries ∨ a ∈ entry.attachments := by
  obtain ⟨other, stored, hstored, ha⟩ := mem_attached.mp h
  by_cases same : other = hash
  · rw [same, AList.lookup_insert] at hstored
    cases hstored
    exact .inr ha
  · rw [AList.lookup_insert_ne same] at hstored
    exact .inl (mem_attached.mpr ⟨other, stored, hstored, ha⟩)

omit [DecidableEq A] in
theorem attached_inserted {entries : AList fun _ : Hash => PoolEntry A T}
    {more : List (PoolEntry A T)} {a : A} (h : a ∈ attached (inserted entries more)) :
    a ∈ attached entries ++ more.flatMap PoolEntry.attachments := by
  induction more generalizing entries with
  | nil => simpa [inserted] using h
  | cons entry more ih =>
    have later := ih h
    rw [List.mem_append] at later
    rw [List.flatMap_cons, List.mem_append, List.mem_append]
    rcases later with before | after
    · rcases attached_insert before with old | new
      · exact .inl old
      · exact .inr (.inl new)
    · exact .inr (.inr after)

theorem covered_insert_iff (h : p.Covered) (more : List (PoolEntry A T)) :
    ((more.map .insert).foldl edit p).Covered ↔ p.Lossless more := by
  obtain ⟨entries, attachments⟩ := foldl_insert more p
  rw [Covered, entries, attachments, h, ← List.toFinset_append, Finset.ext_iff]
  simp only [List.mem_toFinset]
  exact ⟨fun same a ha => (same a).mp ha, fun lossless a => ⟨lossless a, attached_inserted⟩⟩

theorem foldl_remove (hashes : List Hash) (p : Pool A T) :
    (∀ hash, ((hashes.map .remove).foldl edit p).entries.lookup hash =
      if hash ∈ hashes then none else p.entries.lookup hash) ∧
    ∀ a, a ∈ ((hashes.map .remove).foldl edit p).attachments ↔ a ∈ p.attachments ∧
      ∀ hash ∈ hashes, ∀ entry, p.entries.lookup hash = some entry → a ∉ entry.attachments := by
  induction hashes generalizing p with
  | nil => simp
  | cons first rest ih =>
    obtain ⟨entries, attachments⟩ := ih (p.edit (.remove first))
    have lookup (hash : Hash) : (p.edit (.remove first)).entries.lookup hash =
        if hash = first then none else p.entries.lookup hash := by
      split
      · next same => rw [same]; exact AList.lookup_erase _ _
      · next other => exact AList.lookup_erase_ne other
    have dropped (a : A) : a ∈ (p.edit (.remove first)).attachments ↔ a ∈ p.attachments ∧
        ∀ entry, p.entries.lookup first = some entry → a ∉ entry.attachments := by
      cases hfirst : p.entries.lookup first <;> simp [edit, hfirst]
    constructor
    · intro hash
      rw [List.map_cons, List.foldl_cons, entries, lookup]
      by_cases same : hash = first
      · simp [same]
      · simp [same]
    · intro a
      rw [List.map_cons, List.foldl_cons, attachments, dropped, List.forall_mem_cons, and_assoc]
      refine and_congr_right fun _ => and_congr_right fun notFirst => forall₂_congr fun hash _ => ?_
      rw [lookup]
      by_cases same : hash = first
      · subst same
        simpa using notFirst
      · rw [if_neg same]

theorem covered_remove_iff (h : p.Covered) (hashes : List Hash) :
    ((hashes.map .remove).foldl edit p).Covered ↔ p.Apart hashes := by
  obtain ⟨entries, attachments⟩ := foldl_remove hashes p
  have left (a : A) : a ∈ attached ((hashes.map .remove).foldl edit p).entries ↔
      ∃ hash ∉ hashes, ∃ entry, p.entries.lookup hash = some entry ∧ a ∈ entry.attachments := by
    rw [mem_attached]
    simp only [entries]
    constructor
    · rintro ⟨hash, entry, hentry, ha⟩
      split at hentry
      · cases hentry
      · next stays => exact ⟨hash, stays, entry, hentry, ha⟩
    · rintro ⟨hash, stays, entry, hentry, ha⟩
      exact ⟨hash, entry, by rwa [if_neg stays], ha⟩
  have before (a : A) : a ∈ p.attachments ↔
      ∃ hash entry, p.entries.lookup hash = some entry ∧ a ∈ entry.attachments := by
    rw [h, List.mem_toFinset, mem_attached]
  rw [Covered, Finset.ext_iff]
  simp only [List.mem_toFinset, attachments, left, before]
  constructor
  · intro same gone hgone removed stays hstays kept a ha hother
    have rest := (same a).mpr ⟨stays.1, kept, stays.2, AList.mem_lookup_iff.mpr hstays, hother⟩
    exact rest.2 gone.1 removed gone.2 (AList.mem_lookup_iff.mpr hgone) ha
  · intro apart a
    constructor
    · rintro ⟨⟨hash, entry, hentry, ha⟩, free⟩
      exact ⟨hash, fun removed => free hash removed entry hentry ha, entry, hentry, ha⟩
    · rintro ⟨hash, kept, entry, hentry, ha⟩
      refine ⟨⟨hash, entry, hentry, ha⟩, fun other removed stored hstored hother => ?_⟩
      exact apart ⟨other, stored⟩ (AList.mem_lookup_iff.mp hstored) removed ⟨hash, entry⟩
        (AList.mem_lookup_iff.mp hentry) kept a hother ha

end Pool

/-! ## The messages as edits -/

namespace TransactionService

variable {A B C T : Type u}

def pool (s : TransactionService A T) : Pool A T :=
  ⟨s.unconfirmedPool, s.unconfirmedPoolAttachments, s.oldCollector.map Prod.fst⟩

/-- The entries whose transactions pass their check. -/
def checked [Transactable T] (txs : List (PoolEntry A T)) : List (PoolEntry A T) :=
  txs.filter fun entry => Transactable.verify entry.tx = some true

def insertions [Transactable T] : Msg A B C T → List (PoolEntry A T)
  | .addTx tx size attachments => checked [(tx, size, attachments)]
  | .addTxs txs => checked txs
  | _ => []

def removals : Msg A B C T → List Hash
  | .blockConsolidated _ txsHashes _ => txsHashes
  | _ => []

def edits [Transactable T] (msg : Msg A B C T) : List (PoolEdit A T) :=
  (insertions msg).map .insert ++ (removals msg).map .remove

theorem edits_checked [Transactable T] (msg : Msg A B C T) :
    ∀ edit ∈ edits msg, Pool.Checked edit := by
  have verified : ∀ entry ∈ insertions msg, Transactable.verify entry.tx = some true := by
    intro entry hentry
    cases msg with
    | addTx tx size attachments => exact of_decide_eq_true (List.mem_filter.mp hentry).2
    | addTxs txs => exact of_decide_eq_true (List.mem_filter.mp hentry).2
    | _ => cases hentry
  intro edit hedit
  rcases List.mem_append.mp hedit with hedit | hedit
  · obtain ⟨entry, hentry, rfl⟩ := List.mem_map.mp hedit
    exact verified entry hentry
  · obtain ⟨hash, -, rfl⟩ := List.mem_map.mp hedit
    trivial

variable {s s' : TransactionService A T} {out : List (Output A B C T)}

theorem checkWhetherToBuildBlock_edits (h : s.checkWhetherToBuildBlock = (s', out)) :
    s'.pool = s.pool := by
  unfold checkWhetherToBuildBlock at h
  split at h
  · cases h
    rfl
  · dsimp only at h
    split at h <;> cases h <;> rfl

variable [DecidableEq A] [Transactable T]

omit [DecidableEq A] in
theorem checked_singleton {tx : T} {size : Nat} {attachments : Option (List A)}
    (passes : Transactable.verify tx = some true) :
    checked [((tx, size, attachments) : PoolEntry A T)] = [(tx, size, attachments)] := by
  simp [checked, PoolEntry.tx, passes]

theorem addTx_edits {now : UInt64} {tx : T} {size : Nat} {attachments : Option (List A)}
    (h : s.addTx now tx size attachments = .ok (s', out)) :
    s'.pool = ((checked [(tx, size, attachments)]).map .insert).foldl Pool.edit s.pool := by
  cases addTx_addition h with
  | refused fails => simp [checked, PoolEntry.tx, fails]
  | replaced passes held =>
    rw [checked_singleton passes, List.map_singleton, List.foldl_cons, List.foldl_nil]
    simp [pool, insertInPool, Pool.edit, PoolEntry.tx, PoolEntry.attachments, held]
  | pooled passes absent hcheck =>
    rw [checked_singleton passes, List.map_singleton, List.foldl_cons, List.foldl_nil,
      checkWhetherToBuildBlock_edits hcheck]
    simp [pool, insertInPool, Pool.edit, PoolEntry.tx, PoolEntry.attachments, absent]

theorem addTxs_edits {now : Nat → UInt64} {txs : List (PoolEntry A T)}
    (h : s.addTxs now txs = .ok (s', out)) :
    s'.pool = ((checked txs).map .insert).foldl Pool.edit s.pool := by
  induction txs generalizing now s out with
  | nil =>
    cases h
    rfl
  | cons entry txs ih =>
    obtain ⟨tx, size, attachments⟩ := entry
    obtain ⟨⟨t, first⟩, hfirst, h⟩ := bind_eq_ok.mp h
    obtain ⟨⟨u, rest⟩, hrest, h⟩ := bind_eq_ok.mp h
    cases h
    have split : checked ((tx, size, attachments) :: txs) =
        checked [(tx, size, attachments)] ++ checked txs := List.filter_append [_] txs
    rw [split, List.map_append, List.foldl_append, ← addTx_edits hfirst, ih hrest]

theorem forget_edits (s : TransactionService A T) (hash : Hash) :
    (s.forget hash).pool = s.pool.edit (.remove hash) := by
  have collected : (s.oldCollector.filter fun entry => entry.1 ≠ hash).map Prod.fst =
      (s.oldCollector.map Prod.fst).filter (· ≠ hash) := by
    rw [List.filter_map]
    rfl
  rw [pool, Pool.edit, Pool.mk.injEq]
  refine ⟨rfl, ?_, collected⟩
  simp only [forget, removeFromPool, pool]
  rcases s.unconfirmedPool.lookup hash with _ | ⟨tx, size, _ | attachments⟩
  · rfl
  · rfl
  · rfl

theorem foldl_forget_edits (txsHashes : List Hash) (s : TransactionService A T) :
    (txsHashes.foldl forget s).pool = (txsHashes.map .remove).foldl Pool.edit s.pool := by
  induction txsHashes generalizing s with
  | nil => rfl
  | cons hash rest ih => rw [List.foldl_cons, ih, forget_edits, List.map_cons, List.foldl_cons]

theorem handleMessages_edits {now : Nat → UInt64} {msg : Msg A B C T}
    (h : s.handleMessages now msg = .ok (s', out)) :
    s'.pool = (edits msg).foldl Pool.edit s.pool := by
  cases msg with
  | addTx tx size attachments => simpa [edits, insertions, removals] using addTx_edits h
  | addTxs txs => simpa [edits, insertions, removals] using addTxs_edits h
  | blockConsolidated block txsHashes players =>
    have folded := foldl_forget_edits txsHashes s
    simp only [handleMessages, blockConsolidated, Except.ok.injEq] at h
    split at h
    · cases h
      exact folded
    · rw [checkWhetherToBuildBlock_edits h]
      exact folded
  | collectBlockTxs block round txsHashes =>
    obtain ⟨txs, -, h⟩ := bind_eq_ok.mp h
    cases h
    rfl
  | checkOldTxs =>
    simp only [handleMessages, checkOldTxs, Except.ok.injEq] at h
    split at h
    · cases h
      rfl
    · cases h
      have same : (fun entry : Hash × UInt64 =>
          (if isOld (now 0) entry then (entry.1, now 0) else entry).1) = Prod.fst := by
        funext entry
        split <;> rfl
      simp [pool, edits, insertions, removals, List.map_map, Function.comp_def, same]
  | _ =>
    cases h
    rfl

/-! ## Whole runs -/

/-- What the service receives: the readings of the clock and a message. -/
abbrev PoolInput (A B C T : Type u) := (Nat → UInt64) × Msg A B C T

abbrev PoolEvent (A B C T : Type u) :=
  Event (TransactionService A T) (PoolInput A B C T) (Output A B C T)

def handle (s : TransactionService A T) (input : PoolInput A B C T) :
    Except PoolPanic (TransactionService A T × List (Output A B C T)) :=
  s.handleMessages input.1 input.2

variable {nodeId : String} {trace : List (PoolEvent A B C T)}

/-- In every state the collector lists each pooled transaction once, and each is pooled
under its own hash and has passed its check. -/
theorem run_kept (run : Run (Computes handle) (start nodeId) trace s) :
    (∀ hash, (s.oldCollector.map Prod.fst).count hash =
      if hash ∈ s.unconfirmedPool then 1 else 0) ∧
    ∀ hash entry, s.unconfirmedPool.lookup hash = some entry →
      Transactable.getHash entry.1 = hash ∧ Transactable.verify entry.1 = some true := by
  have kept : s.pool.Kept := by
    apply run.preserves (fun s => s.pool.Kept) Pool.kept_empty
    intro s input out s' h hstep
    rw [handleMessages_edits hstep]
    exact h.foldl (edits_checked input.2)
  exact ⟨kept.once, kept.keyed⟩

/-- The set of attachments is the union of those of the pooled transactions. -/
def AttachmentsCovered (s : TransactionService A T) : Prop :=
  s.unconfirmedPoolAttachments =
    (s.unconfirmedPool.entries.flatMap fun stored => stored.2.2.2.getD []).toFinset

/-- No attachment of a replaced entry is lost with it, and no removed entry shares one with
an entry that stays. -/
def KeepsAttachments (s : TransactionService A T) (msg : Msg A B C T) : Prop :=
  s.pool.Lossless (insertions msg) ∧ s.pool.Apart (removals msg)

instance (s : TransactionService A T) (msg : Msg A B C T) : Decidable (s.KeepsAttachments msg) :=
  inferInstanceAs (Decidable (_ ∧ _))

theorem handleMessages_covered_iff {now : Nat → UInt64} {msg : Msg A B C T}
    (h : s.handleMessages now msg = .ok (s', out)) (covered : s.AttachmentsCovered) :
    s'.AttachmentsCovered ↔ s.KeepsAttachments msg := by
  have before : s.pool.Covered := covered
  have added (h : removals msg = []) : ((edits msg).foldl Pool.edit s.pool).Covered ↔
      s.KeepsAttachments msg := by
    rw [edits, KeepsAttachments, h, List.map_nil, List.append_nil, and_iff_left s.pool.apart_nil]
    exact Pool.covered_insert_iff before _
  change s'.pool.Covered ↔ _
  rw [handleMessages_edits h]
  cases msg with
  | blockConsolidated block txsHashes players =>
    have removed := Pool.covered_remove_iff before txsHashes
    exact removed.trans (and_iff_right s.pool.lossless_nil).symm
  | _ => exact added rfl

/-- In a run the set stays the union, exactly as long as no message loses an attachment of a
replaced entry or removes a shared one. -/
theorem run_covered_iff (run : Run (Computes handle) (start nodeId) trace s) :
    Along (fun _ e => e.after.AttachmentsCovered) trace ↔
      Along (fun _ e => e.before.KeepsAttachments e.input.2) trace := by
  suffices both : (Along (fun _ e => e.after.AttachmentsCovered) trace ↔
      Along (fun _ e => e.before.KeepsAttachments e.input.2) trace) ∧
      (Along (fun _ e => e.before.KeepsAttachments e.input.2) trace → s.AttachmentsCovered) from
    both.1
  induction run with
  | nil => exact ⟨iff_of_true (along_nil _) (along_nil _), fun _ => rfl⟩
  | @snoc trace s s' input out run hstep ih =>
    obtain ⟨same, covered⟩ := ih
    rw [along_snoc, along_snoc]
    refine ⟨⟨?_, ?_⟩, ?_⟩
    · rintro ⟨all, last⟩
      have keeps := same.mp all
      exact ⟨keeps, (handleMessages_covered_iff hstep (covered keeps)).mp last⟩
    · rintro ⟨keeps, last⟩
      exact ⟨same.mpr keeps, (handleMessages_covered_iff hstep (covered keeps)).mpr last⟩
    · rintro ⟨keeps, last⟩
      exact (handleMessages_covered_iff hstep (covered keeps)).mpr last

end TransactionService

/-! ## A bulk that is pooled twice -/

namespace Sample

open TransactionService

/-- A bulk of alice's with a node of bob's. -/
def sharedBulk : Transaction :=
  bulkOf (keypair 1) (emptyRoot 1 (keypair 1))
    [signed (keypair 2) (nodeOf (emptyRoot 1 (keypair 1)) 2 (keypair 2).publicKey)]

/-- The bulk as it is added from the pool of another node. -/
def fromPeer : PoolInput Hash Block Confirmation Transaction :=
  (fun _ => 0, .addTx sharedBulk 100 (Db.retrieveAttachmentsFromTx sharedBulk))

/-- The bulk as it is added from a block that was retrieved in an alignment. -/
def fromAlignment : PoolInput Hash Block Confirmation Transaction :=
  (fun _ => 0, .addTxs [(sharedBulk, 100, none)])

/-- A block with the bulk and a transaction that is not pooled. -/
def bulkConsolidated : PoolInput Hash Block Confirmation Transaction :=
  (fun _ => 0, .blockConsolidated (Block.new (keypair 1).publicKey [] 1 Hash.default 0)
    [sharedBulk.getHash, Hash.default] ⟨[], []⟩)

/-- The second insertion leaves the attachments of the first in the set. -/
theorem attachments_left : ∃ trace s, Run (Computes handle) (start "alice") trace s ∧
    trace.map Event.input = [fromPeer, fromAlignment] ∧
    s.unconfirmedPool.entries.map (fun stored => stored.2.2.2) = [none] ∧
    s.unconfirmedPoolAttachments.card = 2 ∧
    ¬ Along (fun _ e => e.after.AttachmentsCovered) trace := by
  have run := traceOf_run (f := handle) (s := start "alice") (l := [fromPeer, fromAlignment])
    (by decide +kernel)
  refine ⟨_, _, run, rfl, by decide +kernel, by decide +kernel, fun along => ?_⟩
  have covered : AttachmentsCovered _ := along [_] _ [] rfl
  revert covered
  unfold AttachmentsCovered
  decide +kernel

/-- The bulk is pooled twice from peers and then consolidated. -/
theorem attachments_kept : ∃ trace s, Run (Computes handle) (start "alice") trace s ∧
    trace.map Event.input = [fromPeer, fromPeer, bulkConsolidated] ∧
    s.unconfirmedPoolAttachments = ∅ ∧
    Along (fun _ e => e.after.AttachmentsCovered) trace := by
  have run := traceOf_run (f := handle) (s := start "alice")
    (l := [fromPeer, fromPeer, bulkConsolidated]) (by decide +kernel)
  refine ⟨_, _, run, rfl, by decide +kernel, (run_covered_iff run).mpr ?_⟩
  have keeps : Along (fun _ e => decide (e.before.KeepsAttachments e.input.2) = true)
      (traceOf handle (start "alice") [fromPeer, fromPeer, bulkConsolidated]) :=
    along_of_all (by decide +kernel)
  exact keeps.imp fun _ _ h => of_decide_eq_true h

/-- The bulk stays in the collector until it is consolidated. -/
theorem collector_kept : ∃ trace s, Run (Computes handle) (start "alice") trace s ∧
    trace.map Event.input = [fromPeer, fromAlignment] ∧
    sharedBulk.getHash ∈ s.unconfirmedPool ∧
    (s.oldCollector.map Prod.fst).count sharedBulk.getHash = 1 := by
  have run := traceOf_run (f := handle) (s := start "alice") (l := [fromPeer, fromAlignment])
    (by decide +kernel)
  have pooled : sharedBulk.getHash ∈
      (finalOf handle (start "alice") [fromPeer, fromAlignment]).unconfirmedPool := by
    decide +kernel
  refine ⟨_, _, run, rfl, pooled, ?_⟩
  rw [(run_kept run).1, if_pos pooled]

end Sample

end Trinci
