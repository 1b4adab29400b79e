import Trinci.AlignmentSessions
import Trinci.Groupings

/-!
# The last block that most neighbors report

The neighbors are asked for their last block one by one. A reply of another kind counts for
nothing, while a request that fails ends the search. A search that goes through finds a
block that most of those who answered report, and the neighbors that report it.
-/

namespace Trinci

open StatefulSteps Groupings

namespace BlockService

/-- The block info a neighbor reports. -/
def reported (answer : String → Reply BlockInfo) (neighbor : String) : Option BlockInfo :=
  match answer neighbor with
  | .answer info => some info
  | _ => none

/-- The neighbors that report the block info, in the order they are asked. -/
def reporters (answer : String → Reply BlockInfo) (neighbors : List String) (info : BlockInfo) :
    List String :=
  under (reported answer) info neighbors

/-- Most of the neighbors that answer report the block info, and it is the highest where
others are reported as often. -/
structure MostReported (answer : String → Reply BlockInfo) (neighbors : List String)
    (info : BlockInfo) : Prop where
  known : reporters answer neighbors info ≠ []
  most : ∀ other, (reporters answer neighbors other).length ≤
    (reporters answer neighbors info).length
  highest : ∀ other, (reporters answer neighbors other).length =
    (reporters answer neighbors info).length → other.height ≤ info.height

section Candidates

variable {answer : String → Reply BlockInfo} {asked neighbors : List String}
  {candidates found : List (BlockInfo × List String)}

theorem addCandidate_eq (candidates : List (BlockInfo × List String)) (info : BlockInfo)
    (neighbor : String) : addCandidate candidates info neighbor =
      pushUnder candidates info neighbor := rfl

/-- Only a failed request ends the search. -/
theorem collectCandidates_eq_none_iff : collectCandidates answer neighbors candidates = none ↔
    ∃ neighbor ∈ neighbors, answer neighbor = .failed := by
  induction neighbors generalizing candidates with
  | nil => simp [collectCandidates]
  | cons neighbor neighbors ih =>
    rw [collectCandidates]
    cases hanswer : answer neighbor with
    | failed => simp [hanswer]
    | wrong => simp [hanswer, ih]
    | answer info => simp [hanswer, ih]

/-- Each reply extends the groups of the neighbors asked before. -/
theorem collectCandidates_groups (grouped : Groups (reported answer) asked candidates)
    (h : collectCandidates answer neighbors candidates = some found) :
    Groups (reported answer) (asked ++ neighbors) found := by
  induction neighbors generalizing asked candidates with
  | nil =>
    cases h
    rw [List.append_nil]
    exact grouped
  | cons neighbor neighbors ih =>
    rw [collectCandidates] at h
    rw [List.append_cons]
    cases hanswer : answer neighbor with
    | failed => simp [hanswer] at h
    | wrong =>
      rw [hanswer] at h
      exact ih (grouped.skip (by simp [reported, hanswer])) h
    | answer info =>
      rw [hanswer] at h
      dsimp only at h
      rw [addCandidate_eq] at h
      have reports : reported answer neighbor = some info := by simp [reported, hanswer]
      exact ih (grouped.push reports) h

theorem maxCandidate_eq (candidates : List (BlockInfo × List String)) :
    maxCandidate candidates = lastMax candidateLe candidates := by
  cases candidates <;> rfl

theorem maxCandidate_isSome (nonempty : candidates ≠ []) :
    ∃ best, maxCandidate candidates = some best := by
  rw [maxCandidate_eq]
  exact lastMax_isSome nonempty

theorem candidateLe_iff {a b : BlockInfo × List String} : candidateLe a b = true ↔
    a.2.length < b.2.length ∨ a.2.length = b.2.length ∧ a.1.height ≤ b.1.height := by
  simp [candidateLe]

theorem candidateLe_total (a b : BlockInfo × List String) :
    candidateLe a b = true ∨ candidateLe b a = true := by
  rw [candidateLe_iff, candidateLe_iff]
  rcases lt_trichotomy a.2.length b.2.length with fewer | same | more
  · exact .inl (.inl fewer)
  · rcases UInt64.le_total a.1.height b.1.height with low | low
    · exact .inl (.inr ⟨same, low⟩)
    · exact .inr (.inr ⟨same.symm, low⟩)
  · exact .inr (.inl more)

theorem candidateLe_trans (a b c : BlockInfo × List String) (hab : candidateLe a b = true)
    (hbc : candidateLe b c = true) : candidateLe a c = true := by
  rw [candidateLe_iff] at hab hbc ⊢
  rcases hab with hab | ⟨hab, low⟩
  · omega
  · rcases hbc with hbc | ⟨hbc, high⟩
    · omega
    · exact .inr ⟨hab.trans hbc, UInt64.le_trans low high⟩

/-- The largest group is that of a block info most neighbors report. -/
theorem maxCandidate_mostReported (grouped : Groups (reported answer) neighbors candidates)
    {info : BlockInfo} {peers : List String} (h : maxCandidate candidates = some (info, peers)) :
    MostReported answer neighbors info ∧ peers = reporters answer neighbors info := by
  rw [maxCandidate_eq] at h
  obtain ⟨hmem, hbest⟩ := lastMax_spec candidateLe_total candidateLe_trans h
  obtain ⟨rfl, known⟩ := (grouped info peers).mp hmem
  have largest : ∀ other,
      (reporters answer neighbors other).length < (reporters answer neighbors info).length ∨
        (reporters answer neighbors other).length = (reporters answer neighbors info).length ∧
          other.height ≤ info.height := by
    intro other
    by_cases unknown : reporters answer neighbors other = []
    · left
      rw [unknown]
      exact List.length_pos_iff.mpr known
    · exact candidateLe_iff.mp (hbest _ ((grouped other _).mpr ⟨rfl, unknown⟩))
  refine ⟨⟨known, fun other => ?_, fun other same => ?_⟩, rfl⟩
  · rcases largest other with fewer | ⟨same, -⟩
    · exact fewer.le
    · exact same.le
  · rcases largest other with fewer | ⟨-, low⟩
    · omega
    · exact low

end Candidates

section Searches

variable {A B C T : Type} {env : BlockEnv A B C T} {neighbors : List String}

/-- What a search that goes through finds. Candidates may be iterated in any order. -/
theorem bestLastBlock_ok {s : Handling A B C T} (listed : env.getNeighbors = .answer neighbors)
    (iterated : ∀ candidates, (env.iterate candidates).Perm candidates) {height : UInt64}
    {trustedPeers : List String} (h : result (bestLastBlock env) s = .ok (height, trustedPeers)) :
    ∃ info, MostReported env.getLastBlockInfo neighbors info ∧ height = info.height ∧
      trustedPeers = reporters env.getLastBlockInfo neighbors info := by
  rw [bestLastBlock, listed] at h
  dsimp only at h
  cases hcollect : collectCandidates env.getLastBlockInfo neighbors [] with
  | none =>
    rw [hcollect] at h
    cases h
  | some candidates =>
    rw [hcollect] at h
    dsimp only at h
    have grouped : Groups (reported env.getLastBlockInfo) neighbors (env.iterate candidates) :=
      (collectCandidates_groups (groups_nil _) hcollect).perm (iterated candidates)
    cases hmax : maxCandidate (env.iterate candidates) with
    | none =>
      rw [hmax] at h
      cases h
    | some best =>
      rw [hmax] at h
      cases h
      obtain ⟨most, hpeers⟩ := maxCandidate_mostReported grouped hmax
      exact ⟨best.1, most, rfl, hpeers⟩

/-- A search goes through where a neighbor answers and no request fails. -/
theorem bestLastBlock_isOk (s : Handling A B C T) (listed : env.getNeighbors = .answer neighbors)
    (iterated : ∀ candidates, (env.iterate candidates).Perm candidates)
    (answered : ∃ neighbor ∈ neighbors, ∃ info, env.getLastBlockInfo neighbor = .answer info)
    (served : ∀ neighbor ∈ neighbors, env.getLastBlockInfo neighbor ≠ .failed) :
    ∃ height trustedPeers, result (bestLastBlock env) s = .ok (height, trustedPeers) := by
  obtain ⟨candidates, hcollect⟩ : ∃ candidates,
      collectCandidates env.getLastBlockInfo neighbors [] = some candidates := by
    rw [← Option.ne_none_iff_exists']
    intro hnone
    obtain ⟨neighbor, hneighbor, hfailed⟩ := collectCandidates_eq_none_iff.mp hnone
    exact served neighbor hneighbor hfailed
  have grouped : Groups (reported env.getLastBlockInfo) neighbors (env.iterate candidates) :=
    (collectCandidates_groups (groups_nil _) hcollect).perm (iterated candidates)
  have nonempty : env.iterate candidates ≠ [] := by
    obtain ⟨neighbor, hneighbor, info, hinfo⟩ := answered
    have own : neighbor ∈ reporters env.getLastBlockInfo neighbors info :=
      mem_under.mpr ⟨hneighbor, by simp [reported, hinfo]⟩
    exact List.ne_nil_of_mem ((grouped info _).mpr ⟨rfl, List.ne_nil_of_mem own⟩)
  obtain ⟨best, hmax⟩ := maxCandidate_isSome nonempty
  refine ⟨best.1.height, best.2, ?_⟩
  rw [bestLastBlock, listed]
  dsimp only
  rw [hcollect]
  dsimp only
  rw [hmax]
  rfl

/-- Where a neighbor answers, the search finds a block that most report and the neighbors
that report it, unless a request fails: then it fails as well. -/
theorem bestLastBlock_mostReported (s : Handling A B C T)
    (listed : env.getNeighbors = .answer neighbors)
    (answered : ∃ neighbor ∈ neighbors, ∃ info, env.getLastBlockInfo neighbor = .answer info)
    (iterated : ∀ candidates, (env.iterate candidates).Perm candidates) :
    ((∀ neighbor ∈ neighbors, env.getLastBlockInfo neighbor ≠ .failed) →
      ∃ info, MostReported env.getLastBlockInfo neighbors info ∧
        result (bestLastBlock env) s =
          .ok (info.height, reporters env.getLastBlockInfo neighbors info)) ∧
    ((∃ neighbor ∈ neighbors, env.getLastBlockInfo neighbor = .failed) →
      result (bestLastBlock env) s = .error .comm) := by
  constructor
  · intro served
    obtain ⟨height, trustedPeers, h⟩ := bestLastBlock_isOk s listed iterated answered served
    obtain ⟨info, most, rfl, rfl⟩ := bestLastBlock_ok listed iterated h
    exact ⟨info, most, h⟩
  · intro failed
    rw [bestLastBlock, listed]
    dsimp only
    rw [collectCandidates_eq_none_iff.mpr failed]
    rfl

/-- An alignment starts only towards a block that most report and that is above the node's
own, and the neighbors that report it are trusted. -/
theorem align_mostReported (s : Handling A B C T) (listed : env.getNeighbors = .answer neighbors)
    (iterated : ∀ candidates, (env.iterate candidates).Perm candidates) :
    after (align env) s = s ∨ ∃ info, MostReported env.getLastBlockInfo neighbors info ∧
      s.service.height < info.height ∧
      after (align env) s = ⟨{ s.service with alignmentSender := true }, s.out ++
        [.msg .transactionService .alignmentStarted,
          .alignmentThread info.height (reporters env.getLastBlockInfo neighbors info)]⟩ := by
  rcases align_after env s with same | ⟨-, height, trustedPeers, behind, hbest, hafter⟩
  · exact .inl same
  · obtain ⟨info, most, rfl, rfl⟩ := bestLastBlock_ok listed iterated hbest
    exact .inr ⟨info, most, behind, hafter⟩

end Searches

end BlockService

/-! ## A request that fails after others were answered -/

namespace Sample

open BlockService

/-- Bob and carol report a block of height two and erin one of height three, while dave's
reply is of another kind. -/
def busyNeighbors (neighbor : String) : Reply BlockInfo :=
  if neighbor = "bob" ∨ neighbor = "carol" then .answer ⟨2, Hash.default⟩
  else if neighbor = "erin" then .answer ⟨3, Hash.default⟩
  else .wrong

def busyEnv : BlockEnv Hash Block Confirmation Transaction :=
  { stingyEnv with
    getNeighbors := .answer ["bob", "dave", "erin", "carol"]
    getLastBlockInfo := busyNeighbors }

theorem two_neighbors_are_trusted :
    (∃ info, MostReported busyNeighbors ["bob", "dave", "erin", "carol"] info ∧
      result (bestLastBlock busyEnv) ⟨unaligned.blockService, []⟩ =
        .ok (info.height, reporters busyNeighbors ["bob", "dave", "erin", "carol"] info)) ∧
      reporters busyNeighbors ["bob", "dave", "erin", "carol"] ⟨2, Hash.default⟩ =
        ["bob", "carol"] := by
  have listed : busyEnv.getNeighbors = .answer ["bob", "dave", "erin", "carol"] := rfl
  have found := bestLastBlock_mostReported ⟨unaligned.blockService, []⟩ listed
    ⟨"bob", by decide, _, rfl⟩ fun _ => List.Perm.refl _
  refine ⟨found.1 ?_, by decide⟩
  intro neighbor _
  change busyNeighbors neighbor ≠ .failed
  unfold busyNeighbors
  split_ifs <;> simp

/-- Bob answers, carol does not. -/
def brokenEnv : BlockEnv Hash Block Confirmation Transaction :=
  { stingyEnv with
    getNeighbors := .answer ["bob", "carol"]
    getLastBlockInfo := fun neighbor =>
      if neighbor = "bob" then .answer ⟨2, Hash.default⟩ else .failed }

theorem unanswered_request_ends_search :
    brokenEnv.getNeighbors = .answer ["bob", "carol"] ∧
      brokenEnv.getLastBlockInfo "bob" = .answer ⟨2, Hash.default⟩ ∧
      result (bestLastBlock brokenEnv) ⟨unaligned.blockService, []⟩ = .error .comm :=
  ⟨rfl, rfl, rfl⟩

end Sample

end Trinci
