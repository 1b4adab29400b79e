import Trinci.CallTrees
import Trinci.ErrorTexts
import Trinci.PlayersReaders

/-!
# The keys of an account by a pattern

A contract searches the keys of its account by a pattern that ends with a star. The last
byte of the pattern is taken off as a text to see whether it is the star: that is a text
only if the last character has one byte.
-/

namespace Trinci

/-- The last character, where there is one, has one byte. -/
def EndsInByte (pattern : String) : Prop := ∀ c, pattern.toList.getLast? = some c → c.utf8Size = 1

section Slices

variable {pattern : String}

/-- A text is empty or has a last character. -/
theorem eq_empty_or_push (pattern : String) :
    pattern = "" ∨ ∃ pre c, pattern = pre ++ String.singleton c := by
  rcases List.eq_nil_or_concat pattern.toList with hempty | ⟨chars, c, hlast⟩
  · left
    rw [← String.toList_inj, hempty]
    rfl
  · right
    refine ⟨String.ofList chars, c, ?_⟩
    rw [← String.toList_inj, hlast, String.toList_append, String.toList_ofList,
      String.toList_singleton, List.concat_eq_append]

theorem getLast?_push (pre : String) (c : Char) :
    (pre ++ String.singleton c).toList.getLast? = some c := by
  rw [String.toList_append, String.toList_singleton]
  exact List.getLast?_concat

end Slices

/-! ## The keys of an account -/

namespace Accounts

variable {accounts : Accounts} {owner : String}

theorem loadAccountKeys_nodup : (accounts.loadAccountKeys owner).Nodup := by
  have keyed : accounts.data.entries.NodupKeys := accounts.data.nodupKeys
  rw [loadAccountKeys, dataOf, ((List.perm_insertionSort _ _).map Prod.fst).nodup_iff, List.map_map]
  refine List.Nodup.map_on ?_ (keyed.nodup.filter _)
  intro entry hentry other hother same
  rw [List.mem_filter, beq_iff_eq] at hentry hother
  have owners : entry.1.1 = other.1.1 := hentry.2.trans hother.2.symm
  exact keyed.eq_of_fst_eq hentry.1 hother.1 (Prod.ext owners same)

/-- The keys that begin with a text, each once and in the order of the account. -/
structure Lists (accounts : Accounts) (owner pre : String) (keys : List String) : Prop where
  ordered : keys.Sublist (accounts.loadAccountKeys owner)
  nodup : keys.Nodup
  mem_iff : ∀ key, key ∈ keys ↔
    (accounts.loadAccountData owner key).isSome ∧ ∃ rest, key = pre ++ rest

theorem startsWith_iff {pre key : String} : key.startsWith pre = true ↔ ∃ rest, key = pre ++ rest := by
  rw [String.startsWith_string_iff]
  constructor
  · rintro ⟨rest, hrest⟩
    refine ⟨String.ofList rest, ?_⟩
    rw [← String.toList_inj, String.toList_append, String.toList_ofList, hrest]
  · rintro ⟨rest, rfl⟩
    rw [String.toList_append]
    exact List.prefix_append ..

end Accounts

/-! ## The answer -/

namespace HostFunc

variable [WasmEngine] [WmCodec] {ctx : CallArgs} {f : Frame} {pattern pre : String}

omit [WmCodec] in
/-- An empty pattern lists every key, as every key begins with it. -/
theorem getKeys_lists (ctx : CallArgs) (f : Frame) (pre : String) :
    f.accounts.Lists ctx.owner pre (getKeys ctx f pre) where
  ordered := List.filter_sublist
  nodup := Accounts.loadAccountKeys_nodup.filter _
  mem_iff key := by
    rw [getKeys, List.mem_filter, Accounts.mem_loadAccountKeys_iff, Bool.or_eq_true,
      Accounts.startsWith_iff]
    refine and_congr_right fun _ => or_iff_right_of_imp fun hempty => ?_
    rw [String.isEmpty_iff] at hempty
    exact ⟨key, by rw [hempty, String.empty_append]⟩

/-- What a contract should be told: that its pattern has no star at the end, or the keys
that begin with what is before the star. -/
inductive KeysAnswer (accounts : Accounts) (owner pattern : String) : AppOutput → Prop
  | refused (reason : Bytes) : (¬ ∃ pre, pattern = pre ++ "*") →
      KeysAnswer accounts owner pattern ⟨false, reason⟩
  | listed {pre : String} {keys : List String} : pattern = pre ++ "*" →
      accounts.Lists owner pre keys → KeysAnswer accounts owner pattern ⟨true, WmCodec.keys keys⟩

/-- The search does not panic, and its answer is the right one. -/
def Searched (ctx : CallArgs) (f : Frame) (pattern : String) : Prop :=
  ∃ output, keysOutput ctx f pattern = .ok (WmCodec.appOutput output) ∧
    KeysAnswer f.accounts ctx.owner pattern output

omit [WasmEngine] [WmCodec] in
theorem getLast?_star_iff : pattern.toList.getLast? = some '*' ↔ ∃ pre, pattern = pre ++ "*" := by
  constructor
  · intro h
    rcases eq_empty_or_push pattern with rfl | ⟨pre, c, rfl⟩
    · cases h
    · rw [getLast?_push] at h
      obtain rfl := Option.some.inj h
      exact ⟨pre, rfl⟩
  · rintro ⟨pre, rfl⟩
    exact getLast?_push pre '*'

omit [WasmEngine] [WmCodec] in
/-- Patterns with a last character of several bytes are those on which the search panics. -/
theorem any_wide_iff :
    (pattern.toList.getLast?.any fun c => 1 < c.utf8Size) = true ↔ ¬ EndsInByte pattern := by
  rw [Option.any_eq_true, EndsInByte]
  constructor
  · rintro ⟨c, hc, hwide⟩ single
    have hone := single c hc
    rw [decide_eq_true_eq] at hwide
    omega
  · intro h
    push Not at h
    obtain ⟨c, hc, hwide⟩ := h
    have hpos := c.utf8Size_pos
    refine ⟨c, hc, ?_⟩
    rw [decide_eq_true_eq]
    omega

theorem keysOutput_panics (h : ¬ EndsInByte pattern) :
    keysOutput ctx f pattern = .error .keysPattern := by
  rw [keysOutput, if_pos (any_wide_iff.mpr h)]

theorem keysOutput_star (single : EndsInByte (pre ++ "*")) :
    keysOutput ctx f (pre ++ "*") =
      .ok (WmCodec.appOutput ⟨true, WmCodec.keys (getKeys ctx f pre)⟩) := by
  have quiet := fun h => any_wide_iff.mp h single
  have cut : String.ofList (pre ++ "*").toList.dropLast = pre := by
    rw [String.toList_append]
    exact (congrArg String.ofList (List.dropLast_concat ..)).trans String.ofList_toList
  rw [keysOutput, if_neg quiet, if_pos (getLast?_star_iff.mpr ⟨pre, rfl⟩), cut]

theorem keysOutput_starless (single : EndsInByte pattern)
    (starless : ¬ ∃ pre, pattern = pre ++ "*") : keysOutput ctx f pattern =
      .ok (WmCodec.appOutput ⟨false, bytesOf "last char of search pattern must be '*'"⟩) := by
  have quiet := fun h => any_wide_iff.mp h single
  rw [keysOutput, if_neg quiet, if_neg fun h => starless (getLast?_star_iff.mp h)]

/-- For every account, every frame and every pattern: the search is answered as it should
be exactly if the last character of the pattern has one byte. -/
theorem searched_iff_endsInByte (ctx : CallArgs) (f : Frame) (pattern : String) :
    Searched ctx f pattern ↔ EndsInByte pattern := by
  constructor
  · rintro ⟨output, houtput, -⟩
    by_contra wide
    rw [keysOutput_panics wide] at houtput
    cases houtput
  · intro single
    by_cases hstar : ∃ pre, pattern = pre ++ "*"
    · obtain ⟨pre, rfl⟩ := hstar
      exact ⟨_, keysOutput_star single, .listed rfl (getKeys_lists ctx f pre)⟩
    · exact ⟨_, keysOutput_starless single hstar, .refused _ hstar⟩

end HostFunc

/-! ## A pattern with an accent -/

namespace Sample

section Search

local instance quietEngine : WasmEngine := scripted fun _ => .ok ⟨[], [], .ok [1]⟩

/-- A search for keys that begin with coffee, which forgets the star. -/
theorem accented_pattern_panics :
    let ctx := callOf "shop" 1 1000
    let f : Frame := ⟨worldOf 1 (deployed [("shop", 1)]), [], false, true⟩
    HostFunc.keysOutput ctx f "café" = .error .keysPattern ∧ ¬ HostFunc.Searched ctx f "café" := by
  intro ctx f
  have panics : HostFunc.keysOutput ctx f "café" = .error .keysPattern := by rfl
  refine ⟨panics, ?_⟩
  rintro ⟨output, houtput, -⟩
  rw [panics] at houtput
  cases houtput

end Search

end Sample

end Trinci
