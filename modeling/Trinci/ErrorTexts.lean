import Mathlib.Data.List.Chain
import Trinci.TextCuts
import Trinci.WasmService

/-!
# The texts of errors

An error is shown as its kind, a separator and the text it carries, which is cut after
a number of bytes. The kind alone is found again by splitting what is shown at the
separator. Contracts choose the text of a fault, and two kinds of errors carry none: the
cut can fall inside a character, and the separator can be missing.
-/

namespace Trinci

open TextCuts

/-! ## Texts as bytes -/

theorem bytesOf_eq_encode (text : String) : bytesOf text = encode text.toList :=
  toByteArray_eq_encode text

theorem bytesOf_append (text later : String) :
    bytesOf (text ++ later) = bytesOf text ++ bytesOf later := by
  rw [bytesOf_eq_encode, bytesOf_eq_encode, bytesOf_eq_encode, String.toList_append, encode_append]

theorem isCharBoundary_iff_isCut (bytes : Bytes) (n : Nat) :
    isCharBoundary bytes n = true ↔ IsCut bytes n := by
  rw [isCharBoundary, IsCut, Bool.or_eq_true, beq_iff_eq, Option.any_eq_true]
  refine or_congr_right (exists_congr fun byte => and_congr_right fun _ => ?_)
  rw [Bool.or_eq_true, decide_eq_true_eq, decide_eq_true_eq]
  rfl

/-- A text can be cut after some bytes if they are the bytes of a beginning of it. -/
theorem isCharBoundary_iff (text : String) (n : Nat) :
    isCharBoundary (bytesOf text) n = true ↔
      ∃ cut rest, text = cut ++ rest ∧ (bytesOf cut).length = n := by
  rw [isCharBoundary_iff_isCut, bytesOf_eq_encode, isCut_encode_iff]
  constructor
  · rintro ⟨cut, rest, htext, hcut⟩
    refine ⟨String.ofList cut, String.ofList rest, ?_, ?_⟩
    · rw [← String.ofList_append, ← htext, String.ofList_toList]
    · rw [bytesOf_eq_encode, String.toList_ofList, hcut]
  · rintro ⟨cut, rest, htext, hcut⟩
    refine ⟨cut.toList, rest.toList, ?_, ?_⟩
    · rw [htext, String.toList_append]
    · rw [← bytesOf_eq_encode, hcut]

/-! ## The cut -/

/-- How many bytes of a text are quoted. -/
def quotedLength : Nat := maxErrorSourceStringLength - 2

/-- The text is short, or a character of it ends with the last byte that is quoted. -/
def CutsCleanly (e : String) : Prop :=
  (bytesOf e).length ≤ quotedLength ∨ ∃ cut rest, e = cut ++ rest ∧ (bytesOf cut).length = quotedLength

theorem formatErrorString_ok {e : String} {quoted : Bytes} (h : formatErrorString e = .ok quoted) :
    ∃ cut rest, e = cut ++ rest ∧ (bytesOf cut).length ≤ quotedLength ∧ quoted = bytesOf cut := by
  rw [formatErrorString] at h
  split at h
  · next hboundary =>
    obtain ⟨cut, rest, rfl, hcut⟩ := (isCharBoundary_iff e _).mp hboundary
    refine ⟨cut, rest, rfl, ?_, ?_⟩
    · rw [hcut]
      exact Nat.min_le_right ..
    · rw [← Except.ok.inj h, ← hcut, bytesOf_append, List.take_left]
  · cases h

theorem formatErrorString_isOk_iff (e : String) :
    (∃ quoted, formatErrorString e = .ok quoted) ↔ CutsCleanly e := by
  have whole : isCharBoundary (bytesOf e) (bytesOf e).length = true :=
    (isCharBoundary_iff_isCut _ _).mpr (.inl rfl)
  constructor
  · rintro ⟨quoted, h⟩
    by_cases hshort : (bytesOf e).length ≤ quotedLength
    · exact .inl hshort
    · right
      rw [formatErrorString] at h
      split at h
      · next hboundary =>
        obtain ⟨cut, rest, happend, hcut⟩ := (isCharBoundary_iff e _).mp hboundary
        refine ⟨cut, rest, happend, hcut.trans (Nat.min_eq_right ?_)⟩
        exact (Nat.lt_of_not_le hshort).le
      · cases h
  · rintro (hshort | ⟨cut, rest, happend, hcut⟩)
    · refine ⟨_, if_pos ?_⟩
      rw [quotedLength] at hshort
      rw [Nat.min_eq_left hshort]
      exact whole
    · have hlong : quotedLength ≤ (bytesOf e).length := by
        rw [happend, bytesOf_append, List.length_append]
        omega
      refine ⟨_, if_pos ?_⟩
      rw [quotedLength] at hlong
      rw [Nat.min_eq_right hlong]
      exact (isCharBoundary_iff e _).mpr ⟨cut, rest, happend, hcut⟩

/-! ## Splitting at a separator -/

/-- `split_once` -/
def splitOnce (separator : Bytes) : Bytes → Option (Bytes × Bytes)
  | [] => none
  | byte :: text =>
    if separator.isPrefixOf (byte :: text) then some ([], (byte :: text).drop separator.length)
    else (splitOnce separator text).map fun parts => (byte :: parts.1, parts.2)

section Splitting

variable {first : UInt8} {separator pre text : Bytes}

/-- A separator is found after bytes that it does not begin with. -/
theorem splitOnce_append (h : ∀ byte ∈ pre, byte ≠ first) :
    splitOnce (first :: separator) (pre ++ (first :: separator) ++ text) = some (pre, text) := by
  induction pre with
  | nil =>
    have found : (first :: separator).isPrefixOf (first :: (separator ++ text)) = true :=
      List.isPrefixOf_iff_prefix.mpr (List.prefix_append (first :: separator) text)
    change splitOnce (first :: separator) (first :: (separator ++ text)) = _
    rw [splitOnce, if_pos found]
    exact congrArg (fun rest => some ([], rest)) List.drop_left
  | cons byte pre ih =>
    have other : byte ≠ first := h byte (List.mem_cons_self ..)
    have missed : ¬ (first :: separator).isPrefixOf
        (byte :: (pre ++ (first :: separator) ++ text)) = true := by
      intro found
      obtain ⟨rest, hrest⟩ := List.isPrefixOf_iff_prefix.mp found
      exact other (List.cons.inj hrest).1.symm
    have later := ih fun byte hbyte => h byte (List.mem_cons_of_mem _ hbyte)
    change splitOnce (first :: separator) (byte :: (pre ++ (first :: separator) ++ text)) = _
    rw [splitOnce, if_neg missed, later]
    rfl

/-- A separator of two bytes that never follow each other is not found. -/
theorem splitOnce_none {second : UInt8}
    (h : text.IsChain fun a b => ¬ (a = first ∧ b = second)) :
    splitOnce [first, second] text = none := by
  induction text with
  | nil => rfl
  | cons byte text ih =>
    have missed : ¬ [first, second].isPrefixOf (byte :: text) = true := by
      intro found
      obtain ⟨rest, hrest⟩ := List.isPrefixOf_iff_prefix.mp found
      obtain ⟨rfl, rfl⟩ := List.cons.inj hrest
      exact (List.isChain_cons_cons.mp h).1 ⟨rfl, rfl⟩
    rw [splitOnce, if_neg missed, ih h.tail]
    rfl

end Splitting

/-! ## What is shown -/

/-- A label and a hash in hexadecimal, before the rest of a text. -/
def labelled (label : String) (hash : Hash) (later : String) : String :=
  label ++ hexEncode hash.asBytes ++ later

/-- The whole text of a mismatch. -/
def mismatchText (blockData : BlockData) (stateHash txsRoot rxsRoot : Hash) : String :=
  labelled "Hashes mismatch after block execution. Calculated:\n\tstate_hash - " stateHash <|
  labelled "\n\ttxs_root - " txsRoot <|
  labelled "\n\trxs_root - " rxsRoot <|
  labelled "\nExpected:\n\tstate_hash - " blockData.stateHash <|
  labelled "\n\ttxs_root - " blockData.txsHash <|
  labelled "\n\trxs_root - " blockData.rxsHash ""

namespace WasmError

/-- The text that the error carries. -/
def source (err : WasmError) : Option String := err.text.2

/-- `fmt`, with the whole text of a mismatch. -/
def display : WasmError → Except MachinePanic Bytes
  | .blockExecutionMismatch blockData stateHash txsRoot rxsRoot =>
    .ok (bytesOf (mismatchText blockData stateHash txsRoot rxsRoot))
  | err => err.message

/-- `to_string_kind`: nothing where its `expect` finds no separator. -/
def toStringKind (err : WasmError) : Except MachinePanic (Option Bytes) := do
  let shown ← err.display
  return (splitOnce (bytesOf ": ") shown).map Prod.fst

/-- The errors that carry a text show it after their kind. -/
theorem display_of_source {err : WasmError} {e : String} (h : err.source = some e) :
    err.display = (formatErrorString e).map fun quoted =>
      bytesOf err.text.1 ++ bytesOf ": " ++ quoted := by
  cases err with
  | bulkExecutionFault receipt => cases h
  | blockExecutionMismatch blockData stateHash txsRoot rxsRoot => cases h
  | _ =>
    cases h
    simp only [display, message, text]
    cases formatErrorString e <;> rfl

theorem separator_eq : bytesOf ": " = [58, 32] := by decide +kernel

theorem kind_quiet (err : WasmError) : ∀ byte ∈ bytesOf err.text.1, byte ≠ 58 := by
  have quiet : ∀ kind ∈ ["account fault", "bulk execution fault",
      "Hashes mismatch after block execution", "burning fuel error", "invalid contract hash",
      "not implemented", "resource not found", "smart contract fault", "wasm machine fault"],
      ∀ byte ∈ bytesOf kind, byte ≠ 58 := by decide +kernel
  apply quiet
  cases err <;> simp [text]

theorem toStringKind_of_source {err : WasmError} {e : String} (h : err.source = some e) :
    err.toStringKind = (formatErrorString e).map fun _ => some (bytesOf err.text.1) := by
  rw [toStringKind, display_of_source h]
  cases formatErrorString e with
  | error p => rfl
  | ok quoted =>
    change Except.ok ((splitOnce _ _).map Prod.fst) = _
    rw [separator_eq, splitOnce_append err.kind_quiet]
    rfl

end WasmError

/-! ## A mismatch shows no separator -/

/-- No colon is followed by a blank. -/
abbrev Unseparated (bytes : Bytes) : Prop := bytes.IsChain fun a b => ¬ (a = 58 ∧ b = 32)

theorem unseparated_of_no_colon {bytes : Bytes} (h : ∀ byte ∈ bytes, byte ≠ 58) :
    Unseparated bytes := by
  induction bytes with
  | nil => exact List.isChain_nil
  | cons byte bytes ih =>
    have here : byte ≠ 58 := h byte (List.mem_cons_self ..)
    have later := ih fun byte hbyte => h byte (List.mem_cons_of_mem _ hbyte)
    exact List.isChain_cons.mpr ⟨fun _ _ both => here both.1, later⟩

/-- Texts in a row, where the first does not end in a colon. -/
theorem Unseparated.append {bytes later : Bytes} (h : Unseparated bytes)
    (hlater : Unseparated later) (ends : bytes.getLast? ≠ some 58) : Unseparated (bytes ++ later) := by
  refine List.isChain_append.mpr ⟨h, hlater, ?_⟩
  rintro a ha b hb ⟨rfl, -⟩
  exact ends ha

theorem hexDigit_bytes (n : UInt8) : ∀ byte ∈ String.utf8EncodeChar (hexDigit n), byte ≠ 58 := by
  have digits : ('0' :: "0123456789abcdef".toList).all (fun c =>
      (String.utf8EncodeChar c).all fun byte => byte != 58) = true := by decide +kernel
  have others : ∀ c ∈ '0' :: "0123456789abcdef".toList,
      ∀ byte ∈ String.utf8EncodeChar c, byte ≠ 58 := by
    intro c hc byte hbyte
    have hall := List.all_eq_true.mp (List.all_eq_true.mp digits c hc) byte hbyte
    exact bne_iff_ne.mp hall
  apply others
  rw [hexDigit, List.getD_eq_getElem?_getD]
  cases hdigit : "0123456789abcdef".toList[n.toNat]? with
  | none => exact List.mem_cons_self ..
  | some c => exact List.mem_cons_of_mem _ (List.mem_of_getElem? hdigit)

theorem hexEncode_bytes (bytes : Bytes) : ∀ byte ∈ bytesOf (hexEncode bytes), byte ≠ 58 := by
  intro byte hbyte
  rw [bytesOf_eq_encode, hexEncode, String.toList_ofList, encode, List.mem_flatMap] at hbyte
  obtain ⟨c, hc, hbyte⟩ := hbyte
  obtain ⟨digits, -, hc⟩ := List.mem_flatMap.mp hc
  rcases List.mem_pair.mp hc with rfl | rfl
  · exact hexDigit_bytes _ byte hbyte
  · exact hexDigit_bytes _ byte hbyte

theorem unseparated_labelled {label : String} (hlabel : Unseparated (bytesOf label))
    (ends : (bytesOf label).getLast? ≠ some 58) (hash : Hash) {later : String}
    (hlater : Unseparated (bytesOf later)) : Unseparated (bytesOf (labelled label hash later)) := by
  have quiet := hexEncode_bytes hash.asBytes
  rw [labelled, bytesOf_append, bytesOf_append, List.append_assoc]
  refine hlabel.append ?_ ends
  refine (unseparated_of_no_colon quiet).append hlater fun last => ?_
  exact quiet 58 (List.mem_of_getLast? last) rfl

theorem mismatchText_unseparated (blockData : BlockData) (stateHash txsRoot rxsRoot : Hash) :
    Unseparated (bytesOf (mismatchText blockData stateHash txsRoot rxsRoot)) := by
  refine unseparated_labelled (by decide +kernel) (by decide +kernel) stateHash ?_
  refine unseparated_labelled (by decide +kernel) (by decide +kernel) txsRoot ?_
  refine unseparated_labelled (by decide +kernel) (by decide +kernel) rxsRoot ?_
  refine unseparated_labelled (by decide +kernel) (by decide +kernel) blockData.stateHash ?_
  refine unseparated_labelled (by decide +kernel) (by decide +kernel) blockData.txsHash ?_
  refine unseparated_labelled (by decide +kernel) (by decide +kernel) blockData.rxsHash ?_
  exact List.isChain_nil

namespace WasmError

/-- Without a text there is no separator. -/
theorem toStringKind_of_no_source {err : WasmError} (h : err.source = none) :
    err.toStringKind = .ok none := by
  cases err with
  | bulkExecutionFault receipt =>
    change Except.ok ((splitOnce (bytesOf ": ") (bytesOf "bulk execution fault")).map Prod.fst) = _
    have quiet : ∀ byte ∈ bytesOf "bulk execution fault", byte ≠ 58 := by decide +kernel
    rw [separator_eq, splitOnce_none (unseparated_of_no_colon quiet)]
    rfl
  | blockExecutionMismatch blockData stateHash txsRoot rxsRoot =>
    change Except.ok ((splitOnce (bytesOf ": ") (bytesOf (mismatchText _ _ _ _))).map Prod.fst) = _
    rw [separator_eq, splitOnce_none (mismatchText_unseparated _ _ _ _)]
    rfl
  | _ => cases h

/-- The executor's kinds are those found in the texts. -/
theorem toStringKind_eq_kind? (err : WasmError) : err.toStringKind = err.kind? := by
  cases hsource : err.source with
  | none =>
    rw [toStringKind_of_no_source hsource]
    cases err with
    | bulkExecutionFault receipt => rfl
    | blockExecutionMismatch blockData stateHash txsRoot rxsRoot => rfl
    | _ => cases hsource
  | some e =>
    rw [toStringKind_of_source hsource]
    cases err with
    | bulkExecutionFault receipt => cases hsource
    | blockExecutionMismatch blockData stateHash txsRoot rxsRoot => cases hsource
    | _ =>
      cases hsource
      simp only [kind?, text]
      cases formatErrorString e <;> rfl

/-! ## Errors that can be read -/

/-- The error is shown and its kind is found, without a panic, and what is quoted of its
text is a beginning of the text within the limit. -/
structure Readable (err : WasmError) : Prop where
  displayed : ∃ shown, err.display = .ok shown
  kind : ∃ kind, err.toStringKind = .ok (some kind)
  quoted : ∀ e, err.source = some e → ∃ cut rest, e = cut ++ rest ∧
    (bytesOf cut).length ≤ quotedLength ∧
    err.display = .ok (bytesOf err.text.1 ++ bytesOf ": " ++ bytesOf cut)

/-- For every error: it can be read exactly if it carries a text that cuts cleanly. -/
theorem readable_iff_cutsCleanly (err : WasmError) :
    err.Readable ↔ ∃ e, err.source = some e ∧ CutsCleanly e := by
  constructor
  · intro readable
    cases hsource : err.source with
    | none =>
      obtain ⟨kind, hkind⟩ := readable.kind
      rw [toStringKind_of_no_source hsource] at hkind
      cases hkind
    | some e =>
      refine ⟨e, rfl, (formatErrorString_isOk_iff e).mp ?_⟩
      obtain ⟨shown, hshown⟩ := readable.displayed
      rw [display_of_source hsource] at hshown
      cases hquoted : formatErrorString e with
      | error p =>
        rw [hquoted] at hshown
        cases hshown
      | ok quoted => exact ⟨quoted, rfl⟩
  · rintro ⟨e, hsource, hcuts⟩
    obtain ⟨quoted, hquoted⟩ := (formatErrorString_isOk_iff e).mpr hcuts
    obtain ⟨cut, rest, happend, hlength, rfl⟩ := formatErrorString_ok hquoted
    have shown := display_of_source hsource
    have kind := toStringKind_of_source hsource
    rw [hquoted] at shown kind
    constructor
    · exact ⟨_, shown⟩
    · exact ⟨_, kind⟩
    · intro e' he'
      obtain rfl := Option.some.inj (hsource.symm.trans he')
      exact ⟨cut, rest, happend, hlength, shown⟩

end WasmError

/-- A fault of a contract whose text has 127 bytes, the last two of them of one character. -/
def Sample.accentedFault : WasmError :=
  .smartContractFault (String.ofList (List.replicate 125 'a' ++ ['è']))

theorem accentedFault_unreadable :
    Sample.accentedFault.display.toOption = none ∧ ¬ Sample.accentedFault.Readable := by
  have panics : Sample.accentedFault.display.toOption = none := by decide +kernel
  refine ⟨panics, fun readable => ?_⟩
  obtain ⟨shown, hshown⟩ := readable.displayed
  rw [hshown] at panics
  cases panics

/-! ## The receipt of a failed call -/

section Receipts

open StatefulSteps Exec

variable {W : Type}

/-- A unit whose call failed gets a receipt exactly if the error can be read. -/
theorem unitOutcome_returns_iff (err : WasmError) (s : Execution W) :
    (∃ out, result (WasmConfig.unitOutcome (.error err) : Exec W _) s = .ok out) ↔
      ∃ e, err.source = some e ∧ CutsCleanly e := by
  cases hsource : err.source with
  | none =>
    constructor
    · rintro ⟨out, hout⟩
      cases err with
      | bulkExecutionFault receipt => cases hout
      | blockExecutionMismatch blockData stateHash txsRoot rxsRoot => cases hout
      | _ => cases hsource
    · rintro ⟨e, he, -⟩
      cases he
  | some e =>
    have cuts : (∃ e', some e = some e' ∧ CutsCleanly e') ↔ CutsCleanly e := by simp
    rw [cuts, ← formatErrorString_isOk_iff]
    cases hquoted : formatErrorString e with
    | error p =>
      have stopped : ¬ ∃ out, result (WasmConfig.unitOutcome (.error err) : Exec W _) s = .ok out := by
        rintro ⟨out, hout⟩
        cases err with
        | bulkExecutionFault receipt => cases hsource
        | blockExecutionMismatch blockData stateHash txsRoot rxsRoot => cases hsource
        | _ =>
          cases hsource
          simp only [WasmConfig.unitOutcome, WasmError.message, WasmError.kind?, WasmError.text,
            hquoted] at hout
          cases hout
      simp [stopped]
    | ok quoted =>
      have returned : ∃ out, result (WasmConfig.unitOutcome (.error err) : Exec W _) s = .ok out := by
        cases err with
        | bulkExecutionFault receipt => cases hsource
        | blockExecutionMismatch blockData stateHash txsRoot rxsRoot => cases hsource
        | _ =>
          cases hsource
          simp only [WasmConfig.unitOutcome, WasmError.message, WasmError.kind?, WasmError.text,
            hquoted]
          exact ⟨_, rfl⟩
      simp [returned]

end Receipts

end Trinci
