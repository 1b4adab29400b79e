import Mathlib.Init

/-!
# Where the bytes of a text can be cut

The bytes of a text are those of its characters, one after the other. A byte begins
a character or continues one, and its value tells which. A text can be cut at a byte
exactly where the bytes before it are those of some of its first characters.
-/

namespace TextCuts

/-- The value is one with which a character can begin. -/
def Leads (byte : UInt8) : Prop := byte < 0x80 ∨ 0xC0 ≤ byte

instance (byte : UInt8) : Decidable (Leads byte) := inferInstanceAs (Decidable (_ ∨ _))

def encode (text : List Char) : List UInt8 := text.flatMap String.utf8EncodeChar

@[simp]
theorem encode_nil : encode [] = [] := rfl

@[simp]
theorem encode_cons (c : Char) (text : List Char) :
    encode (c :: text) = String.utf8EncodeChar c ++ encode text := rfl

theorem encode_append (text later : List Char) :
    encode (text ++ later) = encode text ++ encode later := List.flatMap_append

/-- The end of the bytes, or a byte that begins a character. -/
def IsCut (bytes : List UInt8) (n : Nat) : Prop :=
  n = bytes.length ∨ ∃ byte, bytes[n]? = some byte ∧ Leads byte

theorem leads_iff (byte : UInt8) : Leads byte ↔ byte.toNat < 128 ∨ 192 ≤ byte.toNat := by
  rw [Leads, UInt8.lt_iff_toNat_lt, UInt8.le_iff_toNat_le]
  rfl

/-- A byte with the payload of a continuation. -/
theorem not_leads_of_continuation (payload : Nat) :
    ¬ Leads (UInt8.ofNat (payload % 64 + 128)) := by
  rw [leads_iff, UInt8.toNat_ofNat']
  omega

theorem leads_of_large {n : Nat} (h : 192 ≤ n) (small : n < 256) : Leads (UInt8.ofNat n) := by
  rw [leads_iff, UInt8.toNat_ofNat']
  omega

/-- The first byte of a character begins it and the others do not. -/
theorem char_bytes (c : Char) : ∃ first later, String.utf8EncodeChar c = first :: later ∧
    Leads first ∧ ∀ byte ∈ later, ¬ Leads byte := by
  unfold String.utf8EncodeChar
  dsimp only
  split
  · next h =>
    refine ⟨_, _, rfl, ?_, fun byte hbyte => by cases hbyte⟩
    rw [leads_iff, UInt8.toNat_ofNat']
    omega
  · split
    · refine ⟨_, _, rfl, leads_of_large (by omega) (by omega), ?_⟩
      simp only [List.mem_singleton, forall_eq]
      exact not_leads_of_continuation _
    · split
      · refine ⟨_, _, rfl, leads_of_large (by omega) (by omega), ?_⟩
        simp only [List.mem_cons, List.not_mem_nil, or_false, forall_eq_or_imp, forall_eq]
        exact ⟨not_leads_of_continuation _, not_leads_of_continuation _⟩
      · refine ⟨_, _, rfl, leads_of_large (by omega) (by omega), ?_⟩
        simp only [List.mem_cons, List.not_mem_nil, or_false, forall_eq_or_imp, forall_eq]
        exact ⟨not_leads_of_continuation _, not_leads_of_continuation _,
          not_leads_of_continuation _⟩

section Cuts

variable {bytes later : List UInt8} {n : Nat}

theorem isCut_append_right (n : Nat) : IsCut (bytes ++ later) (bytes.length + n) ↔ IsCut later n := by
  rw [IsCut, IsCut, List.getElem?_append_right (Nat.le_add_right ..), Nat.add_sub_cancel_left,
    List.length_append]
  constructor
  · rintro (h | h)
    · left
      omega
    · exact .inr h
  · rintro (h | h)
    · left
      omega
    · exact .inr h

theorem isCut_zero_encode (text : List Char) : IsCut (encode text) 0 := by
  cases text with
  | nil => exact .inl rfl
  | cons c text =>
    obtain ⟨first, later, hchar, hfirst, -⟩ := char_bytes c
    right
    rw [encode_cons, hchar]
    exact ⟨first, rfl, hfirst⟩

/-- Nothing can be cut inside the bytes of a character. -/
theorem not_isCut_inside {c : Char} (hpos : 0 < n)
    (hn : n < (String.utf8EncodeChar c).length) :
    ¬ IsCut (String.utf8EncodeChar c ++ later) n := by
  obtain ⟨first, rest, hchar, -, hrest⟩ := char_bytes c
  rw [hchar] at hn ⊢
  obtain ⟨m, rfl⟩ := Nat.exists_eq_add_of_lt hpos
  rintro (h | ⟨byte, hbyte, hleads⟩)
  · rw [List.length_append] at h
    omega
  · rw [List.getElem?_append_left hn] at hbyte
    have hmem : byte ∈ rest := by
      rw [Nat.zero_add, List.getElem?_cons_succ] at hbyte
      exact List.mem_of_getElem? hbyte
    exact hrest byte hmem hleads

end Cuts

/-- The cuts of a text are the ends of its beginnings. -/
theorem isCut_encode_iff (text : List Char) (n : Nat) : IsCut (encode text) n ↔
    ∃ cut rest, text = cut ++ rest ∧ (encode cut).length = n := by
  induction text generalizing n with
  | nil =>
    constructor
    · rintro (h | ⟨byte, hbyte, -⟩)
      · exact ⟨[], [], rfl, h.symm⟩
      · cases hbyte
    · rintro ⟨cut, rest, h, rfl⟩
      obtain ⟨rfl, -⟩ := List.append_eq_nil_iff.mp h.symm
      exact .inl rfl
  | cons c text ih =>
    constructor
    · intro h
      by_cases hzero : n = 0
      · exact ⟨[], c :: text, rfl, hzero.symm⟩
      · by_cases hinside : n < (String.utf8EncodeChar c).length
        · rw [encode_cons] at h
          exact absurd h (not_isCut_inside (by omega) hinside)
        · obtain ⟨m, rfl⟩ := Nat.exists_eq_add_of_le (Nat.le_of_not_lt hinside)
          obtain ⟨cut, rest, rfl, hcut⟩ := (ih m).mp ((isCut_append_right m).mp h)
          refine ⟨c :: cut, rest, rfl, ?_⟩
          rw [encode_cons, List.length_append, hcut]
    · rintro ⟨cut, rest, h, rfl⟩
      cases cut with
      | nil => exact isCut_zero_encode _
      | cons d cut =>
        obtain ⟨rfl, rfl⟩ := List.cons.inj h
        rw [encode_cons, encode_cons, List.length_append, isCut_append_right]
        exact (ih _).mpr ⟨cut, rest, rfl, rfl⟩

/-- The bytes of a text are those of its characters. -/
theorem toByteArray_eq_encode (text : String) :
    text.toByteArray.data.toList = encode text.toList := by
  obtain ⟨chars, rfl⟩ := text.exists_eq_ofList
  rw [String.toByteArray_ofList, List.utf8Encode, List.toList_data_toByteArray,
    String.toList_ofList]
  rfl

end TextCuts
