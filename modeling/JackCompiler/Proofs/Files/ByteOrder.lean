/-!
# The bytes of texts in order

Texts compare by the codes of their characters, file names by their bytes. In UTF-8 both orders are the same: a larger code
has more bytes, and then a larger first byte, or as many bytes and larger digits (`utf8EncodeChar_append_lt`). What texts
begin with in common has the same bytes (`bytes_lt_of_lt`).
-/

namespace JackCompiler

/-- The bytes of a text in UTF-8. -/
def bytes (text : String) : List UInt8 :=
  text.toUTF8.data.toList

/-! ## One character -/

section

variable {m n : Nat} {l l' : List UInt8}

/-- A smaller byte decides. -/
theorem ofNat_cons_lt (h : m < n) (hn : n < 256) : UInt8.ofNat m :: l < UInt8.ofNat n :: l' := by
  refine List.cons_lt_cons_iff.mpr (.inl ?_)
  rw [UInt8.lt_iff_toNat_lt, UInt8.toNat_ofNat', UInt8.toNat_ofNat']
  omega

/-- A byte that is not larger decides, or hands on to the next. -/
theorem ofNat_cons_lt_of_le (h : m ≤ n) (hn : n < 256) (hl : m = n → l < l') :
    UInt8.ofNat m :: l < UInt8.ofNat n :: l' := by
  rcases Nat.lt_or_eq_of_le h with less | rfl
  · exact ofNat_cons_lt less hn
  · exact List.cons_lt_cons_iff.mpr (.inr ⟨rfl, hl rfl⟩)

end

/-- A character with a smaller code has smaller bytes, whatever follows. -/
theorem utf8EncodeChar_append_lt {c d : Char} (h : c < d) (after after' : List UInt8) :
    String.utf8EncodeChar c ++ after < String.utf8EncodeChar d ++ after' := by
  have less : c.val.toNat < d.val.toNat := UInt32.lt_iff_toNat_lt.mp h
  have small : d.val.toNat < 1114112 := d.valid.elim (fun h => by omega) fun h => h.2
  simp only [String.utf8EncodeChar]
  generalize c.val.toNat = v at *
  generalize d.val.toNat = w at *
  by_cases one : w ≤ 0x7f
  · rw [if_pos (by omega), if_pos one]
    exact ofNat_cons_lt less (by omega)
  by_cases two : w ≤ 0x7ff
  · rw [if_neg one, if_pos two]
    by_cases fewer : v ≤ 0x7f
    · rw [if_pos fewer]
      exact ofNat_cons_lt (by omega) (by omega)
    · rw [if_neg fewer, if_pos (by omega)]
      refine ofNat_cons_lt_of_le (by omega) (by omega) fun first => ?_
      exact ofNat_cons_lt (by omega) (by omega)
  by_cases three : w ≤ 0xffff
  · rw [if_neg one, if_neg two, if_pos three]
    by_cases fewer : v ≤ 0x7ff
    · by_cases fewest : v ≤ 0x7f
      · rw [if_pos fewest]
        exact ofNat_cons_lt (by omega) (by omega)
      · rw [if_neg fewest, if_pos fewer]
        exact ofNat_cons_lt (by omega) (by omega)
    · rw [if_neg (by omega), if_neg fewer, if_pos (by omega)]
      refine ofNat_cons_lt_of_le (by omega) (by omega) fun first => ?_
      refine ofNat_cons_lt_of_le (by omega) (by omega) fun second => ?_
      exact ofNat_cons_lt (by omega) (by omega)
  · rw [if_neg one, if_neg two, if_neg three]
    by_cases fewer : v ≤ 0xffff
    · by_cases fewest : v ≤ 0x7f
      · rw [if_pos fewest]
        exact ofNat_cons_lt (by omega) (by omega)
      · rw [if_neg fewest]
        by_cases middle : v ≤ 0x7ff
        · rw [if_pos middle]
          exact ofNat_cons_lt (by omega) (by omega)
        · rw [if_neg middle, if_pos fewer]
          exact ofNat_cons_lt (by omega) (by omega)
    · rw [if_neg (by omega), if_neg (by omega), if_neg fewer]
      refine ofNat_cons_lt_of_le (by omega) (by omega) fun first => ?_
      refine ofNat_cons_lt_of_le (by omega) (by omega) fun second => ?_
      refine ofNat_cons_lt_of_le (by omega) (by omega) fun third => ?_
      exact ofNat_cons_lt (by omega) (by omega)

/-! ## Texts -/

theorem bytes_eq_flatMap (text : String) : bytes text = text.toList.flatMap String.utf8EncodeChar := by
  rw [bytes, String.toUTF8_eq_toByteArray, ← String.utf8Encode_toList, List.utf8Encode]
  simp

theorem flatMap_utf8EncodeChar_lt {cs ds : List Char} (h : cs < ds) :
    cs.flatMap String.utf8EncodeChar < ds.flatMap String.utf8EncodeChar := by
  induction h with
  | @nil d ds =>
    obtain ⟨byte, more, hbytes⟩ := List.exists_cons_of_ne_nil (String.utf8EncodeChar_ne_nil (c := d))
    rw [List.flatMap_nil, List.flatMap_cons, hbytes]
    exact List.nil_lt_cons _ _
  | rel h =>
    rw [List.flatMap_cons, List.flatMap_cons]
    exact utf8EncodeChar_append_lt h _ _
  | cons _ ih =>
    rw [List.flatMap_cons, List.flatMap_cons]
    exact List.append_left_lt ih

/-- A smaller text has smaller bytes. -/
theorem bytes_lt_of_lt {a b : String} (h : a < b) : bytes a < bytes b := by
  rw [bytes_eq_flatMap, bytes_eq_flatMap]
  exact flatMap_utf8EncodeChar_lt h

end JackCompiler
