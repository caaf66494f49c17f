import CExpr.Proofs.Scan.Cut
import CExpr.Proofs.Text.Bytes
import Mathlib.Data.List.Infix

/-!
# Classes of bytes

All characters that a scan tells apart take one byte each. A byte that belongs to a longer character
is therefore in none of the classes, as the character is in none, and reading bytes instead of
characters makes no difference to a class or to a sign.
-/

namespace CExpr.Scan

/-! ## Classes of bytes -/

theorem isDigit_iff {c : Char} : c.isDigit = true ↔ 48 ≤ c.toNat ∧ c.toNat ≤ 57 := by
  simp [Char.isDigit, UInt32.le_iff_toNat_le, ← Char.toNat_val]

theorem isAlpha_iff {c : Char} :
    c.isAlpha = true ↔ 65 ≤ c.toNat ∧ c.toNat ≤ 90 ∨ 97 ≤ c.toNat ∧ c.toNat ≤ 122 := by
  have halpha : c.isAlpha = (decide ('A'.val ≤ c.val ∧ c.val ≤ 'Z'.val) ||
      (decide ('a'.val ≤ c.val) && decide (c.val ≤ 'z'.val))) := rfl
  simp [halpha, UInt32.le_iff_toNat_le, ← Char.toNat_val]

theorem isWordPart_iff {c : Char} :
    isWordPart c = true ↔ isWordStart c = true ∨ c.isDigit = true := by
  simp only [isWordPart, isWordStart, Char.isAlphanum, Bool.or_eq_true]
  exact or_right_comm

theorem isNarrow_isDigit : Text.IsNarrow Char.isDigit := by
  intro c hc
  rw [← Bool.not_eq_true, isDigit_iff]
  omega

theorem isNarrow_isWordStart : Text.IsNarrow isWordStart := by
  intro c hc
  have hunderscore : c ≠ '_' := by
    rintro rfl
    exact absurd hc (by decide)
  rw [← Bool.not_eq_true, isWordStart, Bool.or_eq_true, isAlpha_iff, beq_iff_eq]
  simp only [hunderscore, or_false]
  omega

theorem isNarrow_isWordPart : Text.IsNarrow isWordPart := by
  intro c hc
  rw [← Bool.not_eq_true, isWordPart_iff, isNarrow_isWordStart c hc, isNarrow_isDigit c hc]
  decide

theorem isNarrow_isHexDigit : Text.IsNarrow isHexDigit := by
  intro c hc
  have hle {d : Char} : c ≤ d ↔ c.toNat ≤ d.toNat := Iff.rfl
  have hlast : 'f'.toNat < 128 ∧ 'F'.toNat < 128 := by decide
  simp only [isHexDigit, isNarrow_isDigit c hc, hle, Bool.false_or, Bool.or_eq_false_iff,
    Bool.and_eq_false_iff, decide_eq_false_iff_not]
  omega

theorem isNarrow_isSpacing : Text.IsNarrow isSpacing := by
  intro c hc
  rw [← Bool.not_eq_true, isSpacing_iff]
  intro hmem
  have hall : [' ', '\t', '\r', '\n'].all (·.toNat < 128) = true := by decide
  have hlt : c.toNat < 128 := by simpa using List.all_eq_true.1 hall c hmem
  omega

theorem hasHexMark_cons {first : Char} {rest : List Char} : HasHexMark (first :: rest) ↔
    first = '0' ∧ (rest.head? = some 'x' ∨ rest.head? = some 'X') := by
  cases rest with
  | nil => simp [HasHexMark]
  | cons mark more => simp [hasHexMark_cons_cons]

/-! ## Signs -/

theorem mem_signs_of_lookup {text : List Char} {kind : Kind} (h : signs.lookup text = some kind) :
    (text, kind) ∈ signs := by
  obtain ⟨before, after, hsigns, -⟩ := List.lookup_eq_some_iff.1 h
  rw [hsigns]
  exact List.mem_append_right _ List.mem_cons_self

theorem notMem_of_lookup_eq_none {text : List Char} (h : signs.lookup text = none) :
    text ∉ operatorSpellings := by
  rw [mem_operatorSpellings_iff, List.mem_map]
  rintro ⟨sign, hsign, rfl⟩
  simpa using List.lookup_eq_none_iff.1 h sign hsign

/-- No sign holds a character of several bytes. -/
theorem lookup_concat_of_le {c : Char} (hc : 128 ≤ c.toNat) (text : List Char) :
    signs.lookup (text ++ [c]) = none := by
  have hall : ∀ sign ∈ signs, sign.1.all (·.toNat < 128) = true := by decide
  cases hsign : signs.lookup (text ++ [c]) with
  | none => rfl
  | some kind =>
    have hmem : c ∈ text ++ [c] := List.mem_append_right _ List.mem_cons_self
    have hlt : c.toNat < 128 := by
      simpa using List.all_eq_true.1 (hall _ (mem_signs_of_lookup hsign)) c hmem
    omega

theorem toNat_lt_of_lookup_concat (text : List Char) {c : Char} {kind : Kind}
    (h : signs.lookup (text ++ [c]) = some kind) : c.toNat < 128 := by
  refine Nat.lt_of_not_le fun hc ↦ ?_
  rw [lookup_concat_of_le hc] at h
  cases h

theorem lookup_concat_of_shows {byte c : Char} (h : Text.Shows byte c) (text : List Char) :
    signs.lookup (text ++ [byte]) = signs.lookup (text ++ [c]) := by
  obtain rfl | ⟨hbyte, hc⟩ := h
  · rfl
  · rw [lookup_concat_of_le hbyte, lookup_concat_of_le hc]

/-- What a sign begins with is a sign. -/
theorem mem_operatorSpellings_of_prefix {start text : List Char} (h : text ∈ operatorSpellings)
    (hstart : start <+: text) (hne : start ≠ []) : start ∈ operatorSpellings := by
  have hall : ∀ text ∈ operatorSpellings, ∀ start ∈ text.inits,
      start = [] ∨ start ∈ operatorSpellings := by decide +kernel
  exact (hall text h start ((List.mem_inits _ _).2 hstart)).resolve_left hne

/-- A sign that the next character does not make longer is the longest one. -/
theorem sign?_of_lookup {text after : List Char} {kind : Kind} (hmem : (text, kind) ∈ signs)
    (hafter : ∀ c, after.head? = some c → signs.lookup (text ++ [c]) = none) :
    sign? (text ++ after) = some (text, kind) := by
  refine sign?_eq_some_iff.2 ⟨hmem, List.prefix_append text after, ?_, ?_⟩
  · exact mem_operatorSpellings_iff.2 (List.mem_map_of_mem hmem)
  · intro other hother hspelling
    refine Nat.le_of_not_lt fun hlonger ↦ ?_
    obtain ⟨more, rfl⟩ := List.prefix_of_prefix_length_le (List.prefix_append text after) hother
      (Nat.le_of_lt hlonger)
    cases more with
    | nil => simp at hlonger
    | cons c more =>
      obtain ⟨rest, rfl⟩ := (List.prefix_append_right_inj text).1 hother
      refine notMem_of_lookup_eq_none (hafter c rfl) ?_
      exact mem_operatorSpellings_of_prefix hspelling ⟨more, by simp⟩ (by simp)

end CExpr.Scan
