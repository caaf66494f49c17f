import CExpr.Proofs.Text.Lines
import CExpr.Text.Utf8

/-!
# Bytes and boundaries of characters

What reads a text byte by byte sees the parts of a long character one after the other, and a place
between them is not a place to cut the text. A byte is shown as the character of its number. Below
128 it is the character itself, and the bytes of longer characters are above.
-/

namespace CExpr.Text

/-! ## Boundaries -/

/-- The offset lies before the first character, between two characters or after the last one. -/
def IsBoundary (source : String) (offset : Nat) : Prop :=
  ∃ before after, source.toList = before ++ after ∧ byteLength before = offset

/-- The characters between two offsets, in this order and on boundaries. -/
def slice? (source : String) (start stop : Nat) : Option (List Char) := do
  let first ← charactersBefore? source.toList start
  let last ← charactersBefore? source.toList stop
  if first ≤ last then some ((source.toList.take last).drop first) else none

section

variable {source : String} {offset : Nat} {before text after : List Char}

theorem isBoundary_of_eq (h : source.toList = before ++ after) :
    IsBoundary source (byteLength before) := ⟨before, after, h, rfl⟩

theorem isBoundary_end (source : String) : IsBoundary source source.utf8ByteSize := by
  rw [← byteLength_toList]
  exact isBoundary_of_eq (List.append_nil _).symm

theorem utf8ByteSize_of_eq (h : source.toList = before ++ after) :
    source.utf8ByteSize = byteLength before + byteLength after := by
  rw [← byteLength_toList, h, byteLength_append]

theorem IsBoundary.le (h : IsBoundary source offset) : offset ≤ source.utf8ByteSize := by
  obtain ⟨before, after, hsource, rfl⟩ := h
  rw [utf8ByteSize_of_eq hsource]
  exact Nat.le_add_right _ _

/-- The characters before an offset fill the bytes up to it. -/
theorem byteLength_take_of_charactersBefore? {source : List Char} {offset count : Nat}
    (h : charactersBefore? source offset = some count) :
    byteLength (source.take count) = offset := by
  fun_induction charactersBefore? source offset generalizing count with
  | case1 source =>
    cases h
    rw [List.take_zero, byteLength_nil]
  | case2 => cases h
  | case3 c source offset hfits ih =>
    obtain ⟨fewer, hfewer, rfl⟩ := Option.map_eq_some_iff.1 h
    rw [List.take_succ_cons, byteLength_cons, ih hfewer]
    omega
  | case4 => cases h

theorem utf8Size_of_lt {c : Char} (h : c.toNat < 128) : c.utf8Size = 1 :=
  Char.utf8Size_eq_one_iff.2 (UInt32.le_iff_toNat_le.2 (Nat.le_of_lt_succ h))

theorem byteLength_eq_length {text : List Char} (h : ∀ c ∈ text, c.toNat < 128) :
    byteLength text = text.length := by
  induction text with
  | nil => rfl
  | cons c text ih =>
    obtain ⟨hc, htext⟩ := List.forall_mem_cons.1 h
    rw [byteLength_cons, utf8Size_of_lt hc, ih htext, List.length_cons, Nat.add_comm]

/-- Between characters of one byte every offset is a boundary. -/
theorem isBoundary_inside (h : source.toList = before ++ (text ++ after))
    (hnarrow : ∀ c ∈ text, c.toNat < 128) (hstart : byteLength before ≤ offset)
    (hstop : offset ≤ byteLength (before ++ text)) : IsBoundary source offset := by
  obtain ⟨count, rfl⟩ := Nat.exists_eq_add_of_le hstart
  rw [byteLength_append, byteLength_eq_length hnarrow] at hstop
  have htaken : byteLength (text.take count) = count := by
    rw [byteLength_eq_length fun c hc ↦ hnarrow c (List.mem_of_mem_take hc), List.length_take]
    omega
  refine ⟨before ++ text.take count, text.drop count ++ after, ?_, ?_⟩
  · rw [h, List.append_assoc, ← List.append_assoc (text.take count), List.take_append_drop]
  · rw [byteLength_append, htaken]

theorem isBoundary_iff_isSome :
    IsBoundary source offset ↔ (charactersBefore? source.toList offset).isSome := by
  constructor
  · rintro ⟨before, after, hsource, rfl⟩
    rw [hsource, charactersBefore?_append]
    rfl
  · intro h
    obtain ⟨count, hcount⟩ := Option.isSome_iff_exists.1 h
    exact ⟨_, _, (List.take_append_drop count _).symm, byteLength_take_of_charactersBefore? hcount⟩

theorem slice?_eq (h : source.toList = before ++ (text ++ after)) :
    slice? source (byteLength before) (byteLength (before ++ text)) = some text := by
  have hstart : charactersBefore? source.toList (byteLength before) = some before.length := by
    rw [h, charactersBefore?_append]
  have hstop : charactersBefore? source.toList (byteLength (before ++ text)) =
      some (before ++ text).length := by
    rw [h, ← List.append_assoc, charactersBefore?_append]
  have hle : before.length ≤ (before ++ text).length := by simp
  simp only [slice?, hstart, hstop, Option.bind_eq_bind, Option.bind_some, if_pos hle]
  rw [h, ← List.append_assoc, List.take_left, List.drop_left]

theorem slice?_end (h : source.toList = before ++ after) :
    slice? source (byteLength before) source.utf8ByteSize = some after := by
  have hsize : source.utf8ByteSize = byteLength (before ++ after) := by
    rw [← h, byteLength_toList]
  rw [hsize]
  exact slice?_eq (by rw [h, List.append_nil])

/-- A text is cut on boundaries of its characters only. -/
theorem isSome_slice?_iff {start stop : Nat} :
    (slice? source start stop).isSome ↔
      start ≤ stop ∧ IsBoundary source start ∧ IsBoundary source stop := by
  constructor
  · intro h
    cases hstart : charactersBefore? source.toList start with
    | none => simp [slice?, hstart] at h
    | some first =>
      cases hstop : charactersBefore? source.toList stop with
      | none => simp [slice?, hstart, hstop] at h
      | some last =>
        have hle : first ≤ last := by simpa [slice?, hstart, hstop] using h
        refine ⟨?_, isBoundary_iff_isSome.2 (by simp [hstart]),
          isBoundary_iff_isSome.2 (by simp [hstop])⟩
        obtain ⟨more, rfl⟩ := Nat.exists_eq_add_of_le hle
        rw [← byteLength_take_of_charactersBefore? hstart,
          ← byteLength_take_of_charactersBefore? hstop, List.take_add, byteLength_append]
        exact Nat.le_add_right _ _
  · rintro ⟨hle, ⟨before, after, hsource, rfl⟩, ⟨front, back, hfront, rfl⟩⟩
    have hprefix : before <+: front := by
      rcases List.prefix_or_prefix_of_prefix ⟨after, hsource.symm⟩ ⟨back, hfront.symm⟩ with
        hlong | ⟨more, rfl⟩
      · exact hlong
      · cases more with
        | nil => simp
        | cons c more =>
          have hpos := c.utf8Size_pos
          rw [byteLength_append, byteLength_cons] at hle
          omega
    obtain ⟨text, rfl⟩ := hprefix
    rw [slice?_eq (by rw [hfront, List.append_assoc])]
    rfl

example : slice? "é)" 0 1 = none ∧ slice? "é)" 0 2 = some ['é'] := by decide +kernel

end

/-! ## Bytes -/

/-- The byte at an offset, shown as a character. -/
def byteAt? (source : String) (offset : Nat) : Option Char :=
  source.toUTF8.data[offset]?.map Char.ofUInt8

/-- The byte is the whole of the character, or one of the several that the character takes. -/
def Shows (byte c : Char) : Prop := byte = c ∨ 128 ≤ byte.toNat ∧ 128 ≤ c.toNat

/-- Each character of the class takes one byte. -/
def IsNarrow (p : Char → Bool) : Prop := ∀ c : Char, 128 ≤ c.toNat → p c = false

theorem IsNarrow.toNat_lt {p : Char → Bool} (hp : IsNarrow p) {c : Char} (h : p c = true) :
    c.toNat < 128 := by
  refine Nat.lt_of_not_le fun hwide ↦ ?_
  rw [hp c hwide] at h
  cases h

namespace Shows

variable {byte c : Char}

theorem eq_of_lt (h : Shows byte c) (hc : c.toNat < 128) : byte = c := by
  obtain rfl | ⟨-, hwide⟩ := h
  · rfl
  · omega

theorem class_eq {p : Char → Bool} (h : Shows byte c) (hp : IsNarrow p) : p byte = p c := by
  obtain rfl | ⟨hbyte, hc⟩ := h
  · rfl
  · rw [hp byte hbyte, hp c hc]

theorem eq_iff {d : Char} (h : Shows byte c) (hd : d.toNat < 128) : byte = d ↔ c = d := by
  obtain rfl | ⟨hbyte, hc⟩ := h
  · rfl
  · exact iff_of_false (by rintro rfl; omega) (by rintro rfl; omega)

end Shows

/-- Every byte in the form of a character shows that character. -/
theorem shows_of_mem {byte : UInt8} {c : Char} (h : byte ∈ String.utf8EncodeChar c) :
    Shows (Char.ofUInt8 byte) c := by
  have hnat : (Char.ofUInt8 byte).toNat = byte.toNat := rfl
  by_cases hbyte : byte.toNat < 128
  · left
    have hmem : UInt8.ofNat (Char.ofUInt8 byte).toNat ∈ String.utf8EncodeChar c := by
      rwa [hnat, UInt8.ofNat_toNat]
    exact (eq_of_mem_utf8EncodeChar (by omega) hmem).symm
  · refine .inr ⟨by omega, Nat.le_of_not_lt fun hc ↦ hbyte ?_⟩
    have hform : String.utf8EncodeChar c = [UInt8.ofNat c.toNat] := if_pos (Nat.le_of_lt_succ hc)
    rw [hform, List.mem_singleton] at h
    rw [h, UInt8.toNat_ofNat']
    omega

theorem length_encode (text : List Char) : (encode text).length = byteLength text := by
  induction text with
  | nil => rfl
  | cons c text ih =>
    rw [encode_cons, List.length_append, String.length_utf8EncodeChar, ih, byteLength_cons]

theorem byteAt?_eq (source : String) (offset : Nat) :
    byteAt? source offset = (encode source.toList)[offset]?.map Char.ofUInt8 := by
  rw [byteAt?, ← toList_data_toUTF8, Array.getElem?_toList]

section

variable {source : String} {offset : Nat} {before text after : List Char} {c : Char}

/-- There is no byte behind the last character. -/
theorem byteAt?_end (h : source.toList = before) : byteAt? source (byteLength before) = none := by
  rw [byteAt?_eq, h, ← length_encode, List.getElem?_eq_none (Nat.le_refl _), Option.map_none]

/-- A byte inside of a part of the text shows a character of the part. -/
theorem byteAt?_inside (h : source.toList = before ++ (text ++ after))
    (hstart : byteLength before ≤ offset) (hstop : offset < byteLength (before ++ text)) :
    ∃ byte, byteAt? source offset = some byte ∧ ∃ c ∈ text, Shows byte c := by
  obtain ⟨skip, rfl⟩ := Nat.exists_eq_add_of_le hstart
  have hskip : skip < (encode text).length := by
    rw [byteLength_append] at hstop
    rw [length_encode]
    omega
  have hbyte : (encode source.toList)[byteLength before + skip]? = some (encode text)[skip] := by
    rw [h, encode_append, encode_append, ← length_encode before,
      List.getElem?_append_right (Nat.le_add_right _ _), Nat.add_sub_cancel_left,
      List.getElem?_append_left hskip, List.getElem?_eq_getElem hskip]
  obtain ⟨c, hc, hmem⟩ := List.mem_flatMap.1 (List.getElem_mem hskip)
  refine ⟨Char.ofUInt8 (encode text)[skip], ?_, c, hc, shows_of_mem hmem⟩
  rw [byteAt?_eq, hbyte, Option.map_some]

theorem byteAt?_cons (h : source.toList = before ++ c :: after) :
    ∃ byte, byteAt? source (byteLength before) = some byte ∧ Shows byte c := by
  have hpart : source.toList = before ++ ([c] ++ after) := h
  have hstop : byteLength before < byteLength (before ++ [c]) := by
    rw [byteLength_append]
    exact Nat.lt_add_of_pos_right c.utf8Size_pos
  obtain ⟨byte, hbyte, other, hother, hshows⟩ := byteAt?_inside hpart (Nat.le_refl _) hstop
  obtain rfl := List.mem_singleton.1 hother
  exact ⟨byte, hbyte, hshows⟩

/-- Where a character begins, one of a single byte is seen exactly if it stands there. -/
theorem byteAt?_eq_some_iff (h : source.toList = before ++ after) (hc : c.toNat < 128) :
    byteAt? source (byteLength before) = some c ↔ after.head? = some c := by
  cases after with
  | nil => simp [byteAt?_end (h.trans (List.append_nil _))]
  | cons first after =>
    obtain ⟨byte, hbyte, hshows⟩ := byteAt?_cons h
    rw [hbyte, List.head?_cons, Option.some.injEq, Option.some.injEq]
    exact hshows.eq_iff hc

/-- One byte behind a character of a single byte the next character begins. -/
theorem byteAt?_succ_eq_some_iff {first : Char} (h : source.toList = before ++ first :: after)
    (hfirst : first.toNat < 128) (hc : c.toNat < 128) :
    byteAt? source (byteLength before + 1) = some c ↔ after.head? = some c := by
  have hsource : source.toList = (before ++ [first]) ++ after := by
    rw [h, List.append_assoc]
    rfl
  have hoffset : byteLength before + 1 = byteLength (before ++ [first]) := by
    simp [utf8Size_of_lt hfirst]
  rw [hoffset]
  exact byteAt?_eq_some_iff hsource hc

end

end CExpr.Text
