import CExpr.Text.Lines

/-!
# Lines of a text

The lines of a text are what stands between its line feeds, without the carriage return that may
stand right before a line feed. In the UTF-8 form of a text no byte of another character is the byte
of a line feed or of a carriage return, so the lines of its bytes are these lines, and all of them
have a text.
-/

namespace CExpr.Text

/-! ## The lines of characters -/

/-- The line without the carriage return at its end, if one stands there. -/
def dropReturn (line : List Char) : List Char :=
  if line.getLast? = some '\r' then line.dropLast else line

/-- The lines of what stands between line feeds. A line feed follows each part but the last, and
the last part is no line when it is empty. -/
def linesOfParts : List (List Char) → List (List Char)
  | [] => []
  | [last] => if last = [] then [] else [last]
  | part :: next :: parts => dropReturn part :: linesOfParts (next :: parts)

/-- The lines of a text. -/
def linesOf (text : String) : List String :=
  (linesOfParts (text.toList.splitOn '\n')).map String.ofList

/-! ## Bytes of characters -/

/-- The UTF-8 form of characters. -/
def encode (text : List Char) : List UInt8 := text.flatMap String.utf8EncodeChar

@[simp] theorem encode_nil : encode [] = [] := rfl

@[simp] theorem encode_append (first second : List Char) :
    encode (first ++ second) = encode first ++ encode second := List.flatMap_append

theorem encode_cons (c : Char) (text : List Char) :
    encode (c :: text) = String.utf8EncodeChar c ++ encode text := List.flatMap_cons

theorem toList_data_toUTF8 (text : String) : text.toUTF8.data.toList = encode text.toList := by
  have hbytes : text.toUTF8 = (encode text.toList).toByteArray := by
    rw [String.toUTF8_eq_toByteArray, ← String.utf8Encode_toList]
    rfl
  rw [hbytes]
  simp

theorem toUTF8_of_fromUTF8? {bytes : ByteArray} {text : String}
    (h : String.fromUTF8? bytes = some text) : text.toUTF8 = bytes := by
  unfold String.fromUTF8? at h
  split at h
  next hvalid =>
    cases h
    rfl
  next => cases h

theorem fromUTF8?_encode (text : List Char) :
    String.fromUTF8? ⟨(encode text).toArray⟩ = some (String.ofList text) := by
  have hbytes : ByteArray.mk (encode text).toArray = (String.ofList text).toByteArray := by
    apply ByteArray.ext
    rw [← Array.toList_inj, ← String.toUTF8_eq_toByteArray, toList_data_toUTF8,
      String.toList_ofList]
  rw [hbytes, String.fromUTF8?, dif_pos (String.ofList text).isValidUTF8]
  rfl

/-- The byte of a character that takes only one is in the form of no other character. -/
theorem eq_of_mem_utf8EncodeChar {c single : Char} (hsingle : single.toNat < 128)
    (h : UInt8.ofNat single.toNat ∈ String.utf8EncodeChar c) : c = single := by
  have hbyte : ∀ {n : Nat}, UInt8.ofNat single.toNat = UInt8.ofNat n →
      single.toNat = n % 256 := by
    intro n heq
    have hnat := congrArg UInt8.toNat heq
    simp only [UInt8.toNat_ofNat'] at hnat
    omega
  have hlong : ∀ {n base : Nat}, 128 ≤ base → n + base < 256 →
      UInt8.ofNat single.toNat ≠ UInt8.ofNat (n + base) := by
    intro n base hbase hsum heq
    have hnat := hbyte heq
    omega
  unfold String.utf8EncodeChar at h
  simp only [] at h
  split at h
  · have hnat : single.toNat = c.toNat % 256 := hbyte (List.mem_singleton.1 h)
    have hc : c.toNat = c.val.toNat := rfl
    apply Char.toNat_inj.1
    omega
  split at h
  · simp only [List.mem_cons, List.not_mem_nil, or_false] at h
    rcases h with h | h <;> exact absurd h (hlong (by omega) (by omega))
  split at h
  · simp only [List.mem_cons, List.not_mem_nil, or_false] at h
    rcases h with h | h | h <;> exact absurd h (hlong (by omega) (by omega))
  · simp only [List.mem_cons, List.not_mem_nil, or_false] at h
    rcases h with h | h | h | h <;> exact absurd h (hlong (by omega) (by omega))

theorem utf8EncodeChar_ne_nil (c : Char) : String.utf8EncodeChar c ≠ [] := by
  intro h
  have hlength := String.length_utf8EncodeChar c
  have hpos := Char.utf8Size_pos c
  simp [h] at hlength
  omega

theorem newline_notMem_utf8EncodeChar {c : Char} (h : c ≠ '\n') :
    (0x0A : UInt8) ∉ String.utf8EncodeChar c :=
  fun hmem ↦ h (eq_of_mem_utf8EncodeChar (by decide : ('\n').toNat < 128) hmem)

/-! ## The lines of bytes -/

/-- The lines, before their ends are cut off, of what stands between line feeds. -/
def rawOfParts : List (List Char) → List RawLine
  | [] => []
  | [last] => if last = [] then [] else [⟨encode last, false⟩]
  | part :: next :: parts => ⟨encode part, true⟩ :: rawOfParts (next :: parts)

section Front

variable {front : List UInt8}

/-- Bytes without a line feed go to the first line that follows them. -/
theorem foldr_addByte_cons (h : 0x0A ∉ front) (line : RawLine) (lines : List RawLine) :
    front.foldr addByte (line :: lines) = ⟨front ++ line.bytes, line.ended⟩ :: lines := by
  induction front with
  | nil => rfl
  | cons byte front ih =>
    rw [List.mem_cons, not_or] at h
    rw [List.foldr_cons, ih h.2, addByte, if_neg (Ne.symm h.1)]
    rfl

/-- Bytes without a line feed that nothing follows are a line. -/
theorem foldr_addByte_nil (h : 0x0A ∉ front) (hne : front ≠ []) :
    front.foldr addByte [] = [⟨front, false⟩] := by
  obtain ⟨front, byte, rfl⟩ := List.eq_nil_or_concat front |>.resolve_left hne
  simp only [List.concat_eq_append, List.mem_append, List.mem_singleton, not_or] at h
  rw [List.concat_eq_append, List.foldr_append, List.foldr_cons, List.foldr_nil, addByte,
    if_neg (Ne.symm h.2)]
  exact foldr_addByte_cons h.1 _ _

end Front

theorem foldr_addByte_rawOfParts {c : Char} (h : c ≠ '\n') (part : List Char)
    (parts : List (List Char)) :
    (String.utf8EncodeChar c).foldr addByte (rawOfParts (part :: parts)) =
      rawOfParts ((c :: part) :: parts) := by
  have hnotMem := newline_notMem_utf8EncodeChar h
  cases parts with
  | cons next parts =>
    rw [rawOfParts, foldr_addByte_cons hnotMem, rawOfParts, encode_cons]
  | nil =>
    rw [rawOfParts, rawOfParts, if_neg (List.cons_ne_nil c part)]
    split
    next hpart =>
      rw [foldr_addByte_nil hnotMem (utf8EncodeChar_ne_nil c), hpart, encode_cons, encode_nil,
        List.append_nil]
    next => rw [foldr_addByte_cons hnotMem, encode_cons]

/-- Splitting the bytes at line feeds is splitting the characters at line feeds. -/
theorem rawLines_encode (text : List Char) :
    rawLines (encode text) = rawOfParts (text.splitOn '\n') := by
  induction text with
  | nil => simp [rawLines, rawOfParts]
  | cons c text ih =>
    obtain ⟨part, parts, hparts⟩ := List.exists_cons_of_ne_nil (List.splitOn_ne_nil '\n' text)
    rw [hparts] at ih
    rw [encode_cons, rawLines, List.foldr_append, ← rawLines, ih,
      List.splitOn_cons_eq_if_modifyHead, hparts]
    by_cases hc : c = '\n'
    · subst hc
      rfl
    · rw [if_neg (by simpa using hc)]
      exact foldr_addByte_rawOfParts hc part parts

theorem getLast?_encode_eq_return_iff (line : List Char) :
    (encode line).getLast? = some 0x0D ↔ line.getLast? = some '\r' := by
  obtain rfl | ⟨front, c, rfl⟩ := List.eq_nil_or_concat line
  · simp
  have hsome : (String.utf8EncodeChar c).getLast?.isSome :=
    List.getLast?_isSome.2 (utf8EncodeChar_ne_nil c)
  rw [List.concat_eq_append, encode_append, encode_cons, encode_nil, List.append_nil,
    List.getLast?_append, Option.or_of_isSome hsome, List.getLast?_concat, Option.some.injEq]
  constructor
  · intro h
    exact eq_of_mem_utf8EncodeChar (by decide : ('\r').toNat < 128) (List.mem_of_getLast? h)
  · rintro rfl
    rfl

theorem dropLast_encode_of_return {line : List Char} (h : line.getLast? = some '\r') :
    (encode line).dropLast = encode line.dropLast := by
  obtain ⟨front, rfl⟩ := List.getLast?_eq_some_iff.1 h
  rw [encode_append, List.dropLast_concat]
  exact List.dropLast_concat

theorem RawLine.text?_ended (part : List Char) :
    RawLine.text? ⟨encode part, true⟩ = some (String.ofList (dropReturn part)) := by
  have hcontent : RawLine.content ⟨encode part, true⟩ = encode (dropReturn part) := by
    simp only [RawLine.content, true_and, getLast?_encode_eq_return_iff, dropReturn]
    split
    next h => exact dropLast_encode_of_return h
    next => rfl
  rw [RawLine.text?, hcontent, fromUTF8?_encode]

theorem RawLine.text?_last (last : List Char) :
    RawLine.text? ⟨encode last, false⟩ = some (String.ofList last) := by
  rw [RawLine.text?, RawLine.content, if_neg (by simp), fromUTF8?_encode]

theorem map_text?_rawOfParts (parts : List (List Char)) :
    (rawOfParts parts).map RawLine.text? =
      (linesOfParts parts).map (some ∘ String.ofList) := by
  fun_induction rawOfParts parts with
  | case1 => rfl
  | case2 => rfl
  | case3 last h => simp [linesOfParts, h, RawLine.text?_last]
  | case4 part next parts ih =>
    rw [linesOfParts, List.map_cons, List.map_cons, ih, RawLine.text?_ended]
    rfl

/-- The lines of the UTF-8 form of a text are the lines of the text. -/
theorem lines_toUTF8 (text : String) : lines text.toUTF8 = (linesOf text).map some := by
  rw [lines, toList_data_toUTF8, rawLines_encode, map_text?_rawOfParts, linesOf, List.map_map]

/-! ## Lines that have a text -/

/-- The content of a line that has a text is the form of that text. -/
theorem RawLine.content_eq_encode {line : RawLine} {text : String} (h : line.text? = some text) :
    line.content = encode text.toList := by
  rw [← toList_data_toUTF8, toUTF8_of_fromUTF8? h]

/-- A line that has a text is the form of some characters, and so is the line with its end. -/
theorem RawLine.exists_whole_eq_encode {line : RawLine} (h : line.text?.isSome) :
    ∃ text, line.whole = encode text := by
  obtain ⟨text, htext⟩ := Option.isSome_iff_exists.1 h
  have hcontent := content_eq_encode htext
  have hbytes : ∃ whole, line.bytes = encode whole := by
    unfold content at hcontent
    split at hcontent
    next hreturn =>
      obtain ⟨front, hfront⟩ := List.getLast?_eq_some_iff.1 hreturn.2
      rw [hfront, List.dropLast_concat] at hcontent
      exact ⟨text.toList ++ ['\r'], by rw [hfront, hcontent, encode_append]; rfl⟩
    next => exact ⟨text.toList, hcontent⟩
  obtain ⟨whole, hwhole⟩ := hbytes
  refine ⟨whole ++ if line.ended then ['\n'] else [], ?_⟩
  rw [RawLine.whole, encode_append, hwhole]
  split <;> rfl

/-- Lines that are forms of characters, put together, are one as well. -/
theorem exists_flatMap_whole_eq_encode {raws : List RawLine}
    (h : ∀ line ∈ raws, ∃ text, line.whole = encode text) :
    ∃ text, raws.flatMap RawLine.whole = encode text := by
  induction raws with
  | nil => exact ⟨[], rfl⟩
  | cons line raws ih =>
    obtain ⟨⟨first, hfirst⟩, hraws⟩ := List.forall_mem_cons.1 h
    obtain ⟨rest, hrest⟩ := ih hraws
    exact ⟨first ++ rest, by rw [List.flatMap_cons, hfirst, hrest, encode_append]⟩

/-- Bytes are the form of a text exactly if each of their lines has a text. -/
theorem exists_toUTF8_eq_iff (bytes : ByteArray) :
    (∃ text : String, text.toUTF8 = bytes) ↔ ∀ line ∈ lines bytes, line.isSome := by
  constructor
  · rintro ⟨text, rfl⟩
    rw [lines_toUTF8]
    simp
  · intro h
    have hencoded : ∀ line ∈ rawLines bytes.data.toList, ∃ text, line.whole = encode text :=
      fun line hline ↦ RawLine.exists_whole_eq_encode (h _ (List.mem_map_of_mem hline))
    obtain ⟨text, htext⟩ := exists_flatMap_whole_eq_encode hencoded
    rw [flatMap_whole_rawLines] at htext
    refine ⟨String.ofList text, ?_⟩
    apply ByteArray.ext
    rw [← Array.toList_inj, toList_data_toUTF8, String.toList_ofList, htext]

end CExpr.Text
