import CExpr.Scan.Piece

/-!
# Texts of tokens

What a token of each kind reads from the front of a source, said without a scan. A sign is the
longest of the fixed spellings, a word and a number are the longest texts of their form, and a
string literal goes to the next quote of its line. For each form, what is read is what the scan
takes.
-/

namespace CExpr.Scan

/-- The longest text with a property that a source begins with. -/
structure Longest (p : List Char → Prop) (source text : List Char) : Prop where
  isPrefix : text <+: source
  holds : p text
  length_le : ∀ other, other <+: source → p other → other.length ≤ text.length

theorem Longest.unique {p : List Char → Prop} {source first second : List Char}
    (hfirst : Longest p source first) (hsecond : Longest p source second) : first = second := by
  have hle := hsecond.length_le first hfirst.isPrefix hfirst.holds
  have hge := hfirst.length_le second hsecond.isPrefix hsecond.holds
  exact (List.prefix_of_prefix_length_le hfirst.isPrefix hsecond.isPrefix hle).eq_of_length
    (Nat.le_antisymm hle hge)

/-- Characters of a class at the front of a source are among those that are taken from it. -/
theorem prefix_takeWhile {part : Char → Bool} {text source : List Char} (h : text <+: source)
    (hall : ∀ c ∈ text, part c = true) : text <+: source.takeWhile part := by
  obtain ⟨after, rfl⟩ := h
  rw [List.takeWhile_append_of_pos hall]
  exact List.prefix_append _ _

/-! ## Forms -/

/-- The spellings of the signs, 24 of one character and 21 of more. -/
def operatorSpellings : List (List Char) :=
  Kind.punctuation.map (fun c ↦ [c]) ++ Compound.all.map fun sign ↦ sign.spelling.toList

example : operatorSpellings.length = 45 := by decide

/-- A first character of one class and any number of characters of another. -/
def IsRun (start part : Char → Bool) (text : List Char) : Prop :=
  ∃ first rest, text = first :: rest ∧ start first = true ∧ ∀ c ∈ rest, part c = true

/-- A letter or underscore, and letters, digits and underscores after it. -/
def IsWord : List Char → Prop := IsRun isWordStart isWordPart

def IsDecimal : List Char → Prop := IsRun Char.isDigit Char.isDigit

/-- The source begins with a zero and an x. -/
def HasHexMark (source : List Char) : Prop := ['0', 'x'] <+: source ∨ ['0', 'X'] <+: source

/-- A zero, an x and at least one hexadecimal digit. -/
def IsHex (text : List Char) : Prop :=
  ∃ mark digits, text = '0' :: mark :: digits ∧ (mark = 'x' ∨ mark = 'X') ∧ digits ≠ [] ∧
    ∀ c ∈ digits, isHexDigit c = true

/-- No quote and no end of the line. -/
def IsStringBody (body : List Char) : Prop := quote ∉ body ∧ '\n' ∉ body

/-- A token of the kind reads the text from the front of the source. -/
def Reads (kind : Kind) (source text : List Char) : Prop :=
  match kind with
  | .punct _ | .compound _ =>
    kind.spelling? = some (String.ofList text) ∧ Longest (· ∈ operatorSpellings) source text
  | .keyword _ => kind.spelling? = some (String.ofList text) ∧ Longest IsWord source text
  | .identifier =>
    (∀ word : Keyword, word.spelling ≠ String.ofList text) ∧ Longest IsWord source text
  | .constant =>
    (HasHexMark source → Longest IsHex source text) ∧
      (¬HasHexMark source → Longest IsDecimal source text)
  | .stringLiteral =>
    text <+: source ∧ ∃ body, text = quote :: (body ++ [quote]) ∧ IsStringBody body
  | .endOfInput => False

/-- Some token begins with the character. -/
def CanStart (c : Char) : Prop := ∃ kind rest text, Reads kind (c :: rest) text

/-! ## Signs -/

theorem sorted_signs : signs.Pairwise fun first second ↦ second.1.length ≤ first.1.length := by
  decide

/-- No text is two signs. -/
theorem kind_unique_of_mem_signs :
    ∀ first ∈ signs, ∀ second ∈ signs, first.1 = second.1 → first = second := by decide +kernel

theorem mem_operatorSpellings_iff {text : List Char} :
    text ∈ operatorSpellings ↔ text ∈ signs.map Prod.fst := by
  have hsubset : operatorSpellings ⊆ signs.map Prod.fst := by decide +kernel
  have hsuperset : signs.map Prod.fst ⊆ operatorSpellings := by decide +kernel
  exact ⟨fun h ↦ hsubset h, fun h ↦ hsuperset h⟩

theorem mem_signs_iff {text : List Char} {kind : Kind} :
    (text, kind) ∈ signs ↔
      (∃ c, kind = .punct c ∧ kind.spelling? = some (String.ofList text)) ∨
        ∃ sign, kind = .compound sign ∧ kind.spelling? = some (String.ofList text) := by
  have hlength : ∀ sign ∈ Compound.all,
      sign.spelling.length = 3 ∨ sign.spelling.length = 2 := by decide
  constructor
  · intro h
    have hall : ∀ sign ∈ signs, sign.2.spelling? = some (String.ofList sign.1) := by decide +kernel
    have hspelling := hall _ h
    simp only [signs, compoundsOfLength, List.mem_append, List.mem_map] at h
    rcases h with (⟨sign, -, heq⟩ | ⟨sign, -, heq⟩) | ⟨c, -, heq⟩
    · exact .inr ⟨sign, (Prod.mk.inj heq).2.symm, hspelling⟩
    · exact .inr ⟨sign, (Prod.mk.inj heq).2.symm, hspelling⟩
    · exact .inl ⟨c, (Prod.mk.inj heq).2.symm, hspelling⟩
  · rintro (⟨c, rfl, hspelling⟩ | ⟨sign, rfl, hspelling⟩)
    · simp only [Kind.spelling?, Option.ite_none_right_eq_some, Option.some.injEq,
        String.ofList_inj] at hspelling
      obtain ⟨hmem, rfl⟩ := hspelling
      exact List.mem_append_right _ (List.mem_map_of_mem hmem)
    · obtain rfl : text = sign.spelling.toList := by
        rw [Option.some.inj hspelling, String.toList_ofList]
      have hmem (length : Nat) (h : sign.spelling.length = length) :
          (sign.spelling.toList, Kind.compound sign) ∈ compoundsOfLength length :=
        List.mem_map.2 ⟨sign, List.mem_filter.2 ⟨sign.mem_all, by simpa using h⟩, rfl⟩
      rcases hlength sign sign.mem_all with h | h
      · exact List.mem_append_left _ (List.mem_append_left _ (hmem 3 h))
      · exact List.mem_append_left _ (List.mem_append_right _ (hmem 2 h))

/-- The first sign of the table that a source begins with is the longest one. -/
theorem longest_of_sign? {source text : List Char} {kind : Kind}
    (h : sign? source = some (text, kind)) : Longest (· ∈ operatorSpellings) source text := by
  refine ⟨sign?_isPrefix h, ?_, ?_⟩
  · exact mem_operatorSpellings_iff.2 (List.mem_map_of_mem (List.mem_of_find?_eq_some h))
  · intro other hbegins hmem
    obtain ⟨sign, hother, rfl⟩ := List.mem_map.1 (mem_operatorSpellings_iff.1 hmem)
    obtain ⟨-, longer, shorter, hsigns, hnone⟩ := List.find?_eq_some_iff_append.1 h
    have hsorted := sorted_signs
    rw [hsigns] at hother hsorted
    rcases List.mem_append.1 hother with hlonger | hrest
    · have hnot := hnone _ hlonger
      simp [List.isPrefixOf_iff_prefix.2 hbegins] at hnot
    rcases List.mem_cons.1 hrest with rfl | hshorter
    · exact Nat.le_refl _
    · exact (List.pairwise_cons.1 (List.pairwise_append.1 hsorted).2.1).1 _ hshorter

theorem sign?_eq_some_iff {source text : List Char} {kind : Kind} :
    sign? source = some (text, kind) ↔
      (text, kind) ∈ signs ∧ Longest (· ∈ operatorSpellings) source text := by
  constructor
  · exact fun h ↦ ⟨List.mem_of_find?_eq_some h, longest_of_sign? h⟩
  · rintro ⟨hmem, hlongest⟩
    cases h : sign? source with
    | none =>
      have hnot := List.find?_eq_none.1 h _ hmem
      simp [hlongest.isPrefix] at hnot
    | some sign =>
      obtain ⟨other, otherKind⟩ := sign
      obtain rfl := hlongest.unique (longest_of_sign? h)
      have hother : (text, otherKind) ∈ signs := List.mem_of_find?_eq_some h
      rw [kind_unique_of_mem_signs _ hmem _ hother rfl]

theorem reads_of_sign? {source text : List Char} {kind : Kind}
    (h : sign? source = some (text, kind)) : Reads kind source text := by
  obtain ⟨hmem, hlongest⟩ := sign?_eq_some_iff.1 h
  rcases mem_signs_iff.1 hmem with ⟨c, rfl, hspelling⟩ | ⟨sign, rfl, hspelling⟩
  · exact ⟨hspelling, hlongest⟩
  · exact ⟨hspelling, hlongest⟩

theorem sign?_of_reads_punct {source text : List Char} {c : Char}
    (h : Reads (.punct c) source text) : sign? source = some (text, .punct c) :=
  sign?_eq_some_iff.2 ⟨mem_signs_iff.2 (.inl ⟨c, rfl, h.1⟩), h.2⟩

theorem sign?_of_reads_compound {source text : List Char} {sign : Compound}
    (h : Reads (.compound sign) source text) : sign? source = some (text, .compound sign) :=
  sign?_eq_some_iff.2 ⟨mem_signs_iff.2 (.inr ⟨sign, rfl, h.1⟩), h.2⟩

theorem mem_punctuation_of_sign? {first : Char} {rest text : List Char} {kind : Kind}
    (h : sign? (first :: rest) = some (text, kind)) : first ∈ Kind.punctuation := by
  have hall : ∀ sign ∈ signs, sign.1.head?.any (· ∈ Kind.punctuation) = true := by decide
  obtain ⟨c, hhead, hc⟩ := (Option.any_eq_true _ _).1 (hall _ (List.mem_of_find?_eq_some h))
  have hc : c ∈ Kind.punctuation := by simpa using hc
  obtain ⟨more, rfl⟩ := List.head?_eq_some_iff.1 hhead
  rwa [← (List.cons_prefix_cons.1 (sign?_isPrefix h)).1]

/-- Every punctuation character begins a sign, whatever comes after it. -/
theorem exists_sign? {first : Char} (h : first ∈ Kind.punctuation) (rest : List Char) :
    ∃ text kind, sign? (first :: rest) = some (text, kind) := by
  cases hsign : sign? (first :: rest) with
  | some sign => exact ⟨sign.1, sign.2, rfl⟩
  | none =>
    have hmem : ([first], Kind.punct first) ∈ signs := by
      exact List.mem_append_right _ (List.mem_map_of_mem h)
    have hnot := List.find?_eq_none.1 hsign _ hmem
    simp at hnot

/-! ## Words -/

theorem longest_run {start part : Char → Bool} {first : Char} (h : start first = true)
    (rest : List Char) :
    Longest (IsRun start part) (first :: rest) (first :: rest.takeWhile part) where
  isPrefix := List.cons_prefix_cons.2 ⟨rfl, List.takeWhile_prefix part⟩
  holds := ⟨first, _, rfl, h, List.all_eq_true.1 List.all_takeWhile⟩
  length_le := by
    rintro _ hbegins ⟨other, more, rfl, -, hmore⟩
    have hmorePrefix := (List.cons_prefix_cons.1 hbegins).2
    exact Nat.succ_le_succ (prefix_takeWhile hmorePrefix hmore).length_le

theorem Longest.start_of_run {start part : Char → Bool} {first : Char} {rest text : List Char}
    (h : Longest (IsRun start part) (first :: rest) text) : start first = true := by
  obtain ⟨other, more, rfl, hstart, -⟩ := h.holds
  rwa [← (List.cons_prefix_cons.1 h.isPrefix).1]

theorem ofSpelling?_eq_some_iff {text : List Char} {word : Keyword} :
    Keyword.ofSpelling? text = some word ↔ word.spelling = String.ofList text := by
  constructor
  · intro h
    have hspelling : word.spelling.toList = text := by simpa using List.find?_some h
    rw [← hspelling, String.ofList_toList]
  · intro h
    rw [← Keyword.ofSpelling?_spelling, h, String.toList_ofList]

theorem ofSpelling?_eq_none_iff {text : List Char} :
    Keyword.ofSpelling? text = none ↔ ∀ word : Keyword, word.spelling ≠ String.ofList text := by
  rw [Option.eq_none_iff_forall_ne_some]
  exact forall_congr' fun word ↦ not_congr ofSpelling?_eq_some_iff

/-- A word is read as the reserved word that it spells, and as an identifier if it spells none. -/
theorem reads_wordKind {source text : List Char} (h : Longest IsWord source text) :
    Reads (wordKind text) source text := by
  unfold wordKind
  cases hword : Keyword.ofSpelling? text with
  | some word => exact ⟨congrArg some (ofSpelling?_eq_some_iff.1 hword), h⟩
  | none => exact ⟨ofSpelling?_eq_none_iff.1 hword, h⟩

theorem wordKind_of_reads_keyword {source text : List Char} {word : Keyword}
    (h : Reads (.keyword word) source text) : wordKind text = .keyword word := by
  have hword := ofSpelling?_eq_some_iff.2 (Option.some.inj h.1)
  simp [wordKind, hword]

theorem wordKind_of_reads_identifier {source text : List Char}
    (h : Reads .identifier source text) : wordKind text = .identifier := by
  simp [wordKind, ofSpelling?_eq_none_iff.2 h.1]

/-! ## Numbers -/

theorem hasHexMark_cons_cons {first mark : Char} {more : List Char} :
    HasHexMark (first :: mark :: more) ↔ first = '0' ∧ (mark = 'x' ∨ mark = 'X') := by
  simp [HasHexMark, eq_comm, and_or_left]

theorem HasHexMark.exists_eq {first : Char} {rest : List Char} (h : HasHexMark (first :: rest)) :
    first = '0' ∧ ∃ mark more, rest = mark :: more ∧ (mark = 'x' ∨ mark = 'X') := by
  cases rest with
  | nil => simp [HasHexMark] at h
  | cons mark more =>
    obtain ⟨hfirst, hmark⟩ := hasHexMark_cons_cons.1 h
    exact ⟨hfirst, mark, more, rfl, hmark⟩

theorem longest_hex {mark : Char} {more : List Char} (hmark : mark = 'x' ∨ mark = 'X')
    (hdigits : more.takeWhile isHexDigit ≠ []) :
    Longest IsHex ('0' :: mark :: more) ('0' :: mark :: more.takeWhile isHexDigit) where
  isPrefix := List.cons_prefix_cons.2 ⟨rfl, List.cons_prefix_cons.2 ⟨rfl, List.takeWhile_prefix _⟩⟩
  holds := ⟨mark, _, rfl, hmark, hdigits, List.all_eq_true.1 List.all_takeWhile⟩
  length_le := by
    rintro _ hbegins ⟨otherMark, digits, rfl, -, -, hall⟩
    have hmore := (List.cons_prefix_cons.1 (List.cons_prefix_cons.1 hbegins).2).2
    exact Nat.succ_le_succ (Nat.succ_le_succ (prefix_takeWhile hmore hall).length_le)

theorem Longest.hexDigits_ne_nil {mark : Char} {more text : List Char}
    (h : Longest IsHex ('0' :: mark :: more) text) : more.takeWhile isHexDigit ≠ [] := by
  obtain ⟨otherMark, digits, rfl, -, hne, hall⟩ := h.holds
  have hmore := (List.cons_prefix_cons.1 (List.cons_prefix_cons.1 h.isPrefix).2).2
  intro hnil
  have hbegins := prefix_takeWhile hmore hall
  rw [hnil] at hbegins
  exact hne (List.prefix_nil.1 hbegins)

theorem numberPiece_of_not_hasHexMark {first : Char} {rest : List Char}
    (h : ¬HasHexMark (first :: rest)) :
    numberPiece first rest = .lexeme .constant (first :: rest.takeWhile Char.isDigit) := by
  cases rest with
  | nil => rfl
  | cons mark more =>
    rw [hasHexMark_cons_cons] at h
    simp [numberPiece, h]

theorem numberPiece_of_mark {mark : Char} (h : mark = 'x' ∨ mark = 'X') (more : List Char) :
    numberPiece '0' (mark :: more) = hexPiece '0' mark (more.takeWhile isHexDigit) := by
  simp [numberPiece, h]

theorem isDigit_of_reads_constant {first : Char} {rest text : List Char}
    (h : Reads .constant (first :: rest) text) : first.isDigit = true := by
  by_cases hhex : HasHexMark (first :: rest)
  · obtain ⟨rfl, -⟩ := hhex.exists_eq
    rfl
  · exact (h.2 hhex).start_of_run

/-- A number that lacks no digits is read as a constant. -/
theorem reads_constant_iff {first : Char} (hfirst : first.isDigit = true) {rest text : List Char} :
    Reads .constant (first :: rest) text ↔ numberPiece first rest = .lexeme .constant text := by
  by_cases hhex : HasHexMark (first :: rest)
  · obtain ⟨rfl, mark, more, rfl, hmark⟩ := hhex.exists_eq
    rw [numberPiece_of_mark hmark, hexPiece]
    constructor
    · intro h
      have hlongest := h.1 hhex
      rw [if_neg hlongest.hexDigits_ne_nil,
        hlongest.unique (longest_hex hmark hlongest.hexDigits_ne_nil)]
    · intro h
      by_cases hdigits : more.takeWhile isHexDigit = []
      · simp [hdigits] at h
      · rw [if_neg hdigits] at h
        cases h
        exact ⟨fun _ ↦ longest_hex hmark hdigits, fun hnot ↦ absurd hhex hnot⟩
  · have hlongest : Longest IsDecimal (first :: rest) (first :: rest.takeWhile Char.isDigit) :=
      longest_run hfirst rest
    rw [numberPiece_of_not_hasHexMark hhex]
    constructor
    · intro h
      rw [(h.2 hhex).unique hlongest]
    · intro h
      cases h
      exact ⟨fun hmark ↦ absurd hmark hhex, fun _ ↦ hlongest⟩

/-! ## Strings -/

/-- Nothing is left, or it begins with a character outside the class. -/
def Stops (part : Char → Bool) (after : List Char) : Prop :=
  ∀ c, after.head? = some c → part c = false

theorem takeWhile_append_of_stops {part : Char → Bool} {text after : List Char}
    (hall : ∀ c ∈ text, part c = true) (hafter : Stops part after) :
    (text ++ after).takeWhile part = text := by
  rw [List.takeWhile_append_of_pos hall]
  cases after with
  | nil => simp
  | cons c after => simp [hafter c rfl]

theorem stops_of_takeWhile {part : Char → Bool} {source after : List Char}
    (h : source.takeWhile part ++ after = source) : Stops part after := by
  intro c hhead
  obtain ⟨more, rfl⟩ := List.head?_eq_some_iff.1 hhead
  rw [← Bool.not_eq_true]
  intro hpart
  have hbegins : source.takeWhile part ++ [c] <+: source := by
    refine ⟨more, ?_⟩
    rw [List.append_assoc]
    exact h
  have hall : ∀ d ∈ source.takeWhile part ++ [c], part d = true := by
    intro d hd
    rcases List.mem_append.1 hd with htaken | hlast
    · exact List.all_eq_true.1 List.all_takeWhile d htaken
    · obtain rfl := List.mem_singleton.1 hlast
      exact hpart
  have hlength := (prefix_takeWhile hbegins hall).length_le
  rw [List.length_append] at hlength
  exact Nat.not_succ_le_self _ hlength

theorem isStringBody_iff {body : List Char} :
    IsStringBody body ↔ ∀ c ∈ body, (c != quote && c != '\n') = true := by
  unfold IsStringBody
  constructor
  · rintro ⟨hquote, hline⟩ c hc
    have hne : c ≠ quote := fun heq ↦ hquote (heq ▸ hc)
    have hneLine : c ≠ '\n' := fun heq ↦ hline (heq ▸ hc)
    simp [hne, hneLine]
  · intro h
    exact ⟨fun hmem ↦ by simpa using h _ hmem, fun hmem ↦ by simpa using h _ hmem⟩

theorem isStringBody_stringBody (rest : List Char) : IsStringBody (stringBody rest) :=
  isStringBody_iff.2 (List.all_eq_true.1 List.all_takeWhile)

/-- The body of a string ends before a quote, at the end of its line or at the end of the source. -/
theorem stringBody_append {body after : List Char} (h : IsStringBody body)
    (hafter : ∀ c, after.head? = some c → c = quote ∨ c = '\n') :
    stringBody (body ++ after) = body := by
  refine takeWhile_append_of_stops (isStringBody_iff.1 h) fun c hc ↦ ?_
  rcases hafter c hc with rfl | rfl <;> rfl

theorem eq_quote_of_reads_stringLiteral {first : Char} {rest text : List Char}
    (h : Reads .stringLiteral (first :: rest) text) : first = quote := by
  obtain ⟨hbegins, body, rfl, -⟩ := h
  exact (List.cons_prefix_cons.1 hbegins).1.symm

theorem reads_stringLiteral_iff {rest text : List Char} :
    Reads .stringLiteral (quote :: rest) text ↔
      stringPiece rest = .lexeme .stringLiteral text := by
  constructor
  · rintro ⟨hbegins, body, rfl, hbody⟩
    obtain ⟨after, rfl⟩ := (List.cons_prefix_cons.1 hbegins).2
    have htaken : stringBody (body ++ (quote :: after)) = body :=
      stringBody_append hbody fun c hc ↦ .inl (Option.some.inj hc).symm
    rw [List.append_assoc, List.singleton_append, stringPiece, htaken, List.drop_left]
    exact if_pos rfl
  · intro h
    have hbegins := stringPiece_text_isPrefix rest
    rw [h] at hbegins
    refine ⟨hbegins, stringBody rest, ?_, isStringBody_stringBody rest⟩
    unfold stringPiece at h
    split at h
    · cases h
      rfl
    · cases h

/-! ## First characters -/

theorem ne_nil_of_reads {kind : Kind} {source text : List Char} (h : Reads kind source text) :
    text ≠ [] := by
  rintro rfl
  have hrun : ∀ {start part : Char → Bool}, ¬IsRun start part [] := by
    rintro start part ⟨_, _, heq, -⟩
    cases heq
  cases kind with
  | punct | compound => exact absurd h.2.holds (by decide)
  | keyword | identifier => exact hrun h.2.holds
  | constant =>
    by_cases hhex : HasHexMark source
    · obtain ⟨_, _, heq, -⟩ := (h.1 hhex).holds
      cases heq
    · exact hrun (h.2 hhex).holds
  | stringLiteral =>
    obtain ⟨-, _, heq, -⟩ := h
    cases heq
  | endOfInput => exact h

theorem first_of_reads {kind : Kind} {first : Char} {rest text : List Char}
    (h : Reads kind (first :: rest) text) :
    first ∈ Kind.punctuation ∨ first = quote ∨ first.isDigit = true ∨ isWordStart first = true := by
  cases kind with
  | punct c => exact .inl (mem_punctuation_of_sign? (sign?_of_reads_punct h))
  | compound sign => exact .inl (mem_punctuation_of_sign? (sign?_of_reads_compound h))
  | keyword word => exact .inr (.inr (.inr h.2.start_of_run))
  | identifier => exact .inr (.inr (.inr h.2.start_of_run))
  | constant => exact .inr (.inr (.inl (isDigit_of_reads_constant h)))
  | stringLiteral => exact .inr (.inl (eq_quote_of_reads_stringLiteral h))
  | endOfInput => exact h.elim

theorem canStart_iff {c : Char} :
    CanStart c ↔
      c ∈ Kind.punctuation ∨ c = quote ∨ c.isDigit = true ∨ isWordStart c = true := by
  constructor
  · rintro ⟨kind, rest, text, h⟩
    exact first_of_reads h
  · rintro (h | rfl | h | h)
    · obtain ⟨text, kind, hsign⟩ := exists_sign? h []
      exact ⟨kind, [], text, reads_of_sign? hsign⟩
    · exact ⟨.stringLiteral, [quote], [quote, quote], reads_stringLiteral_iff.2 rfl⟩
    · exact ⟨.constant, [], [c], (reads_constant_iff h).2 rfl⟩
    · exact ⟨_, [], _, reads_wordKind (longest_run h [])⟩

end CExpr.Scan
