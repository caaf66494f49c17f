import CExpr.Proofs.Scan.Lexeme

/-!
# Cuts

A source is cut rightly when every piece fits what stands after it: white space and comments are
what they look like, a lexeme is what a token reads there, and a malformed span is a character that
begins nothing, a quote that is not closed on its line, or a zero and an x without digits. Each
source has exactly one such cut, and it is the one that `pieces` makes.
-/

namespace CExpr.Scan

/-- Nothing is left of the line. -/
def EndsLine (after : List Char) : Prop := ∀ c, after.head? = some c → c = '\n'

/-- What makes a span malformed, whatever comes before it. -/
def Fault.Spans (fault : Fault) (text after : List Char) : Prop :=
  match fault with
  | invalidCharacter c => text = [c] ∧ c ∉ [' ', '\t', '\r', '\n'] ∧ ¬CanStart c
  | unterminatedString => ∃ body, text = quote :: body ∧ IsStringBody body ∧ EndsLine after
  | missingHexDigits =>
    ∃ mark, text = ['0', mark] ∧ (mark = 'x' ∨ mark = 'X') ∧ Stops isHexDigit after

/-- The piece is rightly cut off before the rest of a source. -/
def Piece.Fits (piece : Piece) (after : List Char) : Prop :=
  match piece with
  | blank c => c ∈ [' ', '\t', '\r', '\n']
  | comment text => ∃ body, text = '/' :: '/' :: body ∧ '\n' ∉ body ∧ EndsLine after
  | lexeme kind text => ¬['/', '/'] <+: text ++ after ∧ Reads kind (text ++ after) text
  | malformed fault text => fault.Spans text after

/-- The pieces make up the source, and each one fits. -/
inductive Cut : List Char → List Piece → Prop
  | nil : Cut [] []
  | cons {piece : Piece} {after : List Char} {pieces : List Piece} (hfits : piece.Fits after)
      (hrest : Cut after pieces) : Cut (piece.text ++ after) (piece :: pieces)

/-! ## Branches -/

variable {first : Char} {rest : List Char}

theorem isSpacing_iff {c : Char} : isSpacing c = true ↔ c ∈ [' ', '\t', '\r', '\n'] := by
  simp [isSpacing, or_assoc]

/-- What can begin a token is not white space. -/
theorem not_isSpacing_of_canStart {c : Char} (h : CanStart c) : isSpacing c = false := by
  rw [← Bool.not_eq_true, isSpacing_iff]
  intro hc
  rw [canStart_iff] at h
  simp only [List.mem_cons, List.not_mem_nil, or_false] at hc
  rcases hc with rfl | rfl | rfl | rfl <;> revert h <;> decide

theorem sign?_eq_none (h : first ∉ Kind.punctuation) : sign? (first :: rest) = none := by
  cases hsign : sign? (first :: rest) with
  | none => rfl
  | some sign => exact absurd (mem_punctuation_of_sign? hsign) h

theorem commentMark_isPrefix_iff :
    ['/', '/'] <+: first :: rest ↔ first = '/' ∧ rest.head? = some '/' := by
  cases rest <;> simp [eq_comm]

/-- A class of characters that leaves out quotes and signs. -/
theorem notMem_of_class {p : Char → Bool} (hclass : (quote :: Kind.punctuation).all (!p ·) = true)
    {c : Char} (h : p c = true) : c ∉ Kind.punctuation ∧ c ≠ quote := by
  have hnot : c ∉ quote :: Kind.punctuation := fun hmem ↦ by
    simpa [h] using List.all_eq_true.1 hclass c hmem
  rw [List.mem_cons, not_or] at hnot
  exact hnot.symm

theorem not_isDigit_of_isWordStart {c : Char} (h : isWordStart c = true) : c.isDigit = false := by
  have halpha : c.isAlpha = (decide ('A'.val ≤ c.val ∧ c.val ≤ 'Z'.val) ||
      (decide ('a'.val ≤ c.val) && decide (c.val ≤ 'z'.val))) := rfl
  have hdigit : c.isDigit = (decide ('0'.val ≤ c.val) && decide (c.val ≤ '9'.val)) := rfl
  simp only [isWordStart, halpha, hdigit, UInt32.le_iff_toNat_le, Bool.or_eq_true,
    Bool.and_eq_true, decide_eq_true_eq, beq_iff_eq, Bool.and_eq_false_iff,
    decide_eq_false_iff_not] at h ⊢
  rcases h with h | rfl
  · have hdigits : '9'.val.toNat < 'A'.val.toNat ∧ '9'.val.toNat < 'a'.val.toNat := by decide
    omega
  · decide

/-- Without white space, comments and signs, the first character alone decides. -/
theorem firstPiece_of_not_sign (hspacing : isSpacing first = false)
    (hsign : first ∉ Kind.punctuation) :
    firstPiece first rest =
      if first = quote then stringPiece rest
      else if first.isDigit then numberPiece first rest
      else if isWordStart first then wordPiece first rest
      else .malformed (.invalidCharacter first) [first] := by
  have hcomment : ¬(first = '/' ∧ rest.head? = some '/') := by
    rintro ⟨rfl, -⟩
    exact hsign (by decide)
  rw [firstPiece, if_neg (by simp [hspacing]), if_neg hcomment, sign?_eq_none hsign]

theorem firstPiece_quote : firstPiece quote rest = stringPiece rest := by
  rw [firstPiece_of_not_sign (by decide) (by decide), if_pos rfl]

theorem firstPiece_of_isDigit (h : first.isDigit = true) :
    firstPiece first rest = numberPiece first rest := by
  have hspacing := not_isSpacing_of_canStart (canStart_iff.2 (.inr (.inr (.inl h))))
  obtain ⟨hsign, hquote⟩ := notMem_of_class (by decide) h
  rw [firstPiece_of_not_sign hspacing hsign, if_neg hquote, if_pos h]

theorem firstPiece_of_isWordStart (h : isWordStart first = true) :
    firstPiece first rest = wordPiece first rest := by
  have hspacing := not_isSpacing_of_canStart (canStart_iff.2 (.inr (.inr (.inr h))))
  obtain ⟨hsign, hquote⟩ := notMem_of_class (by decide) h
  have hdigit := not_isDigit_of_isWordStart h
  rw [firstPiece_of_not_sign hspacing hsign, if_neg hquote, if_neg (by simp [hdigit]), if_pos h]

theorem firstPiece_of_sign? {text : List Char} {kind : Kind}
    (hcomment : ¬['/', '/'] <+: first :: rest) (h : sign? (first :: rest) = some (text, kind)) :
    firstPiece first rest = .lexeme kind text := by
  have hstart : CanStart first := canStart_iff.2 (.inl (mem_punctuation_of_sign? h))
  rw [commentMark_isPrefix_iff] at hcomment
  rw [firstPiece, if_neg (by simp [not_isSpacing_of_canStart hstart]), if_neg hcomment, h]

theorem firstPiece_of_reads {kind : Kind} {text : List Char}
    (hcomment : ¬['/', '/'] <+: first :: rest) (h : Reads kind (first :: rest) text) :
    firstPiece first rest = .lexeme kind text := by
  have hword : Longest IsWord (first :: rest) text →
      firstPiece first rest = .lexeme (wordKind text) text := by
    intro hlongest
    have hstart := hlongest.start_of_run
    rw [firstPiece_of_isWordStart hstart, hlongest.unique (longest_run hstart rest)]
    rfl
  cases kind with
  | punct c => exact firstPiece_of_sign? hcomment (sign?_of_reads_punct h)
  | compound sign => exact firstPiece_of_sign? hcomment (sign?_of_reads_compound h)
  | keyword word => rw [hword h.2, wordKind_of_reads_keyword h]
  | identifier => rw [hword h.2, wordKind_of_reads_identifier h]
  | constant =>
    have hdigit : first.isDigit = true := isDigit_of_reads_constant h
    rw [firstPiece_of_isDigit hdigit]
    exact (reads_constant_iff hdigit).1 h
  | stringLiteral =>
    obtain rfl := eq_quote_of_reads_stringLiteral h
    rw [firstPiece_quote]
    exact reads_stringLiteral_iff.1 h
  | endOfInput => exact h.elim

/-! ## The first piece -/

theorem lexeme_fits {kind : Kind} {source text after : List Char} (hsource : text ++ after = source)
    (hcomment : ¬['/', '/'] <+: source) (h : Reads kind source text) :
    (Piece.lexeme kind text).Fits after := by
  subst hsource
  exact ⟨hcomment, h⟩

theorem comment_fits {after : List Char} (hcomment : ['/', '/'] <+: first :: rest)
    (h : (Piece.comment (first :: rest.takeWhile (· != '\n'))).text ++ after = first :: rest) :
    (Piece.comment (first :: rest.takeWhile (· != '\n'))).Fits after := by
  obtain ⟨rfl, hslash⟩ := commentMark_isPrefix_iff.1 hcomment
  obtain ⟨more, rfl⟩ := List.head?_eq_some_iff.1 hslash
  refine ⟨more.takeWhile (· != '\n'), rfl, fun hmem ↦ ?_, fun c hc ↦ ?_⟩
  · simpa using List.all_eq_true.1 List.all_takeWhile _ hmem
  · simpa using stops_of_takeWhile (List.cons.inj h).2 c hc

theorem stringPiece_fits {after : List Char} (hcomment : ¬['/', '/'] <+: quote :: rest)
    (h : (stringPiece rest).text ++ after = quote :: rest) : (stringPiece rest).Fits after := by
  by_cases hclosed : (rest.drop (stringBody rest).length).head? = some quote
  · have hpiece : stringPiece rest =
        .lexeme .stringLiteral (quote :: (stringBody rest ++ [quote])) := if_pos hclosed
    rw [hpiece] at h ⊢
    exact lexeme_fits h hcomment (reads_stringLiteral_iff.2 hpiece)
  · have hpiece : stringPiece rest = .malformed .unterminatedString (quote :: stringBody rest) :=
      if_neg hclosed
    rw [hpiece] at h ⊢
    have hrest : stringBody rest ++ after = rest := (List.cons.inj h).2
    have hafter : rest.drop (stringBody rest).length = after :=
      calc rest.drop (stringBody rest).length
          = (stringBody rest ++ after).drop (stringBody rest).length := by rw [hrest]
        _ = after := List.drop_left
    refine ⟨stringBody rest, rfl, isStringBody_stringBody rest, fun c hc ↦ ?_⟩
    have hstops := stops_of_takeWhile hrest c hc
    have hquote : c ≠ quote := by
      rintro rfl
      exact hclosed (hafter ▸ hc)
    simpa [hquote] using hstops

theorem numberPiece_fits {after : List Char} (hfirst : first.isDigit = true)
    (hcomment : ¬['/', '/'] <+: first :: rest)
    (h : (numberPiece first rest).text ++ after = first :: rest) :
    (numberPiece first rest).Fits after := by
  have hconstant : ∀ text, numberPiece first rest = .lexeme .constant text →
      (numberPiece first rest).Fits after := by
    intro text hpiece
    rw [hpiece] at h ⊢
    exact lexeme_fits h hcomment ((reads_constant_iff hfirst).2 hpiece)
  by_cases hhex : HasHexMark (first :: rest)
  · obtain ⟨rfl, mark, more, rfl, hmark⟩ := hhex.exists_eq
    have hpiece := numberPiece_of_mark hmark more
    by_cases hdigits : more.takeWhile isHexDigit = []
    · rw [hexPiece, if_pos hdigits] at hpiece
      rw [hpiece] at h ⊢
      have hafter : after = more := (List.cons.inj (List.cons.inj h).2).2
      have htaken : more.takeWhile isHexDigit ++ after = more := by
        rw [hdigits, hafter, List.nil_append]
      exact ⟨mark, rfl, hmark, stops_of_takeWhile htaken⟩
    · rw [hexPiece, if_neg hdigits] at hpiece
      exact hconstant _ hpiece
  · exact hconstant _ (numberPiece_of_not_hasHexMark hhex)

/-- The first piece fits what stands after it. -/
theorem firstPiece_fits {after : List Char}
    (h : (firstPiece first rest).text ++ after = first :: rest) :
    (firstPiece first rest).Fits after := by
  by_cases hspacing : isSpacing first = true
  · rw [firstPiece, if_pos hspacing]
    exact isSpacing_iff.1 hspacing
  rw [Bool.not_eq_true] at hspacing
  by_cases hcomment : ['/', '/'] <+: first :: rest
  · have hpiece : firstPiece first rest = .comment (first :: rest.takeWhile (· != '\n')) := by
      rw [firstPiece, if_neg (by simp [hspacing]), if_pos (commentMark_isPrefix_iff.1 hcomment)]
    rw [hpiece] at h ⊢
    exact comment_fits hcomment h
  by_cases hsign : first ∈ Kind.punctuation
  · obtain ⟨text, kind, hread⟩ := exists_sign? hsign rest
    rw [firstPiece_of_sign? hcomment hread] at h ⊢
    exact lexeme_fits h hcomment (reads_of_sign? hread)
  by_cases hquote : first = quote
  · subst hquote
    rw [firstPiece_quote] at h ⊢
    exact stringPiece_fits hcomment h
  by_cases hdigit : first.isDigit = true
  · rw [firstPiece_of_isDigit hdigit] at h ⊢
    exact numberPiece_fits hdigit hcomment h
  by_cases hword : isWordStart first = true
  · rw [firstPiece_of_isWordStart hword] at h ⊢
    exact lexeme_fits h hcomment (reads_wordKind (longest_run hword rest))
  · rw [firstPiece_of_not_sign hspacing hsign, if_neg hquote, if_neg hdigit, if_neg hword]
    refine ⟨rfl, ?_, ?_⟩
    · rw [← isSpacing_iff, hspacing]
      decide
    · rw [canStart_iff]
      simp [hsign, hquote, hdigit, hword]

/-- A piece that fits is the first piece. -/
theorem Piece.Fits.firstPiece_eq {piece : Piece} {after : List Char} (h : piece.Fits after)
    (hsource : piece.text ++ after = first :: rest) : firstPiece first rest = piece := by
  cases piece with
  | blank c =>
    obtain ⟨rfl, rfl⟩ := List.cons.inj hsource
    exact if_pos (isSpacing_iff.2 h)
  | comment text =>
    obtain ⟨body, rfl, hline, hafter⟩ := h
    obtain ⟨rfl, rfl⟩ := List.cons.inj hsource
    have hbody : ∀ c ∈ '/' :: body, (c != '\n') = true := by
      rintro c (_ | ⟨_, hc⟩)
      · rfl
      · simp only [bne_iff_ne]
        rintro rfl
        exact hline hc
    have htaken : (('/' :: body) ++ after).takeWhile (· != '\n') = '/' :: body :=
      takeWhile_append_of_stops hbody fun c hc ↦ by simp [hafter c hc]
    rw [firstPiece, if_neg (by decide), if_pos ⟨rfl, rfl⟩]
    exact congrArg (fun line ↦ Piece.comment ('/' :: line)) htaken
  | lexeme kind text =>
    obtain ⟨hcomment, hreads⟩ := h
    change text ++ after = first :: rest at hsource
    rw [hsource] at hcomment hreads
    exact firstPiece_of_reads hcomment hreads
  | malformed fault text =>
    cases fault with
    | invalidCharacter c =>
      obtain ⟨rfl, hspacing, hstart⟩ := h
      obtain ⟨rfl, rfl⟩ := List.cons.inj hsource
      rw [← isSpacing_iff, Bool.not_eq_true] at hspacing
      simp only [canStart_iff, not_or] at hstart
      obtain ⟨hsign, hquote, hdigit, hword⟩ := hstart
      rw [firstPiece_of_not_sign hspacing hsign, if_neg hquote, if_neg hdigit, if_neg hword]
    | unterminatedString =>
      obtain ⟨body, rfl, hbody, hafter⟩ := h
      obtain ⟨rfl, rfl⟩ := List.cons.inj hsource
      have htaken : stringBody (body ++ after) = body :=
        stringBody_append hbody fun c hc ↦ .inr (hafter c hc)
      have hopen : after.head? ≠ some quote := fun hc ↦ absurd (hafter _ hc) (by decide)
      rw [firstPiece_quote]
      change stringPiece (body ++ after) = _
      rw [stringPiece, htaken, List.drop_left, if_neg hopen]
    | missingHexDigits =>
      obtain ⟨mark, rfl, hmark, hafter⟩ := h
      obtain ⟨rfl, rfl⟩ := List.cons.inj hsource
      have hnone : ([] ++ after).takeWhile isHexDigit = [] :=
        takeWhile_append_of_stops (by simp) hafter
      rw [firstPiece_of_isDigit (by decide)]
      change numberPiece '0' (mark :: after) = _
      rw [numberPiece_of_mark hmark]
      exact if_pos hnone

theorem Piece.Fits.text_ne_nil {piece : Piece} {after : List Char} (h : piece.Fits after) :
    piece.text ≠ [] := by
  cases piece with
  | blank c => exact List.cons_ne_nil _ _
  | comment text =>
    obtain ⟨body, rfl, -⟩ := h
    exact List.cons_ne_nil _ _
  | lexeme kind text => exact ne_nil_of_reads h.2
  | malformed fault text =>
    cases fault with
    | invalidCharacter c =>
      obtain ⟨rfl, -⟩ := h
      exact List.cons_ne_nil _ _
    | unterminatedString =>
      obtain ⟨body, rfl, -⟩ := h
      exact List.cons_ne_nil _ _
    | missingHexDigits =>
      obtain ⟨mark, rfl, -⟩ := h
      exact List.cons_ne_nil _ _

/-! ## Whole sources -/

theorem cut_pieces (source : List Char) : Cut source (pieces source) := by
  fun_induction pieces source with
  | case1 => exact .nil
  | case2 first rest ih =>
    have hsource := firstPiece_append_afterFirst first rest
    have hcut := Cut.cons (firstPiece_fits hsource) ih
    rwa [hsource] at hcut

theorem Cut.pieces_eq {source : List Char} {cut : List Piece} (h : Cut source cut) :
    pieces source = cut := by
  induction h with
  | nil => exact pieces_nil
  | @cons piece after cut hfits _ ih =>
    cases hsource : piece.text ++ after with
    | nil => exact absurd (List.append_eq_nil_iff.1 hsource).1 hfits.text_ne_nil
    | cons first rest =>
      have hpiece := hfits.firstPiece_eq hsource
      have hafter : afterFirst first rest = after := by
        rw [afterFirst, hpiece, ← hsource, List.drop_left]
      rw [pieces_cons, hpiece, hafter, ih]

/-- There is one cut of a source. -/
theorem pieces_eq_iff {source : List Char} {cut : List Piece} :
    pieces source = cut ↔ Cut source cut := by
  constructor
  · rintro rfl
    exact cut_pieces source
  · exact Cut.pieces_eq

example : pieces ['0', 'x', 'g', quote, '1'] =
    [.malformed .missingHexDigits ['0', 'x'], .lexeme .identifier ['g'],
      .malformed .unterminatedString [quote, '1']] := by
  decide +kernel

end CExpr.Scan
