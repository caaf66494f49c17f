import CExpr.Proofs.Scan.Tracking

/-!
# Scanning byte by byte

Each step of a cursor keeps it on the way to what the scan gives, and leads further: past a byte, or
at the same byte to something that is nearer to passing it. So the cursor comes to an end on every
source, at every turn it has gone past at least one byte, and it is never about to cut the source
between the bytes of a character.
-/

namespace CExpr

namespace Scan

variable {source : String} {cursor next : Cursor} {before after text : List Char}

/-! ## Steps -/

theorem passChar_eq {c : Char} (h : source.toList = before ++ c :: after)
    (hposition : cursor.position = Text.byteLength before) (stage : Stage) :
    cursor.passChar source stage = cursor.move stage c.utf8Size := by
  rw [Cursor.passChar, hposition, Text.slice?_end h]
  rfl

namespace Span

variable {form : Span} {opening body : List Char}

/-- A span that has been passed gives its piece, if it is one. -/
theorem tracks_endSpan (h : Owes source cursor before (opening ++ (body ++ after)))
    (hcovers : form.Covers cursor.position before opening body after)
    (hposition : cursor.position = Text.byteLength (before ++ (opening ++ body))) :
    Tracks source (cursor.endSpan source form (Text.byteLength before)) := by
  have howes : Owes source cursor before ((opening ++ body) ++ after) := by
    rwa [List.append_assoc]
  have hfits := hcovers.fits
  cases form with
  | comment =>
    have hline := List.count_eq_zero.2 (hfits.newline_notMem (by simp [piece]))
    refine .within (howes.pass hfits ?_ ?_ ?_) hposition
    · rw [hline, Nat.add_zero]
      rfl
    · simp [piece, Piece.token?, Cursor.endSpan, Cursor.move]
    · simp [piece, Piece.report?, Cursor.endSpan, Cursor.move]
  | decimal | word => exact howes.tracks_emit hposition hfits
  | hexadecimal =>
    have hopening : Text.byteLength opening = 2 := hcovers.byteLength_opening
    have hend : cursor.position = Text.byteLength before + (2 + Text.byteLength body) := by
      rw [hposition, Text.byteLength_append, Text.byteLength_append, hopening]
    by_cases hbody : body = []
    · subst hbody
      rw [Text.byteLength_nil, Nat.add_zero] at hend
      simp only [Cursor.endSpan, if_pos hend]
      rw [List.append_nil] at howes hposition
      exact howes.tracks_fault hposition hfits
    · have hpos := Text.byteLength_pos hbody
      have hdigits : cursor.position ≠ Text.byteLength before + 2 := by omega
      simp only [Cursor.endSpan, if_neg hdigits]
      rw [piece, if_neg hbody] at hfits
      exact howes.tracks_emit hposition hfits

/-- Where the body of a span is over, no byte of the class comes next. -/
theorem any_part_end (h : Owes source cursor before (opening ++ (body ++ after)))
    (hstops : Stops form.part after)
    (hposition : cursor.position = Text.byteLength (before ++ (opening ++ body))) :
    (Text.byteAt? source cursor.position).any form.part = false := by
  have hsource : source.toList = (before ++ (opening ++ body)) ++ after := by
    rw [h.source_eq]
    simp
  rw [hposition]
  cases after with
  | nil => rw [Text.byteAt?_end (hsource.trans (List.append_nil _)), Option.any_none]
  | cons c after =>
    obtain ⟨byte, hbyte, hshows⟩ := Text.byteAt?_cons hsource
    rw [hbyte, Option.any_some, form.part_of_shows hshows, hstops c rfl]

/-- Inside of the body of a span, every byte is of the class. -/
theorem any_part_inside (h : Owes source cursor before (opening ++ (body ++ after)))
    (hcovers : form.Covers cursor.position before opening body after)
    (hposition : cursor.position < Text.byteLength (before ++ (opening ++ body))) :
    (Text.byteAt? source cursor.position).any form.part = true := by
  have hsource : source.toList = (before ++ opening) ++ (body ++ after) := by
    rw [h.source_eq, List.append_assoc]
  rw [← List.append_assoc] at hposition
  obtain ⟨byte, hbyte, c, hc, hshows⟩ :=
    Text.byteAt?_inside hsource hcovers.le_position hposition
  rw [hbyte, Option.any_some, form.part_of_shows hshows, hcovers.part_of_mem c hc]

theorem follows_passSpan (h : Owes source cursor before (opening ++ (body ++ after)))
    (hstage : cursor.stage = .span form (Text.byteLength before))
    (hcovers : form.Covers cursor.position before opening body after) :
    Follows source cursor (cursor.passSpan source form (Text.byteLength before)) := by
  rcases Nat.lt_or_eq_of_le hcovers.position_le with hinside | hend
  · rw [Cursor.passSpan, if_pos (any_part_inside h hcovers hinside)]
    refine ⟨.within (h.move _ 1) ⟨rfl, opening, body, after, rfl, ?_⟩, .inl (Nat.lt_succ_self _)⟩
    exact { hcovers with
      le_position := Nat.le_succ_of_le hcovers.le_position
      position_le := hinside }
  · have hnot : ¬(Text.byteAt? source cursor.position).any form.part = true := by
      rw [any_part_end h hcovers.stops hend]
      decide
    have hne := hcovers.fits.text_ne_nil
    rw [text_piece] at hne
    have hpos := Text.byteLength_pos hne
    have hstart : cursor.position ≠ Text.byteLength before := by
      rw [hend, Text.byteLength_append]
      omega
    rw [Cursor.passSpan, if_neg hnot]
    exact (tracks_endSpan h hcovers hend).follows_of_ends (ends_endSpan source cursor form _)
      (by simp [Cursor.rank, hstage, hstart])

end Span

/-- A sign goes on, or it is the longest one and is given. -/
theorem follows_passSign {start : Nat} {kind : Kind} {rest : List Char}
    (h : Owes source cursor before rest) (hstage : cursor.stage = .sign start text kind)
    (hstands : (Stage.sign start text kind).Stands cursor.position before rest) :
    Follows source cursor (cursor.passSign source start text kind) := by
  obtain ⟨rfl, hmem, hcomment, after, rfl, hposition⟩ := hstands
  have hgive (hlonger : ∀ c, after.head? = some c → signs.lookup (text ++ [c]) = none) :
      Follows source cursor (cursor.emit source (fun _ ↦ kind) (Text.byteLength before)) := by
    have hreads := reads_of_sign? (sign?_of_lookup hmem hlonger)
    exact (h.tracks_emit hposition ⟨hcomment, hreads⟩).follows_of_ends
      (ends_emit source cursor _ _) (by simp only [Cursor.rank, hstage])
  have hsource : source.toList = (before ++ text) ++ after := by
    rw [h.source_eq, List.append_assoc]
  unfold Cursor.passSign
  rw [hposition]
  cases after with
  | nil =>
    rw [Text.byteAt?_end (hsource.trans (List.append_nil _))]
    exact hgive (by simp)
  | cons c after =>
    obtain ⟨byte, hbyte, hshows⟩ := Text.byteAt?_cons hsource
    rw [hbyte]
    simp only [lookup_concat_of_shows hshows]
    cases hlonger : signs.lookup (text ++ [c]) with
    | none => exact hgive fun d hd ↦ by rwa [← Option.some.inj hd]
    | some longer =>
      have hc := toNat_lt_of_lookup_concat text hlonger
      obtain rfl := hshows.eq_of_lt hc
      refine ⟨.within (h.move _ 1) ⟨rfl, mem_signs_of_lookup hlonger, hcomment, after, by simp, ?_⟩,
        .inl (Nat.lt_succ_self _)⟩
      simp only [Cursor.move, hposition, Text.byteLength_append, Text.byteLength_cons,
        Text.utf8Size_of_lt hc, Text.byteLength_nil]
      omega

section

variable {body : List Char}

/-- The quote at the position closes the string literal. -/
theorem follows_closeString (h : Owes source cursor before (quote :: (body ++ quote :: after)))
    (hbody : IsStringBody body)
    (hposition : cursor.position = Text.byteLength (before ++ quote :: body)) :
    Follows source cursor ((cursor.move (.string (Text.byteLength before)) 1).emit source
      (fun _ ↦ .stringLiteral) (Text.byteLength before)) := by
  have hmoved : Owes source (cursor.move (.string (Text.byteLength before)) 1) before
      (quote :: (body ++ [quote]) ++ after) := by
    have hsame := h.move (.string (Text.byteLength before)) 1
    simpa using hsame
  have hend : (cursor.move (.string (Text.byteLength before)) 1).position =
      Text.byteLength (before ++ quote :: (body ++ [quote])) := by
    have hsize : quote.utf8Size = 1 := rfl
    simp only [Cursor.move, hposition, Text.byteLength_append, Text.byteLength_cons,
      Text.byteLength_nil, hsize]
    omega
  have hreads : Reads .stringLiteral (quote :: (body ++ [quote]) ++ after)
      (quote :: (body ++ [quote])) := ⟨List.prefix_append _ after, body, rfl, hbody⟩
  refine ⟨hmoved.tracks_emit hend ⟨by simp [quote], hreads⟩, .inl ?_⟩
  rw [(ends_emit source _ _ _).1]
  exact Nat.lt_succ_self _

/-- The character at the position is another one of the string literal. -/
theorem follows_passChar {c : Char} (h : Owes source cursor before (quote :: (body ++ c :: after)))
    (hbody : IsStringBody (body ++ [c]))
    (hposition : cursor.position = Text.byteLength (before ++ quote :: body)) :
    Follows source cursor (cursor.passChar source (.string (Text.byteLength before))) := by
  have hsource : source.toList = (before ++ quote :: body) ++ c :: after := by
    rw [h.source_eq]
    simp
  rw [passChar_eq hsource hposition]
  refine ⟨.within (h.move _ _) ⟨rfl, body ++ [c], after, by simp, hbody, ?_⟩, .inl ?_⟩
  · simp only [Cursor.move, hposition, Text.byteLength_append, Text.byteLength_cons,
      Text.byteLength_nil]
    omega
  · exact Nat.lt_add_of_pos_right c.utf8Size_pos

end

/-- A character of a string literal is passed, or the literal is closed, or reported. -/
theorem follows_passString {start : Nat} {rest : List Char} (h : Owes source cursor before rest)
    (hstage : cursor.stage = .string start)
    (hstands : (Stage.string start).Stands cursor.position before rest) :
    Follows source cursor (cursor.passString source start) := by
  obtain ⟨rfl, body, after, rfl, hbody, hposition⟩ := hstands
  have hreport (hafter : EndsLine after) :
      Follows source cursor (cursor.fault .unterminatedString) := by
    have hfits : (Piece.malformed .unterminatedString (quote :: body)).Fits after :=
      ⟨body, rfl, hbody, hafter⟩
    exact (h.tracks_fault hposition hfits).follows_of_ends (ends_fault cursor _)
      (by simp only [Cursor.rank, hstage])
  have hsource : source.toList = (before ++ quote :: body) ++ after := by
    rw [h.source_eq]
    simp
  unfold Cursor.passString
  cases after with
  | nil =>
    rw [hposition, Text.byteAt?_end (hsource.trans (List.append_nil _))]
    exact hreport (by simp [EndsLine])
  | cons c after =>
    obtain ⟨byte, hbyte, hshows⟩ := Text.byteAt?_cons hsource
    have hquote : byte = quote ↔ c = quote := hshows.eq_iff (by decide)
    have hline : byte = '\n' ↔ c = '\n' := hshows.eq_iff (by decide)
    rw [hposition, hbyte]
    simp only [hquote, hline]
    split
    next heq =>
      subst heq
      exact follows_closeString h hbody hposition
    next hnot =>
      split
      next heq =>
        subst heq
        exact hreport (endsLine_newline after)
      next hnotLine =>
        have hpassed : IsStringBody (body ++ [c]) := by
          simp [IsStringBody, hbody.1, hbody.2, Ne.symm hnot, Ne.symm hnotLine]
        exact follows_passChar h hpassed hposition

section

variable {first : Char} {rest : List Char}

namespace Span

/-- A span begins where the first piece of the rest is one. -/
theorem stands_of_firstPiece {form : Span} (opening : List Char) {more : List Char}
    (hrest : opening ++ more = first :: rest)
    (hpiece : firstPiece first rest = form.piece opening (more.takeWhile form.part))
    (hopening : Text.byteLength opening = form.width) :
    (Stage.span form (Text.byteLength before)).Stands (Text.byteLength before + form.width) before
      (first :: rest) := by
  have hmore : more.takeWhile form.part ++ more.dropWhile form.part = more :=
    List.takeWhile_append_dropWhile
  have hfits : (firstPiece first rest).Fits (more.dropWhile form.part) := by
    apply firstPiece_fits
    rw [hpiece, text_piece, List.append_assoc, hmore, hrest]
  have hposition : Text.byteLength (before ++ opening) = Text.byteLength before + form.width := by
    rw [Text.byteLength_append, hopening]
  refine ⟨rfl, opening, more.takeWhile form.part, more.dropWhile form.part, ?_, ?_⟩
  · rw [hmore, hrest]
  · exact {
      part_of_mem := List.all_eq_true.1 List.all_takeWhile
      stops := stops_of_takeWhile hmore
      fits := hpiece ▸ hfits
      byteLength_opening := hopening
      le_position := hposition.le
      position_le := by
        rw [← hposition, ← List.append_assoc, Text.byteLength_append (before ++ opening)]
        exact Nat.le_add_right _ _ }

theorem stands_comment (hspacing : isSpacing first = false)
    (hcomment : ['/', '/'] <+: first :: rest) :
    (Stage.span .comment (Text.byteLength before)).Stands (Text.byteLength before) before
      (first :: rest) := by
  refine stands_of_firstPiece [] (List.nil_append _) ?_ rfl
  rw [firstPiece, if_neg (by simp [hspacing]), if_pos (commentMark_isPrefix_iff.1 hcomment)]
  obtain ⟨rfl, -⟩ := commentMark_isPrefix_iff.1 hcomment
  rfl

theorem stands_word (hword : isWordStart first = true) :
    (Stage.span .word (Text.byteLength before)).Stands (Text.byteLength before) before
      (first :: rest) := by
  refine stands_of_firstPiece [] (List.nil_append _) ?_ rfl
  have hpart : isWordPart first = true := isWordPart_iff.2 (.inl hword)
  rw [firstPiece_of_isWordStart hword, part, List.takeWhile_cons_of_pos hpart]
  rfl

theorem stands_decimal (hdigit : first.isDigit = true) (hmark : ¬HasHexMark (first :: rest)) :
    (Stage.span .decimal (Text.byteLength before)).Stands (Text.byteLength before) before
      (first :: rest) := by
  refine stands_of_firstPiece [] (List.nil_append _) ?_ rfl
  rw [firstPiece_of_isDigit hdigit, numberPiece_of_not_hasHexMark hmark, part,
    List.takeWhile_cons_of_pos hdigit]
  rfl

theorem stands_hexadecimal (hmark : HasHexMark (first :: rest)) :
    (Stage.span .hexadecimal (Text.byteLength before)).Stands (Text.byteLength before + 2) before
      (first :: rest) := by
  obtain ⟨rfl, mark, more, rfl, hx⟩ := hmark.exists_eq
  have hopening : Text.byteLength ['0', mark] = 2 := by rcases hx with rfl | rfl <;> rfl
  refine stands_of_firstPiece ['0', mark] rfl ?_ hopening
  rw [firstPiece_of_isDigit rfl, numberPiece_of_mark hx]
  rfl

theorem follows_begin {form : Span} (h : Owes source cursor before rest)
    (hstage : cursor.stage = .spacing) (hposition : cursor.position = Text.byteLength before)
    (hstands : (Stage.span form (Text.byteLength before)).Stands (Text.byteLength before) before
      rest) : Follows source cursor (cursor.move (.span form cursor.position) 0) := by
  rw [← hposition] at hstands
  refine ⟨.within (h.move _ 0) hstands, .inr ⟨rfl, ?_⟩⟩
  simp [Cursor.rank, Cursor.move, hstage]

end Span

theorem follows_passInvalid (h : Owes source cursor before (first :: rest))
    (hposition : cursor.position = Text.byteLength before)
    (hfits : (Piece.malformed (.invalidCharacter first) [first]).Fits rest) :
    Follows source cursor (cursor.passInvalid source) := by
  have hchar : (cursor.fault (.invalidCharacter first)).passChar source .turn =
      (cursor.fault (.invalidCharacter first)).move .turn first.utf8Size :=
    passChar_eq h.source_eq (show (cursor.fault _).position = _ from hposition) .turn
  have hpassed : cursor.passInvalid source =
      (cursor.move .turn first.utf8Size).fault (.invalidCharacter first) := by
    rw [Cursor.passInvalid, hposition, Text.slice?_end h.source_eq]
    exact hchar
  have hmoved : Owes source (cursor.move .turn first.utf8Size) before ([first] ++ rest) :=
    h.move .turn first.utf8Size
  rw [hpassed]
  refine ⟨hmoved.tracks_fault ?_ hfits, .inl (Nat.lt_add_of_pos_right first.utf8Size_pos)⟩
  simp [Cursor.move, hposition]

/-- A token begins with a byte that is neither white space nor the first of a comment. What is asked
of the byte may be asked of its character. -/
theorem follows_beginToken {byte : Char} (h : Owes source cursor before (first :: rest))
    (hstage : cursor.stage = .spacing) (hposition : cursor.position = Text.byteLength before)
    (hshows : Text.Shows byte first) (hspacing : isSpacing first = false)
    (hcomment : ¬['/', '/'] <+: first :: rest) :
    Follows source cursor (cursor.beginToken source byte) := by
  have hfurther {stage : Stage} {width : Nat} (hwidth : 0 < width)
      (hstands : stage.Stands (cursor.position + width) before (first :: rest)) :
      Follows source cursor (cursor.move stage width) :=
    ⟨.within (h.move stage width) hstands, .inl (Nat.lt_add_of_pos_right hwidth)⟩
  have hlookup : signs.lookup [byte] = signs.lookup [first] := lookup_concat_of_shows hshows []
  unfold Cursor.beginToken
  rw [hlookup]
  cases hsign : signs.lookup [first] with
  | some kind =>
    have hfirst : first.toNat < 128 := toNat_lt_of_lookup_concat [] hsign
    obtain rfl := hshows.eq_of_lt hfirst
    refine hfurther Nat.one_pos ⟨hposition, mem_signs_of_lookup hsign, hcomment, rest, rfl, ?_⟩
    simp [hposition, Text.utf8Size_of_lt hfirst]
  | none =>
    have hnot : first ∉ Kind.punctuation := fun hmem ↦ notMem_of_lookup_eq_none hsign
      (List.mem_append_left _ (List.mem_map_of_mem hmem))
    have hquote : byte = quote ↔ first = quote := hshows.eq_iff (by decide)
    simp only [hquote, hshows.class_eq isNarrow_isDigit, hshows.class_eq isNarrow_isWordStart]
    split
    next heq =>
      subst heq
      have hsize : quote.utf8Size = 1 := rfl
      refine hfurther Nat.one_pos ⟨hposition, [], rest, rfl, by simp [IsStringBody], ?_⟩
      simp [hposition, hsize]
    next hnotQuote =>
      split
      next hdigit =>
        have hfirst := isNarrow_isDigit.toNat_lt hdigit
        obtain rfl := hshows.eq_of_lt hfirst
        have hmark : byte = '0' ∧ (Text.byteAt? source (cursor.position + 1) = some 'x' ∨
            Text.byteAt? source (cursor.position + 1) = some 'X') ↔ HasHexMark (byte :: rest) := by
          rw [hposition, Text.byteAt?_succ_eq_some_iff h.source_eq hfirst (by decide),
            Text.byteAt?_succ_eq_some_iff h.source_eq hfirst (by decide), hasHexMark_cons]
        split
        next hhex =>
          exact hfurther Nat.two_pos (hposition ▸ Span.stands_hexadecimal (hmark.1 hhex))
        next hhex =>
          exact Span.follows_begin h hstage hposition
            (Span.stands_decimal hdigit fun hhas ↦ hhex (hmark.2 hhas))
      next hnotDigit =>
        split
        next hword => exact Span.follows_begin h hstage hposition (Span.stands_word hword)
        next hnotWord =>
          refine follows_passInvalid h hposition ⟨rfl, ?_, ?_⟩
          · rw [← isSpacing_iff, hspacing]
            decide
          · simp [canStart_iff, hnot, hnotQuote, hnotDigit, hnotWord]

theorem follows_blank (h : Owes source cursor before (first :: rest))
    (hposition : cursor.position = Text.byteLength before) (hspacing : isSpacing first = true)
    {line : Nat} (hline : line = cursor.line + [first].count '\n') :
    Follows source cursor ({ cursor with line }.move .spacing 1) := by
  have hpassed : Owes source cursor before ((Piece.blank first).text ++ rest) := h
  have hwidth := Text.utf8Size_of_lt (isNarrow_isSpacing.toNat_lt hspacing)
  refine ⟨.within (hpassed.pass (isSpacing_iff.1 hspacing) hline ?_ ?_) ?_,
    .inl (Nat.lt_succ_self _)⟩
  · simp [Cursor.move, Piece.token?]
  · simp [Cursor.move, Piece.report?]
  · simp [Cursor.move, Stage.Stands, Piece.text, hposition, hwidth]

end

/-- White space is passed, a comment or a token begins, or the end of the input is given. -/
theorem follows_passSpacing {rest : List Char} (h : Owes source cursor before rest)
    (hstage : cursor.stage = .spacing) (hposition : cursor.position = Text.byteLength before) :
    Follows source cursor (cursor.passSpacing source) := by
  have hrank : cursor.rank = 1 := by simp only [Cursor.rank, hstage]
  unfold Cursor.passSpacing
  cases rest with
  | nil =>
    have hsource : source.toList = before := h.source_eq.trans (List.append_nil _)
    have hbyte : Text.byteAt? source cursor.position = none := by
      rw [hposition, Text.byteAt?_end hsource]
    have htokens := h.tokens_eq
    have hreports := h.reports_eq
    rw [pieces_nil, tokensFrom, locationAfter, ← h.line_eq, ← hposition] at htokens
    rw [pieces_nil, reportsFrom, List.append_nil] at hreports
    rw [hbyte]
    refine ⟨.arrived rfl ?_ htokens hreports, .inr ⟨rfl, ?_⟩⟩
    · rw [hposition, ← hsource, Text.byteLength_toList]
    · rw [hrank]
      exact Nat.one_pos
  | cons first rest =>
    obtain ⟨byte, hbyte, hshows⟩ := Text.byteAt?_cons h.source_eq
    have hline : byte = '\n' ↔ first = '\n' := hshows.eq_iff (by decide)
    rw [← hposition] at hbyte
    rw [hbyte]
    simp only [hline, hshows.class_eq isNarrow_isSpacing]
    split
    next heq =>
      subst heq
      exact follows_blank h hposition (by decide) rfl
    next hnotLine =>
      split
      next hspacing =>
        exact follows_blank h hposition hspacing (by simp [hnotLine])
      next hsolid =>
        rw [Bool.not_eq_true] at hsolid
        have hmark : byte = '/' ∧ Text.byteAt? source (cursor.position + 1) = some '/' ↔
            ['/', '/'] <+: first :: rest := by
          rw [commentMark_isPrefix_iff, hshows.eq_iff (by decide)]
          refine and_congr_right ?_
          rintro rfl
          rw [hposition, Text.byteAt?_succ_eq_some_iff h.source_eq (by decide) (by decide)]
        split
        next hslashes =>
          exact Span.follows_begin h hstage hposition
            (Span.stands_comment hsolid (hmark.1 hslashes))
        next hslashes =>
          exact follows_beginToken h hstage hposition hshows hsolid
            fun hcomment ↦ hslashes (hmark.2 hcomment)

/-! ## Runs -/

/-- A cursor on the way stays on the way, and every step leads further. -/
theorem Tracks.follows_of_next? (h : Tracks source cursor)
    (hnext : cursor.next? source = some next) : Follows source cursor next := by
  unfold Cursor.next? at hnext
  cases h with
  | arrived hstage => simp [hstage] at hnext
  | @within before rest howes hstands =>
    cases hstage : cursor.stage with
    | turn =>
      rw [hstage] at hnext hstands
      obtain rfl := Option.some.inj hnext
      refine ⟨.within (howes.move _ 0) hstands, .inr ⟨rfl, ?_⟩⟩
      simp [Cursor.rank, Cursor.move, hstage]
    | spacing =>
      rw [hstage] at hnext hstands
      obtain rfl := Option.some.inj hnext
      exact follows_passSpacing howes hstage hstands
    | sign start text kind =>
      rw [hstage] at hnext hstands
      obtain rfl := Option.some.inj hnext
      exact follows_passSign howes hstage hstands
    | string start =>
      rw [hstage] at hnext hstands
      obtain rfl := Option.some.inj hnext
      exact follows_passString howes hstage hstands
    | span form start =>
      rw [hstage] at hnext hstands
      obtain rfl := Option.some.inj hnext
      obtain ⟨rfl, opening, body, after, rfl, hcovers⟩ := hstands
      exact Span.follows_passSpan howes hstage hcovers
    | finished | broken => simp [hstage] at hnext

theorem tracks_start (source : String) : Tracks source .start :=
  .within (show Owes source .start [] source.toList from ⟨rfl, rfl, rfl, rfl⟩) rfl

/-- A scan that goes no further is over. -/
theorem Tracks.arrived_of_next? (h : Tracks source cursor) (hnext : cursor.next? source = none) :
    cursor.stage = .finished ∧ cursor.tokens = (scan source).tokens ∧
      cursor.reports = (scan source).reports := by
  cases h with
  | arrived hstage _ htokens hreports => exact ⟨hstage, htokens, hreports⟩
  | within _ hstands =>
    cases hstage : cursor.stage with
    | finished | broken =>
      rw [hstage] at hstands
      exact hstands.elim
    | turn | spacing | sign | string | span => simp [Cursor.next?, hstage] at hnext

/-- What is left to read, with what is left to do at the position. -/
def Cursor.left (source : String) (cursor : Cursor) : Nat :=
  4 * (source.utf8ByteSize - cursor.position) + cursor.rank

theorem Follows.left_lt (h : Follows source cursor next) :
    next.left source < cursor.left source := by
  have hle := h.tracks.sound.position_le
  have hrank := next.rank_le
  unfold Cursor.left
  rcases h.advances with hfurther | ⟨heq, hless⟩
  · omega
  · rw [heq]
    omega

theorem Tracks.of_reaches₁ {later : Cursor} (h : Tracks source cursor)
    (hreach : StateTransition.Reaches₁ (Cursor.next? source) cursor later) :
    Tracks source later ∧ later.left source < cursor.left source := by
  induction hreach with
  | single hnext =>
    have hfollows := h.follows_of_next? hnext
    exact ⟨hfollows.tracks, hfollows.left_lt⟩
  | tail _ hnext ih =>
    have hfollows := ih.1.follows_of_next? hnext
    exact ⟨hfollows.tracks, hfollows.left_lt.trans ih.2⟩

theorem Cursor.Reached.tracks (h : cursor.Reached source) : Tracks source cursor := by
  rcases Relation.reflTransGen_iff_eq_or_transGen.1 h with rfl | hreach
  · exact tracks_start source
  · exact ((tracks_start source).of_reaches₁ hreach).1

/-- A cursor on the way leads to one that goes no further. -/
theorem Tracks.exists_last (h : Tracks source cursor) :
    ∃ last, StateTransition.Reaches (Cursor.next? source) cursor last ∧
      last.next? source = none := by
  induction hleft : cursor.left source using Nat.strong_induction_on generalizing cursor with
  | _ left ih =>
    cases hnext : cursor.next? source with
    | none => exact ⟨cursor, .refl, hnext⟩
    | some next =>
      have hfollows := h.follows_of_next? hnext
      obtain ⟨last, hreach, hlast⟩ := ih _ (hleft ▸ hfollows.left_lt) hfollows.tracks rfl
      exact ⟨last, .head hnext hreach, hlast⟩

end Scan

open Scan

/-- On the way through any source the cursor stays within it and never cuts it between the bytes of
a character, and each turn that leads to another one has gone past a byte. The way ends, with the
tokens and the reports of the scan. -/
theorem scan_bytewise (source : String) :
    (∀ cursor : Cursor, cursor.Reached source → cursor.Sound source ∧
      (cursor.stage = .turn → ∀ later : Cursor,
        StateTransition.Reaches₁ (Cursor.next? source) cursor later → later.stage = .turn →
          cursor.position < later.position)) ∧
    ∃ last ∈ StateTransition.eval (Cursor.next? source) .start, last.stage = .finished ∧
      last.tokens = (scan source).tokens ∧ last.reports = (scan source).reports := by
  constructor
  · intro cursor hreached
    have htracks := hreached.tracks
    refine ⟨htracks.sound, fun hturn later hlater hagain ↦ ?_⟩
    obtain ⟨hlaterTracks, hleft⟩ := htracks.of_reaches₁ hlater
    have hle := htracks.sound.position_le
    have hlaterLe := hlaterTracks.sound.position_le
    simp only [Cursor.left, Cursor.rank, hturn, hagain] at hleft
    omega
  · obtain ⟨last, hreach, hlast⟩ := (tracks_start source).exists_last
    have hreached : last.Reached source := hreach
    exact ⟨last, StateTransition.mem_eval.2 ⟨hreach, hlast⟩, hreached.tracks.arrived_of_next? hlast⟩

end CExpr
