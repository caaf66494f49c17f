import CExpr.Proofs.Scan.Cut

/-!
# White space after a token

No token but a string literal holds white space, and no token goes on over the end of a line. So a
token is read again when what stands some way after it is replaced by white space, whatever stood
there before.
-/

namespace CExpr.Scan

/-- Nothing is left, or white space comes next. -/
def EndsWord (after : List Char) : Prop := ∀ c, after.head? = some c → isSpacing c = true

/-- No character is white space. -/
def IsSolid (text : List Char) : Prop := ∀ c ∈ text, isSpacing c = false

instance : DecidablePred IsSolid := fun text ↦
  List.decidableBAll (isSpacing · = false) text

theorem endsWord_cons {c : Char} (h : isSpacing c = true) (rest : List Char) :
    EndsWord (c :: rest) := by
  intro other hother
  obtain rfl := Option.some.inj hother
  exact h

variable {text front after other : List Char}

/-- What holds no white space goes no further than the next white space. -/
theorem prefix_of_endsWord {start : List Char} (hafter : EndsWord after)
    (h : start <+: text ++ after) (hsolid : IsSolid start) : start <+: text := by
  rcases List.prefix_or_prefix_of_prefix h (List.prefix_append text after) with hshort | hlong
  · exact hshort
  · obtain ⟨more, rfl⟩ := hlong
    cases more with
    | nil => simp
    | cons c more =>
      obtain ⟨last, rfl⟩ := (List.prefix_append_right_inj text).1 h
      have hspacing := hafter c rfl
      rw [hsolid c (List.mem_append_right text List.mem_cons_self)] at hspacing
      cases hspacing

/-! ## Texts without white space -/

/-- A class of characters that leaves out white space. -/
theorem not_isSpacing_of_class {p : Char → Bool}
    (hclass : [' ', '\t', '\r', '\n'].all (!p ·) = true) {c : Char} (h : p c = true) :
    isSpacing c = false := by
  rw [← Bool.not_eq_true, isSpacing_iff]
  intro hmem
  simpa [h] using List.all_eq_true.1 hclass c hmem

theorem isSolid_of_isRun {start part : Char → Bool}
    (hstart : [' ', '\t', '\r', '\n'].all (!start ·) = true)
    (hpart : [' ', '\t', '\r', '\n'].all (!part ·) = true) (h : IsRun start part text) :
    IsSolid text := by
  obtain ⟨first, rest, rfl, hfirst, hrest⟩ := h
  exact List.forall_mem_cons.2 ⟨not_isSpacing_of_class hstart hfirst,
    fun c hc ↦ not_isSpacing_of_class hpart (hrest c hc)⟩

theorem isSolid_of_isHex (h : IsHex text) : IsSolid text := by
  obtain ⟨mark, digits, rfl, hmark, -, hdigits⟩ := h
  have hsolid : isSpacing mark = false := by rcases hmark with rfl | rfl <;> decide
  exact List.forall_mem_cons.2 ⟨by decide, List.forall_mem_cons.2 ⟨hsolid,
    fun c hc ↦ not_isSpacing_of_class (by decide) (hdigits c hc)⟩⟩

theorem isSolid_of_mem_operatorSpellings (h : text ∈ operatorSpellings) : IsSolid text := by
  have hall : ∀ spelling ∈ operatorSpellings, IsSolid spelling := by decide
  exact hall text h

/-- Tokens do not go on over the end of a line. -/
theorem newline_notMem_of_reads {kind : Kind} {source : List Char} (h : Reads kind source text) :
    '\n' ∉ text := by
  have hsolid : IsSolid text → '\n' ∉ text := fun hsolid hmem ↦ absurd (hsolid _ hmem) (by decide)
  cases kind with
  | punct | compound => exact hsolid (isSolid_of_mem_operatorSpellings h.2.holds)
  | keyword | identifier => exact hsolid (isSolid_of_isRun (by decide) (by decide) h.2.holds)
  | constant =>
    by_cases hhex : HasHexMark source
    · exact hsolid (isSolid_of_isHex (h.1 hhex).holds)
    · exact hsolid (isSolid_of_isRun (by decide) (by decide) (h.2 hhex).holds)
  | stringLiteral =>
    obtain ⟨-, body, rfl, hbody⟩ := h
    simp [hbody.2, quote]
  | endOfInput => exact h.elim

/-! ## Replacing what comes after -/

/-- The longest text without white space stays the longest when white space is put some way after
it. -/
theorem Longest.of_endsWord {p : List Char → Prop} (hp : ∀ start, p start → IsSolid start)
    (hother : EndsWord other) (h : Longest p (text ++ (front ++ after)) text) :
    Longest p (text ++ (front ++ other)) text where
  isPrefix := List.prefix_append text _
  holds := h.holds
  length_le start hstart hholds := by
    rw [← List.append_assoc] at hstart
    have hfront := prefix_of_endsWord hother hstart (hp start hholds)
    apply h.length_le start _ hholds
    rw [← List.append_assoc]
    exact hfront.trans (List.prefix_append _ after)

theorem HasHexMark.mono (h : HasHexMark text) (after : List Char) : HasHexMark (text ++ after) :=
  h.imp (·.trans (List.prefix_append text after)) (·.trans (List.prefix_append text after))

theorem HasHexMark.of_endsWord (hafter : EndsWord after) (h : HasHexMark (text ++ after)) :
    HasHexMark text :=
  h.imp (prefix_of_endsWord hafter · (by decide)) (prefix_of_endsWord hafter · (by decide))

theorem IsHex.hasHexMark (h : IsHex text) : HasHexMark text := by
  obtain ⟨mark, digits, rfl, hmark, -⟩ := h
  exact hasHexMark_cons_cons.2 ⟨rfl, hmark⟩

/-- A token reads its text before white space as it did before anything else. -/
theorem reads_of_endsWord {kind : Kind} (hother : EndsWord other)
    (h : Reads kind (text ++ (front ++ after)) text) :
    Reads kind (text ++ (front ++ other)) text := by
  cases kind with
  | punct | compound =>
    exact ⟨h.1, h.2.of_endsWord (fun _ ↦ isSolid_of_mem_operatorSpellings) hother⟩
  | keyword | identifier =>
    exact ⟨h.1, h.2.of_endsWord (fun _ ↦ isSolid_of_isRun (by decide) (by decide)) hother⟩
  | constant =>
    by_cases hhex : HasHexMark (text ++ (front ++ after))
    · have hlongest := h.1 hhex
      refine ⟨fun _ ↦ hlongest.of_endsWord (fun _ ↦ isSolid_of_isHex) hother, fun hnot ↦ ?_⟩
      exact absurd (hlongest.holds.hasHexMark.mono _) hnot
    · have hlongest := h.2 hhex
      refine ⟨fun hmark ↦ ?_,
        fun _ ↦ hlongest.of_endsWord (fun _ ↦ isSolid_of_isRun (by decide) (by decide)) hother⟩
      rw [← List.append_assoc] at hmark hhex
      exact absurd ((hmark.of_endsWord hother).mono after) hhex
  | stringLiteral => exact ⟨List.prefix_append text _, h.2⟩
  | endOfInput => exact h

theorem fits_of_endsWord {kind : Kind} (front : List Char) (hother : EndsWord other)
    (h : (Piece.lexeme kind text).Fits (front ++ after)) :
    (Piece.lexeme kind text).Fits (front ++ other) := by
  obtain ⟨hcomment, hreads⟩ := h
  refine ⟨fun hbegins ↦ hcomment ?_, reads_of_endsWord hother hreads⟩
  rw [← List.append_assoc] at hbegins ⊢
  have hmark : ['/', '/'] <+: text ++ front := prefix_of_endsWord hother hbegins (by decide)
  exact hmark.trans (List.prefix_append _ after)

end CExpr.Scan
