import CExpr.Proofs.Parse.RaisedAt
import CExpr.Proofs.Scan.Partition
import CExpr.Proofs.Session.Colors

/-!
# Escape characters in messages

The texts of a session are made of fixed words, numbers, the source and the texts of its tokens. A
source without an escape character has no token and no fault with one, so nothing that is written
for it has one.
-/

namespace CExpr

/-! ## Texts without an escape character -/

namespace Text

/-- The text has no escape character. -/
def Unescaped (text : String) : Prop := escape ∉ text.toList

instance : DecidablePred Unescaped := fun text ↦
  inferInstanceAs (Decidable (escape ∉ text.toList))

@[simp] theorem unescaped_append {first second : String} :
    Unescaped (first ++ second) ↔ Unescaped first ∧ Unescaped second := by
  simp [Unescaped, not_or]

@[simp] theorem unescaped_push {text : String} {c : Char} :
    Unescaped (text.push c) ↔ Unescaped text ∧ c ≠ escape := by
  simp [Unescaped, not_or, eq_comm]

@[simp] theorem unescaped_spaces (count : Nat) : Unescaped (spaces count) := by
  simp [Unescaped, escape]

@[simp] theorem unescaped_repr (n : Nat) : Unescaped n.repr := by
  intro hmem
  rw [Nat.toList_repr] at hmem
  exact absurd (Nat.isDigit_of_mem_toDigits (by decide) (by decide) hmem) (by decide)

@[simp] theorem unescaped_alignRight {width : Nat} {text : String} :
    Unescaped (alignRight width text) ↔ Unescaped text := by
  simp [alignRight]

@[simp] theorem unescaped_alignLeft {width : Nat} {text : String} :
    Unescaped (alignLeft width text) ↔ Unescaped text := by
  simp [alignLeft]

theorem unescaped_join {texts : List String} (h : ∀ text ∈ texts, Unescaped text) :
    Unescaped (String.join texts) := by
  induction texts with
  | nil => decide
  | cons text texts ih =>
    obtain ⟨htext, htexts⟩ := List.forall_mem_cons.1 h
    rw [String.join_cons]
    exact unescaped_append.2 ⟨htext, ih htexts⟩

theorem unescaped_intercalate {separator : String} {texts : List String}
    (hseparator : Unescaped separator) (h : ∀ text ∈ texts, Unescaped text) :
    Unescaped (separator.intercalate texts) := by
  induction texts with
  | nil => exact List.not_mem_nil
  | cons text texts ih =>
    obtain ⟨htext, htexts⟩ := List.forall_mem_cons.1 h
    cases texts with
    | nil => simpa using htext
    | cons next texts =>
      rw [String.intercalate_cons_cons]
      exact unescaped_append.2 ⟨unescaped_append.2 ⟨htext, hseparator⟩, ih htexts⟩

end Text

open Text (Unescaped escape)

/-! ## Names of kinds and rules -/

theorem Kind.unescaped_description (kind : Kind) : Unescaped kind.description := by
  cases kind with
  | punct c =>
    have hall : punctuation.all (· ≠ escape) = true := by decide
    by_cases h : c ∈ punctuation
    · have hne : c ≠ escape := by simpa using List.all_eq_true.1 hall c h
      simp +decide [description, spelling?, h, hne]
    · simp +decide [description, spelling?, h]
  | keyword word => cases word <;> decide +kernel
  | compound sign => cases sign <;> decide +kernel
  | identifier | constant | stringLiteral | endOfInput => decide

theorem NonTerminal.unescaped_name (rule : NonTerminal) : Unescaped rule.name := by
  have hall : ∀ rule : NonTerminal, Unescaped rule.name := by decide +kernel
  exact hall rule

theorem Place.unescaped_description {previous : String} (h : Unescaped previous) (place : Place) :
    Unescaped (place.description previous) := by
  cases place <;> simp +decide [description, h]

theorem Scan.Fault.unescaped_message {fault : Scan.Fault}
    (h : ∀ c, fault = .invalidCharacter c → c ≠ escape) : Unescaped fault.message := by
  cases fault with
  | invalidCharacter c =>
    change Unescaped ("Invalid character in input: '" ++ String.ofList [c] ++ "'")
    simp +decide [h c rfl]
  | unterminatedString =>
    change Unescaped "Unterminated string literal"
    decide
  | missingHexDigits =>
    change Unescaped "Missing digits in hexadecimal constant"
    decide

theorem Token.unescaped_description {token : Token} (h : Unescaped token.lexeme) :
    Unescaped token.description := by
  unfold description
  split <;> simp +decide [h]

/-! ## Texts of a scan -/

section Scan

open Scan

variable {source : String}

/-- The text of a token is part of the source. -/
theorem lexeme_subset_of_mem_scan {token : Token} (h : token ∈ (scan source).tokens) :
    token.lexeme.toList ⊆ source.toList := by
  obtain ⟨before, rest, hbegins⟩ := exists_beginsIn_of_mem_scan h
  rw [hbegins.source_eq]
  exact List.Subset.trans hbegins.isPrefix.subset (List.subset_append_right _ _)

theorem unescaped_lexeme_of_mem_scan (hsource : Unescaped source) {token : Token}
    (h : token ∈ (scan source).tokens) : Unescaped token.lexeme :=
  fun hmem ↦ hsource (lexeme_subset_of_mem_scan h hmem)

theorem unescaped_message_of_mem_scan (hsource : Unescaped source) {report : Report}
    (h : report ∈ (scan source).reports) : Unescaped report.message := by
  rw [reports_eq] at h
  obtain ⟨⟨before, piece⟩, hmem, hreport⟩ := List.mem_filterMap.1 h
  obtain ⟨after, htext, hfits⟩ := (cut_pieces source.toList).fits_of_mem_placed hmem
  cases piece with
  | malformed fault text =>
    cases hreport
    apply Fault.unescaped_message
    rintro c rfl rfl
    obtain ⟨rfl, -⟩ := hfits
    apply hsource
    rw [← List.nil_append source.toList, htext]
    simp [Piece.text]
  | blank | comment | lexeme => cases hreport

end Scan

/-! ## Texts of a parse -/

section Parse

open Parse

/-- The text before the next token is that of a word that was consumed, if there is one. -/
theorem Parse.Runs.unescaped_previousText {limits : Limits} {stop : Token} {body : List Symbol}
    {words : List Token} {final : State} {result : Except SyntaxError Contents}
    (h : Runs limits stop body (.initial words) result final)
    (hwords : ∀ token ∈ words, Unescaped token.lexeme) : Unescaped final.previousText := by
  obtain ⟨consumed, hbefore, hahead⟩ := h.exists_consumed
  have hahead : words = consumed ++ final.ahead := hahead
  unfold State.previousText
  split
  next => decide
  next token before hfinal =>
    have hmem : token ∈ consumed.reverse ++ [] := by
      change final.before = consumed.reverse ++ [] at hbefore
      rw [← hbefore, hfinal]
      exact List.mem_cons_self
    exact hwords token (hahead ▸ List.mem_append_left _ (by simpa using hmem))

variable {source : String}

theorem completed_tokens (source : String) :
    Input.completed (scan source).tokens = (scan source).tokens := by
  rw [Input.completed, Scan.getLast?_tokens]
  exact if_pos rfl

/-- A syntax error is about a token of the scan. -/
theorem found_mem_of_parse_eq_error {error : SyntaxError}
    (h : parse (scan source).tokens = .error error) : error.found ∈ (scan source).tokens := by
  have hmem := List.mem_of_getElem? (raisedAt_of_parse_eq_error h).getElem?_eq
  rwa [completed_tokens] at hmem

theorem words_subset (tokens : List Token) : (Input.ofTokens tokens).words ⊆ tokens :=
  (List.takeWhile_prefix _).subset

/-- A tree shows tokens of its source only. -/
theorem terminals_subset_of_parse {root : Node} (h : parse (scan source).tokens = .ok root) :
    ∀ row ∈ root.rows, row.terminals ⊆ (scan source).tokens := by
  have hderives := Parser.derives_of_parseWithin h
  have htokens : (Parser.ofTokens (scan source).tokens).input.toList ⊆ (scan source).tokens := by
    change (Input.ofTokens (scan source).tokens).toList ⊆ _
    rw [Input.toList_ofTokens, completed_tokens]
    exact (Input.throughEnd_isPrefix _).subset
  exact fun row hrow ↦ List.Subset.trans (hderives.shown_subset row hrow) htokens

theorem unescaped_outline (hsource : Unescaped source) {root : Node}
    (h : parse (scan source).tokens = .ok root) : Unescaped root.outline := by
  apply Text.unescaped_join
  rw [List.forall_mem_map]
  intro row hrow
  have hterminals : Unescaped (" ".intercalate (row.terminals.map Token.lexeme)) := by
    apply Text.unescaped_intercalate (by decide)
    rw [List.forall_mem_map]
    intro token htoken
    exact unescaped_lexeme_of_mem_scan hsource (terminals_subset_of_parse h row hrow htoken)
  have hname := row.tag.unescaped_name
  unfold Node.Row.line
  split
  · simp +decide [hname]
  split
  · simp +decide [hname]
  · simp +decide [hname, hterminals]

theorem unescaped_detail (hsource : Unescaped source) {error : SyntaxError}
    (h : parse (scan source).tokens = .error error) : Unescaped error.detail := by
  have hfound : Unescaped error.found.description := Token.unescaped_description
    (unescaped_lexeme_of_mem_scan hsource (found_mem_of_parse_eq_error h))
  have hrun := Parser.runs_of_parseWithin_eq_error h
  have hprevious := hrun.unescaped_previousText fun token htoken ↦
    unescaped_lexeme_of_mem_scan hsource (words_subset _ htoken)
  unfold SyntaxError.detail
  split
  next => simp +decide [hfound]
  next kind place previous hcause =>
    have hplace : Unescaped (place.description previous) := by
      rw [(hrun.describes rfl).previous_eq hcause]
      exact place.unescaped_description hprevious
    simp +decide [kind.unescaped_description, hplace, hfound]
  next => decide
  next => decide

end Parse

/-! ## Messages of a line -/

namespace Session

variable (palette : Palette) (number : Nat)

theorem unescaped_faultWrites {reports : List Report}
    (h : ∀ report ∈ reports, Unescaped report.message) :
    ∀ write ∈ faultWrites palette number reports, Unescaped write.text := by
  rw [faultWrites, List.forall_mem_flatMap]
  intro report hreport
  simp +decide [Write.styled, Write.note, h report hreport]

theorem unescaped_tokenWrites {tokens : List Token} (h : ∀ token ∈ tokens, Unescaped token.lexeme) :
    ∀ write ∈ tokenWrites palette tokens, Unescaped write.text := by
  rw [tokenWrites, List.forall_mem_flatMap]
  intro token htoken
  have htext : Unescaped
      (if token.lexeme.isEmpty then token.kind.description else token.lexeme) := by
    split
    · exact token.kind.unescaped_description
    · exact h token htoken
  dsimp only
  generalize (if token.lexeme.isEmpty then token.kind.description else token.lexeme) = text
    at htext ⊢
  simp +decide [Write.styled, Write.note, htext]

theorem unescaped_scanWrites (listing : Listing) {source : String} (hsource : Unescaped source) :
    ∀ write ∈ scanWrites palette listing number (scan source).tokens (scan source).reports,
      Unescaped write.text := by
  rw [scanWrites, List.forall_mem_append]
  refine ⟨unescaped_faultWrites palette number fun report hreport ↦
    unescaped_message_of_mem_scan hsource hreport, ?_⟩
  split
  · exact unescaped_tokenWrites palette fun token htoken ↦
      unescaped_lexeme_of_mem_scan hsource htoken
  · exact List.forall_mem_nil _

theorem unescaped_errorWrites {source : String} {error : SyntaxError} (hsource : Unescaped source)
    (hdetail : Unescaped error.detail) :
    ∀ write ∈ errorWrites palette number source error, Unescaped write.text := by
  simp +decide [errorWrites, Write.styled, Write.note, hsource, hdetail]

/-- A line without an escape character has no message with one, with or without listings. -/
theorem unescaped_of_mem_writes (listing : Listing) {source : String} (hsource : Unescaped source) :
    ∀ write ∈ (LineReport.ofSource palette listing number source).writes,
      write.channel = .err → Unescaped write.text := by
  have hhead : ∀ write ∈ scanWrites palette listing number (scan source).tokens
      (scan source).reports, write.channel = .err → Unescaped write.text :=
    fun write hwrite _ ↦ unescaped_scanWrites palette number listing hsource write hwrite
  cases h : parse (scan source).tokens with
  | ok root =>
    obtain ⟨expr, hexpr⟩ := exists_ofTree_eq_ok h
    rw [LineReport.ofSource_of_ofTree_eq_ok h hexpr]
    have hresult : ∀ write ∈ [Write.result (expr.render ++ "\n")],
        write.channel = .err → Unescaped write.text := by simp
    refine List.forall_mem_append.2 ⟨hhead, List.forall_mem_append.2 ⟨?_, hresult⟩⟩
    intro write hwrite _
    split at hwrite
    · obtain rfl := List.mem_singleton.1 hwrite
      exact unescaped_outline hsource h
    · cases hwrite
  | error error =>
    rw [LineReport.ofSource_of_parse_eq_error h]
    have herror := unescaped_errorWrites palette number hsource (unescaped_detail hsource h)
    exact List.forall_mem_append.2 ⟨hhead, fun write hwrite _ ↦ herror write hwrite⟩

end Session

end CExpr
