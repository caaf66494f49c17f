import CExpr.Proofs.Session.Unlimited
import CExpr.Proofs.Text.Lines

/-!
# A session line by line

Without listings and without colours, a session on streams without limits writes for each line that
is not blank what compiling that line alone gives: the expression, or the message about the syntax,
after one message for each fault of the scan. It counts the lines for which it wrote a message.
-/

namespace CExpr.Session

/-! ## What a line gives by itself -/

/-- What is said about a fault of the scan. -/
def lexicalMessage (number : Nat) (report : Report) : String :=
  "lexical error: line " ++ toString number ++ ": " ++ report.message ++ "\n"

/-- What is said about a source that does not parse: the message, the source, and a mark under the
token that the error is about. -/
def syntaxMessage (number : Nat) (source : String) (error : SyntaxError) : String :=
  let column := errorColumn source error
  "syntax error: line " ++ toString number ++ ", column " ++ toString (column + 1) ++ ": " ++
    error.detail ++ "\n" ++
    "  " ++ source ++ "\n" ++
    "  " ++ Text.spaces column ++ "^\n"

/-- The syntax error that compiling the source ends with. -/
def syntaxError? (source : String) : Option SyntaxError :=
  match (compileExpr source).1 with
  | .error (.malformed error) => some error
  | _ => none

/-- The result for a source that compiles: its expression on a line. -/
def result? (source : String) : Option String :=
  (compileExpr source).1.toOption.map fun expr ↦ expr.render ++ "\n"

/-- The messages about a source: one for each report of its scan and then the syntax error. -/
def messages (number : Nat) (source : String) : String :=
  String.join ((compileExpr source).2.map (lexicalMessage number)) ++
    String.join ((syntaxError? source).toList.map (syntaxMessage number source))

/-- Whether the scan of the source has a report or the source does not compile. -/
def fails (source : String) : Bool :=
  !(compileExpr source).2.isEmpty || !(compileExpr source).1.isOk

/-! ## The report of a line -/

section Out

variable (useColor : Bool) (palette : Palette)

theorem shownOn_out_faultWrites (number : Nat) (reports : List Report) :
    Write.shownOn useColor .out (faultWrites palette number reports) = "" := by
  rw [faultWrites, Write.shownOn_flatMap]
  induction reports with
  | nil => simp
  | cons report reports ih => simpa using ih

theorem shownOn_out_tokenWrites (tokens : List Token) :
    Write.shownOn useColor .out (tokenWrites palette tokens) = "" := by
  rw [tokenWrites, Write.shownOn_flatMap]
  induction tokens with
  | nil => simp
  | cons token tokens ih => simpa using ih

theorem shownOn_out_scanWrites (listing : Listing) (number : Nat) (tokens : List Token)
    (reports : List Report) :
    Write.shownOn useColor .out (scanWrites palette listing number tokens reports) = "" := by
  rw [scanWrites, Write.shownOn_append, shownOn_out_faultWrites, String.empty_append]
  split
  · exact shownOn_out_tokenWrites useColor palette tokens
  · rfl

theorem shownOn_out_errorWrites (number : Nat) (source : String) (error : SyntaxError) :
    Write.shownOn useColor .out (errorWrites palette number source error) = "" := by
  simp [errorWrites]

end Out

theorem shownOn_err_faultWrites (palette : Palette) (number : Nat) (reports : List Report) :
    Write.shownOn false .err (faultWrites palette number reports) =
      String.join (reports.map (lexicalMessage number)) := by
  rw [faultWrites, Write.shownOn_flatMap]
  refine congrArg String.join (List.map_congr_left fun report _ ↦ ?_)
  have hlabel : "lexical error: line " = "lexical error: " ++ "line " := rfl
  unfold lexicalMessage
  simp only [hlabel, Write.shownOn_cons, Write.channel_styled, Write.channel_note, if_true,
    Write.shown_styled_false, Write.shown_note, Write.shownOn_nil, String.append_empty,
    String.append_assoc]

theorem shownOn_err_errorWrites (palette : Palette) (number : Nat) (source : String)
    (error : SyntaxError) :
    Write.shownOn false .err (errorWrites palette number source error) =
      syntaxMessage number source error := by
  have hlabel : "syntax error: line " = "syntax error: " ++ "line " := rfl
  unfold syntaxMessage errorWrites
  simp only [hlabel, Write.shownOn_cons, Write.channel_styled, Write.channel_note, if_true,
    Write.shown_styled_false, Write.shown_note, Write.shownOn_nil, String.append_empty,
    String.append_assoc]

section Report

variable (palette : Palette) (number : Nat) (source : String)

/-- The results that a line writes, with or without listings and colours. -/
theorem shownOn_out_ofSource (useColor : Bool) (listing : Listing) :
    Write.shownOn useColor .out (LineReport.ofSource palette listing number source).writes =
      (result? source).getD "" := by
  cases h : parse (scan source).tokens with
  | ok root =>
    obtain ⟨expr, hexpr⟩ := exists_ofTree_eq_ok h
    have htree : Write.shownOn useColor .out
        (if listing.tree then [.styled palette.comment root.outline] else []) = "" := by
      split <;> simp
    rw [LineReport.ofSource_of_ofTree_eq_ok h hexpr]
    simp [result?, compileExpr_of_parse_eq_ok h hexpr, shownOn_out_scanWrites, htree,
      Except.toOption]
  | error error =>
    rw [LineReport.ofSource_of_parse_eq_error h]
    simp [result?, compileExpr_of_parse_eq_error h, shownOn_out_scanWrites,
      shownOn_out_errorWrites, Except.toOption]

/-- The messages that a line writes without listings and colours. -/
theorem shownOn_err_ofSource :
    Write.shownOn false .err
        (LineReport.ofSource palette ⟨false, false⟩ number source).writes =
      messages number source := by
  cases h : parse (scan source).tokens with
  | ok root =>
    obtain ⟨expr, hexpr⟩ := exists_ofTree_eq_ok h
    rw [LineReport.ofSource_of_ofTree_eq_ok h hexpr]
    simp [scanWrites, messages, syntaxError?, compileExpr_of_parse_eq_ok h hexpr,
      shownOn_err_faultWrites]
  | error error =>
    rw [LineReport.ofSource_of_parse_eq_error h]
    simp [scanWrites, messages, syntaxError?, compileExpr_of_parse_eq_error h,
      shownOn_err_faultWrites, shownOn_err_errorWrites]

/-- What becomes of a line, with or without listings. -/
theorem verdict_ofSource_ne_clean_iff (listing : Listing) :
    (LineReport.ofSource palette listing number source).verdict ≠ .clean ↔ fails source := by
  cases h : parse (scan source).tokens with
  | ok root =>
    obtain ⟨expr, hexpr⟩ := exists_ofTree_eq_ok h
    rw [LineReport.ofSource_of_ofTree_eq_ok h hexpr]
    simp [fails, compileExpr_of_parse_eq_ok h hexpr, Except.isOk, Except.toBool]
  | error error =>
    rw [LineReport.ofSource_of_parse_eq_error h]
    simp [fails, compileExpr_of_parse_eq_error h, Except.isOk, Except.toBool]

end Report

/-! ## The whole session -/

theorem join_map_getD {α : Type} (items : List α) (f : α → Option String) :
    String.join (items.map fun item ↦ (f item).getD "") = String.join (items.filterMap f) := by
  induction items with
  | nil => rfl
  | cons item items ih => cases h : f item <;> simp [h, ih]

theorem join_eq_empty_iff (texts : List String) :
    String.join texts = "" ↔ ∀ text ∈ texts, text = "" := by
  induction texts with
  | nil => simp
  | cons text texts ih => simp [ih]

theorem syntaxError?_eq_none_iff (source : String) :
    syntaxError? source = none ↔ (compileExpr source).1.isOk := by
  have hne := compileExpr_ne_internal source
  unfold syntaxError?
  cases h : (compileExpr source).1 with
  | ok expr => simp [Except.isOk, Except.toBool]
  | error failure =>
    cases failure with
    | malformed error => simp [Except.isOk, Except.toBool]
    | internal error => exact absurd h (hne error)

theorem lexicalMessage_ne_empty (number : Nat) (report : Report) :
    lexicalMessage number report ≠ "" := by
  unfold lexicalMessage
  rw [Ne, String.append_eq_empty_iff]
  simp

theorem syntaxMessage_ne_empty (number : Nat) (source : String) (error : SyntaxError) :
    syntaxMessage number source error ≠ "" := by
  unfold syntaxMessage
  rw [Ne, String.append_eq_empty_iff]
  simp

/-- There is a message about a source exactly if it fails. -/
theorem messages_eq_empty_iff (number : Nat) (source : String) :
    messages number source = "" ↔ fails source = false := by
  have hreports : String.join ((compileExpr source).2.map (lexicalMessage number)) = "" ↔
      (compileExpr source).2 = [] := by
    cases (compileExpr source).2 with
    | nil => simp
    | cons report reports => simp [lexicalMessage_ne_empty]
  have herror : String.join ((syntaxError? source).toList.map (syntaxMessage number source)) = "" ↔
      (compileExpr source).1.isOk := by
    rw [← syntaxError?_eq_none_iff]
    cases syntaxError? source with
    | none => simp
    | some error => simp [syntaxMessage_ne_empty]
  rw [messages, String.append_eq_empty_iff, hreports, herror]
  simp [fails]

section Reports

variable (first : Nat) (lines : List String)

theorem shownOn_out_lineReports (useColor : Bool) (listing : Listing) :
    Write.shownOn useColor .out
        ((lineReports listing first lines).flatMap LineReport.writes) =
      String.join ((numbered first lines).filterMap fun line ↦ result? line.1) := by
  rw [Write.shownOn_flatMap, lineReports, List.map_map, ← join_map_getD]
  refine congrArg String.join (List.map_congr_left fun line _ ↦ ?_)
  exact shownOn_out_ofSource .standard line.2 line.1 useColor listing

theorem shownOn_err_lineReports :
    Write.shownOn false .err
        ((lineReports ⟨false, false⟩ first lines).flatMap LineReport.writes) =
      String.join ((numbered first lines).map fun line ↦ messages line.2 line.1) := by
  rw [Write.shownOn_flatMap, lineReports, List.map_map]
  refine congrArg String.join (List.map_congr_left fun line _ ↦ ?_)
  exact shownOn_err_ofSource .standard line.2 line.1

theorem after_lineReports (listing : Listing) :
    Tally.after ⟨0, 0⟩ (lineReports listing first lines) =
      ⟨(numbered first lines).length, (numbered first lines).countP fun line ↦ fails line.1⟩ := by
  simp only [Tally.after, lineReports, List.length_map, List.countP_map, Nat.zero_add]
  refine congrArg (Tally.mk _) (List.countP_congr fun line _ ↦ ?_)
  simpa using verdict_ofSource_ne_clean_iff .standard line.2 line.1 listing

end Reports

/-- A session over a text, on fresh streams. Its results are those of the lines that compile, its
messages are those of all its lines, and there are messages only if lines fail. -/
theorem run_ofBytes_toUTF8 (text : String) :
    let lines := numbered 1 (Text.linesOf text)
    let out := String.join (lines.filterMap fun line ↦ result? line.1)
    let err := String.join (lines.map fun line ↦ messages line.2 line.1)
    let failed := lines.countP fun line ↦ fails line.1
    run ⟨false, false⟩ ⟨false, .fresh none, .fresh none⟩ (.ofBytes text.toUTF8) =
        (⟨false, ⟨none, out.toUTF8⟩, ⟨none, err.toUTF8⟩⟩, .ok ⟨lines.length, failed⟩) ∧
      (err = "" ↔ failed = 0) := by
  intro lines out err failed
  have hinput : Input.ofBytes text.toUTF8 = (Text.linesOf text).map .ok := by
    rw [Input.ofBytes, Text.lines_toUTF8, List.map_map]
    rfl
  have hunlimited : (⟨false, .fresh none, .fresh none⟩ : Console).Unlimited := ⟨rfl, rfl⟩
  constructor
  · rw [run, hinput, hunlimited.runFrom, after_lineReports, Console.after,
      shownOn_out_lineReports, shownOn_err_lineReports]
    simp [Sink.add, Sink.fresh, out, err, lines, failed]
  · simp only [err, failed, join_eq_empty_iff, List.forall_mem_map, List.countP_eq_zero,
      messages_eq_empty_iff, Bool.not_eq_true]

end CExpr.Session
