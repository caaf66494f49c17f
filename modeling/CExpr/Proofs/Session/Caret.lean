import CExpr.Proofs.Parse.BoundedRun
import CExpr.Proofs.Session.Display

/-!
# The mark under an error

A syntax error is about a token of the scan or about the end of the source. Either one begins
between two characters, so there is always a number of characters before it, and the message never
falls back on bytes. The mark below the source stands under the first character of the token,
whatever number of bytes the characters before it take.
-/

namespace CExpr

/-! ## The place of a token -/

namespace Token.BeginsIn

variable {source : String} {token : Token} {before rest : List Char}

theorem position_eq (h : token.BeginsIn source before rest) :
    token.location.position = Text.byteLength before :=
  congrArg Location.position h.location_eq

theorem position_le (h : token.BeginsIn source before rest) :
    token.location.position ≤ source.utf8ByteSize := by
  rw [h.position_eq, ← Text.byteLength_toList, h.source_eq, Text.byteLength_append]
  exact Nat.le_add_right _ _

/-- The place of the token falls between two characters. -/
theorem charactersBefore?_eq (h : token.BeginsIn source before rest) :
    Text.charactersBefore? source.toList token.location.position = some before.length := by
  rw [h.position_eq, h.source_eq, Text.charactersBefore?_append]

theorem head?_eq (h : token.BeginsIn source before rest) :
    rest.head? = token.lexeme.toList.head? := by
  obtain ⟨after, hafter⟩ := h.isPrefix
  by_cases hkind : token.kind = .endOfInput
  · have hnil : token.lexeme.toList ++ after = [] := hafter.trans (h.eq_nil_of_end hkind)
    rw [h.eq_nil_of_end hkind, (List.append_eq_nil_iff.1 hnil).1]
  · rw [← hafter, List.head?_append_of_ne_nil _ (h.ne_nil_of_word hkind)]

/-- Below the source with an indent, the first character of the token has the column of the indent
and of the characters before the token. -/
theorem getElem?_indented (h : token.BeginsIn source before rest) :
    ("  " ++ source).toList[2 + before.length]? = token.lexeme.toList.head? := by
  have hindented : ("  " ++ source).toList = ' ' :: ' ' :: (before ++ rest) := by
    rw [String.toList_append, h.source_eq]
    rfl
  have hlength : 2 + before.length = before.length + 2 := Nat.add_comm _ _
  rw [hindented, hlength, List.getElem?_cons_succ, List.getElem?_cons_succ,
    List.getElem?_append_right (Nat.le_refl _), Nat.sub_self, ← List.head?_eq_getElem?, h.head?_eq]

end Token.BeginsIn

/-! ## What is written below a line -/

namespace Session

/-- The indent and the spaces up to the mark are one run of spaces. -/
theorem syntaxMessage_eq {source : String} {error : SyntaxError} {column : Nat}
    (h : Text.charactersBefore? source.toList error.location.position = some column)
    (number : Nat) :
    syntaxMessage number source error =
      "syntax error: line " ++ toString number ++ ", column " ++ toString (column + 1) ++ ": " ++
        error.detail ++ "\n" ++
        "  " ++ source ++ "\n" ++
        Text.spaces (2 + column) ++ "^\n" := by
  have htwo : "  " = Text.spaces 2 := by decide +kernel
  have hindent : "  " ++ Text.spaces column = Text.spaces (2 + column) := by
    rw [htwo, Text.spaces_append]
  obtain rfl : errorColumn source error = column := by rw [errorColumn, h, Option.getD_some]
  unfold syntaxMessage
  simp only [← hindent, String.append_assoc]

variable {console : Console}

/-- A line that does not parse is flawed, and the last thing that is written is its message. -/
theorem Console.Unlimited.submit_of_parse_eq_error (h : console.Unlimited)
    (hplain : console.useColor = false) {source : String} {error : SyntaxError}
    (hparse : parse (scan source).tokens = .error error) (listing : Listing) (number : Nat) :
    (submit listing console number source).2 = .ok false ∧
      ∃ head, (submit listing console number source).1.err =
        console.err.add (head ++ syntaxMessage number source error) := by
  have hshown : ∃ head, Write.shownOn false .err
      (LineReport.ofSource .standard listing number source).writes =
        head ++ syntaxMessage number source error := by
    rw [LineReport.ofSource_of_parse_eq_error hparse, Write.shownOn_append,
      shownOn_err_errorWrites]
    exact ⟨_, rfl⟩
  obtain ⟨head, hhead⟩ := hshown
  have hflawed : (LineReport.ofSource .standard listing number source).verdict = .flawed := by
    rw [LineReport.ofSource_of_parse_eq_error hparse]
  rw [submit_eq]
  simp only [h.sendAll, hflawed, if_true]
  refine ⟨rfl, head, ?_⟩
  rw [Console.after, hplain, hhead]

end Session

/-- The token that an error is about is one of the scan, and it begins between two characters of the
source. The message counts the characters before it, and below the source, two columns further in,
the mark stands under its first character. -/
theorem caret_of_parse_eq_error {source : String} {error : SyntaxError}
    (h : parse (scan source).tokens = .error error) :
    error.found ∈ (scan source).tokens ∧ ∃ before rest, error.found.BeginsIn source before rest ∧
      error.location.position ≤ source.utf8ByteSize ∧
      Text.charactersBefore? source.toList error.location.position = some before.length ∧
      ("  " ++ source).toList[2 + before.length]? = error.found.lexeme.toList.head? ∧
      ∀ (listing : Session.Listing) (console : Session.Console) (number : Nat),
        console.Unlimited → console.useColor = false →
          (Session.submit listing console number source).2 = .ok false ∧
          ∃ head, (Session.submit listing console number source).1.err = console.err.add (head ++
            ("syntax error: line " ++ toString number ++
              ", column " ++ toString (before.length + 1) ++ ": " ++ error.detail ++ "\n" ++
              "  " ++ source ++ "\n" ++
              Text.spaces (2 + before.length) ++ "^\n")) := by
  have hfound := found_mem_of_parse_eq_error h
  obtain ⟨before, rest, hbegins⟩ := exists_beginsIn_of_mem_scan hfound
  refine ⟨hfound, before, rest, hbegins, hbegins.position_le, hbegins.charactersBefore?_eq,
    hbegins.getElem?_indented, ?_⟩
  intro listing console number hunlimited hplain
  rw [← Session.syntaxMessage_eq hbegins.charactersBefore?_eq]
  exact hunlimited.submit_of_parse_eq_error hplain h listing number

/-- A source with a letter of two bytes before the token that is at fault. -/
def accented : String := "\"é\" + )"

def accentedError : SyntaxError := ⟨⟨.punct ')', ⟨0, 7⟩, ")"⟩, .expression⟩

/-- The seventh character is at fault, and seven bytes stand before it. -/
theorem caret_of_accented :
    parse (scan accented).tokens = .error accentedError ∧
      ∃ head, (Session.submit ⟨false, false⟩ (.fresh false) 1 accented).1.err =
        (Session.Sink.fresh none).add (head ++
          ("syntax error: line 1, column 7: Expected expression, found ')'\n" ++
            "  \"é\" + )\n" ++
            "        ^\n")) := by
  have hscan : (scan accented).tokens =
      [⟨.stringLiteral, ⟨0, 0⟩, "\"é\""⟩, ⟨.punct '+', ⟨0, 5⟩, "+"⟩, ⟨.punct ')', ⟨0, 7⟩, ")"⟩,
        ⟨.endOfInput, ⟨0, 8⟩, ""⟩] := by
    decide +kernel
  have hparse : parse (scan accented).tokens = .error accentedError := by
    rw [hscan]
    exact congrArg Prod.fst (Parse.parseWithin_of_boundedRun
      (show Parse.boundedRun .standard _ 40 rootBody _ = some (.error _, _) from rfl))
  obtain ⟨-, before, rest, -, -, hcolumn, -, hsubmit⟩ := caret_of_parse_eq_error hparse
  have hsix : Text.charactersBefore? accented.toList 7 = some 6 := by decide +kernel
  have hlength : before.length = 6 := Option.some.inj (hcolumn.symm.trans hsix)
  obtain ⟨-, head, herr⟩ := hsubmit ⟨false, false⟩ (.fresh false) 1 ⟨rfl, rfl⟩ rfl
  rw [hlength] at herr
  exact ⟨hparse, head, herr⟩

end CExpr
