import CExpr.Compile
import CExpr.Expr.Printer
import CExpr.Session.Write
import CExpr.Text.Pad

/-!
# One line of a session

What is written for a line and what becomes of it: messages about faults of the scan, the token
listing and the tree if they are asked for, and then either the expression or the syntax error with
a mark under the token that it is about. All of this depends on the line alone.
-/

namespace CExpr.Session

/-- Which listings are shown before the result of a line. -/
structure Listing where
  tokens : Bool
  tree : Bool
  deriving DecidableEq, Repr

inductive Verdict
  /-- The line compiled and its scan found no fault. -/
  | clean
  /-- The line has a fault or does not parse. -/
  | flawed
  /-- The line parsed to a tree of no expression. -/
  | broken (error : TreeError)
  deriving DecidableEq, Repr

structure LineReport where
  writes : List Write
  verdict : Verdict
  deriving DecidableEq, Repr

def faultWrites (palette : Palette) (number : Nat) (reports : List Report) : List Write :=
  reports.flatMap fun report ↦
    [.styled palette.warning "lexical error: ",
      .note ("line " ++ toString number ++ ": " ++ report.message ++ "\n")]

/-- The place and the code of a token in columns of three, and then its text. A token without text
is listed by what it is called. -/
def tokenWrites (palette : Palette) (tokens : List Token) : List Write :=
  tokens.flatMap fun token ↦
    let text := if token.lexeme.isEmpty then token.kind.description else token.lexeme
    [.note ("  " ++ Text.alignRight 3 (toString token.location.line) ++ ":" ++
        Text.alignLeft 3 (toString token.location.position) ++ " " ++
        Text.alignRight 3 (toString token.kind.code) ++ "  "),
      .styled (palette.colorOf token.kind) (text ++ "\n")]

/-- What the scan of a line leads to: its reports, and its tokens if they are asked for. -/
def scanWrites (palette : Palette) (listing : Listing) (number : Nat) (tokens : List Token)
    (reports : List Report) : List Write :=
  faultWrites palette number reports ++
    if listing.tokens then tokenWrites palette tokens else []

/-- The number of characters before the token that the error is about. -/
def errorColumn (source : String) (error : SyntaxError) : Nat :=
  (Text.charactersBefore? source.toList error.location.position).getD error.location.position

/-- The message, the line itself, and a mark under the token. Columns are counted from one. A mark is
placed in any column, where a formatter whose widths end at 65535 fails past that column. -/
def errorWrites (palette : Palette) (number : Nat) (source : String) (error : SyntaxError) :
    List Write :=
  let column := errorColumn source error
  [.styled palette.error "syntax error: ",
    .note ("line " ++ toString number ++ ", column " ++ toString (column + 1) ++ ": " ++
      error.detail ++ "\n"),
    .styled palette.plain ("  " ++ source ++ "\n"),
    .styled palette.error ("  " ++ Text.spaces column ++ "^\n")]

/-- What is written for a tree, and what becomes of its line when the scan was clean or not. -/
def LineReport.ofTree (palette : Palette) (listing : Listing) (clean : Bool) (tree : Node) :
    LineReport :=
  let shown := if listing.tree then [.styled palette.comment tree.outline] else []
  match Expr.ofTree tree with
  | .ok expr => ⟨shown ++ [.result (expr.render ++ "\n")], if clean then .clean else .flawed⟩
  | .error error => ⟨shown, .broken error⟩

/-- What is written for a line, and what becomes of it. -/
def LineReport.ofSource (palette : Palette) (listing : Listing) (number : Nat) (source : String) :
    LineReport :=
  let (tokens, log) := scanInto .empty source
  let head := scanWrites palette listing number tokens log.drain.1
  match parse tokens with
  | .ok tree =>
    let report := LineReport.ofTree palette listing log.isEmpty tree
    ⟨head ++ report.writes, report.verdict⟩
  | .error error => ⟨head ++ errorWrites palette number source error, .flawed⟩

namespace LineReport

variable {palette : Palette} {listing : Listing} {number : Nat} {source : String}

/-- A line that is parsed and built gives its expression last. -/
theorem ofSource_of_ofTree_eq_ok {tree : Node} {expr : Expr}
    (htree : parse (scan source).tokens = .ok tree) (hexpr : Expr.ofTree tree = .ok expr) :
    ofSource palette listing number source =
      ⟨scanWrites palette listing number (scan source).tokens (scan source).reports ++
          ((if listing.tree then [.styled palette.comment tree.outline] else []) ++
            [.result (expr.render ++ "\n")]),
        if (scan source).reports.isEmpty then .clean else .flawed⟩ := by
  simp only [ofSource, scanInto_empty, htree, ofTree, hexpr]
  rfl

/-- A line that is not parsed gives the message about it last. -/
theorem ofSource_of_parse_eq_error {error : SyntaxError}
    (h : parse (scan source).tokens = .error error) :
    ofSource palette listing number source =
      ⟨scanWrites palette listing number (scan source).tokens (scan source).reports ++
          errorWrites palette number source error,
        .flawed⟩ := by
  simp only [ofSource, scanInto_empty, h]
  rfl

end LineReport

end CExpr.Session
