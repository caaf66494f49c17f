import CExpr.Proofs.Expr.OfDerivation
import CExpr.Proofs.Parse.Trees
import CExpr.Session.Run

/-!
# Every tree is built

A parse gives the trees of derivations, and from each of these an expression is built. So no source
and no line is ever blamed on the program: what does not compile is malformed, and a session that
ends early had trouble with a stream.
-/

namespace CExpr

/-- Whatever parses has an expression. -/
theorem exists_ofTree_eq_ok {tokens : List Token} {root : Node} (h : parse tokens = .ok root) :
    ∃ expr, Expr.ofTree root = .ok expr := by
  obtain ⟨derivation, rfl, -⟩ := Parser.exists_derivation h
  exact ⟨derivation.expr, derivation.ofTree_toNode⟩

theorem compileTokens_of_parse_eq_error {tokens : List Token} {error : SyntaxError}
    (h : parse tokens = .error error) : compileTokens tokens = .error (.malformed error) := by
  unfold compileTokens
  rw [h]
  rfl

theorem compileTokens_of_parse_eq_ok {tokens : List Token} {root : Node} {expr : Expr}
    (h : parse tokens = .ok root) (hexpr : Expr.ofTree root = .ok expr) :
    compileTokens tokens = .ok ⟨tokens, root, expr⟩ := by
  unfold compileTokens
  rw [h]
  change (Expr.ofTree root).mapError Failure.internal >>= _ = _
  rw [hexpr]
  rfl

theorem compileExpr_of_parse_eq_ok {source : String} {root : Node} {expr : Expr}
    (h : parse (scan source).tokens = .ok root) (hexpr : Expr.ofTree root = .ok expr) :
    compileExpr source = (.ok expr, (scan source).reports) := by
  rw [compileExpr, compile, compileTokens_of_parse_eq_ok h hexpr]
  rfl

theorem compileExpr_of_parse_eq_error {source : String} {error : SyntaxError}
    (h : parse (scan source).tokens = .error error) :
    compileExpr source = (.error (.malformed error), (scan source).reports) := by
  rw [compileExpr, compile, compileTokens_of_parse_eq_error h]
  rfl

/-- Tokens compile unless they do not parse. -/
theorem compileTokens_ne_internal (tokens : List Token) (error : TreeError) :
    compileTokens tokens ≠ .error (.internal error) := by
  cases h : parse tokens with
  | error syntaxError => simp [compileTokens_of_parse_eq_error h]
  | ok root =>
    obtain ⟨expr, hexpr⟩ := exists_ofTree_eq_ok h
    simp [compileTokens_of_parse_eq_ok h hexpr]

theorem compileExpr_ne_internal (source : String) (error : TreeError) :
    (compileExpr source).1 ≠ .error (.internal error) := by
  unfold compileExpr compile
  cases h : compileTokens (scan source).tokens with
  | ok compilation => simp [Except.map]
  | error failure =>
    simp only [Except.map, ne_eq, Except.error.injEq]
    rintro rfl
    exact compileTokens_ne_internal _ error h

namespace Session

/-- A line is clean or flawed. -/
theorem LineReport.verdict_ofSource_ne_broken (palette : Palette) (listing : Listing)
    (number : Nat) (source : String) (error : TreeError) :
    (LineReport.ofSource palette listing number source).verdict ≠ .broken error := by
  cases h : parse (scan source).tokens with
  | error syntaxError =>
    rw [LineReport.ofSource_of_parse_eq_error h]
    exact Verdict.noConfusion
  | ok tree =>
    obtain ⟨expr, hexpr⟩ := exists_ofTree_eq_ok h
    rw [LineReport.ofSource_of_ofTree_eq_ok h hexpr]
    dsimp only
    split <;> exact Verdict.noConfusion

variable (listing : Listing)

theorem submit_ne_internal (console : Console) (number : Nat) (source : String) (line : Nat)
    (error : TreeError) :
    (submit listing console number source).2 ≠ .error (.internal line error) := by
  have hverdict := LineReport.verdict_ofSource_ne_broken .standard listing number source
  unfold submit
  generalize LineReport.ofSource .standard listing number source = report at hverdict ⊢
  cases hwhole : (console.sendAll report.writes).2 with
  | false => simp [hwhole]
  | true =>
    cases h : report.verdict with
    | clean | flawed => simp [hwhole, h]
    | broken cause => exact absurd h (hverdict cause)

/-- No line ends a session but one that a stream makes trouble with. -/
theorem runFrom_ne_internal (number : Nat) (tally : Tally) (console : Console) (input : Input)
    (line : Nat) (error : TreeError) :
    (runFrom listing number tally console input).2 ≠ .error (.internal line error) := by
  fun_induction runFrom listing number tally console input with
  | case1 | case2 => simp
  | case3 number tally console source rest hblank ih => exact ih
  | case4 number tally console source rest hblank after clean hsubmit ih => exact ih
  | case5 number tally console source rest hblank after cause hsubmit =>
    have hne := submit_ne_internal listing console number source line error
    rw [hsubmit] at hne
    simpa using hne

end Session

/-- Building never fails after a parse, so neither a source nor a session ends with an error of the
program itself. -/
theorem parse_builds_and_session_ne_internal :
    (∀ tokens root, parse tokens = .ok root → ∃ expr, Expr.ofTree root = .ok expr) ∧
      (∀ source error, (compile source).1 ≠ .error (.internal error)) ∧
      (∀ source error, (compileExpr source).1 ≠ .error (.internal error)) ∧
      (∀ listing console number source line error,
        (Session.submit listing console number source).2 ≠ .error (.internal line error)) ∧
      ∀ listing console input line error,
        (Session.run listing console input).2 ≠ .error (.internal line error) := by
  refine ⟨fun tokens root h ↦ exists_ofTree_eq_ok h, ?_, compileExpr_ne_internal, ?_, ?_⟩
  · intro source error
    exact compileTokens_ne_internal _ error
  · intro listing console number source line error
    exact Session.submit_ne_internal listing console number source line error
  · intro listing console input line error
    exact Session.runFrom_ne_internal listing 1 ⟨0, 0⟩ console input line error

theorem parse_builds_sample :
    parse Derivation.sample.tokens = .ok Derivation.sample.toNode ∧
      ∃ expr, Expr.ofTree Derivation.sample.toNode = .ok expr := by
  have h := Derivation.parse_sample
  exact ⟨h, parse_builds_and_session_ne_internal.1 _ _ h⟩

end CExpr
