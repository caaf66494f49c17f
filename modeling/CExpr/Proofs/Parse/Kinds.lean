import CExpr.Proofs.Expr.Erase
import CExpr.Proofs.Parse.RaisedAt

/-!
# Only kinds decide a parse

Stripping the words of an input of their texts and places turns a run over it into a run over the
stripped input, step by step. Two lists of tokens of the same kinds are the same list when they are
stripped, so their runs take the same steps. They end in trees that differ in texts and places only,
or in errors raised at the same place for the same cause.
-/

namespace CExpr

open Parse

/-! ## Erased runs -/

def SyntaxCause.erase : SyntaxCause → SyntaxCause
  | expression => expression
  | missing kind place _ => missing kind place ""
  | tooDeep => tooDeep
  | tooManyOperators => tooManyOperators

/-- The error without the texts and places of tokens. -/
def SyntaxError.erase (error : SyntaxError) : SyntaxError := ⟨error.found.erase, error.cause.erase⟩

namespace Parse

/-- The contents without the texts and places of their tokens. -/
def Contents.erase (contents : Contents) : Contents :=
  ⟨contents.terminals.map Token.erase, Node.eraseAll contents.children⟩

theorem Contents.erase_toNode (name : NonTerminal) (body : List Symbol) (contents : Contents) :
    (contents.toNode name body).erase = contents.erase.toNode name body := by
  simp [toNode, Node.erase, erase]

/-- What a run over stripped words comes to. -/
def eraseResult : Except SyntaxError Contents → Except SyntaxError Contents
  | .ok contents => .ok contents.erase
  | .error error => .error error.erase

theorem eraseResult_withTerminal (token : Token) (result : Except SyntaxError Contents) :
    eraseResult (result.map (.withTerminal token)) =
      (eraseResult result).map (.withTerminal token.erase) := by
  cases result <;> rfl

theorem eraseResult_withChild (node : Node) (result : Except SyntaxError Contents) :
    eraseResult (result.map (.withChild node)) =
      (eraseResult result).map (.withChild node.erase) := by
  cases result <;> rfl

namespace State

/-- The state without the texts and places of its words. -/
def erase (state : State) : State where
  before := state.before.map Token.erase
  ahead := state.ahead.map Token.erase
  depth := state.depth
  operators := state.operators

variable (state : State)

@[simp] theorem position_erase : state.erase.position = state.position := by
  simp [position, erase]

theorem lookahead_erase : state.erase.lookahead = state.lookahead := by
  unfold lookahead erase
  cases state.ahead <;> rfl

theorem current_erase (stop : Token) :
    state.erase.current stop.erase = (state.current stop).erase := by
  unfold current erase
  cases state.ahead <;> rfl

theorem previousText_erase : state.erase.previousText = "" := by
  unfold previousText erase
  cases state.before <;> rfl

theorem mismatch_erase (stop : Token) (kind : Kind) (role : Role) :
    state.erase.mismatch stop.erase kind role = (state.mismatch stop kind role).erase := by
  unfold mismatch SyntaxError.erase
  rw [current_erase, previousText_erase]
  cases role <;> rfl

theorem ahead_erase {state : State} {token : Token} {ahead : List Token}
    (h : state.ahead = token :: ahead) :
    state.erase.ahead = token.erase :: ahead.map Token.erase := by
  simp [erase, h]

end State

/-- Stripped of texts and places, a run is a run over the stripped words. -/
theorem Runs.erase {limits : Limits} {stop : Token} {body : List Symbol} {state final : State}
    {result : Except SyntaxError Contents} (h : Runs limits stop body state result final) :
    Runs limits stop.erase body state.erase (eraseResult result) final.erase := by
  induction h with
  | done => exact .done
  | stop hahead _ ih =>
    rw [eraseResult_withTerminal]
    exact .stop (by simp [State.erase, hahead]) ih
  | word hahead hcount _ ih =>
    rw [eraseResult_withTerminal]
    exact .word (State.ahead_erase hahead) hcount ih
  | tooMany hahead hcount => exact .tooMany (State.ahead_erase hahead) hcount
  | mismatch hkind =>
    rw [eraseResult, ← State.mismatch_erase]
    rw [← State.lookahead_erase] at hkind
    exact .mismatch hkind
  | tooDeep hnests hdepth =>
    rw [eraseResult, SyntaxError.erase, ← State.current_erase]
    exact .tooDeep hnests hdepth
  | unexpected hdepth hnone =>
    rw [eraseResult, SyntaxError.erase, ← State.current_erase]
    rw [← State.lookahead_erase] at hnone
    exact .unexpected hdepth hnone
  | @inside name production rest state inner error hdepth hproduction _ ih =>
    rw [← State.lookahead_erase] at hproduction
    change Runs limits stop.erase (.rule name :: rest) state.erase (.error error.erase)
      (inner.erase.leave name)
    exact .inside hdepth hproduction ih
  | rule hdepth hproduction _ _ ihInner ihRest =>
    rw [eraseResult_withChild, Contents.erase_toNode]
    rw [← State.lookahead_erase] at hproduction
    exact .rule hdepth hproduction ihInner ihRest

end Parse

/-! ## Erased inputs -/

namespace Parse.Input

theorem words_map_erase (tokens : List Token) :
    (ofTokens (tokens.map Token.erase)).words = (ofTokens tokens).words.map Token.erase := by
  change (tokens.map Token.erase).takeWhile isWord = _
  rw [List.takeWhile_map]
  rfl

theorem suppliedStop_map_erase (tokens : List Token) :
    suppliedStop (tokens.map Token.erase) = (suppliedStop tokens).erase := by
  unfold suppliedStop
  rw [List.getLast?_map]
  cases tokens.getLast? <;> rfl

theorem stop_map_erase (tokens : List Token) :
    (ofTokens (tokens.map Token.erase)).stop = (ofTokens tokens).stop.erase := by
  change ((tokens.map Token.erase).find? (!isWord ·)).getD (suppliedStop (tokens.map _)) =
    ((tokens.find? (!isWord ·)).getD (suppliedStop tokens)).erase
  rw [List.find?_map, suppliedStop_map_erase]
  change ((tokens.find? (!isWord ·)).map Token.erase).getD _ = _
  cases tokens.find? (!isWord ·) <;> rfl

end Parse.Input

/-- Stripped of texts and places, a parse is the parse of the stripped tokens. -/
theorem Parser.erase_outcome {limits : Limits} (tokens : List Token) :
    eraseResult (outcome limits (.ofTokens tokens)).result =
        (outcome limits (.ofTokens (tokens.map Token.erase))).result ∧
      (outcome limits (.ofTokens tokens)).final.erase =
        (outcome limits (.ofTokens (tokens.map Token.erase))).final := by
  have hrun : Runs limits (Input.ofTokens tokens).stop rootBody
      (.initial (Input.ofTokens tokens).words) (outcome limits (.ofTokens tokens)).result
      (outcome limits (.ofTokens tokens)).final := runs_run _ _
  have herased := hrun.erase
  rw [← Input.stop_map_erase] at herased
  change Runs _ _ _ (.initial ((Input.ofTokens tokens).words.map Token.erase)) _ _ at herased
  rw [← Input.words_map_erase] at herased
  obtain ⟨hresult, hfinal⟩ := herased.run_eq
  exact ⟨hresult.symm, hfinal.symm⟩

/-! ## Messages of limits -/

/-- The message of an error of the grammar begins otherwise than that of a limit. -/
theorem SyntaxError.take_detail {error : SyntaxError} (h : error.isLimit = false) :
    error.detail.toList.take 5 = "Expec".toList := by
  obtain ⟨found, cause⟩ := error
  cases cause with
  | expression | missing => simp [detail, String.toList_append]
  | tooDeep | tooManyOperators => simp [isLimit] at h

/-- The message of a limit is made from its cause alone. -/
theorem SyntaxError.detail_eq_of_isLimit {first second : SyntaxError}
    (h : first.cause.erase = second.cause.erase) (hlimit : first.isLimit = true) :
    first.detail = second.detail := by
  obtain ⟨firstFound, firstCause⟩ := first
  obtain ⟨secondFound, secondCause⟩ := second
  cases firstCause <;> cases secondCause <;> simp_all [isLimit, SyntaxCause.erase, detail]

/-- Errors with the same cause agree on whether they have the message of a limit. -/
theorem SyntaxError.detail_eq_iff {first second : SyntaxError}
    (h : first.cause.erase = second.cause.erase) {text : String}
    (htext : text.toList.take 5 ≠ "Expec".toList) :
    first.detail = text ↔ second.detail = text := by
  cases hfirst : first.isLimit with
  | true => rw [detail_eq_of_isLimit h hfirst]
  | false =>
    cases hsecond : second.isLimit with
    | true => rw [detail_eq_of_isLimit h.symm hsecond]
    | false =>
      constructor
      · rintro rfl
        exact absurd (take_detail hfirst) htext
      · rintro rfl
        exact absurd (take_detail hsecond) htext

/-- Errors with the same cause are about tokens at the same place. -/
theorem SyntaxError.indexAt_eq {first second : SyntaxError}
    (h : first.cause.erase = second.cause.erase) (position : Nat) :
    first.indexAt position = second.indexAt position := by
  obtain ⟨firstFound, firstCause⟩ := first
  obtain ⟨secondFound, secondCause⟩ := second
  cases firstCause <;> cases secondCause <;> simp_all [indexAt, SyntaxCause.erase]

/-! ## Parses -/

/-- Trees of parses that differ in texts and places only have expressions that are written the
same. -/
theorem exists_render_eq {first second : List Token} {firstRoot secondRoot : Node}
    (hfirst : parse first = .ok firstRoot) (hsecond : parse second = .ok secondRoot)
    (h : firstRoot.erase = secondRoot.erase) :
    ∃ firstExpr secondExpr, Expr.ofTree firstRoot = .ok firstExpr ∧
      Expr.ofTree secondRoot = .ok secondExpr ∧ firstExpr.render = secondExpr.render := by
  obtain ⟨firstDerivation, rfl, -⟩ := Parser.exists_derivation hfirst
  obtain ⟨secondDerivation, rfl, -⟩ := Parser.exists_derivation hsecond
  refine ⟨_, _, firstDerivation.ofTree_toNode, secondDerivation.ofTree_toNode, ?_⟩
  apply Expr.render_eq_of_erase_eq firstDerivation.forms.legible secondDerivation.forms.legible
  have hbuilt : Except.ok firstDerivation.erase.expr =
      (.ok secondDerivation.erase.expr : Except TreeError Expr) := by
    rw [← Derivation.ofTree_toNode, ← Derivation.ofTree_toNode, Derivation.toNode_erase, h,
      Derivation.toNode_erase]
  rw [firstDerivation.erase_read.1, Except.ok.inj hbuilt, secondDerivation.erase_read.1]

/-- Lists of tokens of the same kinds are parsed by the same steps. -/
theorem Parser.eraseResult_eq_of_map_kind_eq {first second : List Token}
    (h : first.map Token.kind = second.map Token.kind) :
    eraseResult (outcome .standard (.ofTokens first)).result =
        eraseResult (outcome .standard (.ofTokens second)).result ∧
      (Parser.ofTokens first).parse.2.state.position =
        (Parser.ofTokens second).parse.2.state.position := by
  have herased : first.map Token.erase = second.map Token.erase := by
    have hmap : ∀ tokens : List Token, tokens.map Token.erase =
        (tokens.map Token.kind).map fun kind ↦ ⟨kind, .start, ""⟩ := by simp [Token.erase]
    rw [hmap, hmap, h]
  obtain ⟨hfirst, hfirstFinal⟩ := @erase_outcome .standard first
  obtain ⟨hsecond, hsecondFinal⟩ := @erase_outcome .standard second
  have hfinal := congrArg State.position (hfirstFinal.trans (herased ▸ hsecondFinal.symm))
  rw [State.position_erase, State.position_erase] at hfinal
  exact ⟨hfirst.trans (herased ▸ hsecond.symm), hfinal⟩

/-- Lists of tokens of the same kinds are both parsed, into trees that differ in texts and places
only and are written the same, or neither is: then the errors are raised at the same token, and both
are about the same limit or neither is about one. -/
theorem parse_of_map_kind_eq {first second : List Token}
    (h : first.map Token.kind = second.map Token.kind) :
    (∃ firstRoot secondRoot firstExpr secondExpr, parse first = .ok firstRoot ∧
      parse second = .ok secondRoot ∧ firstRoot.erase = secondRoot.erase ∧
      Expr.ofTree firstRoot = .ok firstExpr ∧ Expr.ofTree secondRoot = .ok secondExpr ∧
      firstExpr.render = secondExpr.render) ∨
    ∃ index firstError secondError, RaisedAt first index firstError ∧
      RaisedAt second index secondError ∧
      (firstError.detail = "Expression nested too deeply" ↔
        secondError.detail = "Expression nested too deeply") ∧
      (firstError.detail = "Expression has too many operators" ↔
        secondError.detail = "Expression has too many operators") := by
  obtain ⟨hresult, hposition⟩ := Parser.eraseResult_eq_of_map_kind_eq h
  cases hfirstResult : (Parser.outcome .standard (.ofTokens first)).result with
  | ok firstContents =>
    cases hsecondResult : (Parser.outcome .standard (.ofTokens second)).result with
    | error error => simp [hfirstResult, hsecondResult, eraseResult] at hresult
    | ok secondContents =>
      left
      have hcontents : firstContents.erase = secondContents.erase := by
        simpa [hfirstResult, hsecondResult, eraseResult] using hresult
      have hfirst : parse first = .ok (firstContents.toNode .root rootBody) :=
        congrArg (Except.map _) hfirstResult
      have hsecond : parse second = .ok (secondContents.toNode .root rootBody) :=
        congrArg (Except.map _) hsecondResult
      have hroot : (firstContents.toNode .root rootBody).erase =
          (secondContents.toNode .root rootBody).erase := by
        rw [Contents.erase_toNode, hcontents, Contents.erase_toNode]
      obtain ⟨firstExpr, secondExpr, hexprs⟩ := exists_render_eq hfirst hsecond hroot
      exact ⟨_, _, firstExpr, secondExpr, hfirst, hsecond, hroot, hexprs⟩
  | error firstError =>
    cases hsecondResult : (Parser.outcome .standard (.ofTokens second)).result with
    | ok contents => simp [hfirstResult, hsecondResult, eraseResult] at hresult
    | error secondError =>
      right
      have hcause : firstError.cause.erase = secondError.cause.erase := by
        rw [hfirstResult, hsecondResult] at hresult
        exact congrArg SyntaxError.cause (Except.error.inj hresult)
      have hfirst : parse first = .error firstError := congrArg (Except.map _) hfirstResult
      have hsecond : parse second = .error secondError := congrArg (Except.map _) hsecondResult
      have hraised := raisedAt_of_parse_eq_error hfirst
      rw [hposition, SyntaxError.indexAt_eq hcause] at hraised
      exact ⟨_, firstError, secondError, hraised, raisedAt_of_parse_eq_error hsecond,
        SyntaxError.detail_eq_iff hcause (by decide), SyntaxError.detail_eq_iff hcause (by decide)⟩

/-- Stripped of its texts and places, `a+)b` fails at its third token too. -/
theorem raisedAt_map_erase_missingOperand :
    missingOperand.map Token.kind = (missingOperand.map Token.erase).map Token.kind ∧
      ∃ error, RaisedAt (missingOperand.map Token.erase) 2 error := by
  have hkinds : missingOperand.map Token.kind = (missingOperand.map Token.erase).map Token.kind :=
    rfl
  have hparse := congrArg Prod.fst parse_missingOperand
  rcases parse_of_map_kind_eq hkinds with
    ⟨root, _, _, _, hroot, -⟩ | ⟨index, error, erased, hraised, herased, -⟩
  · exact nomatch hparse.symm.trans hroot
  · obtain rfl := Except.error.inj (hparse.symm.trans hraised.parse_eq)
    obtain rfl : index = 2 := by
      rw [hraised.index_eq, parse_missingOperand]
      rfl
    exact ⟨hkinds, erased, herased⟩

end CExpr
