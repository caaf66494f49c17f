import CExpr.Proofs.Parse.Viable

/-!
# Errors are final

A parse that fails has looked at nothing after the token that its error is about. That token is the
one at which the parse stopped, or the operator too many, which was consumed before it was refused.
Whatever stands after it, the parse fails with the same error.
-/

namespace CExpr

open Parse

/-- The position of the token that an error is about, from the position at which the parse ended. An
operator too many has been consumed. -/
def SyntaxError.indexAt (error : SyntaxError) (position : Nat) : Nat :=
  if error.cause = .tooManyOperators then position - 1 else position

/-- A parse of the tokens fails, and the error is raised at the token at the index. -/
structure RaisedAt (tokens : List Token) (index : Nat) (error : SyntaxError) : Prop where
  parse_eq : parse tokens = .error error
  index_eq : index = error.indexAt (Parser.ofTokens tokens).parse.2.state.position
  getElem?_eq : (Input.completed tokens)[index]? = some error.found

namespace Parse

variable {limits : Limits} {stop : Token} {words : List Token} {final : State}
  {error : SyntaxError}

/-- Before the token that an error is about stand as many words as its index says. They were all
consumed, and so was the token when it is an operator too many. -/
theorem Runs.exists_front (h : Runs limits stop rootBody (.initial words) (.error error) final) :
    ∃ front, front.length = error.indexAt final.position ∧
      (error.cause = .tooManyOperators → words = front ++ error.found :: final.ahead) ∧
      (error.cause ≠ .tooManyOperators →
        error.found = final.current stop ∧ words = front ++ final.ahead) := by
  obtain ⟨consumed, hbefore, hwords⟩ := h.exists_consumed
  have hbefore : final.before = consumed.reverse := by simpa [State.initial] using hbefore
  have hwords : words = consumed ++ final.ahead := hwords
  have hposition : final.position = consumed.length := by simp [State.position, hbefore]
  by_cases hcause : error.cause = .tooManyOperators
  · have hlast := (h.describes rfl).head?_before hcause
    rw [hbefore, List.head?_reverse] at hlast
    obtain ⟨front, rfl⟩ := List.getLast?_eq_some_iff.1 hlast
    refine ⟨front, ?_, fun _ ↦ ?_, fun hother ↦ absurd hcause hother⟩
    · rw [SyntaxError.indexAt, if_pos hcause, hposition]
      simp
    · rw [hwords, List.append_assoc, List.singleton_append]
  · refine ⟨consumed, ?_, fun hother ↦ absurd hother hcause, fun _ ↦ ?_⟩
    · rw [SyntaxError.indexAt, if_neg hcause, hposition]
    · exact ⟨(h.describes rfl).found_eq_current hcause, hwords⟩

/-- Tokens that begin an input which goes on after its end, and have no end before their last one,
begin the input up to its end. -/
theorem prefix_concat_stop {front after : List Token} {token : Token}
    (hfront : ∀ token ∈ front, token.kind ≠ .endOfInput) (hstop : stop.kind = .endOfInput)
    (h : front ++ [token] <+: words ++ stop :: after) : front ++ [token] <+: words ++ [stop] := by
  have hinput : words ++ [stop] <+: words ++ stop :: after := ⟨after, by simp⟩
  rcases List.prefix_or_prefix_of_prefix h hinput with hbegins | hlonger
  · exact hbegins
  rcases List.prefix_concat_iff.1 hlonger with heq | hbefore
  · exact heq ▸ List.prefix_rfl
  · exact absurd hstop (hfront stop (hbefore.subset (by simp)))

/-- A run that fails does so in the same place on every input that has the same tokens up to the
one that the error is about. -/
theorem Runs.exists_other (h : Runs limits stop rootBody (.initial words) (.error error) final)
    {others front : List Token} {otherStop : Token}
    (hkinds : ∀ token ∈ words, token.kind ≠ .endOfInput) (hstop : stop.kind = .endOfInput)
    (hothers : ∀ token ∈ others, token.kind ≠ .endOfInput)
    (hotherStop : otherStop.kind = .endOfInput)
    (hlength : front.length = error.indexAt final.position)
    (hfront : front <+: words) (hbegins : front ++ [error.found] <+: others ++ [otherStop]) :
    ∃ otherFinal, otherFinal.position = final.position ∧
      Runs limits otherStop rootBody (.initial others) (.error error) otherFinal := by
  obtain ⟨same, hsame, hmany, hnext⟩ := h.exists_front
  obtain ⟨rest, hrest⟩ := hfront
  by_cases hcause : error.cause = .tooManyOperators
  · obtain ⟨rfl, -⟩ := List.append_inj (hrest.trans (hmany hcause)) (hlength.trans hsame.symm)
    have hwords : words = front ++ [error.found] ++ final.ahead := by
      rw [hmany hcause, List.append_assoc, List.singleton_append]
    have hfound : error.found.kind ≠ .endOfInput := hkinds _ (by rw [hmany hcause]; simp)
    have hprefix : front ++ [error.found] <+: others := by
      refine (List.prefix_concat_iff.1 hbegins).resolve_left fun heq ↦ hfound ?_
      have hlast : error.found = otherStop := by simpa using (List.append_inj' heq rfl).2
      rw [hlast, hotherStop]
    obtain ⟨other, rfl⟩ := hprefix
    refine ⟨final.withAhead other, rfl, h.withAhead hwords fun hnone ↦ absurd ?_ hnone⟩
    refine ⟨error.found, ?_⟩
    rw [← hcause]
  · obtain ⟨hfound, hwords⟩ := hnext hcause
    obtain ⟨rfl, -⟩ := List.append_inj (hrest.trans hwords) (hlength.trans hsame.symm)
    rw [hfound] at hbegins
    have hahead : ∀ token ∈ final.ahead, token.kind ≠ .endOfInput := fun token htoken ↦
      hkinds token (hwords ▸ List.mem_append_right _ htoken)
    obtain ⟨other, rfl, hsameNext⟩ := exists_sameNext hahead hstop hothers hotherStop hbegins
    exact ⟨final.withAhead other, rfl, h.withAhead hwords fun _ ↦ hsameNext⟩

end Parse

/-! ## Parses -/

variable {tokens : List Token} {error : SyntaxError}

/-- What a run over the input of tokens comes to is what their parse gives. -/
theorem Parser.parse_of_runs {result : Except SyntaxError Contents} {final : State}
    (h : Runs .standard (Input.ofTokens tokens).stop rootBody
      (.initial (Input.ofTokens tokens).words) result final) :
    (Parser.ofTokens tokens).parse = (result.map (Contents.toNode .root rootBody),
      { Parser.ofTokens tokens with state := final }) :=
  @Runs.parseWithin .standard (Parser.ofTokens tokens) result final h

/-- The completed tokens up to the one that an error is about, which no end comes before. -/
theorem Parse.Runs.completed_eq {limits : Limits} {final : State}
    (h : Runs limits (Input.ofTokens tokens).stop rootBody
      (.initial (Input.ofTokens tokens).words) (.error error) final) :
    ∃ front after, front.length = error.indexAt final.position ∧
      front <+: (Input.ofTokens tokens).words ∧
      Input.completed tokens = front ++ error.found :: after := by
  obtain ⟨front, hlength, hmany, hnext⟩ := h.exists_front
  by_cases hcause : error.cause = .tooManyOperators
  · obtain ⟨after, hcompleted⟩ := Input.exists_completed_eq_append tokens
    have hwords := hmany hcause
    rw [hwords, List.append_assoc, List.cons_append] at hcompleted
    exact ⟨front, _, hlength, ⟨_, hwords.symm⟩, hcompleted⟩
  · obtain ⟨hfound, hwords⟩ := hnext hcause
    obtain ⟨after, hcompleted⟩ := Input.exists_completed_eq_consumed hwords
    exact ⟨front, after, hlength, ⟨_, hwords.symm⟩, hfound ▸ hcompleted⟩

/-- A parse that fails raises its error at some token. -/
theorem raisedAt_of_parse_eq_error (h : parse tokens = .error error) :
    RaisedAt tokens (error.indexAt (Parser.ofTokens tokens).parse.2.state.position) error where
  parse_eq := h
  index_eq := rfl
  getElem?_eq := by
    obtain ⟨front, after, hlength, -, hcompleted⟩ :=
      (Parser.runs_of_parseWithin_eq_error h).completed_eq
    have hindex : error.indexAt (Parser.ofTokens tokens).parse.2.state.position = front.length :=
      hlength.symm
    rw [hindex, hcompleted]
    simp

/-- An error is final: a parse of any other tokens that are the same up to the one that the error
is about fails with the same error, raised at the same token. -/
theorem raisedAt_other_of_parse_eq_error (h : parse tokens = .error error) :
    ∃ index, RaisedAt tokens index error ∧
      ∀ other, (Input.completed other).take (index + 1) =
          (Input.completed tokens).take (index + 1) → RaisedAt other index error := by
  refine ⟨_, raisedAt_of_parse_eq_error h, fun other hother ↦ ?_⟩
  have hrun := Parser.runs_of_parseWithin_eq_error h
  obtain ⟨front, after, hlength, hfront, hcompleted⟩ := hrun.completed_eq
  obtain ⟨behind, hbehind⟩ := Input.exists_completed_eq_append other
  have hwords := (Input.ofTokens tokens).words_kind
  have hbegins : front ++ [error.found] <+:
      (Input.ofTokens other).words ++ [(Input.ofTokens other).stop] := by
    apply prefix_concat_stop (fun token htoken ↦ hwords token (hfront.subset htoken))
      (Input.ofTokens other).stop_kind
    have htake : (Input.completed tokens).take (front.length + 1) = front ++ [error.found] := by
      rw [hcompleted, List.take_length_add_append]
      rfl
    rw [← hbehind, ← htake, hlength]
    exact hother ▸ List.take_prefix _ _
  obtain ⟨final, hposition, hrunOther⟩ := hrun.exists_other hwords
    (Input.ofTokens tokens).stop_kind (Input.ofTokens other).words_kind
    (Input.ofTokens other).stop_kind hlength hfront hbegins
  have hparse := Parser.parse_of_runs hrunOther
  have hraised := raisedAt_of_parse_eq_error (congrArg Prod.fst hparse)
  have hindex : (Parser.ofTokens other).parse.2.state.position =
      (Parser.ofTokens tokens).parse.2.state.position := by
    rw [hparse]
    exact hposition
  rwa [hindex] at hraised

/-- In `a+)b` the third token is at fault, and it is in `a+)(` too. -/
theorem raisedAt_other_of_parse_missingOperand :
    parse missingOperand = .error ⟨Derivation.signAt (.punct ')') 2, .expression⟩ ∧
      RaisedAt (missingOperand.take 3 ++ [Derivation.signAt (.punct '(') 3]) 2
        ⟨Derivation.signAt (.punct ')') 2, .expression⟩ := by
  have hparse := congrArg Prod.fst parse_missingOperand
  obtain ⟨index, hraised, hother⟩ := raisedAt_other_of_parse_eq_error hparse
  obtain rfl : index = 2 := by
    rw [hraised.index_eq, parse_missingOperand]
    rfl
  exact ⟨hparse, hother _ rfl⟩

end CExpr
