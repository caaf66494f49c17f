import CExpr.Proofs.Grammar.Productive
import CExpr.Proofs.Parse.BoundedRun
import CExpr.Proofs.Parse.NextToken
import CExpr.Proofs.Parse.Trees

/-!
# Errors stand at the first impossible token

A list of tokens is viable when some sentence of the grammar begins with it. However a run ends, the
words that it has consumed are viable, as everything that is still open can be filled. A run that
ends in an error of the grammar would end the same way on every input that begins with the same
words and the same next token, so with the next token they are viable no more.
-/

namespace CExpr

open Parse

/-- Some sentence of the grammar begins with the tokens. -/
def IsViable (tokens : List Token) : Prop :=
  ∃ derivation : Derivation .root, tokens <+: derivation.tokens

namespace Parse

variable {limits : Limits} {stop : Token} {body : List Symbol} {state final : State}
  {result : Except SyntaxError Contents}

theorem root_notMem_of_isInner (h : body.all Symbol.isInner) : Symbol.rule .root ∉ body :=
  fun hmem ↦ absurd (List.all_eq_true.1 h _ hmem) (by decide)

theorem isInner_of_root_notMem {name : NonTerminal} {rest : List Symbol} {production : Production}
    (h : Symbol.rule .root ∉ Symbol.rule name :: rest)
    (hproduction : production ∈ name.productions) : production.body.all Symbol.isInner := by
  refine NonTerminal.isInner_of_mem ?_ hproduction
  rintro rfl
  exact h List.mem_cons_self

/-- However a run ends, the words that it has consumed begin what fills its body. -/
theorem Runs.exists_fills_consumed (h : Runs limits stop body state result final)
    (hbody : Symbol.rule .root ∉ body) :
    ∃ consumed completion contents, state.ahead = consumed ++ final.ahead ∧
      Fills body contents (consumed ++ completion) := by
  induction h with
  | done => exact ⟨[], [], .empty, rfl, .nil⟩
  | @stop role rest state final result hnil _ ih =>
    obtain ⟨consumed, completion, contents, hahead, hfills⟩ :=
      ih (fun hmem ↦ hbody (List.mem_cons_of_mem _ hmem))
    obtain ⟨rfl, -⟩ := List.append_eq_nil_iff.1 (hahead.symm.trans hnil)
    exact ⟨[], _, _, hahead, .terminal ⟨.endOfInput, .start, ""⟩ rfl hfills⟩
  | @word token role rest state final ahead result hahead _ _ ih =>
    obtain ⟨consumed, completion, contents, hrest, hfills⟩ :=
      ih (fun hmem ↦ hbody (List.mem_cons_of_mem _ hmem))
    refine ⟨token :: consumed, completion, _, ?_, .terminal token rfl hfills⟩
    calc state.ahead
        = token :: (state.consume role token ahead).ahead := hahead
      _ = token :: consumed ++ final.ahead := by rw [hrest, List.cons_append]
  | @tooMany token rest state ahead hahead _ =>
    obtain ⟨contents, completion, hrest⟩ := Body.exists_fills rest
    exact ⟨[token], completion, _, hahead, .terminal token rfl hrest⟩
  | mismatch | tooDeep | unexpected =>
    obtain ⟨contents, completion, hfills⟩ := Body.exists_fills _
    exact ⟨[], completion, contents, rfl, hfills⟩
  | @inside name production rest state inner error _ hproduction _ ih =>
    have hmem := NonTerminal.mem_productions hproduction
    obtain ⟨consumed, completion, contents, hahead, hfills⟩ :=
      ih (root_notMem_of_isInner (isInner_of_root_notMem hbody hmem))
    obtain ⟨outer, after, hrest⟩ := Body.exists_fills rest
    have hfilled := Fills.rule hmem hfills hrest
    rw [List.append_assoc] at hfilled
    exact ⟨consumed, completion ++ after, _, hahead, hfilled⟩
  | @rule name production rest state inner final contents result _ hproduction hinner _ _ ih =>
    have hmem := NonTerminal.mem_productions hproduction
    obtain ⟨front, hfront, hfillsInner⟩ := hinner.fills (isInner_of_root_notMem hbody hmem) rfl
    obtain ⟨back, completion, outer, hback, hfillsRest⟩ :=
      ih (fun hmem ↦ hbody (List.mem_cons_of_mem _ hmem))
    have hfilled := Fills.rule hmem hfillsInner hfillsRest
    rw [← List.append_assoc] at hfilled
    refine ⟨front ++ back, completion, _, ?_, hfilled⟩
    calc state.ahead
        = front ++ (inner.leave name).ahead := hfront
      _ = front ++ back ++ final.ahead := by rw [hback, List.append_assoc]

/-- A run that did not meet a limit takes the same steps without limits. -/
theorem Runs.unlimited (h : Runs limits stop body state result final)
    (hlimit : ∀ error, result = .error error → error.isLimit = false) :
    Runs .unlimited stop body state result final := by
  have hmap : ∀ {change : Contents → Contents} {result : Except SyntaxError Contents},
      (∀ error, result.map change = .error error → error.isLimit = false) →
        ∀ error, result = .error error → error.isLimit = false := by
    rintro change result hlimit error rfl
    exact hlimit error rfl
  induction h with
  | done => exact .done
  | stop hnil _ ih => exact .stop hnil (ih (hmap hlimit))
  | word hahead _ _ ih => exact .word hahead (fun _ ↦ rfl) (ih (hmap hlimit))
  | tooMany => simpa [SyntaxError.isLimit] using hlimit _ rfl
  | mismatch hkind => exact .mismatch hkind
  | tooDeep => simpa [SyntaxError.isLimit] using hlimit _ rfl
  | unexpected _ hnone => exact .unexpected (fun _ ↦ rfl) hnone
  | inside _ hproduction _ ih => exact .inside (fun _ ↦ rfl) hproduction (ih hlimit)
  | rule _ hproduction _ _ ihInner ihRest =>
    exact .rule (fun _ ↦ rfl) hproduction (ihInner (by simp)) (ihRest (hmap hlimit))

namespace Input

theorem throughEnd_isPrefix (tokens : List Token) : throughEnd tokens <+: tokens := by
  induction tokens with
  | nil => exact List.prefix_rfl
  | cons token tokens ih =>
    unfold throughEnd
    split
    · exact List.prefix_append [token] tokens
    · exact List.cons_prefix_cons.2 ⟨rfl, ih⟩

/-- The completed tokens begin with the words of the input and its end. -/
theorem exists_completed_eq_append (tokens : List Token) :
    ∃ after, completed tokens = (ofTokens tokens).words ++ (ofTokens tokens).stop :: after := by
  obtain ⟨after, hafter⟩ := throughEnd_isPrefix (completed tokens)
  rw [← toList_ofTokens, toList, List.append_assoc, List.singleton_append] at hafter
  exact ⟨after, hafter.symm⟩

end Input

end Parse

theorem SyntaxError.cause_ne_of_not_isLimit {error : SyntaxError} (h : error.isLimit = false) :
    error.cause ≠ .tooManyOperators := by
  intro hcause
  simp [isLimit, hcause] at h

/-! ## Whole runs -/

variable {limits : Limits} {stop : Token} {words consumed : List Token} {final : State}

/-- The words that a whole run has consumed are viable. -/
theorem Parse.Runs.isViable {result : Except SyntaxError Contents}
    (h : Runs limits stop rootBody (.initial words) result final)
    (hwords : words = consumed ++ final.ahead) : IsViable consumed := by
  obtain ⟨same, completion, contents, hsame, hfills⟩ := h.exists_fills_consumed (by decide)
  obtain rfl : same = consumed := List.append_cancel_right (hsame.symm.trans hwords)
  have hmem : Production.otherwise rootBody ∈ NonTerminal.root.productions := List.mem_cons_self
  obtain ⟨derivation, -, htokens⟩ := derives_iff.1 (hfills.derives hmem)
  refine ⟨derivation, ?_⟩
  rw [htokens]
  exact List.prefix_append same completion

/-- A sentence that begins with the same words and the same next token goes on after the words with
that token. -/
theorem exists_sameNext {otherStop : Token} {ahead others : List Token}
    (hahead : ∀ token ∈ ahead, token.kind ≠ .endOfInput) (hstop : stop.kind = .endOfInput)
    (hothers : ∀ token ∈ others, token.kind ≠ .endOfInput)
    (hotherStop : otherStop.kind = .endOfInput)
    (h : consumed ++ [ahead.headD stop] <+: others ++ [otherStop]) :
    ∃ other, others = consumed ++ other ∧ SameNext stop otherStop ahead other := by
  cases ahead with
  | nil =>
    rcases List.prefix_concat_iff.1 h with heq | hbegins
    · obtain ⟨rfl, hlast⟩ := List.append_inj' heq rfl
      refine ⟨[], (List.append_nil _).symm, rfl, fun _ ↦ ?_⟩
      exact (List.singleton_inj.1 hlast).symm
    · exact absurd hstop (hothers stop (hbegins.subset (by simp)))
  | cons token ahead =>
    have htoken := hahead token List.mem_cons_self
    rcases List.prefix_concat_iff.1 h with heq | ⟨rest, hrest⟩
    · have hlast : token = otherStop := by simpa using (List.append_inj' heq rfl).2
      exact absurd (hlast ▸ hotherStop) htoken
    · refine ⟨token :: rest, ?_, rfl, nofun⟩
      rw [← hrest, List.append_assoc]
      rfl

/-- Without limits no run over a sentence ends in an error. -/
theorem Parse.Runs.ne_error_of_sentence (body : Derivation .expression) {error : SyntaxError}
    (hstop : stop.kind = .endOfInput) :
    ¬Runs .unlimited stop rootBody (.initial body.tokens) (.error error) final := by
  intro h
  let parser := Parser.ofTokens (body.tokens ++ [stop])
  obtain ⟨hwords, hend⟩ :=
    Input.ofTokens_words_stop (body.derives.kind_ne_endOfInput (by decide)) hstop
  have hrun : Runs .unlimited parser.input.stop rootBody (.initial parser.input.words)
      (.error error) final := by
    change Runs .unlimited (Input.ofTokens (body.tokens ++ [stop])).stop rootBody
      (.initial (Input.ofTokens (body.tokens ++ [stop])).words) _ _
    rw [hwords, hend]
    exact h
  have hparse :=
    (Derivation.root body stop hstop).parseWithin_tokens (Limits.admit_unlimited _ _)
  rw [Derivation.tokens_root, hrun.parseWithin] at hparse
  cases hparse

/-- With the next token the words that a run has consumed are viable no more, unless it ended well
or met a limit. -/
theorem Parse.Runs.not_isViable {error : SyntaxError}
    (h : Runs limits stop rootBody (.initial words) (.error error) final)
    (hkinds : ∀ token ∈ words, token.kind ≠ .endOfInput) (hstop : stop.kind = .endOfInput)
    (hlimit : error.isLimit = false) (hwords : words = consumed ++ final.ahead) :
    ¬IsViable (consumed ++ [final.current stop]) := by
  rintro ⟨derivation, hbegins⟩
  cases derivation with
  | root body otherStop hotherStop =>
    rw [Derivation.tokens_root] at hbegins
    have hbody := body.derives.kind_ne_endOfInput (by decide)
    have hahead : ∀ token ∈ final.ahead, token.kind ≠ .endOfInput := by
      intro token htoken
      exact hkinds token (hwords ▸ List.mem_append_right consumed htoken)
    obtain ⟨other, hother, hnext⟩ := exists_sameNext hahead hstop hbody hotherStop hbegins
    have hfree := h.unlimited fun same hsame ↦ by
      obtain rfl := Except.error.inj hsame
      exact hlimit
    have hrun : Runs .unlimited otherStop rootBody (.initial body.tokens) (.error error)
        (final.withAhead other) := by
      rw [hother]
      exact hfree.withAhead hwords fun _ ↦ hnext
    exact Runs.ne_error_of_sentence body hotherStop hrun

/-- In the completed tokens, what a run has consumed is followed by the next token. -/
theorem Parse.Input.exists_completed_eq_consumed {tokens : List Token}
    (hwords : (ofTokens tokens).words = consumed ++ final.ahead) :
    ∃ after, completed tokens = consumed ++ final.current (ofTokens tokens).stop :: after := by
  obtain ⟨after, hcompleted⟩ := exists_completed_eq_append tokens
  rw [hcompleted, hwords, List.append_assoc]
  unfold State.current
  cases final.ahead with
  | nil => exact ⟨after, rfl⟩
  | cons token ahead => exact ⟨ahead ++ (ofTokens tokens).stop :: after, rfl⟩

/-- An error of the grammar is about the token after the consumed words, which are viable, but not
with that token. -/
theorem Parse.Runs.viable_of_error {tokens : List Token} {error : SyntaxError}
    (h : Runs limits (Input.ofTokens tokens).stop rootBody
      (.initial (Input.ofTokens tokens).words) (.error error) final)
    (hlimit : error.isLimit = false) :
    (Input.completed tokens)[final.position]? = some error.found ∧
      IsViable ((Input.completed tokens).take final.position) ∧
      ¬IsViable ((Input.completed tokens).take (final.position + 1)) := by
  have hfound := (h.describes rfl).found_eq_current (SyntaxError.cause_ne_of_not_isLimit hlimit)
  obtain ⟨consumed, hbefore, hwords⟩ := h.exists_consumed
  obtain ⟨after, hcompleted⟩ := Input.exists_completed_eq_consumed hwords
  have hposition : final.position = consumed.length := by
    simp [State.position, hbefore, State.initial]
  have htake : (consumed ++ error.found :: after).take (consumed.length + 1) =
      consumed ++ [error.found] := by
    rw [List.take_length_add_append]
    rfl
  rw [hcompleted, hposition, ← hfound, htake, List.take_left]
  refine ⟨by simp, h.isViable hwords, ?_⟩
  rw [hfound]
  exact h.not_isViable (Input.words_kind _) (Input.stop_kind _) hlimit hwords

/-! ## Errors -/

/-- A parse that fails is a run that ends in its error. -/
theorem Parser.runs_of_parseWithin_eq_error {parser : Parser} {error : SyntaxError}
    (h : (parser.parseWithin limits).1 = .error error) :
    Runs limits parser.input.stop rootBody (.initial parser.input.words) (.error error)
      (parser.parseWithin limits).2.state := by
  have hresult : (outcome limits parser.input).result = .error error := error_of_map_eq_error h
  rw [← hresult]
  exact runs_run _ _

/-- The message of a limit is worded as no other one. -/
theorem SyntaxError.isLimit_eq_false {error : SyntaxError}
    (hdeep : error.detail ≠ "Expression nested too deeply")
    (hmany : error.detail ≠ "Expression has too many operators") : error.isLimit = false := by
  obtain ⟨found, cause⟩ := error
  cases cause with
  | tooDeep => exact absurd rfl hdeep
  | tooManyOperators => exact absurd rfl hmany
  | expression | missing => rfl

/-- An error of the grammar is located at the token at which the parse stopped. The tokens before it
begin some sentence, and no sentence begins with them and that token. -/
theorem location_of_parse_eq_error {tokens : List Token} {error : SyntaxError}
    (h : (Parser.ofTokens tokens).parse.1 = .error error)
    (hdeep : error.detail ≠ "Expression nested too deeply")
    (hmany : error.detail ≠ "Expression has too many operators") :
    let position := (Parser.ofTokens tokens).parse.2.state.position
    let completed := Input.completed tokens
    ∃ token, completed[position]? = some token ∧ error.location = token.location ∧
      IsViable (completed.take position) ∧ ¬IsViable (completed.take (position + 1)) := by
  have hrun := Parser.runs_of_parseWithin_eq_error h
  have hviable := hrun.viable_of_error (SyntaxError.isLimit_eq_false hdeep hmany)
  exact ⟨error.found, hviable.1, rfl, hviable.2⟩

/-- `a+)b`, which has no operand after its sign. -/
def missingOperand : List Token :=
  [Derivation.nameAt "a" 0, Derivation.signAt (.punct '+') 1, Derivation.signAt (.punct ')') 2,
    Derivation.nameAt "b" 3]

theorem parse_missingOperand :
    (Parser.ofTokens missingOperand).parse =
      (.error ⟨Derivation.signAt (.punct ')') 2, .expression⟩,
        { Parser.ofTokens missingOperand with
          state := ⟨(missingOperand.take 2).reverse, missingOperand.drop 2, 0, 1⟩ }) :=
  parseWithin_of_boundedRun
    (show boundedRun .standard _ 40 rootBody _ = some (.error _, _) from rfl)

theorem location_of_parse_missingOperand :
    (Parser.ofTokens missingOperand).parse.1 =
        .error ⟨Derivation.signAt (.punct ')') 2, .expression⟩ ∧
      ∃ token, (Input.completed missingOperand)[2]? = some token ∧
        token.location = ⟨0, 2⟩ ∧ IsViable ((Input.completed missingOperand).take 2) ∧
        ¬IsViable ((Input.completed missingOperand).take 3) := by
  have h := location_of_parse_eq_error (congrArg Prod.fst parse_missingOperand) (by decide)
    (by decide)
  rw [parse_missingOperand] at h
  obtain ⟨token, htoken, hlocation, hviable⟩ := h
  exact ⟨by rw [parse_missingOperand], token, htoken, hlocation.symm, hviable⟩

end CExpr
