import CExpr.Parse.Parser

/-!
# What a run can do

A run does one of nine things at the first symbol of a body, and each of them is a constructor of
`Runs`. The relation is exactly the graph of `run`, so what holds of every run is proved by
induction over it, and what a run comes to is shown by giving its steps.
-/

namespace CExpr.Parse

/-- Running a body from a state comes to a result and ends in a state. -/
inductive Runs (limits : Limits) (stop : Token) :
    List Symbol → State → Except SyntaxError Contents → State → Prop
  | done {state : State} : Runs limits stop [] state (.ok .empty) state
  /-- The end of the input is read when no word is ahead, and stays where it is. -/
  | stop {role : Role} {rest : List Symbol} {state final : State}
      {result : Except SyntaxError Contents} (hahead : state.ahead = [])
      (hrest : Runs limits stop rest state result final) :
      Runs limits stop (.terminal .endOfInput role :: rest) state
        (result.map (.withTerminal stop)) final
  | word {token : Token} {role : Role} {rest : List Symbol} {state final : State}
      {ahead : List Token} {result : Except SyntaxError Contents}
      (hahead : state.ahead = token :: ahead)
      (hcount : role = .counted → limits.admitsOperators (state.operators + 1) = true)
      (hrest : Runs limits stop rest (state.consume role token ahead) result final) :
      Runs limits stop (.terminal token.kind role :: rest) state
        (result.map (.withTerminal token)) final
  | tooMany {token : Token} {rest : List Symbol} {state : State} {ahead : List Token}
      (hahead : state.ahead = token :: ahead)
      (hcount : limits.admitsOperators (state.operators + 1) = false) :
      Runs limits stop (.terminal token.kind .counted :: rest) state
        (.error ⟨token, .tooManyOperators⟩) (state.consume .counted token ahead)
  | mismatch {kind : Kind} {role : Role} {rest : List Symbol} {state : State}
      (hkind : state.lookahead ≠ kind) :
      Runs limits stop (.terminal kind role :: rest) state
        (.error (state.mismatch stop kind role)) state
  | tooDeep {name : NonTerminal} {rest : List Symbol} {state : State}
      (hnests : name.nests = true) (hdepth : limits.admitsDepth state.depth = false) :
      Runs limits stop (.rule name :: rest) state
        (.error ⟨state.current stop, .tooDeep⟩) state
  | unexpected {name : NonTerminal} {rest : List Symbol} {state : State}
      (hdepth : name.nests = true → limits.admitsDepth state.depth = true)
      (hnone : name.production? state.lookahead = none) :
      Runs limits stop (.rule name :: rest) state
        (.error ⟨state.current stop, .expression⟩) state
  /-- An error inside a rule. -/
  | inside {name : NonTerminal} {production : Production} {rest : List Symbol}
      {state inner : State} {error : SyntaxError}
      (hdepth : name.nests = true → limits.admitsDepth state.depth = true)
      (hproduction : name.production? state.lookahead = some production)
      (hinner : Runs limits stop production.body (state.enter name) (.error error) inner) :
      Runs limits stop (.rule name :: rest) state (.error error) (inner.leave name)
  | rule {name : NonTerminal} {production : Production} {rest : List Symbol}
      {state inner final : State} {contents : Contents} {result : Except SyntaxError Contents}
      (hdepth : name.nests = true → limits.admitsDepth state.depth = true)
      (hproduction : name.production? state.lookahead = some production)
      (hinner : Runs limits stop production.body (state.enter name) (.ok contents) inner)
      (hrest : Runs limits stop rest (inner.leave name) result final) :
      Runs limits stop (.rule name :: rest) state
        (result.map (.withChild (contents.toNode name production.body))) final

variable {limits : Limits} {stop : Token}

theorem admits_of_not {condition : Prop} {admitted : Bool} (h : ¬(condition ∧ ¬admitted = true)) :
    condition → admitted = true := by
  intro hcondition
  simpa [hcondition] using h

theorem admits_consume {state : State} {role : Role} {token : Token} {ahead : List Token}
    (hcount : role = .counted → limits.admitsOperators (state.operators + 1) = true) :
    role = .counted →
      limits.admitsOperators (state.consume role token ahead).operators = true := by
  rintro rfl
  exact hcount rfl

/-- A run takes the steps of the relation. -/
theorem runs_run (symbols : List Symbol) (state : State) :
    Runs limits stop symbols state (run limits stop symbols state).result
      (run limits stop symbols state).final := by
  induction symbols, state using run.induct limits stop with
  | case1 state =>
    rw [run_nil]
    exact .done
  | case2 state role rest hahead ih =>
    rw [(run_terminal_stop hahead).1, (run_terminal_stop hahead).2]
    exact .stop hahead ih
  | case3 state kind role rest hahead hkind =>
    have hlookahead : state.lookahead ≠ kind := by
      simpa [State.lookahead, hahead] using Ne.symm hkind
    rw [run_terminal_mismatch hlookahead]
    exact .mismatch hlookahead
  | case4 state role rest token ahead hahead next _ hfull =>
    obtain ⟨rfl, hcount⟩ := hfull
    have hcount : limits.admitsOperators (state.operators + 1) = false := by
      simpa [next, State.consume] using hcount
    rw [(run_terminal_tooMany hahead hcount).1, (run_terminal_tooMany hahead hcount).2]
    exact .tooMany hahead hcount
  | case5 state role rest token ahead hahead next _ hroom ih =>
    have hcount : role = .counted → limits.admitsOperators next.operators = true :=
      admits_of_not hroom
    rw [(run_terminal_word hahead hcount).1, (run_terminal_word hahead hcount).2]
    refine .word hahead ?_ ih
    rintro rfl
    exact hcount rfl
  | case6 state kind role rest token ahead hahead hkind =>
    have hlookahead : state.lookahead ≠ kind := by simpa [State.lookahead, hahead] using hkind
    rw [run_terminal_mismatch hlookahead]
    exact .mismatch hlookahead
  | case7 state name rest hdeep =>
    obtain ⟨hnests, hdepth⟩ := hdeep
    have hdepth : limits.admitsDepth state.depth = false := by simpa using hdepth
    rw [run_rule_tooDeep hnests hdepth]
    exact .tooDeep hnests hdepth
  | case8 state name rest hroom hnone =>
    rw [run_rule_none (admits_of_not hroom) hnone]
    exact .unexpected (admits_of_not hroom) hnone
  | case9 state name rest hroom production hproduction inner left _ error herror ih =>
    have hdepth := admits_of_not hroom
    have hrun : (run limits stop production.body (state.enter name)).result = .error error := herror
    rw [hrun] at ih
    rw [(run_rule_error hdepth hproduction hrun).1, (run_rule_error hdepth hproduction hrun).2]
    exact .inside hdepth hproduction ih
  | case10 state name rest hroom production hproduction inner left _ contents hok ihInner ihRest =>
    have hdepth := admits_of_not hroom
    have hrun : (run limits stop production.body (state.enter name)).result = .ok contents := hok
    rw [hrun] at ihInner
    rw [(run_rule_ok hdepth hproduction hrun).1, (run_rule_ok hdepth hproduction hrun).2]
    exact .rule hdepth hproduction ihInner ihRest

/-- A run from a state has one result and one end. -/
theorem Runs.run_eq {symbols : List Symbol} {state final : State}
    {result : Except SyntaxError Contents} (h : Runs limits stop symbols state result final) :
    (run limits stop symbols state).result = result ∧
      (run limits stop symbols state).final = final := by
  induction h with
  | done => simp [Outcome.stay]
  | stop hahead _ ih =>
    obtain ⟨hresult, hfinal⟩ := ih
    rw [(run_terminal_stop hahead).1, (run_terminal_stop hahead).2, hresult, hfinal]
    exact ⟨rfl, rfl⟩
  | word hahead hcount _ ih =>
    obtain ⟨hresult, hfinal⟩ := ih
    obtain ⟨hword, hend⟩ := run_terminal_word hahead (admits_consume hcount)
    rw [hword, hend, hresult, hfinal]
    exact ⟨rfl, rfl⟩
  | tooMany hahead hcount => exact run_terminal_tooMany hahead hcount
  | mismatch hkind =>
    rw [run_terminal_mismatch hkind]
    exact ⟨rfl, rfl⟩
  | tooDeep hnests hdepth =>
    rw [run_rule_tooDeep hnests hdepth]
    exact ⟨rfl, rfl⟩
  | unexpected hdepth hnone =>
    rw [run_rule_none hdepth hnone]
    exact ⟨rfl, rfl⟩
  | inside hdepth hproduction _ ih =>
    obtain ⟨hresult, hfinal⟩ := run_rule_error hdepth hproduction ih.1
    rw [hresult, hfinal, ih.2]
    exact ⟨rfl, rfl⟩
  | rule hdepth hproduction _ _ ihInner ihRest =>
    obtain ⟨hresult, hfinal⟩ := run_rule_ok hdepth hproduction ihInner.1
    rw [hresult, hfinal, ihInner.2, ihRest.1, ihRest.2]
    exact ⟨rfl, rfl⟩

/-- A parse is a run over the whole input. -/
theorem Runs.parseWithin {parser : Parser} {result : Except SyntaxError Contents} {final : State}
    (h : Runs limits parser.input.stop rootBody (.initial parser.input.words) result final) :
    parser.parseWithin limits =
      (result.map (Contents.toNode .root rootBody), { parser with state := final }) := by
  unfold Parser.parseWithin Parser.outcome
  rw [h.run_eq.1, h.run_eq.2]

end CExpr.Parse
