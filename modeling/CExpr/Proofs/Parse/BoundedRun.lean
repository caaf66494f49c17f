import CExpr.Proofs.Parse.Runs

/-!
# Runs with a bound on their depth

The same steps with a bound on how many of them may stand inside one another. A run that stays
within its bound is a run, and it is computed by recursion on the bound alone, so that what a given
input comes to can be decided.
-/

namespace CExpr.Parse

/-- What a run comes to, if it needs no more than so many steps inside one another. -/
def boundedRun (limits : Limits) (stop : Token) :
    (bound : Nat) → List Symbol → State → Option (Except SyntaxError Contents × State)
  | 0, _, _ => none
  | _ + 1, [], state => some (.ok .empty, state)
  | bound + 1, .terminal kind role :: rest, state =>
    match state.ahead with
    | [] =>
      if kind = .endOfInput then
        (boundedRun limits stop bound rest state).map (.map (.map (.withTerminal stop)) id)
      else some (.error (state.mismatch stop kind role), state)
    | token :: ahead =>
      if token.kind = kind then
        if role = .counted ∧ limits.admitsOperators (state.operators + 1) = false then
          some (.error ⟨token, .tooManyOperators⟩, state.consume role token ahead)
        else
          (boundedRun limits stop bound rest (state.consume role token ahead)).map
            (.map (.map (.withTerminal token)) id)
      else some (.error (state.mismatch stop kind role), state)
  | bound + 1, .rule name :: rest, state =>
    if name.nests = true ∧ limits.admitsDepth state.depth = false then
      some (.error ⟨state.current stop, .tooDeep⟩, state)
    else
      match name.production? state.lookahead with
      | none => some (.error ⟨state.current stop, .expression⟩, state)
      | some production =>
        match boundedRun limits stop bound production.body (state.enter name) with
        | none => none
        | some (.error error, inner) => some (.error error, inner.leave name)
        | some (.ok contents, inner) =>
          (boundedRun limits stop bound rest (inner.leave name)).map
            (.map (.map (.withChild (contents.toNode name production.body))) id)

variable {limits : Limits} {stop : Token} {bound : Nat} {body : List Symbol} {state final : State}
  {result : Except SyntaxError Contents}

theorem exists_of_map_boundedRun {change : Contents → Contents}
    (h : (boundedRun limits stop bound body state).map (.map (.map change) id) =
      some (result, final)) :
    ∃ inner, boundedRun limits stop bound body state = some (inner, final) ∧
      inner.map change = result := by
  obtain ⟨⟨inner, last⟩, hinner, heq⟩ := Option.map_eq_some_iff.1 h
  obtain ⟨hresult, rfl⟩ := Prod.mk.inj heq
  exact ⟨inner, hinner, hresult⟩

/-- A run within a bound is a run. -/
theorem runs_of_boundedRun (h : boundedRun limits stop bound body state = some (result, final)) :
    Runs limits stop body state result final := by
  have admits : ∀ {condition : Prop} {admitted : Bool}, ¬(condition ∧ admitted = false) →
      condition → admitted = true := by
    intro condition admitted h hcondition
    simpa [hcondition] using h
  fun_induction boundedRun limits stop bound body state generalizing result final with
  | case1 => cases h
  | case2 =>
    cases h
    exact .done
  | case3 bound role rest state hahead ih =>
    obtain ⟨inner, hinner, rfl⟩ := exists_of_map_boundedRun h
    exact .stop hahead (ih hinner)
  | case4 bound kind role rest state hahead hkind =>
    cases h
    refine .mismatch ?_
    simpa [State.lookahead, hahead] using Ne.symm hkind
  | case5 bound role rest state token ahead hahead hfull =>
    cases h
    obtain ⟨rfl, hcount⟩ := hfull
    exact .tooMany hahead hcount
  | case6 bound role rest state token ahead hahead hroom ih =>
    obtain ⟨inner, hinner, rfl⟩ := exists_of_map_boundedRun h
    exact .word hahead (admits hroom) (ih hinner)
  | case7 bound kind role rest state token ahead hahead hkind =>
    cases h
    refine .mismatch ?_
    simpa [State.lookahead, hahead] using hkind
  | case8 bound name rest state hdeep =>
    cases h
    exact .tooDeep hdeep.1 hdeep.2
  | case9 bound name rest state hroom hnone =>
    cases h
    exact .unexpected (admits hroom) hnone
  | case10 => cases h
  | case11 bound name rest state hroom production hproduction error inner hinner ih =>
    cases h
    exact .inside (admits hroom) hproduction (ih hinner)
  | case12 bound name rest state hroom production hproduction contents inner hinner ihInner
      ihRest =>
    obtain ⟨outer, houter, rfl⟩ := exists_of_map_boundedRun h
    exact .rule (admits hroom) hproduction (ihInner hinner) (ihRest houter)

/-- A parse is what a run within a bound over the whole input comes to. -/
theorem parseWithin_of_boundedRun {parser : Parser}
    (h : boundedRun limits parser.input.stop bound rootBody (.initial parser.input.words) =
      some (result, final)) :
    parser.parseWithin limits =
      (result.map (Contents.toNode .root rootBody), { parser with state := final }) :=
  (runs_of_boundedRun h).parseWithin

end CExpr.Parse
