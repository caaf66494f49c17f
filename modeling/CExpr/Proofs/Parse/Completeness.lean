import CExpr.Proofs.Grammar.LookAhead
import CExpr.Proofs.Grammar.Size
import CExpr.Proofs.Parse.Runs

/-!
# Derivations are found

A run over the tokens of a derivation, before a token that the rule ends before, takes the steps of
the derivation and no others, as long as the limits allow its tree. So a parse of the tokens of a
derivation gives its tree, and tokens have one tree at most.
-/

namespace CExpr

namespace Parse

/-- The kind of the first token, which is the end of the input when there is none. -/
def nextKind : List Token → Kind
  | [] => .endOfInput
  | token :: _ => token.kind

theorem State.lookahead_eq_nextKind (state : State) : state.lookahead = nextKind state.ahead := by
  unfold State.lookahead nextKind
  split <;> simp_all

/-- The state after some words are consumed, of which so many are counted. -/
def State.past (state : State) (tokens ahead : List Token) (counted : Nat) : State where
  before := tokens.reverse ++ state.before
  ahead := ahead
  depth := state.depth
  operators := state.operators + counted

@[simp] theorem State.leave_past_enter (state : State) (rule : NonTerminal)
    (tokens ahead : List Token) (counted : Nat) :
    ((state.enter rule).past tokens ahead counted).leave rule =
      state.past tokens ahead counted := by
  simp [past, enter, leave]

theorem State.past_past (state : State) (front back between ahead : List Token)
    (first second : Nat) :
    (state.past front between first).past back ahead second =
      state.past (front ++ back) ahead (first + second) := by
  simp [past, Nat.add_assoc]

theorem State.past_consume (state : State) (role : Role) (token : Token)
    (between tokens ahead : List Token) (counted : Nat) :
    (state.consume role token between).past tokens ahead counted =
      state.past (token :: tokens) ahead ((if role = .counted then 1 else 0) + counted) := by
  simp [past, consume, Nat.add_assoc]

variable {limits : Limits} {stop : Token}

/-- The tokens of a rule choose the production that they fill. -/
theorem production?_of_fills {name : NonTerminal} {production : Production} {inner : Contents}
    {front back : List Token} (hproduction : production ∈ name.productions)
    (hfills : Fills production.body inner front) (hends : name.EndsBefore (nextKind back)) :
    name.production? (nextKind (front ++ back)) = some production := by
  cases front with
  | nil =>
    have hbody := (NonTerminal.body_eq_nil_of_mem hproduction hfills.isOptional).1
    exact NonTerminal.production?_of_endsBefore hproduction hbody hends
  | cons token front =>
    exact NonTerminal.production?_of_mem_firsts hproduction hfills.kind_mem_firsts

/-- A rule ends before what follows it in a body. -/
theorem endsBefore_next {name : NonTerminal} {rest : List Symbol} {contents : Contents}
    {tokens back : List Token} (hrest : Fills rest contents tokens)
    (hends : Body.EndsBefore (nextKind back) (.rule name :: rest)) :
    name.EndsBefore (nextKind (tokens ++ back)) := by
  obtain ⟨hnext, hlast, -⟩ := hends
  cases tokens with
  | nil => exact hlast hrest.isOptional
  | cons token tokens => exact hnext _ hrest.kind_mem_firsts

theorem Runs.rule_of_fills {name : NonTerminal} {production : Production} {rest : List Symbol}
    {inner : Contents} {front back : List Token} {state final : State} {counted : Nat}
    {result : Except SyntaxError Contents} (hproduction : production ∈ name.productions)
    (hfills : Fills production.body inner front) (hahead : state.ahead = front ++ back)
    (hends : name.EndsBefore (nextKind back))
    (hdepth : name.nests = true → limits.admitsDepth state.depth = true)
    (hinner : Runs limits stop production.body (state.enter name) (.ok inner)
      ((state.enter name).past front back counted))
    (hrest : Runs limits stop rest (state.past front back counted) result final) :
    Runs limits stop (.rule name :: rest) state
      (result.map (.withChild (inner.toNode name production.body))) final := by
  have hchosen : name.production? state.lookahead = some production := by
    rw [State.lookahead_eq_nextKind, hahead]
    exact production?_of_fills hproduction hfills hends
  refine .rule hdepth hchosen hinner ?_
  rw [State.leave_past_enter]
  exact hrest

end Parse

open Parse

variable {limits : Limits} {stop : Token}

/-- A run takes all tokens of a filled body and gives its contents. -/
theorem Fills.runs {body : List Symbol} {contents : Contents} {tokens : List Token}
    (h : Fills body contents tokens) {state : State} {back : List Token}
    (hahead : state.ahead = tokens ++ back) (hends : Body.EndsBefore (nextKind back) body)
    (hlimits : limits.Admit (state.depth + Node.nestingOfAll contents.children)
      (state.operators + (Body.counted body + Node.operatorsOfAll contents.children))) :
    Runs limits stop body state (.ok contents)
      (state.past tokens back (Body.counted body + Node.operatorsOfAll contents.children)) := by
  induction h generalizing state back with
  | nil =>
    have hstate : state.past [] back 0 = state := by
      cases state
      simpa [State.past] using hahead.symm
    rw [show Body.counted [] + Node.operatorsOfAll Contents.empty.children = 0 from rfl, hstate]
    exact .done
  | @terminal kind role rest contents tokens token hkind hrest ih =>
    subst hkind
    have hsum : Body.counted (.terminal token.kind role :: rest) +
          Node.operatorsOfAll contents.children =
        (if role = .counted then 1 else 0) +
          (Body.counted rest + Node.operatorsOfAll contents.children) := by
      rw [Body.counted, Nat.add_assoc]
    change limits.Admit _ (_ + (_ + Node.operatorsOfAll contents.children)) at hlimits
    rw [hsum] at hlimits
    have hrun := @ih (state.consume role token (tokens ++ back)) back rfl hends
      (hlimits.mono (Nat.le_refl _) (by simp only [State.consume]; omega))
    rw [State.past_consume, ← hsum] at hrun
    refine .word hahead ?_ hrun
    rintro rfl
    exact (hlimits.mono (Nat.le_refl _) (by simp only [if_true]; omega)).admitsOperators
  | @rule name production rest inner contents front back' hproduction hinner hrest ihInner ihRest =>
    have hnext : name.EndsBefore (nextKind (back' ++ back)) := endsBefore_next hrest hends
    have hnode := hinner.operators_toNode hproduction
    have hdeep := hinner.nesting_toNode name
    have hsum : Body.counted (.rule name :: rest) +
          Node.operatorsOfAll (contents.withChild (inner.toNode name production.body)).children =
        (Body.counted production.body + Node.operatorsOfAll inner.children) +
          (Body.counted rest + Node.operatorsOfAll contents.children) :=
      calc Body.counted rest + ((inner.toNode name production.body).operators +
            Node.operatorsOfAll contents.children)
          = (inner.toNode name production.body).operators +
            (Body.counted rest + Node.operatorsOfAll contents.children) :=
          Nat.add_left_comm _ _ _
        _ = (Body.counted production.body + Node.operatorsOfAll inner.children) +
            (Body.counted rest + Node.operatorsOfAll contents.children) := by rw [hnode]
    have hmost :
        Node.nestingOfAll (contents.withChild (inner.toNode name production.body)).children =
          max ((if name.nests then 1 else 0) + Node.nestingOfAll inner.children)
            (Node.nestingOfAll contents.children) := by
      rw [← hdeep]
      rfl
    rw [hsum, hmost] at hlimits
    have hrunInner := @ihInner (state.enter name) (back' ++ back)
      (by simpa using hahead) (NonTerminal.body_endsBefore hproduction hnext)
      (hlimits.mono (by simp only [State.enter]; omega) (by simp only [State.enter]; omega))
    have hrunRest := @ihRest (state.past front (back' ++ back)
        (Body.counted production.body + Node.operatorsOfAll inner.children)) back rfl hends.2.2
      (hlimits.mono (by simp only [State.past]; omega) (by simp only [State.past]; omega))
    rw [State.past_past, ← hsum] at hrunRest
    refine Runs.rule_of_fills hproduction hinner (by simpa using hahead) hnext ?_ hrunInner hrunRest
    intro hnests
    rw [if_pos hnests] at hlimits
    exact (hlimits.mono (by omega) (Nat.le_refl _)).admitsDepth

/-- A run over a rule that a derivation is given for takes the tokens of the derivation. -/
theorem Derives.runs {name : NonTerminal} {node : Node} {rest : List Symbol}
    {front back : List Token} {state final : State} {result : Except SyntaxError Contents}
    (h : Derives name node front) (hahead : state.ahead = front ++ back)
    (hends : name.EndsBefore (nextKind back))
    (hlimits : limits.Admit (state.depth + node.nesting) (state.operators + node.operators))
    (hrest : Runs limits stop rest (state.past front back node.operators) result final) :
    Runs limits stop (.rule name :: rest) state (result.map (.withChild node)) final := by
  obtain ⟨production, hproduction, inner, hinner, rfl⟩ := h
  rw [hinner.operators_toNode hproduction] at hlimits hrest
  rw [hinner.nesting_toNode name] at hlimits
  refine Runs.rule_of_fills hproduction hinner hahead hends ?_ ?_ hrest
  · intro hnests
    rw [if_pos hnests] at hlimits
    exact (hlimits.mono (by omega) (Nat.le_refl _)).admitsDepth
  · refine hinner.runs hahead (NonTerminal.body_endsBefore hproduction hends) ?_
    refine hlimits.mono ?_ (Nat.le_refl _)
    simp only [State.enter]
    omega

/-! ## Whole inputs -/

/-- Words and an end are an input as they stand. -/
theorem Parse.Input.ofTokens_words_stop {words : List Token} {stop : Token}
    (hwords : ∀ token ∈ words, token.kind ≠ .endOfInput) (hstop : stop.kind = .endOfInput) :
    (Input.ofTokens (words ++ [stop])).words = words ∧
      (Input.ofTokens (words ++ [stop])).stop = stop := by
  have hlist := Input.ofTokens_words [] hwords hstop
  unfold Input.toList at hlist
  have hlength := congrArg List.length hlist
  simp only [List.length_append, List.length_singleton, Nat.add_right_cancel_iff] at hlength
  obtain ⟨hfront, hback⟩ := List.append_inj hlist hlength
  exact ⟨hfront, by simpa using hback⟩

/-- A parse of words and an end is a run over the words. -/
theorem Parse.Runs.parseWithin_words {words : List Token}
    (hwords : ∀ token ∈ words, token.kind ≠ .endOfInput) (hstop : stop.kind = .endOfInput)
    {result : Except SyntaxError Contents} {final : State}
    (h : Runs limits stop rootBody (.initial words) result final) :
    ((Parser.ofTokens (words ++ [stop])).parseWithin limits).1 =
      result.map (Contents.toNode .root rootBody) := by
  obtain ⟨hinput, hend⟩ := Input.ofTokens_words_stop hwords hstop
  have hrun : Runs limits (Parser.ofTokens (words ++ [stop])).input.stop rootBody
      (.initial (Parser.ofTokens (words ++ [stop])).input.words) result final := by
    rw [Parser.ofTokens, Parser.ofInput, hinput, hend]
    exact h
  rw [hrun.parseWithin]

/-- The tokens of a tree within the limits are parsed to the tree. -/
theorem Derives.parseWithin {root : Node} {tokens : List Token} (h : Derives .root root tokens)
    (hlimits : limits.Admit root.nesting root.operators) :
    ((Parser.ofTokens tokens).parseWithin limits).1 = .ok root := by
  obtain ⟨body, words, stop, hbody, hstop, rfl, rfl⟩ := derives_root_iff.1 h
  have hsizes : limits.Admit body.nesting body.operators :=
    hlimits.mono (by simp [Node.nesting, Node.nestingOfAll, NonTerminal.nests])
      (by simp [Node.operators, Node.operatorsOfAll, NonTerminal.counts])
  have hrun : Runs limits stop rootBody (.initial words) (.ok ⟨[stop], [body]⟩)
      ((State.initial words).past words [] body.operators) := by
    have hafter : Runs limits stop [.terminal .endOfInput (.required .expression)]
        ((State.initial words).past words [] body.operators) (.ok ⟨[stop], []⟩)
        ((State.initial words).past words [] body.operators) := .stop rfl .done
    have hahead : (State.initial words).ahead = words ++ [] := by simp [State.initial]
    refine hbody.runs hahead (by decide) ?_ hafter
    simpa [State.initial] using hsizes
  rw [hrun.parseWithin_words (hbody.kind_ne_endOfInput (by decide)) hstop]
  rfl

/-- Tokens have one tree at most. -/
theorem Derives.root_unique {first second : Node} {tokens : List Token}
    (hfirst : Derives .root first tokens) (hsecond : Derives .root second tokens) :
    first = second := by
  have hparsed := hfirst.parseWithin (Limits.admit_unlimited _ _)
  rw [hsecond.parseWithin (Limits.admit_unlimited _ _)] at hparsed
  cases hparsed
  rfl

end CExpr
