import CExpr.Proofs.Parse.Runs
import Mathlib.Logic.Relation

/-!
# Runs from moment to moment

A run seen from inside. At every moment some rules are open, the innermost first, and the innermost
body either has symbols left or has come to a result. The moves below are the single steps of a run,
those that read and those that open and close rules. They leave no choice, and from the first moment
of an input they lead to what the run over it comes to, on success and after every error.
-/

namespace CExpr.Parse

/-- A rule that was opened and is not closed yet. -/
structure OpenRule where
  rule : NonTerminal
  /-- The body that was chosen for the rule. -/
  body : List Symbol
  /-- The state in which the rule was opened. -/
  entry : State
  /-- What stands after the rule in the body around it. -/
  rest : List Symbol
  /-- What the body around it has given before the rule. -/
  given : Contents

/-- What the innermost body does. -/
inductive Activity
  | running (symbols : List Symbol) (given : Contents)
  | ended (result : Except SyntaxError Contents)

structure Moment where
  activity : Activity
  /-- The open rules, the innermost first. -/
  opened : List OpenRule
  state : State

/-- The moment at which a run over whole words begins. -/
def Moment.start (words : List Token) : Moment := ⟨.running rootBody .empty, [], .initial words⟩

namespace Contents

def append (first second : Contents) : Contents :=
  ⟨first.terminals ++ second.terminals, first.children ++ second.children⟩

def addTerminal (contents : Contents) (token : Token) : Contents :=
  contents.append ⟨[token], []⟩

def addChild (contents : Contents) (node : Node) : Contents := contents.append ⟨[], [node]⟩

@[simp] theorem append_empty (contents : Contents) : contents.append .empty = contents := by
  simp [append, empty]

/-- A token in front of what comes later is a token behind what was given. -/
theorem map_append_withTerminal (contents : Contents) (token : Token)
    (result : Except SyntaxError Contents) :
    (result.map (withTerminal token)).map contents.append =
      result.map (contents.addTerminal token).append := by
  cases result with
  | error => rfl
  | ok more => simp [Except.map, append, addTerminal, withTerminal]

theorem map_append_withChild (contents : Contents) (node : Node)
    (result : Except SyntaxError Contents) :
    (result.map (withChild node)).map contents.append =
      result.map (contents.addChild node).append := by
  cases result with
  | error => rfl
  | ok more => simp [Except.map, append, addChild, withChild]

end Contents

/-! ## Moves -/

/-- The single steps of a run. An error is handed out of one open rule after the other, each of
which is closed. -/
inductive Moves (limits : Limits) (stop : Token) : Moment → Moment → Prop
  | done {given : Contents} {opened : List OpenRule} {state : State} :
      Moves limits stop ⟨.running [] given, opened, state⟩ ⟨.ended (.ok given), opened, state⟩
  | stop {role : Role} {rest : List Symbol} {given : Contents} {opened : List OpenRule}
      {state : State} (hahead : state.ahead = []) :
      Moves limits stop ⟨.running (.terminal .endOfInput role :: rest) given, opened, state⟩
        ⟨.running rest (given.addTerminal stop), opened, state⟩
  | word {kind : Kind} {token : Token} {role : Role} {rest : List Symbol} {given : Contents}
      {opened : List OpenRule} {state : State} {ahead : List Token}
      (hahead : state.ahead = token :: ahead) (hkind : token.kind = kind)
      (hcount : role = .counted → limits.admitsOperators (state.operators + 1) = true) :
      Moves limits stop ⟨.running (.terminal kind role :: rest) given, opened, state⟩
        ⟨.running rest (given.addTerminal token), opened, state.consume role token ahead⟩
  | tooMany {kind : Kind} {token : Token} {rest : List Symbol} {given : Contents}
      {opened : List OpenRule} {state : State} {ahead : List Token}
      (hahead : state.ahead = token :: ahead) (hkind : token.kind = kind)
      (hcount : limits.admitsOperators (state.operators + 1) = false) :
      Moves limits stop ⟨.running (.terminal kind .counted :: rest) given, opened, state⟩
        ⟨.ended (.error ⟨token, .tooManyOperators⟩), opened, state.consume .counted token ahead⟩
  | mismatch {kind : Kind} {role : Role} {rest : List Symbol} {given : Contents}
      {opened : List OpenRule} {state : State} (hkind : state.lookahead ≠ kind) :
      Moves limits stop ⟨.running (.terminal kind role :: rest) given, opened, state⟩
        ⟨.ended (.error (state.mismatch stop kind role)), opened, state⟩
  | tooDeep {name : NonTerminal} {rest : List Symbol} {given : Contents}
      {opened : List OpenRule} {state : State} (hnests : name.nests = true)
      (hdepth : limits.admitsDepth state.depth = false) :
      Moves limits stop ⟨.running (.rule name :: rest) given, opened, state⟩
        ⟨.ended (.error ⟨state.current stop, .tooDeep⟩), opened, state⟩
  | unexpected {name : NonTerminal} {rest : List Symbol} {given : Contents}
      {opened : List OpenRule} {state : State}
      (hdepth : name.nests = true → limits.admitsDepth state.depth = true)
      (hnone : name.production? state.lookahead = none) :
      Moves limits stop ⟨.running (.rule name :: rest) given, opened, state⟩
        ⟨.ended (.error ⟨state.current stop, .expression⟩), opened, state⟩
  | enter {name : NonTerminal} {production : Production} {rest : List Symbol} {given : Contents}
      {opened : List OpenRule} {state : State}
      (hdepth : name.nests = true → limits.admitsDepth state.depth = true)
      (hproduction : name.production? state.lookahead = some production) :
      Moves limits stop ⟨.running (.rule name :: rest) given, opened, state⟩
        ⟨.running production.body .empty, ⟨name, production.body, state, rest, given⟩ :: opened,
          state.enter name⟩
  | leave {contents : Contents} {inner : OpenRule} {opened : List OpenRule} {state : State} :
      Moves limits stop ⟨.ended (.ok contents), inner :: opened, state⟩
        ⟨.running inner.rest (inner.given.addChild (contents.toNode inner.rule inner.body)), opened,
          state.leave inner.rule⟩
  | raise {error : SyntaxError} {inner : OpenRule} {opened : List OpenRule} {state : State} :
      Moves limits stop ⟨.ended (.error error), inner :: opened, state⟩
        ⟨.ended (.error error), opened, state.leave inner.rule⟩

variable {limits : Limits} {stop : Token}

/-- At every moment at most one move can be made. -/
theorem Moves.unique {moment first second : Moment} (hfirst : Moves limits stop moment first)
    (hsecond : Moves limits stop moment second) : first = second := by
  cases hfirst with
  | done | leave | raise =>
    cases hsecond
    rfl
  | _ => cases hsecond <;> simp_all [State.lookahead]

/-- A result that no open rule waits for is the end. -/
theorem Moves.opened_ne_nil {result : Except SyntaxError Contents} {opened : List OpenRule}
    {state : State} {next : Moment} (h : Moves limits stop ⟨.ended result, opened, state⟩ next) :
    opened ≠ [] := by
  cases h <;> exact List.cons_ne_nil _ _

/-! ## Whole runs -/

/-- Moves, one after the other. -/
def Leads (limits : Limits) (stop : Token) : Moment → Moment → Prop :=
  Relation.ReflTransGen (Moves limits stop)

/-- A run leads from its body to its result, whatever rules are open around it. -/
theorem Runs.leads {body : List Symbol} {state final : State}
    {result : Except SyntaxError Contents} (h : Runs limits stop body state result final)
    (given : Contents) (opened : List OpenRule) :
    Leads limits stop ⟨.running body given, opened, state⟩
      ⟨.ended (result.map given.append), opened, final⟩ := by
  induction h generalizing given opened with
  | done =>
    rw [Except.map, Contents.append_empty]
    exact .single .done
  | stop hahead _ ih =>
    rw [Contents.map_append_withTerminal]
    exact .head (.stop hahead) (ih _ opened)
  | word hahead hcount _ ih =>
    rw [Contents.map_append_withTerminal]
    exact .head (.word hahead rfl hcount) (ih _ opened)
  | tooMany hahead hcount => exact .single (.tooMany hahead rfl hcount)
  | mismatch hkind => exact .single (.mismatch hkind)
  | tooDeep hnests hdepth => exact .single (.tooDeep hnests hdepth)
  | unexpected hdepth hnone => exact .single (.unexpected hdepth hnone)
  | @inside name production rest state inner error hdepth hproduction _ ih =>
    have hinner := ih .empty (⟨name, production.body, state, rest, given⟩ :: opened)
    exact .head (.enter hdepth hproduction) (hinner.tail .raise)
  | @rule name production rest state inner final contents result hdepth hproduction _ _ ihInner
      ihRest =>
    rw [Contents.map_append_withChild]
    have hinner := ihInner .empty (⟨name, production.body, state, rest, given⟩ :: opened)
    exact .head (.enter hdepth hproduction) ((hinner.tail .leave).trans (ihRest _ opened))

/-- The moments that a run over an input passes through. -/
def Moment.Reached (limits : Limits) (input : Input) (moment : Moment) : Prop :=
  Leads limits input.stop (.start input.words) moment

/-- The moment at which a run over an input has come to its outcome. -/
def Moment.over (limits : Limits) (input : Input) : Moment :=
  ⟨.ended (Parser.outcome limits input).result, [], (Parser.outcome limits input).final⟩

theorem Moment.reached_over (limits : Limits) (input : Input) :
    (Moment.over limits input).Reached limits input := by
  have hrun : Runs limits input.stop rootBody (.initial input.words)
      (Parser.outcome limits input).result (Parser.outcome limits input).final := runs_run _ _
  have hleads := hrun.leads .empty []
  have hmap : (Parser.outcome limits input).result.map Contents.empty.append =
      (Parser.outcome limits input).result := by
    cases (Parser.outcome limits input).result <;> rfl
  rwa [hmap] at hleads

/-- From every moment of a run the moves lead to its outcome, and they end there. -/
theorem Moment.Reached.leads_over {input : Input} {moment : Moment}
    (h : moment.Reached limits input) : Leads limits input.stop moment (.over limits input) := by
  have hunique : Relator.RightUnique (Moves limits input.stop) := fun _ _ _ ↦ Moves.unique
  rcases Relation.ReflTransGen.total_of_right_unique hunique h (reached_over limits input) with
    hleads | hbeyond
  · exact hleads
  · rcases Relation.ReflTransGen.cases_head hbeyond with rfl | ⟨next, hmoves, -⟩
    · exact .refl
    · exact absurd rfl hmoves.opened_ne_nil

end CExpr.Parse
