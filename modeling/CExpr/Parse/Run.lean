import CExpr.Grammar.Node
import CExpr.Parse.State

/-!
# Running a body

A body is run symbol by symbol: a terminal consumes a word, a rule runs the body that the next token
chooses. No step gives words back, and the rules are ranked so that a run either consumes a word or
goes down in rank. The run therefore ends whatever the limits are.
-/

namespace CExpr.Parse

/-! ## Ranks -/

/-- The rank of a rule is above that of every body it has, up to the first terminal of that body. -/
def rank : NonTerminal → Nat
  | .assignmentRest | .conditionalRest | .tierRest _ | .suffixedRest | .argumentListRest
  | .primary => 2
  | .suffixed => 5
  | .unary => 6
  | .cast => 7
  | .tier t => 10 + 3 * t.level
  | .conditional => 40
  | .assignment => 43
  | .expression => 44
  | .argumentList => 46
  | .root => 46

/-- The weight of a body counts its symbols up to the first one that consumes a word. -/
def weight : List Symbol → Nat
  | [] => 0
  | .terminal .endOfInput _ :: rest => 1 + weight rest
  | .terminal _ _ :: _ => 1
  | .rule name :: rest => rank name + weight rest

theorem rank_pos (rule : NonTerminal) : 0 < rank rule := by
  cases rule <;> simp only [rank] <;> omega

theorem weight_body_lt_rank {rule : NonTerminal} {production : Production}
    (h : production ∈ rule.productions) : weight production.body < rank rule := by
  have hall : ∀ p ∈ rule.productions, weight p.body < rank rule := by
    cases rule
    case tier t => cases t <;> decide
    case tierRest t => cases t <;> decide
    all_goals decide
  exact hall production h

/-- A step that gives no words back and goes down in weight is a step down. -/
theorem lex_of_le {fewer more light heavy : Nat} (hwords : fewer ≤ more) (hweight : light < heavy) :
    Prod.Lex (· < ·) (· < ·) (fewer, light) (more, heavy) := by
  rcases Nat.lt_or_eq_of_le hwords with h | rfl
  · exact .left _ _ h
  · exact .right _ hweight

/-! ## Outcomes -/

/-- The tokens and nodes of a body. -/
structure Contents where
  terminals : List Token
  children : List Node

namespace Contents

def empty : Contents := ⟨[], []⟩

def withTerminal (token : Token) (contents : Contents) : Contents :=
  ⟨token :: contents.terminals, contents.children⟩

def withChild (node : Node) (contents : Contents) : Contents :=
  ⟨contents.terminals, node :: contents.children⟩

/-- The node of a rule whose body gave these contents. -/
def toNode (rule : NonTerminal) (body : List Symbol) (contents : Contents) : Node :=
  ⟨rule, body.isEmpty, contents.terminals, contents.children⟩

end Contents

/-- What a run from a state comes to: contents or an error, and the state it ends in. -/
structure Outcome (state : State) where
  result : Except SyntaxError Contents
  final : State
  ahead_le : final.ahead.length ≤ state.ahead.length

namespace Outcome

/-- Ends here with a result. -/
def stay (state : State) (result : Except SyntaxError Contents) : Outcome state :=
  ⟨result, state, Nat.le_refl _⟩

/-- The outcome of a run that went on from a later state, seen from an earlier one. -/
def since {state later : State} (h : later.ahead.length ≤ state.ahead.length)
    (change : Contents → Contents) (outcome : Outcome later) : Outcome state :=
  ⟨outcome.result.map change, outcome.final, Nat.le_trans outcome.ahead_le h⟩

end Outcome

/-- Runs a body from a state. -/
def run (limits : Limits) (stop : Token) (symbols : List Symbol) (state : State) : Outcome state :=
  match symbols with
  | [] => .stay state (.ok .empty)
  | .terminal kind role :: rest =>
    match h : state.ahead with
    | [] =>
      if kind = .endOfInput then
        (run limits stop rest state).since (Nat.le_refl _) (.withTerminal stop)
      else .stay state (.error (state.mismatch stop kind role))
    | token :: ahead =>
      if token.kind = kind then
        let next := state.consume role token ahead
        have hnext : next.ahead.length < state.ahead.length := by simp [next, State.consume, h]
        if role = .counted ∧ ¬ limits.admitsOperators next.operators then
          ⟨.error ⟨token, .tooManyOperators⟩, next, Nat.le_of_lt hnext⟩
        else (run limits stop rest next).since (Nat.le_of_lt hnext) (.withTerminal token)
      else .stay state (.error (state.mismatch stop kind role))
  | .rule name :: rest =>
    if name.nests ∧ ¬ limits.admitsDepth state.depth then
      .stay state (.error ⟨state.current stop, .tooDeep⟩)
    else
      match hbody : name.production? state.lookahead with
      | none => .stay state (.error ⟨state.current stop, .expression⟩)
      | some production =>
        let inner := run limits stop production.body (state.enter name)
        let left := inner.final.leave name
        have hleft : left.ahead.length ≤ state.ahead.length := by
          simpa [left] using inner.ahead_le
        match inner.result with
        | .error error => ⟨.error error, left, hleft⟩
        | .ok contents =>
          (run limits stop rest left).since hleft
            (.withChild (contents.toNode name production.body))
termination_by (state.ahead.length, weight symbols)
decreasing_by
  · next hkind => exact .right _ (by subst hkind; simp [weight])
  · exact .left _ _ hnext
  · exact .right _ (Nat.lt_add_right _ (weight_body_lt_rank (NonTerminal.mem_productions hbody)))
  · exact lex_of_le hleft (Nat.lt_add_of_pos_left (rank_pos name))

/-! ## Steps of a run -/

section

variable {limits : Limits} {stop : Token} {state : State} {rest : List Symbol}

@[simp] theorem run_nil : run limits stop [] state = .stay state (.ok .empty) := by rw [run]

/-- The end of the input is read without consuming a word. -/
theorem run_terminal_stop {role : Role} (h : state.ahead = []) :
    (run limits stop (.terminal .endOfInput role :: rest) state).result =
        (run limits stop rest state).result.map (.withTerminal stop) ∧
      (run limits stop (.terminal .endOfInput role :: rest) state).final =
        (run limits stop rest state).final := by
  rw [run]
  split
  · simp [Outcome.since]
  · simp_all

/-- A word of the kind that stands in the body is consumed, unless it is one too many. -/
theorem run_terminal_word {token : Token} {role : Role} {ahead : List Token}
    (h : state.ahead = token :: ahead)
    (hcount : role = .counted →
      limits.admitsOperators (state.consume role token ahead).operators = true) :
    (run limits stop (.terminal token.kind role :: rest) state).result =
        (run limits stop rest (state.consume role token ahead)).result.map
          (.withTerminal token) ∧
      (run limits stop (.terminal token.kind role :: rest) state).final =
        (run limits stop rest (state.consume role token ahead)).final := by
  rw [run]
  split
  · simp_all
  next token' ahead' h' =>
    obtain ⟨rfl, rfl⟩ : token = token' ∧ ahead = ahead' := by simpa [h] using h'
    have hroom : ¬(role = .counted ∧
        ¬limits.admitsOperators (state.consume role token ahead).operators = true) := by
      rintro ⟨hrole, hfalse⟩
      exact hfalse (hcount hrole)
    simp only [hroom, if_true, if_false, Outcome.since, and_self]

/-- A word one past the limit is consumed and refused. -/
theorem run_terminal_tooMany {token : Token} {ahead : List Token}
    (h : state.ahead = token :: ahead)
    (hcount : limits.admitsOperators (state.operators + 1) = false) :
    (run limits stop (.terminal token.kind .counted :: rest) state).result =
        .error ⟨token, .tooManyOperators⟩ ∧
      (run limits stop (.terminal token.kind .counted :: rest) state).final =
        state.consume .counted token ahead := by
  rw [run]
  split
  · simp_all
  next token' ahead' h' =>
    obtain ⟨rfl, rfl⟩ : token = token' ∧ ahead = ahead' := by simpa [h] using h'
    simp [State.consume, hcount]

/-- A next token of another kind than the one that stands in the body is an error. -/
theorem run_terminal_mismatch {kind : Kind} {role : Role} (h : state.lookahead ≠ kind) :
    run limits stop (.terminal kind role :: rest) state =
      .stay state (.error (state.mismatch stop kind role)) := by
  rw [run]
  split
  next hnil =>
    have hkind : kind ≠ .endOfInput := by
      rintro rfl
      exact h (by simp [State.lookahead, hnil])
    simp [hkind]
  next token ahead hcons =>
    have hkind : token.kind ≠ kind := by
      intro heq
      exact h (by simp [State.lookahead, hcons, heq])
    simp [hkind]

/-- A nesting rule is refused where no more may be opened. -/
theorem run_rule_tooDeep {name : NonTerminal} (hnests : name.nests = true)
    (hdepth : limits.admitsDepth state.depth = false) :
    run limits stop (.rule name :: rest) state =
      .stay state (.error ⟨state.current stop, .tooDeep⟩) := by
  rw [run]
  simp [hnests, hdepth]

/-- A rule without a production for the next token is an error. -/
theorem run_rule_none {name : NonTerminal}
    (hdepth : name.nests = true → limits.admitsDepth state.depth = true)
    (h : name.production? state.lookahead = none) :
    run limits stop (.rule name :: rest) state =
      .stay state (.error ⟨state.current stop, .expression⟩) := by
  rw [run]
  have hroom : ¬(name.nests = true ∧ ¬limits.admitsDepth state.depth = true) := by
    rintro ⟨hnests, hfalse⟩
    exact hfalse (hdepth hnests)
  rw [if_neg hroom]
  split
  · rfl
  · simp_all

/-- An error inside a rule is the error of the run. -/
theorem run_rule_error {name : NonTerminal} {production : Production} {error : SyntaxError}
    (hdepth : name.nests = true → limits.admitsDepth state.depth = true)
    (h : name.production? state.lookahead = some production)
    (herror : (run limits stop production.body (state.enter name)).result = .error error) :
    (run limits stop (.rule name :: rest) state).result = .error error ∧
      (run limits stop (.rule name :: rest) state).final =
        (run limits stop production.body (state.enter name)).final.leave name := by
  rw [run]
  have hroom : ¬(name.nests = true ∧ ¬limits.admitsDepth state.depth = true) := by
    rintro ⟨hnests, hfalse⟩
    exact hfalse (hdepth hnests)
  rw [if_neg hroom]
  split
  · simp_all
  next production' h' =>
    obtain rfl : production = production' := by simpa [h] using h'
    dsimp only
    split
    · simp_all
    · simp_all

/-- A rule that ran gives one node, and the run goes on after it. -/
theorem run_rule_ok {name : NonTerminal} {production : Production} {contents : Contents}
    (hdepth : name.nests = true → limits.admitsDepth state.depth = true)
    (h : name.production? state.lookahead = some production)
    (hok : (run limits stop production.body (state.enter name)).result = .ok contents) :
    (run limits stop (.rule name :: rest) state).result =
        (run limits stop rest
          ((run limits stop production.body (state.enter name)).final.leave name)).result.map
            (.withChild (contents.toNode name production.body)) ∧
      (run limits stop (.rule name :: rest) state).final =
        (run limits stop rest
          ((run limits stop production.body (state.enter name)).final.leave name)).final := by
  rw [run]
  have hroom : ¬(name.nests = true ∧ ¬limits.admitsDepth state.depth = true) := by
    rintro ⟨hnests, hfalse⟩
    exact hfalse (hdepth hnests)
  rw [if_neg hroom]
  split
  · simp_all
  next production' h' =>
    obtain rfl : production = production' := by simpa [h] using h'
    dsimp only
    split
    · simp_all
    next contents' hok' =>
      obtain rfl : contents = contents' := by simpa [hok] using hok'
      simp [Outcome.since]

end

end CExpr.Parse
