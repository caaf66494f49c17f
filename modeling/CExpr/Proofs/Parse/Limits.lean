import CExpr.Proofs.Parse.Trees

/-!
# Limits are kept exactly

A parse of the tokens of a derivation ends at the first step of its walk that breaks a limit, with
the error for that limit. Up to that step nothing distinguishes the run from one without limits.
-/

namespace CExpr

open Parse

/-! ## The first break of a walk -/

/-- The first step that breaks a limit: what it breaks, and at which token. Counts start from the
operators that were counted and the tokens that were passed before the walk. -/
def firstBreak (deepest most : Nat) : Nat → Nat → List Step → Option (SyntaxCause × Nat)
  | _, _, [] => none
  | operators, position, .opening number :: steps =>
    if number = deepest + 1 then some (.tooDeep, position)
    else firstBreak deepest most operators position steps
  | operators, position, .token _ false :: steps =>
    firstBreak deepest most operators (position + 1) steps
  | operators, position, .token _ true :: steps =>
    if operators = most then some (.tooManyOperators, position)
    else firstBreak deepest most (operators + 1) (position + 1) steps

section FirstBreak

variable {deepest most : Nat}

theorem firstBreak_append (operators position : Nat) (front back : List Step) :
    firstBreak deepest most operators position (front ++ back) =
      (firstBreak deepest most operators position front).or
        (firstBreak deepest most (operators + front.countP Step.isCounted)
          (position + (walkedTokens front).length) back) := by
  fun_induction firstBreak deepest most operators position front with
  | case1 => simp
  | case2 => simp [firstBreak]
  | case3 operators position number steps h ih => simp [firstBreak, h, ih]
  | case4 operators position token steps ih => simp [firstBreak, ih, Nat.add_assoc, Nat.add_comm 1]
  | case5 => simp [firstBreak]
  | case6 operators position token steps h ih =>
    simp [firstBreak, h, ih, Nat.add_assoc, Nat.add_comm 1]

/-- A token that is not one too many is passed without a break. -/
theorem firstBreak_token {operators : Nat} {counted : Bool}
    (h : ¬(counted = true ∧ operators = most)) (position : Nat) (token : Token)
    (steps : List Step) :
    firstBreak deepest most operators position (.token token counted :: steps) =
      firstBreak deepest most (operators + if counted then 1 else 0) (position + 1) steps := by
  cases counted with
  | false => rfl
  | true =>
    have hne : operators ≠ most := fun heq ↦ h ⟨rfl, heq⟩
    simp [firstBreak, hne]

/-- A node within the limit is entered without a break. -/
theorem firstBreak_entering {above : Nat} {nests : Bool}
    (h : (above + if nests then 1 else 0) ≤ deepest) (operators position : Nat)
    (steps : List Step) :
    firstBreak deepest most operators position
        ((if nests then [.opening (above + 1)] else []) ++ steps) =
      firstBreak deepest most operators position steps := by
  cases nests with
  | false => rfl
  | true =>
    have hlt : above < deepest := h
    simp [firstBreak, Nat.ne_of_lt hlt]

/-- A walk without a break opens no node past the one limit and counts no token past the other. -/
theorem within_of_firstBreak_eq_none {operators position : Nat} {steps : List Step}
    (h : firstBreak deepest most operators position steps = none) (hroom : operators ≤ most) :
    .opening (deepest + 1) ∉ steps ∧ operators + steps.countP Step.isCounted ≤ most := by
  fun_induction firstBreak deepest most operators position steps with
  | case1 => simpa using hroom
  | case2 | case5 => simp at h
  | case3 operators position number steps hnumber ih =>
    obtain ⟨hopening, hcount⟩ := ih h hroom
    exact ⟨by simp [hopening, Ne.symm hnumber], by simpa using hcount⟩
  | case4 operators position token steps ih =>
    obtain ⟨hopening, hcount⟩ := ih h hroom
    exact ⟨by simp [hopening], by simpa using hcount⟩
  | case6 operators position token steps hne ih =>
    obtain ⟨hopening, hcount⟩ := ih h (by omega)
    refine ⟨by simp [hopening], ?_⟩
    simp only [List.countP_cons, Step.isCounted, if_true]
    omega

/-- A break divides a walk into the steps before it, which keep the limits, the step that breaks
one, and the steps after it. -/
theorem exists_eq_of_firstBreak_eq_some {operators position place : Nat} {steps : List Step}
    {cause : SyntaxCause}
    (h : firstBreak deepest most operators position steps = some (cause, place))
    (hroom : operators ≤ most) :
    ∃ before step after, steps = before ++ step :: after ∧
      place = position + (walkedTokens before).length ∧ .opening (deepest + 1) ∉ before ∧
      operators + before.countP Step.isCounted ≤ most ∧
      (cause = .tooDeep ∧ step = .opening (deepest + 1) ∨
        cause = .tooManyOperators ∧ (∃ token, step = .token token true) ∧
          operators + before.countP Step.isCounted = most) := by
  fun_induction firstBreak deepest most operators position steps with
  | case1 => simp at h
  | case2 operators position steps =>
    obtain ⟨rfl, rfl⟩ : .tooDeep = cause ∧ position = place := by simpa using h
    exact ⟨[], _, steps, rfl, rfl, by simp, by simpa using hroom, .inl ⟨rfl, rfl⟩⟩
  | case5 position token steps =>
    obtain ⟨rfl, rfl⟩ : .tooManyOperators = cause ∧ position = place := by simpa using h
    exact ⟨[], _, steps, rfl, rfl, by simp, by simp, .inr ⟨rfl, ⟨token, rfl⟩, rfl⟩⟩
  | case3 operators position number steps hnumber ih =>
    obtain ⟨before, step, after, rfl, rfl, hopening, hcount, hbreak⟩ := ih h hroom
    exact ⟨.opening number :: before, step, after, rfl, rfl, by simp [hopening, Ne.symm hnumber],
      by simpa using hcount, by simpa using hbreak⟩
  | case4 operators position token steps ih =>
    obtain ⟨before, step, after, rfl, rfl, hopening, hcount, hbreak⟩ := ih h hroom
    exact ⟨.token token false :: before, step, after, rfl, by simp; omega, by simp [hopening],
      by simpa using hcount, by simpa using hbreak⟩
  | case6 operators position token steps hne ih =>
    obtain ⟨before, step, after, rfl, rfl, hopening, hcount, hbreak⟩ := ih h (by omega)
    have hsum : operators + (Step.token token true :: before).countP Step.isCounted =
        operators + 1 + before.countP Step.isCounted := by
      simp [Nat.add_assoc, Nat.add_comm 1]
    refine ⟨.token token true :: before, step, after, rfl, by simp; omega, by simp [hopening],
      ?_, ?_⟩
    · rwa [hsum]
    · rwa [hsum]

end FirstBreak

/-! ## Runs -/

namespace Parse.State

theorem position_past (state : State) (tokens ahead : List Token) (counted : Nat) :
    (state.past tokens ahead counted).position = state.position + tokens.length := by
  simp [past, position, Nat.add_comm]

theorem words_past {state : State} {tokens ahead : List Token}
    (hahead : state.ahead = tokens ++ ahead) (counted : Nat) :
    (state.past tokens ahead counted).words = state.words := by
  simp [past, words, hahead]

/-- The word at the position of a state is the next one. -/
theorem getElem?_words_position (state : State) :
    state.words[state.position]? = state.ahead.head? := by
  simp [words, position, List.getElem?_append_right, List.head?_eq_getElem?]

end Parse.State

/-- A nesting rule has tokens, and the next token of a run over them is the first of these. -/
theorem Fills.getElem?_position {name : NonTerminal} {production : Production}
    {contents : Contents} {front back : List Token} {state : State} (stop : Token)
    (h : Fills production.body contents front) (hproduction : production ∈ name.productions)
    (hnests : name.nests = true) (hahead : state.ahead = front ++ back) :
    state.words[state.position]? = some (state.current stop) := by
  have hne : front ≠ [] := by
    rintro rfl
    have hoptional := (NonTerminal.body_eq_nil_of_mem hproduction h.isOptional).2
    have hall : ∀ rule : NonTerminal, rule.nests = true → rule.isOptional = false := by decide
    rw [hall name hnests] at hoptional
    cases hoptional
  obtain ⟨first, others, rfl⟩ := List.exists_cons_of_ne_nil hne
  rw [State.getElem?_words_position, State.current, hahead]
  rfl

section Walks

variable {deepest most above : Nat} {stop : Token} {body : List Symbol} {contents : Contents}
variable {steps : List Step} {state : State} {back : List Token}

/-- A run takes a whole walk without a break. -/
theorem Walks.runs (h : Walks above body contents steps) (hdepth : state.depth = above)
    (habove : above ≤ deepest) (hroom : state.operators ≤ most)
    (hahead : state.ahead = walkedTokens steps ++ back)
    (hends : Body.EndsBefore (nextKind back) body) {position : Nat}
    (hnone : firstBreak deepest most state.operators position steps = none) :
    Runs ⟨some deepest, some most⟩ stop body state (.ok contents)
      (state.past (walkedTokens steps) back (steps.countP Step.isCounted)) := by
  obtain ⟨hopening, hcount⟩ := within_of_firstBreak_eq_none hnone hroom
  rw [h.countP_steps] at hcount ⊢
  refine h.fills.runs hahead hends ⟨?_, ?_⟩
  · rintro _ ⟨⟩
    rw [hdepth]
    exact h.nesting_le habove hopening
  · rintro _ ⟨⟩
    exact hcount

/-- A run goes along a walk up to its first break, and ends there with the error for it, whatever
comes after the body. The place of the break is counted from the first word of the state, which no
step changes. -/
theorem Walks.runs_error (h : Walks above body contents steps) (stop : Token) (more : List Symbol)
    {cause : SyntaxCause} {place : Nat}
    (hdepth : state.depth = above) (habove : above ≤ deepest) (hroom : state.operators ≤ most)
    (hahead : state.ahead = walkedTokens steps ++ back)
    (hends : Body.EndsBefore (nextKind back) body)
    (hbreak : firstBreak deepest most state.operators state.position steps = some (cause, place)) :
    ∃ token final, state.words[place]? = some token ∧
      Runs ⟨some deepest, some most⟩ stop (body ++ more) state (.error ⟨token, cause⟩) final := by
  induction h generalizing state back more with
  | nil => simp [firstBreak] at hbreak
  | @terminal above kind role rest contents steps token hkind hrest ih =>
    subst hkind
    have hcons : state.ahead = token :: (walkedTokens steps ++ back) := by simpa using hahead
    by_cases hfull : role = .counted ∧ state.operators = most
    · obtain ⟨rfl, hfull⟩ := hfull
      obtain ⟨rfl, rfl⟩ : .tooManyOperators = cause ∧ state.position = place := by
        simpa [firstBreak, hfull] using hbreak
      refine ⟨token, _, ?_, .tooMany hcons (by simp [Limits.admitsOperators, hfull])⟩
      rw [State.getElem?_words_position, hcons, List.head?_cons]
    · have hcount : role = .counted → state.operators + 1 ≤ most := fun hrole ↦ by
        have hne : state.operators ≠ most := fun heq ↦ hfull ⟨hrole, heq⟩
        omega
      let next := state.consume role token (walkedTokens steps ++ back)
      rw [firstBreak_token (by simpa using hfull)] at hbreak
      have hnext : firstBreak deepest most next.operators next.position steps =
          some (cause, place) := by
        simpa [next, State.consume, State.position] using hbreak
      have hfits : next.operators ≤ most := by
        simp only [next, State.consume]
        split
        next hrole => exact hcount hrole
        next => exact hroom
      obtain ⟨found, final, hplace, hrun⟩ :=
        @ih next back more hdepth habove hfits rfl hends hnext
      have hword := Runs.word hcons
        (fun hrole ↦ by simpa [Limits.admitsOperators] using hcount hrole) hrun
      exact ⟨found, final, by rwa [State.words_consume hcons] at hplace, hword⟩
  | @rule above name production rest inner contents front back' hproduction hinner hrest ihInner
      ihRest =>
    have hsplit : state.ahead = walkedTokens front ++ (walkedTokens back' ++ back) := by
      rw [hahead]
      split <;> simp
    have hnext : name.EndsBefore (nextKind (walkedTokens back' ++ back)) :=
      endsBefore_next hrest.fills hends
    by_cases hinside : (above + if name.nests then 1 else 0) ≤ deepest
    · have hadmits : name.nests = true →
          Limits.admitsDepth ⟨some deepest, some most⟩ state.depth = true := by
        intro hnests
        rw [if_pos hnests] at hinside
        simp only [Limits.admitsDepth, hdepth, decide_eq_true_eq]
        exact hinside
      have henter : (state.enter name).depth = above + if name.nests then 1 else 0 := by
        rw [← hdepth]
        rfl
      have hbody := NonTerminal.body_endsBefore hproduction hnext
      rw [List.append_assoc, firstBreak_entering hinside, firstBreak_append,
        Option.or_eq_some_iff] at hbreak
      rcases hbreak with hfront | ⟨hnone, hback⟩
      · obtain ⟨token, final, hplace, hrun⟩ :=
          @ihInner (state.enter name) (walkedTokens back' ++ back) [] henter hinside hroom hsplit
            hbody hfront
        rw [List.append_nil] at hrun
        have hchosen : name.production? state.lookahead = some production := by
          rw [State.lookahead_eq_nextKind, hsplit]
          exact production?_of_fills hproduction hinner.fills hnext
        exact ⟨token, final.leave name, hplace, .inside hadmits hchosen hrun⟩
      · have hrunInner :
            Runs ⟨some deepest, some most⟩ stop production.body (state.enter name) _ _ :=
          hinner.runs henter hinside hroom hsplit hbody hnone
        have hcount := (within_of_firstBreak_eq_none hnone hroom).2
        rw [← State.position_past state (walkedTokens front) (walkedTokens back' ++ back)
          (front.countP Step.isCounted)] at hback
        obtain ⟨token, final, hplace, hrun⟩ :=
          @ihRest (state.past (walkedTokens front) (walkedTokens back' ++ back) _) back more
            hdepth habove hcount rfl hends.2.2 hback
        rw [State.words_past hsplit] at hplace
        have hrule :=
          Runs.rule_of_fills hproduction hinner.fills hsplit hnext hadmits hrunInner hrun
        exact ⟨token, final, hplace, hrule⟩
    · obtain ⟨hnests, rfl⟩ : name.nests = true ∧ above = deepest := by
        split at hinside
        next hnests => exact ⟨hnests, by omega⟩
        next => exact absurd habove hinside
      obtain ⟨rfl, rfl⟩ : .tooDeep = cause ∧ state.position = place := by
        simpa [firstBreak, hnests] using hbreak
      have hcurrent := hinner.fills.getElem?_position stop hproduction hnests hsplit
      refine ⟨state.current stop, state, hcurrent, .tooDeep hnests ?_⟩
      simp [Limits.admitsDepth, hdepth]

end Walks

/-! ## Whole inputs -/

/-- A derivation whose walk has no break keeps the limits. -/
theorem Derivation.sizes_le_of_firstBreak_eq_none {deepest most : Nat} {rule : NonTerminal}
    (derivation : Derivation rule)
    (h : firstBreak deepest most 0 0 (derivation.steps 0) = none) :
    derivation.toNode.nesting ≤ deepest ∧ derivation.toNode.operators ≤ most := by
  have hwalks := (derivation.walked 0).walks .nil
  rw [List.append_nil] at hwalks
  obtain ⟨hopening, hcount⟩ := within_of_firstBreak_eq_none h (Nat.zero_le most)
  have hnesting := hwalks.nesting_le (Nat.zero_le deepest) hopening
  rw [hwalks.countP_steps] at hcount
  constructor
  · simpa [Contents.withChild, Contents.empty, Node.nestingOfAll] using hnesting
  · simpa [Contents.withChild, Contents.empty, Node.operatorsOfAll, Body.counted] using hcount

/-- The tokens of a derivation that breaks a limit are refused at the first break of its walk. -/
theorem Derivation.parseWithin_of_breaks {deepest most : Nat} (derivation : Derivation .root)
    (h : deepest < derivation.toNode.nesting ∨ most < derivation.toNode.operators) :
    ∃ cause place token,
      firstBreak deepest most 0 0 (derivation.steps 0) = some (cause, place) ∧
        derivation.tokens[place]? = some token ∧
        ((Parser.ofTokens derivation.tokens).parseWithin ⟨some deepest, some most⟩).1 =
          .error ⟨token, cause⟩ := by
  obtain ⟨⟨cause, place⟩, hbreak⟩ : ∃ found,
      firstBreak deepest most 0 0 (derivation.steps 0) = some found := by
    apply Option.ne_none_iff_exists'.1
    intro hnone
    obtain ⟨hnesting, hoperators⟩ := derivation.sizes_le_of_firstBreak_eq_none hnone
    omega
  refine ⟨cause, place, ?_⟩
  cases derivation with
  | root body stop hstop =>
    have hwalks := (body.walked 0).walks .nil
    rw [List.append_nil] at hwalks
    have hsteps : firstBreak deepest most 0 0 ((root body stop hstop).steps 0) =
        firstBreak deepest most 0 0 (body.steps 0) := by
      rw [steps, firstBreak_append]
      simp [firstBreak]
    have hahead : (State.initial body.tokens).ahead = walkedTokens (body.steps 0) ++ [] := by
      rw [body.walkedTokens_steps, List.append_nil]
      rfl
    have hends : Body.EndsBefore (nextKind []) [.rule .expression] :=
      ⟨fun _ hnext ↦ absurd hnext List.not_mem_nil, fun _ ↦ by decide, trivial⟩
    obtain ⟨token, final, hplace, hrun⟩ := hwalks.runs_error stop
      [.terminal .endOfInput (.required .expression)] rfl (Nat.zero_le deepest) (Nat.zero_le most)
      hahead hends (hsteps.symm.trans hbreak)
    have hfound : body.tokens[place]? = some token := hplace
    refine ⟨token, hbreak, ?_, ?_⟩
    · rw [tokens_root, List.getElem?_append_left (List.getElem?_eq_some_iff.1 hfound).1]
      exact hfound
    · rw [tokens_root, hrun.parseWithin_words (body.derives.kind_ne_endOfInput (by decide)) hstop]
      rfl

/-- The error for the tokens of a derivation that breaks a limit is about a limit. -/
theorem Derivation.exists_limit_error (derivation : Derivation .root)
    (h : 192 < derivation.toNode.nesting ∨ 1024 < derivation.toNode.operators) :
    ∃ error, parse derivation.tokens = .error error ∧ error.isLimit = true := by
  obtain ⟨cause, place, token, hbreak, -, hparse⟩ := derivation.parseWithin_of_breaks h
  obtain ⟨_, _, _, _, _, _, _, hcause⟩ := exists_eq_of_firstBreak_eq_some hbreak (Nat.zero_le 1024)
  refine ⟨⟨token, cause⟩, hparse, ?_⟩
  rcases hcause with ⟨rfl, -⟩ | ⟨rfl, -⟩ <;> rfl

/-- A derivation that breaks a limit is refused at the first step of its walk that breaks one: the
beginning of a node that is the 193rd nesting one on the way to it, with its first token, or a
counted token after 1024 others. -/
theorem parse_tokens_eq_error (derivation : Derivation .root)
    (h : 192 < derivation.toNode.nesting ∨ 1024 < derivation.toNode.operators) :
    ∃ before step after error, derivation.steps 0 = before ++ step :: after ∧
      .opening 193 ∉ before ∧ before.countP Step.isCounted ≤ 1024 ∧
      parse derivation.tokens = .error error ∧
      derivation.tokens[(walkedTokens before).length]? = some error.found ∧
      (step = .opening 193 ∧ error.detail = "Expression nested too deeply" ∨
        step = .token error.found true ∧ before.countP Step.isCounted = 1024 ∧
          error.detail = "Expression has too many operators") := by
  obtain ⟨cause, place, token, hbreak, htoken, hparse⟩ := derivation.parseWithin_of_breaks h
  obtain ⟨before, step, after, hsteps, hplace, hopening, hcount, hcause⟩ :=
    exists_eq_of_firstBreak_eq_some hbreak (Nat.zero_le 1024)
  rw [Nat.zero_add] at hplace hcount
  subst hplace
  refine ⟨before, step, after, ⟨token, cause⟩, hsteps, hopening, hcount, hparse, htoken, ?_⟩
  rcases hcause with ⟨rfl, hstep⟩ | ⟨rfl, ⟨other, rfl⟩, hfull⟩
  · exact .inl ⟨hstep, rfl⟩
  · have hother : derivation.tokens[(walkedTokens before).length]? = some other := by
      rw [← derivation.walkedTokens_steps 0, hsteps, walkedTokens_append]
      simp
    obtain rfl : other = token := by simpa [hother] using htoken
    exact .inr ⟨rfl, by simpa using hfull, rfl⟩

/-- `a` after so many `!`. -/
def Derivation.negated (position : Nat) : Nat → Derivation (NonTerminal.rung 2)
  | 0 => (ofName "a" position).climb 2
  | count + 1 =>
    cast (prefixed (signAt (.punct '!') position) .not rfl (negated (position + 1) count))

/-- A whole input of that form. -/
def Derivation.negatedInput (count : Nat) : Derivation .root :=
  root ((negated 0 count).climb 13) ⟨.endOfInput, ⟨0, count + 1⟩, ""⟩ rfl

theorem parse_negatedInput :
    192 < (Derivation.negatedInput 190).toNode.nesting ∧
      ∃ error, parse (Derivation.negatedInput 190).tokens = .error error ∧
        (error.detail = "Expression nested too deeply" ∨
          error.detail = "Expression has too many operators") := by
  have hdeep : 192 < (Derivation.negatedInput 190).toNode.nesting := by decide +kernel
  obtain ⟨before, step, after, error, -, -, -, hparse, -, hcause⟩ :=
    parse_tokens_eq_error (Derivation.negatedInput 190) (.inl hdeep)
  refine ⟨hdeep, error, hparse, ?_⟩
  rcases hcause with ⟨-, hdetail⟩ | ⟨-, -, hdetail⟩
  · exact .inl hdetail
  · exact .inr hdetail

end CExpr
