import CExpr.Proofs.Grammar.Size
import CExpr.Proofs.Parse.Moments
import Mathlib.Algebra.GroupWithZero.Nat
import Mathlib.Data.List.Chain

/-!
# Runs end because they read

Between one opening of a rule and the next opening of the same rule inside it a run reads at least
one word: as long as nothing is read, every rule has a lower rank than the rules around it. Reading
is also what a run lives on. Each word is worth a fixed number of moves, the grammar needs no more
than these, and so a run over any words ends after a number of moves that grows with their number
alone. The limits play no part in this.
-/

namespace CExpr.Parse

variable {limits : Limits} {stop : Token} {moment next : Moment}

/-! ## Rules inside rules -/

/-- Each open rule was opened at an earlier position than what is inside it, or at the same one with
a higher rank than the weight of what is inside it. -/
def Descends : Nat → Nat → List OpenRule → Prop
  | _, _, [] => True
  | position, inside, inner :: opened =>
    (inner.entry.position < position ∨
        inner.entry.position = position ∧ inside < rank inner.rule) ∧
      Descends inner.entry.position (weight (.rule inner.rule :: inner.rest)) opened

/-- The weight of what is left of the innermost body. -/
def Activity.weight : Activity → Nat
  | running symbols _ => Parse.weight symbols
  | ended _ => 0

/-- Going on, or having less left at the same position. -/
theorem Descends.mono {position later inside left : Nat} {opened : List OpenRule}
    (h : Descends position inside opened) (hposition : position ≤ later)
    (hinside : position = later → left ≤ inside) : Descends later left opened := by
  cases opened with
  | nil => trivial
  | cons inner opened =>
    obtain ⟨hinner, hrest⟩ := h
    refine ⟨?_, hrest⟩
    rcases Nat.lt_or_eq_of_le hposition with hlater | hsame
    · omega
    · have hleft := hinside hsame
      omega

theorem Descends.position_le {position inside : Nat} {inner : OpenRule} {opened : List OpenRule}
    (h : Descends position inside (inner :: opened)) : inner.entry.position ≤ position := by
  obtain ⟨hinner, -⟩ := h
  omega

/-- What is inside all of the open rules has advanced since each of them, or weighs less. -/
theorem Descends.of_mem {position inside : Nat} {opened : List OpenRule}
    (h : Descends position inside opened) :
    ∀ outer ∈ opened, outer.entry.position < position ∨
      outer.entry.position = position ∧ inside < rank outer.rule := by
  induction opened generalizing position inside with
  | nil => simp
  | cons inner opened ih =>
    obtain ⟨hinner, hrest⟩ := h
    refine List.forall_mem_cons.2 ⟨hinner, fun outer hmem ↦ ?_⟩
    have houter := ih hrest outer hmem
    simp only [weight] at houter
    omega

theorem Moves.descends (h : Moves limits stop moment next)
    (hdescends : Descends moment.state.position moment.activity.weight moment.opened) :
    Descends next.state.position next.activity.weight next.opened := by
  cases h with
  | done => exact hdescends
  | stop => exact hdescends.mono (Nat.le_refl _) fun _ ↦ Nat.le_add_left _ _
  | word | tooMany =>
    refine hdescends.mono (Nat.le_succ _) fun hsame ↦ ?_
    simp [State.position, State.consume] at hsame
  | mismatch | tooDeep | unexpected => exact hdescends.mono (Nat.le_refl _) fun _ ↦ Nat.zero_le _
  | enter _ hproduction =>
    have hrank := weight_body_lt_rank (NonTerminal.mem_productions hproduction)
    exact ⟨.inr ⟨rfl, hrank⟩, hdescends⟩
  | leave => exact hdescends.2.mono hdescends.position_le fun _ ↦ Nat.le_add_left _ _
  | raise => exact hdescends.2.mono hdescends.position_le fun _ ↦ Nat.zero_le _

theorem Moment.Reached.descends {input : Input} (h : moment.Reached limits input) :
    Descends moment.state.position moment.activity.weight moment.opened := by
  induction h with
  | refl => trivial
  | tail _ hmoves ih => exact hmoves.descends ih

/-- A rule is opened again only behind a word that was read since it was opened. -/
theorem Moment.Reached.position_lt_of_again {input : Input} (h : moment.Reached limits input)
    {name : NonTerminal} {rest : List Symbol} {given : Contents}
    (hactivity : moment.activity = .running (.rule name :: rest) given) {outer : OpenRule}
    (houter : outer ∈ moment.opened) (hname : outer.rule = name) :
    outer.entry.position < moment.state.position := by
  have hdescends := h.descends.of_mem outer houter
  rw [hactivity, hname] at hdescends
  simp only [Activity.weight, weight] at hdescends
  omega

/-! ## Turns

The operators of a tier, the suffixes of an operand and the further arguments of a call are each
read in turns: a rule of the list with one counted token at its front, and the rule again behind it.
-/

/-- A rule of a list that goes on. -/
def OpenRule.IsTurn (inner : OpenRule) : Prop := inner.rule.counts = true ∧ inner.body ≠ []

/-- The next symbol is a terminal, and the next word is of its kind. -/
def Moment.IsReading (moment : Moment) : Prop :=
  ∃ role rest given,
    moment.activity = .running (.terminal moment.state.lookahead role :: rest) given ∧
      moment.state.lookahead ≠ .endOfInput

/-- A turn begins with the word that its production was chosen on. -/
theorem exists_body_eq_of_counts {name : NonTerminal} {production : Production} {kind : Kind}
    (hcounts : name.counts = true) (hbody : production.body ≠ [])
    (h : name.production? kind = some production) :
    kind ≠ .endOfInput ∧ ∃ rest, production.body = .terminal kind .counted :: rest := by
  have hall : ∀ name : NonTerminal, name.counts = true → ∀ p ∈ name.productions, p.body ≠ [] →
      p.on ≠ none ∧ p.on ≠ some .endOfInput ∧
        p.body.head? = p.on.map fun kind ↦ .terminal kind .counted := by decide
  obtain ⟨hon, hend, hhead⟩ := hall name hcounts production (NonTerminal.mem_productions h) hbody
  have haccepts := NonTerminal.accepts_of_production? h
  obtain ⟨on, hon⟩ := Option.ne_none_iff_exists'.1 hon
  obtain rfl : on = kind := by simpa [Production.accepts, hon] using haccepts
  rw [hon] at hend hhead
  exact ⟨fun heq ↦ hend (congrArg some heq), List.head?_eq_some_iff.1 hhead⟩

theorem Moves.position_lt_of_isReading (h : Moves limits stop moment next)
    (hreading : moment.IsReading) :
    moment.state.position < next.state.position ∧ next.opened = moment.opened := by
  obtain ⟨role, rest, given, hactivity, hend⟩ := hreading
  cases h with
  | word | tooMany => exact ⟨Nat.lt_succ_self _, rfl⟩
  | stop hahead => exact absurd (by simp [State.lookahead, hahead]) hend
  | mismatch hkind =>
    simp only [Activity.running.injEq, List.cons.injEq, Symbol.terminal.injEq] at hactivity
    exact absurd hactivity.1.1.1.symm hkind
  | _ => cases hactivity

/-- Each open turn has read a word, unless it is just about to. -/
def Moment.TurnsRead (moment : Moment) : Prop :=
  ∀ inner ∈ moment.opened, inner.IsTurn →
    inner.entry.position < moment.state.position ∨ moment.IsReading

theorem Moves.turnsRead (h : Moves limits stop moment next)
    (hdescends : Descends moment.state.position moment.activity.weight moment.opened)
    (hturns : moment.TurnsRead) : next.TurnsRead := by
  intro inner hmem hturn
  by_cases hreading : moment.IsReading
  · obtain ⟨hposition, hopened⟩ := h.position_lt_of_isReading hreading
    rw [hopened] at hmem
    have hentry := hdescends.of_mem inner hmem
    exact .inl (by omega)
  have hread : inner ∈ moment.opened → inner.entry.position < moment.state.position :=
    fun hmem ↦ (hturns inner hmem hturn).resolve_right hreading
  cases h with
  | enter _ hproduction =>
    rcases List.mem_cons.1 hmem with rfl | hmem
    · obtain ⟨hend, rest, hbody⟩ := exists_body_eq_of_counts hturn.1 hturn.2 hproduction
      refine .inr ⟨.counted, rest, .empty, ?_, hend⟩
      rw [hbody]
      rfl
    · exact .inl (hread hmem)
  | word | tooMany => exact .inl (Nat.lt_succ_of_lt (hread hmem))
  | leave | raise => exact .inl (hread (List.mem_cons_of_mem _ hmem))
  | _ => exact .inl (hread hmem)

theorem Moment.Reached.turnsRead {input : Input} (h : moment.Reached limits input) :
    moment.TurnsRead := by
  induction h with
  | refl =>
    intro inner hmem
    cases hmem
  | tail hreached hmoves ih => exact hmoves.turnsRead (Reached.descends hreached) ih

/-! ## The number of moves -/

/-- How many moves a word is worth. -/
def movesPerWord : Nat := 100

/-- How many moves a rule makes beyond those that its words are worth, with the two that open and
close it. -/
def allowance : NonTerminal → Nat
  | .assignmentRest | .conditionalRest | .tierRest _ | .suffixedRest | .argumentListRest
  | .primary => 3
  | .suffixed => 9
  | .unary => 12
  | .cast => 15
  | .tier t => 21 + 6 * t.level
  | .conditional => 81
  | .assignment => 87
  | .expression => 90
  | .argumentList => 93
  | .root => 94

/-- How many moves a body makes beyond those that its words are worth. A terminal pays for what
stands behind it, as far as its word goes. -/
def bodyAllowance : List Symbol → Nat
  | [] => 1
  | .terminal kind _ :: rest =>
    1 + (bodyAllowance rest - if kind = .endOfInput then 0 else movesPerWord)
  | .rule name :: rest => allowance name + bodyAllowance rest

theorem bodyAllowance_add_two_le {name : NonTerminal} {production : Production}
    (h : production ∈ name.productions) : bodyAllowance production.body + 2 ≤ allowance name := by
  have hall : ∀ p ∈ name.productions, bodyAllowance p.body + 2 ≤ allowance name := by
    cases name
    case tier t => cases t <;> decide
    case tierRest t => cases t <;> decide
    all_goals decide
  exact hall production h

theorem bodyAllowance_lt_of_word (kind : Kind) (role : Role) (rest : List Symbol) :
    bodyAllowance rest < bodyAllowance (.terminal kind role :: rest) + movesPerWord := by
  rw [bodyAllowance]
  split <;> omega

def Activity.allowance : Activity → Nat
  | running symbols _ => bodyAllowance symbols
  | ended _ => 0

/-- The most moves that can still be made. An open rule is closed by one move, and then what stands
after it is run. -/
def Moment.allowance (moment : Moment) : Nat :=
  movesPerWord * moment.state.ahead.length + moment.activity.allowance +
    (moment.opened.map fun inner ↦ 1 + bodyAllowance inner.rest).sum

theorem bodyAllowance_pos (symbol : Symbol) (rest : List Symbol) :
    0 < bodyAllowance (symbol :: rest) := by
  cases symbol with
  | terminal => exact Nat.lt_add_right _ Nat.one_pos
  | rule name =>
    refine Nat.lt_add_right _ ?_
    cases name <;> simp only [Parse.allowance] <;> omega

/-- Every move takes one from the moves that can still be made. -/
theorem Moves.allowance_lt (h : Moves limits stop moment next) :
    next.allowance < moment.allowance := by
  cases h with
  | done => exact Nat.add_lt_add_right (Nat.lt_succ_self _) _
  | stop =>
    simp only [Moment.allowance, Activity.allowance, bodyAllowance, if_true]
    omega
  | @word kind token role rest _ _ state ahead hahead _ _ =>
    have hword := bodyAllowance_lt_of_word kind role rest
    simp only [Moment.allowance, Activity.allowance, State.consume, hahead, List.length_cons,
      Nat.mul_succ]
    omega
  | @tooMany kind token rest _ _ state ahead hahead _ _ =>
    have hpos := bodyAllowance_pos (.terminal kind .counted) rest
    simp only [Moment.allowance, Activity.allowance, State.consume, hahead, List.length_cons,
      Nat.mul_succ]
    omega
  | mismatch | tooDeep | unexpected =>
    exact Nat.add_lt_add_right (Nat.add_lt_add_left (bodyAllowance_pos _ _) _) _
  | enter _ hproduction =>
    have hbody := bodyAllowance_add_two_le (NonTerminal.mem_productions hproduction)
    simp only [Moment.allowance, Activity.allowance, bodyAllowance, State.ahead_enter,
      List.map_cons, List.sum_cons]
    omega
  | leave =>
    simp only [Moment.allowance, Activity.allowance, State.ahead_leave, List.map_cons,
      List.sum_cons]
    omega
  | raise =>
    simp only [Moment.allowance, Activity.allowance, State.ahead_leave, List.map_cons,
      List.sum_cons]
    omega

/-- From a moment no more moves can be made than are allowed. -/
theorem length_le_of_isChain {moments : List Moment}
    (h : (moment :: moments).IsChain (Moves limits stop)) : moments.length ≤ moment.allowance := by
  induction moments generalizing moment with
  | nil => exact Nat.zero_le _
  | cons next moments ih =>
    obtain ⟨hmoves, hrest⟩ := List.isChain_cons_cons.1 h
    have hless := hmoves.allowance_lt
    have hle := ih hrest
    rw [List.length_cons]
    omega

end CExpr.Parse

namespace CExpr

open Parse

/-- Whatever the limits are, if any, no sequence of moves over an input is longer than a hundred
times the number of its words and one more, and from every moment the moves lead to what the parse
comes to. This is so because words are read. When a rule comes up while the same rule is open, the
position is past the one at which that was opened, and when a turn of a list of operators, suffixes
or arguments has come to a result, well or in an error, the position is past the one at which the
turn began. -/
theorem Parser.progress_of_reached (limits : Limits) (tokens : List Token) :
    let input := Input.ofTokens tokens
    (∀ moments : List Moment,
      (Moment.start input.words :: moments).IsChain (Moves limits input.stop) →
        moments.length ≤ 100 * (input.words.length + 1)) ∧
    ∀ moment : Moment, moment.Reached limits input →
      Leads limits input.stop moment (.over limits input) ∧
      (∀ name rest given, moment.activity = .running (.rule name :: rest) given →
        ∀ outer ∈ moment.opened, outer.rule = name →
          outer.entry.position < moment.state.position) ∧
      ∀ inner opened result, moment.opened = inner :: opened → moment.activity = .ended result →
        inner.rule.counts = true → inner.body ≠ [] →
          inner.entry.position < moment.state.position := by
  intro input
  refine ⟨fun moments hchain ↦ ?_, fun moment hreached ↦ ⟨hreached.leads_over, ?_, ?_⟩⟩
  · calc moments.length
        ≤ (Moment.start input.words).allowance := length_le_of_isChain hchain
      _ = 100 * input.words.length + 92 := rfl
      _ ≤ 100 * (input.words.length + 1) := by omega
  · intro name rest given hactivity outer houter hname
    exact hreached.position_lt_of_again hactivity houter hname
  · intro inner opened result hopened hactivity hcounts hbody
    have hmem : inner ∈ moment.opened := by
      rw [hopened]
      exact List.mem_cons_self
    refine (hreached.turnsRead inner hmem ⟨hcounts, hbody⟩).resolve_right ?_
    rintro ⟨role, rest, given, hreading, -⟩
    rw [hactivity] at hreading
    cases hreading

end CExpr
