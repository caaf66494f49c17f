import CExpr.Proofs.Parse.Counts
import CExpr.Proofs.Parse.Moments
import CExpr.Proofs.Parse.Viable
import Mathlib.Logic.Function.Iterate

/-!
# What holds at every moment

At every moment of a run its state splits the words of the input, so the next token is always there,
at the end at the latest. The depth of the state is the number of open nesting rules, each of which
found the depth that the rules around it left. Neither count goes past its limit, but for the one
token too many that an error is about. A rule is therefore closed with the depth that it was opened
with, whatever it comes to.
-/

namespace CExpr.Parse

variable {limits : Limits} {stop : Token} {moment next : Moment}

/-- Each open rule was opened at the depth that the rules around it make, and opening it made the
depth what it is inside. -/
def Nested : Nat → List OpenRule → Prop
  | depth, [] => depth = 0
  | depth, inner :: opened =>
    depth = inner.entry.depth + (if inner.rule.nests then 1 else 0) ∧
      Nested inner.entry.depth opened

/-- How many counted tokens may be past the limit: the one that an error is about. -/
def Activity.excess : Activity → Nat
  | ended (.error _) => 1
  | _ => 0

/-- What holds at every moment of a run over the words within the limits. -/
structure Moment.Sound (limits : Limits) (words : List Token) (moment : Moment) : Prop where
  words_eq : moment.state.words = words
  nested : Nested moment.state.depth moment.opened
  allowed : limits.Admit moment.state.depth (moment.state.operators - moment.activity.excess)

/-! ## Moves -/

/-- Words are consumed in one move each, and never given back. -/
theorem Moves.position_le (h : Moves limits stop moment next) :
    moment.state.position ≤ next.state.position := by
  cases h with
  | word | tooMany => exact Nat.le_succ _
  | _ => exact Nat.le_refl _

theorem Moves.words_eq (h : Moves limits stop moment next) :
    next.state.words = moment.state.words := by
  cases h with
  | word hahead | tooMany hahead => exact State.words_consume hahead _
  | _ => rfl

/-- A move that closes a rule does nothing else to the state. -/
theorem Moves.state_eq_leave (h : Moves limits stop moment next) {inner : OpenRule}
    (hclosed : moment.opened = inner :: next.opened) :
    next.state = moment.state.leave inner.rule := by
  cases h with
  | leave | raise =>
    cases hclosed
    rfl
  | enter =>
    have hlength := congrArg List.length hclosed
    simp only [List.length_cons] at hlength
    omega
  | _ => simp at hclosed

theorem Nested.depth_leave {inner : OpenRule} {opened : List OpenRule} {state : State}
    (h : Nested state.depth (inner :: opened)) :
    (state.leave inner.rule).depth = inner.entry.depth :=
  State.depth_leave h.1

/-- The depth is the number of open nesting rules. -/
theorem Nested.depth_eq {depth : Nat} {opened : List OpenRule} (h : Nested depth opened) :
    depth = opened.countP (·.rule.nests) := by
  induction opened generalizing depth with
  | nil => exact h
  | cons inner opened ih =>
    obtain ⟨hdepth, hrest⟩ := h
    rw [hdepth, ih hrest, List.countP_cons]

theorem Moves.nested (h : Moves limits stop moment next)
    (hnested : Nested moment.state.depth moment.opened) :
    Nested next.state.depth next.opened := by
  cases h with
  | enter => exact ⟨rfl, hnested⟩
  | leave | raise =>
    rw [hnested.depth_leave]
    exact hnested.2
  | _ => exact hnested

theorem Moves.allowed (h : Moves limits stop moment next)
    (hallowed : limits.Admit moment.state.depth (moment.state.operators - moment.activity.excess)) :
    limits.Admit next.state.depth (next.state.operators - next.activity.excess) := by
  cases h with
  | done | stop | tooMany => exact hallowed
  | word _ _ hcount => exact hallowed.count hcount
  | mismatch | tooDeep | unexpected => exact hallowed.mono (Nat.le_refl _) (Nat.sub_le _ _)
  | enter hdepth => exact hallowed.enter hdepth
  | leave | raise => exact hallowed.mono (Nat.sub_le _ _) (Nat.le_refl _)

theorem Moves.sound {words : List Token} (h : Moves limits stop moment next)
    (hsound : moment.Sound limits words) : next.Sound limits words where
  words_eq := h.words_eq.trans hsound.words_eq
  nested := h.nested hsound.nested
  allowed := h.allowed hsound.allowed

/-! ## Whole runs -/

theorem Leads.position_le (h : Leads limits stop moment next) :
    moment.state.position ≤ next.state.position := by
  induction h with
  | refl => exact Nat.le_refl _
  | tail _ hmoves ih => exact Nat.le_trans ih hmoves.position_le

theorem Moment.sound_start (limits : Limits) (words : List Token) :
    (Moment.start words).Sound limits words where
  words_eq := rfl
  nested := rfl
  allowed := ⟨fun _ _ ↦ Nat.zero_le _, fun _ _ ↦ Nat.zero_le _⟩

theorem Moment.Reached.sound {input : Input} (h : moment.Reached limits input) :
    moment.Sound limits input.words := by
  induction h with
  | refl => exact sound_start limits input.words
  | tail _ hmoves ih => exact hmoves.sound ih

/-- The words before the first end of the input are those of the input. -/
theorem Input.findIdx_completed (tokens : List Token) :
    (completed tokens).findIdx (·.kind = .endOfInput) = (ofTokens tokens).words.length := by
  obtain ⟨after, hcompleted⟩ := exists_completed_eq_append tokens
  have hwords : (ofTokens tokens).words.findIdx (·.kind = .endOfInput) =
      (ofTokens tokens).words.length :=
    List.findIdx_eq_length.2 fun token htoken ↦ by
      simpa using (ofTokens tokens).words_kind token htoken
  have hstop : ((ofTokens tokens).stop :: after).findIdx (·.kind = .endOfInput) = 0 := by
    simp [List.findIdx_cons, (ofTokens tokens).stop_kind]
  rw [hcompleted, List.findIdx_append, hwords, hstop, Nat.zero_add, if_neg (Nat.lt_irrefl _)]

/-- A state that splits the words of an input is not past the first end, and its next token is the
one at its position. -/
theorem State.getElem?_completed {tokens : List Token} {state : State}
    (h : state.words = (Input.ofTokens tokens).words) :
    state.position ≤ (Input.completed tokens).findIdx (·.kind = .endOfInput) ∧
      (Input.completed tokens)[state.position]? =
        some (state.current (Input.ofTokens tokens).stop) := by
  have hlength : state.before.reverse.length = state.position := List.length_reverse
  obtain ⟨after, hcompleted⟩ := Input.exists_completed_eq_consumed h.symm
  constructor
  · rw [Input.findIdx_completed, ← h, words, List.length_append, hlength]
    exact Nat.le_add_right _ _
  · rw [hcompleted, ← hlength, List.getElem?_append_right (Nat.le_refl _), Nat.sub_self]
    rfl

end CExpr.Parse

namespace CExpr

open Parse

/-- Any number of parses change nothing in what the next one gives. -/
theorem Parser.parse_iterate (parser : Parser) (times : Nat) :
    ((fun parser : Parser ↦ parser.parse.2)^[times] parser).parse = parser.parse := by
  induction times generalizing parser with
  | zero => rfl
  | succ times ih => exact (ih parser.parse.2).trans (parseWithin_parseWithin .standard parser)

/-- Whatever the tokens are and whatever a parse of them comes to, at each of its moments the next
token is there, the first end of the input at the latest, the depth is the number of open nesting
rules and at most 192, and at most one counted token is past the limit. No later moment has an
earlier position, and a rule is closed at the depth that it was opened at. The last of these moments
holds the answer and the state of the parser, and any number of further parses give the same
answer. -/
theorem Parser.bounds_of_reached (tokens : List Token) :
    let input := Input.ofTokens tokens
    let parser := Parser.ofTokens tokens
    (∀ moment : Moment, moment.Reached .standard input →
      moment.state.position ≤ (Input.completed tokens).findIdx (·.kind = .endOfInput) ∧
      (Input.completed tokens)[moment.state.position]? = some (moment.state.current input.stop) ∧
      moment.state.depth = moment.opened.countP (·.rule.nests) ∧ moment.state.depth ≤ 192 ∧
      moment.state.operators ≤ 1025 ∧
      (∀ later, Leads .standard input.stop moment later →
        moment.state.position ≤ later.state.position) ∧
      ∀ next inner, Moves .standard input.stop moment next → moment.opened = inner :: next.opened →
        next.state.depth = inner.entry.depth) ∧
    (∃ result, Moment.Reached .standard input ⟨.ended result, [], parser.parse.2.state⟩ ∧
      parser.parse.1 = result.map (Contents.toNode .root rootBody)) ∧
    ∀ times, ((fun parser : Parser ↦ parser.parse.2)^[times] parser).parse = parser.parse := by
  intro input parser
  refine ⟨fun moment hreached ↦ ?_, ⟨_, Moment.reached_over .standard input, rfl⟩,
    parser.parse_iterate⟩
  have hsound := hreached.sound
  obtain ⟨hposition, hcurrent⟩ := State.getElem?_completed hsound.words_eq
  obtain ⟨hdepth, hoperators⟩ := Limits.admit_standard_iff.1 hsound.allowed
  have hexcess : moment.activity.excess ≤ 1 := by
    unfold Activity.excess
    split <;> omega
  refine ⟨hposition, hcurrent, hsound.nested.depth_eq, hdepth, by omega,
    fun later hleads ↦ hleads.position_le, ?_⟩
  intro next inner hmoves hclosed
  have hnested := hsound.nested
  rw [hclosed] at hnested
  rw [hmoves.state_eq_leave hclosed, hnested.depth_leave]

end CExpr
