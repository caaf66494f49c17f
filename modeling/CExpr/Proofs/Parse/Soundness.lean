import CExpr.Proofs.Grammar.Fills
import CExpr.Proofs.Parse.Runs

/-!
# Trees are derived

A run that ends well has filled its body with the words that it consumed, in their order, and left
the others ahead. So a tree that a parse gives is derived from the words of the input and the end
after them.
-/

namespace CExpr

open Parse

variable {limits : Limits} {stop : Token}

/-- The words consumed by a run fill its body. -/
theorem Parse.Runs.fills {body : List Symbol} {state final : State}
    {result : Except SyntaxError Contents} (h : Runs limits stop body state result final)
    (hbody : body.all Symbol.isInner) {contents : Contents} (hok : result = .ok contents) :
    ∃ tokens, state.ahead = tokens ++ final.ahead ∧ Fills body contents tokens := by
  induction h generalizing contents with
  | done =>
    cases hok
    exact ⟨[], rfl, .nil⟩
  | stop => simp [Symbol.isInner] at hbody
  | @word token role rest state final ahead result hahead _ _ ih =>
    simp only [List.all_cons, Bool.and_eq_true] at hbody
    cases result with
    | error => cases hok
    | ok inner =>
      cases hok
      obtain ⟨tokens, htokens, hfills⟩ := ih hbody.2 rfl
      refine ⟨token :: tokens, ?_, .terminal token rfl hfills⟩
      calc state.ahead
          = token :: (state.consume role token ahead).ahead := hahead
        _ = token :: tokens ++ final.ahead := by rw [htokens, List.cons_append]
  | tooMany => cases hok
  | mismatch => cases hok
  | tooDeep => cases hok
  | unexpected => cases hok
  | inside => cases hok
  | @rule name production rest state inner final contents result _ hproduction _ _ ihInner ihRest =>
    simp only [List.all_cons, Bool.and_eq_true] at hbody
    have hmem := NonTerminal.mem_productions hproduction
    have hinner := NonTerminal.isInner_of_mem (by simpa [Symbol.isInner] using hbody.1) hmem
    cases result with
    | error => cases hok
    | ok outer =>
      cases hok
      obtain ⟨front, hfront, hfillsInner⟩ := ihInner hinner rfl
      obtain ⟨back, hback, hfillsRest⟩ := ihRest hbody.2 rfl
      refine ⟨front ++ back, ?_, .rule hmem hfillsInner hfillsRest⟩
      calc state.ahead
          = front ++ (inner.leave name).ahead := hfront
        _ = front ++ back ++ final.ahead := by rw [hback, List.append_assoc]

/-- The end of the input is read only when all words are consumed. -/
theorem Parse.Runs.eq_stop {role : Role} {state final : State} {contents : Contents}
    (h : Runs limits stop [.terminal .endOfInput role] state (.ok contents) final)
    (hwords : ∀ token ∈ state.ahead, token.kind ≠ .endOfInput) :
    state.ahead = [] ∧ contents = ⟨[stop], []⟩ := by
  generalize hbody : [Symbol.terminal .endOfInput role] = body at h
  generalize hresult : Except.ok contents = result at h
  cases h with
  | stop hahead hrest =>
    cases hbody
    cases hrest
    cases hresult
    exact ⟨hahead, rfl⟩
  | @word token _ _ _ _ ahead _ hahead =>
    injection hbody with hsymbol
    injection hsymbol with hkind
    exact absurd hkind.symm (hwords token (by rw [hahead]; exact List.mem_cons_self))
  | _ => simp_all

/-- A whole run that ends well gives one expression made of all words. -/
theorem Parse.Runs.derives {state final : State} {contents : Contents}
    (h : Runs limits stop rootBody state (.ok contents) final)
    (hwords : ∀ token ∈ state.ahead, token.kind ≠ .endOfInput) :
    ∃ body, Derives .expression body state.ahead ∧ contents = ⟨[stop], [body]⟩ := by
  generalize hbody : rootBody = body at h
  generalize hresult : Except.ok contents = result at h
  cases h with
  | @rule name production rest _ inner _ front result _ hproduction hinner hrest =>
    cases hbody
    have hmem := NonTerminal.mem_productions hproduction
    have hisInner := NonTerminal.isInner_of_mem (by decide) hmem
    obtain ⟨tokens, htokens, hfills⟩ := hinner.fills hisInner rfl
    cases result with
    | error => cases hresult
    | ok outer =>
      cases hresult
      rw [State.ahead_enter] at htokens
      have hleft : ∀ token ∈ (inner.leave .expression).ahead, token.kind ≠ .endOfInput := by
        intro token htoken
        apply hwords
        rw [htokens]
        exact List.mem_append_right tokens htoken
      obtain ⟨hnil, rfl⟩ := hrest.eq_stop hleft
      rw [State.ahead_leave] at hnil
      rw [htokens, hnil, List.append_nil]
      exact ⟨_, hfills.derives hmem, rfl⟩
  | _ => simp_all [rootBody]

/-- The tree of an input is derived from its words and their end. -/
theorem Parser.derives_of_parseWithin {parser : Parser} {root : Node}
    (h : (parser.parseWithin limits).1 = .ok root) : Derives .root root parser.input.toList := by
  have hrun : Runs limits parser.input.stop rootBody (.initial parser.input.words)
      (outcome limits parser.input).result (outcome limits parser.input).final := runs_run _ _
  rw [hrun.parseWithin] at h
  cases hresult : (outcome limits parser.input).result with
  | error => simp [hresult, Except.map] at h
  | ok contents =>
    rw [hresult] at h hrun
    cases h
    obtain ⟨body, hbody, rfl⟩ := hrun.derives parser.input.words_kind
    exact derives_root_iff.2 ⟨body, _, _, hbody, parser.input.stop_kind, rfl, rfl⟩

end CExpr
