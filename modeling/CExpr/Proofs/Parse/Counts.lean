import CExpr.Proofs.Parse.Soundness
import CExpr.Proofs.Grammar.Size

/-!
# What a run counts

A run leaves as many nesting rules open as it found, whatever it comes to. One that ends well has
counted the operators of the nodes that it gives, and neither these nor the nesting of the nodes are
past the limits.
-/

namespace CExpr

open Parse

variable {limits : Limits} {stop : Token} {body : List Symbol} {state final : State}
  {result : Except SyntaxError Contents}

theorem Parse.State.depth_leave {state inner : State} {rule : NonTerminal}
    (h : inner.depth = (state.enter rule).depth) : (inner.leave rule).depth = state.depth := by
  simp [leave, h, enter]

/-- Every rule that a run opens is closed again, also after an error. -/
theorem Parse.Runs.depth_eq (h : Runs limits stop body state result final) :
    final.depth = state.depth := by
  induction h with
  | done | tooMany | mismatch | tooDeep | unexpected => rfl
  | stop _ _ ih | word _ _ _ ih => exact ih
  | inside _ _ _ ih => exact State.depth_leave ih
  | rule _ _ _ _ ihInner ihRest => exact ihRest.trans (State.depth_leave ihInner)

namespace Parse.Limits

/-- A nesting rule that may be opened is within the limit. -/
theorem Admit.enter {depth operators : Nat} (h : limits.Admit depth operators) {nests : Bool}
    (hdepth : nests = true → limits.admitsDepth depth = true) :
    limits.Admit (depth + if nests then 1 else 0) operators := by
  refine ⟨fun most hmost ↦ ?_, h.2⟩
  cases nests with
  | false => exact h.1 most hmost
  | true =>
    have hadmits := hdepth rfl
    simp only [Limits.admitsDepth, hmost] at hadmits
    exact of_decide_eq_true hadmits

/-- A counted token that may be read is within the limit. -/
theorem Admit.count {depth operators : Nat} (h : limits.Admit depth operators) {role : Role}
    (hcount : role = .counted → limits.admitsOperators (operators + 1) = true) :
    limits.Admit depth (operators + if role = .counted then 1 else 0) := by
  refine ⟨h.1, fun most hmost ↦ ?_⟩
  split
  next hrole =>
    have hadmits := hcount hrole
    simp only [Limits.admitsOperators, hmost] at hadmits
    exact of_decide_eq_true hadmits
  next => exact h.2 most hmost

end Parse.Limits

/-- A symbol of a rule for expressions, or the end of the input after a whole one. -/
def Symbol.IsEndOrInner (symbol : Symbol) : Prop :=
  symbol = .terminal .endOfInput (.required .expression) ∨ symbol.isInner = true

/-- A run that ends well counts the operators of its nodes and stays within the limits. -/
theorem Parse.Runs.counts (h : Runs limits stop body state result final) {contents : Contents}
    (hok : result = .ok contents) (hbody : ∀ symbol ∈ body, symbol.IsEndOrInner)
    (hstate : limits.Admit state.depth state.operators) :
    final.operators =
        state.operators + (Body.counted body + Node.operatorsOfAll contents.children) ∧
      limits.Admit (state.depth + Node.nestingOfAll contents.children) final.operators := by
  induction h generalizing contents with
  | done =>
    cases hok
    exact ⟨rfl, hstate⟩
  | @stop role rest state final result _ _ ih =>
    obtain ⟨hsymbol, hrest⟩ := List.forall_mem_cons.1 hbody
    obtain rfl : role = .required .expression := by
      simpa [Symbol.IsEndOrInner, Symbol.isInner] using hsymbol
    cases result with
    | error => cases hok
    | ok inner =>
      cases hok
      have hcounts := ih rfl hrest hstate
      simpa [Body.counted, Contents.withTerminal] using hcounts
  | @word token role rest state final ahead result _ hcount _ ih =>
    obtain ⟨-, hrest⟩ := List.forall_mem_cons.1 hbody
    cases result with
    | error => cases hok
    | ok inner =>
      cases hok
      obtain ⟨hoperators, hadmit⟩ := ih rfl hrest (hstate.count hcount)
      refine ⟨?_, hadmit⟩
      rw [hoperators]
      simp only [State.consume, Body.counted, Contents.withTerminal]
      omega
  | tooMany | mismatch | tooDeep | unexpected | inside => cases hok
  | @rule name production rest state inner final contents result hdepth hproduction hinner _ ihInner
      ihRest =>
    obtain ⟨hsymbol, hrest⟩ := List.forall_mem_cons.1 hbody
    have hname : name ≠ .root := by simpa [Symbol.IsEndOrInner, Symbol.isInner] using hsymbol
    have hmem := NonTerminal.mem_productions hproduction
    have hisInner := NonTerminal.isInner_of_mem hname hmem
    cases result with
    | error => cases hok
    | ok outer =>
      cases hok
      obtain ⟨tokens, -, hfills⟩ := hinner.fills hisInner rfl
      obtain ⟨hcount, hadmit⟩ := ihInner rfl
        (fun symbol h ↦ .inr (List.all_eq_true.1 hisInner symbol h)) (hstate.enter hdepth)
      have hdeep : (inner.leave name).depth = state.depth := State.depth_leave hinner.depth_eq
      have hnode := hfills.operators_toNode hmem
      have hnesting := hfills.nesting_toNode name
      have hnext : limits.Admit (inner.leave name).depth (inner.leave name).operators := by
        rw [hdeep]
        exact hadmit.mono (by simp only [State.enter]; omega) (Nat.le_refl _)
      obtain ⟨hoperators, hadmitRest⟩ := ihRest rfl hrest hnext
      refine ⟨?_, fun most hmost ↦ ?_, hadmitRest.2⟩
      · calc final.operators
            = inner.operators + (Body.counted rest + Node.operatorsOfAll outer.children) :=
            hoperators
          _ = state.operators + (contents.toNode name production.body).operators +
              (Body.counted rest + Node.operatorsOfAll outer.children) := by
            rw [hcount, hnode]
            rfl
          _ = state.operators + (Body.counted rest +
              ((contents.toNode name production.body).operators +
                Node.operatorsOfAll outer.children)) := by omega
      · have hin := hadmit.1 most hmost
        have hout := hadmitRest.1 most hmost
        rw [hdeep] at hout
        have henter : (state.enter name).depth + Node.nestingOfAll contents.children =
            state.depth + (contents.toNode name production.body).nesting := by
          rw [hnesting, ← Nat.add_assoc]
          rfl
        change state.depth + max _ (Node.nestingOfAll outer.children) ≤ most
        omega

/-- The tree of a parse is within the limits, and the parser has counted its operators. -/
theorem Parser.counts_of_parseWithin {parser : Parser} {root : Node}
    (h : (parser.parseWithin limits).1 = .ok root) :
    (parser.parseWithin limits).2.state.operators = root.operators ∧
      limits.Admit root.nesting root.operators := by
  have hrun : Runs limits parser.input.stop rootBody (.initial parser.input.words)
      (outcome limits parser.input).result (outcome limits parser.input).final := runs_run _ _
  rw [hrun.parseWithin] at h ⊢
  cases hresult : (outcome limits parser.input).result with
  | error => simp [hresult, Except.map] at h
  | ok contents =>
    rw [hresult] at h hrun
    cases h
    have hbody : ∀ symbol ∈ rootBody, symbol.IsEndOrInner := by
      simp [rootBody, Symbol.IsEndOrInner, Symbol.isInner]
    have hstart : limits.Admit (State.initial parser.input.words).depth
        (State.initial parser.input.words).operators :=
      ⟨fun _ _ ↦ Nat.zero_le _, fun _ _ ↦ Nat.zero_le _⟩
    obtain ⟨hoperators, hadmit⟩ := hrun.counts rfl hbody hstart
    have hfinal : (outcome limits parser.input).final.operators =
        Node.operatorsOfAll contents.children := by
      simpa [rootBody, Body.counted, State.initial] using hoperators
    have hsizes : (contents.toNode .root rootBody).operators =
          Node.operatorsOfAll contents.children ∧
        (contents.toNode .root rootBody).nesting = Node.nestingOfAll contents.children := by
      simp [Contents.toNode, rootBody, Node.operators, Node.nesting, NonTerminal.counts,
        NonTerminal.nests]
    rw [hsizes.1, hsizes.2, ← hfinal]
    exact ⟨rfl, by simpa [State.initial] using hadmit⟩

end CExpr
