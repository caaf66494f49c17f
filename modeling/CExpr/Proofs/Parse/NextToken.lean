import CExpr.Proofs.Grammar.Size
import CExpr.Proofs.Parse.Runs

/-!
# What a run has seen

A run moves words from ahead to before and looks at the next token, so the words that it consumed
and the one after them are all that it has seen. Other words put behind these change neither its
result nor its steps. An error is about the next token, or about the last word consumed when there
was one operator too many.
-/

namespace CExpr.Parse

variable {limits : Limits} {stop : Token} {body : List Symbol} {state final : State}
  {result : Except SyntaxError Contents}

theorem error_of_map_eq_error {α : Type} {change : Contents → α} {error : SyntaxError}
    (h : result.map change = .error error) : result = .error error := by
  cases result with
  | error inner =>
    cases h
    rfl
  | ok contents => cases h

/-! ## Consumed words -/

/-- A run consumes the first words that are ahead of it. -/
theorem Runs.exists_consumed (h : Runs limits stop body state result final) :
    ∃ consumed, final.before = consumed.reverse ++ state.before ∧
      state.ahead = consumed ++ final.ahead := by
  induction h with
  | done | mismatch | tooDeep | unexpected => exact ⟨[], rfl, rfl⟩
  | stop _ _ ih => exact ih
  | @word token role rest state final ahead result hahead _ _ ih =>
    obtain ⟨consumed, hbefore, hrest⟩ := ih
    refine ⟨token :: consumed, by simpa [State.consume] using hbefore, ?_⟩
    calc state.ahead
        = token :: (state.consume role token ahead).ahead := hahead
      _ = token :: consumed ++ final.ahead := by rw [hrest, List.cons_append]
  | tooMany hahead => exact ⟨[_], rfl, hahead⟩
  | inside _ _ _ ih => exact ih
  | @rule name production rest state inner final contents result _ _ _ _ ihInner ihRest =>
    obtain ⟨front, hfrontBefore, hfront⟩ := ihInner
    obtain ⟨back, hbackBefore, hback⟩ := ihRest
    refine ⟨front ++ back, ?_, ?_⟩
    · calc final.before
          = back.reverse ++ inner.before := hbackBefore
        _ = (front ++ back).reverse ++ state.before := by
          rw [hfrontBefore, List.reverse_append, List.append_assoc]
          rfl
    · calc state.ahead
          = front ++ (inner.leave name).ahead := hfront
        _ = front ++ back ++ final.ahead := by rw [hback, List.append_assoc]

theorem Runs.length_ahead_le (h : Runs limits stop body state result final) :
    final.ahead.length ≤ state.ahead.length := by
  obtain ⟨consumed, -, hahead⟩ := h.exists_consumed
  rw [hahead, List.length_append]
  exact Nat.le_add_left _ _

/-! ## The token of an error -/

/-- What an error says of the state in which its run ends: an operator too many is the last word
consumed, and any other error is about the next token. -/
def Describes (stop : Token) (error : SyntaxError) (final : State) : Prop :=
  match error.cause with
  | .tooManyOperators => final.before.head? = some error.found
  | .missing _ _ previous => error.found = final.current stop ∧ previous = final.previousText
  | .expression | .tooDeep => error.found = final.current stop

theorem Runs.describes (h : Runs limits stop body state result final) {error : SyntaxError}
    (herror : result = .error error) : Describes stop error final := by
  induction h with
  | done => cases herror
  | stop _ _ ih => exact ih (error_of_map_eq_error herror)
  | word _ _ _ ih => exact ih (error_of_map_eq_error herror)
  | tooMany | tooDeep | unexpected =>
    cases herror
    rfl
  | @mismatch _ role =>
    cases herror
    cases role with
    | required => exact ⟨rfl, rfl⟩
    | leading | counted => rfl
  | inside _ _ _ ih => exact ih herror
  | rule _ _ _ _ _ ihRest => exact ihRest (error_of_map_eq_error herror)

variable {error : SyntaxError}

/-- An error that is not about the number of operators is about the next token. -/
theorem Describes.found_eq_current (h : Describes stop error final)
    (hcause : error.cause ≠ .tooManyOperators) : error.found = final.current stop := by
  obtain ⟨found, cause⟩ := error
  cases cause with
  | tooManyOperators => exact absurd rfl hcause
  | missing => exact h.1
  | expression | tooDeep => exact h

theorem Describes.head?_before (h : Describes stop error final)
    (hcause : error.cause = .tooManyOperators) : final.before.head? = some error.found := by
  rwa [Describes, hcause] at h

/-- The text that a message about a missing token names is that of the last word consumed. -/
theorem Describes.previous_eq {kind : Kind} {place : Place} {previous : String}
    (h : Describes stop error final) (hcause : error.cause = .missing kind place previous) :
    previous = final.previousText := by
  rw [Describes, hcause] at h
  exact h.2

/-- The run ended at an operator too many. -/
def IsTooMany (result : Except SyntaxError Contents) : Prop :=
  ∃ token, result = .error ⟨token, .tooManyOperators⟩

@[simp] theorem isTooMany_map {change : Contents → Contents} :
    IsTooMany (result.map change) ↔ IsTooMany result := by
  cases result <;> simp [IsTooMany, Except.map]

/-- An operator too many has been consumed. -/
theorem Runs.length_ahead_lt (h : Runs limits stop body state result final)
    (hmany : IsTooMany result) : final.ahead.length < state.ahead.length := by
  obtain ⟨token, herror⟩ := hmany
  induction h with
  | done => cases herror
  | stop _ _ ih => exact ih (error_of_map_eq_error herror)
  | word hahead _ hrest =>
    rw [hahead]
    exact Nat.lt_succ_of_le hrest.length_ahead_le
  | tooMany hahead =>
    rw [hahead]
    exact Nat.lt_succ_self _
  | @mismatch kind role =>
    cases role <;> cases herror
  | tooDeep | unexpected => cases herror
  | inside _ _ _ ih => exact ih herror
  | rule _ _ hinner _ _ ihRest =>
    exact Nat.lt_of_lt_of_le (ihRest (error_of_map_eq_error herror)) hinner.length_ahead_le

/-! ## Other words behind -/

/-- The state with other words ahead. -/
def State.withAhead (state : State) (ahead : List Token) : State := { state with ahead := ahead }

theorem State.withAhead_leave (state : State) (name : NonTerminal) (ahead : List Token) :
    (state.leave name).withAhead ahead = (state.withAhead ahead).leave name := rfl

/-- What comes next is the same token, be it a word or the end of the input. -/
structure SameNext (stop otherStop : Token) (ahead other : List Token) : Prop where
  head? : other.head? = ahead.head?
  stop : ahead = [] → otherStop = stop

namespace SameNext

variable {otherStop : Token} {ahead other : List Token}

theorem append (h : SameNext stop otherStop ahead other) (front : List Token) :
    SameNext stop otherStop (front ++ ahead) (front ++ other) where
  head? := by simp [List.head?_append, h.head?]
  stop hnil := h.stop (List.append_eq_nil_iff.1 hnil).2

theorem of_ne_nil {front : List Token} (h : front ≠ []) (stop otherStop : Token)
    (ahead other : List Token) : SameNext stop otherStop (front ++ ahead) (front ++ other) where
  head? := by simp [List.head?_append, List.head?_eq_some_head h]
  stop hnil := absurd (List.append_eq_nil_iff.1 hnil).1 h

theorem eq_nil (h : SameNext stop otherStop [] other) : other = [] := by
  simpa using h.head?

theorem lookahead (h : SameNext stop otherStop state.ahead other) :
    (state.withAhead other).lookahead = state.lookahead := by
  have hhead := h.head?
  unfold State.lookahead State.withAhead
  cases hahead : state.ahead <;> cases other <;> simp_all

theorem current (h : SameNext stop otherStop state.ahead other) :
    (state.withAhead other).current otherStop = state.current stop := by
  have hhead := h.head?
  have hstop := h.stop
  unfold State.current State.withAhead
  cases hahead : state.ahead <;> cases other <;> simp_all

theorem mismatch (h : SameNext stop otherStop state.ahead other) (kind : Kind) (role : Role) :
    (state.withAhead other).mismatch otherStop kind role = state.mismatch stop kind role := by
  unfold State.mismatch
  rw [h.current]
  rfl

end SameNext

/-- What comes next before a run is the same when it is the same after it. After an operator too
many the run has not seen what comes next. -/
theorem Runs.sameNext (h : Runs limits stop body state result final) {consumed other : List Token}
    {otherStop : Token} (hahead : state.ahead = consumed ++ final.ahead)
    (hnext : ¬IsTooMany result → SameNext stop otherStop final.ahead other) :
    SameNext stop otherStop state.ahead (consumed ++ other) := by
  rw [hahead]
  by_cases hmany : IsTooMany result
  · have hlength := h.length_ahead_lt hmany
    refine .of_ne_nil ?_ stop otherStop final.ahead other
    rintro rfl
    simp [hahead] at hlength
  · exact (hnext hmany).append consumed

/-- A run takes the same steps when other words stand behind those that it has seen, since each step
is chosen on what comes next. -/
theorem Runs.withAhead (h : Runs limits stop body state result final) {consumed other : List Token}
    {otherStop : Token} (hahead : state.ahead = consumed ++ final.ahead)
    (hnext : ¬IsTooMany result → SameNext stop otherStop final.ahead other) :
    Runs limits otherStop body (state.withAhead (consumed ++ other)) result
      (final.withAhead other) := by
  have hsame := h.sameNext hahead hnext
  induction h generalizing consumed other with
  | done =>
    obtain rfl : consumed = [] := by simpa using hahead
    exact .done
  | @stop role rest state final result hnil hrest ih =>
    rw [isTooMany_map] at hnext
    have hrun := ih hahead hnext hsame
    rw [hnil] at hsame
    obtain ⟨rfl, rfl⟩ := List.append_eq_nil_iff.1 hsame.eq_nil
    obtain rfl := hsame.stop rfl
    exact .stop rfl hrun
  | @word token role rest state final ahead result hcons hcount hrest ih =>
    obtain ⟨back, -, hback⟩ := hrest.exists_consumed
    obtain rfl : consumed = token :: back := by
      have hfront : consumed ++ final.ahead = token :: back ++ final.ahead := by
        rw [← hahead, hcons, List.cons_append, ← hback]
        rfl
      exact List.append_cancel_right hfront
    rw [isTooMany_map] at hnext
    exact .word rfl hcount (ih hback hnext (hrest.sameNext hback hnext))
  | @tooMany token rest state ahead hcons hcount =>
    obtain rfl : consumed = [token] := by
      have hfront : consumed ++ ahead = [token] ++ ahead := by
        rw [List.singleton_append, ← hcons]
        exact hahead.symm
      exact List.append_cancel_right hfront
    exact .tooMany rfl hcount
  | mismatch hkind =>
    obtain rfl : consumed = [] := by simpa using hahead
    rw [← hsame.lookahead] at hkind
    rw [← hsame.mismatch]
    exact .mismatch hkind
  | tooDeep hnests hdepth =>
    obtain rfl : consumed = [] := by simpa using hahead
    rw [← hsame.current]
    exact .tooDeep hnests hdepth
  | unexpected hdepth hnone =>
    obtain rfl : consumed = [] := by simpa using hahead
    rw [← hsame.lookahead] at hnone
    rw [← hsame.current]
    exact .unexpected hdepth hnone
  | inside hdepth hproduction hinner ih =>
    rw [← hsame.lookahead] at hproduction
    rw [State.withAhead_leave]
    exact .inside hdepth hproduction (ih hahead hnext hsame)
  | @rule name production rest state inner final contents result hdepth hproduction hinner hrest
      ihInner ihRest =>
    obtain ⟨front, -, hfront⟩ := hinner.exists_consumed
    obtain ⟨back, -, hback⟩ := hrest.exists_consumed
    obtain rfl : consumed = front ++ back := by
      have hboth : consumed ++ final.ahead = front ++ back ++ final.ahead := by
        rw [← hahead, List.append_assoc, ← hback]
        exact hfront
      exact List.append_cancel_right hboth
    rw [isTooMany_map] at hnext
    have hbetween := hrest.sameNext hback hnext
    rw [List.append_assoc] at hsame ⊢
    have hrunInner := ihInner hfront (fun _ ↦ hbetween) hsame
    rw [← hsame.lookahead] at hproduction
    exact .rule hdepth hproduction hrunInner (ihRest hback hnext hbetween)

end CExpr.Parse
