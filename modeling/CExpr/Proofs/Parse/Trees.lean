import CExpr.Proofs.Grammar.Productions
import CExpr.Proofs.Grammar.Rung
import CExpr.Proofs.Parse.Completeness
import CExpr.Proofs.Parse.Soundness

/-!
# Parse trees

The trees that parses give are the trees of derivations. What a parse gives is derived from the
tokens up to the first end of the input, and within the limits every derivation is found, so that no
tokens have two of them.
-/

namespace CExpr

open Parse

namespace Parse.Input

/-- The tokens, with an end of the input after them unless the last one is an end. -/
def completed (tokens : List Token) : List Token :=
  if tokens.getLast?.map Token.kind = some .endOfInput then tokens
  else tokens ++ [suppliedStop tokens]

/-- The tokens up to the first end of the input, with that end. -/
def throughEnd : List Token → List Token
  | [] => []
  | token :: tokens => if token.kind = .endOfInput then [token] else token :: throughEnd tokens

theorem throughEnd_append_of_words {words : List Token}
    (h : ∀ token ∈ words, token.kind ≠ .endOfInput) (after : List Token) :
    throughEnd (words ++ after) = words ++ throughEnd after := by
  induction words with
  | nil => rfl
  | cons token words ih =>
    have hkind := h token List.mem_cons_self
    have hrest := ih fun other hother ↦ h other (List.mem_cons_of_mem token hother)
    simp [throughEnd, hkind, hrest]

/-- Nothing after the first end counts. -/
theorem throughEnd_append_of_end {words : List Token} {stop : Token}
    (h : ∀ token ∈ words, token.kind ≠ .endOfInput) (hstop : stop.kind = .endOfInput)
    (after : List Token) : throughEnd (words ++ stop :: after) = words ++ [stop] := by
  rw [throughEnd_append_of_words h]
  simp [throughEnd, hstop]

theorem exists_completed_eq (tokens : List Token) :
    ∃ after, completed tokens = tokens ++ after := by
  unfold completed
  split
  · exact ⟨[], (List.append_nil tokens).symm⟩
  · exact ⟨[suppliedStop tokens], rfl⟩

theorem eq_of_words_of_stop {first second : Input} (hwords : first.words = second.words)
    (hstop : first.stop = second.stop) : first = second := by
  cases first
  cases second
  cases hwords
  cases hstop
  rfl

section Words

variable {tokens : List Token} (h : ∀ token ∈ tokens, token.kind ≠ .endOfInput)
include h

theorem takeWhile_isWord_of_words : tokens.takeWhile isWord = tokens := by
  have hall : ∀ token ∈ tokens, isWord token = true := fun token hmem ↦ by
    simp [isWord, h token hmem]
  have htake := @List.takeWhile_append_of_pos _ isWord tokens [] hall
  simpa using htake

/-- Tokens without an end get one. -/
theorem completed_of_words : completed tokens = tokens ++ [suppliedStop tokens] := by
  apply if_neg
  intro hkind
  obtain ⟨last, hmem, heq⟩ := Option.map_eq_some_iff.1 hkind
  exact h last (List.mem_of_getLast? hmem) heq

theorem stop_ofTokens_of_words : (ofTokens tokens).stop = suppliedStop tokens := by
  have hfind : tokens.find? (!isWord ·) = none := by simpa [isWord] using h
  simp [ofTokens, hfind]

/-- The end that tokens without one get is the end of the input. -/
theorem toList_ofTokens_of_words : (ofTokens tokens).toList = completed tokens := by
  rw [completed_of_words h, toList, stop_ofTokens_of_words h]
  exact congrArg (· ++ _) (takeWhile_isWord_of_words h)

/-- Tokens that got an end are the same input. -/
theorem ofTokens_completed_of_words : ofTokens (completed tokens) = ofTokens tokens := by
  have hend : (suppliedStop tokens).kind = .endOfInput := rfl
  obtain ⟨hwords, hstop⟩ := ofTokens_words_stop h hend
  rw [completed_of_words h]
  apply eq_of_words_of_stop
  · exact hwords.trans (takeWhile_isWord_of_words h).symm
  · exact hstop.trans (stop_ofTokens_of_words h).symm

end Words

/-- A parse reads the tokens up to the first end. -/
theorem toList_ofTokens (tokens : List Token) :
    (ofTokens tokens).toList = throughEnd (completed tokens) := by
  cases hfind : tokens.find? (!isWord ·) with
  | none =>
    have hwords : ∀ token ∈ tokens, token.kind ≠ .endOfInput := by
      simpa [isWord] using hfind
    rw [← toList_ofTokens_of_words hwords]
    have hstop := (ofTokens tokens).stop_kind
    exact (throughEnd_append_of_end (ofTokens tokens).words_kind hstop []).symm
  | some stop =>
    obtain ⟨hstop, words, after, rfl, hwords⟩ := List.find?_eq_some_iff_append.1 hfind
    have hstop : stop.kind = .endOfInput := by simpa [isWord] using hstop
    have hwords : ∀ token ∈ words, token.kind ≠ .endOfInput := by simpa [isWord] using hwords
    obtain ⟨more, hmore⟩ := exists_completed_eq (words ++ stop :: after)
    calc (ofTokens (words ++ stop :: after)).toList
        = words ++ [stop] := ofTokens_words after hwords hstop
      _ = throughEnd (words ++ stop :: (after ++ more)) :=
        (throughEnd_append_of_end hwords hstop (after ++ more)).symm
      _ = throughEnd (completed (words ++ stop :: after)) := by
        rw [hmore, List.append_assoc, List.cons_append]

end Parse.Input

/-- Within the limits, a parse of the tokens of a derivation gives its tree. -/
theorem Derivation.parseWithin_tokens {limits : Limits} (derivation : Derivation .root)
    (h : limits.Admit derivation.toNode.nesting derivation.toNode.operators) :
    ((Parser.ofTokens derivation.tokens).parseWithin limits).1 = .ok derivation.toNode :=
  derivation.derives.parseWithin h

/-- Tokens have one derivation. -/
theorem Derivation.toNode_eq_of_tokens_eq {first second : Derivation .root}
    (h : first.tokens = second.tokens) : first.toNode = second.toNode := by
  have hfirst := first.derives
  rw [h] at hfirst
  exact hfirst.root_unique second.derives

/-- A parse gives trees of derivations, and their tokens are those that it reads. -/
theorem Parser.exists_derivation {limits : Limits} {tokens : List Token} {root : Node}
    (h : ((Parser.ofTokens tokens).parseWithin limits).1 = .ok root) :
    ∃ derivation : Derivation .root, derivation.toNode = root ∧
      derivation.tokens = Input.throughEnd (Input.completed tokens) := by
  rw [← Input.toList_ofTokens]
  exact derives_iff.1 (Parser.derives_of_parseWithin h)

/-- A parse gives the tree of a derivation of the words before the first end. -/
theorem exists_body_of_parse {tokens : List Token} {root : Node} (h : parse tokens = .ok root) :
    ∃ (body : Derivation .expression) (stop : Token) (hstop : stop.kind = .endOfInput),
      (Derivation.root body stop hstop).toNode = root ∧
        body.tokens = tokens.takeWhile Input.isWord := by
  obtain ⟨derivation, hnode, htokens⟩ := derives_iff.1 (Parser.derives_of_parseWithin h)
  cases derivation with
  | root body stop hstop =>
    have heq : body.tokens ++ [stop] =
        tokens.takeWhile Input.isWord ++ [(Input.ofTokens tokens).stop] := by
      rw [← Derivation.tokens_root]
      exact htokens
    exact ⟨body, stop, hstop, hnode, List.append_inj_left' heq rfl⟩

/-! ## A derivation -/

namespace Derivation

open NonTerminal (rung)

/-- A sign of a fixed text on the first line. -/
def signAt (kind : Kind) (position : Nat) : Token := ⟨kind, ⟨0, position⟩, kind.spelling?.getD ""⟩

def nameAt (text : String) (position : Nat) : Token := ⟨.identifier, ⟨0, position⟩, text⟩

def ofName (text : String) (position : Nat) : Derivation (rung 0) :=
  suffixed (atom (nameAt text position) List.mem_cons_self) noSuffix

/-- The derivation of `f(a,-b)[i]+c*(d=e)?++p:q.m`, with the parenthesised factor left open. -/
def sampleWith (factor : Derivation (rung 0)) : Derivation .root :=
  let negated : Derivation (rung 1) :=
    prefixed (signAt (.punct '-') 4) .minus rfl ((ofName "b" 5).climb 2)
  let list : Derivation .argumentList :=
    arguments ((ofName "a" 2).climb 14)
      (argument (signAt (.punct ',') 3) rfl (negated.climb 13) noArgument)
  let indexed : Derivation (rung 0) :=
    suffixed (atom (nameAt "f" 0) List.mem_cons_self)
      (call (signAt (.punct '(') 1) rfl list (signAt (.punct ')') 6) rfl
        (index (signAt (.punct '[') 7) rfl ((ofName "i" 8).climb 15) (signAt (.punct ']') 9) rfl
          noSuffix))
  let product : Derivation (rung 3) :=
    tier ((ofName "c" 11).climb 2)
      (operator (signAt (.punct '*') 12) .times rfl (factor.climb 2) noOperator)
  let sum : Derivation (rung 4) :=
    tier (indexed.climb 3) (operator (signAt (.punct '+') 10) .plus rfl product noOperator)
  let incremented : Derivation (rung 1) :=
    prefixed (signAt (.compound .increment) 19) .increment rfl ((ofName "p" 21).climb 2)
  let selected : Derivation (rung 0) :=
    suffixed (atom (nameAt "q" 23) List.mem_cons_self)
      (selection (signAt (.punct '.') 24) .dot rfl rfl (nameAt "m" 25) rfl noSuffix)
  let whole : Derivation (rung 13) :=
    conditional (sum.climb 8)
      (choice (signAt (.punct '?') 18) rfl (incremented.climb 14) (signAt (.punct ':') 22) rfl
        (selected.climb 13))
  root (whole.climb 2) ⟨.endOfInput, ⟨0, 26⟩, ""⟩ rfl

/-- `(d=e)`. -/
def groupedFactor : Derivation (rung 0) :=
  let value : Derivation .assignmentRest :=
    assign (signAt (.punct '=') 15) .plain rfl ((ofName "e" 16).climb 14)
  suffixed
    (group (signAt (.punct '(') 13) rfl (expression (assignment ((ofName "d" 14).climb 13) value))
      (signAt (.punct ')') 17) rfl)
    noSuffix

def sample : Derivation .root := sampleWith groupedFactor

theorem sizes_sample : sample.toNode.nesting ≤ 192 ∧ sample.toNode.operators ≤ 1024 := by
  decide +kernel

theorem parse_sample : parse sample.tokens = .ok sample.toNode :=
  sample.parseWithin_tokens (Limits.admit_standard_iff.2 sizes_sample)

/-- The same with `d` alone in the place of `(d=e)`. -/
def plainSample : Derivation .root := sampleWith (ofName "d" 13)

theorem parse_plainSample : parse plainSample.tokens = .ok plainSample.toNode := by
  apply plainSample.parseWithin_tokens
  rw [Limits.admit_standard_iff]
  decide +kernel

/-- The derivation of `f-(g-h)*k[i]`. -/
def groupedProduct : Derivation .root :=
  let difference : Derivation (rung 4) :=
    tier ((ofName "g" 3).climb 3)
      (operator (signAt (.punct '-') 4) .minus rfl ((ofName "h" 5).climb 3) noOperator)
  let grouped : Derivation (rung 0) :=
    suffixed
      (group (signAt (.punct '(') 2) rfl (difference.climb 11) (signAt (.punct ')') 6) rfl) noSuffix
  let indexed : Derivation (rung 0) :=
    suffixed (atom (nameAt "k" 8) List.mem_cons_self)
      (index (signAt (.punct '[') 9) rfl ((ofName "i" 10).climb 15) (signAt (.punct ']') 11) rfl
        noSuffix)
  let product : Derivation (rung 3) :=
    tier (grouped.climb 2)
      (operator (signAt (.punct '*') 7) .times rfl (indexed.climb 2) noOperator)
  let whole : Derivation (rung 4) :=
    tier ((ofName "f" 0).climb 3)
      (operator (signAt (.punct '-') 1) .minus rfl product noOperator)
  root (whole.climb 11) ⟨.endOfInput, ⟨0, 12⟩, ""⟩ rfl

end Derivation

/-! ## Soundness -/

/-- What a parse gives is the tree of a derivation, and the tokens of the derivation are all tokens
up to the first end, which is supplied when there is none. -/
theorem exists_derivation_of_parse_eq_ok {tokens : List Token} {root : Node}
    (h : parse tokens = .ok root) :
    ∃ derivation : Derivation .root, derivation.toNode = root ∧
      derivation.tokens = Input.throughEnd (Input.completed tokens) :=
  Parser.exists_derivation h

theorem exists_derivation_of_parse_sample :
    parse Derivation.sample.tokens = .ok Derivation.sample.toNode ∧
      ∃ derivation : Derivation .root, derivation.toNode = Derivation.sample.toNode ∧
        derivation.tokens = Input.throughEnd (Input.completed Derivation.sample.tokens) := by
  have h := Derivation.parse_sample
  exact ⟨h, exists_derivation_of_parse_eq_ok h⟩

/-! ## Completeness -/

/-- Every derivation within the limits is found, and no tokens have two derivations. -/
theorem parse_tokens_eq_ok :
    (∀ derivation : Derivation .root, derivation.toNode.nesting ≤ 192 →
        derivation.toNode.operators ≤ 1024 →
        parse derivation.tokens = .ok derivation.toNode) ∧
      ∀ first second : Derivation .root, first.tokens = second.tokens →
        first.toNode = second.toNode := by
  constructor
  · intro derivation hnesting hoperators
    exact derivation.parseWithin_tokens (Limits.admit_standard_iff.2 ⟨hnesting, hoperators⟩)
  · intro first second htokens
    exact Derivation.toNode_eq_of_tokens_eq htokens

theorem parse_tokens_sample :
    Derivation.sample.toNode.nesting ≤ 192 ∧ Derivation.sample.toNode.operators ≤ 1024 ∧
      parse Derivation.sample.tokens = .ok Derivation.sample.toNode := by
  obtain ⟨hnesting, hoperators⟩ := Derivation.sizes_sample
  exact ⟨hnesting, hoperators, parse_tokens_eq_ok.1 Derivation.sample hnesting hoperators⟩

end CExpr
