import CExpr.Proofs.Grammar.Rows
import CExpr.Proofs.Parse.Trees
import CExpr.Proofs.Scan.Joined

/-!
# Trees read back from their outlines

The outline of a tree has a line for every row. The spaces at the front of a line tell the depth and
the word after them the rule, for no name of a rule holds a space. What stands between the brackets
is read once more, as any texts of tokens that are joined by single spaces are read, so a string
literal may look like the rest of an outline. Two sources with the same outline therefore have the
same tokens and the same tree, up to places.
-/

namespace CExpr

/-! ## Joined texts -/

namespace Scan

/-- Where a run of characters of one class comes to its end, a text is split in one way. -/
theorem append_inj_of_stops {part : Char → Bool} {first second back other : List Char}
    (hfirst : ∀ c ∈ first, part c = true) (hsecond : ∀ c ∈ second, part c = true)
    (hback : Stops part back) (hother : Stops part other) (h : first ++ back = second ++ other) :
    first = second ∧ back = other := by
  have hsame : first = second := by
    rw [← takeWhile_append_of_stops hfirst hback, h, takeWhile_append_of_stops hsecond hother]
  subst hsame
  exact ⟨rfl, List.append_cancel_left h⟩

theorem map_unplaced_onOneLine (position : Nat) (tokens : List Token) :
    (onOneLine position tokens).map Token.unplaced = tokens.map Token.unplaced := by
  induction tokens generalizing position with
  | nil => rfl
  | cons token tokens ih =>
    rw [onOneLine_cons, List.map_cons, ih, List.map_cons]
    rfl

/-- The texts of the tokens with single spaces between them. -/
def joined (tokens : List Token) : String := " ".intercalate (tokens.map Token.lexeme)

/-- Joined by single spaces, the texts of tokens tell the tokens apart. -/
theorem map_unplaced_eq_of_joined_eq {tokens others : List Token}
    (htokens : ∀ token ∈ tokens, Stands token) (hothers : ∀ other ∈ others, Stands other)
    (h : joined tokens = joined others) :
    tokens.map Token.unplaced = others.map Token.unplaced := by
  have htext := congrArg String.toList h
  rw [joined, joined, toList_intercalate_lexeme, toList_intercalate_lexeme] at htext
  have hspaced : spaced tokens = spaced others := by
    rw [← (cut_spaced htokens).pieces_eq, ← (cut_spaced hothers).pieces_eq, htext]
  have hline := tokensFrom_spaced htokens 0
  rw [hspaced, tokensFrom_spaced hothers 0] at hline
  have hsame := List.append_inj_left' hline rfl
  rw [← map_unplaced_onOneLine 0 tokens, ← hsame, map_unplaced_onOneLine]

theorem eq_nil_of_joined_eq_empty {tokens : List Token} (htokens : ∀ token ∈ tokens, Stands token)
    (h : joined tokens = "") : tokens = [] :=
  List.map_eq_nil_iff.1 (map_unplaced_eq_of_joined_eq htokens (List.forall_mem_nil Stands) h)

/-- Tokens that a node of a parse may show: they can be read, or they are the end of the input. -/
inductive AreLegible : List Token → Prop
  | words {tokens : List Token} (hstands : ∀ token ∈ tokens, Stands token) : AreLegible tokens
  | stop (location : Location) : AreLegible [⟨.endOfInput, location, ""⟩]

theorem joined_stop (location : Location) : joined [⟨.endOfInput, location, ""⟩] = "" := by
  simp [joined]

/-- The end of the input has an empty text, which other tokens together do not have. -/
theorem AreLegible.map_unplaced_eq {tokens others : List Token} (h : AreLegible tokens)
    (hother : AreLegible others) (hne : tokens ≠ []) (hotherNe : others ≠ [])
    (htext : joined tokens = joined others) :
    tokens.map Token.unplaced = others.map Token.unplaced := by
  cases h with
  | words hstands =>
    cases hother with
    | words hotherStands => exact map_unplaced_eq_of_joined_eq hstands hotherStands htext
    | stop location =>
      rw [joined_stop] at htext
      exact absurd (eq_nil_of_joined_eq_empty hstands htext) hne
  | stop location =>
    cases hother with
    | words hotherStands =>
      rw [joined_stop] at htext
      exact absurd (eq_nil_of_joined_eq_empty hotherStands htext.symm) hotherNe
    | stop => rfl

theorem newline_notMem_spaced {tokens : List Token}
    (h : ∀ token ∈ tokens, '\n' ∉ token.lexeme.toList) :
    '\n' ∉ (spaced tokens).flatMap Piece.text := by
  fun_induction spaced tokens with
  | case1 => simp
  | case2 token => simpa [Piece.text] using h
  | case3 token next rest ih =>
    obtain ⟨htoken, hrest⟩ := List.forall_mem_cons.1 h
    simpa [Piece.text, htoken] using ih hrest

theorem AreLegible.newline_notMem_joined {tokens : List Token} (h : AreLegible tokens) :
    '\n' ∉ (joined tokens).toList := by
  cases h with
  | words hstands =>
    rw [joined, toList_intercalate_lexeme]
    refine newline_notMem_spaced fun token htoken ↦ ?_
    obtain ⟨after, -, hreads⟩ := hstands token htoken
    exact newline_notMem_of_reads hreads
  | stop location => simp [joined_stop]

end Scan

open Scan

/-! ## Lines of rows -/

theorem NonTerminal.toList_name_ne_nil (rule : NonTerminal) : rule.name.toList ≠ [] := by
  have hall : ∀ rule : NonTerminal, rule.name.toList ≠ [] := by decide +kernel
  exact hall rule

/-- Names of rules hold no white space. -/
theorem NonTerminal.ne_of_mem_name {rule : NonTerminal} {c space : Char}
    (hc : c ∈ rule.name.toList) (hspace : isSpacing space = true) : c ≠ space := by
  have hall : ∀ rule : NonTerminal, rule.name.toList.all (!isSpacing ·) := by decide +kernel
  have hsolid := List.all_eq_true.1 (hall rule) c hc
  rintro rfl
  simp [hspace] at hsolid

theorem NonTerminal.name_injective {first second : NonTerminal} (h : first.name = second.name) :
    first = second := by
  have hsame := ofName?_name first
  rw [h, ofName?_name] at hsame
  exact (Option.some.inj hsame).symm

namespace Node.Row

/-- What comes after the name of the rule. -/
def suffix (row : Row) : String :=
  if row.isEmpty then " (empty)"
  else if row.terminals.isEmpty then ""
  else " [" ++ joined row.terminals ++ "]"

/-- What the line of the row says after the spaces at its front. -/
def label (row : Row) : String := row.tag.name ++ row.suffix

/-- The line of the row without the line feed after it. -/
def text (row : Row) : List Char := List.replicate (2 * row.depth) ' ' ++ row.label.toList

theorem toList_line (row : Row) : row.line.toList = row.text ++ ['\n'] := by
  have hline : row.line = Text.spaces (2 * row.depth) ++ row.tag.name ++ row.suffix ++ "\n" := rfl
  simp [hline, text, label]

theorem stops_suffix (row : Row) : Stops (· != ' ') row.suffix.toList := by
  unfold suffix
  split
  · simp [Stops]
  split <;> simp [Stops]

theorem stops_label (row : Row) : Stops (· == ' ') row.label.toList := by
  obtain ⟨first, rest, hname⟩ := List.exists_cons_of_ne_nil row.tag.toList_name_ne_nil
  have hfirst : first ∈ row.tag.name.toList := by simp [hname]
  intro c hc
  rw [label, String.toList_append, hname] at hc
  obtain rfl := Option.some.inj hc
  exact beq_eq_false_iff_ne.2 (NonTerminal.ne_of_mem_name hfirst (by decide))

/-- The row shows what a row of a parse may show. An empty node shows no tokens. -/
structure IsLegible (row : Row) : Prop where
  terminals_eq_nil : row.isEmpty = true → row.terminals = []
  terminals : AreLegible row.terminals

variable {row other : Row}

theorem suffix_of_isEmpty (h : row.isEmpty = true) : row.suffix = " (empty)" := by
  rw [suffix, if_pos h]

theorem suffix_of_nil (h : row.isEmpty = false) (hterminals : row.terminals = []) :
    row.suffix = "" := by
  simp [suffix, h, hterminals]

theorem toList_suffix_of_ne_nil (h : row.isEmpty = false) (hterminals : row.terminals ≠ []) :
    row.suffix.toList = ' ' :: '[' :: ((joined row.terminals).toList ++ [']']) := by
  simp [suffix, h, hterminals]

/-- What stands behind the name tells whether the node is empty. -/
theorem isEmpty_iff_suffix : row.isEmpty = true ↔ row.suffix.toList[1]? = some '(' := by
  cases hempty : row.isEmpty with
  | true => simp [suffix_of_isEmpty hempty]
  | false =>
    by_cases hterminals : row.terminals = []
    · simp [suffix_of_nil hempty hterminals]
    · simp [toList_suffix_of_ne_nil hempty hterminals]

/-- What stands behind the name tells the tokens. -/
theorem IsLegible.suffix_inj (h : row.IsLegible) (hother : other.IsLegible)
    (hsuffix : row.suffix = other.suffix) :
    row.isEmpty = other.isEmpty ∧
      row.terminals.map Token.unplaced = other.terminals.map Token.unplaced := by
  have hempty : row.isEmpty = other.isEmpty := by
    rw [Bool.eq_iff_iff, isEmpty_iff_suffix, isEmpty_iff_suffix, hsuffix]
  refine ⟨hempty, ?_⟩
  cases hrow : row.isEmpty with
  | true => rw [h.terminals_eq_nil hrow, hother.terminals_eq_nil (hempty ▸ hrow)]
  | false =>
    have htext := congrArg String.toList hsuffix
    by_cases hnil : row.terminals = [] <;> by_cases hotherNil : other.terminals = []
    · rw [hnil, hotherNil]
    · rw [suffix_of_nil hrow hnil, toList_suffix_of_ne_nil (hempty ▸ hrow) hotherNil] at htext
      cases htext
    · rw [suffix_of_nil (hempty ▸ hrow) hotherNil, toList_suffix_of_ne_nil hrow hnil] at htext
      cases htext
    · rw [toList_suffix_of_ne_nil hrow hnil, toList_suffix_of_ne_nil (hempty ▸ hrow) hotherNil]
        at htext
      have hjoined := List.append_cancel_right (List.cons.inj (List.cons.inj htext).2).2
      exact h.terminals.map_unplaced_eq hother.terminals hnil hotherNil
        (String.toList_inj.1 hjoined)

/-- The text of a row tells the row. -/
theorem IsLegible.unplaced_eq (h : row.IsLegible) (hother : other.IsLegible)
    (htext : row.text = other.text) : row.unplaced = other.unplaced := by
  have hspaces : ∀ count, ∀ c ∈ List.replicate count ' ', (c == ' ') = true := by simp
  have hname : ∀ rule : NonTerminal, ∀ c ∈ rule.name.toList, (c != ' ') = true := fun rule c hc ↦
    bne_iff_ne.2 (NonTerminal.ne_of_mem_name hc (by decide))
  obtain ⟨hdepth, hlabel⟩ := append_inj_of_stops (hspaces _) (hspaces _) row.stops_label
    other.stops_label htext
  rw [label, label, String.toList_append, String.toList_append] at hlabel
  obtain ⟨htag, hsuffix⟩ := append_inj_of_stops (hname _) (hname _) row.stops_suffix
    other.stops_suffix hlabel
  have hdepth : row.depth = other.depth := by simpa using congrArg List.length hdepth
  have htag := NonTerminal.name_injective (String.toList_inj.1 htag)
  obtain ⟨hempty, hterminals⟩ := h.suffix_inj hother (String.toList_inj.1 hsuffix)
  simp [unplaced, hdepth, htag, hempty, hterminals]

theorem IsLegible.newline_notMem_text (h : row.IsLegible) : '\n' ∉ row.text := by
  have hname : '\n' ∉ row.tag.name.toList := fun hmem ↦
    NonTerminal.ne_of_mem_name hmem (by decide) rfl
  have hterminals := h.terminals.newline_notMem_joined
  have hsuffix : '\n' ∉ row.suffix.toList := by
    unfold suffix
    split
    · decide
    split
    · decide
    · simp [hterminals]
  simp [text, label, hname, hsuffix]

end Node.Row

/-! ## Lines of an outline -/

theorem splitOn_flatMap_newline {texts : List (List Char)} (h : ∀ text ∈ texts, '\n' ∉ text) :
    (texts.flatMap fun text ↦ text ++ ['\n']).splitOn '\n' = texts ++ [[]] := by
  induction texts with
  | nil => rfl
  | cons text texts ih =>
    obtain ⟨htext, htexts⟩ := List.forall_mem_cons.1 h
    rw [List.flatMap_cons, List.append_assoc, List.singleton_append,
      List.splitOn_append_cons_self_of_not_mem htext, ih htexts, List.cons_append]

namespace Node

theorem toList_outline (node : Node) :
    node.outline.toList = (node.rows.map Row.text).flatMap fun text ↦ text ++ ['\n'] := by
  rw [outline, String.toList_join, List.flatMap_map, List.flatMap_map]
  simp only [Row.toList_line]

/-- An outline shows no places. -/
theorem outline_unplaced (node : Node) : node.unplaced.outline = node.outline := by
  have hline : ∀ row : Row, row.unplaced.line = row.line := by
    intro row
    simp [Row.line, Row.unplaced, Token.unplaced, Function.comp_def]
  rw [outline, outline, rows_unplaced, List.map_map]
  exact congrArg String.join (List.map_congr_left fun row _ ↦ hline row)

theorem splitOn_outline {node : Node} (h : ∀ row ∈ node.rows, row.IsLegible) :
    node.outline.toList.splitOn '\n' = node.rows.map Row.text ++ [[]] := by
  rw [toList_outline, splitOn_flatMap_newline]
  rw [List.forall_mem_map]
  exact fun row hrow ↦ (h row hrow).newline_notMem_text

theorem map_unplaced_eq_of_map_text_eq {rows others : List Row} (h : ∀ row ∈ rows, row.IsLegible)
    (hothers : ∀ row ∈ others, row.IsLegible) (htexts : rows.map Row.text = others.map Row.text) :
    rows.map Row.unplaced = others.map Row.unplaced := by
  induction rows generalizing others with
  | nil =>
    obtain rfl := List.map_eq_nil_iff.1 htexts.symm
    rfl
  | cons row rows ih =>
    cases others with
    | nil => cases htexts
    | cons other others =>
      obtain ⟨hrow, hrows⟩ := List.forall_mem_cons.1 h
      obtain ⟨hother, hothers⟩ := List.forall_mem_cons.1 hothers
      obtain ⟨htext, htexts⟩ := List.cons.inj htexts
      rw [List.map_cons, List.map_cons, hrow.unplaced_eq hother htext, ih hrows hothers htexts]

/-- The outlines of two trees tell their rows. -/
theorem map_unplaced_eq_of_outline_eq {node other : Node} (h : ∀ row ∈ node.rows, row.IsLegible)
    (hother : ∀ row ∈ other.rows, row.IsLegible) (houtline : node.outline = other.outline) :
    node.rows.map Row.unplaced = other.rows.map Row.unplaced := by
  have hlines := splitOn_outline h
  rw [houtline, splitOn_outline hother] at hlines
  exact map_unplaced_eq_of_map_text_eq h hother (List.append_cancel_right hlines.symm)

end Node

/-! ## Outlines of sources -/

theorem toList_ofTokens_scan (source : String) :
    (Parse.Input.ofTokens (scan source).tokens).toList = (scan source).tokens := by
  rw [tokens_eq]
  exact Parse.Input.ofTokens_words [] (fun _ ↦ kind_ne_endOfInput_of_mem_words) rfl

theorem derives_of_parse_scan {source : String} {root : Node}
    (h : parse (scan source).tokens = .ok root) : Derives .root root (scan source).tokens := by
  have hderives := Parser.derives_of_parseWithin h
  change Derives .root root (Parse.Input.ofTokens (scan source).tokens).toList at hderives
  rwa [toList_ofTokens_scan] at hderives

theorem isLegible_of_mem_rows {source : String} {root : Node}
    (h : parse (scan source).tokens = .ok root) : ∀ row ∈ root.rows, row.IsLegible := by
  intro row hrow
  refine ⟨fun hempty ↦ Node.terminals_eq_nil_of_mem_rowsAt hempty root hrow, ?_⟩
  obtain ⟨body, words, stop, hbody, -, rfl, htokens⟩ := derives_root_iff.1 (derives_of_parse_scan h)
  rw [tokens_eq] at htokens
  obtain ⟨rfl, hstop⟩ := List.append_inj' htokens rfl
  rcases List.mem_cons.1 hrow with rfl | hbelow
  · rw [List.singleton_inj] at hstop
    subst hstop
    exact .stop _
  · refine .words fun token htoken ↦ ?_
    rw [Node.rowsOfAll, Node.rowsOfAll, List.append_nil] at hbelow
    obtain ⟨-, hshown⟩ := (hbody.fills .nil).shown_subset
    have hword := hshown body List.mem_cons_self 1 row hbelow htoken
    rw [List.append_nil] at hword
    exact stands_of_mem_words hword

/-- Sources have the same outline exactly when they have the same tokens and the same tree, up to
places. An outline has a line for every row, in order, which begins with two spaces for each node
above it and no other space, and the rows of a node are its own row and those of the nodes that it
shows, one deeper. -/
theorem outline_of_parse :
    (∀ first second : String, ∀ root other : Node, parse (scan first).tokens = .ok root →
        parse (scan second).tokens = .ok other →
          (root.outline = other.outline ↔
            (scan first).tokens.map (fun token ↦ (token.kind, token.lexeme)) =
                (scan second).tokens.map (fun token ↦ (token.kind, token.lexeme)) ∧
              root.unplaced = other.unplaced)) ∧
      (∀ source : String, ∀ root : Node, parse (scan source).tokens = .ok root →
        root.outline.toList.splitOn '\n' =
            root.rows.map (fun row ↦
              List.replicate (2 * row.depth) ' ' ++ row.label.toList) ++ [[]] ∧
          ∀ row ∈ root.rows, row.label.toList.head? ≠ some ' ') ∧
      ∀ (depth : Nat) (node : Node), node.rowsAt depth =
        ⟨depth, node.tag, node.isEmpty, node.terminals⟩ ::
          node.children.flatMap (Node.rowsAt (depth + 1)) := by
  refine ⟨fun first second root other hroot hother ↦ ⟨fun houtline ↦ ?_, fun hsame ↦ ?_⟩,
    fun source root h ↦
      ⟨Node.splitOn_outline (isLegible_of_mem_rows h), fun row _ hspace ↦ ?_⟩, Node.rowsAt_eq⟩
  · obtain ⟨htree, htokens⟩ := (derives_of_parse_scan hroot).unplaced_eq_of_rows
      (derives_of_parse_scan hother) (Node.map_unplaced_eq_of_outline_eq
        (isLegible_of_mem_rows hroot) (isLegible_of_mem_rows hother) houtline)
    refine ⟨?_, htree⟩
    have hpairs := congrArg (List.map fun token : Token ↦ (token.kind, token.lexeme)) htokens
    rwa [List.map_map, List.map_map] at hpairs
  · rw [← root.outline_unplaced, hsame.2, other.outline_unplaced]
  · exact absurd (row.stops_label ' ' hspace) (by decide)

/-- The derivation of `"x] primary [y"+z` with the places of the last three tokens left open. -/
def Derivation.quotedSum (sign name stop : Nat) : Derivation .root :=
  let text : Derivation (.rung 0) :=
    suffixed (atom ⟨.stringLiteral, .start, "\x22x] primary [y\x22"⟩ (by decide)) noSuffix
  let sum : Derivation (.rung 4) :=
    tier (text.climb 3)
      (operator (signAt (.punct '+') sign) .plus rfl ((ofName "z" name).climb 3) noOperator)
  root (sum.climb 11) ⟨.endOfInput, ⟨0, stop⟩, ""⟩ rfl

theorem Derivation.parse_of_tokens {derivation : Derivation .root} {source : String}
    (htokens : (scan source).tokens = derivation.tokens)
    (hsizes : derivation.toNode.nesting ≤ 192 ∧ derivation.toNode.operators ≤ 1024) :
    parse (scan source).tokens = .ok derivation.toNode := by
  rw [htokens]
  exact derivation.parseWithin_tokens (Parse.Limits.admit_standard_iff.2 hsizes)

theorem outline_of_parse_quotedSum :
    parse (scan "\x22x] primary [y\x22+z").tokens = .ok (Derivation.quotedSum 15 16 17).toNode ∧
      parse (scan "\x22x] primary [y\x22 +\t z").tokens =
          .ok (Derivation.quotedSum 16 19 20).toNode ∧
        (Derivation.quotedSum 15 16 17).toNode.outline =
            (Derivation.quotedSum 16 19 20).toNode.outline ∧
          (scan "\x22x] primary [y\x22+z").tokens.map (fun token ↦ (token.kind, token.lexeme)) =
              (scan "\x22x] primary [y\x22 +\t z").tokens.map
                (fun token ↦ (token.kind, token.lexeme)) ∧
            (Derivation.quotedSum 15 16 17).toNode.unplaced =
                (Derivation.quotedSum 16 19 20).toNode.unplaced ∧
              (Derivation.quotedSum 15 16 17).toNode.outline.toList.splitOn '\n' =
                (Derivation.quotedSum 15 16 17).toNode.rows.map (fun row ↦
                  List.replicate (2 * row.depth) ' ' ++ row.label.toList) ++ [[]] := by
  have hfirst : parse (scan "\x22x] primary [y\x22+z").tokens =
      .ok (Derivation.quotedSum 15 16 17).toNode :=
    Derivation.parse_of_tokens (by decide +kernel) (by decide +kernel)
  have hsecond : parse (scan "\x22x] primary [y\x22 +\t z").tokens =
      .ok (Derivation.quotedSum 16 19 20).toNode :=
    Derivation.parse_of_tokens (by decide +kernel) (by decide +kernel)
  have houtline : (Derivation.quotedSum 15 16 17).toNode.outline =
      (Derivation.quotedSum 16 19 20).toNode.outline := by
    rw [← Node.outline_unplaced, ← Node.outline_unplaced (Derivation.quotedSum 16 19 20).toNode]
    exact congrArg Node.outline rfl
  obtain ⟨htokens, htree⟩ := (outline_of_parse.1 _ _ _ _ hfirst hsecond).1 houtline
  exact ⟨hfirst, hsecond, houtline, htokens, htree, (outline_of_parse.2.1 _ _ hfirst).1⟩

end CExpr
