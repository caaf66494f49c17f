import CExpr.Expr.Walk
import CExpr.Proofs.Expr.Readable
import CExpr.Proofs.Expr.Size
import CExpr.Proofs.Expr.Written
import CExpr.Proofs.Scan.Order

/-!
# The operands of a chain

A part of an expression stands at a path, which says at each node which child to take. The operands
that a walk visits are the parts with nothing but binary operations above them that are not one
themselves, from left to right. In the expression of a source their places go up as well. The place
of an operand may lie anywhere in its text, but it is the place of one of its own marks, and the
marks of an expression are in the order of the tokens.
-/

namespace CExpr

open Scan (pairwise_position_tokens)

namespace Expr

/-! ## Paths -/

/-- The part at a path of indices of children. -/
def part? (expr : Expr) : List Nat → Option Expr
  | [] => some expr
  | index :: path => expr.children[index]?.bind fun child ↦ child.part? path

/-- The part at the path is not a binary operation, and all parts that it is inside of are. -/
structure IsOutermost (expr : Expr) (path : List Nat) (part : Expr) : Prop where
  part?_eq : expr.part? path = some part
  isBinary_eq : part.isBinary = false
  isBinary_above : ∀ above whole, above <+: path → above ≠ path →
    expr.part? above = some whole → whole.isBinary = true

theorem isOutermost_iff_of_not_isBinary {expr part : Expr} {path : List Nat}
    (h : expr.isBinary = false) : expr.IsOutermost path part ↔ path = [] ∧ part = expr := by
  constructor
  · intro hpart
    cases path with
    | nil => exact ⟨rfl, (Option.some.inj hpart.part?_eq).symm⟩
    | cons index path =>
      have habove := hpart.isBinary_above [] expr List.nil_prefix (by simp) rfl
      simp [h] at habove
  · rintro ⟨rfl, rfl⟩
    exact ⟨rfl, h, fun above whole habove hne ↦ absurd (List.prefix_nil.1 habove) hne⟩

theorem not_isOutermost_nil {expr part : Expr} (h : expr.isBinary = true) :
    ¬expr.IsOutermost [] part := by
  intro hpart
  have hbinary := hpart.isBinary_eq
  rw [← Option.some.inj hpart.part?_eq, h] at hbinary
  cases hbinary

theorem isOutermost_cons_iff {expr part : Expr} {index : Nat} {path : List Nat}
    (h : expr.isBinary = true) :
    expr.IsOutermost (index :: path) part ↔
      ∃ child, expr.children[index]? = some child ∧ child.IsOutermost path part := by
  constructor
  · intro hpart
    obtain ⟨child, hchild, hpath⟩ := Option.bind_eq_some_iff.1 hpart.part?_eq
    refine ⟨child, hchild, hpath, hpart.isBinary_eq, fun above whole habove hne hwhole ↦ ?_⟩
    refine hpart.isBinary_above (index :: above) whole ?_ (by simpa using hne) ?_
    · exact List.cons_prefix_cons.2 ⟨rfl, habove⟩
    · rw [part?, hchild]
      exact hwhole
  · rintro ⟨child, hchild, hpart⟩
    refine ⟨?_, hpart.isBinary_eq, fun above whole habove hne hwhole ↦ ?_⟩
    · rw [part?, hchild]
      exact hpart.part?_eq
    cases above with
    | nil => rwa [← Option.some.inj hwhole]
    | cons first above =>
      obtain ⟨rfl, hbelow⟩ := List.cons_prefix_cons.1 habove
      rw [part?, hchild] at hwhole
      exact hpart.isBinary_above above whole hbelow (by simpa using hne) hwhole

/-! ## Placed operands -/

/-- The operands of the expression with their paths, from left to right. -/
def placedOperands : Expr → List (List Nat × Expr)
  | binary _ left right _ =>
    left.placedOperands.map (fun place ↦ (0 :: place.1, place.2)) ++
      right.placedOperands.map (fun place ↦ (1 :: place.1, place.2))
  | expr => [([], expr)]

theorem map_snd_placedOperands (expr : Expr) :
    expr.placedOperands.map Prod.snd = expr.operands := by
  fun_induction placedOperands expr with
  | case1 op left right location ihLeft ihRight =>
    rw [operands, ← ihLeft, ← ihRight, List.map_append, List.map_map, List.map_map]
    rfl
  | case2 expr hexpr =>
    rw [operands]
    · rfl
    · exact hexpr

theorem isBinary_eq_false_iff {expr : Expr} :
    expr.isBinary = false ↔
      ∀ op left right location, expr ≠ binary op left right location := by
  cases expr <;> simp [isBinary]

theorem mem_placedOperands_iff {expr part : Expr} {path : List Nat} :
    (path, part) ∈ expr.placedOperands ↔ expr.IsOutermost path part := by
  fun_induction placedOperands expr generalizing path with
  | case1 op left right location ihLeft ihRight =>
    cases path with
    | nil =>
      have houtside : ∀ part, ¬(binary op left right location).IsOutermost [] part :=
        fun _ ↦ not_isOutermost_nil rfl
      simp [houtside]
    | cons index path =>
      rw [isOutermost_cons_iff rfl, children]
      rcases index with _ | _ | index
      · simp [ihLeft]
      · simp [ihRight]
      · simp
  | case2 expr hexpr =>
    rw [isOutermost_iff_of_not_isBinary (isBinary_eq_false_iff.2 hexpr)]
    simp

/-- The paths of operands go from left to right. -/
theorem pairwise_placedOperands (expr : Expr) :
    expr.placedOperands.Pairwise fun first second ↦ first.1 < second.1 := by
  fun_induction placedOperands expr with
  | case1 op left right location ihLeft ihRight =>
    rw [List.pairwise_append, List.pairwise_map, List.pairwise_map]
    refine ⟨ihLeft.imp fun h ↦ List.cons_lt_cons_self.2 h,
      ihRight.imp fun h ↦ List.cons_lt_cons_self.2 h, ?_⟩
    simp only [List.mem_map]
    rintro _ ⟨first, -, rfl⟩ _ ⟨second, -, rfl⟩
    exact List.Lex.rel Nat.zero_lt_one
  | case2 => exact List.pairwise_singleton _ _

/-- What holds of an expression and of all in it holds of its operands. -/
theorem Every.of_mem_operands {p : Expr → Prop} {expr : Expr} (h : expr.Every p) :
    ∀ part ∈ expr.operands, part.Every p := by
  fun_induction operands expr with
  | case1 op left right location ihLeft ihRight =>
    have hparts := h.inside
    simp only [children, List.forall_mem_cons] at hparts
    exact List.forall_mem_append.2 ⟨ihLeft hparts.1, ihRight hparts.2.1⟩
  | case2 expr hexpr => exact List.forall_mem_singleton.2 h

end Expr

/-! ## Places of marks -/

/-- The place that the mark keeps of its token. -/
def Mark.location? : Mark → Option Location
  | word token => some token.location
  | unary _ location | suffix _ location | binary _ location | question location
  | assign _ location => some location
  | sign _ => none

theorem Mark.Fits.location_eq {mark : Mark} {token : Token} {location : Location}
    (h : mark.Fits token) (hlocation : mark.location? = some location) :
    location = token.location := by
  have hkeeps := h.keeps
  cases mark with
  | word written =>
    obtain rfl : written = token := hkeeps
    exact (Option.some.inj hlocation).symm
  | sign kind => cases hlocation
  | unary | suffix | binary | question | assign =>
    rw [← Option.some.inj hlocation]
    exact hkeeps

/-- The places of marks are those of the tokens that were read for them, in the same order. -/
theorem sublist_filterMap_location {marks : List Mark} {tokens : List Token}
    (h : List.Forall₂ Mark.Fits marks tokens) :
    (marks.filterMap Mark.location?).Sublist (tokens.map Token.location) := by
  induction h with
  | nil => exact .slnil
  | @cons mark token marks tokens hfits _ ih =>
    cases hlocation : mark.location? with
    | none =>
      rw [List.filterMap_cons_none hlocation]
      exact ih.cons _
    | some location =>
      rw [List.filterMap_cons_some hlocation, hfits.location_eq hlocation]
      exact ih.cons_cons _

namespace Expr

theorem location_mem_marks {expr : Expr} {location : Location}
    (h : expr.location? = some location) : location ∈ expr.marks.filterMap Mark.location? := by
  cases expr with
  | declaration => cases h
  | primary | suffixed | unary | binary | conditional | assign =>
    obtain rfl := Option.some.inj h
    simp [marks, Mark.location?]

/-- The places of operands are among those of the marks, in the same order. -/
theorem sublist_location_operands (expr : Expr) :
    (expr.operands.filterMap location?).Sublist (expr.marks.filterMap Mark.location?) := by
  fun_induction operands expr with
  | case1 op left right location ihLeft ihRight =>
    rw [marks, List.filterMap_append, List.filterMap_append]
    exact ihLeft.append (ihRight.cons _)
  | case2 expr hexpr =>
    cases hlocation : expr.location? with
    | none => simp [hlocation]
    | some location => simpa [hlocation] using location_mem_marks hlocation

/-- Only a declaration has no place. -/
theorem exists_location_of_hasParts {expr : Expr} (h : expr.HasParts) :
    ∃ location, expr.location? = some location := by
  cases expr with
  | declaration => cases h
  | primary | suffixed | unary | binary | conditional | assign => exact ⟨_, rfl⟩

/-- All operands of a well-formed expression have places. -/
theorem WellFormed.map_location_operands {expr : Expr} (h : expr.WellFormed) :
    expr.operands.map location? = (expr.operands.filterMap location?).map some := by
  have hplaced : ∀ part ∈ expr.operands, (part.location?.map some) = some part.location? := by
    intro part hpart
    obtain ⟨location, hlocation⟩ := exists_location_of_hasParts (h.of_mem_operands part hpart).here
    rw [hlocation]
    rfl
  rw [List.map_filterMap, List.filterMap_congr hplaced, List.filterMap_eq_map']

end Expr

/-! ## Sources -/

theorem exists_body_of_compileExpr_eq_ok {source : String} {expr : Expr} {reports : List Report}
    (h : compileExpr source = (.ok expr, reports)) :
    ∃ body : Derivation .expression, body.expr = expr ∧
      body.tokens.Sublist (scan source).tokens := by
  cases hparse : parse (scan source).tokens with
  | error error =>
    rw [compileExpr_of_parse_eq_error hparse] at h
    cases h
  | ok root =>
    obtain ⟨body, stop, hstop, rfl, htokens⟩ := exists_body_of_parse hparse
    rw [compileExpr_of_parse_eq_ok hparse (Derivation.ofTree_toNode _)] at h
    cases h
    refine ⟨body, rfl, ?_⟩
    rw [htokens]
    exact List.takeWhile_sublist _

/-- The operands of the expression of a source have places, and their positions go up. -/
theorem exists_locations_of_compileExpr_eq_ok {source : String} {expr : Expr}
    {reports : List Report} (h : compileExpr source = (.ok expr, reports)) :
    ∃ locations : List Location, expr.operands.map Expr.location? = locations.map some ∧
      locations.Pairwise fun first second ↦ first.position < second.position := by
  obtain ⟨body, rfl, htokens⟩ := exists_body_of_compileExpr_eq_ok h
  have hformed : body.expr.WellFormed := body.forms
  refine ⟨_, hformed.map_location_operands, ?_⟩
  have hoperands := body.expr.sublist_location_operands
  have hmarks : (body.expr.marks.filterMap Mark.location?).Sublist
      (body.ungrouped.map Token.location) := sublist_filterMap_location body.written
  have hwords : body.ungrouped.Sublist body.tokens := List.filter_sublist.map Leaf.token
  have hplaces := hoperands.trans (hmarks.trans ((hwords.trans htokens).map Token.location))
  refine List.Pairwise.sublist hplaces ?_
  rw [List.pairwise_map]
  exact pairwise_position_tokens source

/-- A walk visits one after the other, and each once, the parts that are not binary operations and
have nothing but binary operations above them, from left to right. In the expression of a source
each of them has a place, and their positions go up. -/
theorem walk_visits_outermost :
    (∀ expr : Expr,
      (∀ path part, (path, part) ∈ expr.placedOperands ↔ expr.IsOutermost path part) ∧
      expr.placedOperands.Pairwise (fun first second ↦ first.1 < second.1) ∧
      ∀ (σ : Type) (visit : σ → Expr → σ) (acc : σ),
        expr.walk visit acc = (expr.placedOperands.map Prod.snd).foldl visit acc) ∧
    ∀ source expr reports, compileExpr source = (.ok expr, reports) →
      ∃ locations : List Location,
        (expr.placedOperands.map Prod.snd).map Expr.location? = locations.map some ∧
          locations.Pairwise fun first second ↦ first.position < second.position := by
  refine ⟨fun expr ↦ ⟨fun path part ↦ ?_, ?_, fun σ visit acc ↦ ?_⟩,
    fun source expr reports h ↦ ?_⟩
  · exact Expr.mem_placedOperands_iff
  · exact expr.pairwise_placedOperands
  · rw [expr.map_snd_placedOperands, expr.walk_eq_foldl_operands]
  · rw [expr.map_snd_placedOperands]
    exact exists_locations_of_compileExpr_eq_ok h

theorem walk_visits_outermost_groupedProduct :
    compileExpr "f-(g-h)*k[i]" =
        (.ok Derivation.groupedProduct.expr, (scan "f-(g-h)*k[i]").reports) ∧
      ∃ locations : List Location,
        (Derivation.groupedProduct.expr.placedOperands.map Prod.snd).map Expr.location? =
            locations.map some ∧
          locations.Pairwise fun first second ↦ first.position < second.position := by
  have h : compileExpr "f-(g-h)*k[i]" =
      (.ok Derivation.groupedProduct.expr, (scan "f-(g-h)*k[i]").reports) :=
    Derivation.compileExpr_of_tokens (by decide +kernel) (by decide +kernel)
  exact ⟨h, walk_visits_outermost.2 _ _ _ h⟩

example : Derivation.groupedProduct.expr.operands.map (fun part ↦
    part.location?.map Location.position) = [some 0, some 3, some 5, some 9] := by
  decide +kernel

end CExpr
