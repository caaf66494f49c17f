import CExpr.Proofs.Scan.Newline

/-!
# Places in order

No piece is empty. Whatever pieces give is therefore placed behind all that earlier pieces give, and
before the place where the text of the pieces ends. The tokens of a source lie in strictly
increasing positions, with the end of the input last.
-/

namespace CExpr

theorem Text.byteLength_pos {text : List Char} (h : text ≠ []) : 0 < byteLength text := by
  obtain ⟨c, rest, rfl⟩ := List.exists_cons_of_ne_nil h
  have hsize := c.utf8Size_pos
  rw [byteLength_cons]
  omega

theorem Location.position_advance (location : Location) (text : List Char) :
    (location.advance text).position = location.position + Text.byteLength text := rfl

namespace Scan

theorem text_ne_nil_of_mem_pieces {source : List Char} :
    ∀ piece ∈ pieces source, piece.text ≠ [] := by
  fun_induction pieces source with
  | case1 => simp
  | case2 first rest ih => exact List.forall_mem_cons.2 ⟨firstPiece_text_ne_nil first rest, ih⟩

section

variable {α : Type} {give : Location → Piece → Option α} {place : α → Nat}

/-- What a piece gives is placed where the piece begins. -/
def Places (give : Location → Piece → Option α) (place : α → Nat) : Prop :=
  ∀ location piece, ∀ given ∈ give location piece, place given = location.position

variable {pieces : List Piece}

theorem Places.bounds_of_mem (h : Places give place) (hpieces : ∀ piece ∈ pieces, piece.text ≠ [])
    {location : Location} :
    ∀ given ∈ gather give location pieces, location.position ≤ place given ∧
      place given < (location.advance (pieces.flatMap Piece.text)).position := by
  induction pieces generalizing location with
  | nil => simp [gather]
  | cons piece pieces ih =>
    obtain ⟨hpiece, hpieces⟩ := List.forall_mem_cons.1 hpieces
    have hpos := Text.byteLength_pos hpiece
    intro given hgiven
    rw [List.flatMap_cons, Location.advance_append]
    rcases List.mem_append.1 hgiven with hfirst | hrest
    · have hplace := h location piece given (by simpa using hfirst)
      simp only [Location.position_advance]
      omega
    · have hbounds := ih hpieces given hrest
      have hstart := location.position_advance piece.text
      omega

theorem Places.pairwise_gather (h : Places give place)
    (hpieces : ∀ piece ∈ pieces, piece.text ≠ []) {location : Location} :
    (gather give location pieces).Pairwise fun first second ↦ place first < place second := by
  induction pieces generalizing location with
  | nil => exact .nil
  | cons piece pieces ih =>
    obtain ⟨hpiece, hpieces⟩ := List.forall_mem_cons.1 hpieces
    have hpos := Text.byteLength_pos hpiece
    have hstart := location.position_advance piece.text
    rw [gather]
    cases hgive : give location piece with
    | none => exact ih hpieces
    | some given =>
      refine List.pairwise_cons.2 ⟨fun other hother ↦ ?_, ih hpieces⟩
      have hplace := h location piece given hgive
      have hbounds := h.bounds_of_mem hpieces other hother
      omega

end

theorem places_token? : Places Piece.token? fun token ↦ token.location.position := by
  intro location piece token htoken
  cases piece with
  | lexeme kind text =>
    cases htoken
    rfl
  | blank | comment | malformed => cases htoken

/-- The tokens of a source lie in strictly increasing positions. -/
theorem pairwise_position_tokens (source : String) :
    (scan source).tokens.Pairwise fun first second ↦
      first.location.position < second.location.position := by
  rw [tokens_eq_gather, List.pairwise_append]
  refine ⟨places_token?.pairwise_gather text_ne_nil_of_mem_pieces, List.pairwise_singleton _ _, ?_⟩
  intro token htoken stop hstop
  have hbounds := places_token?.bounds_of_mem text_ne_nil_of_mem_pieces token htoken
  rw [pieces_text] at hbounds
  rw [List.mem_singleton.1 hstop]
  exact hbounds.2

end Scan

end CExpr
