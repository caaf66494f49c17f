import CExpr.Proofs.Session.Unlimited
import Mathlib.Data.List.Infix

/-!
# Deleting colours

A colour is set by an escape character and three decimal numbers, and set back by an escape
character and a zero. Deleting all such sequences from what is shown in colours leaves what is shown
without them, if no text that is written has an escape character of its own.
-/

namespace CExpr

namespace Text

/-- The character that every escape sequence begins with. -/
def escape : Char := '\x1b'

/-- What follows a decimal number and a sign at the front of the text. -/
def afterNumber? (sign : Char) (text : List Char) : Option (List Char) :=
  let digits := text.takeWhile Char.isDigit
  if digits = [] then none else [sign].isPrefixOf? (text.drop digits.length)

/-- What follows a sequence at the front of the text that sets a colour. -/
def afterSetting? (text : List Char) : Option (List Char) := do
  let red ← [escape, '[', '3', '8', ';', '2', ';'].isPrefixOf? text
  let green ← afterNumber? ';' red
  let blue ← afterNumber? ';' green
  afterNumber? 'm' blue

/-- What follows a sequence at the front of the text that sets a colour or sets it back. -/
def afterSequence? (text : List Char) : Option (List Char) :=
  (afterSetting? text).or ([escape, '[', '0', 'm'].isPrefixOf? text)

theorem length_lt_of_isPrefixOf? {front text after : List Char} (hfront : front ≠ [])
    (h : front.isPrefixOf? text = some after) : after.length < text.length := by
  obtain rfl := List.isPrefixOf?_eq_some_iff_append_eq.1 h
  have hpos := List.length_pos_iff.2 hfront
  rw [List.length_append]
  omega

theorem length_lt_of_afterNumber? {sign : Char} {text after : List Char}
    (h : afterNumber? sign text = some after) : after.length < text.length := by
  have hafter := length_lt_of_isPrefixOf? (List.cons_ne_nil sign [])
    (Option.ite_none_left_eq_some.1 h).2
  exact Nat.lt_of_lt_of_le hafter (by simp)

theorem length_lt_of_afterSequence? {text after : List Char}
    (h : afterSequence? text = some after) : after.length < text.length := by
  rcases Option.or_eq_some_iff.1 h with hsetting | ⟨-, hback⟩
  · obtain ⟨red, hred, hsetting⟩ := Option.bind_eq_some_iff.1 hsetting
    obtain ⟨green, hgreen, hsetting⟩ := Option.bind_eq_some_iff.1 hsetting
    obtain ⟨blue, hblue, hsetting⟩ := Option.bind_eq_some_iff.1 hsetting
    calc after.length
        < blue.length := length_lt_of_afterNumber? hsetting
      _ < green.length := length_lt_of_afterNumber? hblue
      _ < red.length := length_lt_of_afterNumber? hgreen
      _ < text.length := length_lt_of_isPrefixOf? (by simp) hred
  · exact length_lt_of_isPrefixOf? (by simp) hback

/-- The text without its sequences that set a colour or set it back. -/
def withoutColors : List Char → List Char
  | [] => []
  | c :: rest =>
    match h : afterSequence? (c :: rest) with
    | some after =>
      have := length_lt_of_afterSequence? h
      withoutColors after
    | none => c :: withoutColors rest
termination_by text => text.length
decreasing_by
  · assumption
  · exact Nat.lt_add_one rest.length

@[simp] theorem withoutColors_nil : withoutColors [] = [] := by rw [withoutColors]

theorem withoutColors_of_afterSequence? {text after : List Char}
    (h : afterSequence? text = some after) : withoutColors text = withoutColors after := by
  cases text with
  | nil => cases length_lt_of_afterSequence? h
  | cons c rest =>
    rw [withoutColors]
    split
    next other hother =>
      obtain rfl := Option.some.inj (hother.symm.trans h)
      rfl
    next hnone =>
      rw [hnone] at h
      cases h

theorem isPrefixOf?_cons_of_ne {c first : Char} (h : c ≠ first) (front rest : List Char) :
    (first :: front).isPrefixOf? (c :: rest) = none := by
  rw [List.isPrefixOf?, if_neg (by simpa using Ne.symm h)]

theorem withoutColors_cons_of_ne {c : Char} (h : c ≠ escape) (rest : List Char) :
    withoutColors (c :: rest) = c :: withoutColors rest := by
  have hnone : afterSequence? (c :: rest) = none := by
    rw [afterSequence?, afterSetting?, isPrefixOf?_cons_of_ne h, isPrefixOf?_cons_of_ne h]
    rfl
  rw [withoutColors]
  split
  next after hafter =>
    rw [hafter] at hnone
    cases hnone
  next => rfl

/-- Text without an escape character stays. -/
theorem withoutColors_append {front : List Char} (h : escape ∉ front) (rest : List Char) :
    withoutColors (front ++ rest) = front ++ withoutColors rest := by
  induction front with
  | nil => rfl
  | cons c front ih =>
    rw [List.mem_cons, not_or] at h
    rw [List.cons_append, withoutColors_cons_of_ne (Ne.symm h.1), ih h.2, List.cons_append]

/-- A number is read up to the sign after it. -/
theorem afterNumber?_append {sign : Char} (hsign : sign.isDigit = false) (n : Nat)
    (rest : List Char) : afterNumber? sign ((toString n).toList ++ sign :: rest) = some rest := by
  have hdigits : ∀ c ∈ (toString n).toList, c.isDigit = true := by
    rw [Nat.toString_eq_repr, Nat.toList_repr]
    exact fun c ↦ Nat.isDigit_of_mem_toDigits (by decide) (by decide)
  have hne : (toString n).toList ≠ [] := by
    rw [Nat.toString_eq_repr, Nat.toList_repr]
    exact Nat.toDigits_ne_nil
  have htaken : ((toString n).toList ++ sign :: rest).takeWhile Char.isDigit =
      (toString n).toList := by
    rw [List.takeWhile_append_of_pos hdigits]
    simp [hsign]
  unfold afterNumber?
  rw [htaken, if_neg hne, List.drop_left]
  simp [List.isPrefixOf?]

/-- What a text in a colour shows without the colour is the text. -/
theorem withoutColors_paint (color : Color) {text : String} (h : escape ∉ text.toList)
    (rest : List Char) :
    withoutColors ((color.paint text).toList ++ rest) = text.toList ++ withoutColors rest := by
  have hpaint : (color.paint text).toList ++ rest =
      [escape, '[', '3', '8', ';', '2', ';'] ++ ((toString color.red).toList ++ ';' ::
        ((toString color.green).toList ++ ';' :: ((toString color.blue).toList ++ 'm' ::
          (text.toList ++ ([escape, '[', '0', 'm'] ++ rest))))) := by
    change ("\x1b[38;2;" ++ toString color.red ++ ";" ++ toString color.green ++ ";" ++
      toString color.blue ++ "m" ++ text ++ "\x1b[0m").toList ++ rest = _
    simp [escape]
  have hsetting : ∀ after, afterSequence? ([escape, '[', '3', '8', ';', '2', ';'] ++
      ((toString color.red).toList ++ ';' :: ((toString color.green).toList ++ ';' ::
        ((toString color.blue).toList ++ 'm' :: after)))) = some after := by
    intro after
    have hsemicolon := afterNumber?_append (by decide : Char.isDigit ';' = false)
    have hm := afterNumber?_append (by decide : Char.isDigit 'm' = false)
    simp only [afterSequence?, afterSetting?, List.isPrefixOf?, List.cons_append, List.nil_append,
      beq_self_eq_true, if_true, Option.bind_eq_bind, Option.bind_some, hsemicolon, hm,
      Option.some_or]
  have hback : afterSequence? ([escape, '[', '0', 'm'] ++ rest) = some rest := rfl
  rw [hpaint, withoutColors_of_afterSequence? (hsetting _), withoutColors_append h,
    withoutColors_of_afterSequence? hback]

end Text

namespace Session.Write

open Text (escape withoutColors withoutColors_append withoutColors_paint)

theorem withoutColors_shown {write : Write} (h : escape ∉ write.text.toList) (rest : List Char) :
    withoutColors ((write.shown true).toList ++ rest) =
      (write.shown false).toList ++ withoutColors rest := by
  unfold shown
  cases write.color with
  | none => exact withoutColors_append h rest
  | some color => exact withoutColors_paint color h rest

/-- Without its colours, what writes show is what they show when colours are off. -/
theorem withoutColors_shownOn {channel : Channel} {writes : List Write}
    (h : ∀ write ∈ writes, write.channel = channel → escape ∉ write.text.toList) :
    withoutColors (shownOn true channel writes).toList = (shownOn false channel writes).toList := by
  induction writes with
  | nil => simp
  | cons write writes ih =>
    obtain ⟨hwrite, hwrites⟩ := List.forall_mem_cons.1 h
    by_cases hchannel : write.channel = channel
    · rw [shownOn_cons, shownOn_cons, if_pos hchannel, if_pos hchannel, String.toList_append,
        String.toList_append, withoutColors_shown (hwrite hchannel), ih hwrites]
    · rw [shownOn_cons, shownOn_cons, if_neg hchannel, if_neg hchannel, String.empty_append,
        String.empty_append, ih hwrites]

end Session.Write

end CExpr
