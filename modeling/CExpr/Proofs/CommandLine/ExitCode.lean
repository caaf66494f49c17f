import CExpr.CommandLine.Program
import CExpr.Proofs.Session.Display

/-!
# Exit codes

A session over a source that can be read ends with code 0 or 1. It is 0 exactly if the source is a
text and each of its lines that is not blank is scanned without a report and parsed. Code 2 would
stand for a fault of the program itself, and no source leads to one.
-/

namespace CExpr

namespace Session

/-- The line is scanned without a report and parsed. -/
def Passes (source : String) : Prop :=
  (scan source).reports = [] ∧ ∃ root, parse (scan source).tokens = .ok root

theorem fails_eq_false_iff (source : String) : fails source = false ↔ Passes source := by
  cases h : parse (scan source).tokens with
  | ok root =>
    obtain ⟨expr, hexpr⟩ := exists_ofTree_eq_ok h
    simp [fails, Passes, h, compileExpr_of_parse_eq_ok h hexpr, Except.isOk, Except.toBool]
  | error error =>
    simp [fails, Passes, h, compileExpr_of_parse_eq_error h, Except.isOk, Except.toBool]

/-- Every line that is compiled has a property exactly if every line that is not blank has it. -/
theorem forall_numbered_iff {p : String → Prop} (first : Nat) (lines : List String) :
    (∀ line ∈ numbered first lines, p line.1) ↔
      ∀ line ∈ lines, Text.isBlank line = false → p line := by
  have hall : (∀ line ∈ lines.zipIdx first, Text.isBlank line.1 = false → p line.1) ↔
      ∀ line ∈ (lines.zipIdx first).map Prod.fst, Text.isBlank line = false → p line := by
    simp only [List.forall_mem_map]
  simp only [numbered, List.mem_filter, Bool.not_eq_true', and_imp]
  rw [hall, List.zipIdx_map_fst]

/-- The lines of the bytes of a text can all be read. -/
theorem Input.ofBytes_toUTF8 (text : String) :
    ofBytes text.toUTF8 = (Text.linesOf text).map .ok := by
  rw [ofBytes, Text.lines_toUTF8, List.map_map]
  rfl

/-- Without a fault, every line has been read. -/
theorem Input.exists_eq_ok_of_fault?_map {α : Type} {read : α → Except StreamFault String}
    {lines : List α} (h : fault? (lines.map read) = none) :
    ∀ line ∈ lines, ∃ source, read line = .ok source := by
  induction lines with
  | nil => exact List.forall_mem_nil _
  | cons line lines ih =>
    rw [List.map_cons] at h
    cases hread : read line with
    | error fault => simp [hread, fault?] at h
    | ok source =>
      rw [hread, fault?] at h
      exact List.forall_mem_cons.2 ⟨⟨source, hread⟩, ih h⟩

/-- Bytes whose lines can all be read are those of a text. -/
theorem Input.exists_toUTF8_of_fault?_eq_none {bytes : ByteArray}
    (h : (ofBytes bytes).fault? = none) : ∃ text : String, text.toUTF8 = bytes := by
  refine (Text.exists_toUTF8_eq_iff bytes).2 fun line hline ↦ ?_
  obtain ⟨source, hsource⟩ := exists_eq_ok_of_fault?_map h line hline
  cases line with
  | none => cases hsource
  | some text => rfl

end Session

namespace CommandLine

open Session (Passes sessionResult Input)

/-- The bytes are a text whose lines pass, the blank ones apart. -/
def IsClean (bytes : ByteArray) : Prop :=
  ∃ text : String, text.toUTF8 = bytes ∧
    ∀ line ∈ Text.linesOf text, Text.isBlank line = false → Passes line

theorem isClean_toUTF8_iff (text : String) :
    IsClean text.toUTF8 ↔
      ∀ line ∈ Text.linesOf text, Text.isBlank line = false → Passes line := by
  constructor
  · rintro ⟨other, hother, h⟩
    obtain rfl : other = text := String.toByteArray_inj.1 hother
    exact h
  · intro h
    exact ⟨text, rfl, h⟩

/-- The code of a session over a text counts no failed line exactly if all lines pass. -/
theorem exitCode_sessionResult_toUTF8 (text : String) :
    exitCode (sessionResult (.ofBytes text.toUTF8)) = 0 ↔ IsClean text.toUTF8 := by
  rw [isClean_toUTF8_iff, ← Session.forall_numbered_iff 1, Input.ofBytes_toUTF8, sessionResult,
    Input.fault?_map_ok, Input.readable_map_ok]
  simp [exitCode, List.countP_eq_zero, ← Session.fails_eq_false_iff]

theorem exitCode_sessionResult_iff (bytes : ByteArray) :
    exitCode (sessionResult (.ofBytes bytes)) = 0 ↔ IsClean bytes := by
  cases h : (Input.ofBytes bytes).fault? with
  | none =>
    obtain ⟨text, rfl⟩ := Input.exists_toUTF8_of_fault?_eq_none h
    exact exitCode_sessionResult_toUTF8 text
  | some fault =>
    have hcode : exitCode (sessionResult (.ofBytes bytes)) = 1 := by
      rw [sessionResult, h]
      rfl
    rw [hcode]
    constructor
    · simp
    · rintro ⟨text, rfl, -⟩
      rw [Input.ofBytes_toUTF8, Input.fault?_map_ok] at h
      cases h

/-- No session ends with a fault of the program. -/
theorem exitCode_sessionResult_le (input : Input) : exitCode (sessionResult input) ≤ 1 := by
  unfold sessionResult
  split
  · simp only [exitCode]
    split <;> omega
  · rfl

theorem code_exit (settings : Settings) (terminal : Bool) {reading : Reading} {input : Input}
    (h : reading.input? = .ok input) :
    (settings.exit terminal reading).code = exitCode (sessionResult input) := by
  have hrun := Session.run_fresh ⟨settings.showTokens, settings.showTree⟩
    (terminal && !settings.noColor) input
  simp only [Settings.exit, h, Settings.exitOf]
  exact congrArg (fun outcome ↦ exitCode outcome.2) hrun

/-- No session ends with the code for a fault of the program, whatever its settings are and whatever
becomes of reading its source. If the source can be read, the code is 0 or 1, and it is 0 exactly if
the source is a text whose lines pass. -/
theorem code_exit_iff_isClean (settings : Settings) (terminal : Bool) :
    (∀ reading, (settings.exit terminal reading).code ≠ 2) ∧
      ∀ bytes, ((settings.exit terminal (.contents bytes)).code = 0 ↔ IsClean bytes) ∧
        ((settings.exit terminal (.contents bytes)).code = 1 ↔ ¬IsClean bytes) := by
  constructor
  · intro reading
    cases hreading : reading.input? with
    | ok input =>
      have hle := exitCode_sessionResult_le input
      rw [code_exit settings terminal hreading]
      omega
    | error reason => simp [Settings.exit, hreading]
  · intro bytes
    have hle := exitCode_sessionResult_le (.ofBytes bytes)
    have hinput : (Reading.contents bytes).input? = .ok (.ofBytes bytes) := rfl
    rw [code_exit settings terminal hinput, ← exitCode_sessionResult_iff]
    refine ⟨Iff.rfl, ?_⟩
    omega

theorem code_exit_of_stray_sign :
    (Settings.exit ⟨some "in.c", true, true, false, 0⟩ false (.contents "a\nb$".toUTF8)).code =
      1 := by
  refine ((code_exit_iff_isClean _ false).2 _).2.2 ?_
  rw [isClean_toUTF8_iff]
  intro h
  have hpasses : Passes "b$" := h "b$" (by decide +kernel) (by decide +kernel)
  exact absurd hpasses.1 (by decide +kernel)

end CommandLine

end CExpr
