import CExpr.Proofs.Session.ByLine
import CExpr.Proofs.Session.Unescaped

/-!
# Listings and colours are for display only

Which listings are shown and whether colours are has no bearing on what a session comes to or on the
results that it writes. The colours of its messages are sequences around texts that stand there
without them too.
-/

namespace CExpr.Session

open Text (Unescaped withoutColors)

/-- A console that shows colours or not, with two fresh streams that take everything. -/
def Console.fresh (useColor : Bool) : Console := ⟨useColor, .fresh none, .fresh none⟩

/-- All writes of a session that nothing stops but its input. -/
def sessionWrites (listing : Listing) (input : Input) : List Write :=
  (lineReports listing 1 input.readable).flatMap LineReport.writes

/-- What such a session comes to. -/
def sessionResult (input : Input) : Except SessionError Tally :=
  match input.fault? with
  | none =>
    let lines := numbered 1 input.readable
    .ok ⟨lines.length, lines.countP fun line ↦ fails line.1⟩
  | some fault => .error (.stream fault)

/-- A session on fresh streams without limits. -/
theorem run_fresh (listing : Listing) (useColor : Bool) (input : Input) :
    run listing (.fresh useColor) input =
      ((Console.fresh useColor).after (sessionWrites listing input), sessionResult input) := by
  have hunlimited : (Console.fresh useColor).Unlimited := ⟨rfl, rfl⟩
  rw [run, hunlimited.runFrom_eq, after_lineReports]
  rfl

theorem taken_out_run_fresh (listing : Listing) (useColor : Bool) (input : Input) :
    (run listing (.fresh useColor) input).1.out.taken =
      (String.join ((numbered 1 input.readable).filterMap fun line ↦ result? line.1)).toUTF8 := by
  rw [run_fresh, ← shownOn_out_lineReports 1 input.readable useColor listing]
  simp [Console.after, Console.fresh, Sink.add, Sink.fresh, sessionWrites]

theorem taken_err_run_fresh (listing : Listing) (useColor : Bool) (input : Input) :
    (run listing (.fresh useColor) input).1.err.taken =
      (Write.shownOn useColor .err (sessionWrites listing input)).toUTF8 := by
  rw [run_fresh]
  simp [Console.after, Console.fresh, Sink.add, Sink.fresh]

/-- An input without an escape character has no message with one. -/
theorem unescaped_of_mem_sessionWrites (listing : Listing) {input : Input}
    (h : ∀ source, .ok source ∈ input → Unescaped source) :
    ∀ write ∈ sessionWrites listing input, write.channel = .err → Unescaped write.text := by
  rw [sessionWrites, List.forall_mem_flatMap]
  intro report hreport
  obtain ⟨⟨source, number⟩, hline, rfl⟩ := List.mem_map.1 hreport
  have hmem : source ∈ input.readable :=
    List.fst_mem_of_mem_zipIdx (List.mem_filter.1 hline).1
  exact unescaped_of_mem_writes .standard number listing (h source (Input.mem_of_mem_readable hmem))

/-- Over streams that take everything, neither the listings nor the colours change what a session
comes to or what it writes as results. On an input without an escape character, the messages with
colours are the messages without them when all sequences that set a colour are deleted. -/
theorem run_display :
    (∀ (input : Input) (first second : Listing) (firstColor secondColor : Bool),
      (run first (.fresh firstColor) input).2 = (run second (.fresh secondColor) input).2 ∧
        (run first (.fresh firstColor) input).1.out.taken =
          (run second (.fresh secondColor) input).1.out.taken) ∧
      ∀ (input : Input) (listing : Listing), (∀ source, .ok source ∈ input → Unescaped source) →
        ∃ colored plain : String,
          (run listing (.fresh true) input).1.err.taken = colored.toUTF8 ∧
            (run listing (.fresh false) input).1.err.taken = plain.toUTF8 ∧
            withoutColors colored.toList = plain.toList := by
  constructor
  · intro input first second firstColor secondColor
    rw [taken_out_run_fresh, taken_out_run_fresh, run_fresh, run_fresh]
    exact ⟨rfl, rfl⟩
  · intro input listing h
    exact ⟨_, _, taken_err_run_fresh listing true input, taken_err_run_fresh listing false input,
      Write.withoutColors_shownOn (unescaped_of_mem_sessionWrites listing h)⟩

theorem run_display_of_two_lines :
    (∀ source, .ok source ∈ ([.ok "a$+", .ok "b"] : Input) → Unescaped source) ∧
      ∃ colored plain : String,
        (run ⟨true, true⟩ (.fresh true) [.ok "a$+", .ok "b"]).1.err.taken = colored.toUTF8 ∧
          (run ⟨true, true⟩ (.fresh false) [.ok "a$+", .ok "b"]).1.err.taken = plain.toUTF8 ∧
          withoutColors colored.toList = plain.toList := by
  have h : ∀ source, .ok source ∈ ([.ok "a$+", .ok "b"] : Input) → Unescaped source := by
    intro source hsource
    rcases List.mem_cons.1 hsource with hfirst | hsecond
    · cases hfirst
      decide
    · cases List.mem_singleton.1 hsecond
      decide
  exact ⟨h, run_display.2 _ ⟨true, true⟩ h⟩

end CExpr.Session
