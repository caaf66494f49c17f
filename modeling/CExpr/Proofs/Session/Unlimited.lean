import CExpr.Proofs.Session.Verdict

/-!
# Sessions on streams without limits

A session sends the writes of its lines one after the other until one is not taken whole. A stream
without a limit takes every write whole, so a session on two such streams goes on to the end of its
input, or to the first line that cannot be read. What it writes and what it counts is put together
from the reports of its lines, and the report of a line depends on nothing but the line and its
number.
-/

namespace CExpr.Session

/-! ## Writes -/

section Fields

variable (text : String) (color : Color) (useColor : Bool)

@[simp] theorem Write.channel_result : (Write.result text).channel = .out := rfl
@[simp] theorem Write.channel_note : (Write.note text).channel = .err := rfl
@[simp] theorem Write.channel_styled : (Write.styled color text).channel = .err := rfl
@[simp] theorem Write.shown_result : (Write.result text).shown useColor = text := rfl
@[simp] theorem Write.shown_note : (Write.note text).shown useColor = text := rfl
@[simp] theorem Write.shown_styled_false : (Write.styled color text).shown false = text := rfl

end Fields

/-- What writes show on one of the streams. -/
def Write.shownOn (useColor : Bool) (channel : Channel) (writes : List Write) : String :=
  String.join ((writes.filter (·.channel = channel)).map (Write.shown useColor))

section Shown

variable (useColor : Bool) (channel : Channel)

@[simp] theorem Write.shownOn_nil : Write.shownOn useColor channel [] = "" := by simp [shownOn]

@[simp] theorem Write.shownOn_append (first second : List Write) :
    Write.shownOn useColor channel (first ++ second) =
      Write.shownOn useColor channel first ++ Write.shownOn useColor channel second := by
  simp [shownOn]

@[simp] theorem Write.shownOn_cons (write : Write) (writes : List Write) :
    Write.shownOn useColor channel (write :: writes) =
      (if write.channel = channel then write.shown useColor else "") ++
        Write.shownOn useColor channel writes := by
  by_cases h : write.channel = channel <;> simp [shownOn, h]

@[simp] theorem Write.shownOn_flatMap {α : Type} (items : List α) (writes : α → List Write) :
    Write.shownOn useColor channel (items.flatMap writes) =
      String.join (items.map fun item ↦ Write.shownOn useColor channel (writes item)) := by
  induction items with
  | nil => simp
  | cons item items ih => simp [ih]

end Shown

/-! ## Consoles -/

/-- The stream after it took a text whole. -/
def Sink.add (sink : Sink) (text : String) : Sink :=
  { sink with taken := sink.taken ++ text.toUTF8 }

namespace Console

/-- The console after it took all of the writes whole. -/
def after (console : Console) (writes : List Write) : Console where
  useColor := console.useColor
  out := console.out.add (Write.shownOn console.useColor .out writes)
  err := console.err.add (Write.shownOn console.useColor .err writes)

/-- Neither stream has a limit. -/
structure Unlimited (console : Console) : Prop where
  out : console.out.limit = none
  err : console.err.limit = none

theorem after_nil (console : Console) : console.after [] = console := by
  simp [after, Sink.add]

theorem after_after (console : Console) (first second : List Write) :
    (console.after first).after second = console.after (first ++ second) := by
  simp [after, Sink.add, ByteArray.append_assoc]

variable {console : Console}

theorem Unlimited.after (h : console.Unlimited) (writes : List Write) :
    (console.after writes).Unlimited :=
  ⟨h.out, h.err⟩

theorem Unlimited.send (h : console.Unlimited) (write : Write) :
    console.send write = (console.after [write], true) := by
  unfold Console.send
  cases hchannel : write.channel with
  | out => simp [Sink.send_of_limit_none h.out, Console.after, Sink.add, hchannel, Write.bytes]
  | err => simp [Sink.send_of_limit_none h.err, Console.after, Sink.add, hchannel, Write.bytes]

/-- Every write is taken whole. -/
theorem Unlimited.sendAll (h : console.Unlimited) (writes : List Write) :
    console.sendAll writes = (console.after writes, true) := by
  induction writes generalizing console with
  | nil => rw [Console.sendAll, after_nil]
  | cons write writes ih =>
    rw [Console.sendAll, h.send]
    simp only [if_true]
    rw [ih (h.after [write]), after_after]
    rfl

/-- Writes are sent one list after the other, unless the first stops. -/
theorem sendAll_append (console : Console) (first second : List Write) :
    console.sendAll (first ++ second) =
      if (console.sendAll first).2 then (console.sendAll first).1.sendAll second
      else console.sendAll first := by
  induction first generalizing console with
  | nil => simp [sendAll]
  | cons write first ih =>
    rw [List.cons_append, sendAll, sendAll]
    cases h : (console.send write).2 with
    | false => simp [h]
    | true => simp [h, ih]

end Console

/-! ## Lines -/

/-- The lines that are compiled, with their numbers: those that are not blank. -/
def numbered (first : Nat) (lines : List String) : List (String × Nat) :=
  (lines.zipIdx first).filter fun line ↦ !Text.isBlank line.1

namespace Input

/-- The lines before the first that cannot be read. -/
def readable : Input → List String
  | [] => []
  | .error _ :: _ => []
  | .ok source :: rest => source :: readable rest

/-- What is wrong with the first line that cannot be read. -/
def fault? : Input → Option StreamFault
  | [] => none
  | .error fault :: _ => some fault
  | .ok _ :: rest => fault? rest

theorem readable_map_ok (lines : List String) : readable (lines.map .ok) = lines := by
  induction lines with
  | nil => rfl
  | cons source lines ih => rw [List.map_cons, readable, ih]

theorem fault?_map_ok (lines : List String) : fault? (lines.map .ok) = none := by
  induction lines with
  | nil => rfl
  | cons source lines ih => rw [List.map_cons, fault?, ih]

/-- A line that is reached is among the lines of the input. -/
theorem mem_of_mem_readable {input : Input} {source : String} (h : source ∈ input.readable) :
    .ok source ∈ input := by
  fun_induction readable input with
  | case1 | case2 => cases h
  | case3 first rest ih =>
    rcases List.mem_cons.1 h with rfl | hrest
    · exact List.mem_cons_self
    · exact List.mem_cons_of_mem _ (ih hrest)

end Input

/-- The reports of the lines that are compiled. -/
def lineReports (listing : Listing) (first : Nat) (lines : List String) : List LineReport :=
  (numbered first lines).map fun line ↦ .ofSource .standard listing line.2 line.1

theorem lineReports_cons (listing : Listing) (first : Nat) (source : String)
    (lines : List String) :
    lineReports listing first (source :: lines) =
      if Text.isBlank source then lineReports listing (first + 1) lines
      else .ofSource .standard listing first source :: lineReports listing (first + 1) lines := by
  cases h : Text.isBlank source <;> simp [lineReports, numbered, h]

/-- The counts after lines with the reports. -/
def Tally.after (tally : Tally) (reports : List LineReport) : Tally where
  lines := tally.lines + reports.length
  failed := tally.failed + reports.countP (·.verdict ≠ .clean)

theorem Tally.after_add (tally : Tally) (report : LineReport) (reports : List LineReport) :
    (tally.add (report.verdict = .clean)).after reports = tally.after (report :: reports) := by
  by_cases h : report.verdict = .clean <;>
    simp [Tally.after, Tally.add, h, Nat.add_assoc, Nat.add_comm 1]

/-! ## Sessions -/

/-- What the report of a line comes to when it is written. -/
theorem submit_eq (listing : Listing) (console : Console) (number : Nat) (source : String) :
    submit listing console number source =
      let report := LineReport.ofSource .standard listing number source
      ((console.sendAll report.writes).1,
        if (console.sendAll report.writes).2 then .ok (report.verdict = .clean)
        else .error (.stream .full)) := by
  have hne := LineReport.verdict_ofSource_ne_broken .standard listing number source
  unfold submit
  cases hverdict : (LineReport.ofSource .standard listing number source).verdict with
  | clean | flawed => simp [hverdict]
  | broken error => exact absurd hverdict (hne error)

/-- A session sends the writes of its lines one after the other, and comes to what its lines come
to unless one of the writes is not taken whole. -/
theorem runFrom_eq_sendAll (listing : Listing) (number : Nat) (tally : Tally) (console : Console)
    (input : Input) :
    runFrom listing number tally console input =
      let reports := lineReports listing number input.readable
      let sent := console.sendAll (reports.flatMap LineReport.writes)
      (sent.1,
        if sent.2 then
          match input.fault? with
          | none => .ok (tally.after reports)
          | some fault => .error (.stream fault)
        else .error (.stream .full)) := by
  fun_induction Input.readable input generalizing console number tally with
  | case1 => simp [runFrom, lineReports, numbered, Input.fault?, Console.sendAll, Tally.after]
  | case2 fault rest => simp [runFrom, lineReports, numbered, Input.fault?, Console.sendAll]
  | case3 source rest ih =>
    rw [runFrom, lineReports_cons, Input.fault?]
    split
    next => exact ih (number + 1) tally console
    next =>
      simp only [submit_eq, List.flatMap_cons, Console.sendAll_append]
      cases hwhole : (console.sendAll
          (LineReport.ofSource .standard listing number source).writes).2 with
      | false => simp [hwhole]
      | true => simp only [if_true, ih, Tally.after_add]

section Run

variable {console : Console} (h : console.Unlimited) (listing : Listing)
include h

/-- A session writes the reports of the lines before the first that cannot be read, one after the
other, whatever was written before. -/
theorem Console.Unlimited.runFrom_eq (number : Nat) (tally : Tally) (input : Input) :
    Session.runFrom listing number tally console input =
      (console.after ((lineReports listing number input.readable).flatMap LineReport.writes),
        match input.fault? with
        | none => .ok (tally.after (lineReports listing number input.readable))
        | some fault => .error (.stream fault)) := by
  simp [runFrom_eq_sendAll, h.sendAll]

/-- A session over lines that can all be read goes on to the last of them. -/
theorem Console.Unlimited.runFrom (number : Nat) (tally : Tally) (lines : List String) :
    Session.runFrom listing number tally console (lines.map .ok) =
      (console.after ((lineReports listing number lines).flatMap LineReport.writes),
        .ok (tally.after (lineReports listing number lines))) := by
  rw [h.runFrom_eq, Input.readable_map_ok, Input.fault?_map_ok]

end Run

end CExpr.Session
