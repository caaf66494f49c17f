import CExpr.Proofs.Session.Display

/-!
# Sessions on streams with limits

A stream that may hold so many bytes takes every write that still fits. Of the first write that does
not, it takes what fits and is full, and nothing is sent after that write. So a session on streams
with limits does what the session without limits does, or it stops at the first write that is not
taken whole, with a first part of what the other session writes on each stream.
-/

namespace CExpr.Session

/-- A stream with the limit may hold so many bytes. -/
def Allows (limit : Option Nat) (size : Nat) : Prop := ∀ most, limit = some most → size ≤ most

theorem Allows.mono {limit : Option Nat} {size smaller : Nat} (h : Allows limit size)
    (hle : smaller ≤ size) : Allows limit smaller :=
  fun most hmost ↦ Nat.le_trans hle (h most hmost)

/-! ## One stream -/

namespace Sink

variable {sink : Sink} {bytes : ByteArray}

/-- A write within the limit is taken whole. -/
theorem send_of_allows (h : Allows sink.limit (sink.taken ++ bytes).size) :
    sink.send bytes = ({ sink with taken := sink.taken ++ bytes }, true) := by
  have hroom : sink.room bytes.size = bytes.size := by
    unfold room
    split
    next most hmost =>
      have hle := h most hmost
      rw [ByteArray.size_append] at hle
      omega
    next => rfl
  simp [send, hroom]

/-- Of a write past the limit, a first part is taken that makes the stream full. -/
theorem send_of_not_allows (hsink : Allows sink.limit sink.taken.size)
    (h : ¬Allows sink.limit (sink.taken ++ bytes).size) :
    (sink.send bytes).2 = false ∧ sink.limit = some (sink.send bytes).1.taken.size ∧
      (sink.send bytes).1.taken.data.toList <+: (sink.taken ++ bytes).data.toList := by
  obtain ⟨most, hmost, hlt⟩ :
      ∃ most, sink.limit = some most ∧ most < sink.taken.size + bytes.size := by
    simpa [Allows] using h
  have hle := hsink most hmost
  have hroom : sink.room bytes.size = most - sink.taken.size := by
    simp only [room, hmost]
    omega
  refine ⟨?_, ?_, ?_⟩
  · simp only [send, hroom, beq_eq_false_iff_ne]
    omega
  · simp only [send, hroom, hmost, ByteArray.size_append, ByteArray.size_extract,
      Option.some.injEq]
    omega
  · rw [toList_taken_send, ByteArray.data_append, Array.toList_append, List.prefix_append_right_inj]
    exact List.take_prefix _ _

end Sink

/-! ## Both streams -/

namespace Console

/-- Neither stream is past its limit. -/
structure Within (console : Console) : Prop where
  out : Allows console.out.limit console.out.taken.size
  err : Allows console.err.limit console.err.taken.size

/-- What each stream took is a first part of what it took on the other console. -/
structure IsPrefix (console other : Console) : Prop where
  out : console.out.taken.data.toList <+: other.out.taken.data.toList
  err : console.err.taken.data.toList <+: other.err.taken.data.toList

theorem IsPrefix.trans {first second third : Console} (h : first.IsPrefix second)
    (h' : second.IsPrefix third) : first.IsPrefix third :=
  ⟨h.out.trans h'.out, h.err.trans h'.err⟩

theorem isPrefix_after (console : Console) (writes : List Write) :
    console.IsPrefix (console.after writes) := by
  constructor <;> simp [after, Sink.add]

variable {console : Console}

/-- A console that is within its limits was so before its last writes. -/
theorem Within.of_after {writes : List Write} (h : (console.after writes).Within) :
    console.Within :=
  ⟨h.out.mono (by simp [after, Sink.add]), h.err.mono (by simp [after, Sink.add])⟩

/-- A write of results adds its bytes to the one stream. -/
theorem after_singleton_out {write : Write} (h : write.channel = .out) :
    console.after [write] =
      { console with
        out := { console.out with
          taken := console.out.taken ++ write.bytes console.useColor } } := by
  simp [after, Sink.add, h, Write.bytes]

/-- A write of messages adds its bytes to the other stream. -/
theorem after_singleton_err {write : Write} (h : write.channel = .err) :
    console.after [write] =
      { console with
        err := { console.err with
          taken := console.err.taken ++ write.bytes console.useColor } } := by
  simp [after, Sink.add, h, Write.bytes]

/-- A write within the limits is taken whole. -/
theorem send_of_within {write : Write} (h : (console.after [write]).Within) :
    console.send write = (console.after [write], true) := by
  cases hchannel : write.channel with
  | out =>
    rw [after_singleton_out hchannel] at h ⊢
    have hout : Allows console.out.limit
        (console.out.taken ++ write.bytes console.useColor).size := h.out
    simp only [Console.send, hchannel, Sink.send_of_allows hout]
  | err =>
    rw [after_singleton_err hchannel] at h ⊢
    have herr : Allows console.err.limit
        (console.err.taken ++ write.bytes console.useColor).size := h.err
    simp only [Console.send, hchannel, Sink.send_of_allows herr]

/-- A write past a limit is not taken whole, and the stream of that limit is full then. -/
theorem Within.send_of_not_within {write : Write} (h : console.Within)
    (hafter : ¬(console.after [write]).Within) :
    (console.send write).2 = false ∧
      (console.out.limit = some (console.send write).1.out.taken.size ∨
        console.err.limit = some (console.send write).1.err.taken.size) ∧
      (console.send write).1.IsPrefix (console.after [write]) := by
  cases hchannel : write.channel with
  | out =>
    rw [after_singleton_out hchannel] at hafter ⊢
    obtain ⟨hwhole, hfull, hfront⟩ := Sink.send_of_not_allows h.out fun hout ↦
      hafter ⟨hout, h.err⟩
    simp only [Console.send, hchannel]
    exact ⟨hwhole, .inl hfull, hfront, List.prefix_rfl⟩
  | err =>
    rw [after_singleton_err hchannel] at hafter ⊢
    obtain ⟨hwhole, hfull, hfront⟩ := Sink.send_of_not_allows h.err fun herr ↦
      hafter ⟨h.out, herr⟩
    simp only [Console.send, hchannel]
    exact ⟨hwhole, .inr hfull, List.prefix_rfl, hfront⟩

/-- Writes are taken whole as long as they stay within the limits. -/
theorem sendAll_of_within {writes : List Write} (h : (console.after writes).Within) :
    console.sendAll writes = (console.after writes, true) := by
  induction writes generalizing console with
  | nil => rw [sendAll, after_nil]
  | cons write writes ih =>
    have hsplit : console.after (write :: writes) = (console.after [write]).after writes :=
      (after_after console [write] writes).symm
    rw [hsplit] at h ⊢
    rw [sendAll, send_of_within h.of_after]
    exact ih h

/-- The writes went up to one that was not taken whole: those before it were, and none after it was
sent. A stream holds all that it may then, and both hold a first part of all the writes. -/
structure StopsAt (console : Console) (writes : List Write) (stopped : Console) : Prop where
  exists_refused : ∃ before write rest, writes = before ++ write :: rest ∧
    (console.after before).Within ∧ (console.after before).send write = (stopped, false)
  isFull : console.out.limit = some stopped.out.taken.size ∨
    console.err.limit = some stopped.err.taken.size
  isPrefix : stopped.IsPrefix (console.after writes)

/-- Writes that do not stay within the limits stop at the first that passes one. -/
theorem Within.stopsAt {writes : List Write} (h : console.Within)
    (hafter : ¬(console.after writes).Within) :
    (console.sendAll writes).2 = false ∧ console.StopsAt writes (console.sendAll writes).1 := by
  induction writes generalizing console with
  | nil =>
    rw [after_nil] at hafter
    exact absurd h hafter
  | cons write writes ih =>
    have hsplit : console.after (write :: writes) = (console.after [write]).after writes :=
      (after_after console [write] writes).symm
    by_cases hfirst : (console.after [write]).Within
    · rw [hsplit] at hafter
      obtain ⟨hwhole, ⟨before, refused, rest, rfl, hbefore, hsend⟩, hfull, hfront⟩ :=
        ih hfirst hafter
      rw [after_after] at hbefore hsend
      rw [sendAll, send_of_within hfirst]
      refine ⟨hwhole, ⟨write :: before, refused, rest, rfl, hbefore, hsend⟩, hfull, ?_⟩
      rw [hsplit]
      exact hfront
    · obtain ⟨hwhole, hfull, hfront⟩ := h.send_of_not_within hfirst
      have hstop : console.sendAll (write :: writes) = ((console.send write).1, false) := by
        rw [sendAll]
        simp [hwhole]
      rw [hstop]
      refine ⟨rfl, ⟨[], write, writes, rfl, ?_, ?_⟩, hfull, ?_⟩
      · rwa [after_nil]
      · rw [after_nil, ← hwhole]
      · rw [hsplit]
        exact hfront.trans (isPrefix_after _ writes)

end Console

/-! ## Sessions -/

/-- A session comes to what its input comes to unless one of its writes is not taken whole. -/
theorem run_eq_sendAll (listing : Listing) (console : Console) (input : Input) :
    run listing console input =
      let sent := console.sendAll (sessionWrites listing input)
      (sent.1, if sent.2 then sessionResult input else .error (.stream .full)) := by
  rw [run, runFrom_eq_sendAll]
  simp only [after_lineReports]
  rfl

/-- On each of two fresh streams with limits, a session writes a first part of what it writes
without them. If everything is within the limits, both sessions come to the same and write the same.
Otherwise the one with limits ends with trouble on a stream that is full: the writes went up to one
that was not taken whole, and no later one was sent. -/
theorem run_limited (listing : Listing) (useColor : Bool) (outLimit errLimit : Option Nat)
    (input : Input) :
    let start : Console := ⟨useColor, .fresh outLimit, .fresh errLimit⟩
    let whole := run listing (.fresh useColor) input
    let cut := run listing start input
    let fits := Allows outLimit whole.1.out.taken.size ∧ Allows errLimit whole.1.err.taken.size
    cut.1.IsPrefix whole.1 ∧
      (fits ∧ cut.2 = whole.2 ∧ cut.1.out.taken = whole.1.out.taken ∧
          cut.1.err.taken = whole.1.err.taken ∨
        ¬fits ∧ cut.2 = .error (.stream .full) ∧
          (outLimit = some cut.1.out.taken.size ∨ errLimit = some cut.1.err.taken.size) ∧
          ∃ before write rest, sessionWrites listing input = before ++ write :: rest ∧
            (start.after before).send write = (cut.1, false)) := by
  intro start whole cut fits
  have hwhole : whole = ((Console.fresh useColor).after (sessionWrites listing input),
      sessionResult input) := run_fresh listing useColor input
  have hcut := run_eq_sendAll listing start input
  have hout : whole.1.out.taken = (start.after (sessionWrites listing input)).out.taken := by
    rw [hwhole]
    rfl
  have herr : whole.1.err.taken = (start.after (sessionWrites listing input)).err.taken := by
    rw [hwhole]
    rfl
  by_cases hfits : (start.after (sessionWrites listing input)).Within
  · rw [Console.sendAll_of_within hfits] at hcut
    have hpair : cut = (start.after (sessionWrites listing input), sessionResult input) := hcut
    refine ⟨?_, .inl ⟨⟨hout ▸ hfits.out, herr ▸ hfits.err⟩, ?_, ?_, ?_⟩⟩
    · rw [hpair, hwhole]
      exact ⟨List.prefix_rfl, List.prefix_rfl⟩
    · rw [hpair, hwhole]
    · rw [hpair, hout]
    · rw [hpair, herr]
  · have hstart : start.Within := ⟨fun _ _ ↦ Nat.zero_le _, fun _ _ ↦ Nat.zero_le _⟩
    obtain ⟨hfalse, hrefused, hfull, hfront⟩ := hstart.stopsAt hfits
    simp only [hfalse, Bool.false_eq_true, if_false] at hcut
    have hpair : cut = ((start.sendAll (sessionWrites listing input)).1,
        .error (.stream .full)) := hcut
    refine ⟨?_, .inr ⟨fun h ↦ hfits ⟨hout ▸ h.1, herr ▸ h.2⟩, ?_, ?_, ?_⟩⟩
    · rw [hpair]
      exact ⟨hout ▸ hfront.out, herr ▸ hfront.err⟩
    · rw [hpair]
    · rw [hpair]
      exact hfull
    · obtain ⟨before, write, rest, hwrites, -, hsend⟩ := hrefused
      rw [hpair]
      exact ⟨before, write, rest, hwrites, hsend⟩

end CExpr.Session
