import CExpr.Session.Write

/-!
# Consoles

A console is the two streams that writes are sent to, and whether it shows colours. A stream may be
closed after a number of bytes. It then takes as much of a write as still fits and refuses the rest,
and what follows a refused write is not sent.
-/

namespace CExpr.Session

/-- The bytes that reached a stream, and how many it takes at most. -/
structure Sink where
  limit : Option Nat
  taken : ByteArray

namespace Sink

def fresh (limit : Option Nat) : Sink := ⟨limit, .empty⟩

/-- How many bytes of a write still fit. -/
def room (sink : Sink) (wanted : Nat) : Nat :=
  match sink.limit with
  | some most => min wanted (most - sink.taken.size)
  | none => wanted

/-- Takes what fits, and tells whether that was everything. -/
def send (sink : Sink) (bytes : ByteArray) : Sink × Bool :=
  let fits := sink.room bytes.size
  ({ sink with taken := sink.taken ++ bytes.extract 0 fits }, fits == bytes.size)

/-- What was taken of a write is a first part of it, after what was taken before. -/
theorem toList_taken_send (sink : Sink) (bytes : ByteArray) :
    (sink.send bytes).1.taken.data.toList =
      sink.taken.data.toList ++ bytes.data.toList.take (sink.room bytes.size) := by
  simp [send]

/-- A stream without a limit takes every write whole. -/
theorem send_of_limit_none {sink : Sink} (h : sink.limit = none) (bytes : ByteArray) :
    sink.send bytes = ({ sink with taken := sink.taken ++ bytes }, true) := by
  simp [send, room, h]

end Sink

structure Console where
  useColor : Bool
  out : Sink
  err : Sink

namespace Console

/-- Sends one write to its stream, and tells whether it was taken whole. -/
def send (console : Console) (write : Write) : Console × Bool :=
  match write.channel with
  | .out =>
    let (sink, whole) := console.out.send (write.bytes console.useColor)
    ({ console with out := sink }, whole)
  | .err =>
    let (sink, whole) := console.err.send (write.bytes console.useColor)
    ({ console with err := sink }, whole)

/-- Sends writes in order up to the first that is not taken whole. -/
def sendAll (console : Console) : List Write → Console × Bool
  | [] => (console, true)
  | write :: writes =>
    let (console, whole) := console.send write
    if whole then console.sendAll writes else (console, false)

end Console

end CExpr.Session
