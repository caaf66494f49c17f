import CExpr.Palette

/-!
# Writes

A session writes to two streams. A write names its stream and may ask for a colour, and whether
colours are shown is decided only when it is sent. So what a session has to say does not depend on
the terminal.
-/

namespace CExpr.Session

inductive Channel
  | out | err
  deriving DecidableEq, Repr

structure Write where
  channel : Channel
  color : Option Color
  text : String
  deriving DecidableEq, Repr

namespace Write

/-- Text for the results. -/
def result (text : String) : Write := ⟨.out, none, text⟩

/-- Text for the messages. -/
def note (text : String) : Write := ⟨.err, none, text⟩

/-- Coloured text for the messages. -/
def styled (color : Color) (text : String) : Write := ⟨.err, some color, text⟩

/-- What is sent to the stream. -/
def shown (useColor : Bool) (write : Write) : String :=
  match write.color with
  | some color => if useColor then color.paint write.text else write.text
  | none => write.text

def bytes (useColor : Bool) (write : Write) : ByteArray := (write.shown useColor).toUTF8

end Write

end CExpr.Session
