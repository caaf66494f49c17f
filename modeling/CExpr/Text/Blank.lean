/-!
# White space

The characters with the Unicode property White_Space, and the lines that hold nothing else.
-/

namespace CExpr.Text

/-- The 25 code points of the property White_Space. -/
def isWhiteSpace (c : Char) : Bool :=
  let n := c.toNat
  (0x09 ≤ n && n ≤ 0x0D) || n == 0x20 || n == 0x85 || n == 0xA0 || n == 0x1680 ||
    (0x2000 ≤ n && n ≤ 0x200A) || n == 0x2028 || n == 0x2029 || n == 0x202F || n == 0x205F ||
    n == 0x3000

/-- A line without any character outside White_Space, the empty line among them. -/
def isBlank (line : String) : Bool := line.toList.all isWhiteSpace

end CExpr.Text
