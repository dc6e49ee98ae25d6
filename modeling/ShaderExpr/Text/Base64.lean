/-!
# Base 64

Bytes are written as characters of which each stands for six bits, four characters for three bytes. Where
there are no more bytes, the last group of four is filled up with equality signs.
-/

namespace ShaderExpr.Text

/-- The six bits that a character stands for. -/
def sixBits? (c : Char) : Option Nat :=
  if c.isUpper then some (c.toNat - 'A'.toNat)
  else if c.isLower then some (c.toNat - 'a'.toNat + 26)
  else if c.isDigit then some (c.toNat - '0'.toNat + 52)
  else if c == '+' then some 62
  else if c == '/' then some 63
  else none

/-- The number that characters stand for together. -/
def bits? (cs : List Char) : Option Nat :=
  cs.foldlM (fun n c => (sixBits? c).map (64 * n + ·)) 0

/-- The bytes that characters stand for, in groups of four. -/
def groupBytes? : List Char → Option (List Nat)
  | [] => some []
  | [a, b, '=', '='] => (bits? [a, b]).map fun n => [n / 16]
  | [a, b, c, '='] => (bits? [a, b, c]).map fun n => [n / 1024, n / 4]
  | a :: b :: c :: d :: rest => do
    let n ← bits? [a, b, c, d]
    let bytes ← groupBytes? rest
    return n / 65536 :: n / 256 :: n :: bytes
  | _ => none

/-- The text whose bytes are written in base 64. Line ends count for nothing. -/
def base64? (s : String) : Option String := do
  let bytes ← groupBytes? (s.toList.filter fun c => c != '\n' && c != '\r')
  String.fromUTF8? ⟨(bytes.map UInt8.ofNat).toArray⟩

end ShaderExpr.Text
