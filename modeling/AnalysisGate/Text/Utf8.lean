/-!
Bytes as text.

`decode?` reads bytes that are all of a text. `decodeLossy` reads any bytes: each longest start
of a character that does not go on as one becomes a replacement character.
-/
namespace AnalysisGate.Utf8

def decode? (bytes : ByteArray) : Option String := String.fromUTF8? bytes

/-- The replacement character. -/
def replacement : Char := '\ufffd'

/-- How many bytes follow a first byte, its share of the code point, and the range of the byte
after it. -/
def lead? (b : Nat) : Option (Nat × Nat × Nat × Nat) :=
  if 0xc2 ≤ b && b ≤ 0xdf then some (1, b - 0xc0, 0x80, 0xbf)
  else if b = 0xe0 then some (2, 0, 0xa0, 0xbf)
  else if b = 0xed then some (2, 0xd, 0x80, 0x9f)
  else if 0xe1 ≤ b && b ≤ 0xef then some (2, b - 0xe0, 0x80, 0xbf)
  else if b = 0xf0 then some (3, 0, 0x90, 0xbf)
  else if 0xf1 ≤ b && b ≤ 0xf3 then some (3, b - 0xf0, 0x80, 0xbf)
  else if b = 0xf4 then some (3, 4, 0x80, 0x8f)
  else none

/-- Read on: between characters when nothing is due, else with bytes due, the code point so far,
and the range of the next byte. -/
def decodeFrom : (due code low high : Nat) → List UInt8 → List Char
  | due, _, _, _, [] => if due = 0 then [] else [replacement]
  | due, code, low, high, b :: rest =>
    let n := b.toNat
    let fresh :=
      if n < 0x80 then Char.ofNat n :: decodeFrom 0 0 0 0 rest
      else
        match lead? n with
        | some (due, code, low, high) => decodeFrom due code low high rest
        | none => replacement :: decodeFrom 0 0 0 0 rest
    if due = 0 then fresh
    else if low ≤ n && n ≤ high then
      let code := 0x40 * code + (n - 0x80)
      if due = 1 then Char.ofNat code :: decodeFrom 0 0 0 0 rest
      else decodeFrom (due - 1) code 0x80 0xbf rest
    else replacement :: fresh

def decodeLossy (bytes : ByteArray) : String :=
  match decode? bytes with
  | some s => s
  | none => String.ofList (decodeFrom 0 0 0 0 bytes.toList)

end AnalysisGate.Utf8
