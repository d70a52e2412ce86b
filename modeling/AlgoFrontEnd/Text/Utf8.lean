import AlgoFrontEnd.Text.Quoted

/-! UTF-8, and its strict decoding with the place and reason of the first fault. -/
namespace AlgoFrontEnd.Text.Utf8

inductive Reason where
  | invalidStart
  | invalidContinuation
  | unexpectedEnd
  deriving DecidableEq, Repr

def Reason.text : Reason → String
  | .invalidStart => "invalid start byte"
  | .invalidContinuation => "invalid continuation byte"
  | .unexpectedEnd => "unexpected end of data"

/-- The bytes of a character that could not be finished, without the byte that ruled it out. -/
structure Fault where
  position : Nat
  bytes : List UInt8
  reason : Reason
  deriving DecidableEq, Repr

/-- A single byte is shown; of several only the positions are given. -/
def Fault.message (f : Fault) : String :=
  let place := match f.bytes with
    | [byte] =>
      s!"byte 0x{String.ofList (hexDigits 2 byte.toNat)} in position {f.position}"
    | bytes => s!"bytes in position {f.position}-{f.position + bytes.length - 1}"
  s!"'utf-8' codec can't decode {place}: {f.reason.text}"

/-- A character begun: the bytes read so far, the number still owed, the range of the next one,
and the value of the bits read. -/
structure Begun where
  read : List UInt8
  owed : Nat
  low : Nat
  high : Nat
  value : Nat

/-- What a first byte announces. The range of the second byte excludes overlong forms,
surrogates and values past the last code point. -/
def Begun.first? (byte : UInt8) : Option Begun :=
  let b := byte.toNat
  if b < 0x80 then some ⟨[byte], 0, 0, 0, b⟩
  else if b < 0xC2 then none
  else if b < 0xE0 then some ⟨[byte], 1, 0x80, 0xBF, b - 0xC0⟩
  else if b < 0xF0 then
    some ⟨[byte], 2, if b = 0xE0 then 0xA0 else 0x80, if b = 0xED then 0x9F else 0xBF, b - 0xE0⟩
  else if b < 0xF5 then
    some ⟨[byte], 3, if b = 0xF0 then 0x90 else 0x80, if b = 0xF4 then 0x8F else 0xBF, b - 0xF0⟩
  else none

def Begun.next? (c : Begun) (byte : UInt8) : Option Begun :=
  let b := byte.toNat
  if c.low ≤ b && b ≤ c.high then
    some ⟨c.read ++ [byte], c.owed - 1, 0x80, 0xBF, c.value * 64 + (b - 0x80)⟩
  else none

/-- Decodes from a position on, after the bytes of a character that is not finished yet. -/
def decodeFrom (position : Nat) : Option Begun → List UInt8 → Except Fault (List Char)
  | none, [] => .ok []
  | some c, [] => .error ⟨position, c.read, .unexpectedEnd⟩
  | none, byte :: rest =>
    match Begun.first? byte with
    | none => .error ⟨position, [byte], .invalidStart⟩
    | some c =>
      if c.owed = 0 then (Char.ofNat c.value :: ·) <$> decodeFrom (position + 1) none rest
      else decodeFrom position (some c) rest
  | some c, byte :: rest =>
    match c.next? byte with
    | none => .error ⟨position, c.read, .invalidContinuation⟩
    | some c =>
      if c.owed = 0 then
        (Char.ofNat c.value :: ·) <$> decodeFrom (position + c.read.length) none rest
      else decodeFrom position (some c) rest

def decode (bytes : List UInt8) : Except Fault (List Char) := decodeFrom 0 none bytes

/-- The bytes of a text. -/
def encode (text : String) : List UInt8 := text.toUTF8.data.toList

end AlgoFrontEnd.Text.Utf8
