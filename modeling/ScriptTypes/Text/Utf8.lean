import ScriptTypes.Text.Quoted

/-! Bytes are decoded character by character. A refusal names the bytes that belong to the first
ill-formed character and says what is wrong with them. -/

namespace ScriptTypes.Text.Utf8

inductive Flaw where
  | startByte
  | continuationByte
  | endOfData
  deriving DecidableEq, Repr

structure Refusal where
  position : Nat
  /-- The bytes refused, the first of them first. -/
  bytes : List Nat
  flaw : Flaw
  deriving DecidableEq, Repr

def Flaw.text : Flaw → String
  | startByte => "invalid start byte"
  | continuationByte => "invalid continuation byte"
  | endOfData => "unexpected end of data"

def Refusal.message (r : Refusal) : String :=
  let span := match r.bytes with
    | [byte] =>
      "byte 0x" ++ String.ofList (hexadecimal 2 byte) ++ " in position " ++ toString r.position
    | bytes =>
      "bytes in position " ++ toString r.position ++ "-" ++
        toString (r.position + bytes.length - 1)
  "'utf-8' codec can't decode " ++ span ++ ": " ++ r.flaw.text

/-- The continuation bytes that may follow the bytes of a character read so far. -/
def continuation (lead : Nat) (isSecond : Bool) : Nat × Nat :=
  if isSecond then
    if lead = 0xe0 then (0xa0, 0xbf)
    else if lead = 0xed then (0x80, 0x9f)
    else if lead = 0xf0 then (0x90, 0xbf)
    else if lead = 0xf4 then (0x80, 0x8f)
    else (0x80, 0xbf)
  else (0x80, 0xbf)

/-- How many bytes follow a lead byte, with the bits it contributes. -/
def lead? (byte : Nat) : Option (Nat × Nat) :=
  if byte < 0x80 then some (0, byte)
  else if 0xc2 ≤ byte ∧ byte < 0xe0 then some (1, byte - 0xc0)
  else if 0xe0 ≤ byte ∧ byte < 0xf0 then some (2, byte - 0xe0)
  else if 0xf0 ≤ byte ∧ byte < 0xf5 then some (3, byte - 0xf0)
  else none

/-- A character of which bytes are still owed. -/
structure Pending where
  /-- The last byte first. -/
  bytes : List Nat
  lead : Nat
  owed : Nat
  value : Nat

structure Decoder where
  position : Nat
  pending : Option Pending
  /-- The last character first. -/
  chars : List Char

namespace Decoder

def begin (d : Decoder) (byte : Nat) : Except Refusal Decoder :=
  match lead? byte with
  | none => .error ⟨d.position, [byte], .startByte⟩
  | some (0, value) => .ok ⟨d.position + 1, none, Char.ofNat value :: d.chars⟩
  | some (owed, value) => .ok ⟨d.position + 1, some ⟨[byte], byte, owed, value⟩, d.chars⟩

def advance (d : Decoder) (byte : Nat) : Except Refusal Decoder :=
  match d.pending with
  | none => d.begin byte
  | some p =>
    let range := continuation p.lead (p.bytes.length = 1)
    if range.1 ≤ byte ∧ byte ≤ range.2 then
      let value := 0x40 * p.value + (byte - 0x80)
      if p.owed = 1 then .ok ⟨d.position + 1, none, Char.ofNat value :: d.chars⟩
      else .ok ⟨d.position + 1, some ⟨byte :: p.bytes, p.lead, p.owed - 1, value⟩, d.chars⟩
    else .error ⟨d.position - p.bytes.length, p.bytes.reverse, .continuationByte⟩

def finish (d : Decoder) : Except Refusal String :=
  match d.pending with
  | none => .ok (String.ofList d.chars.reverse)
  | some p => .error ⟨d.position - p.bytes.length, p.bytes.reverse, .endOfData⟩

end Decoder

def decode (bytes : List Nat) : Except Refusal String := do
  (← bytes.foldlM Decoder.advance ⟨0, none, []⟩).finish

end ScriptTypes.Text.Utf8
