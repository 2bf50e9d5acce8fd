import ScriptTypes.Json.Basic

/-! Two machines that each take one input at a time: characters become tokens, tokens become a
value. A number with a point or an exponent is a double, and `Infinity`, `-Infinity` and `NaN` are
accepted as doubles. -/

namespace ScriptTypes.Json

inductive Token where
  | openList
  | closeList
  | openObject
  | closeObject
  | comma
  | colon
  | value (j : Json)

namespace Token

def punctuation : Char → Option Token
  | '[' => some openList
  | ']' => some closeList
  | '\x7b' => some openObject
  | '\x7d' => some closeObject
  | ',' => some comma
  | ':' => some colon
  | _ => none

def isBlank (c : Char) : Bool := c = ' ' || c = '\n' || c = '\r' || c = '\t'

def natOfDigits (digits : List Char) : Nat :=
  digits.foldl (fun n c => 10 * n + (c.toNat - '0'.toNat)) 0

/-- The digits at the front, at least one, and what follows them. -/
def digits? (cs : List Char) : Option (List Char × List Char) :=
  match cs.span Char.isDigit with
  | ([], _) => none
  | found => some found

/-- The value of an exponent part, and what follows it. -/
def exponent? : List Char → Option (Int × List Char)
  | '-' :: cs => (digits? cs).map fun (ds, rest) => (-(natOfDigits ds : Int), rest)
  | '+' :: cs => (digits? cs).map fun (ds, rest) => ((natOfDigits ds : Int), rest)
  | cs => (digits? cs).map fun (ds, rest) => ((natOfDigits ds : Int), rest)

/-- The exponent that ends a number. -/
def ending? : List Char → Option Int
  | [] => some 0
  | c :: cs =>
    if c = 'e' ∨ c = 'E' then
      match exponent? cs with
      | some (e, []) => some e
      | _ => none
    else none

def unsigned? (negative : Bool) (cs : List Char) : Option Json := do
  let (whole, rest) ← digits? cs
  if whole.head? = some '0' ∧ 1 < whole.length then none
  match rest with
  | [] => return int (if negative then -(natOfDigits whole : Int) else natOfDigits whole)
  | '.' :: rest =>
    let (fraction, rest) ← digits? rest
    let e ← ending? rest
    return double (Binary64.ofDecimal negative (natOfDigits (whole ++ fraction))
      (e - fraction.length))
  | rest =>
    let e ← ending? rest
    return double (Binary64.ofDecimal negative (natOfDigits whole) e)

def word? (cs : List Char) : Option Json :=
  match String.ofList cs with
  | "null" => some null
  | "true" => some (bool true)
  | "false" => some (bool false)
  | "Infinity" => some (double (Binary64.ofMagnitude false Binary64.infiniteMagnitude))
  | "-Infinity" => some (double (Binary64.ofMagnitude true Binary64.infiniteMagnitude))
  | "NaN" => some (double (Binary64.ofMagnitude false (Binary64.infiniteMagnitude + 1)))
  | _ =>
    match cs with
    | '-' :: rest => unsigned? true rest
    | _ => unsigned? false cs

end Token

/-- Where the scanner stands; what it has read of a text or word is held last first. -/
inductive ScanMode where
  | between
  | word (read : List Char)
  | inText (read : List Nat)
  | escape (read : List Nat)
  | unit (read : List Nat) (digits value : Nat)

structure Scanner where
  mode : ScanMode
  /-- Last first. -/
  tokens : List Token

namespace Scanner

/-- Adds a code unit, joining the halves of a pair. -/
def addUnit (read : List Nat) (unit : Nat) : List Nat :=
  match read with
  | high :: rest =>
    if 0xd800 ≤ high ∧ high < 0xdc00 ∧ 0xdc00 ≤ unit ∧ unit < 0xe000 then
      (0x10000 + (high - 0xd800) * 0x400 + (unit - 0xdc00)) :: rest
    else unit :: read
  | [] => [unit]

def hexDigit? (c : Char) : Option Nat :=
  if c.isDigit then some (c.toNat - '0'.toNat)
  else if 'a' ≤ c ∧ c ≤ 'f' then some (c.toNat - 'a'.toNat + 10)
  else if 'A' ≤ c ∧ c ≤ 'F' then some (c.toNat - 'A'.toNat + 10)
  else none

def escape? : Char → Option Nat
  | '\"' => some 0x22
  | '\\' => some 0x5c
  | '/' => some 0x2f
  | 'b' => some 0x08
  | 'f' => some 0x0c
  | 'n' => some 0x0a
  | 'r' => some 0x0d
  | 't' => some 0x09
  | _ => none

def begin (tokens : List Token) (c : Char) : Scanner :=
  if Token.isBlank c then ⟨.between, tokens⟩
  else if c = '\"' then ⟨.inText [], tokens⟩
  else
    match Token.punctuation c with
    | some token => ⟨.between, token :: tokens⟩
    | none => ⟨.word [c], tokens⟩

def endsWord (c : Char) : Bool :=
  Token.isBlank c || c = '\"' || (Token.punctuation c).isSome

def advance (s : Scanner) (c : Char) : Option Scanner :=
  match s.mode with
  | .between => some (begin s.tokens c)
  | .word read =>
    if endsWord c then do
      let j ← Token.word? read.reverse
      return begin (.value j :: s.tokens) c
    else some ⟨.word (c :: read), s.tokens⟩
  | .inText read =>
    if c = '\"' then
      some ⟨.between, .value (text (String.ofList (read.reverse.map Char.ofNat))) :: s.tokens⟩
    else if c = '\\' then some ⟨.escape read, s.tokens⟩
    else if c.toNat < 0x20 then none
    else some ⟨.inText (c.toNat :: read), s.tokens⟩
  | .escape read =>
    if c = 'u' then some ⟨.unit read 0 0, s.tokens⟩
    else (escape? c).map fun unit => ⟨.inText (unit :: read), s.tokens⟩
  | .unit read digits value =>
    (hexDigit? c).map fun digit =>
      if digits = 3 then ⟨.inText (addUnit read (16 * value + digit)), s.tokens⟩
      else ⟨.unit read (digits + 1) (16 * value + digit), s.tokens⟩

def finish? (s : Scanner) : Option (List Token) :=
  match s.mode with
  | .between => some s.tokens.reverse
  | .word read => (Token.word? read.reverse).map fun j => (.value j :: s.tokens).reverse
  | _ => none

end Scanner

/-- A list or object under construction, its parts last first. -/
inductive Frame where
  | list (items : List Json)
  | object (fields : List (String × Json)) (key : String)

/-- What may come next. -/
inductive Due where
  | value
  | itemOrEnd
  | keyOrEnd
  | key
  | colon
  | commaOrEnd
  | nothing (result : Json)

structure Builder where
  stack : List Frame
  due : Due

namespace Builder

/-- Hands a finished value to the frame that waits for it. -/
def complete (stack : List Frame) (j : Json) : Builder :=
  match stack with
  | [] => ⟨[], .nothing j⟩
  | .list items :: rest => ⟨.list (j :: items) :: rest, .commaOrEnd⟩
  | .object fields key :: rest => ⟨.object ((key, j) :: fields) "" :: rest, .commaOrEnd⟩

def beginValue (stack : List Frame) : Token → Option Builder
  | .value j => some (complete stack j)
  | .openList => some ⟨.list [] :: stack, .itemOrEnd⟩
  | .openObject => some ⟨.object [] "" :: stack, .keyOrEnd⟩
  | _ => none

def beginKey (stack : List Frame) : Token → Option Builder
  | .value (.text key) =>
    match stack with
    | .object fields _ :: rest => some ⟨.object fields key :: rest, .colon⟩
    | _ => none
  | _ => none

def close (stack : List Frame) : Token → Option Builder
  | .closeList =>
    match stack with
    | .list items :: rest => some (complete rest (Json.list items.reverse))
    | _ => none
  | .closeObject =>
    match stack with
    | .object fields _ :: rest => some (complete rest (Json.object fields.reverse))
    | _ => none
  | _ => none

def separate (stack : List Frame) : Option Builder :=
  match stack with
  | .list _ :: _ => some ⟨stack, .value⟩
  | .object _ _ :: _ => some ⟨stack, .key⟩
  | [] => none

def advance (b : Builder) (t : Token) : Option Builder :=
  match b.due, t with
  | .value, _ => beginValue b.stack t
  | .itemOrEnd, .closeList => close b.stack t
  | .itemOrEnd, _ => beginValue b.stack t
  | .keyOrEnd, .closeObject => close b.stack t
  | .keyOrEnd, _ => beginKey b.stack t
  | .key, _ => beginKey b.stack t
  | .colon, .colon => some ⟨b.stack, .value⟩
  | .colon, _ => none
  | .commaOrEnd, .comma => separate b.stack
  | .commaOrEnd, _ => close b.stack t
  | .nothing _, _ => none

end Builder

def tokens? (s : String) : Option (List Token) :=
  (s.toList.foldlM Scanner.advance ⟨.between, []⟩).bind Scanner.finish?

/-- The value that a whole text spells. -/
def parse? (s : String) : Option Json := do
  let b ← (← tokens? s).foldlM Builder.advance ⟨[], .value⟩
  match b.due with
  | .nothing j => some j
  | _ => none

end ScriptTypes.Json
