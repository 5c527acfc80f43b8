import ScriptMachine.Word

/-!
# Reading JSON

Settings are kept in JSON files.  A document is read into a `JsonValue`, which keeps the members of
an object in order and with repetitions, and of a number only whether it is an integer and which
one.
-/

namespace ScriptMachine

/-- A JSON document. -/
inductive JsonValue where
  | null
  | bool (b : Bool)
  | integer (i : Int)
  /-- A number with a fraction or an exponent, or a negative zero. -/
  | real
  | string (s : String)
  | array (xs : List JsonValue)
  | object (members : List (String × JsonValue))
deriving Inhabited

namespace JsonValue

/-- The text without blanks in front. -/
def skipBlanks (cs : List Char) : List Char :=
  cs.dropWhile fun c => c == ' ' || c == '\t' || c == '\n' || c == '\r'

/-- The value of a hexadecimal digit. -/
def hexDigit? (c : Char) : Option Nat :=
  if '0' ≤ c ∧ c ≤ '9' then some (c.toNat - '0'.toNat)
  else if 'a' ≤ c ∧ c ≤ 'f' then some (c.toNat - 'a'.toNat + 10)
  else if 'A' ≤ c ∧ c ≤ 'F' then some (c.toNat - 'A'.toNat + 10)
  else none

/-- The value of four hexadecimal digits. -/
def hex4? (a b c d : Char) : Option Nat := do
  return (((← hexDigit? a) * 16 + (← hexDigit? b)) * 16 + (← hexDigit? c)) * 16 + (← hexDigit? d)

/-- The character of a one-letter escape. -/
def escape? (c : Char) : Option Char :=
  match c with
  | '"' => some '"'
  | '\\' => some '\\'
  | '/' => some '/'
  | 'b' => some '\x08'
  | 'f' => some '\x0c'
  | 'n' => some '\n'
  | 'r' => some '\r'
  | 't' => some '\t'
  | _ => none

/-- The characters of a string up to its closing quote, and the text after it. -/
def stringBody : List Char → Option (List Char × List Char)
  | [] => none
  | '"' :: rest => some ([], rest)
  | '\\' :: 'u' :: a :: b :: c :: d :: rest =>
    match hex4? a b c d with
    | none => none
    | some n =>
      if 0xD800 ≤ n ∧ n < 0xDC00 then
        match rest with
        | '\\' :: 'u' :: e :: f :: g :: h :: rest =>
          match hex4? e f g h with
          | none => none
          | some low =>
            if 0xDC00 ≤ low ∧ low < 0xE000 then
              (stringBody rest).map fun (s, r) =>
                (Char.ofNat (0x10000 + (n - 0xD800) * 0x400 + (low - 0xDC00)) :: s, r)
            else none
        | _ => none
      else if 0xDC00 ≤ n ∧ n < 0xE000 then none
      else (stringBody rest).map fun (s, r) => (Char.ofNat n :: s, r)
  | '\\' :: c :: rest =>
    match escape? c with
    | none => none
    | some c => (stringBody rest).map fun (s, r) => (c :: s, r)
  | c :: rest => if c.toNat < 0x20 then none else (stringBody rest).map fun (s, r) => (c :: s, r)

/-- The digits in front, and the text after them. -/
def digits (cs : List Char) : List Char × List Char := cs.span Char.isDigit

/-- The number that digits stand for. -/
def digitValue (cs : List Char) : Nat := cs.foldl (fun n c => n * 10 + (c.toNat - '0'.toNat)) 0

/-- The text after a fraction, if one stands in front; none where it has no digits. -/
def fraction (cs : List Char) : Option (Bool × List Char) :=
  match cs with
  | '.' :: rest =>
    match digits rest with
    | ([], _) => none
    | (_, rest) => some (true, rest)
  | cs => some (false, cs)

/-- The text after an exponent, if one stands in front; none where it has no digits. -/
def exponent (cs : List Char) : Option (Bool × List Char) :=
  let after (rest : List Char) : Option (Bool × List Char) :=
    match digits rest with
    | ([], _) => none
    | (_, rest) => some (true, rest)
  match cs with
  | 'e' :: '+' :: rest | 'E' :: '+' :: rest | 'e' :: '-' :: rest | 'E' :: '-' :: rest => after rest
  | 'e' :: rest | 'E' :: rest => after rest
  | cs => some (false, cs)

/-- A number, and the text after it. -/
def number (cs : List Char) : Option (JsonValue × List Char) := do
  let (negative, cs) := match cs with
    | '-' :: rest => (true, rest)
    | cs => (false, cs)
  let (whole, rest) := digits cs
  if whole.isEmpty ∨ (whole.head? = some '0' ∧ 1 < whole.length) then none
  else
    let (hasFraction, rest) ← fraction rest
    let (hasExponent, rest) ← exponent rest
    let n := digitValue whole
    if hasFraction ∨ hasExponent ∨ (negative ∧ n = 0) then some (.real, rest)
    else some (.integer (if negative then -(n : Int) else n), rest)

mutual

/-- The value in front, and the text after it. -/
def value : (fuel : Nat) → List Char → Option (JsonValue × List Char)
  | 0, _ => none
  | fuel + 1, cs =>
    match skipBlanks cs with
    | '\x7b' :: rest =>
      match skipBlanks rest with
      | '\x7d' :: rest => some (.object [], rest)
      | rest => (members fuel rest).map fun (ms, rest) => (.object ms, rest)
    | '[' :: rest =>
      match skipBlanks rest with
      | ']' :: rest => some (.array [], rest)
      | rest => (elements fuel rest).map fun (xs, rest) => (.array xs, rest)
    | '"' :: rest => (stringBody rest).map fun (s, rest) => (.string (String.ofList s), rest)
    | 't' :: 'r' :: 'u' :: 'e' :: rest => some (.bool true, rest)
    | 'f' :: 'a' :: 'l' :: 's' :: 'e' :: rest => some (.bool false, rest)
    | 'n' :: 'u' :: 'l' :: 'l' :: rest => some (.null, rest)
    | cs => number cs

/-- The rest of an array. -/
def elements : (fuel : Nat) → List Char → Option (List JsonValue × List Char)
  | 0, _ => none
  | fuel + 1, cs =>
    match value fuel cs with
    | none => none
    | some (x, rest) =>
      match skipBlanks rest with
      | ',' :: rest => (elements fuel rest).map fun (xs, rest) => (x :: xs, rest)
      | ']' :: rest => some ([x], rest)
      | _ => none

/-- The rest of an object. -/
def members : (fuel : Nat) → List Char → Option (List (String × JsonValue) × List Char)
  | 0, _ => none
  | fuel + 1, cs =>
    match skipBlanks cs with
    | '"' :: rest =>
      match stringBody rest with
      | none => none
      | some (key, rest) =>
        match skipBlanks rest with
        | ':' :: rest =>
          match value fuel rest with
          | none => none
          | some (x, rest) =>
            let member := (String.ofList key, x)
            match skipBlanks rest with
            | ',' :: rest => (members fuel rest).map fun (ms, rest) => (member :: ms, rest)
            | '\x7d' :: rest => some ([member], rest)
            | _ => none
        | _ => none
    | _ => none

end

/-- The document a text is, to the last character. -/
def parse? (text : String) : Option JsonValue :=
  let cs := text.toList
  match value (2 * cs.length + 2) cs with
  | some (v, rest) => if (skipBlanks rest).isEmpty then some v else none
  | none => none

/-- A natural number below a bound. -/
def nat? (bound : Nat) : JsonValue → Option Nat
  | integer i => if 0 ≤ i ∧ i.toNat < bound then some i.toNat else none
  | _ => none

/-- A word. -/
def word? (v : JsonValue) : Option Word := (v.nat? UInt32.size).map UInt32.ofNat

/-- A truth value. -/
def bool? : JsonValue → Option Bool
  | bool b => some b
  | _ => none

/-- One of several names: a string, or an object with the name as its only key and nothing under
it. -/
def choice? : JsonValue → Option String
  | string s => some s
  | object [(s, null)] => some s
  | _ => none

/-- The fields of a record, in the order given: the values of an object under their names, or those
of an array in order.  A field may be missing.  Names that are not fields are ignored, but a field
given twice and an array that is too long are refused. -/
def fields? (names : List String) : JsonValue → Option (List (Option JsonValue))
  | object ms =>
    if names.all fun n => (ms.filter fun m => m.1 == n).length ≤ 1 then
      some (names.map fun n => ms.lookup n)
    else none
  | array xs =>
    if xs.length ≤ names.length then
      some (xs.map some ++ List.replicate (names.length - xs.length) none)
    else none
  | _ => none

end JsonValue

end ScriptMachine
