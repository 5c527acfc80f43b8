import ScriptMachine.Word

/-!
# UTF-8

Names arrive as bytes.  `Utf8.parts` splits a byte string into characters and ill-formed parts, each
part as long as it can be while still beginning some character.  Two readings share it: the
forgiving one shows every ill-formed part as one replacement character, the strict one reports the
first of them with its position.
-/

namespace ScriptMachine.Utf8

/-- One piece of a byte string. -/
inductive Part where
  /-- A well-formed character. -/
  | char (c : Char)
  /-- An ill-formed part of so many bytes. -/
  | broken (length : Nat)
  /-- The start of a character at the end of the bytes. -/
  | unfinished
deriving DecidableEq

/-- How many bytes follow a first byte, and the range the second byte has to lie in. -/
def follow (b : UInt8) : Option (Nat × UInt8 × UInt8) :=
  if 0xC2 ≤ b ∧ b ≤ 0xDF then some (1, 0x80, 0xBF)
  else if b = 0xE0 then some (2, 0xA0, 0xBF)
  else if b = 0xED then some (2, 0x80, 0x9F)
  else if 0xE1 ≤ b ∧ b ≤ 0xEF then some (2, 0x80, 0xBF)
  else if b = 0xF0 then some (3, 0x90, 0xBF)
  else if 0xF1 ≤ b ∧ b ≤ 0xF3 then some (3, 0x80, 0xBF)
  else if b = 0xF4 then some (3, 0x80, 0x8F)
  else none

/-- Whether a byte continues a character. -/
def continues (b : UInt8) : Bool := 0x80 ≤ b && b ≤ 0xBF

/-- The character with the payload bits of its bytes. -/
def assemble (lead : Nat) (tail : Bytes) : Char :=
  Char.ofNat (tail.foldl (fun n b => n * 64 + (b.toNat % 64)) lead)

/-- The characters and ill-formed parts of a byte string, in order. -/
def parts : Bytes → List Part
  | [] => []
  | a :: rest =>
    if a < 0x80 then .char (Char.ofNat a.toNat) :: parts rest
    else
      match follow a with
      | none => .broken 1 :: parts rest
      | some (n, low, high) =>
        match rest with
        | [] => [.unfinished]
        | b :: rest₁ =>
          if low ≤ b ∧ b ≤ high then
            if n = 1 then .char (assemble (a.toNat % 32) [b]) :: parts rest₁
            else
              match rest₁ with
              | [] => [.unfinished]
              | c :: rest₂ =>
                if continues c then
                  if n = 2 then .char (assemble (a.toNat % 16) [b, c]) :: parts rest₂
                  else
                    match rest₂ with
                    | [] => [.unfinished]
                    | d :: rest₃ =>
                      if continues d then
                        .char (assemble (a.toNat % 8) [b, c, d]) :: parts rest₃
                      else .broken 3 :: parts (d :: rest₃)
                else .broken 2 :: parts (c :: rest₂)
          else .broken 1 :: parts (b :: rest₁)

/-- The UTF-8 bytes of a text. -/
def encode (s : String) : Bytes := s.toList.flatMap String.utf8EncodeChar

/-- The text of a byte string, with one replacement character for each ill-formed part. -/
def lossy (bytes : Bytes) : String :=
  String.ofList <| (parts bytes).map fun
    | .char c => c
    | _ => Char.ofNat 0xFFFD

/-- The first ill-formed part of a byte string. -/
structure Fault where
  /-- Where it begins. -/
  offset : Nat
  /-- Its length; none when the bytes end inside a character. -/
  length : Option Nat
deriving DecidableEq

/-- The wording of a fault. -/
def Fault.message (f : Fault) : String :=
  match f.length with
  | some n => s!"invalid utf-8 sequence of {n} bytes from index {f.offset}"
  | none => s!"incomplete utf-8 byte sequence from index {f.offset}"

/-- The text of parts that are all characters, or the first that is not. -/
def collect : Nat → List Part → Except Fault (List Char)
  | _, [] => .ok []
  | offset, .char c :: rest =>
    match collect (offset + c.utf8Size) rest with
    | .ok cs => .ok (c :: cs)
    | .error f => .error f
  | offset, .broken n :: _ => .error ⟨offset, some n⟩
  | offset, .unfinished :: _ => .error ⟨offset, none⟩

/-- The text of well-formed bytes. -/
def decode (bytes : Bytes) : Except Fault String := (collect 0 (parts bytes)).map String.ofList

end ScriptMachine.Utf8
