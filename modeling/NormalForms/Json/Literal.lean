namespace NormalForms.Json

def hexValue? (c : Char) : Option Nat :=
  if '0' ≤ c ∧ c ≤ '9' then some (c.toNat - '0'.toNat)
  else if 'a' ≤ c ∧ c ≤ 'f' then some (c.toNat - 'a'.toNat + 10)
  else if 'A' ≤ c ∧ c ≤ 'F' then some (c.toNat - 'A'.toNat + 10)
  else none

def unescaped? : Char → Option Char
  | '"' => some '"'
  | '\\' => some '\\'
  | '/' => some '/'
  | 'b' => some '\x08'
  | 'f' => some '\x0c'
  | 'n' => some '\n'
  | 'r' => some '\r'
  | 't' => some '\t'
  | _ => none

/-- What one place of a string literal stands for: a character, or a 16-bit unit given by its four digits. -/
inductive Piece where
  | char (c : Char)
  | unit (n : Nat)

def Piece.ofDigits? (a b c d : Char) : Option Piece := do
  return .unit ((((← hexValue? a) * 16 + (← hexValue? b)) * 16 + (← hexValue? c)) * 16 + (← hexValue? d))

def readPieces : List Char → Option (List Piece × List Char)
  | [] => none
  | '"' :: cs => some ([], cs)
  | '\\' :: 'u' :: a :: b :: c :: d :: cs => do
    let piece ← Piece.ofDigits? a b c d
    let (pieces, cs) ← readPieces cs
    return (piece :: pieces, cs)
  | '\\' :: e :: cs => do
    let c ← unescaped? e
    let (pieces, cs) ← readPieces cs
    return (.char c :: pieces, cs)
  | c :: cs => do
    if c = '\\' ∨ c.toNat < 0x20 then none
    let (pieces, cs) ← readPieces cs
    return (.char c :: pieces, cs)

def isHighSurrogate (n : Nat) : Bool :=
  0xd800 ≤ n && n < 0xdc00

def isLowSurrogate (n : Nat) : Bool :=
  0xdc00 ≤ n && n < 0xe000

def assemble? : List Piece → Option (List Char)
  | [] => some []
  | .char c :: pieces => (assemble? pieces).map (c :: ·)
  | .unit m :: pieces =>
    if isHighSurrogate m then
      match pieces with
      | .unit n :: pieces =>
        if isLowSurrogate n then
          (assemble? pieces).map (Char.ofNat (0x10000 + (m - 0xd800) * 0x400 + (n - 0xdc00)) :: ·)
        else none
      | _ => none
    else if isLowSurrogate m then none
    else (assemble? pieces).map (Char.ofNat m :: ·)

def readString (cs : List Char) : Option (Option String × List Char) :=
  (readPieces cs).map fun (pieces, cs) => ((assemble? pieces).map .ofList, cs)

def readDigits (cs : List Char) : Option (List Char × List Char) :=
  match cs.takeWhile Char.isDigit with
  | [] => none
  | digits => some (digits, cs.dropWhile Char.isDigit)

def readSign : List Char → List Char × List Char
  | '-' :: cs => (['-'], cs)
  | cs => ([], cs)

def readFraction : List Char → Option (List Char × List Char)
  | '.' :: cs => (readDigits cs).map fun (digits, cs) => ('.' :: digits, cs)
  | cs => some ([], cs)

def readExponent : List Char → Option (List Char × List Char)
  | c :: cs =>
    if c = 'e' ∨ c = 'E' then
      match cs with
      | '+' :: cs => (readDigits cs).map fun (digits, cs) => (c :: '+' :: digits, cs)
      | '-' :: cs => (readDigits cs).map fun (digits, cs) => (c :: '-' :: digits, cs)
      | cs => (readDigits cs).map fun (digits, cs) => (c :: digits, cs)
    else some ([], c :: cs)
  | [] => some ([], [])

/-- A number literal, and what follows it. No zero stands before another digit of the integer part. -/
def readNumber (cs : List Char) : Option (String × List Char) := do
  let (sign, cs) := readSign cs
  let (whole, cs) ← readDigits cs
  if whole.head? = some '0' ∧ whole.length > 1 then none
  let (fraction, cs) ← readFraction cs
  let (exponent, cs) ← readExponent cs
  return (.ofList (sign ++ whole ++ fraction ++ exponent), cs)

end NormalForms.Json
