import NormalForms.Json.Basic

namespace NormalForms.Json

def hexDigit (n : Nat) : Char :=
  "0123456789abcdef".toList.getD n '0'

def escaped (c : Char) : List Char :=
  if c = '"' then ['\\', '"']
  else if c = '\\' then ['\\', '\\']
  else if c = '\n' then ['\\', 'n']
  else if c = '\r' then ['\\', 'r']
  else if c = '\t' then ['\\', 't']
  else if c = '\x08' then ['\\', 'b']
  else if c = '\x0c' then ['\\', 'f']
  else if c.toNat < 0x20 then ['\\', 'u', '0', '0', hexDigit (c.toNat / 16), hexDigit (c.toNat % 16)]
  else [c]

def quoted : Option String → List Char
  | some s => '"' :: s.toList.flatMap escaped ++ ['"']
  | none => "\"\\ud800\"".toList

mutual

def chars : Json → List Char
  | null => "null".toList
  | bool b => (toString b).toList
  | number literal => literal.toList
  | string content => quoted content
  | array items => '[' :: itemChars items
  | object fields => '{' :: fieldChars fields

def itemChars : List Json → List Char
  | [] => [']']
  | [j] => chars j ++ [']']
  | j :: items => chars j ++ ',' :: itemChars items

def fieldChars : List (Option String × Json) → List Char
  | [] => ['}']
  | [(name, j)] => quoted name ++ ':' :: chars j ++ ['}']
  | (name, j) :: fields => quoted name ++ ':' :: chars j ++ ',' :: fieldChars fields

end

def render (j : Json) : String :=
  .ofList j.chars

end NormalForms.Json
