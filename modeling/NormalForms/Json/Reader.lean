import NormalForms.Json.Basic
import NormalForms.Json.Literal

namespace NormalForms.Json

def skip (cs : List Char) : List Char :=
  cs.dropWhile (· ∈ [' ', '\n', '\r', '\t'])

def readName (cs : List Char) : Option (Option String × List Char) :=
  match skip cs with
  | '"' :: cs => do
    let (name, cs) ← readString cs
    match skip cs with
    | ':' :: cs => return (name, cs)
    | _ => none
  | _ => none

mutual

def readValue : Nat → List Char → Option (Json × List Char)
  | 0, _ => none
  | fuel + 1, cs =>
    match skip cs with
    | 'n' :: 'u' :: 'l' :: 'l' :: cs => some (null, cs)
    | 't' :: 'r' :: 'u' :: 'e' :: cs => some (bool true, cs)
    | 'f' :: 'a' :: 'l' :: 's' :: 'e' :: cs => some (bool false, cs)
    | '"' :: cs => (readString cs).map fun (content, cs) => (string content, cs)
    | '[' :: cs =>
      match skip cs with
      | ']' :: cs => some (array [], cs)
      | cs => (readItems fuel cs).map fun (items, cs) => (array items, cs)
    | '{' :: cs =>
      match skip cs with
      | '}' :: cs => some (object [], cs)
      | cs => (readFields fuel cs).map fun (fields, cs) => (object fields, cs)
    | cs => (readNumber cs).map fun (literal, cs) => (number literal, cs)

def readItems : Nat → List Char → Option (List Json × List Char)
  | 0, _ => none
  | fuel + 1, cs => do
    let (j, cs) ← readValue fuel cs
    match skip cs with
    | ']' :: cs => return ([j], cs)
    | ',' :: cs =>
      let (items, cs) ← readItems fuel cs
      return (j :: items, cs)
    | _ => none

def readFields : Nat → List Char → Option (List (Option String × Json) × List Char)
  | 0, _ => none
  | fuel + 1, cs => do
    let (name, cs) ← readName cs
    let (j, cs) ← readValue fuel cs
    match skip cs with
    | '}' :: cs => return ([(name, j)], cs)
    | ',' :: cs =>
      let (fields, cs) ← readFields fuel cs
      return ((name, j) :: fields, cs)
    | _ => none

end

/-- The value that a text stands for. Every character is passed by at most two steps of the reader. -/
def ofText? (text : String) : Option Json :=
  match readValue (2 * text.length + 1) text.toList with
  | some (j, cs) => if skip cs = [] then some j else none
  | none => none

end NormalForms.Json
