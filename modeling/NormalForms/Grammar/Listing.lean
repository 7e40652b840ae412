import NormalForms.Grammar.Basic
import NormalForms.Json.Printer

namespace NormalForms

structure Entry where
  left : String
  rights : List (List String)
deriving DecidableEq

inductive Layout where
  | oneLine
  | stacked
deriving DecidableEq

def padLeft (width : Nat) (s : String) : String :=
  .ofList (s.toList.leftpad width ' ')

namespace Entry

def continuation (width : Nat) (right : String) : Layout → String
  | .oneLine => " | " ++ right
  | .stacked => "\n" ++ padLeft width "" ++ "  | " ++ right

def plaintext (width : Nat) (layout : Layout) (e : Entry) : String :=
  match e.rights.map (" ".intercalate ·) with
  | [] => padLeft width e.left ++ " ->"
  | first :: others =>
    padLeft width e.left ++ " -> " ++ first ++ String.join (others.map (continuation width · layout))

def json (e : Entry) : Json :=
  .record [("left", .text e.left), ("rights", .array (e.rights.map .texts))]

end Entry

structure Listing where
  start : String
  entries : List Entry
deriving DecidableEq

namespace Listing

def width (l : Listing) : Nat :=
  (l.entries.map (·.left.length)).foldr max 0

def plaintext (l : Listing) : String :=
  "\n".intercalate (l.entries.map (Entry.plaintext l.width .stacked))

def json (l : Listing) : Json :=
  .record [("start", .text l.start), ("productions", .array (l.entries.map Entry.json))]

end Listing

def Rule.entry (r : Rule) : Entry :=
  ⟨r.left, r.alternatives.map (·.map Symbol.name)⟩

namespace Grammar

def listing (g : Grammar) : Listing :=
  ⟨g.start, g.rules.map Rule.entry⟩

def plaintext (g : Grammar) : String :=
  g.listing.plaintext

end Grammar

end NormalForms
