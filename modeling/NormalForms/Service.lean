import NormalForms.Automaton.Json
import NormalForms.Automaton.Subset
import NormalForms.Grammar.Chomsky
import NormalForms.Grammar.Lines
import NormalForms.Grammar.Listing

namespace NormalForms

def faultJson (message : String) : Json :=
  .record [("error", .text message)]

def Error.json (e : Error) : Json :=
  faultJson e.message

def chomskyJson (text : String) : String :=
  match Grammar.read text with
  | .ok g => g.toChomsky.listing.json.render
  | .error e => e.json.render

def determinizeJson? (text : String) : Option String :=
  (Description.ofText? text).map fun d =>
    match Automaton.ofDescription d with
    | .ok fa => fa.determinize.description.json.render
    | .error e => e.json.render

/-- A text that describes nothing is a fault as well. What is wrong with it is for the reader of JSON to say: these are
its words, `unreadable`. -/
def determinizeJson (unreadable : String → String) (text : String) : String :=
  (determinizeJson? text).getD (faultJson (unreadable text)).render

end NormalForms
