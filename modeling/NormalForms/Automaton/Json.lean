import NormalForms.Automaton.Description
import NormalForms.Json.Printer
import NormalForms.Json.Reader

namespace NormalForms

namespace Row

def json (r : Row) : Json :=
  .array [.text r.source, .text r.label, .texts r.targets]

def ofJson? : Json → Option Row
  | .array [source, label, targets] => return ⟨← source.text?, ← label.text?, ← targets.texts?⟩
  | _ => none

end Row

namespace Description

def json (d : Description) : Json :=
  .record [("states", .texts d.states), ("alphabet", .texts d.alphabet),
    ("transitions", .array (d.transitions.map Row.json)), ("initial_state", .text d.initial),
    ("final_states", .texts d.finals)]

def ofParts? (states alphabet transitions initial finals : Json) : Option Description := do
  let .array rows := transitions | none
  return ⟨← states.texts?, ← alphabet.texts?, ← rows.mapM Row.ofJson?, ← initial.text?, ← finals.texts?⟩

/-- A description is an object with its five parts as fields, each exactly once, or the array of these parts. Other
fields do not matter, but their names have to be texts. -/
def ofJson? : Json → Option Description
  | .array [states, alphabet, transitions, initial, finals] => ofParts? states alphabet transitions initial finals
  | .object fields => do
    if fields.any (·.1.isNone) then none
    ofParts? (← Json.field? "states" fields) (← Json.field? "alphabet" fields) (← Json.field? "transitions" fields)
      (← Json.field? "initial_state" fields) (← Json.field? "final_states" fields)
  | _ => none

def ofText? (text : String) : Option Description :=
  (Json.ofText? text).bind ofJson?

end Description

end NormalForms
