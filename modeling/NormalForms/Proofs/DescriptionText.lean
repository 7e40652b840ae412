import NormalForms.Proofs.Built
import NormalForms.Proofs.Reader
import NormalForms.Service

namespace NormalForms

namespace Json

theorem numberFree_text (s : String) : NumberFree (text s) :=
  .string (some s)

theorem numberFree_texts (l : List String) : NumberFree (texts l) := by
  refine .array fun j hj => ?_
  obtain ⟨s, -, rfl⟩ := List.mem_map.1 hj
  exact numberFree_text s

theorem numberFree_record {fields : List (String × Json)} (h : ∀ f ∈ fields, NumberFree f.2) :
    NumberFree (record fields) := by
  refine .object fun f hf => ?_
  obtain ⟨g, hg, rfl⟩ := List.mem_map.1 hf
  exact h g hg

/-- Reading each of some written values gives the values. -/
theorem mapM_map_eq_some {α : Type} {written : α → Json} {read : Json → Option α}
    (h : ∀ x, read (written x) = some x) (l : List α) : (l.map written).mapM read = some l := by
  induction l with
  | nil => rfl
  | cons x l ih => simp [List.mapM_cons, h, ih]

theorem text?_text (s : String) : (text s).text? = some s :=
  rfl

theorem texts?_texts (l : List String) : (texts l).texts? = some l :=
  mapM_map_eq_some text?_text l

end Json

theorem Row.numberFree_json (r : Row) : r.json.NumberFree := by
  refine .array ?_
  simp [Json.numberFree_text, Json.numberFree_texts]

theorem Row.ofJson?_json (r : Row) : ofJson? r.json = some r := by
  simp [json, ofJson?, Json.texts?_texts, Json.text?_text]

namespace Description

theorem numberFree_json (d : Description) : d.json.NumberFree := by
  have hrows : Json.NumberFree (.array (d.transitions.map Row.json)) := by
    refine .array fun j hj => ?_
    obtain ⟨r, -, rfl⟩ := List.mem_map.1 hj
    exact r.numberFree_json
  refine Json.numberFree_record ?_
  simp [Json.numberFree_text, Json.numberFree_texts, hrows]

theorem ofParts?_eq_some (d : Description) : ofParts? (.texts d.states) (.texts d.alphabet)
    (.array (d.transitions.map Row.json)) (.text d.initial) (.texts d.finals) = some d := by
  have hrows := Json.mapM_map_eq_some Row.ofJson?_json d.transitions
  simp [ofParts?, Json.texts?_texts, Json.text?_text, hrows]

theorem ofJson?_json (d : Description) : ofJson? d.json = some d := by
  simp [json, ofJson?, Json.record, Json.field?, ofParts?_eq_some]

/-- A description is read back from its text. -/
theorem ofText?_render (d : Description) : ofText? d.json.render = some d := by
  rw [ofText?, d.numberFree_json.ofText?_render]
  exact d.ofJson?_json

end Description

theorem numberFree_faultJson (message : String) : (faultJson message).NumberFree :=
  Json.numberFree_record (by simp [Json.numberFree_text])

/-- A fault is not taken for a description. -/
theorem Description.ofText?_faultJson (message : String) : ofText? (faultJson message).render = none := by
  rw [ofText?, (numberFree_faultJson message).ofText?_render]
  simp [faultJson, Json.record, ofJson?, Json.field?]

/-- The answer to a text is a description exactly if the text describes an automaton. -/
theorem Description.ofText?_determinizeJson (unreadable : String → String) (text : String) :
    ofText? (determinizeJson unreadable text) =
      ((ofText? text).bind fun d => (Automaton.ofDescription d).toOption).map fun fa =>
        fa.determinize.description := by
  cases hread : ofText? text with
  | none =>
      have hout : determinizeJson unreadable text = (faultJson (unreadable text)).render := by
        simp [determinizeJson, determinizeJson?, hread]
      rw [hout, ofText?_faultJson]
      rfl
  | some d =>
      cases hd : Automaton.ofDescription d with
      | ok fa =>
          have hout : determinizeJson unreadable text = fa.determinize.description.json.render := by
            simp [determinizeJson, determinizeJson?, hread, hd]
          rw [hout, ofText?_render]
          simp [hd, Except.toOption]
      | error e =>
          have hout : determinizeJson unreadable text = (faultJson e.message).render := by
            simp [determinizeJson, determinizeJson?, hread, hd, Error.json]
          rw [hout, ofText?_faultJson]
          simp [hd, Except.toOption]

namespace Automaton

variable {fa : Automaton}

/-- The text of an automaton is read as its description, from which the automaton comes back. An automaton that is made
deterministic from its text is given as such a text again, and no other answers can be read in this way. -/
theorem built_json_round_trip (h : fa.Built) :
    (Description.ofText? fa.description.json.render = some fa.description ∧ ofDescription fa.description = .ok fa) ∧
      (∀ text d, Description.ofText? text = some d → ofDescription d = .ok fa →
        ∃ out, determinizeJson? text = some out ∧ (∀ unreadable, determinizeJson unreadable text = out) ∧
          Description.ofText? out = some fa.determinize.description ∧
          ofDescription fa.determinize.description = .ok fa.determinize) ∧
      ∀ unreadable text e, Description.ofText? (determinizeJson unreadable text) = some e ↔
        ∃ d fb, Description.ofText? text = some d ∧ ofDescription d = .ok fb ∧ e = fb.determinize.description := by
  refine ⟨⟨Description.ofText?_render _, h.valid.ofDescription_description⟩, fun text d htext hd => ?_,
    fun unreadable text e => ?_⟩
  · have hout : determinizeJson? text = some fa.determinize.description.json.render := by
      simp [determinizeJson?, htext, hd]
    refine ⟨_, hout, fun unreadable => ?_, Description.ofText?_render _,
      h.valid.determinize.ofDescription_description⟩
    rw [determinizeJson, hout, Option.getD_some]
  · rw [Description.ofText?_determinizeJson]
    cases Description.ofText? text with
    | none => simp
    | some d => cases hd : ofDescription d <;> simp [hd, Except.toOption, eq_comm]

def escaping : Automaton where
  states := .ofList ["\"", "\\\n\x01"]
  alphabet := .ofList ["é", "𝄞"]
  transitions := .ofList [⟨⟨"\"", .letter "𝄞"⟩, "\\\n\x01"⟩, ⟨⟨"\"", .letter "𝄞"⟩, "\""⟩]
  rows := .ofList [⟨"\"", .letter "𝄞"⟩, ⟨"\\\n\x01", .empty⟩]
  initial := "\""
  finals := .ofList ["\\\n\x01"]

def escapingText : String :=
  r#"[["\u0022", "\\\n\u0001"], ["𝄞", "\u00E9"],
    [["\"", "\ud834\udd1e", ["\\\n\u0001", "\""]], ["\\\n\u0001", "ε", []]], "\"", ["\\\n\u0001"]]"#

theorem escaping_json_round_trip : escaping.Built ∧
    Description.ofText? escaping.description.json.render = some escaping.description ∧
    escapingText ≠ escaping.description.json.render ∧
    (∃ out, determinizeJson? escapingText = some out ∧ (∀ unreadable, determinizeJson unreadable escapingText = out) ∧
      Description.ofText? out = some escaping.determinize.description ∧
      ofDescription escaping.determinize.description = .ok escaping.determinize) ∧
    ∀ unreadable e, Description.ofText? (determinizeJson unreadable "[") ≠ some e := by
  let d : Description := ⟨["\"", "\\\n\x01"], ["𝄞", "é"],
    [⟨"\"", "𝄞", ["\\\n\x01", "\""]⟩, ⟨"\\\n\x01", "ε", []⟩], "\"", ["\\\n\x01"]⟩
  have hd : ofDescription d = .ok escaping := by rfl
  have htext : Description.ofText? escapingText = some d := by decide +kernel
  have hnone : Description.ofText? "[" = none := by decide +kernel
  have hb : escaping.Built := .ofDescription hd
  obtain ⟨⟨hread, -⟩, hanswer, hreadable⟩ := built_json_round_trip hb
  refine ⟨hb, hread, by decide +kernel, hanswer escapingText d htext hd, fun unreadable e he => ?_⟩
  obtain ⟨d, fb, hd, -⟩ := (hreadable unreadable "[" e).1 he
  rw [hnone] at hd
  cases hd

end Automaton

end NormalForms
