import NormalForms.Proofs.DescriptionText
import NormalForms.Proofs.Plaintext

namespace NormalForms

namespace Entry

def ofJson? : Json → Option Entry
  | .object fields => do
    let .array rights ← Json.field? "rights" fields | none
    return ⟨← (← Json.field? "left" fields).text?, ← rights.mapM Json.texts?⟩
  | _ => none

theorem numberFree_json (e : Entry) : e.json.NumberFree := by
  have hrights : Json.NumberFree (.array (e.rights.map .texts)) := by
    refine .array fun j hj => ?_
    obtain ⟨names, -, rfl⟩ := List.mem_map.1 hj
    exact Json.numberFree_texts names
  refine Json.numberFree_record ?_
  simp [Json.numberFree_text, hrights]

theorem ofJson?_json (e : Entry) : ofJson? e.json = some e := by
  have hrights := Json.mapM_map_eq_some Json.texts?_texts e.rights
  simp [json, ofJson?, Json.record, Json.field?, Json.text?_text, hrights]

end Entry

namespace Listing

def ofJson? : Json → Option Listing
  | .object fields => do
    let .array entries ← Json.field? "productions" fields | none
    return ⟨← (← Json.field? "start" fields).text?, ← entries.mapM Entry.ofJson?⟩
  | _ => none

def ofText? (text : String) : Option Listing :=
  (Json.ofText? text).bind ofJson?

theorem numberFree_json (l : Listing) : l.json.NumberFree := by
  have hentries : Json.NumberFree (.array (l.entries.map Entry.json)) := by
    refine .array fun j hj => ?_
    obtain ⟨e, -, rfl⟩ := List.mem_map.1 hj
    exact e.numberFree_json
  refine Json.numberFree_record ?_
  simp [Json.numberFree_text, hentries]

theorem ofJson?_json (l : Listing) : ofJson? l.json = some l := by
  have hentries := Json.mapM_map_eq_some Entry.ofJson?_json l.entries
  simp [json, ofJson?, Json.record, Json.field?, Json.text?_text, hentries]

theorem ofText?_render (l : Listing) : ofText? l.json.render = some l := by
  rw [ofText?, l.numberFree_json.ofText?_render]
  exact l.ofJson?_json

def symbolNamed (l : Listing) (name : String) : Symbol :=
  if name = "ε" then .epsilon
  else if name ∈ l.entries.map (·.left) then .nonTerminal name
  else .terminal name

def rules (l : Listing) : List Rule :=
  l.entries.map fun e => ⟨e.left, e.rights.map (·.map l.symbolNamed)⟩

/-- The grammar that the names speak of, with the terminals that stand in its productions. -/
def grammar (l : Listing) : Grammar where
  start := l.start
  terminals := (l.rules.flatMap fun r => r.alternatives.flatMap Production.terminals).eraseDups
  rules := l.rules

end Listing

/-- A fault is not taken for a grammar. -/
theorem Error.listing_ofText?_render (e : Error) : Listing.ofText? e.json.render = none := by
  rw [Listing.ofText?, json, (numberFree_faultJson e.message).ofText?_render]
  simp [faultJson, Json.record, Listing.ofJson?, Json.field?]

namespace Grammar

variable {g h : Grammar}

def ofJsonText? (text : String) : Option Grammar :=
  (Listing.ofText? text).map Listing.grammar

theorem map_left_listing (g : Grammar) : g.listing.entries.map (·.left) = g.nonTerminals := by
  rw [listing, List.map_map]
  rfl

theorem symbolNamed_listing {name : String} (hne : name ≠ "epsilon") :
    g.listing.symbolNamed name = symbolOf g.nonTerminals name := by
  simp [Listing.symbolNamed, symbolOf, map_left_listing, epsilonNames, hne]

theorem WellFormed.symbolNamed_name (hg : g.WellFormed) {s : Symbol} (hs : g.declares s = true) :
    g.listing.symbolNamed s.name = s := by
  have hne : s.name ≠ "epsilon" := by
    by_cases he : s = .epsilon
    · rw [he]
      decide
    · intro hname
      have hd := (isDeclarable_iff.1 (hg.isDeclarable_of_declares hs he)).2
      exact hd (by simp [hname, epsilonNames])
  rw [symbolNamed_listing hne, hg.symbolOf_name hs]

theorem WellFormed.listing_rules (hg : g.WellFormed) : g.listing.rules = g.rules := by
  rw [Listing.rules, listing, List.map_map]
  refine (List.map_congr_left fun r hr => ?_).trans (List.map_id' g.rules)
  have hrights : r.entry.rights.map (·.map g.listing.symbolNamed) = r.alternatives := by
    rw [Rule.entry, List.map_map]
    refine (List.map_congr_left fun p hp => ?_).trans (List.map_id' _)
    rw [Function.comp_apply, List.map_map]
    exact (List.map_congr_left fun s hs => hg.symbolNamed_name (hg.declared r hr p hp s hs)).trans (List.map_id' p)
  exact congrArg (Rule.mk r.left) hrights

theorem WellFormed.grammar_listing (hg : g.WellFormed) :
    g.listing.grammar = { g with terminals := g.usedTerminals } := by
  rw [Listing.grammar, hg.listing_rules]
  rfl

theorem WellFormed.ofJsonText?_render (hg : g.WellFormed) :
    ofJsonText? g.listing.json.render = some { g with terminals := g.usedTerminals } := by
  rw [ofJsonText?, Listing.ofText?_render, Option.map_some, hg.grammar_listing]

/-- The answer to a text is that of a grammar exactly if the text is. -/
theorem ofJsonText?_chomskyJson (text : String) :
    ofJsonText? (chomskyJson text) =
      (read text).toOption.map fun g => { g.toChomsky with terminals := g.toChomsky.usedTerminals } := by
  cases hread : read text with
  | ok g =>
      have hout : chomskyJson text = g.toChomsky.listing.json.render := by rw [chomskyJson, hread]
      rw [hout, (read_wellFormed hread).toChomsky.ofJsonText?_render]
      rfl
  | error e =>
      have hout : chomskyJson text = e.json.render := by rw [chomskyJson, hread]
      rw [hout, ofJsonText?, e.listing_ofText?_render]
      rfl

/-- The JSON text of a grammar is read as the grammar itself without its unused terminals. So the texts of two grammars
are equal only if their start symbols and rules are, and the answer to a text says what the normal form of the grammar
in it is, if there is one. -/
theorem grammar_json_round_trip :
    (∀ g : Grammar, g.WellFormed → Json.ofText? g.listing.json.render = some g.listing.json ∧
      ofJsonText? g.listing.json.render = some { g with terminals := g.usedTerminals } ∧
      ∀ a, a ∈ g.usedTerminals ↔ ∃ r ∈ g.rules, ∃ p ∈ r.alternatives, .terminal a ∈ p) ∧
    (∀ g h : Grammar, g.WellFormed → h.WellFormed → g.listing.json.render = h.listing.json.render →
      g.start = h.start ∧ g.rules = h.rules) ∧
    ∀ text h, ofJsonText? (chomskyJson text) = some h ↔
      ∃ g, read text = .ok g ∧ h = { g.toChomsky with terminals := g.toChomsky.usedTerminals } := by
  refine ⟨fun g hg => ⟨g.listing.numberFree_json.ofText?_render, hg.ofJsonText?_render, fun _ => mem_usedTerminals⟩,
    fun g h hg hh heq => ?_, fun text h => ?_⟩
  · have hread := hg.ofJsonText?_render
    rw [heq, hh.ofJsonText?_render, Option.some.injEq, Grammar.mk.injEq] at hread
    exact ⟨hread.1.symm, hread.2.2.symm⟩
  · rw [ofJsonText?_chomskyJson]
    cases read text with
    | ok g => simp [Except.toOption, eq_comm]
    | error e => simp [Except.toOption]

def quoting : Grammar :=
  ⟨"\"", ["\\", "é\n"], [⟨"\"", [[.terminal "\\", .nonTerminal "\x01"], [.epsilon]]⟩, ⟨"\x01", []⟩]⟩

theorem quoting_wellFormed : quoting.WellFormed :=
  .of_fault?_eq_none (by decide) (by decide) (by decide) (by decide)

theorem quoting_json_round_trip : quoting.WellFormed ∧
    quoting.listing.json.render = "\x7b\"start\":\"\\\"\",\"productions\":[" ++
      "\x7b\"left\":\"\\\"\",\"rights\":[[\"\\\\\",\"\\u0001\"],[\"ε\"]]\x7d," ++
      "\x7b\"left\":\"\\u0001\",\"rights\":[]\x7d]\x7d" ∧
    ofJsonText? quoting.listing.json.render = some { quoting with terminals := ["\\"] } ∧
    (∀ h : Grammar, h.WellFormed → h.listing.json.render = quoting.listing.json.render → h.rules = quoting.rules) ∧
    read "S -> A b\nA -> a | a\nS -> c" = .ok scattered ∧
    ofJsonText? (chomskyJson "S -> A b\nA -> a | a\nS -> c") =
      some { scattered.toChomsky with terminals := scattered.toChomsky.usedTerminals } ∧
    ¬ ∃ h, ofJsonText? (chomskyJson "S -> ε b") = some h := by
  obtain ⟨hgrammars, htexts, hanswers⟩ := grammar_json_round_trip
  obtain ⟨-, hread, -⟩ := hgrammars quoting quoting_wellFormed
  have hu : quoting.usedTerminals = ["\\"] := by decide
  have hfault : read "S -> ε b" = .error (.grammar .epsilonInside "S") := by decide
  rw [hu] at hread
  refine ⟨quoting_wellFormed, by decide +kernel, hread,
    fun h hh heq => (htexts h quoting hh quoting_wellFormed heq).2, scattered_read,
    (hanswers _ _).2 ⟨scattered, scattered_read, rfl⟩, ?_⟩
  rintro ⟨h, hh⟩
  obtain ⟨g, hg, -⟩ := (hanswers _ _).1 hh
  rw [hfault] at hg
  cases hg

end Grammar

end NormalForms
