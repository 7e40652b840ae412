import NormalForms.Proofs.Reading

namespace NormalForms.Grammar

variable {g : Grammar}

structure Printable (g : Grammar) : Prop where
  start_first : g.nonTerminals.head? = some g.start
  left : ∀ name ∈ g.nonTerminals, BlankFree name.toList ∧ ArrowFree name.toList
  right : ∀ r ∈ g.rules, ∀ p ∈ r.alternatives, ∀ s ∈ p,
    BlankFree s.name.toList ∧ ArrowFree s.name.toList ∧ '|' ∉ s.name.toList

def text (g : Grammar) (width : Rule → Nat) (layout : Layout) : String :=
  "\n".intercalate (g.rules.map fun r => r.entry.plaintext (width r) layout)

theorem plaintext_eq (g : Grammar) : g.plaintext = g.text (fun _ => g.listing.width) .stacked := by
  rw [plaintext, Listing.plaintext, text, listing, List.map_map]
  rfl

theorem WellFormed.name_ne_empty (hg : g.WellFormed) {s : Symbol} (hs : g.declares s = true) : s.name ≠ "" := by
  by_cases he : s = .epsilon
  · rw [he]
    decide
  · exact (isDeclarable_iff.1 (hg.isDeclarable_of_declares hs he)).1

theorem Printable.entry_readable (hp : g.Printable) (hg : g.WellFormed) {r : Rule} (hr : r ∈ g.rules) :
    r.entry.Readable := by
  have hleft := left_mem_nonTerminals hr
  obtain ⟨hne, he⟩ := isDeclarable_iff.1 (hg.declarable r.left (List.mem_append_right _ hleft))
  obtain ⟨hb, ha⟩ := hp.left r.left hleft
  refine ⟨⟨⟨hne, hb, ha⟩, he⟩, fun names hn => ?_⟩
  obtain ⟨p, hm, rfl⟩ := List.mem_map.1 hn
  refine ⟨by simpa using hg.ne_nil r hr p hm, fun name hn => ?_⟩
  obtain ⟨s, hs, rfl⟩ := List.mem_map.1 hn
  obtain ⟨hb, ha, hbar⟩ := hp.right r hr p hm s hs
  exact ⟨⟨hg.name_ne_empty (hg.declared r hr p hm s hs), hb, ha⟩, hbar⟩

def textLines (rules : List Rule) (width : Rule → Nat) (layout : Layout) : List (List Char) :=
  rules.flatMap fun r => (r.entry.lines layout).map (Line.chars (width r))

theorem lines_text (h : ∀ r ∈ g.rules, r.entry.Readable) (hne : g.rules ≠ []) (width : Rule → Nat) (layout : Layout) :
    lines (g.text width layout).toList = textLines g.rules width layout := by
  have hentry : ∀ r ∈ g.rules, (r.entry.plaintext (width r) layout).toList =
      ['\n'].intercalate ((r.entry.lines layout).map (Line.chars (width r))) :=
    fun r hr => Entry.toList_plaintext (fun names hn => ((h r hr).rights names hn).1) _ _
  have hblocks : (g.rules.map fun r => (r.entry.plaintext (width r) layout).toList) =
      (g.rules.map fun r => (r.entry.lines layout).map (Line.chars (width r))).map ['\n'].intercalate := by
    rw [List.map_map]
    exact List.map_congr_left hentry
  have htext : (g.text width layout).toList = ['\n'].intercalate (textLines g.rules width layout) := by
    rw [text, String.toList_intercalate, List.map_map]
    refine (congrArg _ hblocks).trans (intercalate_flatten _ fun block hb => ?_)
    obtain ⟨r, -, rfl⟩ := List.mem_map.1 hb
    simpa using r.entry.lines_ne_nil layout
  rw [htext]
  apply lines_intercalate
  · obtain ⟨r, rules, hr⟩ := List.exists_cons_of_ne_nil hne
    simp [textLines, hr, r.entry.lines_ne_nil layout]
  · intro line hl
    obtain ⟨r, hr, hl⟩ := List.mem_flatMap.1 hl
    obtain ⟨l, hm, rfl⟩ := List.mem_map.1 hl
    have hread := ((h r hr).of_mem_lines hm).1
    have hs := hread.spaced_chars (width r)
    exact ⟨fun he => (hread.written (width r)).not_blank (he ▸ blank_nil), hs.not_mem (by decide) (by decide),
      hs.not_mem (by decide) (by decide)⟩

theorem readsTo_textLines {rules : List Rule} (h : ∀ r ∈ rules, r.entry.Readable) (previous : Option String)
    (width : Rule → Nat) (layout : Layout) :
    ReadsTo previous (textLines rules width layout)
      (rules.flatMap fun r => (r.entry.lines layout).map fun l => (r.left, l.rights)) := by
  induction rules generalizing previous with
  | nil => exact fun _ => rfl
  | cons r rules ih =>
      obtain ⟨hr, hm⟩ := List.forall_mem_cons.1 h
      exact hr.readsTo (ih hm (some r.left)) previous (width r) layout

theorem Printable.exists_rules_eq_cons (hp : g.Printable) : ∃ r rules, g.rules = r :: rules ∧ r.left = g.start := by
  have hs := hp.start_first
  cases hr : g.rules with
  | nil => simp [nonTerminals, hr] at hs
  | cons r rules => exact ⟨r, rules, rfl, by simpa [nonTerminals, hr] using hs⟩

/-- A grammar is read back from its text, whatever the widths and the layout, without the terminals that it does not
use. -/
theorem Printable.read_text (hp : g.Printable) (hg : g.WellFormed) (width : Rule → Nat) (layout : Layout) :
    read (g.text width layout) = .ok { g with terminals := g.usedTerminals } := by
  have hr : ∀ r ∈ g.rules, r.entry.Readable := fun r hr => hp.entry_readable hg hr
  obtain ⟨r, rules, hrules, hstart⟩ := hp.exists_rules_eq_cons
  obtain ⟨rights, block, hblock⟩ := r.entry.exists_lines_eq_cons layout
  let parts (r : Rule) : List (List (List String)) := (r.entry.lines layout).map fun l => splitAlternatives l.rights
  have hread : readLines 1 none (lines (g.text width layout).toList) =
      .ok (g.rules.flatMap fun r => (r.entry.lines layout).map fun l => (r.left, l.rights)) := by
    rw [lines_text hr (by simp [hrules])]
    exact readsTo_textLines hr none width layout 1
  obtain ⟨more, hmore⟩ : ∃ more, (g.rules.flatMap fun r => (r.entry.lines layout).map fun l => (r.left, l.rights)) =
      (g.start, rights) :: more := by
    rw [hrules, List.flatMap_cons, hblock, List.map_cons, hstart]
    exact ⟨_, rfl⟩
  have hwritten : ((g.start, rights) :: more).map (fun x => (x.1, splitAlternatives x.2)) =
      g.rules.flatMap fun r => (parts r).map (r.left, ·) := by
    rw [← hmore, List.map_flatMap]
    simp only [List.map_map, Function.comp_def, parts]
  rw [hmore] at hread
  rw [read_eq_checked hread, hwritten, hg.ofAlternatives_parts]
  · exact checked_eq_ok.2 ⟨hg.withUsedTerminals.faultless, rfl⟩
  · intro r _
    simpa [parts] using r.entry.lines_ne_nil layout
  · intro r hm
    rw [← List.flatMap_def, (hr r hm).splitAlternatives_lines]

theorem ReadsTo.legible {ls : List (List Char)} {previous : Option String} {written : List (String × List Char)}
    (h : ReadsTo previous ls written) (hp : ∀ left ∈ previous, Legible left) :
    ∀ x ∈ written, Legible x.1 ∧ ArrowFree x.2 := by
  -- A line that starts with a bar takes the left side before it, so what is known of that one is handed on.
  induction ls generalizing previous written with
  | nil =>
      rw [h.eq_nil]
      simp
  | cons line ls ih =>
      obtain ⟨-, hls⟩ | ⟨l, left, w, hw, hl, hls, rfl⟩ := h.cons_cases
      · exact ih hls hp
      · have hlegible : Legible left := by
          cases l with
          | opening name rights =>
              cases hl
              exact ⟨hw.isWord.1, hw.isWord.2, hw.arrowFree_left⟩
          | continuation rights => exact hp left hl
        rw [List.forall_mem_cons]
        exact ⟨⟨hlegible, hw.arrowFree_rights⟩, ih hls (by simpa using hlegible)⟩

theorem symbolOf_name_eq (lefts : List String) (word : String) :
    (symbolOf lefts word).name = "ε" ∨ (symbolOf lefts word).name = word := by
  unfold symbolOf
  split
  · exact .inl rfl
  · split <;> exact .inr rfl

theorem printable_ofAlternatives {start : String} {written : List (String × List (List String))}
    (hfirst : (written.map (·.1)).head? = some start)
    (hleft : ∀ x ∈ written, BlankFree x.1.toList ∧ ArrowFree x.1.toList)
    (hright : ∀ x ∈ written, ∀ names ∈ x.2, ∀ name ∈ names,
      BlankFree name.toList ∧ ArrowFree name.toList ∧ '|' ∉ name.toList) :
    (ofAlternatives start written).Printable := by
  rw [ofAlternatives_eq]
  refine ⟨?_, fun name hname => ?_, fun r hr p hp s hs => ?_⟩
  · rw [nonTerminals, map_left_mergeRules, leftsOf]
    cases hw : written.map (·.1) with
    | nil =>
        rw [hw] at hfirst
        cases hfirst
    | cons left lefts =>
        rw [hw] at hfirst
        rw [List.eraseDups_cons]
        exact hfirst
  · rw [nonTerminals, map_left_mergeRules, leftsOf, List.mem_eraseDups] at hname
    obtain ⟨x, hx, rfl⟩ := List.mem_map.1 hname
    exact hleft x hx
  · obtain ⟨t, ht, -, hp⟩ := exists_of_mem_mergeRules hr hp
    obtain ⟨x, hx, rfl⟩ := List.mem_map.1 ht
    obtain ⟨names, hm, rfl⟩ := List.mem_map.1 hp
    obtain ⟨name, hn, rfl⟩ := List.mem_map.1 hs
    rcases symbolOf_name_eq (leftsOf written) name with he | he
    · rw [he]
      decide
    · rw [he]
      exact hright x hx names hm name hn

theorem mem_ofAlternatives_terminals {start a : String} {written : List (String × List (List String))} :
    a ∈ (ofAlternatives start written).terminals ↔ a ∈ (ofAlternatives start written).usedTerminals := by
  rw [mem_usedTerminals, ofAlternatives_eq]
  simp only [List.mem_eraseDups, List.mem_flatMap, Production.mem_terminals]
  constructor
  · rintro ⟨s, hs, p, hp, ha⟩
    have hl : s.left ∈ leftsOf written := by
      obtain ⟨x, hx, rfl⟩ := List.mem_map.1 hs
      exact List.mem_eraseDups.2 (List.mem_map_of_mem hx)
    refine ⟨_, List.mem_map_of_mem hl, p, List.mem_eraseDups.2 ?_, ha⟩
    exact List.mem_flatMap.2 ⟨s, List.mem_filter.2 ⟨hs, by simp⟩, hp⟩
  · rintro ⟨r, hr, p, hp, ha⟩
    obtain ⟨s, hs, -, hp⟩ := exists_of_mem_mergeRules hr hp
    exact ⟨s, hs, p, hp, ha⟩

/-- What is read can be written and read again, and has no terminals but those in its productions. -/
theorem printable_of_read {text : String} (h : read text = .ok g) :
    g.Printable ∧ g.terminals.Perm g.usedTerminals := by
  obtain ⟨written, hread, h⟩ := bind_eq_ok.1 h
  cases written with
  | nil => cases h
  | cons x more =>
      obtain ⟨start, rights⟩ := x
      obtain ⟨-, rfl⟩ := checked_eq_ok.1 h
      have hlegible := (ReadsTo.of_readLines hread).legible (by simp)
      constructor
      · refine printable_ofAlternatives rfl (fun x hx => ?_) fun x hx names hm name hn => ?_
        · obtain ⟨y, hy, rfl⟩ := List.mem_map.1 hx
          exact ⟨(hlegible y hy).1.blankFree, (hlegible y hy).1.arrowFree⟩
        · obtain ⟨y, hy, rfl⟩ := List.mem_map.1 hx
          obtain ⟨hword, hrights, hbar⟩ := mem_splitAlternatives hm hn
          exact ⟨hword.2, (hlegible y hy).2.mono hrights, hbar⟩
      · refine (List.perm_ext_iff_of_nodup (nodup_eraseDups _) (nodup_eraseDups _)).2 fun a => ?_
        exact mem_ofAlternatives_terminals

/-- The text of a grammar is read as the grammar itself without its unused terminals, be it written with one line for
each alternative or for each rule. So what has once been read stays the same when it is written and read again. -/
theorem read_plaintext_round_trip :
    (∀ g : Grammar, g.WellFormed → g.Printable →
      read g.plaintext = .ok { g with terminals := g.usedTerminals } ∧
      (∀ width : Rule → Nat, read (g.text width .oneLine) = .ok { g with terminals := g.usedTerminals }) ∧
      ∀ a, a ∈ g.usedTerminals ↔ ∃ r ∈ g.rules, ∃ p ∈ r.alternatives, .terminal a ∈ p) ∧
    ∀ text g, read text = .ok g → ∃ h, read g.plaintext = .ok h ∧ h.SameAs g := by
  constructor
  · intro g hg hp
    rw [plaintext_eq]
    exact ⟨hp.read_text hg _ _, fun width => hp.read_text hg width _, fun _ => mem_usedTerminals⟩
  · intro text g h
    obtain ⟨hp, ht⟩ := printable_of_read h
    refine ⟨{ g with terminals := g.usedTerminals }, ?_, rfl, ht.symm, .refl _⟩
    rw [plaintext_eq]
    exact hp.read_text (read_wellFormed h) _ _

def awkward : Grammar :=
  ⟨"S-", ["-", ">", "unused"],
    [⟨"S-", [[.terminal "-", .terminal ">", .nonTerminal "S-"], [.epsilon]]⟩, ⟨"|A", []⟩]⟩

theorem awkward_wellFormed : awkward.WellFormed := by
  have h : declare ["S-", "|A"] ["-", ">", "unused"] [("S-", ["- > S-", "ε"])] none = .ok awkward := by rfl
  exact declare_wellFormed h

theorem awkward_printable : awkward.Printable where
  start_first := rfl
  left := by decide
  right := by decide

def scattered : Grammar :=
  ⟨"S", ["b", "a", "c"],
    [⟨"S", [[.nonTerminal "A", .terminal "b"], [.terminal "c"]]⟩, ⟨"A", [[.terminal "a"]]⟩]⟩

theorem scattered_read : read "S -> A b\nA -> a | a\nS -> c" = .ok scattered := by
  decide

theorem awkward_round_trip : awkward.WellFormed ∧ awkward.Printable ∧
    awkward.plaintext = "S- -> - > S-\n    | ε\n|A ->" ∧
    read awkward.plaintext = .ok { awkward with terminals := ["-", ">"] } ∧
    read "S- -> - > S- | ε\n   |A ->" = .ok { awkward with terminals := ["-", ">"] } ∧
    ∃ h, read scattered.plaintext = .ok h ∧ h.SameAs scattered := by
  obtain ⟨hgrammars, htexts⟩ := read_plaintext_round_trip
  obtain ⟨hread, hline, -⟩ := hgrammars awkward awkward_wellFormed awkward_printable
  have hu : awkward.usedTerminals = ["-", ">"] := by decide
  have hwidths : awkward.text (fun r => if r.left = "|A" then 5 else 0) .oneLine = "S- -> - > S- | ε\n   |A ->" := by
    decide
  rw [hu] at hread hline
  exact ⟨awkward_wellFormed, awkward_printable, by decide, hread, hwidths ▸ hline _,
    htexts _ _ scattered_read⟩

end NormalForms.Grammar
