import NormalForms.Proofs.ListingText
import NormalForms.Proofs.Marks

namespace NormalForms

section

variable {α β : Type}

theorem forall₂_of_map_eq {f : α → β} {p : α → Prop} {R : α → α → Prop} (hf : ∀ a b, p a → p b → f a = f b → R a b)
    {l m : List α} (hl : ∀ a ∈ l, p a) (hm : ∀ a ∈ m, p a) (h : l.map f = m.map f) : List.Forall₂ R l m := by
  induction l generalizing m with
  | nil =>
      rw [List.map_eq_nil_iff.1 h.symm]
      exact .nil
  | cons a l ih =>
      obtain ⟨b, m, rfl, hb, htail⟩ := List.map_eq_cons_iff.1 h.symm
      obtain ⟨ha, hl⟩ := List.forall_mem_cons.1 hl
      obtain ⟨hpb, hm⟩ := List.forall_mem_cons.1 hm
      exact .cons (hf a b ha hpb hb.symm) (ih hl hm htail.symm)

theorem flatMap_intercalate (f : α → List β) (sep : List α) (ls : List (List α)) :
    (sep.intercalate ls).flatMap f = (sep.flatMap f).intercalate (ls.map (·.flatMap f)) := by
  cases ls with
  | nil => rfl
  | cons l ls =>
      rw [intercalate_cons, List.map_cons, intercalate_cons, List.flatMap_append, List.flatMap_assoc, List.flatMap_map]
      simp only [List.flatMap_append]

/-- What stands before each sign can be moved to the piece before it. -/
theorem intercalate_append_singleton (before sep : α) {ls : List (List α)} (hl : ls ≠ []) :
    [before, sep].intercalate ls ++ [before] = [sep].intercalate (ls.map (· ++ [before])) := by
  obtain ⟨l, ls, rfl⟩ := List.exists_cons_of_ne_nil hl
  induction ls generalizing l with
  | nil => simp
  | cons m ls ih =>
      have hrest := ih m (by simp)
      rw [List.map_cons] at hrest
      rw [List.intercalate_cons_cons, List.map_cons, List.map_cons, List.intercalate_cons_cons, ← hrest]
      simp

variable [DecidableEq α]

theorem intercalate_inj {sep : α} {ls ms : List (List α)} (hl : ls ≠ []) (hm : ms ≠ []) (hls : ∀ l ∈ ls, sep ∉ l)
    (hms : ∀ m ∈ ms, sep ∉ m) (h : [sep].intercalate ls = [sep].intercalate ms) : ls = ms := by
  rw [← List.splitOn_intercalate sep hls hl, h, List.splitOn_intercalate sep hms hm]

theorem intercalate_pair_inj {before sep : α} (hne : before ≠ sep) {ls ms : List (List α)} (hl : ls ≠ []) (hm : ms ≠ [])
    (hls : ∀ l ∈ ls, sep ∉ l) (hms : ∀ m ∈ ms, sep ∉ m)
    (h : [before, sep].intercalate ls = [before, sep].intercalate ms) : ls = ms := by
  have hfree (ns : List (List α)) (hns : ∀ n ∈ ns, sep ∉ n) : ∀ n ∈ ns.map (· ++ [before]), sep ∉ n := by
    intro n hn
    obtain ⟨n, hm, rfl⟩ := List.mem_map.1 hn
    simpa [hns n hm] using hne.symm
  have happend : [sep].intercalate (ls.map (· ++ [before])) = [sep].intercalate (ms.map (· ++ [before])) := by
    rw [← intercalate_append_singleton before sep hl, h, intercalate_append_singleton before sep hm]
  have hmap := intercalate_inj (by simpa using hl) (by simpa using hm) (hfree ls hls) (hfree ms hms) happend
  exact List.map_injective_iff.2 (fun _ _ => List.append_cancel_right) hmap

end

namespace Latex

theorem escapeChar_eq {next? : Option Char} {c : Char} (h : ¬ (c = '-' ∧ next? = some '-')) :
    escapeChar next? c = escapeChar none c := by
  unfold escapeChar
  split
  case h_16 => exact if_neg fun hn => h ⟨rfl, hn⟩
  all_goals rfl

def nameMarks : List Char → List Mark
  | [] => []
  | c :: cs => .char c :: ((if c = '-' ∧ cs.head? = some '-' then [.gap] else []) ++ nameMarks cs)

theorem flatMap_nameMarks (cs : List Char) :
    (nameMarks cs).flatMap Mark.chars = (escapeChars cs).flatMap epsilonMacro := by
  induction cs with
  | nil => rfl
  | cons c cs ih =>
      rw [nameMarks, escapeChars, List.flatMap_cons, List.flatMap_append, List.flatMap_append, ih, ← List.append_assoc]
      congr 1
      by_cases h : c = '-' ∧ cs.head? = some '-'
      · rw [if_pos h, h.1, h.2]
        rfl
      · rw [if_neg h, escapeChar_eq h]
        exact List.append_nil _

def Mark.char? : Mark → Option Char
  | char c => some c
  | _ => none

theorem filterMap_nameMarks (cs : List Char) : (nameMarks cs).filterMap Mark.char? = cs := by
  induction cs with
  | nil => rfl
  | cons c cs ih =>
      have hgap : (if c = '-' ∧ cs.head? = some '-' then [Mark.gap] else []).filterMap Mark.char? = [] := by
        split <;> rfl
      have hc : (Mark.char c).char? = some c := rfl
      rw [nameMarks, List.filterMap_cons_some hc, List.filterMap_append, hgap, ih, List.nil_append]

theorem nameMarks_injective : Function.Injective fun name : String => nameMarks name.toList := by
  intro a b h
  have hcs : (nameMarks a.toList).filterMap Mark.char? = (nameMarks b.toList).filterMap Mark.char? :=
    congrArg (List.filterMap Mark.char?) h
  rw [filterMap_nameMarks, filterMap_nameMarks] at hcs
  exact String.toList_inj.1 hcs

namespace Mark

/-- A sign stands between parts that hold marks of lower levels only. -/
def level : Mark → Nat
  | char _ | gap => 0
  | symbolEnd => 1
  | bar => 2
  | arrow => 3
  | rowEnd | opening | closing => 4

end Mark

theorem level_nameMarks (cs : List Char) : ∀ m ∈ nameMarks cs, m.level = 0 := by
  induction cs with
  | nil => simp [nameMarks]
  | cons c cs ih =>
      intro m hm
      rw [nameMarks, List.mem_cons, List.mem_append] at hm
      rcases hm with rfl | hgap | hrest
      · rfl
      · split at hgap
        · rw [List.mem_singleton.1 hgap, Mark.level]
        · cases hgap
      · exact ih m hrest

def joined (sign : Mark) (parts : List (List Mark)) : List Mark :=
  [.char ' ', sign].intercalate parts

theorem level_joined {sign : Mark} {parts : List (List Mark)} {n : Nat} (hsign : sign.level ≤ n)
    (hparts : ∀ part ∈ parts, ∀ m ∈ part, m.level ≤ n) : ∀ m ∈ joined sign parts, m.level ≤ n := by
  intro m hm
  cases parts with
  | nil => cases hm
  | cons part parts =>
      obtain ⟨hpart, hrest⟩ := List.forall_mem_cons.1 hparts
      rw [joined, intercalate_cons, List.mem_append, List.mem_flatMap] at hm
      rcases hm with hm | ⟨next, hnext, hm⟩
      · exact hpart m hm
      · simp only [List.cons_append, List.nil_append, List.mem_cons] at hm
        rcases hm with rfl | rfl | hm
        · exact Nat.zero_le n
        · exact hsign
        · exact hrest next hnext m hm

theorem joined_inj {sign : Mark} {ls ms : List (List Mark)} (hsign : 0 < sign.level) (hl : ls ≠ []) (hm : ms ≠ [])
    (hls : ∀ part ∈ ls, ∀ m ∈ part, m.level < sign.level) (hms : ∀ part ∈ ms, ∀ m ∈ part, m.level < sign.level)
    (h : joined sign ls = joined sign ms) : ls = ms := by
  have hne : Mark.char ' ' ≠ sign := by
    rintro rfl
    exact lt_irrefl 0 hsign
  exact intercalate_pair_inj hne hl hm (fun part hp hs => lt_irrefl _ (hls part hp _ hs))
    (fun part hp hs => lt_irrefl _ (hms part hp _ hs)) h

def productionMarks (names : List String) : List Mark :=
  joined .symbolEnd (names.map fun name => nameMarks name.toList)

def rightsMarks (rights : List (List String)) : List Mark :=
  joined .bar (rights.map productionMarks)

def entryMarks (e : Entry) : List Mark :=
  if e.rights = [] then [] else joined .arrow [nameMarks e.left.toList, rightsMarks e.rights]

def tableMarks (l : Listing) : List Mark :=
  [.rowEnd].intercalate ([.opening] :: (l.entries.map entryMarks ++ [[.closing]]))

theorem level_productionMarks (names : List String) : ∀ m ∈ productionMarks names, m.level ≤ 1 :=
  level_joined (le_refl 1) fun part hpart m hm => by
    obtain ⟨name, -, rfl⟩ := List.mem_map.1 hpart
    simp [level_nameMarks _ m hm]

theorem level_rightsMarks (rights : List (List String)) : ∀ m ∈ rightsMarks rights, m.level ≤ 2 :=
  level_joined (le_refl 2) fun part hpart m hm => by
    obtain ⟨names, -, rfl⟩ := List.mem_map.1 hpart
    exact (level_productionMarks names m hm).trans (by decide)

theorem level_entryMarks (e : Entry) : ∀ m ∈ entryMarks e, m.level ≤ 3 := by
  intro m hm
  unfold entryMarks at hm
  split at hm
  · cases hm
  · refine level_joined (le_refl 3) (fun part hpart m hm => ?_) m hm
    rcases List.mem_pair.1 hpart with rfl | rfl
    · simp [level_nameMarks _ m hm]
    · exact (level_rightsMarks _ m hm).trans (by decide)

theorem productionMarks_inj (names names' : List String) (hne : names ≠ []) (hne' : names' ≠ [])
    (h : productionMarks names = productionMarks names') : names = names' := by
  have hlevel (names : List String) : ∀ part ∈ names.map fun name => nameMarks name.toList,
      ∀ m ∈ part, m.level < Mark.symbolEnd.level := by
    intro part hpart m hm
    obtain ⟨name, -, rfl⟩ := List.mem_map.1 hpart
    exact (level_nameMarks _ m hm).trans_lt (by decide)
  have hmap := joined_inj (by decide) (by simpa using hne) (by simpa using hne') (hlevel names) (hlevel names') h
  exact List.map_injective_iff.2 nameMarks_injective hmap

theorem rightsMarks_inj {rights rights' : List (List String)} (hne : rights ≠ []) (hne' : rights' ≠ [])
    (hnames : ∀ names ∈ rights, names ≠ []) (hnames' : ∀ names ∈ rights', names ≠ [])
    (h : rightsMarks rights = rightsMarks rights') : rights = rights' := by
  have hlevel (rights : List (List String)) : ∀ part ∈ rights.map productionMarks,
      ∀ m ∈ part, m.level < Mark.bar.level := by
    intro part hpart m hm
    obtain ⟨names, -, rfl⟩ := List.mem_map.1 hpart
    exact (level_productionMarks names m hm).trans_lt (by decide)
  have hmap := joined_inj (by decide) (by simpa using hne) (by simpa using hne') (hlevel rights) (hlevel rights') h
  have hall := forall₂_of_map_eq productionMarks_inj hnames hnames' hmap
  rwa [List.forall₂_eq_eq_eq] at hall

theorem entryMarks_ne_nil {e : Entry} (h : e.rights ≠ []) : entryMarks e ≠ [] := by
  rw [entryMarks, if_neg h, joined, List.intercalate_cons_cons]
  simp

/-- A row says what its entry is if the entry has productions, and that it has none otherwise. -/
theorem entryMarks_inj (e f : Entry) (he : ∀ names ∈ e.rights, names ≠ []) (hf : ∀ names ∈ f.rights, names ≠ [])
    (h : entryMarks e = entryMarks f) : (e.rights = [] ↔ f.rights = []) ∧ (e.rights ≠ [] → e = f) := by
  have hnil : e.rights = [] ↔ f.rights = [] := by
    constructor <;> intro hr <;> by_contra hne
    · exact entryMarks_ne_nil hne (by rw [← h, entryMarks, if_pos hr])
    · exact entryMarks_ne_nil hne (by rw [h, entryMarks, if_pos hr])
  refine ⟨hnil, fun hne => ?_⟩
  have hne' : f.rights ≠ [] := fun hr => hne (hnil.2 hr)
  have hlevel (e : Entry) : ∀ part ∈ [nameMarks e.left.toList, rightsMarks e.rights],
      ∀ m ∈ part, m.level < Mark.arrow.level := by
    intro part hpart m hm
    rcases List.mem_pair.1 hpart with rfl | rfl
    · exact (level_nameMarks _ m hm).trans_lt (by decide)
    · exact (level_rightsMarks _ m hm).trans_lt (by decide)
  rw [entryMarks, entryMarks, if_neg hne, if_neg hne'] at h
  have hparts := joined_inj (by decide) (by simp) (by simp) (hlevel e) (hlevel f) h
  obtain ⟨hleft, hrest⟩ := List.cons.inj hparts
  obtain ⟨hrights, -⟩ := List.cons.inj hrest
  exact congrArg₂ Entry.mk (nameMarks_injective hleft) (rightsMarks_inj hne hne' he hf hrights)

theorem toList_flatMap_escape (name : String) :
    (escape name).toList.flatMap epsilonMacro = (nameMarks name.toList).flatMap Mark.chars := by
  rw [escape, String.toList_ofList, flatMap_nameMarks]

theorem toList_flatMap_intercalate {sep : String} {sign : Mark} {parts : List String} {marks : List (List Mark)}
    (hsign : sep.toList.flatMap epsilonMacro = ' ' :: sign.chars)
    (hparts : parts.map (·.toList.flatMap epsilonMacro) = marks.map (·.flatMap Mark.chars)) :
    (sep.intercalate parts).toList.flatMap epsilonMacro = (joined sign marks).flatMap Mark.chars := by
  have hpair : [Mark.char ' ', sign].flatMap Mark.chars = ' ' :: sign.chars := by
    rw [List.flatMap_cons, List.flatMap_singleton]
    rfl
  rw [String.toList_intercalate, flatMap_intercalate, joined, flatMap_intercalate, List.map_map, hsign, hpair, ← hparts]
  rfl

theorem toList_row (e : Entry) : (row true e).toList = (entryMarks e).flatMap Mark.chars := by
  have hproduction (names : List String) :
      (" \\ ".intercalate (names.map escape)).toList.flatMap epsilonMacro =
        (productionMarks names).flatMap Mark.chars := by
    refine toList_flatMap_intercalate (by decide) ?_
    rw [List.map_map, List.map_map]
    refine List.map_congr_left fun name _ => ?_
    rw [Function.comp_apply, toList_flatMap_escape, Function.comp_apply]
  have hrights : (" \\mid ".intercalate (e.rights.map fun names =>
      " \\ ".intercalate (names.map escape))).toList.flatMap epsilonMacro =
        (rightsMarks e.rights).flatMap Mark.chars := by
    refine toList_flatMap_intercalate (by decide) ?_
    rw [List.map_map, List.map_map]
    exact List.map_congr_left fun names _ => hproduction names
  unfold row entryMarks
  split
  · rfl
  · have harrow : " & \\rightarrow &".toList.flatMap epsilonMacro = [.char ' ', .arrow].flatMap Mark.chars := by
      decide
    rw [String.toList_ofList, if_pos rfl, String.toList_append, String.toList_append, List.flatMap_append,
      List.flatMap_append, toList_flatMap_escape, harrow, hrights, joined, List.intercalate_cons_cons,
      List.intercalate_singleton, List.flatMap_append, List.flatMap_append]

theorem toList_table (l : Listing) : (table l).toList = (tableMarks l).flatMap Mark.chars := by
  have hrows : (l.entries.map (row true)).map String.toList =
      (l.entries.map entryMarks).map (·.flatMap Mark.chars) := by
    rw [List.map_map, List.map_map]
    exact List.map_congr_left fun e _ => toList_row e
  have hsign : [Mark.rowEnd].flatMap Mark.chars = "\\\\\n".toList := List.flatMap_singleton ..
  have hopening : [Mark.opening].flatMap Mark.chars = "\\[\\begin\x7barray\x7d\x7bcll\x7d".toList :=
    List.flatMap_singleton ..
  have hclosing : [Mark.closing].flatMap Mark.chars = "\\end\x7barray\x7d\\]".toList := List.flatMap_singleton ..
  simp only [table, tableMarks, String.toList_intercalate, flatMap_intercalate, List.map_append, List.map_cons,
    List.map_nil, List.cons_append, List.nil_append, hrows, hsign, hopening, hclosing]

theorem table_congr {l m : Listing}
    (h : List.Forall₂ (fun e f => (e.rights = [] ↔ f.rights = []) ∧ (e.rights ≠ [] → e = f)) l.entries m.entries) :
    table l = table m := by
  have hrows : l.entries.map (row true) = m.entries.map (row true) := by
    rw [← List.forall₂_eq_eq_eq, List.forall₂_map_left_iff, List.forall₂_map_right_iff]
    refine h.imp fun e f hef => ?_
    by_cases hr : e.rights = []
    · rw [row, row, if_pos hr, if_pos (hef.1.1 hr)]
    · rw [hef.2 hr]
  rw [table, table, hrows]

/-- A table says how many rules there are, which of them have productions, and the names in those. -/
theorem table_eq {l m : Listing} (hl : ∀ e ∈ l.entries, ∀ names ∈ e.rights, names ≠ [])
    (hm : ∀ e ∈ m.entries, ∀ names ∈ e.rights, names ≠ []) : table l = table m ↔
      List.Forall₂ (fun e f => (e.rights = [] ↔ f.rights = []) ∧ (e.rights ≠ [] → e = f)) l.entries m.entries := by
  refine ⟨fun h => ?_, table_congr⟩
  have hmarks : tableMarks l = tableMarks m := by
    have htext := congrArg String.toList h
    rw [toList_table, toList_table] at htext
    exact flatMap_chars_injective htext
  have hfree (l : Listing) : ∀ row ∈ [.opening] :: (l.entries.map entryMarks ++ [[.closing]]), .rowEnd ∉ row := by
    intro row hrow hend
    rw [List.mem_cons, List.mem_append, List.mem_map, List.mem_singleton] at hrow
    rcases hrow with rfl | ⟨e, -, rfl⟩ | rfl
    · simp at hend
    · exact absurd (level_entryMarks e _ hend) (by decide)
    · simp at hend
  have hrows := intercalate_inj (List.cons_ne_nil _ _) (List.cons_ne_nil _ _) (hfree l) (hfree m) hmarks
  have hentries : l.entries.map entryMarks = m.entries.map entryMarks :=
    List.append_cancel_right (List.cons.inj hrows).2
  exact forall₂_of_map_eq entryMarks_inj hl hm hentries

end Latex

namespace Grammar

theorem WellFormed.entry_names_ne_nil {g : Grammar} (hg : g.WellFormed) :
    ∀ e ∈ g.listing.entries, ∀ names ∈ e.rights, names ≠ [] := by
  intro e he names hnames
  obtain ⟨r, hr, rfl⟩ := List.mem_map.1 he
  obtain ⟨p, hp, rfl⟩ := List.mem_map.1 hnames
  exact List.map_eq_nil_iff.not.2 (hg.ne_nil r hr p hp)

/-- Two grammars have the same table if their rules are the same, from first to last, up to the left sides of those
without productions and the kinds of the symbols that the others name. -/
theorem table_eq_iff {g h : Grammar} (hg : g.WellFormed) (hh : h.WellFormed) :
    Latex.table g.listing = Latex.table h.listing ↔
      List.Forall₂ (fun r s => (r.alternatives = [] ↔ s.alternatives = []) ∧
        (r.alternatives ≠ [] → r.left = s.left ∧
          r.alternatives.map (·.map Symbol.name) = s.alternatives.map (·.map Symbol.name))) g.rules h.rules := by
  have hentries := Latex.table_eq hg.entry_names_ne_nil hh.entry_names_ne_nil
  rw [hentries, listing, listing, List.forall₂_map_left_iff, List.forall₂_map_right_iff]
  simp only [Rule.entry, List.map_eq_nil_iff, ne_eq, Entry.mk.injEq]

def signed : Grammar :=
  ⟨"--[", ["\\ ", "&\nε"],
    [⟨"--[", [[.terminal "\\ ", .nonTerminal "~ ", .terminal "&\nε"], [.epsilon]]⟩, ⟨"~ ", []⟩]⟩

def resigned : Grammar :=
  ⟨"--[", ["~ ", "&\nε"],
    [⟨"--[", [[.nonTerminal "\\ ", .terminal "~ ", .terminal "&\nε"], [.epsilon]]⟩, ⟨"\\ ", []⟩]⟩

theorem resigned_table_eq : signed.WellFormed ∧ resigned.WellFormed ∧ quoting.WellFormed ∧
    Latex.table signed.listing = "\\[\\begin\x7barray\x7d\x7bcll\x7d\\\\\n" ++
      "-\x7b\x7d-\x7b[\x7d & \\rightarrow &\\textbackslash\x7b\x7d  \\ \\textasciitilde\x7b\x7d  \\ \\&\n\\epsilon" ++
      " \\mid \\epsilon\\\\\n\\\\\n\\end\x7barray\x7d\\]" ∧
    signed.rules ≠ resigned.rules ∧ Latex.table resigned.listing = Latex.table signed.listing ∧
    Latex.table quoting.listing ≠ Latex.table signed.listing := by
  have hs : signed.WellFormed := .of_fault?_eq_none (by decide) (by decide) (by decide) (by decide)
  have hr : resigned.WellFormed := .of_fault?_eq_none (by decide) (by decide) (by decide) (by decide)
  refine ⟨hs, hr, quoting_wellFormed, by decide +kernel, by decide, (table_eq_iff hr hs).2 ?_, fun h => ?_⟩
  · exact .cons (by decide) (.cons (by decide) .nil)
  · cases (table_eq_iff quoting_wellFormed hs).1 h with
    | cons hrow _ => exact absurd hrow (by decide)

end Grammar

end NormalForms
