import NormalForms.Grammar.Shaping
import NormalForms.Proofs.Links
import NormalForms.Proofs.Unfolding
import NormalForms.Proofs.Updates

namespace NormalForms

namespace Grammar

open Helper

variable {g : Grammar}

theorem mem_helpers_of_asked {asked : List Helper} (hp : asked <+: g.requests) {h : Helper} (hh : h ∈ asked) :
    h ∈ g.helpers :=
  List.mem_eraseDups.2 (hp.subset hh)

/-- A link is asked for only once. -/
theorem not_mem_of_isLink (hn : g.nonTerminals.Nodup) {asked : List Helper} {h : Helper}
    (hp : asked ++ [h] <+: g.requests) (hl : h.isLink = true) : h ∉ asked := by
  have hlinks : ((asked ++ [h]).filter isLink).Nodup := by
    refine List.Nodup.sublist (hp.sublist.filter isLink) ?_
    rw [filter_isLink_requests]
    exact links_nodup hn
  rw [List.filter_append, List.filter_cons_of_pos hl, List.nodup_append] at hlinks
  exact fun hm => hlinks.2.2 h (List.mem_filter.2 ⟨hm, hl⟩) h List.mem_cons_self rfl

end Grammar

namespace Shaping

open Grammar Helper

variable {g : Grammar} {asked : List Helper} {s t u : Shaping}

/-- The state of a run that has asked for the given helpers. -/
structure Tracks (g : Grammar) (asked : List Helper) (s : Shaping) : Prop where
  start : s.grammar.start = g.start
  terminals : s.grammar.terminals = g.terminals
  nonTerminals : s.grammar.nonTerminals = g.nonTerminals ++ asked.eraseDups.map g.helperName
  wrappers : ∀ a, s.wrappers.lookup a = if .wrapper a ∈ asked then some (g.helperName (.wrapper a)) else none
  count : s.count = asked.eraseDups.countP isLink

theorem Tracks.mem_nonTerminals (ht : Tracks g asked s) {a : String} :
    a ∈ s.grammar.nonTerminals ↔ a ∈ g.nonTerminals ∨ ∃ h ∈ asked, g.helperName h = a := by
  simp [ht.nonTerminals]

/-- The name that a run finds for a new helper. -/
theorem Tracks.freshName (ht : Tracks g asked s) {h : Helper} (hp : asked ++ [h] <+: g.requests) (hh : h ∉ asked) :
    s.grammar.freshName (h.base s.count) = g.helperName h := by
  obtain ⟨more, he⟩ := hp
  have hhelpers : g.helpers = asked.eraseDups ++ h :: (more.removeAll (asked ++ [h])).eraseDups := by
    rw [helpers, ← requests, ← he, List.eraseDups_append, eraseDups_concat_of_not_mem hh, List.append_assoc]
    rfl
  rw [helperName_eq hhelpers, Grammar.freshName, ht.count]
  apply primed_congr
  intro a
  simp only [takenNames, ht.terminals, ht.nonTerminals, List.mem_append, List.mem_reverse]
  grind

/-- Names stay declared. -/
theorem Tracks.mem_of_mem (hs : Tracks g asked s) {new : List Helper} (ht : Tracks g (asked ++ new) t) {a : String}
    (ha : a ∈ s.grammar.nonTerminals) : a ∈ t.grammar.nonTerminals :=
  ht.mem_nonTerminals.2 ((hs.mem_nonTerminals.1 ha).imp id fun ⟨h, hh, he⟩ => ⟨h, List.mem_append_left new hh, he⟩)

theorem Tracks.declare (ht : Tracks g asked s) {h : Helper} (hp : asked ++ [h] <+: g.requests) (hh : h ∉ asked)
    {wrappers : List (String × String)} (hw : ∀ a, wrappers.lookup a =
      if .wrapper a ∈ asked ++ [h] then some (g.helperName (.wrapper a)) else none) :
    g.helperName h ∉ s.grammar.nonTerminals ∧ Tracks g (asked ++ [h])
      ⟨s.grammar.addNonTerminal (g.helperName h), wrappers, s.count + [h].countP isLink⟩ := by
  have hfree : g.helperName h ∉ s.grammar.nonTerminals := by
    rw [← ht.freshName hp hh]
    exact (freshName_not_mem _ _).2.2
  refine ⟨hfree, ?_, ?_, ?_, hw, ?_⟩
  · rw [addNonTerminal_start, ht.start]
  · rw [addNonTerminal_terminals, ht.terminals]
  · rw [addNonTerminal_nonTerminals hfree, ht.nonTerminals, eraseDups_concat_of_not_mem hh, List.map_append,
      List.append_assoc]
    rfl
  · rw [eraseDups_concat_of_not_mem hh, List.countP_append, ht.count]

/-- What a part of a run does to the state: it asks for some helpers and gives their productions to those that are new,
and it appends productions to one name and leaves the others as they are. -/
structure Adds (g : Grammar) (current : String) (added : List Production) (asked new : List Helper)
    (s t : Shaping) : Prop where
  tracks : Tracks g (asked ++ new) t
  placed : t.grammar.productions current = s.grammar.productions current ++ added
  kept : ∀ a ∈ s.grammar.nonTerminals, a ≠ current → t.grammar.productions a = s.grammar.productions a
  made : ∀ h ∈ new, h ∉ asked → t.grammar.productions (g.helperName h) = (rule g.helperName h).alternatives

theorem Adds.refl (ht : Tracks g asked s) (current : String) : Adds g current [] asked [] s s where
  tracks := by rwa [List.append_nil]
  placed := (List.append_nil _).symm
  kept _ _ _ := rfl
  made _ hm := absurd hm List.not_mem_nil

theorem Adds.trans {current : String} {added more : List Production} {new newer : List Helper}
    (hs : Tracks g asked s) (h : Adds g current added asked new s t) (h' : Adds g current more (asked ++ new) newer t u)
    (hc : current ∈ g.nonTerminals) (hp : asked ++ new <+: g.requests) :
    Adds g current (added ++ more) asked (new ++ newer) s u where
  tracks := by
    rw [← List.append_assoc]
    exact h'.tracks
  placed := by rw [h'.placed, h.placed, List.append_assoc]
  kept a ha hne := (h'.kept a (hs.mem_of_mem h.tracks ha) hne).trans (h.kept a ha hne)
  made k hk hnew := by
    by_cases hm : k ∈ new
    · have hk' : k ∈ asked ++ new := List.mem_append_right asked hm
      have hne : g.helperName k ≠ current := fun he => (helperName_free (mem_helpers_of_asked hp hk')).2.2 (he ▸ hc)
      rw [h'.kept _ (h.tracks.mem_nonTerminals.2 (.inr ⟨k, hk', rfl⟩)) hne]
      exact h.made k hm hnew
    · refine h'.made k ((List.mem_append.1 hk).resolve_left hm) ?_
      rw [List.mem_append]
      exact not_or.2 ⟨hnew, hm⟩

theorem Tracks.addProduction (ht : Tracks g asked s) {current : String} (hc : current ∈ s.grammar.nonTerminals)
    {p : Production} (hp : p ∉ s.grammar.productions current) :
    Adds g current [p] asked [] s (s.addProduction current p) where
  tracks := by
    rw [List.append_nil]
    refine ⟨?_, ?_, ?_, ht.wrappers, ht.count⟩
    · exact (addProduction_start current p).trans ht.start
    · exact (addProduction_terminals current p).trans ht.terminals
    · exact (addProduction_nonTerminals hc p).trans ht.nonTerminals
  placed := addProduction_productions_self hc hp
  kept _ _ hne := addProduction_productions_of_ne hne p
  made _ hm := absurd hm List.not_mem_nil

theorem Tracks.wrapper_of_mem (ht : Tracks g asked s) {a : String} (hm : .wrapper a ∈ asked) (current : String) :
    (s.wrapper a).1 = g.helperName (.wrapper a) ∧ Adds g current [] asked [.wrapper a] s (s.wrapper a).2 := by
  have hl : s.wrappers.lookup a = some (g.helperName (.wrapper a)) := by rw [ht.wrappers, if_pos hm]
  simp only [Shaping.wrapper, hl, true_and]
  refine ⟨⟨ht.start, ht.terminals, ?_, fun b => ?_, ?_⟩, (List.append_nil _).symm, fun _ _ _ => rfl, ?_⟩
  · rw [eraseDups_concat_of_mem hm, ht.nonTerminals]
  · rw [ht.wrappers]
    grind
  · rw [eraseDups_concat_of_mem hm, ht.count]
  · intro h hh hnew
    exact absurd (List.mem_singleton.1 hh ▸ hm) hnew

theorem Tracks.wrapper_of_not_mem (ht : Tracks g asked s) {a current : String}
    (hp : asked ++ [.wrapper a] <+: g.requests) (hm : .wrapper a ∉ asked) (hc : current ∈ g.nonTerminals) :
    (s.wrapper a).1 = g.helperName (.wrapper a) ∧ Adds g current [] asked [.wrapper a] s (s.wrapper a).2 := by
  have hl : s.wrappers.lookup a = none := by rw [ht.wrappers, if_neg hm]
  have hname : s.grammar.freshName ("T_" ++ a) = g.helperName (.wrapper a) := ht.freshName hp hm
  have hw : ∀ b, (s.wrappers ++ [(a, g.helperName (.wrapper a))]).lookup b =
      if .wrapper b ∈ asked ++ [.wrapper a] then some (g.helperName (.wrapper b)) else none := by
    intro b
    rw [List.lookup_append, ht.wrappers]
    grind
  obtain ⟨hfree, htracks⟩ := ht.declare hp hm hw
  have hdeclared := htracks.mem_nonTerminals.2 (.inr ⟨_, List.mem_append_right _ List.mem_cons_self, rfl⟩)
  have hnone : s.grammar.productions (g.helperName (.wrapper a)) = [] := productions_of_not_mem hfree
  have hadds := htracks.addProduction (p := [.terminal a]) hdeclared (by simp [hnone])
  have hkept : ∀ b ∈ s.grammar.nonTerminals, (s.wrapper a).2.grammar.productions b = s.grammar.productions b := by
    intro b hb
    have hne : b ≠ g.helperName (.wrapper a) := by
      rintro rfl
      exact hfree hb
    simp [Shaping.wrapper, hl, hname, addProduction_productions_of_ne hne]
  refine ⟨?_, ?_, ?_, fun b hb _ => hkept b hb, fun h hh _ => ?_⟩
  · simp only [Shaping.wrapper, hl, hname]
  · simpa [Shaping.wrapper, hl, hname, Shaping.addProduction, isLink] using hadds.tracks
  · rw [List.append_nil, hkept current (ht.mem_nonTerminals.2 (.inl hc))]
  · rw [List.mem_singleton.1 hh]
    simpa [Shaping.wrapper, hl, hname, Shaping.addProduction, hnone, rule] using hadds.placed

/-- A wrapper is made when the terminal is met for the first time, and found again later. -/
theorem Tracks.wrapper (ht : Tracks g asked s) {a current : String} (hp : asked ++ [.wrapper a] <+: g.requests)
    (hc : current ∈ g.nonTerminals) : (s.wrapper a).1 = g.helperName (.wrapper a) ∧
      Adds g current [] asked [.wrapper a] s (s.wrapper a).2 := by
  by_cases hm : Helper.wrapper a ∈ asked
  · exact ht.wrapper_of_mem hm current
  · exact ht.wrapper_of_not_mem hp hm hc

theorem Tracks.wrap (ht : Tracks g asked s) {current : String} (hc : current ∈ g.nonTerminals) (p : Production)
    (hp : asked ++ (Production.terminals p).map .wrapper <+: g.requests) :
    (s.wrap p).1 = p.map (wrapped g.helperName) ∧
      Adds g current [] asked ((Production.terminals p).map .wrapper) s (s.wrap p).2 := by
  induction p generalizing asked s with
  | nil => exact ⟨rfl, .refl ht current⟩
  | cons x p ih =>
      cases x with
      | epsilon | nonTerminal =>
          obtain ⟨hwrap, hadds⟩ := ih ht hp
          exact ⟨congrArg (_ :: ·) hwrap, hadds⟩
      | terminal a =>
          have hsplit : (Production.terminals (.terminal a :: p)).map Helper.wrapper =
            [.wrapper a] ++ (Production.terminals p).map .wrapper := rfl
          rw [hsplit] at hp ⊢
          rw [← List.append_assoc] at hp
          have hfirst := (List.prefix_append _ _).trans hp
          obtain ⟨hname, hadds⟩ := ht.wrapper hfirst hc
          obtain ⟨hwrap, hadds'⟩ := ih hadds.tracks hp
          exact ⟨congrArg₂ (fun name p => Symbol.nonTerminal name :: p) hname hwrap, hadds.trans ht hadds' hc hfirst⟩

/-- A link is a new name without alternatives. -/
theorem Tracks.link (ht : Tracks g asked s) (hn : g.nonTerminals.Nodup) {left : String} {number : Nat}
    {rest : Production} (hp : asked ++ [.link left number rest] <+: g.requests) :
    (s.link left).1 = g.helperName (.link left number rest) ∧
      Tracks g (asked ++ [.link left number rest]) (s.link left).2 ∧
      g.helperName (.link left number rest) ∉ s.grammar.nonTerminals ∧
      ∀ a, (s.link left).2.grammar.productions a = s.grammar.productions a := by
  have hm : Helper.link left number rest ∉ asked := not_mem_of_isLink hn hp rfl
  have hname : s.grammar.freshName (left ++ "_" ++ toString (s.count + 1)) = g.helperName (.link left number rest) :=
    ht.freshName hp hm
  obtain ⟨hfree, htracks⟩ := ht.declare hp hm fun a => by simpa using ht.wrappers a
  simp only [Shaping.link, hname, true_and]
  exact ⟨htracks, hfree, fun a => addNonTerminal_productions _ a⟩

/-- A production is given to the current name, with its end to the first of the links, and so on along the links. -/
theorem Tracks.fold (ht : Tracks g asked s) (hn : g.nonTerminals.Nodup) {left current : String} {number : Nat}
    (hc : current ∈ s.grammar.nonTerminals) {p : Production} (hlen : 2 ≤ p.length)
    (hp : asked ++ Helper.links left number p <+: g.requests)
    (hnew : shaped g.helperName left number p ∉ s.grammar.productions current) :
    Adds g current [shaped g.helperName left number p] asked (Helper.links left number p) s
      (s.fold left current (p.map (wrapped g.helperName))) := by
  induction p using links.induct generalizing asked s current with
  | case1 x y z p ih =>
      -- The link is declared before the pair that refers to it; its own pair is what the induction adds.
      rw [Helper.links, ← List.singleton_append, ← List.append_assoc] at hp
      obtain ⟨hname, htracks, hfree, hsame⟩ := ht.link hn ((List.prefix_append _ _).trans hp)
      have hstep : s.fold left current ((x :: y :: z :: p).map (wrapped g.helperName)) =
          ((s.link left).2.addProduction current (shaped g.helperName left number (x :: y :: z :: p))).fold left
            (g.helperName (.link left number (y :: z :: p))) ((y :: z :: p).map (wrapped g.helperName)) := by
        rw [shaped, ← hname]
        rfl
      have hdeclared : ∀ {a}, a ∈ s.grammar.nonTerminals → a ∈ (s.link left).2.grammar.nonTerminals :=
        ht.mem_of_mem htracks
      have hlink : g.helperName (.link left number (y :: z :: p)) ∈ (s.link left).2.grammar.nonTerminals :=
        htracks.mem_nonTerminals.2 (.inr ⟨_, List.mem_append_right _ List.mem_cons_self, rfl⟩)
      have hne : ∀ {a}, a ∈ s.grammar.nonTerminals → a ≠ g.helperName (.link left number (y :: z :: p)) := by
        rintro a ha rfl
        exact hfree ha
      have hpair := htracks.addProduction (hdeclared hc) (hsame current ▸ hnew)
      have hnames := addProduction_nonTerminals (hdeclared hc) (shaped g.helperName left number (x :: y :: z :: p))
      have hnone := (hpair.kept _ hlink (hne hc).symm).trans ((hsame _).trans (productions_of_not_mem hfree))
      have hrest := ih hpair.tracks (hnames ▸ hlink) (by simp) (by simpa using hp) (by simp [hnone])
      rw [hstep]
      refine ⟨?_, ?_, fun a ha hac => ?_, fun h hh hnew => ?_⟩
      · simpa [Helper.links] using hrest.tracks
      · rw [hrest.kept current (hnames ▸ hdeclared hc) (hne hc), hpair.placed, hsame]
      · rw [hrest.kept a (hnames ▸ hdeclared ha) (hne ha), hpair.kept a (hdeclared ha) hac, hsame]
      · by_cases he : h = .link left number (y :: z :: p)
        · rw [he, hrest.placed, hnone]
          rfl
        · refine hrest.made h ((List.mem_cons.1 hh).resolve_left he) ?_
          simp [hnew, he]
  | case2 p hshort =>
      have hlinks : Helper.links left number p = [] := links.eq_2 left number p hshort
      have hpair := ht.addProduction hc hnew
      rw [hlinks]
      cases p using shaped.fun_cases with
      | case1 | case2 => simp at hlen
      | case3 x y => exact hpair
      | case4 x y z p => exact absurd rfl (hshort x y z p)

theorem Tracks.place (ht : Tracks g asked s) (hn : g.nonTerminals.Nodup) {left : String} {number : Nat}
    (hl : left ∈ g.nonTerminals) {p : Production} (hp : asked ++ needed left number p <+: g.requests)
    (hnew : shaped g.helperName left number p ∉ s.grammar.productions left) :
    Adds g left [shaped g.helperName left number p] asked (needed left number p) s (s.place left p) := by
  have hdeclared : left ∈ s.grammar.nonTerminals := ht.mem_nonTerminals.2 (.inl hl)
  unfold needed at hp ⊢
  unfold Shaping.place
  by_cases hlen : p.length < 2
  · rw [if_pos hlen, if_pos hlen]
    have hshort : shaped g.helperName left number p = p := by
      cases p using shaped.fun_cases with
      | case1 | case2 => rfl
      | case3 | case4 =>
          simp only [List.length_cons] at hlen
          omega
    rw [hshort] at hnew ⊢
    exact ht.addProduction hdeclared hnew
  · rw [if_neg hlen, ← List.append_assoc] at hp
    rw [if_neg hlen, if_neg hlen]
    have hfirst := (List.prefix_append _ _).trans hp
    obtain ⟨hwrap, hadds⟩ := ht.wrap hl p hfirst
    have hsame : (s.wrap p).2.grammar.productions left = s.grammar.productions left := by simp [hadds.placed]
    have hfold := hadds.tracks.fold hn (hadds.tracks.mem_nonTerminals.2 (.inl hl)) (by omega) hp (hsame ▸ hnew)
    simp only [hwrap]
    exact hadds.trans ht hfold hl hfirst

theorem Tracks.foldl_place (ht : Tracks g asked s) (hn : g.nonTerminals.Nodup) {left : String}
    (hl : left ∈ g.nonTerminals) (l : List (Production × Nat))
    (hp : asked ++ (l.flatMap fun e => needed left e.2 e.1) <+: g.requests)
    (hnew : (s.grammar.productions left ++ l.map fun e => shaped g.helperName left e.2 e.1).Nodup) :
    Adds g left (l.map fun e => shaped g.helperName left e.2 e.1) asked (l.flatMap fun e => needed left e.2 e.1) s
      ((l.map Prod.fst).foldl (fun s p => s.place left p) s) := by
  induction l generalizing asked s with
  | nil => exact .refl ht left
  | cons e l ih =>
      rw [List.flatMap_cons, ← List.append_assoc] at hp
      rw [List.map_cons, ← List.singleton_append, ← List.append_assoc] at hnew
      have hfirst := (List.prefix_append _ _).trans hp
      have hfree : shaped g.helperName left e.2 e.1 ∉ s.grammar.productions left := by
        have hnodup := (List.nodup_append.1 (List.nodup_append.1 hnew).1).2.2
        exact fun hm => hnodup _ hm _ (List.mem_singleton.2 rfl) rfl
      have hadds := ht.place hn hl hfirst hfree
      exact hadds.trans ht (ih hadds.tracks hp (hadds.placed ▸ hnew)) hl hfirst

theorem Tracks.redo (ht : Tracks g asked s) (hg : g.WellFormed) {r : Rule} (hr : r ∈ g.rules)
    (hsame : s.grammar.productions r.left = r.alternatives) (hp : asked ++ ofRule r <+: g.requests) :
    Tracks g (asked ++ ofRule r) (s.redo r.left) ∧
      (s.redo r.left).grammar.productions r.left = (shapedRule g.helperName r).alternatives ∧
      (∀ a ∈ s.grammar.nonTerminals, a ≠ r.left →
        (s.redo r.left).grammar.productions a = s.grammar.productions a) ∧
      ∀ h ∈ ofRule r, h ∉ asked →
        (s.redo r.left).grammar.productions (g.helperName h) = (rule g.helperName h).alternatives := by
  have hl : r.left ∈ g.nonTerminals := left_mem_nonTerminals hr
  let cleared : Shaping := { s with grammar := s.grammar.modify r.left fun _ => [] }
  have htracks : Tracks g asked cleared :=
    ⟨ht.start, ht.terminals, (modify_nonTerminals _ _).trans ht.nonTerminals, ht.wrappers, ht.count⟩
  have hempty : cleared.grammar.productions r.left = [] :=
    modify_productions_self (ht.mem_nonTerminals.2 (.inl hl)) _
  have hnodup : (shapedRule g.helperName r).alternatives.Nodup :=
    hg.shape.alternatives_nodup _ (mem_shape_rules.2 (.inl ⟨r, hr, rfl⟩))
  have hadds : Adds g r.left (shapedRule g.helperName r).alternatives asked (ofRule r) cleared (s.redo r.left) := by
    have h := htracks.foldl_place hg.nonTerminals_nodup hl r.alternatives.zipIdx hp
      (by rw [hempty, List.nil_append]; exact hnodup)
    rw [List.zipIdx_map_fst] at h
    rw [Shaping.redo, hsame]
    exact h
  refine ⟨hadds.tracks, ?_, fun a ha hne => ?_, hadds.made⟩
  · rw [hadds.placed, hempty, List.nil_append]
  · have hkept := modify_productions_of_ne hne (g := s.grammar) fun _ => []
    exact (hadds.kept a ((modify_nonTerminals _ _).symm ▸ ha) hne).trans hkept

structure Halfway (g : Grammar) (done todo : List Rule) (s : Shaping) : Prop where
  tracks : Tracks g (done.flatMap ofRule) s
  redone : ∀ r ∈ done, s.grammar.productions r.left = (shapedRule g.helperName r).alternatives
  untouched : ∀ r ∈ todo, s.grammar.productions r.left = r.alternatives
  made : ∀ h ∈ done.flatMap ofRule, s.grammar.productions (g.helperName h) = (rule g.helperName h).alternatives

theorem halfway_start (g : Grammar) (hn : g.nonTerminals.Nodup) : Halfway g [] g.rules ⟨g, [], 0⟩ where
  tracks := ⟨rfl, rfl, (List.append_nil _).symm, fun _ => rfl, rfl⟩
  redone _ hr := absurd hr List.not_mem_nil
  untouched _ hr := productions_left hn hr
  made _ hh := absurd hh List.not_mem_nil

theorem Halfway.redo (hg : g.WellFormed) {done todo : List Rule} {r : Rule} (hrules : g.rules = done ++ r :: todo)
    (hs : Halfway g done (r :: todo) s) : Halfway g (done ++ [r]) todo (s.redo r.left) := by
  have hmem : ∀ {q}, q ∈ done ++ r :: todo → q ∈ g.rules := fun hq => hrules ▸ hq
  have hr : r ∈ g.rules := hmem (List.mem_append_right _ List.mem_cons_self)
  have hlefts := hg.nonTerminals_nodup
  rw [nonTerminals, hrules, List.map_append, List.map_cons, List.nodup_append, List.nodup_cons] at hlefts
  have hdone : done.flatMap ofRule ++ ofRule r = (done ++ [r]).flatMap ofRule := by simp
  have hrequests : (done ++ [r]).flatMap ofRule ++ todo.flatMap ofRule = g.requests := by
    rw [requests, hrules, ← List.flatMap_append, List.append_assoc]
    rfl
  have hprefix : done.flatMap ofRule ++ ofRule r <+: g.requests := hdone ▸ ⟨_, hrequests⟩
  obtain ⟨htracks, hshaped, hkept, hmade⟩ :=
    hs.tracks.redo hg hr (hs.untouched r List.mem_cons_self) hprefix
  have hold : ∀ {q}, q ∈ done ++ r :: todo → q.left ≠ r.left →
      (s.redo r.left).grammar.productions q.left = s.grammar.productions q.left := fun hq hne =>
    hkept _ (hs.tracks.mem_nonTerminals.2 (.inl (left_mem_nonTerminals (hmem hq)))) hne
  refine ⟨hdone ▸ htracks, fun q hq => ?_, fun q hq => ?_, fun h hh => ?_⟩
  · rcases List.mem_append.1 hq with hq | hq
    · have hne : q.left ≠ r.left := hlefts.2.2 _ (List.mem_map_of_mem hq) _ List.mem_cons_self
      rw [hold (List.mem_append_left _ hq) hne, hs.redone q hq]
    · rw [List.mem_singleton.1 hq, hshaped]
  · have hne : q.left ≠ r.left := fun he => hlefts.2.1.1 (he ▸ List.mem_map_of_mem hq)
    rw [hold (List.mem_append_right _ (List.mem_cons_of_mem r hq)) hne, hs.untouched q (List.mem_cons_of_mem r hq)]
  · rw [← hdone] at hh
    by_cases hm : h ∈ done.flatMap ofRule
    · have hne : g.helperName h ≠ r.left := fun he =>
        (helperName_free (mem_helpers_of_asked hprefix hh)).2.2 (he ▸ left_mem_nonTerminals hr)
      rw [hkept _ (hs.tracks.mem_nonTerminals.2 (.inr ⟨h, hm, rfl⟩)) hne, hs.made h hm]
    · exact hmade h ((List.mem_append.1 hh).resolve_left hm) hm

theorem Halfway.foldl_redo (hg : g.WellFormed) {done todo : List Rule} (hrules : g.rules = done ++ todo)
    (hs : Halfway g done todo s) : Halfway g g.rules [] ((todo.map (·.left)).foldl Shaping.redo s) := by
  induction todo generalizing done s with
  | nil =>
      rw [List.append_nil] at hrules
      rwa [hrules]
  | cons r todo ih =>
      rw [List.append_cons] at hrules
      exact ih hrules (hs.redo hg (by simpa using hrules))

/-- The run makes the shaped grammar: no new name clashes with those of the grammar by then, and none of the productions
that are put back is taken for one that is there. -/
theorem run_eq_shape (hg : g.WellFormed) : run g = g.shape := by
  have hn := hg.nonTerminals_nodup
  have hend : Halfway g g.rules [] (g.nonTerminals.foldl redo ⟨g, [], 0⟩) :=
    (halfway_start g hn).foldl_redo hg rfl
  have hnames : (run g).nonTerminals = g.shape.nonTerminals := by
    rw [shape_nonTerminals]
    exact hend.tracks.nonTerminals
  refine eq_of_productions (hnames ▸ shape_nodup hn) hend.tracks.start hend.tracks.terminals hnames fun a ha => ?_
  rw [hnames] at ha
  rcases mem_shape_nonTerminals.1 ha with ha | ⟨h, hh, rfl⟩
  · obtain ⟨r, hr, rfl⟩ := mem_nonTerminals.1 ha
    exact (hend.redone r hr).trans (shape_productions_left hn hr).symm
  · exact (hend.made h (List.mem_eraseDups.1 hh)).trans (shape_productions_helperName hn hh).symm

end Shaping

end NormalForms
