import NormalForms.Proofs.Productions

namespace NormalForms.Grammar

def EpsilonAtStart (g : Grammar) : Prop :=
  ∀ left, [.epsilon] ∈ g.productions left → left = g.start ∧ g.occursOnRight g.start = false

def RenamingFree (g : Grammar) : Prop :=
  ∀ left, ∀ p ∈ g.productions left, p.isRenaming = false

def Shaped (g : Grammar) : Prop :=
  ∀ left, ∀ p ∈ g.productions left, (∃ s, p = [s]) ∨ ∃ a b, p = [.nonTerminal a, .nonTerminal b]

structure Within (g h : Grammar) : Prop where
  start_eq : g.start = h.start
  mem_of_mem : ∀ left, ∀ p ∈ g.productions left, p ∈ h.productions left

variable {g h : Grammar}

theorem occursOnRight_eq_false (hn : g.nonTerminals.Nodup) {name : String} :
    g.occursOnRight name = false ↔ ∀ left, ∀ p ∈ g.productions left, .nonTerminal name ∉ p := by
  rw [← Bool.not_eq_true, occursOnRight_iff]
  constructor
  · intro h left p hp hm
    obtain ⟨r, hr, -, hp⟩ := exists_of_mem_productions hp
    exact h ⟨r, hr, p, hp, hm⟩
  · rintro h ⟨r, hr, p, hp, hm⟩
    exact h r.left p (mem_productions_left hn hr hp) hm

theorem Within.trans {k : Grammar} (hg : g.Within h) (hh : h.Within k) : g.Within k where
  start_eq := hg.start_eq.trans hh.start_eq
  mem_of_mem left p hp := hh.mem_of_mem left p (hg.mem_of_mem left p hp)

theorem EpsilonAtStart.within (he : h.EpsilonAtStart) (hw : g.Within h) (hg : g.nonTerminals.Nodup)
    (hh : h.nonTerminals.Nodup) : g.EpsilonAtStart := by
  intro left hp
  obtain ⟨hl, hs⟩ := he left (hw.mem_of_mem left _ hp)
  rw [← hw.start_eq] at hl hs
  refine ⟨hl, (occursOnRight_eq_false hg).2 fun left' p hp' => ?_⟩
  exact (occursOnRight_eq_false hh).1 hs left' p (hw.mem_of_mem left' p hp')

theorem RenamingFree.within (hr : h.RenamingFree) (hw : g.Within h) : g.RenamingFree :=
  fun left p hp => hr left p (hw.mem_of_mem left p hp)

end NormalForms.Grammar
