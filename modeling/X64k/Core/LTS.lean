/-!
# Labelled transition systems

A system is a set of initial states and a labelled step relation. `Run` and
`Reachable` are its finite runs, `Inductive` packages the induction over
them, and `guard` keeps only the steps whose label is allowed in the state
they start from.

`Trace` is a run that writes down the state after each step. `forall_iff_meets`
turns two facts about one step (a condition keeps the invariant; without it
the property breaks) into an equivalence about whole runs.

`Refines` relates a system to a more abstract one, label by label; every run
of the first is then a run of the second. `both` puts two systems side by side.
-/
namespace X64k.Core

structure LTS (S L : Type) where
  init : S → Prop
  step : S → L → S → Prop

namespace LTS
variable {S L : Type}

inductive Run (T : LTS S L) : S → List L → S → Prop where
  | nil (s : S) : Run T s [] s
  | cons {s s' s'' : S} {l : L} {ls : List L} :
      T.step s l s' → Run T s' ls s'' → Run T s (l :: ls) s''

def Reachable (T : LTS S L) (s : S) : Prop := ∃ s₀ ls, T.init s₀ ∧ T.Run s₀ ls s

/-- A run whose steps are computed. -/
theorem Run.of_foldlM {T : LTS S L} {f : S → L → Option S}
    (hf : ∀ s l s', f s l = some s' → T.step s l s') : ∀ {ls : List L} {s s' : S},
    ls.foldlM f s = some s' → T.Run s ls s'
  | [], _, _, h => by cases h; exact .nil _
  | l :: ls, s, s', h => by
    rw [List.foldlM_cons] at h
    obtain ⟨t, ht, h⟩ := Option.bind_eq_some_iff.mp h
    exact .cons (hf s l t ht) (Run.of_foldlM hf h)

theorem Run.split {T : LTS S L} : ∀ {ls ls' : List L} {s s'' : S}, T.Run s (ls ++ ls') s'' →
    ∃ s', T.Run s ls s' ∧ T.Run s' ls' s''
  | [], _, s, _, h => ⟨s, .nil s, h⟩
  | _ :: _, _, _, _, .cons hst h =>
    let ⟨s', h1, h2⟩ := h.split
    ⟨s', .cons hst h1, h2⟩

/-- `I` holds initially and every step keeps it. -/
structure Inductive (T : LTS S L) (I : S → Prop) : Prop where
  init : ∀ s, T.init s → I s
  step : ∀ s l s', I s → T.step s l s' → I s'

theorem Inductive.run {T : LTS S L} {I : S → Prop} (h : T.Inductive I) :
    ∀ {s ls s'}, T.Run s ls s' → I s → I s'
  | _, _, _, .nil _, hs => hs
  | _, _, _, .cons hst hr, hs => h.run hr (h.step _ _ _ hs hst)

theorem Inductive.reachable {T : LTS S L} {I : S → Prop} (h : T.Inductive I) (s : S)
    (hr : T.Reachable s) : I s := by
  obtain ⟨s₀, ls, h0, hrun⟩ := hr
  exact h.run hrun (h.init s₀ h0)

/-- The runs all of whose steps satisfy `C`. -/
def guard (T : LTS S L) (C : S → L → Prop) : LTS S L where
  init := T.init
  step s l s' := T.step s l s' ∧ C s l

/-! ## Traces -/

/-- A run from `s`, as the list of its labels and the states after them. -/
def Trace (T : LTS S L) : S → List (L × S) → Prop
  | _, [] => True
  | s, (l, s') :: tr => T.step s l s' ∧ Trace T s' tr

/-- Every step of the trace satisfies `C` in the state it starts from. -/
def Meets (C : S → L → Prop) : S → List (L × S) → Prop
  | _, [] => True
  | s, (l, s') :: tr => C s l ∧ Meets C s' tr

/-- If, from a state satisfying `I`, the steps that satisfy `C` are exactly
those after which `P` holds, and these lead back into `I`, then `P` holds
after every step of a trace exactly when every step satisfies `C`. -/
theorem forall_iff_meets (T : LTS S L) {I P : S → Prop} {C : S → L → Prop}
    (hP : ∀ s, I s → P s)
    (hkeep : ∀ s l s', I s → T.step s l s' → C s l → I s')
    (hbreak : ∀ s l s', I s → T.step s l s' → P s' → C s l) :
    ∀ (s : S) (tr : List (L × S)), I s → T.Trace s tr →
      ((∀ x ∈ tr, P x.2) ↔ Meets C s tr)
  | _, [], _, _ => by simp [Meets]
  | s, (l, s') :: tr, hI, ⟨hst, htr⟩ => by
    simp only [List.forall_mem_cons, Meets]
    constructor
    · rintro ⟨h1, h2⟩
      have hC := hbreak s l s' hI hst h1
      exact ⟨hC, (forall_iff_meets T hP hkeep hbreak s' tr (hkeep s l s' hI hst hC) htr).mp h2⟩
    · rintro ⟨hC, h2⟩
      have hI' := hkeep s l s' hI hst hC
      exact ⟨hP s' hI', (forall_iff_meets T hP hkeep hbreak s' tr hI' htr).mpr h2⟩

/-! ## Refinement -/

/-- `R` relates every initial state of `T` to one of `U`, and every step of
`T` is a step of `U` with the label that `ρ` makes of its own. -/
structure Refines {S' L' : Type} (T : LTS S L) (U : LTS S' L') (R : S → S' → Prop)
    (ρ : L → L') : Prop where
  init : ∀ s, T.init s → ∃ t, U.init t ∧ R s t
  step : ∀ s t l s', R s t → T.step s l s' → ∃ t', U.step t (ρ l) t' ∧ R s' t'

theorem Refines.run {S' L' : Type} {T : LTS S L} {U : LTS S' L'} {R : S → S' → Prop} {ρ : L → L'}
    (h : T.Refines U R ρ) : ∀ {s t ls s'}, R s t → T.Run s ls s' →
      ∃ t', U.Run t (ls.map ρ) t' ∧ R s' t'
  | _, t, _, _, hR, .nil _ => ⟨t, .nil t, hR⟩
  | _, _, _, _, hR, .cons hst hr => by
    obtain ⟨t₁, h1, hR₁⟩ := h.step _ _ _ _ hR hst
    obtain ⟨t', h2, hR'⟩ := h.run hR₁ hr
    exact ⟨t', .cons h1 h2, hR'⟩

/-! ## Side by side -/

/-- Two systems that take turns in any order. -/
def both {S' L' : Type} (T : LTS S L) (U : LTS S' L') : LTS (S × S') (L ⊕ L') where
  init s := T.init s.1 ∧ U.init s.2
  step s l s' := match l with
    | .inl l => T.step s.1 l s'.1 ∧ s'.2 = s.2
    | .inr l => U.step s.2 l s'.2 ∧ s'.1 = s.1

/-- Each of the two has made a run of its own. -/
theorem Run.both {S' L' : Type} {T : LTS S L} {U : LTS S' L'} :
    ∀ {s s' : S × S'} {ls : List (L ⊕ L')}, (T.both U).Run s ls s' →
      T.Run s.1 (ls.filterMap Sum.getLeft?) s'.1 ∧ U.Run s.2 (ls.filterMap Sum.getRight?) s'.2
  | _, _, _, .nil _ => ⟨.nil _, .nil _⟩
  | _, _, .inl _ :: _, .cons ⟨hst, he⟩ hr =>
    let ⟨h1, h2⟩ := hr.both
    ⟨.cons hst h1, he ▸ h2⟩
  | _, _, .inr _ :: _, .cons ⟨hst, he⟩ hr =>
    let ⟨h1, h2⟩ := hr.both
    ⟨he ▸ h1, .cons hst h2⟩

end LTS
end X64k.Core
