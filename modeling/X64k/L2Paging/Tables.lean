import X64k.L2Paging.View

/-!
# The page tables as a forest

`Tree` is the invariant of the tables under a set of roots: a forest whose
pages are tracked. `Counted` says that each page's counter is its number of
present entries.

* `map_shows`: what `Pml4::map` does, one case per branch (`Mapped`), when it
  does not run out of pages.
* `Mapped.tree`, `Mapped.counted`: the new tables are a forest again, translate
  one page more and nothing else differently, and are counted.
* `unmap_shows`: what `Pml4::unmap` does (`dropped`).
-/
namespace X64k.L2.Paging

open X64k.Core X64k.Core.Radix

/-! ## The invariant -/

/-- The tables under the roots `R` are a forest of tracked pages. -/
structure Tree (s : Statics) (V : Tabs) (R : Set Word) : Prop where
  forest : Forest nx V.E R
  mid : ∀ a ∈ mids nx V.E R, ∃ n < s.pages, a = s.page n ∧ V.trk n = true
  low : ∀ b ∈ lows nx V.E R, ∃ n < s.pages, b = s.page n ∧ V.trk n = true

/-- Counters of named tables are their numbers of present entries. -/
def Counted (s : Statics) (V : Tabs) (R : Set Word) : Prop :=
  ∀ n < s.pages, s.page n ∈ mids nx V.E R ∪ lows nx V.E R →
    (V.cnt n).toNat = presentCount (V.E (s.page n))

/-- Pages that are not tracked have no references. -/
def FreshZero (s : Statics) (V : Tabs) : Prop := ∀ n < s.pages, V.trk n = false → V.cnt n = 0

/-- The roots are tables, and none of them is a page that may be handed out. -/
structure Rooted (s : Statics) (P : Set Word) (V : Tabs) (R : Set Word) : Prop where
  sub : R ⊆ P
  root : ∀ n < s.pages, s.page n ∈ R → V.trk n = true

/-! ## What `map` does -/

/-- `pd[pdi] = leaf` in page `n`, whose counter is incremented. -/
def putLeaf (s : Statics) (V : Tabs) (n : Nat) (k : Fin 512) (leaf : Word) : Tabs :=
  (V.setEntry (s.page n) k leaf).count n (V.cnt n + 1)

/-- A new page directory `n` with one leaf, named by the PDPT `q`. -/
def putPd (s : Statics) (V : Tabs) (q n : Nat) (j k : Fin 512) (leaf : Word) : Tabs :=
  (((((V.track n true).clearPage (s.page n)).setEntry (s.page n) k leaf).setEntry (s.page q) j
    (link (s.page n))).count n (V.cnt n + 1)).count q (V.cnt q + 1)

/-- A new PDPT `q` naming a new page directory `n` with one leaf, named by
the root `r`. -/
def putPdpt (s : Statics) (V : Tabs) (r : Word) (q n : Nat) (i j k : Fin 512) (leaf : Word) : Tabs :=
  (((((((V.track q true).clearPage (s.page q)).track n true).clearPage (s.page n)).setEntry
    (s.page n) k leaf).setEntry (s.page q) j (link (s.page n))).setEntry r i
    (link (s.page q))).count n (V.cnt n + 1) |>.count q (V.cnt q + 1)

/-- The three branches of `Pml4::map` on the path `i`, `j`, `k` below `r`. -/
inductive Mapped (s : Statics) (V : Tabs) (r : Word) (i j k : Fin 512) (leaf : Word) :
    Tabs → Prop where
  | inPd {a : Word} {n : Nat} : nx (V.E r i) = some a → nx (V.E a j) = some (s.page n) →
      n < s.pages → ¬ isPresent (V.E (s.page n) k) →
      Mapped s V r i j k leaf (putLeaf s V n k leaf)
  | newPd {q n : Nat} : nx (V.E r i) = some (s.page q) → nx (V.E (s.page q) j) = none →
      q < s.pages → n < s.pages → V.trk q = true → V.trk n = false →
      Mapped s V r i j k leaf (putPd s V q n j k leaf)
  | newPdpt {q n : Nat} : nx (V.E r i) = none → q < s.pages → n < s.pages → V.trk q = false →
      V.trk n = false → n ≠ q → Mapped s V r i j k leaf (putPdpt s V r q n i j k leaf)

/-- At most one page is left. -/
def Exhausted (s : Statics) (V : Tabs) : Prop :=
  ∀ n < s.pages, ∀ k < s.pages, V.trk n = false → V.trk k = false → n = k

/-- Every page is taken. -/
def Full (s : Statics) (V : Tabs) : Prop := ∀ n < s.pages, V.trk n = true

/-- The pages do not suffice for the new tables on the path `i`, `j` below
`r`: two without a PDPT, one without a page directory. -/
def RunsOut (s : Statics) (V : Tabs) (r : Word) (i j : Fin 512) : Prop :=
  nx (V.E r i) = none ∧ Exhausted s V ∨
    ∃ a, nx (V.E r i) = some a ∧ nx (V.E a j) = none ∧ Full s V

section Map
variable {s : Statics} {m : Mem} {P R : Set Word} {V : Tabs}

/-- There is no more than one page left then. -/
theorem RunsOut.exhausted {r : Word} {i j : Fin 512} (h : RunsOut s V r i j) : Exhausted s V := by
  rcases h with ⟨-, h⟩ | ⟨a, -, -, h⟩
  · exact h
  · intro n hn k _ hnt _
    rw [h n hn] at hnt
    cases hnt

theorem Rooted.not_root (hR : Rooted s P V R) {n : Nat} (hn : n < s.pages) (ht : V.trk n = false) :
    s.page n ∉ R := fun h => by
  rw [hR.root n hn h] at ht
  cases ht

theorem fresh_not_named (hL : Layout s) (hT : Tree s V R) {n : Nat} (hn : n < s.pages)
    (ht : V.trk n = false) : s.page n ∉ mids nx V.E R ∧ s.page n ∉ lows nx V.E R := by
  have hno : ¬ ∃ k < s.pages, s.page n = s.page k ∧ V.trk k = true := by
    rintro ⟨k, hk, he, hk'⟩
    rw [hL.page_inj hn hk] at he
    rw [← he, ht] at hk'
    cases hk'
  exact ⟨fun h => hno (hT.mid _ h), fun h => hno (hT.low _ h)⟩

theorem orPanic_some {α : Type} (a : α) (msg : String) : orPanic (some a) msg = .ok a := rfl

theorem mapNewPd_shows (hL : Layout s) (hD : Domain s P) (hS : Shows s m P V) {q : Nat}
    (hq : q < s.pages) (hqt : V.trk q = true) (j k : Fin 512) (leaf : Word) :
    (∃ msg, Pml4.mapNewPd s m (s.page q) (adr j) (adr k) leaf = .error (.panic msg) ∧
      Full s V) ∨
    ∃ n m', n < s.pages ∧ V.trk n = false ∧
      Pml4.mapNewPd s m (s.page q) (adr j) (adr k) leaf = .ok m' ∧
      Shows s m' P (putPd s V q n j k leaf) := by
  unfold Pml4.mapNewPd
  rcases alloc_shows hL hD hS with ⟨ha, hall⟩ | ⟨n, hn, hnt, -, m₁, ha, hS₁⟩
  · rw [ha]
    exact .inl ⟨_, rfl, hall⟩
  have hqn : q ≠ n := by rintro rfl; rw [hqt] at hnt; cases hnt
  have hS₂ := hS₁.setEntryAt hL hD (hD.page n hn) k leaf
  have hS₃ := hS₂.setEntryAt hL hD (hD.page q hq) j (link (s.page n))
  obtain ⟨m₄, h4, hS₄⟩ := incRefs_shows hL hD hS₃ hn
  obtain ⟨m₅, h5, hS₅⟩ := incRefs_shows hL hD hS₄ hq
  refine .inr ⟨n, m₅, hn, hnt, ?_, ?_⟩
  · rw [ha, Res.ok_bind]
    dsimp only
    rw [orPanic_some, Res.ok_bind]
    exact Res.bind_eq_ok.mpr ⟨m₄, h4, h5⟩
  · rw [Tabs.count_cnt, if_neg hqn] at hS₅
    exact hS₅

theorem mapNewPdpt_shows (hL : Layout s) (hD : Domain s P) (hS : Shows s m P V) {r : Word}
    (hr : r ∈ P) (i j k : Fin 512) (leaf : Word) :
    (∃ msg, Pml4.mapNewPdpt s m r (adr i) (adr j) (adr k) leaf = .error (.panic msg) ∧
      Exhausted s V) ∨
    ∃ q n m', q < s.pages ∧ n < s.pages ∧ V.trk q = false ∧ V.trk n = false ∧ n ≠ q ∧
      Pml4.mapNewPdpt s m r (adr i) (adr j) (adr k) leaf = .ok m' ∧
      Shows s m' P (putPdpt s V r q n i j k leaf) := by
  unfold Pml4.mapNewPdpt
  rcases alloc_shows hL hD hS with ⟨ha, hall⟩ | ⟨q, hq, hqt, -, m₁, ha, hS₁⟩
  · rw [ha]
    refine .inl ⟨_, rfl, fun n hn k hk hnt => ?_⟩
    rw [hall n hn] at hnt; cases hnt
  rw [ha, Res.ok_bind]
  dsimp only
  rw [orPanic_some, Res.ok_bind]
  rcases alloc_shows hL hD hS₁ with ⟨hb, hall⟩ | ⟨n, hn, hnt, -, m₂, hb, hS₂⟩
  · rw [hb]
    -- the second page is missing: at most the first one was free
    have hold : ∀ n < s.pages, V.trk n = false → n = q := by
      intro n hn hnt
      have := hall n hn
      rw [Tabs.clearPage_trk, Tabs.track_trk] at this
      split at this
      · assumption
      · rw [hnt] at this; cases this
    exact .inl ⟨_, rfl, fun n hn k hk hnt hkt => (hold n hn hnt).trans (hold k hk hkt).symm⟩
  rw [Tabs.clearPage_trk, Tabs.track_trk] at hnt
  have hnq : n ≠ q := by rintro rfl; rw [if_pos rfl] at hnt; cases hnt
  rw [if_neg hnq] at hnt
  have hS₃ := hS₂.setEntryAt hL hD (hD.page n hn) k leaf
  have hS₄ := hS₃.setEntryAt hL hD (hD.page q hq) j (link (s.page n))
  have hS₅ := hS₄.setEntryAt hL hD hr i (link (s.page q))
  obtain ⟨m₆, h6, hS₆⟩ := incRefs_shows hL hD hS₅ hn
  obtain ⟨m₇, h7, hS₇⟩ := incRefs_shows hL hD hS₆ hq
  refine .inr ⟨q, n, m₇, hq, hn, hqt, hnt, hnq, ?_, ?_⟩
  · rw [hb, Res.ok_bind]
    dsimp only
    rw [orPanic_some, Res.ok_bind]
    exact Res.bind_eq_ok.mpr ⟨m₆, h6, h7⟩
  · rw [Tabs.count_cnt, if_neg hnq.symm] at hS₇
    exact hS₇

theorem map_shows (hL : Layout s) (hD : Domain s P) (hS : Shows s m P V) (hT : Tree s V R)
    (hR : Rooted s P V R) {r v p f : Word} (hr : r ∈ R) (hv : v.toNat < 2 ^ 48)
    (hva : v &&& 0x1FFFFF = 0) (hpa : p &&& 0x1FFFFF = 0)
    (hfree : Radix.get nx lf V.E r (pml4Ix v) (pdptIx v) (pdIx v) = none) :
    (∃ msg, Pml4.map s m r v p f = .error (.panic msg) ∧
      RunsOut s V r (pml4Ix v) (pdptIx v)) ∨
    ∃ m' V', Pml4.map s m r v p f = .ok m' ∧ Shows s m' P V' ∧
      Mapped s V r (pml4Ix v) (pdptIx v) (pdIx v) (p ||| f ||| F_PRESENT ||| F_PS) V' := by
  have hrP := hR.sub hr
  unfold Pml4.map
  rw [Res.assert_of hva, Res.ok_bind, Res.assert_of hpa, Res.ok_bind]
  dsimp only
  rw [pml4Index_eq hv, pdptIndex_eq, pdIndex_eq]
  simp only [entryAt_adr]
  generalize p ||| f ||| F_PRESENT ||| F_PS = leaf
  generalize pml4Ix v = i at *
  generalize pdptIx v = j at *
  generalize pdIx v = k at *
  rw [hS.E r hrP i]
  cases h1 : nx (V.E r i) with
  | none =>
    rw [if_neg (nx_eq_none.mp h1)]
    rcases mapNewPdpt_shows hL hD hS hrP i j k leaf with
      ⟨msg, h, hex⟩ | ⟨q, n, m', hq, hn, hqt, hnt, hnq, h, hS'⟩
    · exact .inl ⟨msg, h, .inl ⟨h1, hex⟩⟩
    · exact .inr ⟨m', _, h, hS', .newPdpt h1 hq hn hqt hnt hnq⟩
  | some a =>
    obtain ⟨hp, ha⟩ := present_of_nx h1
    obtain ⟨q, hq, rfl, hqt⟩ := hT.mid a (mem_mids hr h1)
    rw [if_pos hp, ha, hS.E _ (hD.page q hq) j]
    cases h2 : nx (V.E (s.page q) j) with
    | none =>
      rw [if_neg (nx_eq_none.mp h2)]
      rcases mapNewPd_shows hL hD hS hq hqt j k leaf with
        ⟨msg, h, hfull⟩ | ⟨n, m', hn, hnt, h, hS'⟩
      · exact .inl ⟨msg, h, .inr ⟨_, h1, h2, hfull⟩⟩
      · exact .inr ⟨m', _, h, hS', .newPd h1 h2 hq hn hqt hnt⟩
    | some b =>
      obtain ⟨hp', hb⟩ := present_of_nx h2
      obtain ⟨n, hn, rfl, -⟩ := hT.low b (mem_lows (mem_mids hr h1) h2)
      have h3 : ¬ isPresent (V.E (s.page n) k) := by
        unfold Radix.get at hfree
        rw [h1, Option.bind_some, h2, Option.bind_some] at hfree
        unfold lf at hfree
        split at hfree
        · cases hfree
        · assumption
      rw [if_pos hp', hb, Pml4.mapInPd, entryAt_adr, hS.E _ (hD.page n hn), if_neg h3]
      have hS₁ := hS.setEntryAt hL hD (hD.page n hn) k leaf
      obtain ⟨m', hi, hS'⟩ := incRefs_shows hL hD hS₁ hn
      exact .inr ⟨m', _, hi, hS', .inPd h1 h2 hn h3⟩

end Map

/-! ## What becomes of the tables -/

section Mapped
variable {s : Statics} {P R : Set Word} {V V' : Tabs} {r leaf : Word} {i j k : Fin 512}

theorem putLeaf_E (n : Nat) (t : Word) (x : Fin 512) : (putLeaf s V n k leaf).E t x =
    if t = s.page n ∧ x = k then leaf else V.E t x := rfl

theorem putPd_E (q n : Nat) (t : Word) (x : Fin 512) : (putPd s V q n j k leaf).E t x =
    if t = s.page q ∧ x = j then link (s.page n) else
    if t = s.page n ∧ x = k then leaf else if t = s.page n then 0 else V.E t x := rfl

theorem putPdpt_E (q n : Nat) (t : Word) (x : Fin 512) : (putPdpt s V r q n i j k leaf).E t x =
    if t = r ∧ x = i then link (s.page q) else
    if t = s.page q ∧ x = j then link (s.page n) else
    if t = s.page n ∧ x = k then leaf else if t = s.page n then 0 else
    if t = s.page q then 0 else V.E t x := rfl

/-- `map` only adds to the tracked pages. -/
theorem Mapped.mono (h : Mapped s V r i j k leaf V') {n : Nat} (hn : V.trk n = true) :
    V'.trk n = true := by
  cases h with
  | inPd => exact hn
  | newPd => show (if _ then _ else _) = true; rw [hn]; split <;> rfl
  | newPdpt =>
    show (if _ then _ else if _ then _ else _) = true
    rw [hn]; split <;> [rfl; (split <;> rfl)]

/-- Tables of `V'` are tables of `V` or newly tracked pages. -/
def GrowsFrom (s : Statics) (V V' : Tabs) (R : Set Word) : Prop :=
  ∀ t ∈ mids nx V'.E R ∪ lows nx V'.E R, t ∈ mids nx V.E R ∪ lows nx V.E R ∨
    ∃ n < s.pages, t = s.page n ∧ V.trk n = false ∧ V'.trk n = true

theorem Mapped.tree (hL : Layout s) (hT : Tree s V R) (hR : Rooted s P V R) (hr : r ∈ R)
    (h : Mapped s V r i j k leaf V') :
    Tree s V' R ∧ PutAt nx lf V.E R V'.E r i j k (lf leaf) ∧ GrowsFrom s V V' R := by
  have hF := hT.forest
  have hmono := @h.mono
  -- tracked pages stay tracked
  have hup : ∀ {t}, (∃ n < s.pages, t = s.page n ∧ V.trk n = true) →
      ∃ n < s.pages, t = s.page n ∧ V'.trk n = true :=
    fun ⟨n, hn, he, ht⟩ => ⟨n, hn, he, hmono ht⟩
  cases h with
  | @inPd a n h1 h2 hn h3 =>
    obtain ⟨f1, f2, g1, g2⟩ := hF.putLeaf lf hr h1 h2 k leaf
    refine ⟨⟨f1, fun a ha => hup (hT.mid a (g1 ▸ ha)), fun b hb => hup (hT.low b (g2 ▸ hb))⟩, f2,
      fun t ht => .inl ?_⟩
    rw [← g1, ← g2]; exact ht
  | @newPd q n h1 h2 hq hn hqt hnt =>
    obtain ⟨hnm, hnl⟩ := fresh_not_named hL hT hn hnt
    obtain ⟨f1, f2, g1, g2⟩ := hF.putLow lf hr h1 h2 (hR.not_root hn hnt) hnm hnl
      (nx_link (hL.aligned hn)) lf_zero k leaf
    refine ⟨⟨f1, fun a ha => hup (hT.mid a (g1 ▸ ha)), fun b hb => ?_⟩, f2, fun t ht => ?_⟩
    · rcases (g2 ▸ hb : b ∈ insert _ _) with rfl | hb
      · exact ⟨n, hn, rfl, if_pos rfl⟩
      · exact hup (hT.low b hb)
    · rcases ht with ht | ht
      · exact .inl (.inl (g1 ▸ ht))
      · rcases (g2 ▸ ht : t ∈ insert _ _) with rfl | ht
        · exact .inr ⟨n, hn, rfl, hnt, if_pos rfl⟩
        · exact .inl (.inr ht)
  | @newPdpt q n h1 hq hn hqt hnt hnq =>
    obtain ⟨hnm, hnl⟩ := fresh_not_named hL hT hn hnt
    obtain ⟨hqm, hql⟩ := fresh_not_named hL hT hq hqt
    obtain ⟨f1, f2, g1, g2⟩ := hF.putMid lf hr h1 (hR.not_root hq hqt) hqm hql
      (hR.not_root hn hnt) hnm hnl ((hL.page_inj hn hq).not.mpr hnq) (nx_link (hL.aligned hq))
      (nx_link (hL.aligned hn)) nx_zero lf_zero j k leaf
    have hqt' : (putPdpt s V r q n i j k leaf).trk q = true := (if_neg hnq.symm).trans (if_pos rfl)
    refine ⟨⟨f1, fun a ha => ?_, fun b hb => ?_⟩, f2, fun t ht => ?_⟩
    · rcases (g1 ▸ ha : a ∈ insert _ _) with rfl | ha
      · exact ⟨q, hq, rfl, hqt'⟩
      · exact hup (hT.mid a ha)
    · rcases (g2 ▸ hb : b ∈ insert _ _) with rfl | hb
      · exact ⟨n, hn, rfl, if_pos rfl⟩
      · exact hup (hT.low b hb)
    · rcases ht with ht | ht
      · rcases (g1 ▸ ht : t ∈ insert _ _) with rfl | ht
        · exact .inr ⟨q, hq, rfl, hqt, hqt'⟩
        · exact .inl (.inl ht)
      · rcases (g2 ▸ ht : t ∈ insert _ _) with rfl | ht
        · exact .inr ⟨n, hn, rfl, hnt, if_pos rfl⟩
        · exact .inl (.inr ht)

/-- Pages that hold tables are tracked. -/
theorem trk_of_table (hL : Layout s) (hT : Tree s V R) {x : Nat} (hx : x < s.pages)
    (hm : s.page x ∈ mids nx V.E R ∪ lows nx V.E R) : V.trk x = true := by
  cases ht : V.trk x with
  | true => rfl
  | false => exact absurd hm (not_or.mpr (fresh_not_named hL hT hx ht))

theorem putLeaf_counted {n : Nat} (hL : Layout s) (hC : Counted s V R) (hZ : FreshZero s V)
    (hG : GrowsFrom s V (putLeaf s V n k leaf) R) (hn : n < s.pages) (hnt : V.trk n = true)
    (habs : ¬ isPresent (V.E (s.page n) k)) (hleaf : isPresent leaf) :
    Counted s (putLeaf s V n k leaf) R ∧ FreshZero s (putLeaf s V n k leaf) := by
  refine ⟨fun x hx hm => ?_, fun x hx ht => ?_⟩
  · rcases hG _ hm with hold | ⟨y, hy, -, h4, h5⟩
    · show (if x = n then V.cnt n + 1 else V.cnt x).toNat = _
      by_cases hxn : x = n
      · subst hxn
        rw [if_pos rfl]
        refine count_succ (hC x hx hold) (fun y hy => ?_) habs ?_
        · rw [putLeaf_E, if_neg (fun h => hy h.2)]
        · rw [putLeaf_E, if_pos ⟨rfl, rfl⟩]; exact hleaf
      · rw [if_neg hxn, hC x hx hold]
        refine congrArg presentCount (funext fun y => ?_)
        rw [putLeaf_E, if_neg (fun h => hxn ((hL.page_inj hx hn).mp h.1))]
    · rw [show (putLeaf s V n k leaf).trk y = V.trk y from rfl, h4] at h5
      cases h5
  · have hxn : x ≠ n := by rintro rfl; rw [show V.trk x = false from ht] at hnt; cases hnt
    exact (if_neg hxn).trans (hZ x hx ht)

theorem putPd_counted {q n : Nat} (hL : Layout s) (hT : Tree s V R) (hC : Counted s V R)
    (hZ : FreshZero s V) (hG : GrowsFrom s V (putPd s V q n j k leaf) R)
    (habs : nx (V.E (s.page q) j) = none) (hq : q < s.pages) (hn : n < s.pages)
    (hqt : V.trk q = true) (hnt : V.trk n = false) (hleaf : isPresent leaf) :
    Counted s (putPd s V q n j k leaf) R ∧ FreshZero s (putPd s V q n j k leaf) := by
  have hqn : q ≠ n := by rintro rfl; rw [hqt] at hnt; cases hnt
  have hpn : s.page n ≠ s.page q := (hL.page_inj hn hq).not.mpr hqn.symm
  have hinj {x y : Nat} (hx : x < s.pages) (hy : y < s.pages) (he : s.page x = s.page y) : x = y :=
    (hL.page_inj hx hy).mp he
  have hcnt : ∀ x, (putPd s V q n j k leaf).cnt x =
      if x = q then V.cnt q + 1 else if x = n then V.cnt n + 1 else V.cnt x := fun _ => rfl
  have htrk' : ∀ x, (putPd s V q n j k leaf).trk x = if x = n then true else V.trk x :=
    fun _ => rfl
  refine ⟨fun x hx hm => ?_, fun x hx ht => ?_⟩
  · rw [hcnt]
    rcases hG _ hm with hold | ⟨y, hy, he, h4, h5⟩
    · have hxn : x ≠ n := by rintro rfl; rw [trk_of_table hL hT hx hold] at hnt; cases hnt
      by_cases hxq : x = q
      · subst hxq
        rw [if_pos rfl]
        refine count_succ (hC x hx hold) (fun y hy => ?_) (nx_eq_none.mp habs) ?_
        · rw [putPd_E, if_neg (fun h => hy h.2), if_neg (fun h => hpn h.1.symm),
            if_neg (fun h => hpn h.symm)]
        · rw [putPd_E, if_pos ⟨rfl, rfl⟩]; exact link_present _
      · rw [if_neg hxq, if_neg hxn, hC x hx hold]
        refine congrArg presentCount (funext fun y => ?_)
        rw [putPd_E, if_neg (fun h => hxq (hinj hx hq h.1)), if_neg (fun h => hxn (hinj hx hn h.1)),
          if_neg (fun h => hxn (hinj hx hn h))]
    · cases hinj hx hy he
      have hxn : x = n := by
        by_contra hne
        rw [htrk', if_neg hne, h4] at h5; cases h5
      subst hxn
      rw [if_neg hqn.symm, if_pos rfl, hZ x hx hnt]
      refine count_single (k := k) (fun y hy => ?_) ?_
      · rw [putPd_E, if_neg (fun h => hpn h.1), if_neg (fun h => hy h.2), if_pos rfl]
      · rw [putPd_E, if_neg (fun h => hpn h.1), if_pos ⟨rfl, rfl⟩]; exact hleaf
  · rw [htrk'] at ht
    split at ht
    · cases ht
    · rename_i hxn
      rw [hcnt, if_neg (by rintro rfl; rw [hqt] at ht; cases ht), if_neg hxn, hZ x hx ht]

theorem putPdpt_counted {q n : Nat} (hL : Layout s) (hT : Tree s V R) (hR : Rooted s P V R)
    (hr : r ∈ R) (hC : Counted s V R) (hZ : FreshZero s V)
    (hG : GrowsFrom s V (putPdpt s V r q n i j k leaf) R) (hq : q < s.pages) (hn : n < s.pages)
    (hqt : V.trk q = false) (hnt : V.trk n = false) (hnq : n ≠ q) (hleaf : isPresent leaf) :
    Counted s (putPdpt s V r q n i j k leaf) R ∧ FreshZero s (putPdpt s V r q n i j k leaf) := by
  have hpn : s.page n ≠ s.page q := (hL.page_inj hn hq).not.mpr hnq
  have hrn : s.page n ≠ r := fun h => hR.not_root hn hnt (h ▸ hr)
  have hrq : s.page q ≠ r := fun h => hR.not_root hq hqt (h ▸ hr)
  have hinj {x y : Nat} (hx : x < s.pages) (hy : y < s.pages) (he : s.page x = s.page y) : x = y :=
    (hL.page_inj hx hy).mp he
  have hcnt : ∀ x, (putPdpt s V r q n i j k leaf).cnt x =
      if x = q then V.cnt q + 1 else if x = n then V.cnt n + 1 else V.cnt x := fun _ => rfl
  have htrk' : ∀ x, (putPdpt s V r q n i j k leaf).trk x =
      if x = n then true else if x = q then true else V.trk x := fun _ => rfl
  refine ⟨fun x hx hm => ?_, fun x hx ht => ?_⟩
  · rw [hcnt]
    rcases hG _ hm with hold | ⟨y, hy, he, h4, h5⟩
    · have hxt := trk_of_table hL hT hx hold
      have hxn : x ≠ n := by rintro rfl; rw [hxt] at hnt; cases hnt
      have hxq : x ≠ q := by rintro rfl; rw [hxt] at hqt; cases hqt
      have hxr : s.page x ≠ r := fun h => hold.elim (fun hm => hT.forest.mid_root hm (h ▸ hr))
        fun hl => hT.forest.low_root hl (h ▸ hr)
      rw [if_neg hxq, if_neg hxn, hC x hx hold]
      refine congrArg presentCount (funext fun y => ?_)
      rw [putPdpt_E, if_neg (fun h => hxr h.1), if_neg (fun h => hxq (hinj hx hq h.1)),
        if_neg (fun h => hxn (hinj hx hn h.1)), if_neg (fun h => hxn (hinj hx hn h)),
        if_neg (fun h => hxq (hinj hx hq h))]
    · cases hinj hx hy he
      by_cases hxq : x = q
      · subst hxq
        rw [if_pos rfl, hZ x hx hqt]
        refine count_single (k := j) (fun y hy => ?_) ?_
        · rw [putPdpt_E, if_neg (fun h => hrq h.1), if_neg (fun h => hy h.2),
            if_neg (fun h => hpn h.1.symm), if_neg (fun h => hpn h.symm), if_pos rfl]
        · rw [putPdpt_E, if_neg (fun h => hrq h.1), if_pos ⟨rfl, rfl⟩]; exact link_present _
      · have hxn : x = n := by
          by_contra hne
          rw [htrk', if_neg hne, if_neg hxq, h4] at h5; cases h5
        subst hxn
        rw [if_neg hxq, if_pos rfl, hZ x hx hnt]
        refine count_single (k := k) (fun y hy => ?_) ?_
        · rw [putPdpt_E, if_neg (fun h => hrn h.1), if_neg (fun h => hpn h.1),
            if_neg (fun h => hy h.2), if_pos rfl]
        · rw [putPdpt_E, if_neg (fun h => hrn h.1), if_neg (fun h => hpn h.1), if_pos ⟨rfl, rfl⟩]
          exact hleaf
  · rw [htrk'] at ht
    split at ht
    · cases ht
    · rename_i hxn
      split at ht
      · cases ht
      · rename_i hxq
        rw [hcnt, if_neg hxq, if_neg hxn, hZ x hx ht]

theorem Mapped.counted (hL : Layout s) (hT : Tree s V R) (hR : Rooted s P V R) (hr : r ∈ R)
    (hleaf : isPresent leaf) (hC : Counted s V R) (hZ : FreshZero s V)
    (h : Mapped s V r i j k leaf V') : Counted s V' R ∧ FreshZero s V' := by
  obtain ⟨-, -, hG⟩ := h.tree hL hT hR hr
  cases h with
  | inPd h1 h2 hn h3 =>
    have hnt := trk_of_table hL hT hn (.inr (mem_lows (mem_mids hr h1) h2))
    exact putLeaf_counted hL hC hZ hG hn hnt h3 hleaf
  | newPd _ h2 hq hn hqt hnt => exact putPd_counted hL hT hC hZ hG h2 hq hn hqt hnt hleaf
  | newPdpt _ hq hn hqt hnt hnq =>
    exact putPdpt_counted hL hT hR hr hC hZ hG hq hn hqt hnt hnq hleaf

end Mapped

/-! ## Dropping a reference -/

/-- What `unmap` does to counters and bitmap when it drops a reference of page
directory `n` below PDPT `q`. No entry is touched. -/
def dropped (V : Tabs) (q n : Nat) : Tabs :=
  let V₁ := V.count n (decremented (V.cnt n))
  if decremented (V.cnt n) = 0 then
    let V₂ := V₁.track n false
    let V₃ := V₂.count q (decremented (V₂.cnt q))
    if decremented (V₂.cnt q) = 0 then V₃.track q false else V₃
  else V₁

@[simp] theorem dropped_E (V : Tabs) (q n : Nat) : (dropped V q n).E = V.E := by
  unfold dropped
  dsimp only
  split
  · split <;> rfl
  · rfl

theorem dropped_of_ne {V : Tabs} {n : Nat} (q : Nat) (h : decremented (V.cnt n) ≠ 0) :
    dropped V q n = V.count n (decremented (V.cnt n)) := if_neg h

section Unmap
variable {s : Statics} {m : Mem} {P R : Set Word} {V : Tabs}

theorem dropPd_shows (hL : Layout s) (hD : Domain s P) (hS : Shows s m P V) {q n : Nat}
    (hq : q < s.pages) (hn : n < s.pages) (hqt : V.trk q = true) (hnt : V.trk n = true)
    (hqn : q ≠ n) :
    ∃ m', Pml4.dropPd s m (s.page q) (s.page n) = .ok m' ∧ Shows s m' P (dropped V q n) := by
  unfold Pml4.dropPd dropped
  dsimp only
  obtain ⟨m₁, h1, hS₁⟩ := decRefs_shows hL hD hS hn
  rw [h1, Res.ok_bind]
  dsimp only
  by_cases hz : decremented (V.cnt n) = 0
  · rw [if_pos hz, if_pos hz]
    obtain ⟨m₂, h2, hS₂⟩ := free_shows hL hD hS₁ hn hnt
    obtain ⟨m₃, h3, hS₃⟩ := decRefs_shows hL hD hS₂ hq
    rw [h2, Res.ok_bind, h3, Res.ok_bind]
    dsimp only
    split
    · exact free_shows hL hD hS₃ hq ((if_neg hqn).trans hqt)
    · exact ⟨m₃, rfl, hS₃⟩
  · rw [if_neg hz, if_neg hz]
    exact ⟨m₁, rfl, hS₁⟩

/-- `unmap` of a mapped address drops a reference of its page directory. -/
theorem unmap_shows (hL : Layout s) (hD : Domain s P) (hS : Shows s m P V) (hT : Tree s V R)
    (hR : R ⊆ P) {r v : Word} (hr : r ∈ R) (hv : v.toNat < 2 ^ 48) (hva : v &&& 0x1FFFFF = 0)
    (hmap : Radix.get nx lf V.E r (pml4Ix v) (pdptIx v) (pdIx v) ≠ none) :
    ∃ q n m', q < s.pages ∧ n < s.pages ∧ V.trk q = true ∧ V.trk n = true ∧ q ≠ n ∧
      nx (V.E r (pml4Ix v)) = some (s.page q) ∧
      nx (V.E (s.page q) (pdptIx v)) = some (s.page n) ∧
      isPresent (V.E (s.page n) (pdIx v)) ∧
      Pml4.unmap s m r v = .ok (true, m') ∧ Shows s m' P (dropped V q n) := by
  unfold Radix.get at hmap
  cases h1 : nx (V.E r (pml4Ix v)) with
  | none => rw [h1] at hmap; exact absurd rfl hmap
  | some a =>
    obtain ⟨hp1, ha⟩ := present_of_nx h1
    have hm := mem_mids hr h1
    obtain ⟨q, hq, rfl, hqt⟩ := hT.mid a hm
    rw [h1, Option.bind_some] at hmap
    cases h2 : nx (V.E (s.page q) (pdptIx v)) with
    | none => rw [h2] at hmap; exact absurd rfl hmap
    | some b =>
      obtain ⟨hp2, hb⟩ := present_of_nx h2
      have hl := mem_lows hm h2
      obtain ⟨n, hn, rfl, hnt⟩ := hT.low b hl
      rw [h2, Option.bind_some] at hmap
      have hp3 : isPresent (V.E (s.page n) (pdIx v)) := by
        unfold lf at hmap
        split at hmap
        · assumption
        · exact absurd rfl hmap
      have hqn : q ≠ n := fun h => hT.forest.low_mid hl (h ▸ hm)
      obtain ⟨m', h3, hS'⟩ := dropPd_shows hL hD hS hq hn hqt hnt hqn
      refine ⟨q, n, m', hq, hn, hqt, hnt, hqn, rfl, h2, hp3, ?_, hS'⟩
      unfold Pml4.unmap
      rw [Res.assert_of hva, Res.ok_bind, pml4Index_eq hv, pdptIndex_eq, pdIndex_eq]
      simp only [entryAt_adr]
      rw [hS.E r (hR hr), if_pos hp1, ha, hS.E _ (hD.page q hq), if_pos hp2, hb,
        hS.E _ (hD.page n hn), if_pos hp3, h3, Res.ok_bind]

end Unmap

/-! ## From one view to another -/

section Transfer
variable {s : Statics} {m : Mem} {P R : Set Word} {V : Tabs}

/-- The tables named according to a view are those the memory names. -/
theorem Shows.named (hS : Shows s m P V) (hD : Domain s P) (hR : R ⊆ P) (hT : Tree s V R) :
    (∀ t ∈ R ∪ mids nx V.E R, ∀ i, nx (entry m t i) = nx (V.E t i)) ∧
    (∀ t ∈ lows nx V.E R, ∀ i, entry m t i = V.E t i) := by
  refine ⟨?_, ?_⟩
  · rintro t (ht | ht) i
    · rw [hS.E t (hR ht)]
    · obtain ⟨n, hn, rfl, -⟩ := hT.mid t ht
      rw [hS.E _ (hD.page n hn)]
  · intro t ht i
    obtain ⟨n, hn, rfl, -⟩ := hT.low t ht
    exact hS.E _ (hD.page n hn) i

theorem Shows.tree (hS : Shows s m P V) (hD : Domain s P) (hR : R ⊆ P) (hT : Tree s V R) :
    Tree s (tabsOf s m) R := by
  obtain ⟨h1, -⟩ := hS.named hD hR hT
  obtain ⟨g1, g2⟩ := mids_lows_congr h1
  refine ⟨hT.forest.congr h1, ?_, ?_⟩
  · intro a ha
    obtain ⟨n, hn, he, ht⟩ := hT.mid a (g1 ▸ ha)
    exact ⟨n, hn, he, (hS.trk n hn).trans ht⟩
  · intro b hb
    obtain ⟨n, hn, he, ht⟩ := hT.low b (g2 ▸ hb)
    exact ⟨n, hn, he, (hS.trk n hn).trans ht⟩

theorem Shows.get (hS : Shows s m P V) (hD : Domain s P) (hR : R ⊆ P) (hT : Tree s V R) {r : Word}
    (hr : r ∈ R) (i j k : Fin 512) :
    Radix.get nx lf (entry m) r i j k = Radix.get nx lf V.E r i j k := by
  obtain ⟨h1, h2⟩ := hS.named hD hR hT
  exact get_congr hr h1 (fun t ht x => congrArg lf (h2 t ht x)) i j k

theorem Shows.counted (hS : Shows s m P V) (hD : Domain s P) (hR : R ⊆ P) (hT : Tree s V R)
    (hC : Counted s V R) : Counted s (tabsOf s m) R := by
  obtain ⟨h1, -⟩ := hS.named hD hR hT
  obtain ⟨g1, g2⟩ := mids_lows_congr h1
  intro n hn hm
  have hm' : s.page n ∈ mids nx V.E R ∪ lows nx V.E R := by rw [← g1, ← g2]; exact hm
  have hrow : entry m (s.page n) = V.E (s.page n) := funext (hS.E _ (hD.page n hn))
  show (refs s m n).toNat = presentCount (entry m (s.page n))
  rw [hS.cnt n hn, hrow]
  exact hC n hn hm'

theorem Shows.freshZero (hS : Shows s m P V) (hZ : FreshZero s V) : FreshZero s (tabsOf s m) :=
  fun n hn ht => (hS.cnt n hn).trans (hZ n hn ((hS.trk n hn).symm.trans ht))

theorem Shows.rooted (hS : Shows s m P V) (hR : Rooted s P V R) : Rooted s P (tabsOf s m) R :=
  ⟨hR.sub, fun n hn h => (hS.trk n hn).trans (hR.root n hn h)⟩

theorem Mapped.rooted {r leaf : Word} {i j k : Fin 512} {V' : Tabs}
    (h : Mapped s V r i j k leaf V') (hR : Rooted s P V R) : Rooted s P V' R :=
  ⟨hR.sub, fun n hn hr => h.mono (hR.root n hn hr)⟩

end Transfer

end X64k.L2.Paging
