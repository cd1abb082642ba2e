import Mathlib.Data.Set.Insert

/-!
# Three-level tables

A store of tables, `E t i` being entry `i` of table `t`. An entry may name a
table (`nx`) or hold a value (`lf`). From a set `R` of roots, the tables named
by roots are the `mids`, those named by `mids` the `lows`; `get` looks a value
up along a path of three indices.

`Forest` says that no table is named twice and none sits on two levels. It is
kept, and the lookup changes at one path only (`PutAt`), when

* a low table's entry is overwritten (`Forest.setLeaf`),
* a fresh low table is attached under a mid table (`Forest.attachLow`),
* a fresh mid table with one fresh low table is attached under a root
  (`Forest.attachMid`).

Each statement asks only how `E'` relates to `E` on the tables in question, so
it applies to any memory that holds more than the tables. `putLeaf`, `putLow`
and `putMid` are the same three for updates given as functions (`setAt`,
`lowAt`, `midAt`). `Owned` adds where the tables lie.
-/
namespace X64k.Core.Radix

section
variable {α ι ε β : Type} (nx : ε → Option α) (lf : ε → Option β) (E : α → ι → ε)

/-- The tables named by entries of tables in `S`. -/
def named (S : Set α) : Set α := {a | ∃ t ∈ S, ∃ i, nx (E t i) = some a}

abbrev mids (R : Set α) : Set α := named nx E R

abbrev lows (R : Set α) : Set α := named nx E (mids nx E R)

/-- No table is named by two entries, and the levels do not overlap. -/
structure Forest (R : Set α) : Prop where
  mid_inj : ∀ {r r' i i' a}, r ∈ R → r' ∈ R → nx (E r i) = some a → nx (E r' i') = some a →
    r = r' ∧ i = i'
  low_inj : ∀ {a a' j j' b}, a ∈ mids nx E R → a' ∈ mids nx E R → nx (E a j) = some b →
    nx (E a' j') = some b → a = a' ∧ j = j'
  mid_root : ∀ {a}, a ∈ mids nx E R → a ∉ R
  low_root : ∀ {b}, b ∈ lows nx E R → b ∉ R
  low_mid : ∀ {b}, b ∈ lows nx E R → b ∉ mids nx E R

/-- The value at the path `i`, `j`, `k` below `r`. -/
def get (r : α) (i j k : ι) : Option β :=
  (nx (E r i)).bind fun a => (nx (E a j)).bind fun b => lf (E b k)

/-- `E'` is `E` with the value at one path set to `v`. -/
structure PutAt (R : Set α) (E' : α → ι → ε) (r : α) (i j k : ι) (v : Option β) : Prop where
  hit : get nx lf E' r i j k = v
  miss : ∀ r' ∈ R, ∀ i' j' k', (r', i', j', k') ≠ (r, i, j, k) →
    get nx lf E' r' i' j' k' = get nx lf E r' i' j' k'

end

section
variable {α ι ε β : Type} {nx : ε → Option α} {lf : ε → Option β} {E E' : α → ι → ε} {R : Set α}

theorem mem_mids {r a : α} {i : ι} (hr : r ∈ R) (h : nx (E r i) = some a) : a ∈ mids nx E R :=
  ⟨r, hr, i, h⟩

theorem mem_lows {a b : α} {j : ι} (ha : a ∈ mids nx E R) (h : nx (E a j) = some b) :
    b ∈ lows nx E R := ⟨a, ha, j, h⟩

theorem named_congr {S : Set α} (h : ∀ t ∈ S, ∀ i, nx (E' t i) = nx (E t i)) :
    named nx E' S = named nx E S := by
  apply Set.ext
  intro a
  constructor
  · rintro ⟨t, ht, i, hi⟩; exact ⟨t, ht, i, (h t ht i).symm.trans hi⟩
  · rintro ⟨t, ht, i, hi⟩; exact ⟨t, ht, i, (h t ht i).trans hi⟩

/-- Tables of which only the values changed name the same tables. -/
theorem mids_lows_congr (h : ∀ t ∈ R ∪ mids nx E R, ∀ i, nx (E' t i) = nx (E t i)) :
    mids nx E' R = mids nx E R ∧ lows nx E' R = lows nx E R := by
  have hm : mids nx E' R = mids nx E R := named_congr fun t ht => h t (.inl ht)
  refine ⟨hm, ?_⟩
  rw [lows, hm]
  exact named_congr fun t ht => h t (.inr ht)

theorem Forest.congr (hF : Forest nx E R)
    (h : ∀ t ∈ R ∪ mids nx E R, ∀ i, nx (E' t i) = nx (E t i)) : Forest nx E' R := by
  obtain ⟨hm, hl⟩ := mids_lows_congr h
  refine ⟨?_, ?_, ?_, ?_, ?_⟩
  · intro r r' i i' a hr hr' h1 h2
    rw [h r (.inl hr)] at h1
    rw [h r' (.inl hr')] at h2
    exact hF.mid_inj hr hr' h1 h2
  · intro a a' j j' b ha ha' h1 h2
    rw [hm] at ha ha'
    rw [h a (.inr ha)] at h1
    rw [h a' (.inr ha')] at h2
    exact hF.low_inj ha ha' h1 h2
  · intro a ha; rw [hm] at ha; exact hF.mid_root ha
  · intro b hb; rw [hl] at hb; exact hF.low_root hb
  · intro b hb; rw [hl] at hb; rw [hm]; exact hF.low_mid hb

theorem get_congr {r : α} (hr : r ∈ R)
    (h : ∀ t ∈ R ∪ mids nx E R, ∀ i, nx (E' t i) = nx (E t i))
    (hl : ∀ t ∈ lows nx E R, ∀ i, lf (E' t i) = lf (E t i)) (i j k : ι) :
    get nx lf E' r i j k = get nx lf E r i j k := by
  unfold get
  rw [h r (.inl hr)]
  cases ha : nx (E r i) with
  | none => rfl
  | some a =>
    have hm := mem_mids hr ha
    simp only [Option.bind_some]
    rw [h a (.inr hm)]
    cases hb : nx (E a j) with
    | none => rfl
    | some b => exact hl b (mem_lows hm hb) k

section SetLeaf
variable {r a b : α} {i j k : ι}

/-- Overwriting an entry of a low table. -/
theorem Forest.setLeaf (hF : Forest nx E R) (hr : r ∈ R) (ha : nx (E r i) = some a)
    (hb : nx (E a j) = some b) (hn : ∀ t ∈ R ∪ mids nx E R, ∀ i, nx (E' t i) = nx (E t i))
    (hl : ∀ t ∈ lows nx E R, ∀ k', (t, k') ≠ (b, k) → lf (E' t k') = lf (E t k')) :
    PutAt nx lf E R E' r i j k (lf (E' b k)) := by
  have hm := mem_mids hr ha
  refine ⟨?_, ?_⟩
  · unfold get
    rw [hn r (.inl hr), ha, Option.bind_some, hn a (.inr hm), hb, Option.bind_some]
  · intro r' hr' i' j' k' hne
    unfold get
    rw [hn r' (.inl hr')]
    cases ha' : nx (E r' i') with
    | none => rfl
    | some a' =>
      have hm' := mem_mids hr' ha'
      simp only [Option.bind_some]
      rw [hn a' (.inr hm')]
      cases hb' : nx (E a' j') with
      | none => rfl
      | some b' =>
        refine hl b' (mem_lows hm' hb') k' fun he => hne ?_
        -- the same low table and index: the paths agree from the root down
        obtain ⟨rfl, rfl⟩ := Prod.mk.inj he
        obtain ⟨rfl, rfl⟩ := hF.low_inj hm' hm hb' hb
        obtain ⟨rfl, rfl⟩ := hF.mid_inj hr' hr ha' ha
        rfl

end SetLeaf

section AttachLow
variable {r a b : α} {i j k : ι}

theorem lows_attachLow (hm : a ∈ mids nx E R) (hno : nx (E a j) = none) (hb : nx (E' a j) = some b)
    (hR : ∀ t ∈ R, ∀ i, nx (E' t i) = nx (E t i))
    (hM : ∀ t ∈ mids nx E R, ∀ j', (t, j') ≠ (a, j) → nx (E' t j') = nx (E t j')) :
    mids nx E' R = mids nx E R ∧ lows nx E' R = insert b (lows nx E R) := by
  have hmid : mids nx E' R = mids nx E R := named_congr hR
  refine ⟨hmid, ?_⟩
  rw [lows, hmid]
  apply Set.ext
  intro x
  constructor
  · rintro ⟨t, ht, j', hx⟩
    by_cases he : (t, j') = (a, j)
    · obtain ⟨rfl, rfl⟩ := Prod.mk.inj he
      rw [hb] at hx
      exact .inl (Option.some.inj hx).symm
    · rw [hM t ht j' he] at hx
      exact .inr ⟨t, ht, j', hx⟩
  · rintro (rfl | ⟨t, ht, j', hx⟩)
    · exact ⟨a, hm, j, hb⟩
    · refine ⟨t, ht, j', (hM t ht j' fun he => ?_).trans hx⟩
      obtain ⟨rfl, rfl⟩ := Prod.mk.inj he
      rw [hno] at hx; cases hx

/-- Attaching the fresh low table `b` at entry `j` of the mid table `a`. -/
theorem Forest.attachLow (hF : Forest nx E R) (hr : r ∈ R) (ha : nx (E r i) = some a)
    (hno : nx (E a j) = none) (hbR : b ∉ R) (hbm : b ∉ mids nx E R) (hbl : b ∉ lows nx E R)
    (hb : nx (E' a j) = some b) (hR : ∀ t ∈ R, ∀ i, nx (E' t i) = nx (E t i))
    (hM : ∀ t ∈ mids nx E R, ∀ j', (t, j') ≠ (a, j) → nx (E' t j') = nx (E t j'))
    (hl : ∀ t ∈ lows nx E R, ∀ k', lf (E' t k') = lf (E t k'))
    (hz : ∀ k', k' ≠ k → lf (E' b k') = none) :
    Forest nx E' R ∧ PutAt nx lf E R E' r i j k (lf (E' b k)) := by
  have hm := mem_mids hr ha
  obtain ⟨hmid, hlow⟩ := lows_attachLow hm hno hb hR hM
  refine ⟨⟨?_, ?_, ?_, ?_, ?_⟩, ⟨?_, ?_⟩⟩
  · intro s s' i i' x hs hs' h1 h2
    rw [hR s hs] at h1
    rw [hR s' hs'] at h2
    exact hF.mid_inj hs hs' h1 h2
  · intro t t' j₁ j₂ x ht ht' h1 h2
    rw [hmid] at ht ht'
    by_cases h : (t, j₁) = (a, j) <;> by_cases h' : (t', j₂) = (a, j)
    · exact Prod.mk.inj (h.trans h'.symm)
    · obtain ⟨rfl, rfl⟩ := Prod.mk.inj h
      rw [hM t' ht' j₂ h'] at h2
      rw [hb] at h1
      cases h1
      exact absurd (mem_lows ht' h2) hbl
    · obtain ⟨rfl, rfl⟩ := Prod.mk.inj h'
      rw [hM t ht j₁ h] at h1
      rw [hb] at h2
      cases h2
      exact absurd (mem_lows ht h1) hbl
    · rw [hM t ht j₁ h] at h1
      rw [hM t' ht' j₂ h'] at h2
      exact hF.low_inj ht ht' h1 h2
  · intro x hx; rw [hmid] at hx; exact hF.mid_root hx
  · intro x hx
    rw [hlow] at hx
    rcases hx with rfl | hx
    · exact hbR
    · exact hF.low_root hx
  · intro x hx
    rw [hlow] at hx
    rw [hmid]
    rcases hx with rfl | hx
    · exact hbm
    · exact hF.low_mid hx
  · unfold get
    rw [hR r hr, ha, Option.bind_some, hb, Option.bind_some]
  · intro r' hr' i' j' k' hne
    unfold get
    rw [hR r' hr']
    cases ha' : nx (E r' i') with
    | none => rfl
    | some a' =>
      have hm' := mem_mids hr' ha'
      simp only [Option.bind_some]
      by_cases he : (a', j') = (a, j)
      · obtain ⟨rfl, rfl⟩ := Prod.mk.inj he
        obtain ⟨rfl, rfl⟩ := hF.mid_inj hr' hr ha' ha
        rw [hb, hno, Option.bind_some, Option.bind_none]
        exact hz k' fun hk => hne (by rw [hk])
      · rw [hM a' hm' j' he]
        cases hb' : nx (E a' j') with
        | none => rfl
        | some b' => exact hl b' (mem_lows hm' hb') k'

end AttachLow

section AttachMid
variable {r a b : α} {i j k : ι}

theorem lows_attachMid (hr : r ∈ R) (hno : nx (E r i) = none) (ha : nx (E' r i) = some a)
    (hb : nx (E' a j) = some b) (hone : ∀ j', j' ≠ j → nx (E' a j') = none)
    (hR : ∀ t ∈ R, ∀ i', (t, i') ≠ (r, i) → nx (E' t i') = nx (E t i'))
    (hM : ∀ t ∈ mids nx E R, ∀ j', nx (E' t j') = nx (E t j')) :
    mids nx E' R = insert a (mids nx E R) ∧ lows nx E' R = insert b (lows nx E R) := by
  have hmid : mids nx E' R = insert a (mids nx E R) := by
    apply Set.ext
    intro x
    constructor
    · rintro ⟨t, ht, i', hx⟩
      by_cases he : (t, i') = (r, i)
      · obtain ⟨rfl, rfl⟩ := Prod.mk.inj he
        rw [ha] at hx
        exact .inl (Option.some.inj hx).symm
      · rw [hR t ht i' he] at hx
        exact .inr ⟨t, ht, i', hx⟩
    · rintro (rfl | ⟨t, ht, i', hx⟩)
      · exact ⟨r, hr, i, ha⟩
      · refine ⟨t, ht, i', (hR t ht i' fun he => ?_).trans hx⟩
        obtain ⟨rfl, rfl⟩ := Prod.mk.inj he
        rw [hno] at hx; cases hx
  refine ⟨hmid, ?_⟩
  rw [lows, hmid]
  apply Set.ext
  intro x
  constructor
  · rintro ⟨t, rfl | ht, j', hx⟩
    · by_cases he : j' = j
      · subst he
        rw [hb] at hx
        exact .inl (Option.some.inj hx).symm
      · rw [hone j' he] at hx; cases hx
    · rw [hM t ht] at hx
      exact .inr ⟨t, ht, j', hx⟩
  · rintro (rfl | ⟨t, ht, j', hx⟩)
    · exact ⟨a, .inl rfl, j, hb⟩
    · exact ⟨t, .inr ht, j', (hM t ht j').trans hx⟩

/-- Attaching the fresh mid table `a`, whose one entry names the fresh low
table `b`, at entry `i` of the root `r`. -/
theorem Forest.attachMid (hF : Forest nx E R) (hr : r ∈ R) (hno : nx (E r i) = none)
    (haR : a ∉ R) (ham : a ∉ mids nx E R) (hal : a ∉ lows nx E R) (hbR : b ∉ R)
    (hbm : b ∉ mids nx E R) (hbl : b ∉ lows nx E R) (hab : b ≠ a) (ha : nx (E' r i) = some a)
    (hb : nx (E' a j) = some b) (hone : ∀ j', j' ≠ j → nx (E' a j') = none)
    (hR : ∀ t ∈ R, ∀ i', (t, i') ≠ (r, i) → nx (E' t i') = nx (E t i'))
    (hM : ∀ t ∈ mids nx E R, ∀ j', nx (E' t j') = nx (E t j'))
    (hl : ∀ t ∈ lows nx E R, ∀ k', lf (E' t k') = lf (E t k'))
    (hz : ∀ k', k' ≠ k → lf (E' b k') = none) :
    Forest nx E' R ∧ PutAt nx lf E R E' r i j k (lf (E' b k)) := by
  obtain ⟨hmid, hlow⟩ := lows_attachMid hr hno ha hb hone hR hM
  refine ⟨⟨?_, ?_, ?_, ?_, ?_⟩, ⟨?_, ?_⟩⟩
  · intro s s' i₁ i₂ x hs hs' h1 h2
    by_cases h : (s, i₁) = (r, i) <;> by_cases h' : (s', i₂) = (r, i)
    · exact Prod.mk.inj (h.trans h'.symm)
    · obtain ⟨rfl, rfl⟩ := Prod.mk.inj h
      rw [hR s' hs' i₂ h'] at h2
      rw [ha] at h1
      cases h1
      exact absurd (mem_mids hs' h2) ham
    · obtain ⟨rfl, rfl⟩ := Prod.mk.inj h'
      rw [hR s hs i₁ h] at h1
      rw [ha] at h2
      cases h2
      exact absurd (mem_mids hs h1) ham
    · rw [hR s hs i₁ h] at h1
      rw [hR s' hs' i₂ h'] at h2
      exact hF.mid_inj hs hs' h1 h2
  · intro t t' j₁ j₂ x ht ht' h1 h2
    rw [hmid] at ht ht'
    -- the one entry of `a` is `b`, which no old table names
    have hold : ∀ {j'}, nx (E' a j') = some x → j' = j ∧ x = b := fun {j'} h => by
      by_cases he : j' = j
      · subst he; rw [hb] at h; exact ⟨rfl, (Option.some.inj h).symm⟩
      · rw [hone j' he] at h; cases h
    rcases ht with rfl | ht <;> rcases ht' with rfl | ht'
    · exact ⟨rfl, (hold h1).1.trans (hold h2).1.symm⟩
    · rw [hM t' ht', (hold h1).2] at h2
      exact absurd (mem_lows ht' h2) hbl
    · rw [hM t ht, (hold h2).2] at h1
      exact absurd (mem_lows ht h1) hbl
    · rw [hM t ht] at h1
      rw [hM t' ht'] at h2
      exact hF.low_inj ht ht' h1 h2
  · intro x hx
    rw [hmid] at hx
    rcases hx with rfl | hx
    · exact haR
    · exact hF.mid_root hx
  · intro x hx
    rw [hlow] at hx
    rcases hx with rfl | hx
    · exact hbR
    · exact hF.low_root hx
  · intro x hx
    rw [hlow] at hx
    rw [hmid]
    rcases hx with rfl | hx
    · rintro (h | h)
      · exact hab h
      · exact hbm h
    · rintro (rfl | h)
      · exact hal hx
      · exact hF.low_mid hx h
  · unfold get
    rw [ha, Option.bind_some, hb, Option.bind_some]
  · intro r' hr' i' j' k' hne
    unfold get
    by_cases he : (r', i') = (r, i)
    · obtain ⟨rfl, rfl⟩ := Prod.mk.inj he
      rw [ha, hno, Option.bind_some, Option.bind_none]
      by_cases hj : j' = j
      · subst hj
        rw [hb, Option.bind_some]
        exact hz k' fun hk => hne (by rw [hk])
      · rw [hone j' hj, Option.bind_none]
    · rw [hR r' hr' i' he]
      cases ha' : nx (E r' i') with
      | none => rfl
      | some a' =>
        have hm' := mem_mids hr' ha'
        simp only [Option.bind_some]
        rw [hM a' hm']
        cases hb' : nx (E a' j') with
        | none => rfl
        | some b' => exact hl b' (mem_lows hm' hb') k'

end AttachMid

/-! ## The three updates as functions -/

section Updates
variable [DecidableEq α] [DecidableEq ι]

/-- Entry `i` of table `t` becomes `e`. -/
def setAt (E : α → ι → ε) (t : α) (i : ι) (e : ε) : α → ι → ε :=
  fun t' i' => if t' = t ∧ i' = i then e else E t' i'

/-- Every entry of table `t` becomes `z`. -/
def clearAt (E : α → ι → ε) (t : α) (z : ε) : α → ι → ε :=
  fun t' i' => if t' = t then z else E t' i'

omit [DecidableEq ι] in
/-- Clearing two tables a second time. -/
theorem clearAt_twice (E : α → ι → ε) (a b : α) (z : ε) :
    clearAt (clearAt (clearAt (clearAt E a z) b z) a z) b z = clearAt (clearAt E a z) b z := by
  funext t i
  unfold clearAt
  split
  · rfl
  · split <;> rfl

/-- Table `b` gets the entry `e` at `k` and `z` elsewhere; entry `j` of `a`
becomes `l`. -/
def lowAt (E : α → ι → ε) (z : ε) (a : α) (j : ι) (b : α) (k : ι) (l e : ε) : α → ι → ε :=
  setAt (setAt (clearAt E b z) b k e) a j l

/-- The same below a cleared table `a`; entry `i` of `r` becomes `l'`. -/
def midAt (E : α → ι → ε) (z : ε) (r : α) (i : ι) (a : α) (j : ι) (b : α) (k : ι) (l' l e : ε) :
    α → ι → ε :=
  setAt (lowAt (clearAt E a z) z a j b k l e) r i l'

variable {r a b : α} {i j k : ι} {e l l' z : ε}

theorem Forest.putLeaf (lf : ε → Option β) (hF : Forest nx E R) (hr : r ∈ R) (ha : nx (E r i) = some a)
    (hb : nx (E a j) = some b) (k : ι) (e : ε) :
    Forest nx (setAt E b k e) R ∧ PutAt nx lf E R (setAt E b k e) r i j k (lf e) ∧
      mids nx (setAt E b k e) R = mids nx E R ∧ lows nx (setAt E b k e) R = lows nx E R := by
  have hl := mem_lows (mem_mids hr ha) hb
  have hup : ∀ t ∈ R ∪ mids nx E R, ∀ x, nx (setAt E b k e t x) = nx (E t x) := by
    intro t ht x
    rw [setAt, if_neg]
    rintro ⟨rfl, -⟩
    exact ht.elim (hF.low_root hl) (hF.low_mid hl)
  have hput : PutAt nx lf E R (setAt E b k e) r i j k (lf (setAt E b k e b k)) :=
    hF.setLeaf hr ha hb hup fun t _ x hne => by
      rw [setAt, if_neg]
      rintro ⟨rfl, rfl⟩; exact hne rfl
  rw [show setAt E b k e b k = e from if_pos ⟨rfl, rfl⟩] at hput
  exact ⟨hF.congr hup, hput, mids_lows_congr hup⟩

theorem Forest.putLow (lf : ε → Option β) (hF : Forest nx E R) (hr : r ∈ R) (ha : nx (E r i) = some a)
    (hno : nx (E a j) = none) (hbR : b ∉ R) (hbm : b ∉ mids nx E R) (hbl : b ∉ lows nx E R)
    (hb : nx l = some b) (hz : lf z = none) (k : ι) (e : ε) :
    Forest nx (lowAt E z a j b k l e) R ∧
      PutAt nx lf E R (lowAt E z a j b k l e) r i j k (lf e) ∧
      mids nx (lowAt E z a j b k l e) R = mids nx E R ∧
      lows nx (lowAt E z a j b k l e) R = insert b (lows nx E R) := by
  have hm := mem_mids hr ha
  have hba : b ≠ a := fun h => hbm (h ▸ hm)
  have hval : ∀ t x, lowAt E z a j b k l e t x = if t = a ∧ x = j then l else
      if t = b ∧ x = k then e else if t = b then z else E t x := fun _ _ => rfl
  have hb' : nx (lowAt E z a j b k l e a j) = some b := by rw [hval, if_pos ⟨rfl, rfl⟩, hb]
  have hold : ∀ t, t ≠ b → ∀ x, (t, x) ≠ (a, j) → lowAt E z a j b k l e t x = E t x :=
    fun t ht x hx => by
      rw [hval, if_neg (fun h => hx (by rw [h.1, h.2])), if_neg (fun h => ht h.1), if_neg ht]
  have hR : ∀ t ∈ R, ∀ x, nx (lowAt E z a j b k l e t x) = nx (E t x) :=
    fun t ht x => congrArg nx (hold t (fun h => hbR (h ▸ ht)) x fun h =>
      hF.mid_root hm ((Prod.mk.inj h).1 ▸ ht))
  have hM : ∀ t ∈ mids nx E R, ∀ x, (t, x) ≠ (a, j) →
      nx (lowAt E z a j b k l e t x) = nx (E t x) :=
    fun t ht x hx => congrArg nx (hold t (fun h => hbm (h ▸ ht)) x hx)
  have hL : ∀ t ∈ lows nx E R, ∀ x, lf (lowAt E z a j b k l e t x) = lf (E t x) :=
    fun t ht x => congrArg lf (hold t (fun h => hbl (h ▸ ht)) x fun h =>
      hF.low_mid ht ((Prod.mk.inj h).1 ▸ hm))
  have hzero : ∀ x, x ≠ k → lf (lowAt E z a j b k l e b x) = none := fun x hx => by
    rw [hval, if_neg (fun h => hba h.1), if_neg (fun h => hx h.2), if_pos rfl, hz]
  obtain ⟨f1, f2⟩ := hF.attachLow hr ha hno hbR hbm hbl hb' hR hM hL hzero
  rw [hval, if_neg (fun h => hba h.1), if_pos ⟨rfl, rfl⟩] at f2
  exact ⟨f1, f2, lows_attachLow hm hno hb' hR hM⟩

theorem Forest.putMid (lf : ε → Option β) (hF : Forest nx E R) (hr : r ∈ R)
    (hno : nx (E r i) = none) (haR : a ∉ R)
    (ham : a ∉ mids nx E R) (hal : a ∉ lows nx E R) (hbR : b ∉ R) (hbm : b ∉ mids nx E R)
    (hbl : b ∉ lows nx E R) (hba : b ≠ a) (ha : nx l' = some a) (hb : nx l = some b)
    (hzn : nx z = none) (hz : lf z = none) (j k : ι) (e : ε) :
    Forest nx (midAt E z r i a j b k l' l e) R ∧
      PutAt nx lf E R (midAt E z r i a j b k l' l e) r i j k (lf e) ∧
      mids nx (midAt E z r i a j b k l' l e) R = insert a (mids nx E R) ∧
      lows nx (midAt E z r i a j b k l' l e) R = insert b (lows nx E R) := by
  have hra : a ≠ r := fun h => haR (h ▸ hr)
  have hrb : b ≠ r := fun h => hbR (h ▸ hr)
  have hval : ∀ t x, midAt E z r i a j b k l' l e t x = if t = r ∧ x = i then l' else
      if t = a ∧ x = j then l else if t = b ∧ x = k then e else if t = b then z else
      if t = a then z else E t x := fun _ _ => rfl
  have ha' : nx (midAt E z r i a j b k l' l e r i) = some a := by rw [hval, if_pos ⟨rfl, rfl⟩, ha]
  have hb' : nx (midAt E z r i a j b k l' l e a j) = some b := by
    rw [hval, if_neg (fun h => hra h.1), if_pos ⟨rfl, rfl⟩, hb]
  have hone : ∀ x, x ≠ j → nx (midAt E z r i a j b k l' l e a x) = none := fun x hx => by
    rw [hval, if_neg (fun h => hra h.1), if_neg (fun h => hx h.2), if_neg (fun h => hba h.1.symm),
      if_neg hba.symm, if_pos rfl, hzn]
  have hold : ∀ t, t ≠ b → t ≠ a → ∀ x, (t, x) ≠ (r, i) →
      midAt E z r i a j b k l' l e t x = E t x := fun t htb hta x hx => by
    rw [hval, if_neg (fun h => hx (by rw [h.1, h.2])), if_neg (fun h => hta h.1),
      if_neg (fun h => htb h.1), if_neg htb, if_neg hta]
  have hR : ∀ t ∈ R, ∀ x, (t, x) ≠ (r, i) →
      nx (midAt E z r i a j b k l' l e t x) = nx (E t x) :=
    fun t ht x hx => congrArg nx (hold t (fun h => hbR (h ▸ ht)) (fun h => haR (h ▸ ht)) x hx)
  have hM : ∀ t ∈ mids nx E R, ∀ x, nx (midAt E z r i a j b k l' l e t x) = nx (E t x) :=
    fun t ht x => congrArg nx (hold t (fun h => hbm (h ▸ ht)) (fun h => ham (h ▸ ht)) x fun h =>
      hF.mid_root ht ((Prod.mk.inj h).1 ▸ hr))
  have hL : ∀ t ∈ lows nx E R, ∀ x, lf (midAt E z r i a j b k l' l e t x) = lf (E t x) :=
    fun t ht x => congrArg lf (hold t (fun h => hbl (h ▸ ht)) (fun h => hal (h ▸ ht)) x fun h =>
      hF.low_root ht ((Prod.mk.inj h).1 ▸ hr))
  have hleaf : ∀ x, midAt E z r i a j b k l' l e b x = if x = k then e else z := fun x => by
    rw [hval, if_neg (fun h => hrb h.1), if_neg (fun h => hba h.1)]
    simp only [true_and, if_true]
  have hzero : ∀ x, x ≠ k → lf (midAt E z r i a j b k l' l e b x) = none :=
    fun x hx => by rw [hleaf, if_neg hx, hz]
  obtain ⟨f1, f2⟩ := hF.attachMid hr hno haR ham hal hbR hbm hbl hba ha' hb' hone hR hM hL hzero
  rw [hleaf, if_pos rfl] at f2
  exact ⟨f1, f2, lows_attachMid hr hno ha' hb' hone hR hM⟩

end Updates

/-! ## Forests of owned tables -/

section Owned

/-- A forest whose tables, the roots apart, lie in `A`. -/
structure Owned (nx : ε → Option α) (E : α → ι → ε) (R A : Set α) : Prop where
  forest : Forest nx E R
  mids_sub : mids nx E R ⊆ A
  lows_sub : lows nx E R ⊆ A

variable {A B : Set α}

theorem Owned.mono (h : Owned nx E R A) (hAB : A ⊆ B) : Owned nx E R B :=
  ⟨h.forest, h.mids_sub.trans hAB, h.lows_sub.trans hAB⟩

/-- Roots that name nothing. -/
theorem Owned.of_empty (hE : ∀ r ∈ R, ∀ i, nx (E r i) = none) (A : Set α) : Owned nx E R A := by
  have hm : ∀ a, a ∉ mids nx E R := fun a ⟨r, hr, i, h⟩ => by
    rw [hE r hr] at h; cases h
  have hl : ∀ b, b ∉ lows nx E R := fun b ⟨a, ha, _⟩ => hm a ha
  refine ⟨⟨fun hr _ h _ => ?_, fun ha => absurd ha (hm _), fun ha => absurd ha (hm _),
    fun hb => absurd hb (hl _), fun hb => absurd hb (hl _)⟩, fun a ha => absurd ha (hm a),
    fun b hb => absurd hb (hl b)⟩
  rw [hE _ hr] at h; cases h

/-- The same tables by their entries. -/
theorem Owned.congr (h : Owned nx E R A) (heq : ∀ t ∈ R ∪ A, ∀ i, nx (E' t i) = nx (E t i)) :
    Owned nx E' R A := by
  have hup : ∀ t ∈ R ∪ mids nx E R, ∀ i, nx (E' t i) = nx (E t i) := fun t ht =>
    heq t (ht.imp_right fun hm => h.mids_sub hm)
  obtain ⟨hm, hl⟩ := mids_lows_congr hup
  refine ⟨h.forest.congr hup, ?_, ?_⟩
  · rw [hm]
    exact h.mids_sub
  · rw [hl]
    exact h.lows_sub

/-- More roots that name nothing and are not among the tables. -/
theorem Owned.roots {r : α} (h : Owned nx E {r} A) (hr : r ∈ R)
    (hE : ∀ t ∈ R, t ≠ r → ∀ i, nx (E t i) = none) (hA : ∀ t ∈ R, t ≠ r → t ∉ A) :
    Owned nx E R A := by
  have hone : ∀ {t i a}, t ∈ R → nx (E t i) = some a → t = r := by
    intro t i a ht ha
    by_contra hne
    rw [hE t ht hne] at ha
    cases ha
  have hm : mids nx E R = mids nx E {r} := by
    apply Set.ext
    intro a
    constructor
    · rintro ⟨t, ht, i, ha⟩
      exact ⟨t, hone ht ha, i, ha⟩
    · rintro ⟨t, rfl, i, ha⟩
      exact ⟨t, hr, i, ha⟩
  have hl : lows nx E R = lows nx E {r} := by rw [lows, hm]
  have hout : ∀ {a}, a ∈ A → a ≠ r → a ∉ R := fun ha hne hmem => hA _ hmem hne ha
  have hF := h.forest
  refine ⟨⟨fun h1 h2 h3 h4 => ?_, ?_, fun ha => ?_, fun hb => ?_, ?_⟩, ?_, ?_⟩
  · exact hF.mid_inj (hone h1 h3) (hone h2 h4) h3 h4
  · rw [hm]
    exact hF.low_inj
  · rw [hm] at ha
    exact hout (h.mids_sub ha) (hF.mid_root ha)
  · rw [hl] at hb
    exact hout (h.lows_sub hb) (hF.low_root hb)
  · rw [hm, hl]
    exact hF.low_mid
  · rw [hm]
    exact h.mids_sub
  · rw [hl]
    exact h.lows_sub

variable [DecidableEq α] [DecidableEq ι] {r a b : α} {i j k : ι} {e l l' z : ε}

theorem Owned.putLeaf (lf : ε → Option β) (h : Owned nx E R A) (hr : r ∈ R)
    (ha : nx (E r i) = some a) (hb : nx (E a j) = some b) (k : ι) (e : ε) :
    Owned nx (setAt E b k e) R A ∧ PutAt nx lf E R (setAt E b k e) r i j k (lf e) := by
  obtain ⟨f1, f2, g1, g2⟩ := h.forest.putLeaf lf hr ha hb k e
  refine ⟨⟨f1, ?_, ?_⟩, f2⟩
  · rw [g1]; exact h.mids_sub
  · rw [g2]; exact h.lows_sub

theorem Owned.putLow (lf : ε → Option β) (h : Owned nx E R A) (hr : r ∈ R)
    (ha : nx (E r i) = some a) (hno : nx (E a j) = none) (hbR : b ∉ R) (hbA : b ∉ A)
    (hb : nx l = some b) (hz : lf z = none) (k : ι) (e : ε) :
    Owned nx (lowAt E z a j b k l e) R (insert b A) ∧
      PutAt nx lf E R (lowAt E z a j b k l e) r i j k (lf e) := by
  obtain ⟨f1, f2, g1, g2⟩ := h.forest.putLow lf hr ha hno hbR (fun hm => hbA (h.mids_sub hm))
    (fun hm => hbA (h.lows_sub hm)) hb hz k e
  refine ⟨⟨f1, ?_, ?_⟩, f2⟩
  · rw [g1]; exact h.mids_sub.trans (Set.subset_insert b A)
  · rw [g2]; exact Set.insert_subset_insert h.lows_sub

theorem Owned.putMid (lf : ε → Option β) (h : Owned nx E R A) (hr : r ∈ R)
    (hno : nx (E r i) = none) (haR : a ∉ R) (haA : a ∉ A) (hbR : b ∉ R) (hbA : b ∉ A) (hba : b ≠ a)
    (ha : nx l' = some a) (hb : nx l = some b) (hzn : nx z = none) (hz : lf z = none)
    (j k : ι) (e : ε) :
    Owned nx (midAt E z r i a j b k l' l e) R (insert a (insert b A)) ∧
      PutAt nx lf E R (midAt E z r i a j b k l' l e) r i j k (lf e) := by
  obtain ⟨f1, f2, g1, g2⟩ := h.forest.putMid lf hr hno haR (fun hm => haA (h.mids_sub hm))
    (fun hm => haA (h.lows_sub hm)) hbR (fun hm => hbA (h.mids_sub hm))
    (fun hm => hbA (h.lows_sub hm)) hba ha hb hzn hz j k e
  refine ⟨⟨f1, ?_, ?_⟩, f2⟩
  · rw [g1]
    exact Set.insert_subset_insert (h.mids_sub.trans (Set.subset_insert b A))
  · rw [g2]
    exact (Set.insert_subset_insert h.lows_sub).trans (Set.subset_insert a _)

end Owned

end

end X64k.Core.Radix
