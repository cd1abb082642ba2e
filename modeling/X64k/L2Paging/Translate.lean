import X64k.L2Paging.WellFormed

/-!
# What the tables translate

`Sound` is the part of the invariant that `map` needs: the tables under the
roots are a forest of tracked pages, and the allocator's data lie apart from
them. Counters do not matter to `map`, so `Sound` asks nothing of them.

* `Sound.map`: `map` of an unmapped page adds its translation and changes no
  other.
* `Sound.unmap_keeps`: `unmap` that leaves the page directory a reference
  changes no translation.
-/
namespace X64k.L2.Paging

open X64k.Core X64k.Core.Radix

/-- The tables under the roots `R` are a forest of tracked pages, apart from
bitmap and counters, and no root is a page that may be handed out. -/
structure Sound (s : Statics) (R : Set Word) (m : Mem) : Prop where
  layout : Layout s
  domain : Domain s (tablePages s R)
  tree : Tree s (tabsOf s m) R
  rooted : ∀ n < s.pages, s.page n ∈ R → tracked s m n = true

/-- `m'` translates `v`'s page below `r` to the frame `a`, and everything else
below the roots `R` as `m` does. -/
structure Adds (R : Set Word) (m m' : Mem) (r v a : Word) : Prop where
  hit : ∀ w : Word, w.toNat < 2 ^ 48 → w >>> 21 = v >>> 21 →
    Pml4.get m' r w = some (a ||| (w &&& 0x1FFFFF))
  miss : ∀ r' ∈ R, ∀ w : Word, w.toNat < 2 ^ 48 → (r', w >>> 21) ≠ (r, v >>> 21) →
    Pml4.get m' r' w = Pml4.get m r' w

section
variable {s : Statics} {m m' : Mem} {R : Set Word} {r v p f : Word}

theorem Sound.rooted' (h : Sound s R m) : Rooted s (tablePages s R) (tabsOf s m) R :=
  ⟨Set.subset_union_left, h.rooted⟩

theorem Sound.shows_ (h : Sound s R m) {V : Tabs} (hS : Shows s m' (tablePages s R) V)
    (hT : Tree s V R) (hR : Rooted s (tablePages s R) V R) : Sound s R m' :=
  ⟨h.layout, h.domain, hS.tree h.domain hR.sub hT, (hS.rooted hR).root⟩

theorem AllocWF.sound (hA : AllocWF s m {r}) (hW : TableWF s m r) : Sound s {r} m :=
  ⟨hA.layout, hA.domain, (tableWF_iff.mp hW).1, hA.rooted⟩

theorem get_of_path (m : Mem) (r : Word) {v w : Word} (hv : v.toNat < 2 ^ 48)
    (hw : w.toNat < 2 ^ 48) (h : w >>> 21 = v >>> 21) : Pml4.get m r w =
      (Radix.get nx lf (entry m) r (pml4Ix v) (pdptIx v) (pdIx v)).map (· ||| (w &&& 0x1FFFFF)) := by
  obtain ⟨h1, h2, h3⟩ := (path_eq_iff hw hv).mpr h
  rw [get_eq m r hw, h1, h2, h3]

/-- Whether an address is mapped depends on its page only. -/
theorem get_none_congr (m : Mem) (r : Word) {v w : Word} (hv : v.toNat < 2 ^ 48)
    (hw : w.toNat < 2 ^ 48) (h : w >>> 21 = v >>> 21) :
    Pml4.get m r w = none ↔ Pml4.get m r v = none := by
  rw [get_of_path m r hv hw h, get_eq m r hv, Option.map_eq_none_iff, Option.map_eq_none_iff]

/-- One value more in the tables is one translation more. -/
theorem adds_of_putAt (hr : r ∈ R) (hv : v.toNat < 2 ^ 48) {E : Word → Fin 512 → Word} {a : Word}
    (hput : PutAt nx lf (entry m) R E r (pml4Ix v) (pdptIx v) (pdIx v) (some a))
    (hE : ∀ r' ∈ R, ∀ i j k, Radix.get nx lf (entry m') r' i j k = Radix.get nx lf E r' i j k) :
    Adds R m m' r v a := by
  refine ⟨fun w hw h => ?_, fun r' hr' w hw hne => ?_⟩
  · rw [get_of_path m' r hv hw h, hE r hr, hput.hit]
    rfl
  · rw [get_eq m' r' hw, get_eq m r' hw, hE r' hr', hput.miss r' hr']
    intro he
    obtain ⟨rfl, h⟩ := Prod.mk.inj he
    obtain ⟨h1, h⟩ := Prod.mk.inj h
    obtain ⟨h2, h3⟩ := Prod.mk.inj h
    exact hne (Prod.ext rfl ((path_eq_iff hw hv).mp ⟨h1, h2, h3⟩))

theorem Sound.map (h : Sound s R m) (hr : r ∈ R) (hv : Canonical v) (hp : p &&& 0x1FFFFF = 0)
    (hfree : Pml4.get m r v = none) :
    (∃ msg, Pml4.map s m r v p f = .error (.panic msg) ∧
      RunsOut s (tabsOf s m) r (pml4Ix v) (pdptIx v)) ∨
    ∃ m', Pml4.map s m r v p f = .ok m' ∧ Sound s R m' ∧ Adds R m m' r v (frameOf p f) := by
  have hS := shows_tabsOf s m (tablePages s R)
  rcases map_shows h.layout h.domain hS h.tree h.rooted' hr hv.1 hv.2 hp
    ((get_none_iff hv.1).mp hfree) with hfail | ⟨m', V', he, hS', hM⟩
  · exact .inl hfail
  obtain ⟨hT', hput, -⟩ := hM.tree h.layout h.tree h.rooted' hr
  rw [lf_leaf] at hput
  refine .inr ⟨m', he, h.shows_ hS' hT' (hM.rooted h.rooted'), ?_⟩
  exact adds_of_putAt hr hv.1 hput fun r' hr' i j k =>
    hS'.get h.domain Set.subset_union_left hT' hr' i j k

/-! ## `unmap` -/

/-- The page directory that translates `v`, if it is page `n`. -/
def InPd (s : Statics) (m : Mem) (r v : Word) (n : Nat) : Prop :=
  (nx (entry m r (pml4Ix v))).bind (fun a => nx (entry m a (pdptIx v))) = some (s.page n)

instance (s : Statics) (m : Mem) (r v : Word) (n : Nat) : Decidable (InPd s m r v n) :=
  inferInstanceAs (Decidable (_ = _))

theorem Sound.get_congr (h : Sound s R m)
    (hE : TablesShow m' (tablePages s R) (entry m)) (hr : r ∈ R) (hv : v.toNat < 2 ^ 48) :
    Pml4.get m' r v = Pml4.get m r v := by
  have hmem : ∀ {t}, (∃ n < s.pages, t = s.page n ∧ tracked s m n = true) → t ∈ tablePages s R :=
    fun ⟨n, hn, he, _⟩ => .inr ⟨n, hn, he⟩
  have hent : ∀ t ∈ tablePages s R, ∀ i, entry m' t i = entry m t i := hE
  rw [get_eq m' r hv, get_eq m r hv]
  refine congrArg (Option.map _) (Radix.get_congr hr ?_ ?_ _ _ _)
  · rintro t (ht | ht) i
    · rw [hent t (.inl ht)]
    · rw [hent t (hmem (h.tree.mid t ht))]
  · intro t ht i
    rw [hent t (hmem (h.tree.low t ht))]

/-- `unmap` of a mapped page drops a reference of its page directory. -/
theorem Sound.unmap (h : Sound s R m) (hr : r ∈ R) (hv : Canonical v)
    (hmap : Pml4.get m r v ≠ none) :
    ∃ q n m', q < s.pages ∧ n < s.pages ∧ InPd s m r v n ∧
      Pml4.unmap s m r v = .ok (true, m') ∧
      Shows s m' (tablePages s R) (dropped (tabsOf s m) q n) := by
  obtain ⟨q, n, m', hq, hn, -, -, -, h1, h2, -, he, hS'⟩ :=
    unmap_shows h.layout h.domain (shows_tabsOf s m (tablePages s R)) h.tree
      Set.subset_union_left hr hv.1 hv.2 ((get_none_iff hv.1).not.mp hmap)
  have hpd : InPd s m r v n := by
    have h1' : nx (entry m r (pml4Ix v)) = some (s.page q) := h1
    rw [InPd, h1', Option.bind_some]
    exact h2
  exact ⟨q, n, m', hq, hn, hpd, he, hS'⟩

/-- With another reference left, only the counter changes. -/
theorem Sound.unmap_keeps (h : Sound s R m) (hr : r ∈ R) (hv : Canonical v)
    (hmap : Pml4.get m r v ≠ none)
    (hleft : ∀ n < s.pages, InPd s m r v n → 2 ≤ (refs s m n).toNat) :
    ∃ n m', n < s.pages ∧ InPd s m r v n ∧ Pml4.unmap s m r v = .ok (true, m') ∧ Sound s R m' ∧
      TablesShow m' (tablePages s R) (entry m) ∧
      ∀ k < s.pages, refs s m' k = if k = n then refs s m n - 1 else refs s m k := by
  obtain ⟨q, n, m', hq, hn, hpd, he, hS'⟩ := h.unmap hr hv hmap
  have h2 := hleft n hn hpd
  have hlt := (refs s m n).isLt
  have hdec : decremented (refs s m n) = refs s m n - 1 :=
    if_pos fun h0 => by rw [h0] at h2; exact absurd h2 (by decide)
  have hne : decremented (refs s m n) ≠ 0 := by
    rw [hdec]
    intro h0
    have h3 := congrArg BitVec.toNat h0
    have h4 : (1 : BitVec 16).toNat = 1 := rfl
    have h5 : (0 : BitVec 16).toNat = 0 := rfl
    rw [BitVec.toNat_sub, h4, h5] at h3
    omega
  rw [dropped_of_ne q hne, show (tabsOf s m).cnt n = refs s m n from rfl, hdec] at hS'
  refine ⟨n, m', hn, hpd, he, ?_, hS'.E, fun k hk => ?_⟩
  · exact h.shows_ hS' ⟨h.tree.forest, h.tree.mid, h.tree.low⟩ ⟨Set.subset_union_left, h.rooted⟩
  · exact hS'.cnt k hk

theorem Sound.inPd_congr (h : Sound s R m) (hE : TablesShow m' (tablePages s R) (entry m))
    (hr : r ∈ R) (v : Word) (n : Nat) : InPd s m' r v n ↔ InPd s m r v n := by
  have hent : ∀ t ∈ tablePages s R, ∀ i, entry m' t i = entry m t i := hE
  have h1 := hent r (.inl hr) (pml4Ix v)
  unfold InPd
  rw [h1]
  cases ha : nx (entry m r (pml4Ix v)) with
  | none => rw [Option.bind_none, Option.bind_none]
  | some a =>
    obtain ⟨k, hk, rfl, -⟩ := h.tree.mid a (mem_mids hr ha)
    have h2 := hent (s.page k) (.inr ⟨k, hk, rfl⟩) (pdptIx v)
    rw [Option.bind_some, Option.bind_some, h2]

end

end X64k.L2.Paging
