import X64k.L2Paging.Footprint
import X64k.L2Paging.Writable

/-!
# Pages for tables

The bitmap says which pages of the range are tables. `map` sets bits of pages
that become tables on its path (`Mapped.tracks`), and fails when there are not
enough (`RunsOut`); `unmap` only clears bits (`unmap_releases`).
-/
namespace X64k.L2.Paging

open X64k.Core X64k.Core.Radix

/-! ## Pages taken -/

section Taken
variable {s : Statics} {P R : Set Word} {V V' : Tabs} {r leaf : Word} {i j k : Fin 512} {n : Nat}

/-- A page that `map` takes becomes a table on the path. -/
theorem Mapped.tracks (hL : Layout s) (hT : Tree s V R) (hR : Rooted s P V R) (hr : r ∈ R)
    (h : Mapped s V r i j k leaf V') (hn : V'.trk n = true) : V.trk n = true ∨
      nx (V'.E r i) = some (s.page n) ∨
      ∃ a, nx (V'.E r i) = some a ∧ nx (V'.E a j) = some (s.page n) := by
  have hE := h.extends hL hT hR hr
  cases h with
  | inPd h1 h2 hx h3 => exact .inl hn
  | @newPd q x h1 h2 hq hx hqt hxt =>
    have htrk : (putPd s V q x j k leaf).trk n = if n = x then true else V.trk n := rfl
    rw [htrk] at hn
    split at hn
    · rename_i he
      subst he
      refine .inr (.inr ⟨s.page q, (hE.nx_kept (.inl (.inl hr)) h1).2, ?_⟩)
      rw [putPd_E, if_pos ⟨rfl, rfl⟩, nx_link (hL.aligned hx)]
    · exact .inl hn
  | @newPdpt q x h1 hq hx hqt hxt hne =>
    have htrk : (putPdpt s V r q x i j k leaf).trk n =
        if n = x then true else if n = q then true else V.trk n := rfl
    have hlink : nx ((putPdpt s V r q x i j k leaf).E r i) = some (s.page q) := by
      rw [putPdpt_E, if_pos ⟨rfl, rfl⟩, nx_link (hL.aligned hq)]
    rw [htrk] at hn
    split at hn
    · rename_i he
      subst he
      have hqr : s.page q ≠ r := fun he => hR.not_root hq hqt (he ▸ hr)
      refine .inr (.inr ⟨s.page q, hlink, ?_⟩)
      rw [putPdpt_E, if_neg fun he => hqr he.1, if_pos ⟨rfl, rfl⟩, nx_link (hL.aligned hx)]
    split at hn
    · rename_i he
      subst he
      exact .inr (.inl hlink)
    · exact .inl hn

end Taken

/-! ## Pages given back -/

section Released
variable {s : Statics} {P R : Set Word} {m m' m'' : Mem} {n q : Nat} {r v : Word}

/-- Bits are cleared at most. -/
def Releases (s : Statics) (m m' : Mem) : Prop :=
  ∀ n < s.pages, tracked s m' n = true → tracked s m n = true

theorem Releases.refl (s : Statics) (m : Mem) : Releases s m m := fun _ _ h => h

theorem Releases.trans (h : Releases s m m') (h' : Releases s m' m'') : Releases s m m'' :=
  fun n hn ht => h n hn (h' n hn ht)

theorem free_releases (hL : Layout s) (hD : Domain s P) (hn : n < s.pages)
    (he : free s m (s.page n) = .ok m') : Releases s m m' := by
  have hS := shows_tabsOf s m P
  intro k hk ht
  cases hb : tracked s m n with
  | true =>
    obtain ⟨m₁, hok, hS₁⟩ := free_shows hL hD hS hn hb
    obtain rfl := Except.ok.inj (hok.symm.trans he)
    rw [hS₁.trk k hk, Tabs.track_trk] at ht
    split at ht
    · cases ht
    · exact ht
  | false =>
    obtain ⟨⟨⟩, hbit, -⟩ := Res.bind_eq_ok.mp he
    rw [assert, if_neg (not_not_intro ((hS.test hL hn).mpr hb))] at hbit
    cases hbit

theorem decRefs_releases (hL : Layout s) (hD : Domain s P) (hn : n < s.pages) {c : BitVec 16}
    (he : decRefs s m (s.page n) = .ok (c, m')) : Releases s m m' := by
  intro k hk ht
  obtain ⟨m₁, hok, hS₁⟩ := decRefs_shows hL hD (shows_tabsOf s m P) hn
  cases hok.symm.trans he
  exact (hS₁.trk k hk).symm.trans ht

theorem dropPd_releases (hL : Layout s) (hD : Domain s P) (hq : q < s.pages) (hn : n < s.pages)
    (he : Pml4.dropPd s m (s.page q) (s.page n) = .ok m') : Releases s m m' := by
  obtain ⟨⟨c, m₁⟩, hd, he⟩ := Res.bind_eq_ok.mp he
  have h₁ := decRefs_releases hL hD hn hd
  dsimp only at he
  split at he
  · obtain ⟨m₂, hf, he⟩ := Res.bind_eq_ok.mp he
    obtain ⟨⟨c', m₃⟩, hd', he⟩ := Res.bind_eq_ok.mp he
    have h₃ := (h₁.trans (free_releases hL hD hn hf)).trans (decRefs_releases hL hD hq hd')
    dsimp only at he
    split at he
    · exact h₃.trans (free_releases hL hD hq he)
    · cases he
      exact h₃
  · cases he
    exact h₁

theorem unmap_releases (hL : Layout s) (hD : Domain s P) (hI : InRange s m R) (hr : r ∈ R)
    (hv : v.toNat < 2 ^ 48) {b : Bool} (he : Pml4.unmap s m r v = .ok (b, m')) :
    Releases s m m' := by
  rcases unmap_drops hI hr hv he with rfl | ⟨q, hq, n, hn, hd⟩
  · exact .refl _ _
  · exact dropPd_releases hL hD hq hn hd

end Released

end X64k.L2.Paging
