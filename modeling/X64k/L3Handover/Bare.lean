import X64k.L2Paging.Writable
import X64k.L3Handover.Image

/-!
# The loader's upper entries

The loader's `map` stores a table's address with the present bit and nothing
else, so no entry of its PML4 has `F_RW`, whatever it has mapped.

* `map_row`: what `map` does to the entries of the PML4.
* `bare_of_reachable`: the PML4 after any run of `map` calls.
-/
namespace X64k.L3.Loader

open X64k.Core X64k.Core.Radix
open X64k.L2.Paging (entry nx lf Tabs pml4Ix pdptIx pdIx isWritable Apart)

/-! ## `map` -/

/-- No entry of the table has `F_RW`. -/
def Bare (m : Mem) (t : Word) : Prop := ∀ i, ¬ isWritable (entry m t i)

section Map
variable {tr : Ptr} {m m' : Mem} {x : Nat}

theorem pageLink_bare {n : Nat} (hn : n < 256) : ¬ isWritable ((page n ||| 1).setWidth 64) := by
  have hlow : (page n &&& 0xFFF).getLsbD 1 = false := by rw [page_low hn]; rfl
  rw [BitVec.getLsbD_and, show (0xFFF : Ptr).getLsbD 1 = true from by decide, Bool.and_true] at hlow
  rw [L2.Paging.isWritable_iff, BitVec.getLsbD_setWidth, BitVec.getLsbD_or, hlow]
  decide

theorem mapNewPd_row (hL : Layout tr) (hx : x < 256) (ht : tracked tr m x = true) {q : Nat}
    (hq : q < 256) (hqx : q ≠ x) (j k : Fin 512) {p : Word} {flags : BitVec 32}
    (he : Pml4.mapNewPd tr m (page q) (BitVec.ofNat 32 j) (BitVec.ofNat 32 k) p flags = .ok m')
    (i : Fin 512) : entry m' (page x).addr i = entry m (page x).addr i := by
  unfold Pml4.mapNewPd at he
  obtain ⟨n, hn, hnt, m₁, -, -, -, hrow, he⟩ := alloc_then hL (fun _ h => by cases h) he
  dsimp only at he
  rw [Res.assert_of (page_ne_fail hn), Res.ok_bind] at he
  obtain rfl := Except.ok.inj he
  have hnx : x ≠ n := ne_of_apply_ne (tracked tr m) (by simp [ht, hnt])
  rw [entry_setEntryAt hq hx, if_neg fun h => hqx h.1.symm, entry_setEntryAt hn hx,
    if_neg fun h => hnx h.1, hrow x hx, if_neg hnx]

theorem mapNewPdp_row (hL : Layout tr) (hx : x < 256) (ht : tracked tr m x = true)
    (i₀ j k : Fin 512) {p : Word} {flags : BitVec 32}
    (he : Pml4.mapNewPdp tr m (page x) (BitVec.ofNat 32 i₀) (BitVec.ofNat 32 j)
      (BitVec.ofNat 32 k) p flags = .ok m') (i : Fin 512) :
    entry m' (page x).addr i = entry m (page x).addr i ∨
      ∃ q < 256, entry m' (page x).addr i = (page q ||| 1).setWidth 64 := by
  unfold Pml4.mapNewPdp at he
  obtain ⟨q, hq, hqt, m₁, -, -, htrk, hrow, he⟩ := alloc_then hL (fun _ h => by cases h) he
  dsimp only at he
  rw [Res.assert_of (page_ne_fail hq), Res.ok_bind] at he
  obtain ⟨n, hn, hnt, m₂, -, -, -, hrow', he⟩ := alloc_then hL (fun _ h => by cases h) he
  dsimp only at he
  rw [Res.assert_of (page_ne_fail hn), Res.ok_bind] at he
  obtain rfl := Except.ok.inj he
  have hqx : x ≠ q := ne_of_apply_ne (tracked tr m) (by simp [ht, hqt])
  have hnx : x ≠ n := ne_of_apply_ne (tracked tr m₁) (by simp [htrk x hx, hqx, ht, hnt])
  rw [entry_setEntryAt hx hx]
  by_cases hi : i = i₀
  · exact .inr ⟨q, hq, if_pos ⟨rfl, hi⟩⟩
  · rw [if_neg fun h => hi h.2, entry_setEntryAt hq hx, if_neg fun h => hqx h.1,
      entry_setEntryAt hn hx, if_neg fun h => hnx h.1, clearPage_rows _ hn hx, if_neg hnx,
      clearPage_rows _ hq hx, if_neg hqx, hrow' x hx, if_neg hnx, hrow x hx, if_neg hqx]
    exact .inl rfl

/-- `map` leaves an entry of the PML4, or stores a page's address and the
present bit. -/
theorem map_row (hL : Layout tr) {V : Tabs} (hS : Shows tr m V)
    (hO : Owned nx V.E {(page x).addr} (taken V)) (hx : x < 256) (ht : V.trk x = true) {v p : Word}
    {flags : BitVec 32} (hv : v.toNat < 2 ^ 48)
    (he : Pml4.map tr m (page x) v p flags = .ok m') (i : Fin 512) :
    entry m' (page x).addr i = entry m (page x).addr i ∨
      ∃ q < 256, entry m' (page x).addr i = (page q ||| 1).setWidth 64 := by
  have htrk : tracked tr m x = true := (hS.trk x hx).trans ht
  have hroot : (page x).addr ∈ ({(page x).addr} : Set Word) := rfl
  unfold Pml4.map at he
  dsimp only at he
  rw [pml4Index_eq hv, pdpIndex_eq, pdIndex_eq] at he
  generalize pml4Ix v = i₀ at he
  generalize pdptIx v = j at he
  generalize pdIx v = k at he
  rw [entryAt_page m hx, hS.E _ (page_mem hx) i₀] at he
  cases h1 : nx (V.E (page x).addr i₀) with
  | none =>
    rw [if_neg (present_one.not.mpr (L2.Paging.nx_eq_none.mp h1))] at he
    exact mapNewPdp_row hL hx htrk i₀ j k he i
  | some a =>
    have hm := mem_mids hroot h1
    obtain ⟨q, hq, rfl, -⟩ := hO.mids_sub hm
    have hqx : q ≠ x := by
      rintro rfl
      exact hO.forest.mid_root hm rfl
    rw [if_pos (present_one.mpr (L2.Paging.present_of_nx h1).1), tableOf_page h1, entryAt_page m hq,
      hS.E _ (page_mem hq) j] at he
    cases h2 : nx (V.E (page q).addr j) with
    | none =>
      rw [if_neg (present_low.not.mpr (L2.Paging.nx_eq_none.mp h2))] at he
      exact .inl (mapNewPd_row hL hx htrk hq hqx j k he i)
    | some b =>
      have hl := mem_lows hm h2
      obtain ⟨n, hn, rfl, -⟩ := hO.lows_sub hl
      have hnx : x ≠ n := by
        rintro rfl
        exact hO.forest.low_root hl rfl
      rw [if_pos (present_low.mpr (L2.Paging.present_of_nx h2).1), tableOf_page h2] at he
      obtain rfl := Except.ok.inj he
      rw [entry_setEntryAt hn hx, if_neg fun h => hnx h.1]
      exact .inl rfl

end Map

/-! ## Runs of `map` -/

/-- After any run of `map` calls the PML4 is bare. -/
theorem bare_of_reachable {tr root : Ptr} (hL : Layout tr) {s : State}
    (h : (lts tr root).Reachable s) :
    ∃ x < 256, root = page x ∧ (∃ V, Built tr x s V) ∧ Bare s.mem (page x).addr := by
  refine LTS.Inductive.reachable (I := fun s => ∃ x < 256, root = page x ∧ (∃ V, Built tr x s V) ∧
    Bare s.mem (page x).addr) ⟨?_, ?_⟩ s h
  · rintro ⟨_, _⟩ ⟨rfl, x, hx, rfl, m, ht, rfl⟩
    refine ⟨x, hx, rfl, built_init hL hx ht, fun i => ?_⟩
    have hzero : entry (Pml4.init m (page x)) (page x).addr i = 0 :=
      (clearPage_rows m hx hx i).trans (if_pos rfl)
    rw [hzero]
    decide
  · rintro s c ⟨m', _⟩ ⟨x, hx, rfl, ⟨V, hB⟩, hbare⟩ ⟨hc, he, rfl⟩
    rcases hB.step hL hx hc with ⟨msg, he', -⟩ | ⟨m₁, V', he', hB', -⟩
    · rw [he'] at he
      cases he
    · have hrow := map_row hL hB.shows_ hB.owned hx hB.root hc.1 he
      rw [he'] at he
      cases he
      refine ⟨x, hx, rfl, ⟨V', hB'⟩, fun i => ?_⟩
      rcases hrow i with hsame | ⟨q, hq, hlink⟩
      · rw [hsame]
        exact hbare i
      · rw [hlink]
        exact pageLink_bare hq

end X64k.L3.Loader
