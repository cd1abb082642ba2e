import X64k.L4Mm.Live
import X64k.L4Mm.Permission

/-!
# Blocks stay in the lower half

`m_virtualAllocRange` ends at 0xFFFF00000000, where addresses are no longer
canonical. No block gets there: the search returns the lowest block that is
vacant, and every GiB below it has a mapped page and with it a page directory
of its own. There are fewer page directories than pages for tables.

* `Sound.regions_le`: no more GiB have mapped pages than there are tracked
  pages.
* `block_low`: where blocks lie, in every run.
-/
namespace X64k.L4.Mm

open X64k.Core X64k.Core.Radix X64k.L2.Paging
open X64k.L3.Retain (LoaderData Handover retainLoaderPaging)

section
variable {s : Statics} {R : Set Word} {m : Mem} {p v : Word}

theorem Sound.directory (h : Sound s R m) (hp : p ∈ R) (hv : v.toNat < 2 ^ 48)
    (hmap : Pml4.get m p v ≠ none) : ∃ n < s.pages, tracked s m n = true ∧
      ∃ a, nx (entry m p (pml4Ix v)) = some a ∧
        nx (entry m a (pdptIx v)) = some (s.page n) := by
  have hget := (get_none_iff hv).not.mp hmap
  unfold Radix.get at hget
  cases h1 : nx (entry m p (pml4Ix v)) with
  | none =>
    rw [h1] at hget
    exact absurd rfl hget
  | some a =>
    rw [h1, Option.bind_some] at hget
    cases h2 : nx (entry m a (pdptIx v)) with
    | none =>
      rw [h2] at hget
      exact absurd rfl hget
    | some b =>
      obtain ⟨n, hn, rfl, ht⟩ := h.tree.low b (mem_lows (mem_mids hp h1) h2)
      exact ⟨n, hn, ht, a, rfl, h2⟩

/-- Mapped addresses in different GiB have different page directories. -/
theorem Sound.regions_le (h : Sound s R m) (hp : p ∈ R) {b : Nat}
    (hlt : ∀ n < s.pages, tracked s m n = true → n < b) {k : Nat} (w : Fin k → Word)
    (hw : ∀ g, (w g).toNat < 2 ^ 48) (hmap : ∀ g, Pml4.get m p (w g) ≠ none)
    (hinj : ∀ g g', (w g).toNat / 2 ^ 30 = (w g').toNat / 2 ^ 30 → g = g') : k ≤ b := by
  choose n hn ht a ha hb using fun g => Sound.directory h hp (hw g) (hmap g)
  let f : Fin k → Fin b := fun g => ⟨n g, hlt (n g) (hn g) (ht g)⟩
  have hf : Function.Injective f := by
    intro g g' he
    have hpage : s.page (n g) = s.page (n g') := congrArg s.page (Fin.mk.inj he)
    have hb' := hb g'
    rw [← hpage] at hb'
    obtain ⟨haa, hj⟩ := h.tree.forest.low_inj (mem_mids hp (ha g)) (mem_mids hp (ha g')) (hb g) hb'
    have ha' := ha g'
    rw [← haa] at ha'
    obtain ⟨-, hi⟩ := h.tree.forest.mid_inj hp hp (ha g) ha'
    have h1 := Fin.mk.inj hi
    have h2 := Fin.mk.inj hj
    have h3 := hw g
    have h4 := hw g'
    exact hinj g g' (by omega)
  have := Fintype.card_le_of_injective f hf
  rwa [Fintype.card_fin, Fintype.card_fin] at this

theorem FirstVacant.low {n : Nat} (h : Sound s R m) (hp : p ∈ R) (hn : n ≤ 32)
    (hv : FirstVacant m p v n) : v.toNat < 0x80000000 + 0x40000000 * (s.pages + 1) := by
  by_contra hge
  have hstart : rangeStart.toNat = 0x80000000 := rfl
  have hend : rangeEnd.toNat = 0xFFFF00000000 := rfl
  have hbelow := hv.vacant.below
  -- the candidate at the start of GiB `g`
  have hcand (g : Fin (s.pages + 1)) : (adr (0x80000000 + 0x40000000 * g)).toNat =
      0x80000000 + 0x40000000 * g := adr_toNat (by omega)
  have hblocked (g : Fin (s.pages + 1)) : Blocked m p (adr (0x80000000 + 0x40000000 * g)) n := by
    have := hcand g
    refine hv.lowest _ ⟨aligned_iff.mpr (by omega), by omega, by omega⟩ (by omega)
  choose i hi hmap using hblocked
  have hpage (g : Fin (s.pages + 1)) : (blockPage (adr (0x80000000 + 0x40000000 * g)) (i g)).toNat =
      0x80000000 + 0x40000000 * g + 0x200000 * i g := by
    have := hcand g
    have := hi g
    rw [blockPage_toNat (by omega), hcand]
  have := Sound.regions_le h hp (fun _ hn _ => hn) (fun g => blockPage (adr (0x80000000 + 0x40000000 * g)) (i g))
    (fun g => by have := hpage g; have := hi g; omega)
    (fun g => Option.isSome_iff_ne_none.mp (hmap g)) fun g g' he => by
      have h1 := hpage g
      have h2 := hpage g'
      have h3 := hi g
      have h4 := hi g'
      exact Fin.ext (by omega)
  omega

end

/-! ## Main result -/

/-- **Blocks are canonical.** In every run whose `free`s spare the page
directories, every block that `alloc` returns ends below 2 TiB. -/
theorem block_low {ld : LoaderData} {s : Statics} {R : Set Word} {st : LiveState} {st' : Machine}
    {p v n : Word} {flags : BitVec 32} (hh : Handover ld)
    (h : ((liveLts ld s R).guard (Spares s)).Reachable st) (hp : p ∈ R)
    (he : alloc s st.machine p n flags = .ok (some v, st')) :
    0x80000000 ≤ v.toNat ∧ v.toNat + 0x200000 * n.toNat ≤ 2 ^ 41 := by
  obtain ⟨hinv, m₀, hr⟩ : LiveInv s R st ∧ ∃ m₀ m, retainLoaderPaging ld m₀ = .ok (s, m) := by
    refine LTS.Inductive.reachable (I := fun st => LiveInv s R st ∧
      ∃ m₀ m, retainLoaderPaging ld m₀ = .ok (s, m)) ⟨?_, ?_⟩ st h
    · rintro st ⟨⟨m₀, hr⟩, hsound, -, hlive⟩
      exact ⟨⟨hsound, by rw [hlive]; exact nofun⟩, m₀, _, hr⟩
    · rintro st c st' ⟨hI, hr⟩ ⟨hst, hc⟩
      exact ⟨hI.step hst hc, hr⟩
  obtain ⟨m, hr⟩ := hr
  have hL := hinv.sound.layout
  have hstop : s.stop.toNat = 0x3FF000 := by
    rw [(L3.Retain.Retained.of_ok hh hr).stop]
    rfl
  have hpages := hL.stop_eq
  obtain ⟨hn, hfirst, -⟩ := alloc_extends hinv.sound hp he
  have hlow := hfirst.low hinv.sound hp hn
  have habove := hfirst.vacant.above
  have hstart : rangeStart.toNat = 0x80000000 := rfl
  omega

theorem block_low_demo : ∃ s m st, ∃ v : Word, alloc s ⟨m, init⟩ 0x100000 1 1 = .ok (some v, st) ∧
    0x80000000 ≤ v.toNat ∧ v.toNat + 0x200000 * (1 : Word).toNat ≤ 2 ^ 41 := by
  have h : (match retainLoaderPaging published L3.Loader.demoMem with
      | .ok (s, m) =>
        match alloc s ⟨m, init⟩ 0x100000 1 1 with
        | .ok (some _, _) => true
        | _ => false
      | _ => false) = true := by decide +kernel
  split at h
  · rename_i s m hr
    split at h
    · rename_i v st he
      exact ⟨s, m, st, v, he, block_low published_handover ⟨_, [], published_init hr, .nil _⟩ (.inl rfl) he⟩
    · cases h
  · cases h

end X64k.L4.Mm
