import X64k.Core.Bits
import X64k.Core.Mem
import X64k.Core.Res
import Mathlib.Data.Fintype.Prod
import Mathlib.Data.Finset.Card

/-!
# Physical pages (`src/kernel/mem/mm.cpp:18-95`)

A bitmap over the 2 MiB pages of physical memory. `allocPhysicalPages` scans
the addresses from 0x600000 on and takes every page whose bit is clear until it
has enough; when it does not get enough it gives back what it took.

The three places where a bit is computed are kept apart, as in the source:
`trackBit` for the test and the set is `1 << n`, an `int`, so the count is
taken modulo 32 and the result sign-extended; `revertBit` is `n` itself.

* `scanFrom_spec`: what a scan takes. A word of the bitmap has 32 slots, one
  for each value of `trackBit`; a scan takes as many pages as it is asked for,
  or one for every clear slot.
* `alloc_fits`, `alloc_short`: the two outcomes of a call.
-/
namespace X64k.L4.Mm

open X64k.Core

/-! ## Model -/

/-- mirrors src/kernel/mem/mm.cpp:24 -/
def PHYS_SIZE : Word := 0x1000000000

/-- `m_physicalTrackingStructure` -/
abbrev Tracker := Word → Word

/-- mirrors src/kernel/mem/mm.cpp:63 -/
def trackIndex (addr : Word) : Word := addr >>> 27

/-- mirrors src/kernel/mem/mm.cpp:64 -/
def trackBit (addr : Word) : Word :=
  ((1 : BitVec 32) <<< (((addr >>> 21) &&& 0x3F).toNat % 32)).signExtend 64

/-- mirrors src/kernel/mem/mm.cpp:80 -/
def revertBit (addr : Word) : Word := (addr >>> 21) &&& 0x3F

def Tracker.set (t : Tracker) (idx v : Word) : Tracker := fun i => if i = idx then v else t i

/-- mirrors src/kernel/mem/mm.cpp:68 -/
def mark (t : Tracker) (addr : Word) : Tracker :=
  t.set (trackIndex addr) (t (trackIndex addr) ||| trackBit addr)

/-- mirrors src/kernel/mem/mm.cpp:79-83 -/
def revert (t : Tracker) (addr : Word) : Tracker :=
  t.set (trackIndex addr) (t (trackIndex addr) &&& ~~~revertBit addr)

/-- The loop from `addr` on; `pages` holds what has been taken.
mirrors src/kernel/mem/mm.cpp:58-73 -/
def scanFrom (count : Word) : Nat → Word → List Word → Tracker → Res (List Word × Tracker)
  | 0, _, _, _ => .error .loop
  | fuel + 1, addr, pages, t =>
    if addr < PHYS_SIZE then
      if pages.length = count.toNat then .ok (pages, t)
      else if t (trackIndex addr) &&& trackBit addr = 0 then
        scanFrom count fuel (addr + 0x200000) (pages ++ [addr]) (mark t addr)
      else scanFrom count fuel (addr + 0x200000) pages t
    else .ok (pages, t)

/-- More iterations than there are addresses. -/
def scanBound : Nat := 2 ^ 15

/-- `none` is the source's `result(1)`; the flags are not read.
mirrors src/kernel/mem/mm.cpp:53-89 -/
def allocPhysicalPages (t : Tracker) (count : Word) : Res (Option (List Word) × Tracker) := do
  let (pages, t) ← scanFrom count scanBound 0x600000 [] t
  if pages.length ≠ count.toNat then .ok (none, pages.foldl revert t) else .ok (some pages, t)

/-- mirrors src/kernel/mem/mm.cpp:93-95 -/
def init : Tracker := fun _ => 0

/-! ## Slots -/

/-- The bit pattern of slot `j` of a word. -/
def slotBit (j : Nat) : Word := ((1 : BitVec 32) <<< j).signExtend 64

/-- Page `n` of physical memory. -/
def physPage (n : Nat) : Word := adr (0x200000 * n)

/-- The slot of page `n`: the word and the pattern. Pages 32 apart in a word
share it. -/
def slot (n : Nat) : Fin 512 × Fin 32 :=
  (⟨n / 64 % 512, Nat.mod_lt _ (by decide)⟩, ⟨n % 32, Nat.mod_lt _ (by decide)⟩)

/-- No bit of the slot is set. -/
def Clear (t : Tracker) (x : Fin 512 × Fin 32) : Prop := t (adr x.1) &&& slotBit x.2 = 0

instance (t : Tracker) : DecidablePred (Clear t) := fun x =>
  inferInstanceAs (Decidable (t (adr x.1) &&& slotBit x.2 = 0))

@[irreducible] def clearSlots (t : Tracker) : Finset (Fin 512 × Fin 32) := Finset.univ.filter (Clear t)

section
variable {t : Tracker} {n : Nat}

theorem mem_clearSlots {x : Fin 512 × Fin 32} : x ∈ clearSlots t ↔ Clear t x := by
  unfold clearSlots
  exact Finset.mem_filter_univ x

theorem clearSlots_card_le (t : Tracker) : (clearSlots t).card ≤ 16384 := by
  have h : (clearSlots t).card ≤ Fintype.card (Fin 512 × Fin 32) := Finset.card_le_univ _
  rwa [Fintype.card_prod, Fintype.card_fin, Fintype.card_fin] at h

theorem physPage_toNat (hn : n < 32768) : (physPage n).toNat = 0x200000 * n :=
  adr_toNat (by omega)

theorem physPage_succ (n : Nat) : physPage n + 0x200000 = physPage (n + 1) := by
  rw [physPage, show (0x200000 : Word) = adr 0x200000 from rfl, adr_add]
  exact congrArg adr (by omega)

theorem physPage_lt (hn : n ≤ 32768) : physPage n < PHYS_SIZE ↔ n < 32768 := by
  rw [physPage, show PHYS_SIZE = adr 0x1000000000 from rfl, adr_lt_iff (by omega) (by decide)]
  omega

theorem physPage_inj {k : Nat} (hn : n < 32768) (hk : k < 32768) (h : physPage n = physPage k) :
    n = k := by
  have := congrArg BitVec.toNat h
  rw [physPage_toNat hn, physPage_toNat hk] at this
  omega

theorem trackIndex_page (hn : n < 32768) : trackIndex (physPage n) = adr (slot n).1 := by
  apply BitVec.eq_of_toNat_eq
  rw [trackIndex, BitVec.toNat_ushiftRight, physPage_toNat hn, Nat.shiftRight_eq_div_pow, slot,
    adr_toNat (by omega)]
  show _ = n / 64 % 512
  omega

theorem revertBit_page (hn : n < 32768) : revertBit (physPage n) = adr (n % 64) := by
  have h : (0x3F : Word).toNat = 2 ^ 6 - 1 := rfl
  apply BitVec.eq_of_toNat_eq
  rw [revertBit, Bits.toNat_field h, physPage_toNat hn, adr_toNat (by omega)]
  omega

theorem trackBit_page (hn : n < 32768) : trackBit (physPage n) = slotBit (slot n).2 := by
  have h : ((physPage n >>> 21) &&& 0x3F).toNat % 32 = n % 32 := by
    have h1 : ((physPage n >>> 21) &&& 0x3F).toNat = (adr (n % 64)).toNat :=
      congrArg BitVec.toNat (revertBit_page hn)
    rw [h1, adr_toNat (by omega)]
    omega
  rw [trackBit, h]
  rfl

/-- The test of the source asks whether the slot is clear. -/
theorem clear_page (hn : n < 32768) :
    t (trackIndex (physPage n)) &&& trackBit (physPage n) = 0 ↔ Clear t (slot n) := by
  rw [trackIndex_page hn, trackBit_page hn]
  rfl

theorem slotBit_apart : ∀ j k : Fin 32, j ≠ k → slotBit j &&& slotBit k = 0 := by
  decide +kernel

theorem slotBit_ne_zero : ∀ j : Fin 32, slotBit j ≠ 0 := by decide +kernel

/-- Marking a page fills its slot and no other. -/
theorem clear_mark (hn : n < 32768) (x : Fin 512 × Fin 32) :
    Clear (mark t (physPage n)) x ↔ Clear t x ∧ x ≠ slot n := by
  obtain ⟨q, j⟩ := x
  unfold mark
  rw [trackIndex_page hn, trackBit_page hn]
  unfold Clear Tracker.set
  dsimp only
  by_cases hq : q = (slot n).1
  · subst hq
    rw [if_pos rfl, BitVec.and_or_distrib_right, show (0 : Word) = 0#64 from rfl,
      BitVec.or_eq_zero_iff]
    by_cases hj : j = (slot n).2
    · subst hj
      rw [BitVec.and_self]
      exact iff_of_false (fun h => slotBit_ne_zero _ h.2) fun h => h.2 rfl
    · rw [slotBit_apart _ _ (Ne.symm hj)]
      exact and_congr_right fun _ => iff_of_true rfl fun h => hj (congrArg Prod.snd h)
  · have hne : adr q ≠ adr (slot n).1 := by
      rw [ne_eq, adr_inj (by omega) (by omega)]
      exact fun h => hq (Fin.ext h)
    rw [if_neg hne]
    exact (and_iff_left fun h => hq (congrArg Prod.fst h)).symm

theorem clearSlots_mark (hn : n < 32768) :
    clearSlots (mark t (physPage n)) = (clearSlots t).erase (slot n) := by
  apply Finset.ext
  intro x
  rw [Finset.mem_erase, mem_clearSlots, mem_clearSlots, clear_mark hn, and_comm]

/-- Every slot belongs to a page the scan visits. -/
theorem slot_surj (x : Fin 512 × Fin 32) : ∃ n, 3 ≤ n ∧ n < 32768 ∧ slot n = x := by
  obtain ⟨⟨q, hq⟩, ⟨j, hj⟩⟩ := x
  refine ⟨64 * q + j + 32 * ((3 - (64 * q + j) + 31) / 32), ?_, ?_, ?_⟩
  · omega
  · omega
  · rw [slot, Prod.mk.injEq, Fin.mk.injEq, Fin.mk.injEq]
    omega

end

/-! ## A scan -/

/-- What a scan from page `n` on takes when it is to end with `count` pages and
has `have_` of them: `new`, in a bitmap `t`. -/
structure Taken (count : Word) (n have_ : Nat) (t : Tracker) (new : List Nat) : Prop where
  range : ∀ k ∈ new, n ≤ k ∧ k < 32768
  clear : ∀ k ∈ new, Clear t (slot k)
  le : have_ + new.length ≤ count.toNat
  left : (clearSlots (new.foldl (fun t k => mark t (physPage k)) t)).card + new.length =
    (clearSlots t).card
  all : have_ + new.length = count.toNat ∨
    ∀ k, n ≤ k → k < 32768 → Clear t (slot k) → ∃ k' ∈ new, slot k' = slot k

/-- Of the pages that share a slot, `new` has the first one from `n` on. -/
def First (n : Nat) (new : List Nat) : Prop := ∀ k ∈ new, ∀ k', n ≤ k' → k' < k → slot k' ≠ slot k

theorem scanFrom_spec (count : Word) : ∀ (fuel n : Nat) (pages : List Word) (t : Tracker),
    n ≤ 32768 → 32768 - n < fuel → pages.length ≤ count.toNat →
    ∃ new, scanFrom count fuel (physPage n) pages t =
      .ok (pages ++ new.map physPage, new.foldl (fun t k => mark t (physPage k)) t) ∧
      Taken count n pages.length t new ∧ First n new := by
  intro fuel
  induction fuel with
  | zero => intro n _ _ _ hf; exact absurd hf (Nat.not_lt_zero _)
  | succ fuel ih =>
    intro n pages t hn hf hlen
    unfold scanFrom
    by_cases hlt : n < 32768
    · rw [if_pos ((physPage_lt hn).mpr hlt)]
      by_cases hc : pages.length = count.toNat
      · rw [if_pos hc]
        refine ⟨[], by rw [List.map_nil, List.append_nil]; rfl, ⟨nofun, nofun, ?_, Nat.add_zero _,
          .inl ?_⟩, nofun⟩
        · rw [List.length_nil]; omega
        · rw [List.length_nil]; omega
      · rw [if_neg hc, physPage_succ]
        by_cases hcl : Clear t (slot n)
        · -- the page is taken
          rw [if_pos ((clear_page hlt).mpr hcl)]
          obtain ⟨new, he, hT, hF⟩ := ih (n + 1) (pages ++ [physPage n]) (mark t (physPage n)) hlt
            (by omega) (by rw [List.length_append, List.length_singleton]; omega)
          have hlen' : (pages ++ [physPage n]).length = pages.length + 1 := by
            rw [List.length_append, List.length_singleton]
          rw [hlen'] at hT
          refine ⟨n :: new, ?_, ⟨?_, ?_, ?_, ?_, ?_⟩, ?_⟩
          · rw [he, List.map_cons, List.append_assoc, List.singleton_append, List.foldl_cons]
          · intro k hk
            rcases List.mem_cons.mp hk with rfl | hk
            · exact ⟨Nat.le_refl _, hlt⟩
            · have := hT.range k hk
              omega
          · intro k hk
            rcases List.mem_cons.mp hk with rfl | hk
            · exact hcl
            · exact ((clear_mark hlt _).mp (hT.clear k hk)).1
          · have := hT.le
            rw [List.length_cons]; omega
          · have h1 := hT.left
            have hm : slot n ∈ clearSlots t := mem_clearSlots.mpr hcl
            have h2 := Finset.card_erase_add_one hm
            rw [clearSlots_mark hlt] at h1
            rw [List.foldl_cons, List.length_cons]
            omega
          · refine hT.all.imp (fun h => by rw [List.length_cons]; omega) fun h k hk hk' hkc => ?_
            by_cases hs : slot k = slot n
            · exact ⟨n, List.mem_cons_self, hs.symm⟩
            · have hkn : k ≠ n := fun he => hs (by rw [he])
              obtain ⟨k', hm, he'⟩ := h k (by omega) hk' ((clear_mark hlt _).mpr ⟨hkc, hs⟩)
              exact ⟨k', List.mem_cons_of_mem _ hm, he'⟩
          · intro k hk k' hk' hlt'
            rcases List.mem_cons.mp hk with rfl | hk
            · omega
            · by_cases hkn : k' = n
              · rw [hkn]
                exact ((clear_mark hlt _).mp (hT.clear k hk)).2.symm
              · exact hF k hk k' (by omega) hlt'
        · rw [if_neg ((clear_page hlt).not.mpr hcl)]
          obtain ⟨new, he, hT, hF⟩ := ih (n + 1) pages t hlt (by omega) hlen
          refine ⟨new, he, ⟨fun k hk => ?_, hT.clear, hT.le, hT.left, hT.all.imp_right ?_⟩, ?_⟩
          · have := hT.range k hk
            omega
          · intro h k hk hk' hkc
            have hkn : k ≠ n := fun he => hcl (he ▸ hkc)
            exact h k (by omega) hk' hkc
          · intro k hk k' hk' hlt'
            by_cases hkn : k' = n
            · rw [hkn]
              exact fun hs => hcl (hs ▸ hT.clear k hk)
            · exact hF k hk k' (by omega) hlt'
    · rw [if_neg ((physPage_lt hn).not.mpr hlt)]
      refine ⟨[], by rw [List.map_nil, List.append_nil]; rfl, ⟨nofun, nofun, ?_, Nat.add_zero _,
        .inr ?_⟩, nofun⟩
      · rw [List.length_nil]; omega
      · intro k hk hk'; omega

/-! ## Two outcomes -/

section
variable {t : Tracker} {count : Word}

/-- The bitmap with the pages `ks` marked. -/
abbrev markAll (t : Tracker) (ks : List Nat) : Tracker :=
  ks.foldl (fun t k => mark t (physPage k)) t

theorem clear_markAll {ks : List Nat} (hks : ∀ k ∈ ks, k < 32768) (x : Fin 512 × Fin 32) :
    Clear (markAll t ks) x ↔ Clear t x ∧ ∀ k ∈ ks, x ≠ slot k := by
  induction ks generalizing t with
  | nil => exact ⟨fun h => ⟨h, nofun⟩, fun h => h.1⟩
  | cons k ks ih =>
    have hk := hks k List.mem_cons_self
    rw [markAll, List.foldl_cons, ih fun k' hk' => hks k' (List.mem_cons_of_mem k hk'),
      clear_mark hk, List.forall_mem_cons, and_assoc]

/-- Once the whole range has been scanned, one page has been taken for every
slot that was clear. -/
theorem Taken.exhausted {new : List Nat} (h : Taken count 3 0 t new)
    (hne : new.length ≠ count.toNat) :
    new.length = (clearSlots t).card ∧
      ∀ x, Clear t x → ∃ k ∈ new, slot k = x := by
  have hall : ∀ x, Clear t x → ∃ k ∈ new, slot k = x := by
    intro x hx
    obtain ⟨n, hn, hn', rfl⟩ := slot_surj x
    rcases h.all with he | ha
    · exact absurd (by omega) hne
    · exact ha n hn hn' hx
  refine ⟨?_, hall⟩
  have hnone : clearSlots (markAll t new) = ∅ := by
    refine Finset.eq_empty_of_forall_notMem fun x hx => ?_
    obtain ⟨h1, h2⟩ := (clear_markAll (fun k hk => (h.range k hk).2) x).mp (mem_clearSlots.mp hx)
    obtain ⟨k, hk, rfl⟩ := hall x h1
    exact h2 k hk rfl
  have := h.left
  rw [hnone, Finset.card_empty] at this
  omega

/-- No more pages than clear slots: the call delivers pages that were clear. -/
theorem alloc_fits (h : count.toNat ≤ (clearSlots t).card) :
    ∃ ks, allocPhysicalPages t count = .ok (some (ks.map physPage), markAll t ks) ∧
      Taken count 3 0 t ks ∧ ks.length = count.toNat := by
  obtain ⟨ks, he, hT, -⟩ := scanFrom_spec count scanBound 3 [] t (by decide) (by decide)
    (Nat.zero_le _)
  have hlen : ks.length = count.toNat := by
    by_contra hne
    have h1 := (hT.exhausted hne).1
    have h2 := hT.le
    rw [List.length_nil] at h2
    omega
  refine ⟨ks, ?_, hT, hlen⟩
  unfold allocPhysicalPages
  rw [show (0x600000 : Word) = physPage 3 from rfl, he, Res.ok_bind]
  dsimp only
  rw [List.nil_append, if_neg (not_not_intro (by rw [List.length_map, hlen]))]

/-- More pages than clear slots: a page of every clear slot is given back. -/
theorem alloc_short (h : (clearSlots t).card < count.toNat) :
    ∃ ks, allocPhysicalPages t count =
      .ok (none, (ks.map physPage).foldl revert (markAll t ks)) ∧
      Taken count 3 0 t ks ∧ First 3 ks ∧ ks.length = (clearSlots t).card ∧
      ∀ x, Clear t x → ∃ k ∈ ks, slot k = x := by
  obtain ⟨ks, he, hT, hF⟩ := scanFrom_spec count scanBound 3 [] t (by decide) (by decide)
    (Nat.zero_le _)
  have hne : ks.length ≠ count.toNat := by
    have h1 := hT.left
    omega
  obtain ⟨h1, h2⟩ := hT.exhausted hne
  refine ⟨ks, ?_, hT, hF, h1, h2⟩
  unfold allocPhysicalPages
  rw [show (0x600000 : Word) = physPage 3 from rfl, he, Res.ok_bind]
  dsimp only
  rw [List.nil_append, if_pos (by rw [List.length_map]; exact hne)]

end

end X64k.L4.Mm
