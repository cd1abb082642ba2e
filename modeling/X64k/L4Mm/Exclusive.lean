import X64k.Core.Bits
import X64k.Core.LTS
import X64k.L4Mm.Phys

/-!
# Who owns a physical page

Nothing gives a page back once a successful call has delivered it. While every
call finds as many clear slots as it asks for, or none at all, no page is
delivered twice (`exclusive`).

A call that takes some pages and then fails reverts them with the wrong bits:
`revertBit` is the number of the bit, not the bit. Page 8 of a word so clears
bit 3, which belongs to page 3, whoever owns that (`reissue_run`).
-/
namespace X64k.L4.Mm

open X64k.Core

/-! ## Runs of calls -/

/-- The bitmap, and the pages of every successful call, the last one first. -/
structure PhysState where
  tracker : Tracker
  calls : List (List Word)

/-- Runs of `allocPhysicalPages` from `mm::init`; the label is `count`. -/
def physLts : LTS PhysState Word where
  init st := st = ⟨init, []⟩
  step st count st' := ∃ r t, allocPhysicalPages st.tracker count = .ok (r, t) ∧
    st' = ⟨t, r.toList ++ st.calls⟩

/-- The call finds enough clear slots, or none. -/
def Fits (st : PhysState) (count : Word) : Prop :=
  count.toNat ≤ (clearSlots st.tracker).card ∨ clearSlots st.tracker = ∅

/-- No page was delivered by two calls. -/
def Exclusive (st : PhysState) : Prop := st.calls.Pairwise List.Disjoint

/-- The bits of every delivered page are set. -/
structure Owned (st : PhysState) : Prop where
  held : ∀ pages ∈ st.calls, ∀ a ∈ pages, ∃ k < 32768, a = physPage k ∧ ¬ Clear st.tracker (slot k)
  exclusive : Exclusive st

/-! ## What one call does -/

section
variable {st : PhysState} {count : Word} {ks : List Nat}

/-- Pages taken from clear slots are nobody's. -/
theorem Owned.deliver (h : Owned st) (hT : Taken count 3 0 st.tracker ks) :
    Owned ⟨markAll st.tracker ks, ks.map physPage :: st.calls⟩ := by
  have hlt : ∀ k ∈ ks, k < 32768 := fun k hk => (hT.range k hk).2
  refine ⟨?_, List.pairwise_cons.mpr ⟨?_, h.exclusive⟩⟩
  · intro pages hp a ha
    rcases List.mem_cons.mp hp with rfl | hp
    · obtain ⟨k, hk, rfl⟩ := List.mem_map.mp ha
      refine ⟨k, hlt k hk, rfl, fun hc => ?_⟩
      exact ((clear_markAll hlt _).mp hc).2 k hk rfl
    · obtain ⟨k, hk, rfl, hc⟩ := h.held pages hp a ha
      exact ⟨k, hk, rfl, fun hc' => hc ((clear_markAll hlt _).mp hc').1⟩
  · intro pages hp a ha ha'
    obtain ⟨k, hk, rfl⟩ := List.mem_map.mp ha
    obtain ⟨k', hk', he, hc⟩ := h.held pages hp _ ha'
    obtain rfl := physPage_inj (hlt k hk) hk' he
    exact hc (hT.clear k hk)

theorem Owned.step (h : Owned st) (hf : Fits st count) {r : Option (List Word)} {t : Tracker}
    (he : allocPhysicalPages st.tracker count = .ok (r, t)) : Owned ⟨t, r.toList ++ st.calls⟩ := by
  rcases Nat.lt_or_ge (clearSlots st.tracker).card count.toNat with hlt | hge
  · -- nothing was clear: nothing is taken, nothing reverted
    obtain ⟨ks, he', -, -, hlen, -⟩ := alloc_short hlt
    have h0 : ks = [] := by
      rcases hf with hf | hf
      · omega
      · rw [hf, Finset.card_empty] at hlen
        exact List.length_eq_zero_iff.mp hlen
    subst h0
    rw [he'] at he
    cases he
    exact h
  · obtain ⟨ks, he', hT, -⟩ := alloc_fits hge
    rw [he'] at he
    cases he
    exact h.deliver hT

end

/-! ## Main result -/

/-- **Physical pages are exclusive** in every run all of whose calls find
enough clear slots, or none. -/
theorem exclusive (st : PhysState) (h : (physLts.guard Fits).Reachable st) : Exclusive st := by
  refine (LTS.Inductive.reachable (I := Owned) ⟨?_, ?_⟩ st h).exclusive
  · rintro st rfl
    exact ⟨nofun, .nil⟩
  · rintro st count st' hO ⟨⟨r, t, he, rfl⟩, hf⟩
    exact hO.step hf he

theorem clear_init (x : Fin 512 × Fin 32) : Clear init x := BitVec.zero_and

theorem clearSlots_init : (clearSlots init).card = 16384 := by
  have h : clearSlots init = Finset.univ :=
    Finset.eq_univ_of_forall fun x => mem_clearSlots.mpr (clear_init x)
  rw [h, Finset.card_univ, Fintype.card_prod, Fintype.card_fin, Fintype.card_fin]

/-- The first page scanned is delivered when its bit is clear. -/
theorem alloc_first {t : Tracker} (h : Clear t (slot 3)) :
    allocPhysicalPages t 1 = .ok (some [physPage 3], mark t (physPage 3)) := by
  have hc := (clear_page (by decide : 3 < 32768)).mpr h
  unfold allocPhysicalPages
  rw [show (0x600000 : Word) = physPage 3 from rfl, show scanBound = 32766 + 1 + 1 from rfl,
    scanFrom, if_pos (by decide), if_neg (by decide), if_pos hc, scanFrom, if_pos (by decide),
    if_pos (by decide)]
  rfl

theorem exclusive_twice : ∃ st, (physLts.guard Fits).Reachable st ∧ st.calls.length = 2 ∧
    Exclusive st := by
  have h1 := alloc_first (clear_init (slot 3))
  have hm : slot 3 ∈ clearSlots init := mem_clearSlots.mpr (clear_init _)
  have hcard : (1 : Word).toNat ≤ (clearSlots (mark init (physPage 3))).card := by
    have h2 := Finset.card_erase_add_one hm
    rw [clearSlots_init] at h2
    rw [clearSlots_mark (by decide : 3 < 32768)]
    show 1 ≤ _
    omega
  obtain ⟨ks, h2, -⟩ := alloc_fits hcard
  have hf : Fits ⟨init, []⟩ 1 := .inl (by rw [clearSlots_init]; decide)
  have hst : (physLts.guard Fits).Reachable
      ⟨markAll (mark init (physPage 3)) ks, [ks.map physPage, [physPage 3]]⟩ :=
    ⟨⟨init, []⟩, [1, 1], rfl, .cons ⟨⟨_, _, h1, rfl⟩, hf⟩
      (.cons ⟨⟨_, _, h2, rfl⟩, .inl hcard⟩ (.nil _))⟩
  exact ⟨_, hst, rfl, exclusive _ hst⟩

/-! ## A call that fails -/

theorem revertAll_bit {pages : List Word} {t : Tracker} {i : Word} {j : Nat}
    (h : (t i).getLsbD j = false) : ((pages.foldl revert t) i).getLsbD j = false := by
  induction pages generalizing t with
  | nil => exact h
  | cons a pages ih =>
    refine ih ?_
    unfold revert Tracker.set
    split
    · rename_i he
      rw [← he, BitVec.getLsbD_and, h, Bool.false_and]
    · exact h

theorem revert_bit {pages : List Word} {t : Tracker} {a : Word} (ha : a ∈ pages) {j : Nat}
    (hj : (revertBit a).getLsbD j = true) :
    ((pages.foldl revert t) (trackIndex a)).getLsbD j = false := by
  induction pages generalizing t with
  | nil => cases ha
  | cons b pages ih =>
    rcases List.mem_cons.mp ha with rfl | ha
    · refine revertAll_bit (t := revert t a) ?_
      unfold revert Tracker.set
      rw [if_pos rfl, BitVec.getLsbD_and, BitVec.getLsbD_not, hj, Bool.not_true, Bool.and_false,
        Bool.and_false]
    · exact ih ha

/-- A failing call clears the bit of page 3 when the slot of page 8 was clear,
whether or not page 3 has an owner. -/
theorem alloc_short_frees {t : Tracker} {count : Word} (h : (clearSlots t).card < count.toNat)
    (h8 : Clear t (slot 8)) :
    ∃ t', allocPhysicalPages t count = .ok (none, t') ∧ Clear t' (slot 3) := by
  obtain ⟨ks, he, hT, -, -, hall⟩ := alloc_short h
  refine ⟨_, he, ?_⟩
  obtain ⟨k, hk, hs⟩ := hall _ h8
  have hlt := (hT.range k hk).2
  -- page 8 or page 40: both have bit 3 in `revertBit`
  have hk840 : k = 8 ∨ k = 40 := by
    rw [slot, slot, Prod.mk.injEq, Fin.mk.injEq, Fin.mk.injEq] at hs
    omega
  have hbit : (revertBit (physPage k)).getLsbD 3 = true := by
    rcases hk840 with rfl | rfl <;> decide
  have hidx : trackIndex (physPage k) = adr (slot 3).1 := by
    rcases hk840 with rfl | rfl <;> decide
  have h3 := revert_bit (List.mem_map_of_mem hk) hbit (t := markAll t ks)
  rw [hidx] at h3
  have hp : slotBit (slot 3).2 = (1#64) <<< 3 := by decide
  unfold Clear
  rw [hp]
  exact (Bits.and_bit_eq_zero (by decide)).mpr h3

/-- **Three calls.** The first takes page 0x600000, the second asks for more
than there is, the third takes 0x600000 again. -/
theorem reissue_run : ¬ ∀ st, physLts.Reachable st → Exclusive st := by
  intro hall
  -- the first call
  have h1 := alloc_first (clear_init (slot 3))
  have h8 : Clear (mark init (physPage 3)) (slot 8) :=
    (clear_mark (by decide) _).mpr ⟨clear_init _, by decide⟩
  -- the second call
  have hcard : (clearSlots (mark init (physPage 3))).card < (0xFFFFFFFF : Word).toNat := by
    refine Nat.lt_of_le_of_lt (clearSlots_card_le _) ?_
    decide
  obtain ⟨t, h2, h3⟩ := alloc_short_frees hcard h8
  -- the third call
  have hrun : physLts.Reachable ⟨mark t (physPage 3), [[physPage 3], [physPage 3]]⟩ :=
    ⟨⟨init, []⟩, [1, 0xFFFFFFFF, 1], rfl,
      .cons ⟨_, _, h1, rfl⟩ (.cons ⟨_, _, h2, rfl⟩ (.cons ⟨_, _, alloc_first h3, rfl⟩ (.nil _)))⟩
  have := List.rel_of_pairwise_cons (hall _ hrun) (List.mem_singleton.mpr rfl)
  exact this (List.mem_singleton.mpr rfl) (List.mem_singleton.mpr rfl)

end X64k.L4.Mm
