import X64k.L4Mm.Exclusive
import Mathlib.Data.List.Perm.Lattice
import Mathlib.Data.List.Nodup

/-!
# Which pages a call takes

The pages that come first in their slot are the ones `allocPhysicalPages` can
ever deliver; `owners` lists them. While no call fails, the slots of the owners
are filled in the order of this list (`Cut`), so the calls deliver its elements
one after the other (`Served`).

The 32 lowest pages of the range are owners, the next one is not: its slot is
that of the first page. As long as the calls have asked for no more than 32 pages,
they get the lowest ones that nobody has; the one that goes beyond leaves out
0x4600000 (`lowest_iff`).
-/
namespace X64k.L4.Mm

open X64k.Core

/-! ## Owners -/

/-- Of the pages from 3 on that share its slot, `k` is the first. -/
abbrev Own (k : Nat) : Prop := 3 ≤ k ∧ (k < 35 ∨ k % 64 < 32)

/-- The owners from page `c` on. -/
def ownersFrom (c : Nat) : List Nat := (List.range' c (32768 - c)).filter (Own ·)

/-- The slots of the owners below `c` are filled, those of the others clear. -/
def Cut (t : Tracker) (c : Nat) : Prop := ∀ k < 32768, Own k → (Clear t (slot k) ↔ c ≤ k)

section
variable {t : Tracker} {c n k : Nat}

theorem slot_eq_iff {j : Nat} (hj : j < 32768) (hk : k < 32768) :
    slot j = slot k ↔ j / 64 = k / 64 ∧ j % 32 = k % 32 := by
  rw [slot, slot, Prod.mk.injEq, Fin.mk.injEq, Fin.mk.injEq]
  omega

theorem Own.slot_inj {j : Nat} (hj : Own j) (hj' : j < 32768) (hk : Own k) (hk' : k < 32768)
    (h : slot j = slot k) : j = k := by
  have := (slot_eq_iff hj' hk').mp h
  omega

/-- A page that is no owner shares its slot with the owner 32 pages below it. -/
theorem owner_below (h3 : 3 ≤ k) (hk : k < 32768) (h : ¬ Own k) :
    Own (k - 32) ∧ slot (k - 32) = slot k := by
  refine ⟨by omega, (slot_eq_iff (by omega) hk).mpr (by omega)⟩

theorem ownersFrom_cons (hc : c < 32768) (h : Own c) : ownersFrom c = c :: ownersFrom (c + 1) := by
  unfold ownersFrom
  rw [show 32768 - c = 32768 - (c + 1) + 1 by omega, List.range'_succ]
  exact List.filter_cons_of_pos (decide_eq_true h)

theorem ownersFrom_skip (hc : c < 32768) (h : ¬ Own c) : ownersFrom c = ownersFrom (c + 1) := by
  unfold ownersFrom
  rw [show 32768 - c = 32768 - (c + 1) + 1 by omega, List.range'_succ]
  exact List.filter_cons_of_neg fun hd => h (of_decide_eq_true hd)

theorem Cut.taken (h : Cut t c) (h3 : 3 ≤ k) (hk : k < 32768) (hlt : k < c ∨ ¬ Own k ∧ k ≤ c) :
    ¬ Clear t (slot k) := by
  by_cases ho : Own k
  · have hkc : ¬ c ≤ k := by
      rcases hlt with hlt | ⟨hn, -⟩
      · omega
      · exact absurd ho hn
    exact fun hcl => hkc ((h k hk ho).mp hcl)
  · obtain ⟨ho', hs⟩ := owner_below h3 hk ho
    rw [← hs]
    intro hcl
    have := (h (k - 32) (by omega) ho').mp hcl
    omega

theorem Cut.mark (h : Cut t c) (hc : c < 32768) (ho : Own c) :
    Cut (mark t (physPage c)) (c + 1) := by
  intro k hk hok
  rw [clear_mark hc, h k hk hok]
  constructor
  · rintro ⟨h1, h2⟩
    have hne : k ≠ c := fun he => h2 (by rw [he])
    omega
  · intro h1
    refine ⟨by omega, fun hs => ?_⟩
    have := hok.slot_inj hk ho hc hs
    omega

theorem Cut.skip (h : Cut t c) (ho : ¬ Own c) : Cut t (c + 1) := by
  intro k hk hok
  rw [h k hk hok]
  have hne : k ≠ c := fun he => ho (he ▸ hok)
  omega

/-- A scan takes the next owners, until it has enough or there are none. -/
theorem scanFrom_cut (count : Word) : ∀ (fuel n c : Nat) (pages : List Word) (t : Tracker),
    Cut t c → 3 ≤ n → n ≤ c → c ≤ 32768 → 32768 - n < fuel → pages.length ≤ count.toNat →
    ∃ new c', scanFrom count fuel (physPage n) pages t =
        .ok (pages ++ new.map physPage, markAll t new) ∧
      ownersFrom c = new ++ ownersFrom c' ∧ Cut (markAll t new) c' ∧ c ≤ c' ∧ c' ≤ 32768 ∧
      pages.length + new.length ≤ count.toNat ∧
      (pages.length + new.length = count.toNat ∨ ownersFrom c' = []) := by
  intro fuel
  induction fuel with
  | zero => intro n _ _ _ _ _ _ _ hf; exact absurd hf (Nat.not_lt_zero _)
  | succ fuel ih =>
    intro n c pages t hcut h3 hnc hc hf hlen
    unfold scanFrom
    by_cases hlt : n < 32768
    · rw [if_pos ((physPage_lt (by omega)).mpr hlt)]
      by_cases hfull : pages.length = count.toNat
      · rw [if_pos hfull]
        refine ⟨[], c, ?_, rfl, hcut, Nat.le_refl _, hc, ?_, .inl ?_⟩
        · rw [List.map_nil, List.append_nil]
          rfl
        · rw [List.length_nil]; omega
        · rw [List.length_nil]; omega
      rw [if_neg hfull, physPage_succ]
      by_cases htake : n = c ∧ Own n
      · -- the next owner
        obtain ⟨rfl, ho⟩ := htake
        have hcl : Clear t (slot n) := (hcut n hlt ho).mpr (Nat.le_refl _)
        have hlen' : (pages ++ [physPage n]).length = pages.length + 1 := by
          rw [List.length_append, List.length_singleton]
        rw [if_pos ((clear_page hlt).mpr hcl)]
        obtain ⟨new, c', he, ho', hcut', hle, hc', hnew, hend⟩ := ih (n + 1) (n + 1)
          (pages ++ [physPage n]) (mark t (physPage n)) (hcut.mark hlt ho) (by omega)
          (Nat.le_refl _) (by omega) (by omega) (by omega)
        rw [hlen'] at hnew hend
        refine ⟨n :: new, c', ?_, ?_, hcut', by omega, hc', ?_, hend.imp_left ?_⟩
        · rw [he, List.map_cons, List.append_assoc, List.singleton_append, markAll, markAll,
            List.foldl_cons]
        · rw [ownersFrom_cons hlt ho, ho', List.cons_append]
        · rw [List.length_cons]; omega
        · intro h
          rw [List.length_cons]; omega
      · -- a page that looks taken
        have hno : n < c ∨ ¬ Own n ∧ n ≤ c := by
          by_cases ho : Own n
          · exact .inl (Nat.lt_of_le_of_ne hnc fun he => htake ⟨he, ho⟩)
          · exact .inr ⟨ho, hnc⟩
        rw [if_neg ((clear_page hlt).not.mpr (hcut.taken h3 hlt hno))]
        rcases Nat.lt_or_ge n c with hlt' | hge
        · exact ih (n + 1) c pages t hcut (by omega) hlt' hc (by omega) hlen
        · obtain rfl : n = c := Nat.le_antisymm hnc hge
          have hno' : ¬ Own n := fun ho => htake ⟨rfl, ho⟩
          rw [ownersFrom_skip hlt hno']
          obtain ⟨new, c', he, ho', hcut', hle, h⟩ := ih (n + 1) (n + 1) pages t
            (hcut.skip hno') (by omega) (Nat.le_refl _) (by omega) (by omega) hlen
          exact ⟨new, c', he, ho', hcut', by omega, h⟩
    · rw [if_neg ((physPage_lt (by omega)).not.mpr hlt)]
      obtain rfl : c = 32768 := by omega
      refine ⟨[], 32768, ?_, rfl, hcut, Nat.le_refl _, hc, ?_, .inr rfl⟩
      · rw [List.map_nil, List.append_nil]
        rfl
      · rw [List.length_nil]; omega

end

/-! ## Pages nobody has -/

/-- The pages that successful calls have delivered. -/
def PhysState.handed (st : PhysState) : List Word := st.calls.flatten

/-- The pages of the range that no call has delivered, in ascending order. -/
def PhysState.left (st : PhysState) : List Word :=
  ((List.range' 3 32765).map physPage).filter (· ∉ st.handed)

/-- The call takes the lowest pages that nobody has, and fails only if there
are too few. -/
def Lowest (st : PhysState) (count : Word) : Prop :=
  ∃ r t, allocPhysicalPages st.tracker count = .ok (r, t) ∧
    (∀ pages, r = some pages → pages.length = count.toNat ∧ pages = st.left.take count.toNat) ∧
    (r = none → st.left.length < count.toNat)

/-- The call succeeds. -/
def Succeeds (st : PhysState) (count : Word) : Prop :=
  ∃ pages t, allocPhysicalPages st.tracker count = .ok (some pages, t)

/-- The calls so far were given the owners `done`, in order. -/
structure Served (st : PhysState) (done : List Nat) (c : Nat) : Prop where
  cut : Cut st.tracker c
  le : 3 ≤ c ∧ c ≤ 32768
  owners : ownersFrom 3 = done ++ ownersFrom c
  handed : ∀ k < 32768, physPage k ∈ st.handed ↔ k ∈ done
  length : st.handed.length = done.length

theorem served_init : Served ⟨init, []⟩ [] 3 where
  cut k _ hk := iff_of_true (clear_init _) hk.1
  le := by omega
  owners := rfl
  handed k _ := iff_of_false (List.not_mem_nil) (List.not_mem_nil)
  length := rfl

theorem mem_ownersFrom {c k : Nat} : k ∈ ownersFrom c ↔ c ≤ k ∧ k < c + (32768 - c) ∧ Own k := by
  rw [ownersFrom, List.mem_filter, List.mem_range'_1, decide_eq_true_iff, and_assoc]

theorem range_split : List.range' 3 32 ++ List.range' 35 (32768 - 35) = List.range' 3 (32768 - 3) :=
  List.range'_append_1

/-- The 32 lowest pages are owners, and the next owner is page 64. -/
theorem ownersFrom_three : ownersFrom 3 = List.range' 3 32 ++ ownersFrom 35 := by
  have h : (List.range' 3 32).filter (Own ·) = List.range' 3 32 := by decide
  unfold ownersFrom
  rw [← range_split, List.filter_append, h]

section
variable {st : PhysState} {done new : List Nat} {c c' : Nat} {count : Word}

theorem Served.lt (h : Served st done c) {k : Nat} (hk : k ∈ done) : 3 ≤ k ∧ k < 32768 ∧ Own k := by
  have hm : k ∈ ownersFrom 3 := by
    rw [h.owners]
    exact List.mem_append_left _ hk
  have := mem_ownersFrom.mp hm
  omega

theorem Served.nodup (h : Served st done c) : done.Nodup := by
  have hnd : (ownersFrom 3).Nodup := List.Nodup.filter _ List.nodup_range'
  rw [h.owners] at hnd
  exact hnd.of_append_left

theorem Served.call (h : Served st done c) (count : Word) :
    ∃ new c', ownersFrom c = new ++ ownersFrom c' ∧ new.length ≤ count.toNat ∧
      (new.length = count.toNat ∧
          allocPhysicalPages st.tracker count =
            .ok (some (new.map physPage), markAll st.tracker new) ∧
          Served ⟨markAll st.tracker new, new.map physPage :: st.calls⟩ (done ++ new) c' ∨
        new.length < count.toNat ∧ ownersFrom c' = [] ∧
          ∃ t, allocPhysicalPages st.tracker count = .ok (none, t)) := by
  obtain ⟨new, c', he, ho, hcut, hle, hc', hlen, hend⟩ := scanFrom_cut count scanBound 3 c []
    st.tracker h.cut (Nat.le_refl _) h.le.1 h.le.2 (by decide) (Nat.zero_le _)
  rw [List.length_nil, Nat.zero_add] at hlen hend
  refine ⟨new, c', ho, hlen, ?_⟩
  unfold allocPhysicalPages
  rw [show (0x600000 : Word) = physPage 3 from rfl, he, Res.ok_bind]
  dsimp only
  rw [List.nil_append, List.length_map]
  by_cases hfull : new.length = count.toNat
  · rw [if_neg (not_not_intro hfull)]
    refine .inl ⟨hfull, rfl, hcut, ⟨Nat.le_trans h.le.1 hle, hc'⟩, ?_, fun k hk => ?_, ?_⟩
    · rw [h.owners, ho, List.append_assoc]
    · have hnew : physPage k ∈ new.map physPage ↔ k ∈ new := by
        constructor
        · intro hm
          obtain ⟨j, hj, hjk⟩ := List.mem_map.mp hm
          have hj' : j ∈ ownersFrom c := by
            rw [ho]
            exact List.mem_append_left _ hj
          have hlt := mem_ownersFrom.mp hj'
          have := h.le
          rwa [physPage_inj (by omega) hk hjk] at hj
        · exact List.mem_map_of_mem
      have := h.handed k hk
      unfold PhysState.handed at this ⊢
      rw [List.flatten_cons, List.mem_append, List.mem_append, hnew, this, or_comm]
    · have := h.length
      unfold PhysState.handed at this ⊢
      rw [List.flatten_cons, List.length_append, List.length_append, List.length_map, this,
        Nat.add_comm]
  · rw [if_pos hfull]
    exact .inr ⟨Nat.lt_of_le_of_ne hlen hfull, hend.resolve_left hfull, _, rfl⟩

theorem Served.left_eq (h : Served st done c) :
    st.left = ((List.range' 3 32765).filter (· ∉ done)).map physPage := by
  unfold PhysState.left
  rw [List.filter_map]
  refine congrArg _ (List.filter_congr fun k hk => ?_)
  have hlt := List.mem_range'_1.mp hk
  exact decide_eq_decide.mpr (not_congr (h.handed k (by omega)))

theorem Served.left_length (h : Served st done c) : st.left.length + st.handed.length = 32765 := by
  have hperm : ((List.range' 3 32765).filter (· ∈ done)).Perm done := by
    refine (List.perm_ext_iff_of_nodup (List.Nodup.filter _ List.nodup_range') h.nodup).mpr fun k => ?_
    rw [List.mem_filter, List.mem_range'_1, decide_eq_true_iff]
    refine and_iff_right_of_imp fun hk => ?_
    have := h.lt hk
    omega
  have hsplit := List.length_eq_length_filter_add (l := List.range' 3 32765) (· ∈ done)
  rw [h.left_eq, List.length_map, h.length, ← hperm.length_eq]
  rw [List.length_range'] at hsplit
  simp only [decide_not]
  omega

/-- The first 32 owners are the lowest pages of the range. -/
theorem low_prefix {l l' : List Nat} (h : ownersFrom 3 = l ++ l') (hl : l.length ≤ 32) :
    l = List.range' 3 l.length := by
  rw [ownersFrom_three] at h
  rcases List.append_eq_append_iff.mp h with ⟨high, hl', -⟩ | ⟨more, h32, -⟩
  · have hlen := congrArg List.length hl'
    rw [List.length_append, List.length_range'] at hlen
    have h0 : high = [] := List.length_eq_zero_iff.mp (by omega)
    rw [hl', h0, List.append_nil, List.length_range']
  · obtain ⟨j, -, hj, -⟩ := List.range'_eq_append_iff.mp h32
    rw [hj, List.length_range']

/-- What comes next while no more than 32 pages have been handed out. -/
theorem Served.next (h : Served st done c) (count : Word) (hlen : done.length + count.toNat ≤ 32)
    {ks : List Nat} (hks : ks = List.range' (3 + done.length) count.toNat) :
    allocPhysicalPages st.tracker count = .ok (some (ks.map physPage), markAll st.tracker ks) ∧
      ∃ c', Served ⟨markAll st.tracker ks, ks.map physPage :: st.calls⟩ (done ++ ks) c' := by
  obtain ⟨new, c', ho, -, ⟨hnew, he, h'⟩ | ⟨hlt, hend, -⟩⟩ := h.call count
  · have hpre := low_prefix h'.owners (by rw [List.length_append]; omega)
    have hdone := low_prefix h.owners (by omega)
    rw [List.length_append, ← List.range'_append_1, ← hdone, hnew, ← hks] at hpre
    obtain rfl := List.append_cancel_left hpre
    exact ⟨he, c', h'⟩
  · -- the list of the owners is longer than this
    have hall := congrArg List.length (ownersFrom_three.symm.trans h.owners)
    rw [ho, hend, List.append_nil, List.length_append, List.length_append, List.length_range'] at hall
    omega

theorem clearSlots_low {n : Nat} (hn : n ≤ 32) :
    (clearSlots (markAll init (List.range' 3 n))).card + n = 16384 := by
  have hlt : (adr n).toNat = n := adr_toNat (by omega)
  have hroom : (adr n).toNat ≤ (clearSlots init).card := by
    rw [clearSlots_init]
    omega
  obtain ⟨ks, he, hT, hlen⟩ := alloc_fits hroom
  have hfew : ([] : List Nat).length + (adr n).toNat ≤ 32 := by
    rw [List.length_nil]
    omega
  have hnext := (served_init.next (adr n) hfew rfl).1
  rw [List.length_nil, Nat.add_zero, hlt] at hnext
  have hmark := (Prod.mk.inj (Except.ok.inj (he.symm.trans hnext))).2
  have hleft : (clearSlots (markAll init ks)).card + ks.length = (clearSlots init).card := hT.left
  rwa [hmark, hlen, hlt, clearSlots_init] at hleft

/-- The 32 lowest pages are handed out first, in ascending order. -/
theorem Served.low (h : Served st done c) {k : Nat} (hk : k < 35) :
    k ∈ done ↔ 3 ≤ k ∧ k < 3 + done.length := by
  rcases Nat.lt_or_ge done.length 32 with hlt | hge
  · have hdone := low_prefix h.owners (Nat.le_of_lt hlt)
    rw [hdone, List.mem_range'_1, List.length_range']
  · -- the first 32 of them are the whole low part
    have hsplit := List.take_append_drop 32 done
    have hlow : done.take 32 = List.range' 3 32 := by
      have hlen : (done.take 32).length = 32 := by rw [List.length_take, Nat.min_eq_left hge]
      have hpre : ownersFrom 3 = done.take 32 ++ (done.drop 32 ++ ownersFrom c) := by
        rw [← List.append_assoc, hsplit, h.owners]
      have := low_prefix hpre (Nat.le_of_eq hlen)
      rwa [hlen] at this
    constructor
    · intro hm
      have := h.lt hm
      omega
    · intro hk'
      rw [← hsplit, hlow]
      exact List.mem_append_left _ (List.mem_range'_1.mpr ⟨hk'.1, hk⟩)

/-- The lowest pages that nobody has: what the first 32 handed out leave, then
page 35. -/
theorem Served.left_split (h : Served st done c) :
    ∃ rest, st.left =
      (List.range' (3 + done.length) (32 - done.length) ++ 35 :: rest).map physPage := by
  have h35 : 35 ∉ done := fun hm => by
    have := h.lt hm
    omega
  have hsplit : List.range' 3 32 = List.range' 3 (min done.length 32) ++
      List.range' (3 + done.length) (32 - done.length) := by
    rcases Nat.le_total done.length 32 with hle | hge
    · rw [Nat.min_eq_left hle, List.range'_append_1, Nat.add_sub_cancel' hle]
    · rw [Nat.min_eq_right hge, Nat.sub_eq_zero_of_le hge, List.range'_zero, List.append_nil]
  refine ⟨(List.range' 36 32732).filter (· ∉ done), ?_⟩
  rw [h.left_eq, ← show List.range' 3 32 ++ 35 :: List.range' 36 32732 = List.range' 3 32765 from
    range_split, hsplit, List.append_assoc, List.filter_append, List.filter_append,
    List.filter_cons, if_pos (decide_eq_true h35)]
  have hgone : (List.range' 3 (min done.length 32)).filter (· ∉ done) = [] := by
    refine List.filter_eq_nil_iff.mpr fun k hk => ?_
    have hk' := List.mem_range'_1.mp hk
    rw [decide_eq_true_iff, not_not, h.low (by omega)]
    omega
  have hkept : (List.range' (3 + done.length) (32 - done.length)).filter (· ∉ done) =
      List.range' (3 + done.length) (32 - done.length) := by
    refine List.filter_eq_self.mpr fun k hk => ?_
    have hk' := List.mem_range'_1.mp hk
    rw [decide_eq_true_iff, h.low (by omega)]
    omega
  rw [hgone, hkept, List.nil_append]

/-- Page 35 is among the lowest that nobody has, but is no owner: the owners
that a call takes are the lowest pages only up to the 32nd. -/
theorem Served.not_beyond (h : Served st done c) (ho : ownersFrom c = new ++ ownersFrom c') {n : Nat}
    (hpages : new.map physPage = st.left.take n) : n ≤ 32 - done.length := by
  by_contra hcon
  obtain ⟨rest, hleft⟩ := h.left_split
  have hn : n - (32 - done.length) = n - (32 - done.length) - 1 + 1 := by omega
  have hm : physPage 35 ∈ new.map physPage := by
    rw [hpages, hleft, ← List.map_take, List.take_append, List.length_range', hn,
      List.take_succ_cons]
    exact List.mem_map_of_mem (List.mem_append_right _ List.mem_cons_self)
  obtain ⟨k, hk, hk35⟩ := List.mem_map.mp hm
  have hk' : k ∈ ownersFrom c := by
    rw [ho]
    exact List.mem_append_left _ hk
  have hlt := mem_ownersFrom.mp hk'
  have hc := h.le
  have := physPage_inj (by omega) (by decide) hk35
  omega

theorem Served.lowest_left (h : Served st done c) (h' : ownersFrom 3 = done ++ new ++ ownersFrom c')
    (h32 : done.length + new.length ≤ 32) : new.map physPage = st.left.take new.length := by
  obtain ⟨rest, hleft⟩ := h.left_split
  have hdone := low_prefix h.owners (by omega)
  have hboth := low_prefix h' (by rw [List.length_append]; omega)
  rw [List.length_append, ← List.range'_append_1, ← hdone] at hboth
  rw [hleft, ← List.map_take, List.take_append_of_le_length,
    List.take_range'_of_length_ge (by omega), ← List.append_cancel_left hboth]
  rw [List.length_range']; omega

/-- The call beyond the 32nd page passes over page 35. -/
theorem Served.lowest_count (h : Served st done c) (count : Word) :
    Lowest st count ↔ count.toNat = 0 ∨ done.length + count.toNat ≤ 32 ∨
      32765 < done.length + count.toNat := by
  obtain ⟨new, c', ho, hle, hcall⟩ := h.call count
  have hlen := h.left_length
  rw [h.length] at hlen
  constructor
  · rintro ⟨r, t, he, hsome, hnone⟩
    rcases hcall with ⟨-, he', -⟩ | ⟨-, -, t', he'⟩
    · rw [he'] at he
      cases he
      have := h.not_beyond ho (hsome _ rfl).2
      omega
    · rw [he'] at he
      cases he
      have := hnone rfl
      omega
  · intro hcond
    rcases hcall with ⟨hnew, he, hserved⟩ | ⟨hnew, hend, t, he⟩
    · refine ⟨_, _, he, fun pages hp => ?_, fun hr => by cases hr⟩
      obtain rfl : new.map physPage = pages := Option.some.inj hp
      refine ⟨by rw [List.length_map, hnew], ?_⟩
      have hall := hserved.left_length
      rw [hserved.length, List.length_append] at hall
      by_cases h0 : count.toNat = 0
      · rw [h0] at hnew ⊢
        rw [List.length_eq_zero_iff.mp hnew]
        rfl
      · rw [← hnew]
        exact h.lowest_left hserved.owners (by omega)
    · refine ⟨none, t, he, fun pages hp => (by cases hp), fun _ => ?_⟩
      have hall := congrArg List.length (h.owners.symm.trans ownersFrom_three)
      rw [ho, hend, List.append_nil, List.length_append, List.length_append,
        List.length_range'] at hall
      omega

end

/-! ## Runs -/

theorem served_reachable (st : PhysState) (h : (physLts.guard Succeeds).Reachable st) :
    ∃ done c, Served st done c := by
  refine LTS.Inductive.reachable (I := fun st => ∃ done c, Served st done c) ⟨?_, ?_⟩ st h
  · rintro st rfl
    exact ⟨[], 3, served_init⟩
  · rintro st count st' ⟨done, c, hS⟩ ⟨⟨r, t, he, rfl⟩, pages, t', hs⟩
    obtain ⟨new, c', -, -, ⟨-, he', hS'⟩ | ⟨-, -, t'', he'⟩⟩ := hS.call count
    · rw [he'] at he
      cases he
      exact ⟨_, _, hS'⟩
    · rw [hs] at he'
      cases he'

/-- **The lowest free pages.** After any sequence of successful calls a call
gets the lowest pages that nobody has exactly when it asks for none, when all
calls together have asked for no more than 32, or when there are too few. -/
theorem lowest_iff (st : PhysState) (h : (physLts.guard Succeeds).Reachable st) (count : Word) :
    Lowest st count ↔ count = 0 ∨ st.handed.length + count.toNat ≤ 32 ∨
      32765 < st.handed.length + count.toNat := by
  obtain ⟨done, c, hS⟩ := served_reachable st h
  rw [hS.lowest_count, hS.length, show count = 0 ↔ count.toNat = 0 from BitVec.toNat_eq]

theorem lowest_second : ∃ st, (physLts.guard Succeeds).Reachable st ∧ Lowest st 31 := by
  have h1 := alloc_first (clear_init (slot 3))
  have hst : (physLts.guard Succeeds).Reachable ⟨mark init (physPage 3), [[physPage 3]]⟩ :=
    ⟨⟨init, []⟩, [1], rfl, .cons ⟨⟨_, _, h1, rfl⟩, _, _, h1⟩ (.nil _)⟩
  exact ⟨_, hst, (lowest_iff _ hst 31).mpr (.inr (.inl (by decide)))⟩

/-- **The first call asks for 33 pages.** The page after the 32 lowest is passed over. -/
theorem passed_over : ¬ ∀ st, (physLts.guard Succeeds).Reachable st → ∀ count, Lowest st count := by
  intro hall
  have h := hall _ ⟨⟨init, []⟩, [], rfl, .nil _⟩ 33
  rw [served_init.lowest_count] at h
  revert h
  decide

end X64k.L4.Mm
