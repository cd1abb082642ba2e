import X64k.L3Handover.LoaderTables

/-!
# Tables written by the loader, read by the kernel

* `map_shows`: the loader's `map` changes the translation of one 2 MiB page
  and leaves a forest of tracked pages; it fails only when at most one page is
  left.
* `get_last_map`: after any run of `map` calls the kernel's `get` returns, for
  every address, what the last call on its page wrote.
-/
namespace X64k.L3.Loader

open X64k.Core X64k.Core.Radix
open X64k.L2.Paging (entry nx lf nx_zero lf_zero nx_eq_none present_of_nx Tabs TablesShow pml4Ix
  pdptIx pdIx isPresent)

/-! ## `map` -/

/-- `V'` is `V` after a `map` on the path `i`, `j`, `k` below `r`. -/
structure Mapped (V : Tabs) (R : Set Word) (r : Word) (i j k : Fin 512) (p : Word) (V' : Tabs) :
    Prop where
  owned : Owned nx V'.E R (taken V')
  put : PutAt nx lf V.E R V'.E r i j k (some p)
  mono : ∀ n, V.trk n = true → V'.trk n = true

section Map
variable {tr : Ptr} {m : Mem} {V : Tabs} {R : Set Word}

theorem taken_track {n : Nat} (hn : n < 256) :
    insert (page n).addr (taken V) ⊆ taken (V.track n true) := by
  rintro t (rfl | ⟨k, hk, rfl, hkt⟩)
  · exact ⟨n, hn, rfl, if_pos rfl⟩
  · refine ⟨k, hk, rfl, ?_⟩
    rw [Tabs.track_trk, hkt]
    split <;> rfl

/-- The branch "Adding PD". -/
theorem mapNewPd_shows (hL : Layout tr) (hS : Shows tr m V) (hO : Owned nx V.E R (taken V))
    (hR : R ⊆ taken V) {r : Word} {q : Nat} (hr : r ∈ R) (hq : q < 256) {i j : Fin 512}
    (k : Fin 512) (h1 : nx (V.E r i) = some (page q).addr)
    (h2 : nx (V.E (page q).addr j) = none) {p : Word} {flags : BitVec 32}
    (hp : p &&& 0x1FFFFF = 0) (hf : flags.toNat < 2 ^ 12) :
    (∃ msg, Pml4.mapNewPd tr m (page q) (BitVec.ofNat 32 j) (BitVec.ofNat 32 k) p flags =
      .error (.assertFail msg) ∧ Exhausted V) ∨
    ∃ m' V', Pml4.mapNewPd tr m (page q) (BitVec.ofNat 32 j) (BitVec.ofNat 32 k) p flags = .ok m' ∧
      Shows tr m' V' ∧ Mapped V R r i j k p V' ∧ Keeps tr m m' := by
  unfold Pml4.mapNewPd
  rcases alloc_shows hL hS with ⟨ha, hall⟩ | ⟨n, hn, hnt, m₁, ha, hS₁, hk₁⟩
  · rw [ha]
    refine .inl ⟨_, rfl, fun n hn k hk hnt => ?_⟩
    rw [hall n hn] at hnt; cases hnt
  rw [ha, Res.ok_bind]
  dsimp only
  rw [Res.assert_of (page_ne_fail hn), Res.ok_bind]
  have hS₂ := hS₁.setEntryAt hL hn k (p ||| leafFlags flags)
  have hS₃ := hS₂.setEntryAt hL hq j ((page n ||| 1).setWidth 64)
  have hnA := not_mem_taken hn hnt
  obtain ⟨f1, f2⟩ := hO.putLow lf hr h1 h2 (fun h => hnA (hR h)) hnA (nx_pageLink hn) lf_zero k
    (p ||| leafFlags flags)
  rw [lf_leaf hp hf] at f2
  have hk₂ := keeps_setEntryAt tr m₁ hn k (p ||| leafFlags flags)
  have hk₃ := hk₂.trans (keeps_setEntryAt tr _ hq j ((page n ||| 1).setWidth 64))
  refine .inr ⟨_, _, rfl, hS₃, ⟨f1.mono (taken_track hn), f2, fun x hx => ?_⟩, hk₁.trans hk₃⟩
  show (if x = n then true else V.trk x) = true
  rw [hx]
  split <;> rfl

/-- The branch "Adding PDP", "Adding PD". Both pages are cleared twice. -/
theorem mapNewPdp_shows (hL : Layout tr) (hS : Shows tr m V) (hO : Owned nx V.E R (taken V))
    (hR : R ⊆ taken V) {x : Nat} (hx : x < 256) (hr : (page x).addr ∈ R) {i : Fin 512}
    (j k : Fin 512) (h1 : nx (V.E (page x).addr i) = none) {p : Word} {flags : BitVec 32}
    (hp : p &&& 0x1FFFFF = 0) (hf : flags.toNat < 2 ^ 12) :
    (∃ msg, Pml4.mapNewPdp tr m (page x) (BitVec.ofNat 32 i) (BitVec.ofNat 32 j)
      (BitVec.ofNat 32 k) p flags = .error (.assertFail msg) ∧ Exhausted V) ∨
    ∃ m' V', Pml4.mapNewPdp tr m (page x) (BitVec.ofNat 32 i) (BitVec.ofNat 32 j)
      (BitVec.ofNat 32 k) p flags = .ok m' ∧ Shows tr m' V' ∧
      Mapped V R (page x).addr i j k p V' ∧ Keeps tr m m' := by
  unfold Pml4.mapNewPdp
  rcases alloc_shows hL hS with ⟨ha, hall⟩ | ⟨q, hq, hqt, m₁, ha, hS₁, hk₁⟩
  · rw [ha]
    refine .inl ⟨_, rfl, fun n hn k hk hnt => ?_⟩
    rw [hall n hn] at hnt; cases hnt
  rw [ha, Res.ok_bind]
  dsimp only
  rw [Res.assert_of (page_ne_fail hq), Res.ok_bind]
  rcases alloc_shows hL hS₁ with ⟨hb, hall⟩ | ⟨n, hn, hnt, m₂, hb, hS₂, hk₂⟩
  · rw [hb]
    -- the second page is missing: at most the first one was free
    have hold : ∀ n < 256, V.trk n = false → n = q := by
      intro n hn hnt
      have := hall n hn
      rw [Tabs.clearPage_trk, Tabs.track_trk] at this
      split at this
      · assumption
      · rw [hnt] at this; cases this
    exact .inl ⟨_, rfl, fun n hn k hk hnt hkt => (hold n hn hnt).trans (hold k hk hkt).symm⟩
  rw [Tabs.clearPage_trk, Tabs.track_trk] at hnt
  have hnq : n ≠ q := by rintro rfl; rw [if_pos rfl] at hnt; cases hnt
  rw [if_neg hnq] at hnt
  rw [hb, Res.ok_bind]
  dsimp only
  rw [Res.assert_of (page_ne_fail hn), Res.ok_bind, leafFlags_eq]
  -- `alloc` has already cleared both pages
  have hS₃ : Shows tr ((m₂.fill (page q).addr 0x1000 0).fill (page n).addr 0x1000 0)
      ((((V.track q true).clearPage (page q).addr).track n true).clearPage (page n).addr) := by
    have h := (hS₂.clearPage hL hq).clearPage hL hn
    have hE : TablesShow _ pages (clearAt (clearAt (clearAt (clearAt V.E (page q).addr 0)
      (page n).addr 0) (page q).addr 0) (page n).addr 0) := h.E
    rw [clearAt_twice] at hE
    exact ⟨hE, h.trk⟩
  have hS₄ := hS₃.setEntryAt hL hn k (p ||| leafFlags flags)
  have hS₅ := hS₄.setEntryAt hL hq j ((page n ||| 1).setWidth 64)
  have hS₆ := hS₅.setEntryAt hL hx i ((page q ||| 1).setWidth 64)
  have hnA := not_mem_taken hn hnt
  have hqA := not_mem_taken hq hqt
  obtain ⟨f1, f2⟩ := hO.putMid lf hr h1 (fun h => hqA (hR h)) hqA (fun h => hnA (hR h)) hnA
    ((page_addr_inj hn hq).not.mpr hnq) (nx_pageLink hq) (nx_pageLink hn) nx_zero lf_zero j k
    (p ||| leafFlags flags)
  rw [lf_leaf hp hf] at f2
  have hk₃ := (keeps_clearPage tr m₂ hq).trans (keeps_clearPage tr _ hn)
  have hk₄ := hk₃.trans (keeps_setEntryAt tr _ hn k (p ||| leafFlags flags))
  have hk₅ := hk₄.trans (keeps_setEntryAt tr _ hq j ((page n ||| 1).setWidth 64))
  have hk₆ := hk₅.trans (keeps_setEntryAt tr _ hx i ((page q ||| 1).setWidth 64))
  refine .inr ⟨_, _, rfl, hS₆, ⟨f1.mono ?_, f2, fun y hy => ?_⟩, (hk₁.trans hk₂).trans hk₆⟩
  · rw [Set.insert_comm]
    exact (Set.insert_subset_insert (taken_track hq)).trans (taken_track hn)
  · show (if y = n then true else if y = q then true else V.trk y) = true
    rw [hy]
    split <;> [rfl; (split <;> rfl)]

theorem map_shows (hL : Layout tr) (hS : Shows tr m V) (hO : Owned nx V.E R (taken V))
    (hR : R ⊆ taken V) {x : Nat} (hx : x < 256) (hr : (page x).addr ∈ R) {v p : Word}
    {flags : BitVec 32} (hv : v.toNat < 2 ^ 48) (hp : p &&& 0x1FFFFF = 0)
    (hf : flags.toNat < 2 ^ 12) :
    (∃ msg, Pml4.map tr m (page x) v p flags = .error (.assertFail msg) ∧ Exhausted V) ∨
    ∃ m' V', Pml4.map tr m (page x) v p flags = .ok m' ∧ Shows tr m' V' ∧
      Mapped V R (page x).addr (pml4Ix v) (pdptIx v) (pdIx v) p V' ∧ Keeps tr m m' := by
  unfold Pml4.map
  dsimp only
  rw [pml4Index_eq hv, pdpIndex_eq, pdIndex_eq]
  generalize pml4Ix v = i
  generalize pdptIx v = j
  generalize pdIx v = k
  rw [entryAt_page m hx, hS.E _ (page_mem hx) i]
  cases h1 : nx (V.E (page x).addr i) with
  | none =>
    rw [if_neg (present_one.not.mpr (nx_eq_none.mp h1))]
    exact mapNewPdp_shows hL hS hO hR hx hr j k h1 hp hf
  | some a =>
    have hm := mem_mids hr h1
    obtain ⟨q, hq, rfl, -⟩ := hO.mids_sub hm
    rw [if_pos (present_one.mpr (present_of_nx h1).1), tableOf_page h1, entryAt_page m hq,
      hS.E _ (page_mem hq) j]
    cases h2 : nx (V.E (page q).addr j) with
    | none =>
      rw [if_neg (present_low.not.mpr (nx_eq_none.mp h2))]
      exact mapNewPd_shows hL hS hO hR hr hq k h1 h2 hp hf
    | some b =>
      obtain ⟨n, hn, rfl, -⟩ := hO.lows_sub (mem_lows hm h2)
      rw [if_pos (present_low.mpr (present_of_nx h2).1), tableOf_page h2]
      obtain ⟨f1, f2⟩ := hO.putLeaf lf hr h1 h2 k (p ||| leafFlags flags)
      rw [lf_leaf hp hf] at f2
      exact .inr ⟨_, _, rfl, hS.setEntryAt hL hn k _, ⟨f1, f2, fun _ h => h⟩,
        keeps_setEntryAt tr m hn k _⟩

end Map

/-! ## Runs of `map` -/

/-- The arguments of a `map` call. -/
structure Call where
  v : Word
  p : Word
  flags : BitVec 32
  deriving DecidableEq, Repr

/-- An address below `2^48`, a 2 MiB frame, and flags. -/
def Call.Valid (c : Call) : Prop :=
  c.v.toNat < 2 ^ 48 ∧ c.p &&& 0x1FFFFF = 0 ∧ c.flags.toNat < 2 ^ 12

/-- The calls made so far, the last one first. -/
structure State where
  mem : Mem
  calls : List Call

/-- The last call on the 2 MiB page of `w`. -/
def lastOn (calls : List Call) (w : Word) : Option Call :=
  calls.find? fun c => decide (c.v >>> 21 = w >>> 21)

/-- Runs of `map` on the table at `root`, an allocated page on which the
constructor has run. A call that runs out of pages fails an assertion and is
no step. -/
def lts (tr root : Ptr) : LTS State Call where
  init s := s.calls = [] ∧ ∃ x < 256, root = page x ∧
    ∃ m, tracked tr m x = true ∧ s.mem = Pml4.init m root
  step s c s' := c.Valid ∧ Pml4.map tr s.mem root c.v c.p c.flags = .ok s'.mem ∧
    s'.calls = c :: s.calls

/-- The tables of a run: a forest of tracked pages below the root, which
translates as the calls say. -/
structure Built (tr : Ptr) (x : Nat) (s : State) (V : Tabs) : Prop where
  shows_ : Shows tr s.mem V
  owned : Owned nx V.E {(page x).addr} (taken V)
  root : V.trk x = true
  calls : ∀ c ∈ s.calls, c.Valid
  reads : ∀ w : Word, w.toNat < 2 ^ 48 →
    Radix.get nx lf V.E (page x).addr (pml4Ix w) (pdptIx w) (pdIx w) =
      (lastOn s.calls w).map Call.p

section Run
variable {tr : Ptr}

theorem built_init (hL : Layout tr) {x : Nat} (hx : x < 256) {m : Mem}
    (ht : tracked tr m x = true) : ∃ V, Built tr x ⟨Pml4.init m (page x), []⟩ V := by
  have hS := (shows_self tr m).clearPage hL hx
  have hzero : ∀ r ∈ ({(page x).addr} : Set Word), ∀ i,
      clearAt (entry m) (page x).addr 0 r i = 0 := fun r hr i => if_pos hr
  refine ⟨_, hS, .of_empty (fun r hr i => ?_) _, ht, nofun, fun w _ => ?_⟩
  · exact (congrArg nx (hzero r hr i)).trans nx_zero
  · show (nx (clearAt (entry m) _ 0 _ _)).bind _ = _
    rw [hzero _ rfl, nx_zero]
    rfl

/-- One call. -/
theorem Built.step (hL : Layout tr) {x : Nat} (hx : x < 256) {s : State} {V : Tabs}
    (h : Built tr x s V) {c : Call} (hc : c.Valid) :
    (∃ msg, Pml4.map tr s.mem (page x) c.v c.p c.flags = .error (.assertFail msg) ∧
      Exhausted V) ∨
    ∃ m' V', Pml4.map tr s.mem (page x) c.v c.p c.flags = .ok m' ∧
      Built tr x ⟨m', c :: s.calls⟩ V' ∧ Keeps tr s.mem m' := by
  have hR : {(page x).addr} ⊆ taken V := Set.singleton_subset_iff.mpr (mem_taken hx h.root)
  rcases map_shows hL h.shows_ h.owned hR hx rfl hc.1 hc.2.1 hc.2.2 with
    hfail | ⟨m', V', he, hS', hM, hk⟩
  · exact .inl hfail
  refine .inr ⟨m', V', he, ⟨hS', hM.owned, hM.mono x h.root, ?_, fun w hw => ?_⟩, hk⟩
  · intro c' hc'
    rcases List.mem_cons.mp hc' with rfl | hc'
    · exact hc
    · exact h.calls c' hc'
  · have hpath := L2.Paging.path_eq_iff hc.1 hw
    unfold lastOn
    rw [List.find?_cons]
    by_cases hp : c.v >>> 21 = w >>> 21
    · obtain ⟨h1, h2, h3⟩ := hpath.mpr hp
      rw [decide_eq_true hp, ← h1, ← h2, ← h3]
      exact hM.put.hit
    · rw [decide_eq_false hp]
      refine (hM.put.miss _ rfl _ _ _ fun he => hp (hpath.mp ?_)).trans (h.reads w hw)
      simp only [Prod.mk.injEq, true_and] at he
      exact ⟨he.1.symm, he.2.1.symm, he.2.2.symm⟩

/-- The kernel's `get` on the tables of a run. -/
theorem Built.get {x : Nat} (hx : x < 256) {s : State} {V : Tabs} (hB : Built tr x s V) {w : Word}
    (hw : w.toNat < 2 ^ 48) : L2.Paging.Pml4.get s.mem (page x).addr w =
      (lastOn s.calls w).map fun c => c.p + (w &&& 0x1FFFFF) := by
  have hreads : Radix.get nx lf (entry s.mem) (page x).addr (pml4Ix w) (pdptIx w) (pdIx w) =
      (lastOn s.calls w).map Call.p := by
    rw [← hB.reads w hw]
    refine get_congr (R := {(page x).addr}) rfl ?_ ?_ _ _ _
    · rintro t (rfl | ht) i
      · rw [hB.shows_.E _ (page_mem hx)]
      · obtain ⟨n, hn, rfl, -⟩ := hB.owned.mids_sub ht
        rw [hB.shows_.E _ (page_mem hn)]
    · intro t ht i
      obtain ⟨n, hn, rfl, -⟩ := hB.owned.lows_sub ht
      rw [hB.shows_.E _ (page_mem hn)]
  rw [L2.Paging.get_eq _ _ hw, hreads, Option.map_map]
  cases hl : lastOn s.calls w with
  | none => rfl
  | some c =>
    exact congrArg some (L2.Paging.or_offset (hB.calls c (List.mem_of_find?_eq_some hl)).2.1 w)

theorem built (hL : Layout tr) {root : Ptr} {s : State} (h : (lts tr root).Reachable s) :
    ∃ x < 256, root = page x ∧ ∃ V, Built tr x s V := by
  refine LTS.Inductive.reachable (I := fun s => ∃ x < 256, root = page x ∧ ∃ V, Built tr x s V)
    ⟨?_, ?_⟩ s h
  · rintro ⟨_, _⟩ ⟨rfl, x, hx, rfl, m, ht, rfl⟩
    exact ⟨x, hx, rfl, built_init hL hx ht⟩
  · rintro s c ⟨m', _⟩ ⟨x, hx, rfl, V, hB⟩ ⟨hc, he, rfl⟩
    rcases hB.step hL hx hc with ⟨msg, he', -⟩ | ⟨m₁, V', he', hB', -⟩
    · rw [he'] at he; cases he
    · rw [he'] at he; cases he
      exact ⟨x, hx, rfl, V', hB'⟩

end Run

/-! ## Main result -/

/-- **The kernel reads what the loader wrote.** After any run of `map` calls
`get` returns, for every address, the frame of the last call on its 2 MiB page
plus the offset in the page, and nothing where there was no call. A further
call returns unless at most one page is left. -/
theorem get_last_map {tr root : Ptr} (hL : Layout tr) {s : State}
    (hs : (lts tr root).Reachable s) :
    (∀ w : Word, w.toNat < 2 ^ 48 → L2.Paging.Pml4.get s.mem root.addr w =
      (lastOn s.calls w).map fun c => c.p + (w &&& 0x1FFFFF)) ∧
    ∀ c : Call, c.Valid → (∃ m', Pml4.map tr s.mem root c.v c.p c.flags = .ok m') ∨
      ∀ n < 256, ∀ k < 256, tracked tr s.mem n = false → tracked tr s.mem k = false → n = k := by
  obtain ⟨x, hx, rfl, V, hB⟩ := built hL hs
  refine ⟨fun w hw => hB.get hx hw, fun c hc => ?_⟩
  · rcases hB.step hL hx hc with ⟨_, _, hE⟩ | ⟨m', V', he, -⟩
    · refine .inr fun n hn k hk hnt hkt => hE n hn k hk ?_ ?_
      · rw [← hB.shows_.trk n hn, hnt]
      · rw [← hB.shows_.trk k hk, hkt]
    · exact .inl ⟨m', he⟩

/-- Nothing but the bit of the first page, where the table is. -/
def demoMem : Mem := Mem.store32 ⟨fun _ => 0⟩ 0x200000 1

theorem demo_maps : ∃ m₁ m₂,
    Pml4.map 0x200000 (Pml4.init demoMem 0x100000) 0x100000 0x40000000 0x200000 0x80 = .ok m₁ ∧
    Pml4.map 0x200000 m₁ 0x100000 0x40000123 0x400000 0x80 = .ok m₂ := by
  have h : (match Pml4.map 0x200000 (Pml4.init demoMem 0x100000) 0x100000 0x40000000 0x200000
        0x80 with
      | .ok m₁ =>
        match Pml4.map 0x200000 m₁ 0x100000 0x40000123 0x400000 0x80 with
        | .ok _ => true
        | .error _ => false
      | .error _ => false) = true := by decide +kernel
  split at h
  · rename_i m₁ h₁
    split at h
    · rename_i m₂ h₂
      exact ⟨m₁, m₂, h₁, h₂⟩
    · cases h
  · cases h

/-- Two calls on one page: the second counts. -/
theorem get_last_map_demo : ∃ s, (lts 0x200000 0x100000).Reachable s ∧
    s.calls = [⟨0x40000123, 0x400000, 0x80⟩, ⟨0x40000000, 0x200000, 0x80⟩] ∧
    L2.Paging.Pml4.get s.mem (0x100000 : Ptr).addr 0x40000456 = some 0x400456 := by
  obtain ⟨m₁, m₂, h₁, h₂⟩ := demo_maps
  have hL : Layout 0x200000 := ⟨by decide, .inr (by decide)⟩
  have hinit : (lts 0x200000 0x100000).init ⟨Pml4.init demoMem 0x100000, []⟩ :=
    ⟨rfl, 0, by decide, rfl, demoMem, by decide +kernel, rfl⟩
  have hst₁ : (lts 0x200000 0x100000).step ⟨Pml4.init demoMem 0x100000, []⟩
      ⟨0x40000000, 0x200000, 0x80⟩ ⟨m₁, [⟨0x40000000, 0x200000, 0x80⟩]⟩ :=
    ⟨⟨by decide, by decide, by decide⟩, h₁, rfl⟩
  have hst₂ : (lts 0x200000 0x100000).step ⟨m₁, [⟨0x40000000, 0x200000, 0x80⟩]⟩
      ⟨0x40000123, 0x400000, 0x80⟩
      ⟨m₂, [⟨0x40000123, 0x400000, 0x80⟩, ⟨0x40000000, 0x200000, 0x80⟩]⟩ :=
    ⟨⟨by decide, by decide, by decide⟩, h₂, rfl⟩
  have hs : (lts 0x200000 0x100000).Reachable _ := ⟨_, _, hinit, .cons hst₁ (.cons hst₂ (.nil _))⟩
  exact ⟨_, hs, rfl, ((get_last_map hL hs).1 0x40000456 (by decide)).trans rfl⟩

end X64k.L3.Loader
