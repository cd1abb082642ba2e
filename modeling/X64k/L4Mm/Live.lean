import X64k.L3Handover.Handover
import X64k.L4Mm.Block

/-!
# Live blocks

Runs of `mm::alloc` and `mm::free` on a set of tables, from the handover on. A
block is live from the call that returns it to the call that frees it.

`unmap` counts a page directory down and releases it with its last reference,
but leaves the entry that names it; the page is handed out again, cleared, and
whatever is bound through the old entry is lost (`live_run`). While no call
takes the last reference of a directory (`Spares`), `free` changes counters
only, and every live block keeps its translation (`live_kept`).
-/
namespace X64k.L4.Mm

open X64k.Core X64k.L2.Paging
open X64k.L3.Retain (LoaderData Handover retainLoaderPaging Retained retain_statics kernel_kept)

/-! ## Runs -/

inductive MmCall where
  | alloc (p n : Word) (flags : BitVec 32)
  | free (p start n : Word)
  deriving DecidableEq, Repr

/-- A block that was returned; `born` is the memory right after the call. -/
structure Block where
  root : Word
  start : Word
  count : Word
  born : Mem

structure LiveState where
  machine : Machine
  live : List Block

/-- Runs on the tables `R` from the state that `retainLoaderPaging` and
`mm::init` leave. Only live blocks are freed, and as a whole. -/
def liveLts (ld : LoaderData) (s : Statics) (R : Set Word) : LTS LiveState MmCall where
  init st := (∃ m₀, retainLoaderPaging ld m₀ = .ok (s, st.machine.mem)) ∧
    Sound s R st.machine.mem ∧ st.machine.phys = init ∧ st.live = []
  step st c st' := match c with
    | .alloc p n flags => p ∈ R ∧ ∃ r, alloc s st.machine p n flags = .ok (r, st'.machine) ∧
        st'.live = r.toList.map (fun v => ⟨p, v, n, st'.machine.mem⟩) ++ st.live
    | .free p start n => ∃ born l₁ l₂, st.live = l₁ ++ ⟨p, start, n, born⟩ :: l₂ ∧
        free s st.machine p start n = .ok st'.machine ∧ st'.live = l₁ ++ l₂

/-- Every address of the block's pages translates as right after the call. -/
def Block.Kept (b : Block) (m : Mem) : Prop := ∀ i < b.count.toNat, ∀ w : Word, w.toNat < 2 ^ 48 →
  w >>> 21 = blockPage b.start i >>> 21 → Pml4.get m b.root w = Pml4.get b.born b.root w

/-- Pages `i` to `i + n` of the block at `start` that directory `k` maps. -/
def pagesIn (s : Statics) (m : Mem) (p start : Word) (i n k : Nat) : Nat :=
  (List.range' i n).countP fun j => decide (InPd s m p (blockPage start j) k)

/-- `free` leaves every directory of the block a reference. -/
def Spares (s : Statics) (st : LiveState) : MmCall → Prop
  | .alloc _ _ _ => True
  | .free p start n => ∀ k < s.pages, 0 < pagesIn s st.machine.mem p start 0 n.toNat k →
      pagesIn s st.machine.mem p start 0 n.toNat k < (refs s st.machine.mem k).toNat

/-! ## The steps -/

section Steps
variable {s : Statics} {R : Set Word} {p v : Word}

/-- `free` that spares the directories changes no translation. -/
theorem freeFrom_keeps (hp : p ∈ R) {n i : Nat} {m : Mem} (h : Sound s R m)
    (hcan : ∀ j, i ≤ j → j < i + n → Canonical (blockPage v j))
    (hmap : ∀ j, i ≤ j → j < i + n → Pml4.get m p (blockPage v j) ≠ none)
    (hsp : ∀ k < s.pages, 0 < pagesIn s m p v i n k → pagesIn s m p v i n k < (refs s m k).toNat) :
    ∃ m', freeFrom s p v n i m = .ok m' ∧ Sound s R m' ∧
      ∀ r ∈ R, ∀ w : Word, w.toNat < 2 ^ 48 → Pml4.get m' r w = Pml4.get m r w := by
  induction n generalizing i m with
  | zero => exact ⟨m, rfl, h, fun _ _ _ _ => rfl⟩
  | succ n ih =>
    have hcount : ∀ k, pagesIn s m p v i (n + 1) k =
        pagesIn s m p v (i + 1) n k + if InPd s m p (blockPage v i) k then 1 else 0 := by
      intro k
      unfold pagesIn
      rw [List.range'_succ, List.countP_cons]
      simp only [decide_eq_true_eq]
    have hci := hcan i (Nat.le_refl _) (by omega)
    have hmi := hmap i (Nat.le_refl _) (by omega)
    obtain ⟨k₀, m₁, hk₀, hpd, he, h₁, hE, hrefs⟩ := h.unmap_keeps hp hci hmi fun k hk hin => by
      have h1 := hcount k
      rw [if_pos hin] at h1
      have h2 := hsp k hk (by omega)
      omega
    have hget : ∀ r ∈ R, ∀ w : Word, w.toNat < 2 ^ 48 → Pml4.get m₁ r w = Pml4.get m r w :=
      fun r hr w hw => h.get_congr hE hr hw
    have hin : ∀ k, pagesIn s m₁ p v (i + 1) n k = pagesIn s m p v (i + 1) n k := by
      intro k
      unfold pagesIn
      refine congrArg (List.countP · _) (funext fun j => ?_)
      exact decide_eq_decide.mpr (h.inPd_congr hE hp _ k)
    obtain ⟨m', he', h', hget'⟩ := ih (i := i + 1) h₁ (fun j h1 h2 => hcan j (by omega) (by omega))
      (fun j h1 h2 => by
        rw [hget p hp _ (hcan j (by omega) (by omega)).1]
        exact hmap j (by omega) (by omega))
      (fun k hk h0 => by
        rw [hin] at h0 ⊢
        have h1 := hcount k
        have h2 := hsp k hk (by omega)
        rw [hrefs k hk]
        split
        · -- the directory that has lost a reference has lost a page of the block
          rename_i hkk
          subst hkk
          rw [if_pos hpd] at h1
          have h3 : (1 : BitVec 16).toNat = 1 := rfl
          rw [BitVec.toNat_sub, h3]
          omega
        · omega)
    refine ⟨m', ?_, h', fun r hr w hw => (hget' r hr w hw).trans (hget r hr w hw)⟩
    unfold freeFrom
    rw [if_pos (Option.isSome_iff_ne_none.mpr hmi), he, Res.ok_bind]
    exact he'

end Steps

/-! ## The invariant -/

/-- A live block: its pages are mapped, as they were. -/
structure Block.Live (R : Set Word) (b : Block) (m : Mem) : Prop where
  root : b.root ∈ R
  canonical : ∀ i < b.count.toNat, Canonical (blockPage b.start i)
  mapped : ∀ i < b.count.toNat, Pml4.get m b.root (blockPage b.start i) ≠ none
  kept : b.Kept m

structure LiveInv (s : Statics) (R : Set Word) (st : LiveState) : Prop where
  sound : Sound s R st.machine.mem
  live : ∀ b ∈ st.live, b.Live R st.machine.mem

section Invariant
variable {s : Statics} {R : Set Word} {m m' : Mem} {b : Block}

/-- A block does not see a step that keeps its translations. -/
theorem Block.Live.keep (h : b.Live R m) (hget : ∀ i < b.count.toNat, ∀ w : Word, w.toNat < 2 ^ 48 →
    w >>> 21 = blockPage b.start i >>> 21 → Pml4.get m' b.root w = Pml4.get m b.root w) :
    b.Live R m' := by
  refine ⟨h.root, h.canonical, fun i hi => ?_, fun i hi w hw hpage => ?_⟩
  · rw [hget i hi _ (h.canonical i hi).1 rfl]
    exact h.mapped i hi
  · rw [hget i hi w hw hpage]
    exact h.kept i hi w hw hpage

/-- The pages that `alloc` binds were not mapped, so they are not the block's. -/
theorem Block.Live.binds (h : b.Live R m) {p v f : Word} {n : Nat} {P : List Word} (hn : n ≤ 32)
    (hV : Vacant m p v n) (hlen : P.length = n) (hB : Binds R m m' p v f 0 P) : b.Live R m' := by
  refine h.keep fun i hi w hw hpage => hB.miss _ h.root w hw fun j hj he => ?_
  obtain ⟨hroot, hw'⟩ := Prod.mk.inj he
  rw [Nat.zero_add] at hw'
  have hj' : j < n := hlen ▸ hj
  have hnone := hV.unmapped j hj'
  rw [← hroot] at hnone
  refine h.mapped i hi ?_
  exact (get_none_congr m b.root (hV.canonical hn hj').1 (h.canonical i hi).1
    (hpage.symm.trans hw')).mpr hnone

theorem LiveInv.step {ld : LoaderData} {st st' : LiveState} {c : MmCall} (h : LiveInv s R st)
    (hst : (liveLts ld s R).step st c st') (hc : Spares s st c) : LiveInv s R st' := by
  cases c with
  | alloc p n flags =>
    obtain ⟨hp, r, he, hlive⟩ := hst
    rcases alloc_cases h.sound hp he with ⟨rfl, hmem⟩ | ⟨v, ks, rfl, hn, hV, hlen, h', hB⟩
    · rw [Option.toList_none, List.map_nil, List.nil_append] at hlive
      refine ⟨hmem ▸ h.sound, fun b hb => ?_⟩
      rw [hmem]
      exact h.live b (hlive ▸ hb)
    · rw [Option.toList_some, List.map_singleton, List.singleton_append] at hlive
      refine ⟨h', fun b hb => ?_⟩
      have hlen' : (ks.map physPage).length = n.toNat := by rw [List.length_map, hlen]
      rcases List.mem_cons.mp (hlive ▸ hb) with rfl | hb
      · refine ⟨hp, fun i hi => hV.canonical hn hi, fun i hi => ?_, fun _ _ _ _ _ => rfl⟩
        have hget := hB.hit i _ (List.getElem?_eq_getElem (hlen'.symm ▸ hi)) (blockPage v i)
          (hV.canonical hn hi).1 (by rw [Nat.zero_add])
        rw [hget]
        exact Option.some_ne_none _
      · exact (h.live b hb).binds hn hV hlen' hB
  | free p start n =>
    obtain ⟨born, l₁, l₂, hold, he, hlive⟩ := hst
    have hb := h.live ⟨p, start, n, born⟩ (by rw [hold]; exact List.mem_append_cons_self)
    obtain ⟨m', he', h', hget⟩ := freeFrom_keeps (n := n.toNat) (i := 0) hb.root h.sound
      (fun j _ hj => hb.canonical j (by rwa [Nat.zero_add] at hj))
      (fun j _ hj => hb.mapped j (by rwa [Nat.zero_add] at hj)) hc
    unfold free at he
    rw [he', Res.ok_bind] at he
    have hmem : st'.machine.mem = m' := (congrArg Machine.mem (Except.ok.inj he)).symm
    refine ⟨hmem ▸ h', fun b hb' => ?_⟩
    have hin : b ∈ st.live := by
      rw [hlive] at hb'
      rw [hold]
      rcases List.mem_append.mp hb' with hb' | hb'
      · exact List.mem_append_left _ hb'
      · exact List.mem_append_right _ (List.mem_cons_of_mem _ hb')
    rw [hmem]
    exact (h.live b hin).keep fun i hi w hw _ => hget _ (h.live b hin).root w hw

end Invariant

/-! ## Main result -/

/-- **Live blocks keep their translation** in every run in which every `free`
leaves the page directories of its block a reference. -/
theorem live_kept {ld : LoaderData} {s : Statics} {R : Set Word} (st : LiveState)
    (h : ((liveLts ld s R).guard (Spares s)).Reachable st) : ∀ b ∈ st.live, b.Kept st.machine.mem := by
  have hinv : LiveInv s R st := by
    refine LTS.Inductive.reachable ⟨?_, ?_⟩ st h
    · rintro st ⟨-, hsound, -, hlive⟩
      exact ⟨hsound, by rw [hlive]; exact nofun⟩
    · rintro st c st' hI ⟨hst, hc⟩
      exact hI.step hst hc
  exact fun b hb => (hinv.live b hb).kept

/-! ## After the handover -/

/-- Tables whose pages the loader marked are sound after the handover; a root
is such a page or lies behind the range. -/
theorem handover_sound {ld : LoaderData} (hh : Handover ld) {s : Statics} {m₀ m : Mem}
    {R : Set Word} (hr : retainLoaderPaging ld m₀ = .ok (s, m))
    (hroot : ∀ r ∈ R, (∃ n < ld.pages, r = s.page n ∧ ld.marks m₀ n = true) ∨
      0x400000 ≤ r.toNat ∧ r.toNat + 4096 ≤ 2 ^ 64)
    (hapart : ∀ r ∈ R, ∀ r' ∈ R, r ≠ r' → Apart r.toNat 4096 r'.toNat 4096)
    (ho : Radix.Owned nx (entry m) R {t | ∃ n < ld.pages, t = s.page n ∧ ld.marks m₀ n = true}) :
    Sound s R m := by
  have hR := Retained.of_ok hh hr
  have hs := retain_statics hr
  have hL : Layout s := hs ▸ L3.Retain.layout hh
  have hD := hs ▸ L3.Retain.domain hh
  have hlt : ∀ {n}, n < ld.pages → n < s.pages := fun hn => hs ▸ L3.Retain.pages_lt hh hn
  have h1 : s.start.toNat + 4096 * s.pages = 0x3FF000 := by
    have := hL.stop_eq
    rw [hR.stop] at this
    exact this.symm
  have h2 := hR.after
  have h3 := hR.before
  have h4 := hR.long
  have h5 : s.stop.toNat = 0x3FF000 := by rw [hR.stop]; rfl
  have htab : ∀ t, (∃ n < ld.pages, t = s.page n ∧ ld.marks m₀ n = true) →
      ∃ n < s.pages, t = s.page n ∧ tracked s m n = true := by
    rintro t ⟨n, hn, rfl, hm⟩
    exact ⟨n, hlt hn, rfl, (hR.marked n hn).trans hm⟩
  refine ⟨hL, hL.domain ⟨.inl (by omega), .inl (by omega), fun r hrR => ?_, hapart⟩,
    ⟨ho.forest, fun a ha => htab a (ho.mids_sub ha), fun b hb => htab b (ho.lows_sub hb)⟩,
    fun n hn hnR => ?_⟩
  · refine (hroot r hrR).imp (fun ⟨n, hn, he, _⟩ => ⟨n, hlt hn, he⟩) fun ⟨h6, h7⟩ => ⟨h7, ?_⟩
    omega
  · rcases hroot _ hnR with ⟨k, hk, he, hm⟩ | ⟨h6, -⟩
    · obtain rfl := (hL.page_inj hn (hlt hk)).mp he
      exact (hR.marked n hk).trans hm
    · have := hL.page_toNat hn
      omega

/-! ## Two runs -/

/-- The region that the loader publishes. -/
def published : LoaderData := ⟨0x100000, 0x100000, 0x200000⟩

theorem published_handover : Handover published :=
  ⟨by decide, by decide, by decide, .inl (by decide)⟩

/-- Two empty tables: the first page of the region, which is marked, and one in
the kernel's image. -/
theorem published_sound {s : Statics} {m : Mem}
    (hr : retainLoaderPaging published L3.Loader.demoMem = .ok (s, m)) :
    Sound s {0x100000, 0x500000} m := by
  have hR := Retained.of_ok published_handover hr
  have hpage : s.page 0 = 0x100000 := by
    rw [retain_statics hr]
    decide
  have hmark : published.marks L3.Loader.demoMem 0 = true := by decide +kernel
  have hdemo : ∀ lo hi, hi ≤ 0x200000 ∨ 0x200004 ≤ lo → hi ≤ 2 ^ 64 →
      Mem.EqOn demoMem L3.Loader.demoMem lo hi := fun lo hi h1 h2 =>
    Mem.EqOn.store32 demoMem 1 (x := 0x200000) (by omega) (by decide) h2
  have hzero : ∀ r ∈ ({0x100000, 0x500000} : Set Word), ∀ i, nx (entry m r i) = none := by
    intro r hrR i
    have hi := i.isLt
    have hent : entry m r i = entry demoMem r i := by
      rcases hrR with rfl | rfl
      · have h1 := hR.contents 0 (by decide) hmark
        rw [hpage] at h1
        have h2 : (0x100000 : Word).toNat = 0x100000 := rfl
        exact ((hdemo _ _ (.inl (by decide)) (by decide)).trans h1).load64 (by omega) (by omega)
      · have h2 : (0x500000 : Word).toNat = 0x500000 := rfl
        exact ((hdemo _ _ (.inr (by decide)) (Nat.le_refl _)).trans
          (kernel_kept published_handover hr)).load64 (by omega) (by omega)
    rw [hent, demo_entry, nx_zero]
  refine handover_sound published_handover hr ?_ ?_ (.of_empty hzero _)
  · rintro r (rfl | rfl)
    · exact .inl ⟨0, by decide, hpage.symm, hmark⟩
    · exact .inr ⟨by decide, by decide⟩
  · rintro r (rfl | rfl) r' (rfl | rfl) hne
    · exact absurd rfl hne
    · decide
    · decide
    · exact absurd rfl hne

section
variable {ld : LoaderData} {s : Statics} {R : Set Word} {st st' : Machine} {p v n : Word}

theorem step_alloc {flags : BitVec 32} {live : List Block} (hp : p ∈ R)
    (he : alloc s st p n flags = .ok (some v, st')) : (liveLts ld s R).step ⟨st, live⟩
      (.alloc p n flags) ⟨st', ⟨p, v, n, st'.mem⟩ :: live⟩ :=
  ⟨hp, some v, he, rfl⟩

theorem step_free {born : Mem} (l₁ l₂ : List Block) (he : free s st p v n = .ok st') :
    (liveLts ld s R).step ⟨st, l₁ ++ ⟨p, v, n, born⟩ :: l₂⟩ (.free p v n) ⟨st', l₁ ++ l₂⟩ :=
  ⟨born, l₁, l₂, rfl, he, rfl⟩

theorem published_init {m : Mem} (hr : retainLoaderPaging published L3.Loader.demoMem = .ok (s, m)) :
    (liveLts published s {0x100000, 0x500000}).init ⟨⟨m, init⟩, []⟩ :=
  ⟨⟨L3.Loader.demoMem, hr⟩, published_sound hr, rfl, rfl⟩

end

/-- Two blocks in one page directory; the first is freed, the second stays. -/
theorem live_kept_demo : ∃ s st v, ((liveLts published s {0x100000, 0x500000}).guard
    (Spares s)).Reachable st ∧ st.live.map Block.start = [v] ∧
    ∀ b ∈ st.live, b.Kept st.machine.mem := by
  have h : (match retainLoaderPaging published L3.Loader.demoMem with
      | .ok (s, m) =>
        match alloc s ⟨m, init⟩ 0x100000 1 1 with
        | .ok (some v, st₁) =>
          match alloc s st₁ 0x100000 1 1 with
          | .ok (some _, st₂) =>
            match free s st₂ 0x100000 v 1 with
            | .ok _ => decide (InPd s st₂.mem 0x100000 (blockPage v 0) 2) && refs s st₂.mem 2 == 2
            | _ => false
          | _ => false
        | _ => false
      | _ => false) = true := by decide +kernel
  split at h
  · rename_i s m hr
    split at h
    · rename_i v st₁ h₁
      split at h
      · rename_i w st₂ h₂
        split at h
        · rename_i st₃ h₃
          rw [Bool.and_eq_true, decide_eq_true_eq, beq_iff_eq] at h
          obtain ⟨hpd, hrefs⟩ := h
          have hL : Layout s := retain_statics hr ▸ L3.Retain.layout published_handover
          have h2 : 2 < s.pages := by rw [retain_statics hr]; decide
          have hsp : Spares s ⟨st₂, [⟨0x100000, w, 1, st₂.mem⟩, ⟨0x100000, v, 1, st₁.mem⟩]⟩
              (.free 0x100000 v 1) := by
            intro k hk hpos
            have hle : pagesIn s st₂.mem 0x100000 v 0 1 k ≤ 1 := List.countP_le_length
            have hin : InPd s st₂.mem 0x100000 (blockPage v 0) k := by
              obtain ⟨j, hj, hin⟩ := List.countP_pos_iff.mp hpos
              obtain rfl := List.mem_singleton.mp hj
              exact of_decide_eq_true hin
            have hkk := (hL.page_inj hk h2).mp (Option.some.inj (hin.symm.trans hpd))
            have hk2 : (refs s st₂.mem k).toNat = 2 := by rw [hkk, hrefs]; rfl
            show _ < (refs s st₂.mem k).toNat
            rw [hk2]
            exact Nat.lt_succ_of_le hle
          have hrun : ((liveLts published s {0x100000, 0x500000}).guard (Spares s)).Reachable
              ⟨st₃, [⟨0x100000, w, 1, st₂.mem⟩]⟩ :=
            ⟨_, _, published_init hr, .cons ⟨step_alloc (.inl rfl) h₁, trivial⟩
              (.cons ⟨step_alloc (.inl rfl) h₂, trivial⟩
                (.cons ⟨step_free [⟨0x100000, w, 1, st₂.mem⟩] [] h₃, hsp⟩ (.nil _)))⟩
          exact ⟨s, _, w, hrun, rfl, live_kept _ hrun⟩
        · cases h
      · cases h
    · cases h
  · cases h

/-- **A block that is lost.** A block of one page is allocated and freed, which
releases its page directory and its PDPT. The next block is bound through the
entries that still name them; a block of another table then takes and clears the
PDPT's page. -/
theorem live_run : ∃ s, ¬ ∀ st, (liveLts published s {0x100000, 0x500000}).Reachable st →
    ∀ b ∈ st.live, b.Kept st.machine.mem := by
  have h : (match retainLoaderPaging published L3.Loader.demoMem with
      | .ok (s, m) =>
        match alloc s ⟨m, init⟩ 0x100000 1 1 with
        | .ok (some v, st₁) =>
          match free s st₁ 0x100000 v 1 with
          | .ok st₂ =>
            match alloc s st₂ 0x100000 1 1 with
            | .ok (some w, st₃) =>
              match alloc s st₃ 0x500000 1 1 with
              | .ok (some _, st₄) => w == 0x80200000 &&
                Pml4.get st₄.mem 0x100000 w != Pml4.get st₃.mem 0x100000 w
              | _ => false
            | _ => false
          | _ => false
        | _ => false
      | _ => false) = true := by decide +kernel
  split at h
  · rename_i s m hr
    split at h
    · rename_i v st₁ h₁
      split at h
      · rename_i st₂ h₂
        split at h
        · rename_i w st₃ h₃
          split at h
          · rename_i x st₄ h₄
            rw [Bool.and_eq_true, beq_iff_eq, bne_iff_ne] at h
            obtain ⟨rfl, hne⟩ := h
            have hrun : (liveLts published s {0x100000, 0x500000}).Reachable
                ⟨st₄, [⟨0x500000, x, 1, st₄.mem⟩, ⟨0x100000, 0x80200000, 1, st₃.mem⟩]⟩ :=
              ⟨_, _, published_init hr, .cons (step_alloc (.inl rfl) h₁)
                (.cons (step_free [] [] h₂) (.cons (step_alloc (.inl rfl) h₃)
                  (.cons (step_alloc (.inr rfl) h₄) (.nil _))))⟩
            refine ⟨s, fun hall => hne ?_⟩
            exact hall _ hrun _ (List.mem_cons_of_mem _ List.mem_cons_self) 0 Nat.one_pos 0x80200000
              (by decide) (by rw [blockPage_zero])
          · cases h
        · cases h
      · cases h
    · cases h
  · cases h

end X64k.L4.Mm
