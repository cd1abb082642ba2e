import X64k.Core.LTS
import X64k.L3Handover.Pae
import Mathlib.Logic.Function.Basic

/-!
# Runs of the loader's own mapping (`src/loader/mem/pmpae.cpp:14-42`)

`Pdpt::map` and `Pdpt::unmap` are called in any order for any 32-bit addresses,
on an empty table. The ghost map `last` has what the last call for a page gave
it. The processor takes the page directory from bits 31 and 30 of the address;
both functions shift the address by 34, so there is one directory for all.

* `Walked`: what the tables in memory are, whatever the calls were.
* `Walked.map`, `Walked.unmap`: one call, for any 32-bit address.
* `Walked.finds`: what the processor finds for any address.
* `agrees_iff`: after every call of a run the walk finds what the ghost map
  says, exactly when every call is a `Low` one.
-/
namespace X64k.L3.Loader

open X64k.Core
open X64k.L2.Paging (entry nx Apart pdIx)

/-! ## The walk -/

/-- The present entry of a page directory that the walk ends at. -/
def presentEntry (m : Mem) (cr3 va : Ptr) : Option Word :=
  let pdpte := entryAt m cr3 (va >>> 30)
  if pdpte &&& 1 ≠ 0 then
    let pde := entryAt m (tableOf pdpte) ((va >>> 21) &&& 0x1FF)
    if pde &&& 1 ≠ 0 then some pde else none
  else none

/-- The walk for `va` ends at the frame given, or finds no present entry. -/
def Finds (m : Mem) (cr3 va : Ptr) : Option Word → Prop
  | some p => translate m cr3 va = some (p + (va &&& 0x1FFFFF).addr)
  | none => presentEntry m cr3 va = none

/-- The entry `e` maps a page to the frame given, or is not present. -/
def MapsTo (e : Word) : Option Word → Prop
  | some p => bigPage e = some p
  | none => e &&& 1 = 0

/-! ## The system -/

structure PaeSt where
  mem : Mem
  /-- ghost: what the page with this number was mapped to last -/
  last : Nat → Option Word

inductive PaeOp where
  | map (vaddr paddr : Word) (flags : BitVec 32)
  | unmap (vaddr : Word)
  deriving DecidableEq, Repr

def PaeOp.Valid : PaeOp → Prop
  | .map v p flags => v.toNat < 2 ^ 32 ∧ p &&& 0x1FFFFF = 0 ∧ flags.toNat < 2 ^ 12
  | .unmap v => v.toNat < 2 ^ 32

instance : DecidablePred PaeOp.Valid
  | .map v p flags => inferInstanceAs
    (Decidable (v.toNat < 2 ^ 32 ∧ p &&& 0x1FFFFF = 0 ∧ flags.toNat < 2 ^ 12))
  | .unmap v => inferInstanceAs (Decidable (v.toNat < 2 ^ 32))

def PaeSt.exec (tr self : Ptr) (st : PaeSt) : PaeOp → Res PaeSt
  | .map v p flags => do
    let m ← Pdpt.map tr st.mem self v p flags
    .ok ⟨m, Function.update st.last (v.toNat / 2 ^ 21) (some p)⟩
  | .unmap v =>
    .ok ⟨Pdpt.unmap st.mem self v, Function.update st.last (v.toNat / 2 ^ 21) none⟩

/-- The table at `pdpt` is where `%cr3` can point to, and no page that is still
free and no part of the tracker is on it. -/
structure Placed (tr pdpt : Ptr) (m : Mem) : Prop where
  tracker : Layout tr
  aligned : pdpt.toNat % 32 = 0
  bound : pdpt.toNat + 32 ≤ 2 ^ 32
  apart : Apart pdpt.toNat 32 tr.toNat 32
  owned : ∀ n < 256, tracked tr m n = false → Apart pdpt.toNat 32 (0x100000 + 4096 * n) 4096

/-- `m_entries[i]` -/
def pdpte (m : Mem) (self : Ptr) (i : Nat) : Word := entryAt m self (BitVec.ofNat 32 i)

/-- The calls that succeed, from an empty table on. -/
def paeRuns (tr self : Ptr) : LTS PaeSt PaeOp where
  init st := Placed tr self st.mem ∧ (∀ i < 4, pdpte st.mem self i = 0) ∧ ∀ k, st.last k = none
  step st op st' := op.Valid ∧ st.exec tr self op = .ok st'

/-- The walk finds for every address what its page was mapped to last. -/
def Agrees (self : Ptr) (st : PaeSt) : Prop :=
  ∀ va : Ptr, Finds st.mem self va (st.last (va.toNat / 2 ^ 21))

/-- The call is for an address below 1 GiB, or unmaps a page that has the same
place in its directory as an unmapped one below 1 GiB. -/
def Low (st : PaeSt) : PaeOp → Prop
  | .map v _ _ => v.toNat < 2 ^ 30
  | .unmap v => v.toNat < 2 ^ 30 ∨ st.last (v.toNat / 2 ^ 21 % 512) = none

instance (st : PaeSt) : DecidablePred (Low st)
  | .map v _ _ => inferInstanceAs (Decidable (v.toNat < 2 ^ 30))
  | .unmap v => inferInstanceAs
    (Decidable (v.toNat < 2 ^ 30 ∨ st.last (v.toNat / 2 ^ 21 % 512) = none))

/-! ## Entries -/

section Entries
variable {tr self : Ptr} {m m' : Mem}

theorem bigPage_flags {p : Word} {flags : BitVec 32} (hp : p &&& 0x1FFFFF = 0)
    (hf : flags.toNat < 2 ^ 12) : bigPage (p ||| flags.setWidth 64 ||| 0x81) = some p := by
  have hbits : (p ||| flags.setWidth 64 ||| 0x81) &&& 0x81 = 0x81 := by
    apply BitVec.eq_of_getLsbD_eq
    intro i _
    simp only [BitVec.getLsbD_and, BitVec.getLsbD_or]
    cases (0x81 : Word).getLsbD i <;> simp
  have hlf := lf_leaf hp hf
  rw [bigPage, if_pos hbits]
  rw [← leafFlags_eq, L2.Paging.lf] at hlf
  by_cases hpr : L2.Paging.isPresent (p ||| flags.setWidth 64 ||| 0x81)
  · rwa [if_pos hpr] at hlf
  · rw [if_neg hpr] at hlf
    cases hlf

theorem bigPage_present {e p : Word} (h : bigPage e = some p) : e &&& 1 ≠ 0 := by
  unfold bigPage at h
  by_cases hb : e &&& 0x81 = 0x81
  · intro h0
    have : e &&& 0x81 &&& 1 = 0x81 &&& 1 := congrArg (· &&& 1) hb
    rw [BitVec.and_assoc, show (0x81 : Word) &&& 1 = 1 from rfl, h0] at this
    exact absurd this (by decide)
  · rw [if_neg hb] at h
    cases h

theorem Finds.some_none {va : Ptr} {p : Word} (h : Finds m self va (some p))
    (h' : Finds m self va none) : False := by
  have h1 : translate m self va = some (p + (va &&& 0x1FFFFF).addr) := h
  have h2 : presentEntry m self va = none := h'
  unfold translate at h1
  unfold presentEntry at h2
  dsimp only at h1 h2
  by_cases hpr : entryAt m self (va >>> 30) &&& 1 ≠ 0
  · rw [if_pos hpr] at h1 h2
    obtain ⟨f, hf, -⟩ := Option.map_eq_some_iff.mp h1
    rw [if_pos (bigPage_present hf)] at h2
    cases h2
  · rw [if_neg hpr] at h1
    cases h1

theorem pdpte_addr (h : self.toNat + 32 ≤ 2 ^ 32) {i : Nat} (hi : i < 4) :
    (self + BitVec.ofNat 32 i * 8).addr = adr (self.toNat + 8 * i) := by
  have h8 : (8 : Ptr).toNat = 8 := rfl
  apply BitVec.eq_of_toNat_eq
  rw [addr_toNat, adr_toNat (by omega), BitVec.toNat_add, BitVec.toNat_mul, BitVec.toNat_ofNat, h8]
  omega

theorem pdpte_frame (h : self.toNat + 32 ≤ 2 ^ 32)
    (hag : Mem.EqOn m m' self.toNat (self.toNat + 32)) {i : Nat} (hi : i < 4) :
    pdpte m' self i = pdpte m self i := by
  unfold pdpte entryAt
  rw [pdpte_addr h hi]
  exact hag.load64 (by omega) (by omega)

/-- The table keeps its place as long as pages are only taken. -/
theorem Placed.step (h : Placed tr self m)
    (ht : ∀ n < 256, tracked tr m' n = false → tracked tr m n = false) : Placed tr self m' :=
  { h with owned := fun n hn hfree => h.owned n hn (ht n hn hfree) }

/-- `alloc` marks the page it takes and clears it. -/
theorem allocFrom_takes : ∀ (fuel : Nat) (a : Ptr) {b : Ptr},
    allocFrom tr m fuel a = .ok (b, m') → b ≠ 0xFFFFFFFF →
      m' = (setAlloc tr m b).fill b.addr 0x1000 0
  | 0, _, _, h, _ => by cases h
  | fuel + 1, a, b, h, hb => by
    unfold allocFrom at h
    by_cases hlt : a < regionEnd
    · rw [if_pos hlt] at h
      obtain ⟨free, -, h⟩ := Res.bind_eq_ok.mp h
      cases free with
      | true =>
        cases h
        rfl
      | false => exact allocFrom_takes fuel (a + 0x1000) h hb
    · rw [if_neg hlt] at h
      cases h
      exact absurd rfl hb

theorem alloc_frame (hL : Layout tr) {n : Nat} (hn : n < 256) (h : alloc tr m = .ok (page n, m'))
    {lo hi : Nat} (h1 : hi ≤ tr.toNat ∨ tr.toNat + 32 ≤ lo)
    (h2 : hi ≤ 0x100000 + 4096 * n ∨ 0x100000 + 4096 * n + 4096 ≤ lo) (h3 : hi ≤ 2 ^ 64) :
    Mem.EqOn m m' lo hi := by
  have hb := hL.bound
  have ha := page_addr_toNat hn
  rw [allocFrom_takes scanBound regionStart h (page_ne_fail hn)]
  have hset : Mem.EqOn m (setAlloc tr m (page n)) lo hi := by
    rw [setAlloc, setDataTracker, trackerIndex_page hn, tracker_addr hL (by omega)]
    exact Mem.EqOn.store32 m _ (by omega) (by omega) h3
  refine hset.trans ?_
  have hadr : (page n).addr = adr (0x100000 + 4096 * n) := by rw [← ha, adr_of_toNat]
  rw [hadr]
  exact Mem.EqOn.fill _ _ (by omega) (by omega) (by omega) h3

end Entries

/-! ## The tables -/

/-- The page at `q` is the first page directory. -/
structure Directory (pdpt : Ptr) (m : Mem) (dir : Fin 512 → Option Word) (q : Nat) : Prop where
  lt : q < 256
  apart : Apart pdpt.toNat 32 (0x100000 + 4096 * q) 4096
  link : nx (pdpte m pdpt 0) = some (page q).addr
  maps : ∀ i, MapsTo (entry m (page q).addr i) (dir i)

/-- There is at most the first page directory, with the entries `dir`. -/
structure Walked (tr pdpt : Ptr) (m : Mem) (dir : Fin 512 → Option Word) : Prop where
  placed : Placed tr pdpt m
  rest : ∀ i < 4, i ≠ 0 → pdpte m pdpt i &&& 1 = 0
  first : (pdpte m pdpt 0 &&& 1 = 0 ∧ ∀ i, dir i = none) ∨ ∃ q, Directory pdpt m dir q

section Tables
variable {tr self : Ptr} {m m' : Mem} {dir : Fin 512 → Option Word} {q : Nat} {v : Word}

theorem entryAt_pdptIndex (m : Mem) (self : Ptr) (hv : v.toNat < 2 ^ 32) :
    entryAt m self (Pdpt.pdptIndex v) = pdpte m self 0 := by
  rw [pdptIndex_zero hv, pdpte]

theorem Directory.present (h : Directory self m dir q) : pdpte m self 0 &&& 1 ≠ 0 :=
  present_one.mpr (L2.Paging.present_of_nx h.link).1

theorem Walked.set (h : Walked tr self m dir) (hd : Directory self m dir q) (i : Fin 512) {e : Word}
    {o : Option Word} (he : MapsTo e o) :
    Walked tr self (setEntryAt m (page q) (BitVec.ofNat 32 i) e) (Function.update dir i o) := by
  have hL := h.placed.tracker
  have hb := h.placed.bound
  have ha := hd.apart
  have hq := page_addr_toNat hd.lt
  have hi := i.isLt
  have hag : Mem.EqOn m (setEntryAt m (page q) (BitVec.ofNat 32 i) e) self.toNat
      (self.toNat + 32) := by
    rw [setEntryAt_page m hd.lt]
    exact Mem.EqOn.store64 m e (by omega) (by omega) (by omega)
  have hp : ∀ k < 4, pdpte (setEntryAt m (page q) (BitVec.ofNat 32 i) e) self k = pdpte m self k :=
    fun k hk => pdpte_frame hb hag hk
  refine ⟨h.placed.step fun n hn hfree => ?_, fun k hk h0 => ?_,
    .inr ⟨q, hd.lt, ha, ?_, fun j => ?_⟩⟩
  · rwa [(offRegion_setEntryAt m hd.lt i e).tracked hL hn] at hfree
  · rw [hp k hk]
    exact h.rest k hk h0
  · rw [hp 0 (by decide)]
    exact hd.link
  · rw [entry_setEntryAt hd.lt hd.lt]
    by_cases hj : j = i
    · rw [if_pos ⟨rfl, hj⟩, hj, Function.update_self]
      exact he
    · rw [if_neg fun hc => hj hc.2, Function.update_of_ne hj]
      exact hd.maps j

theorem Walked.new (h : Walked tr self m dir) (hnone : ∀ i, dir i = none) {m₁ : Mem}
    (hq : q < 256) (hfree : tracked tr m q = false) (ha : alloc tr m = .ok (page q, m₁))
    (htrk₁ : ∀ k < 256, tracked tr m₁ k = if k = q then true else tracked tr m k)
    (hrow : ∀ j, entry m₁ (page q).addr j = 0) (i : Fin 512) {e : Word} {o : Option Word}
    (he : MapsTo e o) :
    Walked tr self (setEntryAt (setEntryAt m₁ (page q) (BitVec.ofNat 32 i) e) self (BitVec.ofNat 32 0)
      ((page q).setWidth 64 ||| 1)) (Function.update dir i o) := by
  have hL := h.placed.tracker
  have hb := h.placed.bound
  have hpt := h.placed.apart
  have hap := h.placed.owned q hq hfree
  have hqa := page_addr_toNat hq
  have hi := i.isLt
  have hself : ∀ (m : Mem) (x : Word), setEntryAt m self (BitVec.ofNat 32 0) x =
      m.store64 (adr self.toNat) x := by
    intro m x
    rw [setEntryAt, pdpte_addr hb (by decide)]
    rfl
  have hag : Mem.EqOn m (setEntryAt m₁ (page q) (BitVec.ofNat 32 i) e) self.toNat
      (self.toNat + 32) := by
    refine (alloc_frame hL hq ha (by omega) (by omega) (by omega)).trans ?_
    rw [setEntryAt_page m₁ hq]
    exact Mem.EqOn.store64 m₁ e (by omega) (by omega) (by omega)
  have hent : ∀ j, entry (setEntryAt m₁ (page q) (BitVec.ofNat 32 i) e) (page q).addr j =
      if j = i then e else 0 := by
    intro j
    rw [entry_setEntryAt hq hq, hrow]
    simp only [true_and]
  have htrk : ∀ n < 256, tracked tr (setEntryAt m₁ (page q) (BitVec.ofNat 32 i) e) n = false →
      tracked tr m n = false := by
    intro n hn hf
    rw [(offRegion_setEntryAt m₁ hq i e).tracked hL hn, htrk₁ n hn] at hf
    by_cases hnq : n = q
    · rw [hnq]
      exact hfree
    · rwa [if_neg hnq] at hf
  generalize setEntryAt m₁ (page q) (BitVec.ofNat 32 i) e = m₂ at *
  rw [hself]
  have hpd : ∀ k < 4, pdpte (m₂.store64 (adr self.toNat) ((page q).setWidth 64 ||| 1)) self k =
      if k = 0 then (page q).setWidth 64 ||| 1 else pdpte m self k := by
    intro k hk
    by_cases h0 : k = 0
    · rw [if_pos h0, h0, pdpte, entryAt, pdpte_addr hb (by decide)]
      exact Mem.load64_store64 ..
    · rw [if_neg h0, ← pdpte_frame hb hag hk]
      unfold pdpte entryAt
      rw [pdpte_addr hb hk]
      exact Mem.load64_store64_ne m₂ _ (by omega) (by omega) (by omega)
  refine ⟨h.placed.step fun n hn hf => htrk n hn ?_, fun k hk h0 => ?_,
    .inr ⟨q, hq, hap, ?_, fun j => ?_⟩⟩
  · have hout : Mem.EqOn m₂ (m₂.store64 (adr self.toNat) ((page q).setWidth 64 ||| 1)) tr.toNat
        (tr.toNat + 32) := Mem.EqOn.store64 m₂ _ (by omega) (by omega) (by omega)
    rwa [tracked_frame hout hn] at hf
  · rw [hpd k hk, if_neg h0]
    exact h.rest k hk h0
  · rw [hpd 0 (by decide), if_pos rfl]
    exact L2.Paging.nx_or (page_aligned hq) (by decide) (by decide)
  · have hj := j.isLt
    have hload : entry (m₂.store64 (adr self.toNat) ((page q).setWidth 64 ||| 1)) (page q).addr j =
        entry m₂ (page q).addr j :=
      Mem.load64_store64_ne m₂ _ (by omega) (by omega) (by omega)
    rw [hload, hent]
    by_cases hji : j = i
    · rw [if_pos hji, hji, Function.update_self]
      exact he
    · rw [if_neg hji, Function.update_of_ne hji, hnone]
      rfl

theorem Walked.map (h : Walked tr self m dir) (hv : v.toNat < 2 ^ 32) {p : Word}
    (hp : p &&& 0x1FFFFF = 0) {flags : BitVec 32} (hf : flags.toNat < 2 ^ 12)
    (he : Pdpt.map tr m self v p flags = .ok m') :
    Walked tr self m' (Function.update dir (pdIx v) (some p)) := by
  have hmaps : MapsTo (p ||| flags.setWidth 64 ||| 0x81) (some p) := bigPage_flags hp hf
  unfold Pdpt.map at he
  dsimp only at he
  rw [entryAt_pdptIndex m self hv, pdptIndex_zero hv, pdIndex_eq] at he
  rcases h.first with ⟨h0, hnone⟩ | ⟨q, hd⟩
  · rw [if_neg (not_not.mpr h0)] at he
    obtain ⟨q, hq, hfree, m₁, ha, -, htrk, hrow, he⟩ :=
      alloc_then h.placed.tracker (fun _ h => by cases h) he
    dsimp only at he
    rw [Res.assert_of (page_ne_fail hq), Res.ok_bind] at he
    obtain rfl := Except.ok.inj he
    exact h.new hnone hq hfree ha htrk (fun j => (hrow q hq j).trans (if_pos rfl)) (pdIx v) hmaps
  · rw [if_pos hd.present, tableOf_page hd.link] at he
    obtain rfl := Except.ok.inj he
    exact h.set hd (pdIx v) hmaps

theorem Walked.unmap (h : Walked tr self m dir) (hv : v.toNat < 2 ^ 32) :
    Walked tr self (Pdpt.unmap m self v) (Function.update dir (pdIx v) none) := by
  unfold Pdpt.unmap
  dsimp only
  rw [entryAt_pdptIndex m self hv, pdIndex_eq]
  rcases h.first with ⟨h0, hnone⟩ | ⟨q, hd⟩
  · have hsame : Function.update dir (pdIx v) none = dir := by
      rw [← hnone (pdIx v)]
      exact Function.update_eq_self _ _
    rw [if_neg (not_not.mpr h0), hsame]
    exact h
  · rw [if_pos hd.present, tableOf_page hd.link]
    exact h.set hd (pdIx v) rfl

/-- The processor finds the first directory below 1 GiB, and nothing above. -/
theorem Walked.finds (h : Walked tr self m dir) (va : Ptr) : Finds m self va
    (if va.toNat < 2 ^ 30 then dir (Fin.ofNat 512 (va.toNat / 2 ^ 21)) else none) := by
  have hlt := va.isLt
  have hload : entryAt m self (va >>> 30) = pdpte m self (va.toNat / 2 ^ 30) := by
    rw [pdpte_index, pdpte]
  have habsent : entryAt m self (va >>> 30) &&& 1 = 0 → Finds m self va none := by
    intro h0
    unfold Finds presentEntry
    dsimp only
    rw [if_neg (not_not.mpr h0)]
  by_cases hge : va.toNat < 2 ^ 30
  · have hzero : va.toNat / 2 ^ 30 = 0 := by omega
    rw [if_pos hge]
    rw [hzero] at hload
    rcases h.first with ⟨h0, hnone⟩ | ⟨q, hd⟩
    · rw [hnone]
      exact habsent (by rw [hload, h0])
    · have hpde : entryAt m (tableOf (entryAt m self (va >>> 30))) ((va >>> 21) &&& 0x1FF) =
          entry m (page q).addr (Fin.ofNat 512 (va.toNat / 2 ^ 21)) := by
        rw [hload, tableOf_page hd.link, pde_index]
        exact entryAt_page m hd.lt (Fin.ofNat 512 (va.toNat / 2 ^ 21))
      have hmaps := hd.maps (Fin.ofNat 512 (va.toNat / 2 ^ 21))
      have hpr := hd.present
      rw [← hload] at hpr
      cases hdir : dir (Fin.ofNat 512 (va.toNat / 2 ^ 21)) with
      | none =>
        have habs : entry m (page q).addr _ &&& 1 = 0 := (congrArg (MapsTo _) hdir).mp hmaps
        unfold Finds presentEntry
        dsimp only
        rw [if_pos hpr, hpde, if_neg (not_not.mpr habs)]
      | some p =>
        have hbig : bigPage _ = some p := (congrArg (MapsTo _) hdir).mp hmaps
        unfold Finds translate
        dsimp only
        rw [if_pos hpr, hpde, hbig, Option.map_some]
  · rw [if_neg hge]
    refine habsent ?_
    rw [hload]
    exact h.rest _ (by omega) (by omega)

end Tables

/-! ## Runs -/

/-- What a run of `Low` calls keeps: the directory is the ghost map. -/
structure Held (tr pdpt : Ptr) (st : PaeSt) : Prop where
  walked : Walked tr pdpt st.mem (fun i => st.last i)
  high : ∀ k, 512 ≤ k → st.last k = none

section Runs
variable {tr self : Ptr} {st st' : PaeSt} {op : PaeOp}

theorem pdIx_mod (v : Word) : (pdIx v).val = v.toNat / 2 ^ 21 % 512 := rfl

theorem update_dir (last : Nat → Option Word) {v : Word} (hv : v.toNat < 2 ^ 30)
    (o : Option Word) : Function.update (fun i : Fin 512 => last i) (pdIx v) o =
      fun i : Fin 512 => Function.update last (v.toNat / 2 ^ 21) o i := by
  have hix : (pdIx v).val = v.toNat / 2 ^ 21 := by
    rw [pdIx_mod]
    omega
  funext i
  by_cases hi : i = pdIx v
  · rw [hi, Function.update_self, hix, Function.update_self]
  · have hne : i.val ≠ v.toNat / 2 ^ 21 := fun hc => hi (Fin.ext (hc.trans hix.symm))
    rw [Function.update_of_ne hi, Function.update_of_ne hne]

theorem Held.agrees (h : Held tr self st) : Agrees self st := by
  intro va
  have hlt := va.isLt
  have hfinds := h.walked.finds va
  by_cases hlow : va.toNat < 2 ^ 30
  · have hmod : va.toNat / 2 ^ 21 % 512 = va.toNat / 2 ^ 21 := by omega
    rw [if_pos hlow] at hfinds
    have hlast : st.last (Fin.ofNat 512 (va.toNat / 2 ^ 21)) = st.last (va.toNat / 2 ^ 21) :=
      congrArg st.last hmod
    rwa [hlast] at hfinds
  · rw [if_neg hlow] at hfinds
    rwa [h.high _ (by omega)]

theorem Held.init (h₀ : (paeRuns tr self).init st) : Held tr self st := by
  obtain ⟨hplaced, hzero, hlast⟩ := h₀
  refine ⟨⟨hplaced, fun i hi _ => ?_, .inl ⟨?_, fun i => hlast i⟩⟩, fun k _ => hlast k⟩
  · rw [hzero i hi]
    rfl
  · rw [hzero 0 (by decide)]
    rfl

/-- A call for an address below 1 GiB changes the place of its page only. -/
theorem Held.put (h : Held tr self st) {m' : Mem} {v : Word} {o : Option Word}
    (hv : v.toNat < 2 ^ 30)
    (hw : Walked tr self m' (Function.update (fun i : Fin 512 => st.last i) (pdIx v) o)) :
    Held tr self ⟨m', Function.update st.last (v.toNat / 2 ^ 21) o⟩ := by
  rw [update_dir st.last hv] at hw
  refine ⟨hw, fun k hk => ?_⟩
  have hne : k ≠ v.toNat / 2 ^ 21 := by omega
  exact (Function.update_of_ne hne ..).trans (h.high k hk)

/-- A `Low` call keeps the invariant. -/
theorem Held.step (h : Held tr self st) (hst : (paeRuns tr self).step st op st')
    (hlow : Low st op) : Held tr self st' := by
  obtain ⟨hval, hex⟩ := hst
  cases op with
  | map v p flags =>
    obtain ⟨hv, hp, hf⟩ := hval
    obtain ⟨m', hm, hex⟩ := Res.bind_eq_ok.mp hex
    obtain rfl := Except.ok.inj hex
    exact h.put hlow (h.walked.map hv hp hf hm)
  | unmap v =>
    have hv : v.toNat < 2 ^ 32 := hval
    obtain rfl := Except.ok.inj hex
    by_cases hl : v.toNat < 2 ^ 30
    · exact h.put hl (h.walked.unmap hv)
    · -- neither the directory nor the ghost map has an entry to lose
      have hnone : st.last (v.toNat / 2 ^ 21 % 512) = none := hlow.resolve_left hl
      have hw := h.walked.unmap hv
      rw [show none = (fun i : Fin 512 => st.last i) (pdIx v) from hnone.symm,
        Function.update_eq_self] at hw
      have hlast : Function.update st.last (v.toNat / 2 ^ 21) none = st.last := by
        rw [← h.high (v.toNat / 2 ^ 21) (by omega)]
        exact Function.update_eq_self _ _
      rw [hlast]
      exact ⟨hw, h.high⟩

/-- A call that is not `Low` breaks the agreement. -/
theorem Held.low_of_agrees (h : Held tr self st) (hst : (paeRuns tr self).step st op st')
    (ha : Agrees self st') : Low st op := by
  obtain ⟨hval, hex⟩ := hst
  by_contra hlow
  cases op with
  | map v p flags =>
    obtain ⟨hv, hp, hf⟩ := hval
    obtain ⟨m', hm, hex⟩ := Res.bind_eq_ok.mp hex
    obtain rfl := Except.ok.inj hex
    -- the page that was mapped is not found
    have hge : ¬ v.toNat < 2 ^ 30 := hlow
    have hva : (v.setWidth 32).toNat = v.toNat := by
      rw [BitVec.toNat_setWidth]
      omega
    have h1 := (h.walked.map hv hp hf hm).finds (v.setWidth 32)
    have h2 := ha (v.setWidth 32)
    rw [hva, if_neg hge] at h1
    dsimp only at h2
    rw [hva, Function.update_self] at h2
    exact h2.some_none h1
  | unmap v =>
    have hv : v.toNat < 2 ^ 32 := hval
    obtain rfl := Except.ok.inj hex
    obtain ⟨hge, hsome⟩ := not_or.mp hlow
    obtain ⟨p, hp⟩ := Option.ne_none_iff_exists'.mp hsome
    -- the page below 1 GiB with the same place is lost
    have hva : (BitVec.ofNat 32 (v.toNat / 2 ^ 21 % 512 * 2 ^ 21)).toNat =
        v.toNat / 2 ^ 21 % 512 * 2 ^ 21 := by
      rw [BitVec.toNat_ofNat]
      omega
    have hdiv : v.toNat / 2 ^ 21 % 512 * 2 ^ 21 / 2 ^ 21 = v.toNat / 2 ^ 21 % 512 := by omega
    have hix : Fin.ofNat 512 (v.toNat / 2 ^ 21 % 512) = pdIx v := by
      rw [Fin.ext_iff, pdIx_mod]
      exact Nat.mod_mod ..
    have h1 := (h.walked.unmap hv).finds (BitVec.ofNat 32 (v.toNat / 2 ^ 21 % 512 * 2 ^ 21))
    have h2 := ha (BitVec.ofNat 32 (v.toNat / 2 ^ 21 % 512 * 2 ^ 21))
    rw [hva, if_pos (by omega), hdiv, hix, Function.update_self] at h1
    dsimp only at h2
    rw [hva, hdiv, Function.update_of_ne (by omega), hp] at h2
    exact h2.some_none h1

end Runs

/-! ## Main result -/

/-- **Runs of the loader's own mapping.** After every call of a run the walk
finds, for every 32-bit address, what the last call for its page gave it,
exactly when every call of the run is for an address below 1 GiB or is an
`unmap` that has nothing to clear there. -/
theorem agrees_iff {tr self : Ptr} {st₀ : PaeSt} {run : List (PaeOp × PaeSt)}
    (h₀ : (paeRuns tr self).init st₀) (hrun : (paeRuns tr self).Trace st₀ run) :
    (∀ x ∈ run, Agrees self x.2) ↔ LTS.Meets Low st₀ run :=
  LTS.forall_iff_meets (paeRuns tr self) (fun _ h => h.agrees)
    (fun _ _ _ h hst hlow => h.step hst hlow) (fun _ _ _ h hst ha => h.low_of_agrees hst ha)
    st₀ run (Held.init h₀) hrun

/-- The loader's own table, empty. -/
def emptyPdpt : PaeSt where
  mem := Pdpt.init (setAlloc 0x300000 ⟨fun _ => 0⟩ 0x100000) 0x100000
  last := fun _ => none

theorem emptyPdpt_init : (paeRuns 0x300000 0x100000).init emptyPdpt := by
  have hlow : tracked 0x300000 emptyPdpt.mem 0 = true := by decide +kernel
  refine ⟨⟨⟨by decide, by decide⟩, by decide, by decide, by decide, fun n hn hfree => ?_⟩,
    by decide +kernel, fun _ => rfl⟩
  have h0 : n ≠ 0 := by
    rintro rfl
    exact Bool.false_ne_true (hfree.symm.trans hlow)
  have hself : (0x100000 : Ptr).toNat = 0x100000 := rfl
  unfold Apart
  omega

theorem emptyPdpt_map (op : PaeOp) (hval : op.Valid)
    (hok : (emptyPdpt.exec 0x300000 0x100000 op).isOk = true) :
    ∃ st, (paeRuns 0x300000 0x100000).Trace emptyPdpt [(op, st)] := by
  cases hex : emptyPdpt.exec 0x300000 0x100000 op with
  | ok st => exact ⟨st, ⟨hval, hex⟩, trivial⟩
  | error e =>
    rw [hex] at hok
    cases hok

/-- Two pages are mapped, the first and the last of a directory, and one is
unmapped again. -/
theorem agrees_below : ∃ st₁ st₂ st₃, (paeRuns 0x300000 0x100000).Trace emptyPdpt
    [(.map 0x200000 0x400000 0x80, st₁), (.map 0x3FE00000 0x800000 0x80, st₂),
      (.unmap 0x200000, st₃)] ∧ Agrees 0x100000 st₃ := by
  have h : (match emptyPdpt.exec 0x300000 0x100000 (.map 0x200000 0x400000 0x80) with
      | .ok st₁ => match st₁.exec 0x300000 0x100000 (.map 0x3FE00000 0x800000 0x80) with
        | .ok st₂ => (st₂.exec 0x300000 0x100000 (.unmap 0x200000)).isOk
        | .error _ => false
      | .error _ => false) = true := by decide +kernel
  split at h
  · rename_i st₁ h₁
    split at h
    · rename_i st₂ h₂
      cases h₃ : st₂.exec 0x300000 0x100000 (.unmap 0x200000) with
      | ok st₃ =>
        have hrun : (paeRuns 0x300000 0x100000).Trace emptyPdpt
            [(.map 0x200000 0x400000 0x80, st₁), (.map 0x3FE00000 0x800000 0x80, st₂),
              (.unmap 0x200000, st₃)] :=
          ⟨⟨by decide, h₁⟩, ⟨by decide, h₂⟩, ⟨by decide, h₃⟩, trivial⟩
        have hall := (agrees_iff emptyPdpt_init hrun).mpr
          ⟨by decide, show (0x3FE00000 : Ptr).toNat < 2 ^ 30 by decide, .inl (by decide), trivial⟩
        exact ⟨st₁, st₂, st₃, hrun, hall (_, st₃) (.tail _ (.tail _ (.head _)))⟩
      | error e =>
        rw [h₃] at h
        cases h
    · cases h
  · cases h

/-- **The first GiB only.** A page mapped at 1 GiB is not found there. -/
theorem above_first : ¬ ∀ (tr self : Ptr) (st₀ : PaeSt) (run : List (PaeOp × PaeSt)),
    (paeRuns tr self).init st₀ → (paeRuns tr self).Trace st₀ run →
      ∀ x ∈ run, Agrees self x.2 := by
  intro hall
  obtain ⟨st, hrun⟩ := emptyPdpt_map (.map 0x40000000 0x400000 0x80) (by decide) (by decide +kernel)
  have ha := hall _ _ _ _ emptyPdpt_init hrun _ (List.mem_singleton.mpr rfl)
  have hlow := (Held.init emptyPdpt_init).low_of_agrees hrun.1 ha
  exact absurd hlow (by decide)

end X64k.L3.Loader
