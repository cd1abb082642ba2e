import X64k.Core.Objects
import X64k.Core.Program
import X64k.L2Paging.Pool
import X64k.L4Mm.Canonical

/-!
# Blocks as memory

What the owner of a set of tables makes of `mm::alloc` and `mm::free`: bytes,
stored and loaded at virtual addresses. Every access is translated by the
tables, which lie in the same memory.

`Promise` is the owner's part: only blocks that are live are freed or accessed,
and within their bounds; a `free` leaves the page directories a reference; no
more pages are asked for than slots of physical memory are clear. The last two
are the conditions without which blocks are lost or frames given out twice.

* `Space.Inv`: live blocks are backed by frames that are theirs alone and that
  hold no tables.
* `space_objects`: blocks keep what is stored in them, in every run.
-/
namespace X64k.L4.Mm

open X64k.Core X64k.Core.Radix X64k.L2.Paging

/-! ## Footprints -/

section Footprints
variable {s : Statics} {R : Set Word} {p v f n : Word} {m m' : Mem} {flags : BitVec 32}

theorem bindFrom_confined (hp : p ∈ R) (hv : v &&& 0x1FFFFF = 0) :
    ∀ (P : List Word) (i : Nat) {m m' : Mem}, Sound s R m →
      v.toNat + 0x200000 * (i + P.length) < 2 ^ 48 → (∀ a ∈ P, a &&& 0x1FFFFF = 0) →
      (∀ j < P.length, Pml4.get m p (blockPage v (i + j)) = none) →
      bindFrom s p v f i P m = .ok m' → Confined s (tablePages s R) m m'
  | [], i, m, m', _, _, _, _, he => by
    obtain rfl := Except.ok.inj he
    exact .refl _ _ _
  | a :: P, i, m, m', h, hlt, hP, hnone, he => by
    rw [List.length_cons] at hlt
    have hcan : Canonical (blockPage v i) := blockPage_canonical hv (by omega)
    obtain ⟨m₁, hmap, he⟩ := Res.bind_eq_ok.mp he
    rcases h.map (f := f) hp hcan (hP a List.mem_cons_self) (hnone 0 (Nat.zero_lt_succ _)) with
      ⟨msg, hfail, -⟩ | ⟨m₂, hok, h₁, hadd⟩
    · rw [hfail] at hmap
      cases hmap
    obtain rfl := Except.ok.inj (hok.symm.trans hmap)
    refine (h.map_confined hp hcan.1 hmap).trans (bindFrom_confined hp hv P (i + 1) h₁ (by omega)
      (fun b hb => hP b (List.mem_cons_of_mem a hb)) (fun j hj => ?_) he)
    -- the pages still to be bound are other pages
    have hcan' : Canonical (blockPage v (i + 1 + j)) := blockPage_canonical hv (by omega)
    have hnone' := hnone (j + 1) (Nat.succ_lt_succ hj)
    rw [show i + (j + 1) = i + 1 + j by omega] at hnone'
    rw [hadd.miss p hp _ hcan'.1, hnone']
    intro heq
    have := blockPage_inj (by omega) (by omega) (Prod.mk.inj heq).2
    omega

/-- Freeing writes to bits and counters only, and sets no bit. -/
theorem freeFrom_confined (hL : Layout s) (hD : Domain s (tablePages s R)) (hp : p ∈ R) :
    ∀ (n i : Nat) {m m' : Mem}, InRange s m R →
      (∀ j, i ≤ j → j < i + n → (blockPage v j).toNat < 2 ^ 48) →
      freeFrom s p v n i m = .ok m' → Confined s ∅ m m' ∧ Releases s m m'
  | 0, _, m, m', _, _, he => by
    obtain rfl := Except.ok.inj he
    exact ⟨.refl _ _ _, .refl _ _⟩
  | n + 1, i, m, m', hI, hv, he => by
    unfold freeFrom at he
    split at he
    · obtain ⟨⟨b, m₁⟩, hu, he⟩ := Res.bind_eq_ok.mp he
      have hvi := hv i (Nat.le_refl _) (by omega)
      have h₁ := unmap_confined (P := ∅) hL hI hp hvi hu
      obtain ⟨h₂, h₃⟩ := freeFrom_confined hL hD hp n (i + 1) (hI.keep hD h₁)
        (fun j h1 h2 => hv j (by omega) (by omega)) he
      exact ⟨h₁.trans h₂, (unmap_releases hL hD hI hp hvi hu).trans h₃⟩
    · cases he

/-- What a call of `alloc` has done that returned the block at `v`. -/
structure Given (s : Statics) (R : Set Word) (st st' : Machine) (p v n : Word) (flags : BitVec 32)
    (ks : List Nat) : Prop where
  few : 0 < n.toNat ∧ n.toNat ≤ 32
  first : FirstVacant st.mem p v n.toNat
  count : ks.length = n.toNat
  pages : allocPhysicalPages st.phys n = .ok (some (ks.map physPage), st'.phys)
  taken : Taken n 3 0 st.phys ks
  phys : st'.phys = markAll st.phys ks
  sound : Sound s R st'.mem
  binds : Binds R st.mem st'.mem p v (flags.setWidth 64) 0 (ks.map physPage)
  confined : Confined s (tablePages s R) st.mem st'.mem

/-- Where the pages of a returned block come from. -/
theorem alloc_pages {st st' : Machine} (he : alloc s st p n flags = .ok (some v, st')) :
    ∃ P, allocPhysicalPages st.phys n = .ok (some P, st'.phys) ∧
      bindFrom s p v (flags.setWidth 64) 0 P st.mem = .ok st'.mem := by
  unfold alloc at he
  split at he
  · cases he
  obtain ⟨⟨⟩, -, he⟩ := Res.bind_eq_ok.mp he
  obtain ⟨o, -, he⟩ := Res.bind_eq_ok.mp he
  cases o with
  | none => cases he
  | some v' =>
    obtain ⟨⟨pr, t⟩, ha, he⟩ := Res.bind_eq_ok.mp he
    cases pr with
    | none => cases he
    | some P =>
      obtain ⟨m', hb, he⟩ := Res.bind_eq_ok.mp he
      obtain ⟨hv, rfl⟩ := Prod.mk.inj (Except.ok.inj he)
      obtain rfl := Option.some.inj hv
      exact ⟨P, ha, hb⟩

/-- With enough slots clear, a call that returns nothing changes nothing. -/
theorem alloc_outcome {st st' : Machine} {r : Option Word} (h : Sound s R st.mem) (hp : p ∈ R)
    (hroom : n.toNat ≤ (clearSlots st.phys).card) (he : alloc s st p n flags = .ok (r, st')) :
    r = none ∧ st' = st ∨ ∃ v ks, r = some v ∧ Given s R st st' p v n flags ks := by
  cases r with
  | none =>
    refine .inl ⟨rfl, ?_⟩
    unfold alloc at he
    split at he
    · cases he
      rfl
    obtain ⟨⟨⟩, -, he⟩ := Res.bind_eq_ok.mp he
    obtain ⟨o, -, he⟩ := Res.bind_eq_ok.mp he
    cases o with
    | none =>
      cases he
      rfl
    | some v =>
      obtain ⟨ks, ha, -⟩ := alloc_fits hroom
      rw [ha] at he
      obtain ⟨⟨pr, t⟩, hok, he⟩ := Res.bind_eq_ok.mp he
      cases hok
      obtain ⟨m, -, he⟩ := Res.bind_eq_ok.mp he
      cases he
  | some v =>
    obtain ⟨hn0, hn, -⟩ := alloc_inv he
    obtain ⟨-, hfirst, -⟩ := alloc_extends h hp he
    obtain ⟨P, hP, hb⟩ := alloc_pages he
    obtain ⟨ks, ha, hT, hlen⟩ := alloc_fits hroom
    obtain ⟨hPks, hphys⟩ := Prod.mk.inj (Except.ok.inj (hP.symm.trans ha))
    obtain rfl := Option.some.inj hPks
    have hV := hfirst.vacant
    have hend : rangeEnd.toNat = 0xFFFF00000000 := rfl
    have hbelow := hV.below
    have hlen' : (ks.map physPage).length = n.toNat := by rw [List.length_map, hlen]
    have hfree : ∀ j < (ks.map physPage).length, Pml4.get st.mem p (blockPage v (0 + j)) = none :=
      fun j hj => by
        rw [Nat.zero_add]
        exact hV.unmapped j (by omega)
    have hpos : 0 < n.toNat := Nat.pos_of_ne_zero fun h0 => hn0 (BitVec.eq_of_toNat_eq h0)
    have hc := bindFrom_confined hp hV.aligned _ 0 h (by omega) (fun a ha => (hT.frames a ha).1)
      hfree hb
    rcases bindFrom_spec (f := flags.setWidth 64) hp hV.aligned (ks.map physPage) 0 st.mem h
        (by omega) (fun a ha => (hT.frames a ha).1) hfree with
      ⟨msg, hfail, -⟩ | ⟨m', hok, h', hB⟩
    · rw [hfail] at hb
      cases hb
    · obtain rfl := Except.ok.inj (hok.symm.trans hb)
      exact .inr ⟨v, ks, rfl, ⟨hpos, hn⟩, hfirst, hlen, hP, hT, hphys, h', hB, hc⟩

end Footprints

/-! ## Translation -/

/-- The processor's translation below the table at `root`, for the kernel: in
the lower half of the address space what `Pml4::get` reads. No permission is
checked: the kernel is privileged and CR0.WP is never set. -/
def translate (root : Word) : Prog.Trans := fun m a =>
  if a.toNat < 2 ^ 47 then Pml4.get m root a else none

/-- The place of an address. -/
def place (root : Word) (m : Mem) (a : Word) : Word := (translate root m a).getD 0

/-- The memory as the kernel sees it. -/
def seen (root : Word) (m : Mem) : Mem := ⟨fun a => m (place root m a)⟩

/-- Tables, bitmap and counters lie between 1 and 4 MiB. -/
structure LowTables (s : Statics) (root : Word) : Prop where
  within : ∀ y < 2 ^ 64, ¬ Elsewhere s (tablePages s {root}) y → 0x100000 ≤ y ∧ y < 0x400000
  pages : s.pages ≤ 1023

theorem LowTables.high {s : Statics} {root : Word} (h : LowTables s root) {y : Nat}
    (hy : 0x400000 ≤ y) (hlt : y < 2 ^ 64) : Elsewhere s (tablePages s {root}) y := by
  by_contra hno
  have := h.within y hlt hno
  omega

/-! ## The system -/

structure Space where
  machine : Machine
  /-- The frames of the live blocks, by their starts. -/
  live : Word → Option (List Word)

namespace Space

inductive Call where
  | alloc (n : Word) (flags : BitVec 32)
  | free (start n : Word)
  | store (p i : Word) (v : Byte)
  | load (p i : Word)
  deriving DecidableEq, Repr

/-- The frames of the block's pages, as the tables have them. -/
def framesAt (m : Mem) (root start : Word) (n : Nat) : List Word :=
  (List.range n).map fun i => place root m (blockPage start i)

def put (live : Word → Option (List Word)) (p : Word) (v : Option (List Word)) :
    Word → Option (List Word) := fun q => if q = p then v else live q

/-- The state after `r` has been handed out with `n` pages. -/
def grant (root : Word) (st : Space) (mach : Machine) (n : Word) : Option Word → Space
  | some v => ⟨mach, put st.live v (some (framesAt mach.mem root v n.toNat))⟩
  | none => { st with machine := mach }

/-- The state with another memory. -/
def withMem (st : Space) (m : Mem) : Space := { st with machine := { st.machine with mem := m } }

def call (s : Statics) (root : Word) (st : Space) : Call → Res (Ans × Space)
  | .alloc n flags => do
    let (r, mach) ← Mm.alloc s st.machine root n flags
    .ok (.addr r, st.grant root mach n r)
  | .free start n => do
    let mach ← Mm.free s st.machine root start n
    .ok (.done, ⟨mach, put st.live start none⟩)
  | .store p i v => do
    let m ← Prog.storeVia (translate root) 1 st.machine.mem (p + i) v.toNat
    .ok (.done, st.withMem m)
  | .load p i => do
    let v ← Prog.loadVia (translate root) st.machine.mem 1 (p + i)
    .ok (.byte (BitVec.ofNat 8 v), st)

/-- How long the live blocks are. -/
def sizes (live : Word → Option (List Word)) (p : Word) : Option Nat :=
  (live p).map fun P => 0x200000 * P.length

/-- The owner's side of a call. -/
def Promise (s : Statics) (root : Word) (st : Space) : Call → Prop
  | .alloc n flags => flags ≤ AF_RW ||| AF_USER ∧
      n.toNat ≤ (clearSlots st.machine.phys).card
  | .free start n => (∃ P, st.live start = some P ∧ P.length = n.toNat) ∧
      Spares s ⟨st.machine, []⟩ (.free root start n)
  | .store p i _ => ∃ k, sizes st.live p = some k ∧ i.toNat < k
  | .load p i => ∃ k, sizes st.live p = some k ∧ i.toNat < k

/-- On the memory `m`, with all physical memory free and no block yet. -/
def space (s : Statics) (root : Word) (m : Mem) : LTS Space (Call × Ans) where
  init st := st.machine = ⟨m, init⟩ ∧ st.live = fun _ => none
  step st c st' := Promise s root st c.1 ∧ call s root st c.1 = .ok (c.2, st')

/-- The live blocks and the bytes in them. -/
def objects (root : Word) (st : Space) : Objects Byte :=
  Objects.ofMem 0x80000000 (2 ^ 47) (seen root st.machine.mem) (sizes st.live)

def event : Call × Ans → Objects.Event Byte
  | (.alloc n _, a) => .alloc (0x200000 * n.toNat) a.ptr
  | (.free p _, _) => .free p.toNat
  | (.store p i v, _) => .store p.toNat i.toNat v
  | (.load p i, a) => .load p.toNat i.toNat a.val

/-! ## The invariant -/

/-- The block at `p` has the frames `P`: its pages are bound to them, in the
lower half, and they are different 2 MiB pages from 0x600000 on. -/
structure Backed (root : Word) (m : Mem) (p : Word) (P : List Word) : Prop where
  aligned : p.toNat % 0x200000 = 0
  above : 0x80000000 ≤ p.toNat
  below : p.toNat + 0x200000 * P.length ≤ 2 ^ 47
  nonempty : P ≠ []
  nodup : P.Nodup
  frames : ∀ a ∈ P, ∃ k, 3 ≤ k ∧ k < 32768 ∧ a = physPage k
  bound : ∀ i a, P[i]? = some a → ∀ off < 0x200000,
    Pml4.get m root (adr (p.toNat + 0x200000 * i + off)) = some (adr (a.toNat + off))

structure Inv (s : Statics) (root : Word) (st : Space) : Prop where
  sound : Sound s {root} st.machine.mem
  backed : ∀ p P, st.live p = some P → Backed root st.machine.mem p P
  apart : ∀ p P q Q, st.live p = some P → st.live q = some Q → p ≠ q → P.Disjoint Q ∧
    Apart p.toNat (0x200000 * P.length) q.toNat (0x200000 * Q.length)
  taken : ∀ p P, st.live p = some P → ∀ k < 32768, physPage k ∈ P →
    ¬ Clear st.machine.phys (slot k)

/-- The addresses of the live blocks. -/
def Area (live : Word → Option (List Word)) (x : Word) : Prop :=
  ∃ p P, live p = some P ∧ p.toNat ≤ x.toNat ∧ x.toNat < p.toNat + 0x200000 * P.length

section Backed
variable {root p : Word} {m m' : Mem} {P : List Word}

theorem Backed.at_ (h : Backed root m p P) {y : Nat} (h1 : p.toNat ≤ y)
    (h2 : y < p.toNat + 0x200000 * P.length) :
    ∃ a ∈ P, P[(y - p.toNat) / 0x200000]? = some a ∧
      translate root m (adr y) = some (adr (a.toNat + (y - p.toNat) % 0x200000)) := by
  have hb := h.below
  have hi : (y - p.toNat) / 0x200000 < P.length := by
    omega
  refine ⟨P[(y - p.toNat) / 0x200000], List.getElem_mem hi, List.getElem?_eq_getElem hi, ?_⟩
  have hbound := h.bound _ _ (List.getElem?_eq_getElem hi) _ (Nat.mod_lt (y - p.toNat) (by decide))
  have hy : p.toNat + 0x200000 * ((y - p.toNat) / 0x200000) + (y - p.toNat) % 0x200000 = y := by
    have := Nat.div_add_mod (y - p.toNat) 0x200000
    omega
  rw [hy] at hbound
  rw [translate, if_pos (by rw [adr_toNat (by omega)]; omega), hbound]

theorem Backed.mapped (h : Backed root m p P) {y : Nat} (h1 : p.toNat ≤ y)
    (h2 : y < p.toNat + 0x200000 * P.length) : Pml4.get m root (adr y) ≠ none := by
  obtain ⟨a, -, -, ht⟩ := h.at_ h1 h2
  intro hno
  rw [translate] at ht
  split at ht
  · rw [hno] at ht
    cases ht
  · cases ht

/-- No byte of a block is in the first 6 MiB. -/
theorem Backed.high (h : Backed root m p P) {y : Nat} (h1 : p.toNat ≤ y)
    (h2 : y < p.toNat + 0x200000 * P.length) :
    ∃ z, translate root m (adr y) = some (adr z) ∧ 0x600000 ≤ z ∧ z < 0x1000000000 := by
  obtain ⟨a, ha, -, ht⟩ := h.at_ h1 h2
  obtain ⟨k, hk3, hk, rfl⟩ := h.frames a ha
  rw [physPage_toNat hk] at ht
  have := Nat.mod_lt (y - p.toNat) (show 0 < 0x200000 by decide)
  exact ⟨_, ht, by omega, by omega⟩

theorem Backed.keep (h : Backed root m p P) (hget : ∀ y, p.toNat ≤ y →
    y < p.toNat + 0x200000 * P.length → Pml4.get m' root (adr y) = Pml4.get m root (adr y)) :
    Backed root m' p P := by
  refine ⟨h.aligned, h.above, h.below, h.nonempty, h.nodup, h.frames, fun i a hi off hoff => ?_⟩
  have hlt := (List.getElem?_eq_some_iff.mp hi).1
  have : 0x200000 * (i + 1) ≤ 0x200000 * P.length := Nat.mul_le_mul_left _ hlt
  rw [hget _ (by omega) (by omega)]
  exact h.bound i a hi off hoff

/-- What the kernel sees of the block when its translations are kept, and the
memory from 4 MiB on. -/
theorem Backed.seen_eqOn (h : Backed root m p P) (hget : ∀ y, p.toNat ≤ y →
    y < p.toNat + 0x200000 * P.length → Pml4.get m' root (adr y) = Pml4.get m root (adr y))
    (hmem : ∀ y, 0x400000 ≤ y → y < 2 ^ 64 → m' (adr y) = m (adr y)) :
    Mem.EqOn (seen root m) (seen root m') p.toNat (p.toNat + 0x200000 * P.length) := by
  intro y h1 h2
  obtain ⟨z, hz, hlo, hhi⟩ := h.high h1 h2
  have hz' : translate root m' (adr y) = some (adr z) := by
    rw [← hz, translate, translate, hget y h1 h2]
  show m' (place root m' (adr y)) = m (place root m (adr y))
  rw [place, place, hz, hz']
  exact hmem z (by omega) (by omega)

end Backed

/-! ## Accesses -/

section Access
variable {s : Statics} {root : Word} {st : Space} {m' mv : Mem}

theorem Inv.agrees (hlow : LowTables s root) (h : Inv s root st)
    (ho : Prog.Off (Area st.live) (place root st.machine.mem) st.machine.mem m') :
    Agrees s (tablePages s {root}) st.machine.mem m' := by
  intro y hy hno
  have hlt := hlow.within y hy hno
  refine ho _ fun a ⟨p, P, hp, h1, h2⟩ heq => ?_
  obtain ⟨z, hz, hlo, hhi⟩ := (h.backed p P hp).high h1 h2
  rw [adr_of_toNat] at hz
  rw [place, hz, Option.getD_some, adr_inj (by omega) hy] at heq
  omega

/-- The live blocks are a window: different addresses have different places,
whatever is stored in the blocks. -/
theorem Inv.window (hlow : LowTables s root) (h : Inv s root st) :
    Prog.Window (translate root) (Area st.live) (place root st.machine.mem) st.machine.mem where
  inj a b := by
    rintro ⟨p, P, hp, h1, h2⟩ ⟨q, Q, hq, g1, g2⟩ he
    obtain ⟨x, hx, hxi, htx⟩ := (h.backed p P hp).at_ h1 h2
    obtain ⟨y, hy, hyi, hty⟩ := (h.backed q Q hq).at_ g1 g2
    obtain ⟨k, -, hk, rfl⟩ := (h.backed p P hp).frames x hx
    obtain ⟨l, -, hl, rfl⟩ := (h.backed q Q hq).frames y hy
    have hmx := Nat.mod_lt (a.toNat - p.toNat) (show 0 < 0x200000 by decide)
    have hmy := Nat.mod_lt (b.toNat - q.toNat) (show 0 < 0x200000 by decide)
    rw [adr_of_toNat] at htx hty
    rw [place, place, htx, hty, Option.getD_some, Option.getD_some, physPage_toNat hk,
      physPage_toNat hl, adr_inj (by omega) (by omega)] at he
    obtain rfl : k = l := by omega
    by_cases hpq : p = q
    · subst hpq
      obtain rfl := Option.some.inj (hp.symm.trans hq)
      have hi : (a.toNat - p.toNat) / 0x200000 < P.length := (List.getElem?_eq_some_iff.mp hxi).1
      have := (List.getElem?_inj hi (h.backed p P hp).nodup).mp (hxi.trans hyi.symm)
      exact BitVec.eq_of_toNat_eq (by omega)
    · exact absurd hy ((h.apart p P q Q hp hq hpq).1 hx)
  maps m' ho a := by
    rintro ⟨p, P, hp, h1, h2⟩
    obtain ⟨z, hz, -⟩ := (h.backed p P hp).high h1 h2
    rw [adr_of_toNat] at hz
    have hb := (h.backed p P hp).below
    have hget : Pml4.get m' root a = Pml4.get st.machine.mem root a :=
      h.sound.get_off (h.agrees hlow ho) rfl (by omega)
    rw [place, hz, Option.getD_some, ← hz, translate, translate, hget]

theorem Inv.off (hlow : LowTables s root) (h : Inv s root st)
    (ho : Prog.Off (Area st.live) (place root st.machine.mem) st.machine.mem m') :
    Inv s root (st.withMem m') := by
  have hag := h.agrees hlow ho
  refine ⟨h.sound.off hag, fun p P hp => (h.backed p P hp).keep fun y h1 h2 => ?_, h.apart, h.taken⟩
  have hb := (h.backed p P hp).below
  exact h.sound.get_off hag rfl (by rw [adr_toNat (by omega)]; omega)

theorem views_seen (V : Word → Prop) (m : Mem) : Prog.Views V (place root m) m (seen root m) :=
  fun _ _ => rfl

theorem Inv.seen_eq (hlow : LowTables s root) (h : Inv s root st)
    (ho : Prog.Off (Area st.live) (place root st.machine.mem) st.machine.mem m')
    (hv : Prog.Views (Area st.live) (place root st.machine.mem) m' mv) {a : Word}
    (ha : Area st.live a) : seen root m' a = mv a := by
  have hp : place root m' a = place root st.machine.mem a := by
    rw [place, (h.window hlow).maps m' ho a ha, Option.getD_some]
  show m' (place root m' a) = mv a
  rw [hp]
  exact hv a ha

theorem Inv.seen_eqOn (hlow : LowTables s root) (h : Inv s root st)
    (ho : Prog.Off (Area st.live) (place root st.machine.mem) st.machine.mem m')
    (hv : Prog.Views (Area st.live) (place root st.machine.mem) m' mv) {p : Word} {P : List Word}
    (hp : st.live p = some P) :
    Mem.EqOn mv (seen root m') p.toNat (p.toNat + 0x200000 * P.length) := by
  intro y h1 h2
  have hb := (h.backed p P hp).below
  have hy : (adr y).toNat = y := adr_toNat (by omega)
  exact h.seen_eq hlow ho hv ⟨p, P, hp, by omega, by omega⟩

theorem sizes_some {live : Word → Option (List Word)} {p : Word} {k : Nat}
    (h : sizes live p = some k) : ∃ P, live p = some P ∧ 0x200000 * P.length = k :=
  Option.map_eq_some_iff.mp h

theorem Inv.objects_eq (hlow : LowTables s root) (h : Inv s root st)
    (ho : Prog.Off (Area st.live) (place root st.machine.mem) st.machine.mem m')
    (hv : Prog.Views (Area st.live) (place root st.machine.mem) m' mv) :
    objects root (st.withMem m') = Objects.ofMem 0x80000000 (2 ^ 47) mv (sizes st.live) := by
  refine Objects.ofMem_congr fun q n hq => ?_
  obtain ⟨Q, hQ, rfl⟩ := sizes_some hq
  exact h.seen_eqOn hlow ho hv hQ

variable {p i : Word} {v : Byte} {k : Nat}

theorem Inv.covers (h : Inv s root st) (hk : sizes st.live p = some k) (hi : i.toNat < k) :
    p.toNat + k ≤ 2 ^ 47 ∧ Prog.Covers (Area st.live) (p + i) 1 := by
  obtain ⟨P, hP, rfl⟩ := sizes_some hk
  have hb := (h.backed p P hP).below
  have hpi : (p + i).toNat = p.toNat + i.toNat := BitVec.toNat_add_of_lt (by omega)
  refine ⟨hb, by decide, fun j hj => ⟨p, P, hP, ?_⟩⟩
  obtain rfl : j = 0 := by omega
  rw [show p + i + adr 0 = p + i from BitVec.add_zero _]
  omega

theorem Inv.store (hlow : LowTables s root) (h : Inv s root st) (hk : sizes st.live p = some k)
    (hi : i.toNat < k) (v : Byte) :
    ∃ m', Prog.storeVia (translate root) 1 st.machine.mem (p + i) v.toNat = .ok m' ∧
      Prog.Off (Area st.live) (place root st.machine.mem) st.machine.mem m' ∧
      Objects.Step (objects root st) (.store p.toNat i.toNat v) (objects root (st.withMem m')) := by
  obtain ⟨hb, hcov⟩ := h.covers hk hi
  obtain ⟨m', he, ho, hv⟩ := Prog.storeVia_eq (h.window hlow) 1 st.machine.mem
    (seen root st.machine.mem) (p + i) v.toNat (.refl _ _ _) (views_seen _ _) hcov
  refine ⟨m', he, ho, ?_⟩
  rw [h.objects_eq hlow ho hv, Prog.storeN_byte]
  have hpi : p + i = p + adr i.toNat := by rw [adr_of_toNat]
  rw [hpi]
  refine Objects.ofMem_store hk hi (by omega) fun q n hq hne => ?_
  obtain ⟨P, hP, rfl⟩ := sizes_some hk
  obtain ⟨Q, hQ, rfl⟩ := sizes_some hq
  have := (h.backed q Q hQ).below
  have := (h.apart q Q p P hQ hP hne).2
  omega

theorem Inv.load (hlow : LowTables s root) (h : Inv s root st) (hk : sizes st.live p = some k)
    (hi : i.toNat < k) :
    ∃ b : Byte, Prog.loadVia (translate root) st.machine.mem 1 (p + i) = .ok b.toNat ∧
      Objects.Step (objects root st) (.load p.toNat i.toNat b) (objects root st) := by
  obtain ⟨hb, hcov⟩ := h.covers hk hi
  have hld := Prog.loadVia_eq (h.window hlow) (.refl _ _ _) (views_seen _ _) 1 (p + i) hcov
  refine ⟨_, hld.trans (congrArg Except.ok (Prog.loadN_byte ..)), ?_⟩
  have hpi : p + i = p + adr i.toNat := by rw [adr_of_toNat]
  rw [hpi]
  exact Objects.ofMem_load hk hi

end Access

/-! ## Handing out and giving back -/

section Calls
variable {s : Statics} {root : Word} {st : Space} {mach : Machine} {v n : Word} {flags : BitVec 32}
  {ks : List Nat}

theorem backed_new (hlow : LowTables s root) (h : Sound s {root} st.machine.mem)
    (hG : Given s {root} st.machine mach root v n flags ks) (hf : flags ≤ AF_RW ||| AF_USER) :
    Backed root mach.mem v (ks.map physPage) := by
  have hV := hG.first.vacant
  have hn := hG.few
  have hlen : (ks.map physPage).length = n.toNat := by rw [List.length_map, hG.count]
  have hfirst := hG.first.low h rfl hn.2
  have hpages := hlow.pages
  have hstart : rangeStart.toNat = 0x80000000 := rfl
  have habove := hV.above
  have hflags : flags.toNat < 2 ^ 21 :=
    Nat.lt_of_le_of_lt (BitVec.le_def.mp hf) (show 3 < 2 ^ 21 by decide)
  refine ⟨aligned_iff.mp hV.aligned, by omega, by omega, fun h0 => ?_, hG.taken.frames_nodup,
    fun a ha => ?_, fun i a hi off hoff => ?_⟩
  · rw [h0, List.length_nil] at hlen
    omega
  · obtain ⟨k, hk, rfl⟩ := List.mem_map.mp ha
    exact ⟨k, (hG.taken.range k hk).1, (hG.taken.range k hk).2, rfl⟩
  · have hlt : i < n.toNat := hlen ▸ (List.getElem?_eq_some_iff.mp hi).1
    have hal := (hG.taken.frames a (List.mem_of_getElem? hi)).1
    obtain ⟨k, -, rfl⟩ := List.mem_map.mp (List.mem_of_getElem? hi)
    have hc := hV.canonical hn.2 hlt
    have hoff' : (adr off).toNat = off := adr_toNat (by omega)
    have hb := blockPage_toNat (v := v) (i := i) (by omega)
    obtain ⟨h1, h2, h3⟩ := @page_offset (blockPage v i) (adr off) hc.1 hc.2 (by omega)
    have hget := hG.binds.hit i _ hi _ h1 (by rw [Nat.zero_add]; exact h2)
    have hw : blockPage v i + adr off = adr (v.toNat + 0x200000 * i + off) := by
      rw [← hb, ← adr_add, adr_of_toNat]
    rw [frameOf_eq hal (flags_low hflags), or_offset hal, h3, hw] at hget
    rw [hget, ← adr_add, adr_of_toNat]

theorem framesAt_new (hB : Backed root mach.mem v (ks.map physPage)) (hlen : ks.length = n.toNat) :
    framesAt mach.mem root v n.toNat = ks.map physPage := by
  refine List.ext_getElem? fun i => ?_
  rw [framesAt, List.getElem?_map]
  have hb := hB.below
  rw [List.length_map, hlen] at hb
  by_cases hi : i < n.toNat
  · have hlt : i < (ks.map physPage).length := by rw [List.length_map, hlen]; exact hi
    rw [List.getElem?_range hi, Option.map_some, List.getElem?_eq_getElem hlt]
    have hget := hB.bound i _ (List.getElem?_eq_getElem hlt) 0 (by decide)
    have hpage := blockPage_toNat (v := v) (i := i) (by omega)
    have hw : adr (v.toNat + 0x200000 * i + 0) = blockPage v i := by
      rw [Nat.add_zero, ← hpage, adr_of_toNat]
    rw [hw, Nat.add_zero, adr_of_toNat] at hget
    rw [place, translate, if_pos (by omega), hget, Option.getD_some]
  · rw [List.getElem?_eq_none (by rw [List.length_range]; omega), Option.map_none,
      List.getElem?_eq_none (by rw [List.length_map, hlen]; omega)]

/-- What was mapped is none of the new pages, and translates as before. -/
theorem new_miss (hG : Given s {root} st.machine mach root v n flags ks) {w : Word}
    (hw : w.toNat < 2 ^ 48) (hmap : Pml4.get st.machine.mem root w ≠ none) :
    (∀ j < n.toNat, w >>> 21 ≠ blockPage v j >>> 21) ∧
      Pml4.get mach.mem root w = Pml4.get st.machine.mem root w := by
  have hV := hG.first.vacant
  have hne : ∀ j < n.toNat, w >>> 21 ≠ blockPage v j >>> 21 := fun j hj he =>
    hmap ((get_none_congr _ root (hV.canonical hG.few.2 hj).1 hw he).mpr (hV.unmapped j hj))
  refine ⟨hne, hG.binds.miss root rfl w hw fun j hj he => ?_⟩
  rw [List.length_map, hG.count] at hj
  rw [Nat.zero_add] at he
  exact hne j hj (Prod.mk.inj he).2

theorem new_apart (hG : Given s {root} st.machine mach root v n flags ks)
    (hB : Backed root mach.mem v (ks.map physPage)) {q : Word} {Q : List Word}
    (hQ : Backed root st.machine.mem q Q) :
    Apart v.toNat (0x200000 * n.toNat) q.toNat (0x200000 * Q.length) := by
  by_contra hno
  have h1 := hB.aligned
  have h2 := hQ.aligned
  have h3 := hB.below
  have h4 := hQ.below
  rw [List.length_map, hG.count] at h3
  -- the higher one of the starts is in both
  have hy : ∃ y, v.toNat ≤ y ∧ y < v.toNat + 0x200000 * n.toNat ∧ q.toNat ≤ y ∧
      y < q.toNat + 0x200000 * Q.length := by
    have := hG.few.1
    have : 0 < Q.length := List.length_pos_iff.mpr hQ.nonempty
    by_cases hvq : v.toNat ≤ q.toNat
    · exact ⟨q.toNat, by omega, by omega, by omega, by omega⟩
    · exact ⟨v.toNat, by omega, by omega, by omega, by omega⟩
  obtain ⟨y, g1, g2, g3, g4⟩ := hy
  have hyn : (adr y).toNat = y := adr_toNat (by omega)
  obtain ⟨hne, -⟩ := new_miss hG (w := adr y) (by omega) (hQ.mapped g3 g4)
  have hpage := blockPage_toNat (v := v) (i := (y - v.toNat) / 0x200000) (by omega)
  exact hne ((y - v.toNat) / 0x200000) (by omega) (shift_eq_iff.mpr (by omega))

/-- The live blocks translate as before. -/
theorem Inv.kept_new (h : Inv s root st) (hG : Given s {root} st.machine mach root v n flags ks)
    {q : Word} {Q : List Word} (hQ : st.live q = some Q) {y : Nat} (h1 : q.toNat ≤ y)
    (h2 : y < q.toNat + 0x200000 * Q.length) :
    Pml4.get mach.mem root (adr y) = Pml4.get st.machine.mem root (adr y) := by
  have hb := (h.backed q Q hQ).below
  exact (new_miss hG (by rw [adr_toNat (by omega)]; omega) ((h.backed q Q hQ).mapped h1 h2)).2

/-- The new frames were clear, those of live blocks are not. -/
theorem Inv.disjoint_new (h : Inv s root st) (hT : Taken n 3 0 st.machine.phys ks) {q : Word}
    {Q : List Word} (hQ : st.live q = some Q) : (ks.map physPage).Disjoint Q := by
  intro a ha haQ
  obtain ⟨k, hk, rfl⟩ := List.mem_map.mp ha
  exact h.taken q Q hQ k (hT.range k hk).2 haQ (hT.clear k hk)

theorem Inv.fresh_new (h : Inv s root st) (hG : Given s {root} st.machine mach root v n flags ks)
    (hB : Backed root mach.mem v (ks.map physPage)) : st.live v = none := by
  refine Option.eq_none_iff_forall_ne_some.mpr fun Q hQ => ?_
  have := new_apart hG hB (h.backed v Q hQ)
  have := hG.few.1
  have : 0 < Q.length := List.length_pos_iff.mpr (h.backed v Q hQ).nonempty
  omega

theorem Inv.granted (h : Inv s root st) (hG : Given s {root} st.machine mach root v n flags ks)
    (hB : Backed root mach.mem v (ks.map physPage)) :
    Inv s root ⟨mach, put st.live v (some (ks.map physPage))⟩ := by
  have hlen : (ks.map physPage).length = n.toNat := by rw [List.length_map, hG.count]
  have hlt : ∀ k ∈ ks, k < 32768 := fun k hk => (hG.taken.range k hk).2
  refine ⟨hG.sound, fun q Q hQ => ?_, fun p P q Q hP hQ hne => ?_, fun q Q hQ k hk hkQ => ?_⟩
  · simp only [put] at hQ
    split at hQ
    · rename_i hq
      cases hQ
      exact hq ▸ hB
    · exact (h.backed q Q hQ).keep fun y h1 h2 => h.kept_new hG hQ h1 h2
  · simp only [put] at hP hQ
    split at hP
    · rename_i hp
      cases hP
      rw [if_neg fun hq => hne (hp.trans hq.symm)] at hQ
      rw [hlen, hp]
      exact ⟨h.disjoint_new hG.taken hQ, new_apart hG hB (h.backed q Q hQ)⟩
    · split at hQ
      · rename_i hq
        cases hQ
        rw [hlen, hq]
        exact ⟨(h.disjoint_new hG.taken hP).symm, (new_apart hG hB (h.backed p P hP)).symm⟩
      · exact h.apart p P q Q hP hQ hne
  · show ¬ Clear mach.phys (slot k)
    rw [hG.phys, clear_markAll hlt]
    simp only [put] at hQ
    split at hQ
    · cases hQ
      obtain ⟨k', hk', hkk⟩ := List.mem_map.mp hkQ
      obtain rfl := physPage_inj (hlt k' hk') hk hkk
      exact fun hc => hc.2 k' hk' rfl
    · exact fun hc => h.taken q Q hQ k hk hkQ hc.1

/-- A block that the store of objects did not have, apart from its others. -/
theorem Inv.granted_event (hlow : LowTables s root) (h : Inv s root st)
    (hG : Given s {root} st.machine mach root v n flags ks)
    (hB : Backed root mach.mem v (ks.map physPage)) :
    Objects.Step (objects root st) (.alloc (0x200000 * n.toNat) (some v.toNat))
      (objects root ⟨mach, put st.live v (some (ks.map physPage))⟩) := by
  have hlen : (ks.map physPage).length = n.toNat := by rw [List.length_map, hG.count]
  have hmem : ∀ y, 0x400000 ≤ y → y < 2 ^ 64 → mach.mem (adr y) = st.machine.mem (adr y) :=
    fun y h1 h2 => hG.confined y (hlow.high h1 h2)
  have hobj : objects root ⟨mach, put st.live v (some (ks.map physPage))⟩ =
      (objects root st).put v.toNat (some (Objects.contents (seen root mach.mem) v
        (0x200000 * n.toNat))) := by
    refine Objects.ofMem_put (v := some (0x200000 * n.toNat)) (fun q => ?_) fun q k hq _ => ?_
    · simp only [sizes, put]
      split
      · rw [Option.map_some, hlen]
      · rfl
    · obtain ⟨Q, hQ, rfl⟩ := sizes_some hq
      exact (h.backed q Q hQ).seen_eqOn (fun y h1 h2 => h.kept_new hG hQ h1 h2) hmem
  rw [hobj]
  have hb := hB.below
  rw [hlen] at hb
  refine .grant ⟨?_, ⟨hB.above, hb⟩, fun a bs ha => ?_⟩ (Objects.length_contents ..)
  · rw [objects, Objects.ofMem_obj, sizes, h.fresh_new hG hB, Option.map_none, Option.map_none]
  · obtain ⟨q, k, rfl, hq, rfl⟩ := Objects.ofMem_obj_some ha
    obtain ⟨Q, hQ, rfl⟩ := sizes_some hq
    rw [Objects.length_contents]
    exact new_apart hG hB (h.backed q Q hQ)

theorem Inv.alloc (hlow : LowTables s root) (h : Inv s root st) (hf : flags ≤ AF_RW ||| AF_USER)
    (hroom : n.toNat ≤ (clearSlots st.machine.phys).card) {r : Option Word}
    (he : Mm.alloc s st.machine root n flags = .ok (r, mach)) :
    Inv s root (st.grant root mach n r) ∧
      Objects.Step (objects root st) (.alloc (0x200000 * n.toNat) (r.map BitVec.toNat))
        (objects root (st.grant root mach n r)) := by
  rcases alloc_outcome h.sound rfl hroom he with ⟨rfl, rfl⟩ | ⟨v, ks, rfl, hG⟩
  · exact ⟨h, .refuse⟩
  · have hB := backed_new hlow h.sound hG hf
    rw [grant, framesAt_new hB hG.count]
    exact ⟨h.granted hG hB, h.granted_event hlow hG hB⟩

/-- Freeing a live block returns, and what it does to the memory. -/
theorem Inv.free_keeps (h : Inv s root st) {P : List Word} (hP : st.live v = some P)
    (hlen : P.length = n.toNat) (hsp : Spares s ⟨st.machine, []⟩ (.free root v n)) :
    ∃ m', Mm.free s st.machine root v n = .ok { st.machine with mem := m' } ∧
      Sound s {root} m' ∧ Confined s ∅ st.machine.mem m' ∧ Releases s st.machine.mem m' ∧
      ∀ w : Word, w.toNat < 2 ^ 48 → Pml4.get m' root w = Pml4.get st.machine.mem root w := by
  have hB := h.backed v P hP
  have hb := hB.below
  rw [hlen] at hb
  have hpage : ∀ j < n.toNat, (blockPage v j).toNat = v.toNat + 0x200000 * j := fun j hj =>
    blockPage_toNat (by omega)
  obtain ⟨m', he, hsound, hget⟩ := freeFrom_keeps (n := n.toNat) (i := 0)
    (Set.mem_singleton root) h.sound
    (fun j _ hj => blockPage_canonical (aligned_iff.mpr hB.aligned) (by omega))
    (fun j _ hj => by
      rw [Nat.zero_add] at hj
      have := hpage j hj
      rw [← adr_of_toNat (blockPage v j)]
      exact hB.mapped (by omega) (by omega)) hsp
  obtain ⟨hc, hrel⟩ := freeFrom_confined (R := {root}) h.sound.layout h.sound.domain rfl n.toNat 0
    h.sound.inRange (fun j _ hj => by rw [Nat.zero_add] at hj; have := hpage j hj; omega) he
  refine ⟨m', ?_, hsound, hc, hrel, fun w hw => hget root rfl w hw⟩
  rw [Mm.free, he, Res.ok_bind]

theorem Inv.free (hlow : LowTables s root) (h : Inv s root st) {P : List Word}
    (hP : st.live v = some P) (hlen : P.length = n.toNat)
    (hsp : Spares s ⟨st.machine, []⟩ (.free root v n))
    (he : Mm.free s st.machine root v n = .ok mach) :
    Inv s root ⟨mach, put st.live v none⟩ ∧
      Objects.Step (objects root st) (.free v.toNat) (objects root ⟨mach, put st.live v none⟩) := by
  obtain ⟨m', hok, hsound, hc, -, hget⟩ := h.free_keeps hP hlen hsp
  obtain rfl := Except.ok.inj (hok.symm.trans he)
  have hkeep : ∀ q Q, st.live q = some Q → ∀ y, q.toNat ≤ y → y < q.toNat + 0x200000 * Q.length →
      Pml4.get m' root (adr y) = Pml4.get st.machine.mem root (adr y) := by
    intro q Q hQ y h1 h2
    have hb := (h.backed q Q hQ).below
    exact hget _ (by rw [adr_toNat (by omega)]; omega)
  have hmem : ∀ y, 0x400000 ≤ y → y < 2 ^ 64 → m' (adr y) = st.machine.mem (adr y) :=
    fun y h1 h2 => (hc.mono (Set.empty_subset _)) y (hlow.high h1 h2)
  have hold : ∀ {q Q}, put st.live v none q = some Q → q ≠ v ∧ st.live q = some Q := by
    intro q Q hQ
    simp only [put] at hQ
    split at hQ
    · cases hQ
    · exact ⟨‹_›, hQ⟩
  refine ⟨⟨hsound, fun q Q hQ => ?_, fun p P q Q hP hQ => ?_, fun q Q hQ => ?_⟩, ?_⟩
  · exact (h.backed q Q (hold hQ).2).keep (hkeep q Q (hold hQ).2)
  · exact h.apart p P q Q (hold hP).2 (hold hQ).2
  · exact h.taken q Q (hold hQ).2
  · have hobj : objects root ⟨{ st.machine with mem := m' }, put st.live v none⟩ =
        (objects root st).put v.toNat none := by
      refine Objects.ofMem_put (v := none) (fun q => ?_) fun q k hq _ => ?_
      · simp only [sizes, put]
        split <;> rfl
      · obtain ⟨Q, hQ, rfl⟩ := sizes_some hq
        exact (h.backed q Q hQ).seen_eqOn (hkeep q Q hQ) hmem
    rw [hobj]
    exact .free (by rw [objects, Objects.ofMem_obj, sizes, hP, Option.map_some, Option.map_some])

end Calls

/-! ## Whole runs -/

section Runs
variable {s : Statics} {root : Word} {st st' : Space} {m : Mem} {c : Call × Ans}

theorem Inv.init (h : Sound s {root} m) : Inv s root ⟨⟨m, init⟩, fun _ => none⟩ :=
  ⟨h, nofun, nofun, nofun⟩

theorem Inv.step (hlow : LowTables s root) (h : Inv s root st) (hst : (space s root m).step st c st') :
    Inv s root st' ∧ Objects.Step (objects root st) (event c) (objects root st') := by
  obtain ⟨c, a⟩ := c
  obtain ⟨hp, he⟩ := hst
  cases c with
  | alloc n flags =>
    obtain ⟨⟨r, mach⟩, hr, he⟩ := Res.bind_eq_ok.mp he
    cases he
    exact h.alloc hlow hp.1 hp.2 hr
  | free start n =>
    obtain ⟨mach, hr, he⟩ := Res.bind_eq_ok.mp he
    cases he
    obtain ⟨⟨P, hP, hlen⟩, hsp⟩ := hp
    exact h.free hlow hP hlen hsp hr
  | store p i v =>
    obtain ⟨m₁, hr, he⟩ := Res.bind_eq_ok.mp he
    cases he
    obtain ⟨k, hk, hi⟩ := hp
    obtain ⟨m₂, hr', ho, hobj⟩ := h.store hlow hk hi v
    obtain rfl := Except.ok.inj (hr'.symm.trans hr)
    exact ⟨h.off hlow ho, hobj⟩
  | load p i =>
    obtain ⟨x, hr, he⟩ := Res.bind_eq_ok.mp he
    cases he
    obtain ⟨k, hk, hi⟩ := hp
    obtain ⟨b, hr', hobj⟩ := h.load hlow hk hi
    obtain rfl := Except.ok.inj (hr'.symm.trans hr)
    have hb : BitVec.ofNat 8 b.toNat = b := by rw [BitVec.ofNat_toNat, BitVec.setWidth_eq]
    exact ⟨h, by rw [event, hb]; exact hobj⟩

/-- A store to a live block returns, and the tables stay. -/
theorem Inv.store_returns (hlow : LowTables s root) (h : Inv s root st) {p i : Word} {v : Byte}
    (hp : Promise s root st (.store p i v)) :
    ∃ m', call s root st (.store p i v) = .ok (.done, st.withMem m') ∧
      Agrees s (tablePages s {root}) st.machine.mem m' := by
  obtain ⟨k, hk, hi⟩ := hp
  obtain ⟨m', he, ho, -⟩ := h.store hlow hk hi v
  exact ⟨m', by rw [call, he, Res.ok_bind], h.agrees hlow ho⟩

theorem Inv.load_returns (hlow : LowTables s root) (h : Inv s root st) {p i : Word}
    (hp : Promise s root st (.load p i)) :
    ∃ b, call s root st (.load p i) = .ok (.byte b, st) := by
  obtain ⟨k, hk, hi⟩ := hp
  obtain ⟨b, he, -⟩ := h.load hlow hk hi
  exact ⟨_, by rw [call, he, Res.ok_bind]⟩

theorem objects_none (root : Word) (mach : Machine) :
    objects root ⟨mach, fun _ => none⟩ = ⟨0x80000000, 2 ^ 47, fun _ => none⟩ :=
  Objects.ofMem_none ..

/-- The blocks stand for a store of objects. -/
theorem space_refines (hlow : LowTables s root) (hs : Sound s {root} m) :
    (space s root m).Refines (Objects.lts Byte) (fun st o => Inv s root st ∧ o = objects root st)
      event where
  init st := by
    obtain ⟨mach, live⟩ := st
    rintro ⟨rfl, rfl⟩
    exact ⟨_, fun p => by rw [objects_none], Inv.init hs, rfl⟩
  step st o c st' := by
    rintro ⟨hI, rfl⟩ hst
    obtain ⟨hI', hobj⟩ := hI.step hlow hst
    exact ⟨_, hobj, hI', rfl⟩

end Runs

/-! ## What is not written -/

/-- A byte from 6 MiB on, in no frame that has been handed out. Below lie the
paging structures, and what is kept apart from the memory: the stacks, and the
kernel's image with its static data. -/
def Spare (t : Tracker) (y : Nat) : Prop := 0x600000 ≤ y ∧ y < 2 ^ 64 ∧
  ∀ k, 3 ≤ k → k < 32768 → y / 0x200000 = k → Clear t (slot k)

section Spare
variable {s : Statics} {root : Word} {st st' : Space} {m m' : Mem} {c : Call × Ans} {y : Nat}

theorem Spare.elsewhere {t : Tracker} (hlow : LowTables s root) (hy : Spare t y) :
    Elsewhere s (tablePages s {root}) y :=
  hlow.high (Nat.le_trans (by decide) hy.1) hy.2.1

/-- What is written to blocks is written to frames that were handed out. -/
theorem Inv.off_spare (h : Inv s root st)
    (ho : Prog.Off (Area st.live) (place root st.machine.mem) st.machine.mem m')
    (hy : Spare st.machine.phys y) : m' (adr y) = st.machine.mem (adr y) := by
  refine ho _ fun a ⟨p, P, hp, h1, h2⟩ heq => ?_
  obtain ⟨x, hx, -, ht⟩ := (h.backed p P hp).at_ h1 h2
  obtain ⟨k, hk3, hk, rfl⟩ := (h.backed p P hp).frames x hx
  have hmod := Nat.mod_lt (a.toNat - p.toNat) (show 0 < 0x200000 by decide)
  have hlt := hy.2.1
  rw [adr_of_toNat] at ht
  rw [place, ht, Option.getD_some, physPage_toNat hk, adr_inj (by omega) hlt] at heq
  exact h.taken p P hp k hk hx (hy.2.2 k hk3 hk (by omega))

/-- One step: what is spare after it was spare before and has not changed. -/
theorem Inv.step_spare (hlow : LowTables s root) (h : Inv s root st)
    (hst : (space s root m).step st c st') (hy : Spare st'.machine.phys y) :
    Spare st.machine.phys y ∧ st'.machine.mem (adr y) = st.machine.mem (adr y) := by
  obtain ⟨c, a⟩ := c
  obtain ⟨hp, he⟩ := hst
  cases c with
  | alloc n flags =>
    obtain ⟨⟨r, mach⟩, hr, he⟩ := Res.bind_eq_ok.mp he
    cases he
    rcases alloc_outcome h.sound rfl hp.2 hr with ⟨rfl, rfl⟩ | ⟨v, ks, rfl, hG⟩
    · exact ⟨hy, rfl⟩
    refine ⟨⟨hy.1, hy.2.1, fun k h3 hk hyk => ?_⟩, hG.confined y (hy.elsewhere hlow)⟩
    have hc : Clear mach.phys (slot k) := hy.2.2 k h3 hk hyk
    rw [hG.phys, clear_markAll fun j hj => (hG.taken.range j hj).2] at hc
    exact hc.1
  | free start n =>
    obtain ⟨mach, hr, he⟩ := Res.bind_eq_ok.mp he
    cases he
    obtain ⟨⟨P, hP, hlen⟩, hsp⟩ := hp
    obtain ⟨m', hok, -, hc, -, -⟩ := h.free_keeps hP hlen hsp
    obtain rfl := Except.ok.inj (hok.symm.trans hr)
    exact ⟨hy, (hc.mono (Set.empty_subset _)) y (hy.elsewhere hlow)⟩
  | store p i v =>
    obtain ⟨m₁, hr, he⟩ := Res.bind_eq_ok.mp he
    cases he
    obtain ⟨k, hk, hi⟩ := hp
    obtain ⟨m₂, hr', ho, -⟩ := h.store hlow hk hi v
    obtain rfl := Except.ok.inj (hr'.symm.trans hr)
    exact ⟨hy, h.off_spare ho hy⟩
  | load p i =>
    obtain ⟨x, -, he⟩ := Res.bind_eq_ok.mp he
    cases he
    exact ⟨hy, rfl⟩

end Spare

/-! ## Main results -/

theorem FromLoader.low {tr root : L3.Loader.Ptr} {s : Statics} {m : Mem}
    (h : FromLoader tr root s {root.addr} m) : LowTables s root.addr := by
  obtain ⟨st, m₀, hreach, -, -, hr⟩ := h.built
  obtain ⟨x, hx, rfl, -, -⟩ := L3.Loader.bare_of_reachable h.layout hreach
  have hR := L3.Retain.Retained.of_ok (publishedAt_handover h.tracker) hr
  have hL := h.start.1.layout
  have hstart : s.start.toNat = 0x100000 := hR.start
  have hstop : s.stop.toNat = 0x3FF000 := by rw [hR.stop]; rfl
  have h1 := hL.stop_eq
  have h2 := hR.after
  have h3 := hR.before
  have h4 := hR.long
  refine ⟨fun y hy hno => ?_, by omega⟩
  by_contra hout
  refine hno ⟨hy, ?_, by omega, by omega⟩
  rintro t (rfl | ⟨n, hn, rfl⟩)
  · have := L3.Loader.page_addr_toNat hx
    omega
  · have := hL.page_toNat hn
    omega

/-- Accesses to live blocks return, and stores leave the tables alone. -/
structure Accessible (s : Statics) (root : Word) (st : Space) : Prop where
  store : ∀ p i v, Promise s root st (.store p i v) → ∃ m',
    call s root st (.store p i v) = .ok (.done, st.withMem m') ∧
      Agrees s (tablePages s {root}) st.machine.mem m'
  load : ∀ p i, Promise s root st (.load p i) → ∃ b, call s root st (.load p i) = .ok (.byte b, st)

/-- **Blocks are memory.** On the loader's tables, whatever the calls and their
order: what the owner sees of the blocks is a run of a store of objects, which
ends with the live blocks and their bytes. The next access to a live block
does not fault. -/
theorem space_objects {tr root : L3.Loader.Ptr} {s : Statics} {m : Mem}
    (h₀ : FromLoader tr root s {root.addr} m) {st st' : Space} {cs : List (Call × Ans)}
    (h0 : (space s root.addr m).init st) (hr : (space s root.addr m).Run st cs st') :
    (Objects.lts Byte).Run ⟨0x80000000, 2 ^ 47, fun _ => none⟩ (cs.map event)
      (objects root.addr st') ∧ Accessible s root.addr st' := by
  have hlow := FromLoader.low h₀
  obtain ⟨mach, live⟩ := st
  obtain ⟨rfl, rfl⟩ := h0
  obtain ⟨o, ho, hI, rfl⟩ := (space_refines hlow h₀.start.1).run ⟨Inv.init h₀.start.1, rfl⟩ hr
  rw [objects_none] at ho
  exact ⟨ho, fun _ _ _ hp => hI.store_returns hlow hp, fun _ _ hp => hI.load_returns hlow hp⟩

section
variable {s : Statics} {root p i n v : Word} {m m' : Mem} {st : Space} {mach : Machine} {b : Byte}
  {k : Nat} {flags : BitVec 32}

theorem step_alloc {r : Option Word} (hf : flags ≤ AF_RW ||| AF_USER)
    (hroom : n.toNat ≤ (clearSlots st.machine.phys).card)
    (he : Mm.alloc s st.machine root n flags = .ok (r, mach)) :
    (space s root m).step st (.alloc n flags, .addr r) (st.grant root mach n r) :=
  ⟨⟨hf, hroom⟩, by simp only [call, he, Res.ok_bind]⟩

theorem step_store (hk : sizes st.live p = some k) (hi : i.toNat < k)
    (he : Prog.storeVia (translate root) 1 st.machine.mem (p + i) b.toNat = .ok m') :
    (space s root m).step st (.store p i b, .done) (st.withMem m') :=
  ⟨⟨k, hk, hi⟩, by simp only [call, he, Res.ok_bind]⟩

theorem step_load (hk : sizes st.live p = some k) (hi : i.toNat < k)
    (he : Prog.loadVia (translate root) st.machine.mem 1 (p + i) = .ok b.toNat) :
    (space s root m).step st (.load p i, .byte b) st :=
  ⟨⟨k, hk, hi⟩, by
    simp only [call, he, Res.ok_bind]
    rw [BitVec.ofNat_toNat, BitVec.setWidth_eq]⟩

end

/-- The call that `heap::init` makes, then a byte is stored into the block and
loaded again. -/
theorem demo_run : ∃ s m st st' v b, FromLoader 0x200000 0x100000 s {0x100000} m ∧
    (space s 0x100000 m).init st ∧ (space s 0x100000 m).Run st [(.alloc 16 AF_RW, .addr (some v)),
      (.store v 3 7, .done), (.load v 3, .byte b)] st' := by
  obtain ⟨s, m, mach, v, h₀, he⟩ := demo_boot
  have hlow : LowTables s 0x100000 := FromLoader.low h₀
  have hroom : (16 : Word).toNat ≤ (clearSlots init).card := by
    rw [clearSlots_init]
    decide
  have hi : (3 : Word).toNat < 0x200000 * 16 := by decide
  have hf : AF_RW ≤ AF_RW ||| AF_USER := by decide
  obtain ⟨h₁, -⟩ := (Inv.init h₀.start.1).alloc hlow hf hroom he
  have hk : sizes (grant 0x100000 ⟨⟨m, init⟩, fun _ => none⟩ mach 16 (some v)).live v =
      some (0x200000 * 16) := by
    simp [grant, sizes, put, framesAt]
  have hal := @step_alloc s 0x100000 16 m ⟨⟨m, init⟩, fun _ => none⟩ mach AF_RW (some v) hf hroom he
  generalize grant 0x100000 ⟨⟨m, init⟩, fun _ => none⟩ mach 16 (some v) = st₁ at h₁ hk hal
  obtain ⟨m₂, hs, ho, -⟩ := h₁.store hlow hk hi 7
  obtain ⟨b, hl, -⟩ := (h₁.off hlow ho).load hlow hk hi
  exact ⟨s, m, _, _, v, b, h₀, ⟨rfl, rfl⟩, .cons hal
    (.cons (step_store hk hi hs) (.cons (step_load hk hi hl) (.nil _)))⟩

theorem space_objects_demo : ∃ v b o, (Objects.lts Byte).Run ⟨0x80000000, 2 ^ 47, fun _ => none⟩
    [.alloc (0x200000 * 16) (some v), .store v 3 7, .load v 3 b] o := by
  obtain ⟨s, m, st, st', v, b, h₀, h0, hr⟩ := demo_run
  exact ⟨v.toNat, b, _, (@space_objects 0x200000 0x100000 s m h₀ st st' _ h0 hr).1⟩

end Space

end X64k.L4.Mm
