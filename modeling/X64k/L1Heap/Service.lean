import X64k.Core.Objects
import X64k.L1Heap.Frame

/-!
# The heap as a service

All of the heap's interface in one system: `reset`, `alloc`, `allocAligned`,
`free`, `freeChecked`, the operators `new` and `delete` built on them
(`src/kernel/algo/new.hpp`), and the clients' own stores and loads. It starts
from the kernel's heap object as constructed, with any memory.

`Promise` is what a client must do for its part: free what is live, stay
within its payload, ask for sizes that do not wrap, and not run `allocAligned`
into the block that it would cut too short. `NoForge` is the assumption of
`tiling`.

* `refines_objects`: whatever the calls and their order, the heap is a store
  of objects. Payloads keep what their clients stored.
* `last_store`: a load returns the byte stored last; live payloads are apart.
* `reset_iff`: the heap is given up exactly when nothing is live.
-/
namespace X64k.L1.Heap

open X64k.Core

/-! ## The operators -/

/-- mirrors src/kernel/mem/heap.cpp:257-259 -/
def Heap.valid (h : Heap) : Prop := h.m_size ≠ 0 ∧ h.m_base ≠ 0

instance (h : Heap) : Decidable h.valid := inferInstanceAs (Decidable (_ ∧ _))

/-- mirrors src/kernel/mem/heap.cpp:20-32 -/
def Heap.destroy (fuel : Nat) (h : Heap) (m : Mem) : Res Unit :=
  if h.m_size ≠ 0 then checkNoLiving m fuel h.rootHeader else .ok ()

/-- `operator new` and `operator new[]`.
mirrors src/kernel/algo/new.hpp:6-14 -/
def operatorNew (fuel : Nat) (h : Heap) (m : Mem) (v : Word) : Res (Word × Mem) := do
  assert h.valid "heap::kernelHeap.valid()"
  match ← h.alloc fuel m v with
  | (some p, m) => .ok (p, m)
  | (none, _) => .error (.panic "Allocation failed")

/-- `operator delete` and `operator delete[]` without a size.
mirrors src/kernel/algo/new.hpp:16-19,26-29 -/
def operatorDelete (fuel : Nat) (h : Heap) (m : Mem) (v : Word) : Res Mem := do
  assert h.valid "heap::kernelHeap.valid()"
  free fuel m v

/-- `operator delete` and `operator delete[]` with a size.
mirrors src/kernel/algo/new.hpp:21-24,31-34 -/
def operatorDeleteSized (fuel : Nat) (h : Heap) (m : Mem) (v n : Word) : Res Mem := do
  assert h.valid "heap::kernelHeap.valid()"
  freeChecked fuel m v n

/-! ## The system -/

inductive Call where
  | reset (base size : Word)
  | alloc (n : Word)
  | allocAligned (n align : Word)
  | new (n : Word)
  | free (p : Word)
  | freeChecked (p n : Word)
  | delete (p : Word)
  | deleteSized (p n : Word)
  | store (p i : Word) (v : Byte)
  | load (p i : Word)
  deriving DecidableEq, Repr

/-- The state after `r` has been handed out with `n` bytes. -/
def St.grant (s : St) (m : Mem) (n : Word) : Option Word → St
  | some p => { s with mem := m, live := setLive s.live p (some n) }
  | none => { s with mem := m }

/-- The state after the payload at `p` has been given back. -/
def St.drop (s : St) (m : Mem) (p : Word) : St :=
  { s with mem := m, live := setLive s.live p none }

def call (fuel : Nat) (s : St) : Call → Res (Ans × St)
  | .reset base size => do
    let (h, m) ← s.heap.reset fuel s.mem base size
    .ok (.done, { s with heap := h, mem := m })
  | .alloc n => do
    let (r, m) ← s.heap.alloc fuel s.mem n
    .ok (.addr r, s.grant m n r)
  | .allocAligned n align => do
    let (r, m) ← s.heap.allocAligned fuel s.mem n align
    .ok (.addr r, s.grant m n r)
  | .new n => do
    let (p, m) ← operatorNew fuel s.heap s.mem n
    .ok (.addr (some p), s.grant m n (some p))
  | .free p => do
    let m ← Heap.free fuel s.mem p
    .ok (.done, s.drop m p)
  | .freeChecked p n => do
    let m ← Heap.freeChecked fuel s.mem p n
    .ok (.done, s.drop m p)
  | .delete p => do
    let m ← operatorDelete fuel s.heap s.mem p
    .ok (.done, s.drop m p)
  | .deleteSized p n => do
    let m ← operatorDeleteSized fuel s.heap s.mem p n
    .ok (.done, s.drop m p)
  | .store p i v => .ok (.done, { s with mem := s.mem.fill (p + i) 1 v })
  | .load p i => .ok (.byte (s.mem (p + i)), s)

/-- What a client frees is live, and no bytes pass for a header. -/
def MayFree (s : St) (p : Word) : Prop := s.live p ≠ none ∧ NoForge s (.free p)

/-- The client's side of a call. -/
def Promise (s : St) : Call → Prop
  | .reset base size => 32 ≤ size.toNat ∧ base.toNat + size.toNat < 2 ^ 64
  | .alloc n => n.toNat + 32 < 2 ^ 64
  | .allocAligned n align => n.toNat + 32 < 2 ^ 63 ∧ (∃ k, align.toNat = 2 ^ k) ∧
      s.heap.m_base.toNat + s.heap.m_size.toNat < 2 ^ 63 ∧
      ∀ g, FirstStop s.mem align s.heap.rootHeader g → ¬ Spoils s.mem n align g
  | .new n => n.toNat + 32 < 2 ^ 64
  | .free p => MayFree s p
  | .freeChecked p _ => MayFree s p
  | .delete p => MayFree s p
  | .deleteSized p _ => MayFree s p
  | .store p i _ => i < (s.live p).getD 0
  | .load p i => i < (s.live p).getD 0

/-- From the kernel's heap object as constructed, and any memory. -/
def service : LTS St (Call × Ans) where
  init s := s.heap = Heap.empty ∧ s.live = fun _ => none
  step s c s' := Promise s c.1 ∧ ∃ fuel, call fuel s c.1 = .ok (c.2, s')

/-! ## What the clients see -/

def event : Call × Ans → Objects.Event Byte
  | (.reset base size, _) => .reset base.toNat (base.toNat + size.toNat)
  | (.alloc n, a) => .alloc n.toNat a.ptr
  | (.allocAligned n _, a) => .alloc n.toNat a.ptr
  | (.new n, a) => .alloc n.toNat a.ptr
  | (.free p, _) => .free p.toNat
  | (.freeChecked p _, _) => .free p.toNat
  | (.delete p, _) => .free p.toNat
  | (.deleteSized p _, _) => .free p.toNat
  | (.store p i v, _) => .store p.toNat i.toNat v
  | (.load p i, a) => .load p.toNat i.toNat a.val

/-- How long the live payloads are. -/
def sizes (live : Word → Option Word) (p : Word) : Option Nat := (live p).map BitVec.toNat

/-- The live payloads and what is in them. -/
def objects (s : St) : Objects Byte :=
  Objects.ofMem s.heap.m_base.toNat (s.heap.m_base.toNat + s.heap.m_size.toNat) s.mem (sizes s.live)

section Objects
variable {s : St} {p : Word}

theorem sizes_some {live : Word → Option Word} {k : Nat} (h : sizes live p = some k) :
    ∃ n, live p = some n ∧ n.toNat = k := Option.map_eq_some_iff.mp h

theorem objects_obj (s : St) (p : Word) : (objects s).obj p.toNat =
    (s.live p).map fun n => Objects.contents s.mem p n.toNat := by
  rw [objects, Objects.ofMem_obj, sizes, Option.map_map]
  rfl

/-- One payload handed out or given back, the others untouched. -/
theorem objects_put {m' : Mem} {v : Option Word}
    (hk : ∀ q n, s.live q = some n → q ≠ p → Mem.EqOn s.mem m' q.toNat (q.toNat + n.toNat)) :
    objects { s with mem := m', live := setLive s.live p v } =
      (objects s).put p.toNat (v.map fun n => Objects.contents m' p n.toNat) := by
  have hput := @Objects.ofMem_put s.mem m' p s.heap.m_base.toNat
    (s.heap.m_base.toNat + s.heap.m_size.toNat) (sizes s.live) (sizes (setLive s.live p v))
    (v.map BitVec.toNat)
    (fun q => by simp only [sizes, setLive]; split <;> rfl) fun q k hq hne => by
      obtain ⟨n, hn, rfl⟩ := sizes_some hq
      exact hk q n hn hne
  rw [Option.map_map] at hput
  exact hput

end Objects

/-! ## One call -/

/-- `Loose`, with `prev` links that stay in the heap. -/
def Firm (base size : Word) (s : St) : Prop :=
  ∃ l, Shape base size s l ∧ Lower base.toNat l ∧ Above base.toNat l

section Calls
variable {base size : Word} {s s' : St} {m' : Mem} {fuel : Nat}

theorem free_of_freeChecked {m : Mem} {p n : Word} (h : freeChecked fuel m p n = .ok m') :
    free fuel m p = .ok m' := by
  obtain ⟨-, -, h⟩ := Res.bind_eq_ok.mp h
  obtain ⟨-, -, h⟩ := Res.bind_eq_ok.mp h
  exact h

/-- Handing out a payload of a refilled block. -/
theorem Shape.grant {l₁ l₂ k : List Blk} {b : Blk} {p n : Word}
    (hs : Shape base size s (l₁ ++ b :: l₂)) (hlt : base.toNat + size.toNat < 2 ^ 64)
    (hlow : Lower base.toNat (l₁ ++ b :: l₂)) (hab : Above base.toNat (l₁ ++ b :: l₂))
    (h0 : 0 < base.toNat) (hu : b.used = false)
    (hf : Refill s.mem m' (base.toNat + size.toNat) (base.toNat + span l₁) b k p.toNat n.toNat) :
    Firm base size (s.grant m' n (some p)) ∧
      Objects.Step (objects s) (.alloc n.toNat (some p.toNat)) (objects (s.grant m' n (some p))) := by
  obtain ⟨h1, h2, h3⟩ := hs.refill_vacant hu hf
  have hsh := hs.refill hu hf hlt h0 (w := n) rfl
  rw [adr_of_toNat] at hsh
  refine ⟨⟨_, hsh, hf.keeps_lower hlow, hf.keeps_above hab⟩, ?_⟩
  have hfresh : s.live p = none := by
    refine Option.eq_none_iff_forall_ne_some.mpr fun j hj => ?_
    exact (h3 _ _ ((hs.live p j).mp hj)).1 rfl
  have hobj := @objects_put s p m' (some n) fun q j hq _ =>
    hs.refill_payload hu hf hlt ((hs.live q j).mp hq)
  rw [St.grant, hobj, Option.map_some]
  refine .grant ⟨?_, ?_, fun a bs ha => ?_⟩ (Objects.length_contents ..)
  · rw [objects_obj, hfresh, Option.map_none]
  · simp only [objects, Objects.ofMem, hs.heap]
    omega
  · obtain ⟨q, k', rfl, hq, rfl⟩ := Objects.ofMem_obj_some ha
    obtain ⟨j, hj, rfl⟩ := sizes_some hq
    have := (h3 _ _ ((hs.live q j).mp hj)).2
    rw [Objects.length_contents]
    omega

theorem Firm.alloc (h : Firm base size s) (hlt : base.toNat + size.toNat < 2 ^ 64) {n : Word}
    (hn : n.toNat + 32 < 2 ^ 64) {r : Option Word}
    (hr : s.heap.alloc fuel s.mem n = .ok (r, m')) :
    Firm base size (s.grant m' n r) ∧
      Objects.Step (objects s) (.alloc n.toNat (r.map BitVec.toNat)) (objects (s.grant m' n r)) := by
  obtain ⟨l, hs, hlow, hab⟩ := id h
  rcases allocFrom_outcome fuel _ hr with ⟨rfl, rfl⟩ | ⟨hne, g, hg, rfl, hu, hw⟩
  · exact ⟨h, .refuse⟩
  rw [hs.rootHeader] at hne hg
  have h0 : 0 < base.toNat :=
    Nat.pos_of_ne_zero fun h => hne (BitVec.eq_of_toNat_eq h)
  rw [← adr_of_toNat base] at hg
  obtain ⟨l₁, b, l₂, rfl, rfl⟩ := (onChain_iff hs.blocks hs.tiles hlt hs.nonempty).mp hg
  have hb := blocks_at hs.blocks
  have htl := hs.tiles
  simp only [span_append, span] at htl
  have hbu : b.used = false := by simpa using mt hb.isAlloc.mpr hu
  have hlen := length_toNat hb (by omega)
  have hsz : (n + headerSize).toNat = n.toNat + 32 := BitVec.toNat_add_of_lt hn
  -- the answer is that of an attempt without padding
  have hatt : b.len = n.toNat ∨ n.toNat + 32 ≤ b.len := by
    rcases hw with ⟨hgt, -⟩ | ⟨heq, -⟩
    · rw [gt_iff_lt, BitVec.lt_def, hsz, hlen] at hgt
      exact .inr (by omega)
    · exact .inl (by rw [← hlen, heq])
  have hres : attempt s.mem (base.toNat + span l₁) n.toNat 0 b.len =
      some (adr (base.toNat + span l₁ + 32), m') := by
    rw [attempt, if_pos rfl, adr_of_toNat]
    rcases hw with ⟨hgt, rfl⟩ | ⟨heq, rfl⟩
    · rw [gt_iff_lt, BitVec.lt_def, hsz, hlen] at hgt
      rw [if_neg (by omega)]
    · rw [if_pos (by rw [← hlen, heq])]
  obtain ⟨k, hp, hf⟩ := attempt_refill hb (by omega) hlt hbu (.inl rfl) (Nat.zero_le _)
    (fun _ => hatt) hres
  have hpn : (adr (base.toNat + span l₁) + headerSize).toNat = base.toNat + span l₁ + 32 + 0 := by
    rw [headerSize_eq, adr_add, adr_toNat (by omega)]
  rw [← hpn] at hf
  exact hs.grant hlt hlow hab h0 hbu hf

/-- A call of `allocAligned` that does not spoil a block takes one that is
long enough. -/
theorem Shape.roomy {l : List Blk} (hs : Shape base size s l)
    (hlt : base.toNat + size.toNat < 2 ^ 63) (h0 : 0 < base.toNat) {n align : Word} {k : Nat}
    (ha : align.toNat = 2 ^ k)
    (hsp : ∀ g, FirstStop s.mem align s.heap.rootHeader g → ¬ Spoils s.mem n align g) :
    Roomy (2 ^ k) n.toNat base.toNat l := by
  rintro l₁ b l₂ rfl hpass hbu hshort hp0
  have hb := blocks_at hs.blocks
  have htl := hs.tiles
  simp only [span_append, span] at htl
  have hfs : FirstStop s.mem align (adr base.toNat) (adr (base.toNat + span l₁)) :=
    (firstStop_iff hs.blocks hs.tiles hlt h0 (by rwa [ha]) hbu (by rwa [ha]) _).mpr rfl
  have hns := hsp _ (by rw [hs.rootHeader, ← adr_of_toNat base]; exact hfs)
  rw [spoils_iff hb (by omega), ha] at hns
  by_contra hc
  push Not at hc
  exact hns ⟨hp0, hc.1, by omega⟩

theorem Firm.allocAligned (h : Firm base size s) {n align : Word}
    (hv : Promise s (.allocAligned n align)) {r : Option Word}
    (hr : s.heap.allocAligned fuel s.mem n align = .ok (r, m')) :
    Firm base size (s.grant m' n r) ∧
      Objects.Step (objects s) (.alloc n.toNat (r.map BitVec.toNat)) (objects (s.grant m' n r)) := by
  obtain ⟨l, hs, hlow, hab⟩ := id h
  obtain ⟨hn, ⟨k, ha⟩, hlt, hsp⟩ := hv
  have hbase : s.heap.m_base = base := by rw [hs.heap]
  have hsize : s.heap.m_size = size := by rw [hs.heap]
  rw [hbase, hsize] at hlt
  -- a heap at address 0 has a null root
  rcases Nat.eq_zero_or_pos base.toNat with h0 | h0
  · have hz : s.heap.rootHeader = 0 := by rw [hs.rootHeader]; exact BitVec.eq_of_toNat_eq h0
    cases fuel with
    | zero => cases hr
    | succ fuel =>
      rw [Heap.allocAligned, hz, allocAlignedFrom, if_pos rfl] at hr
      cases hr
      exact ⟨h, .refuse⟩
  have hk : k < 64 := by
    have := align.isLt
    rw [ha] at this
    exact (Nat.pow_lt_pow_iff_right (by decide)).mp this
  have hal : align = adr (2 ^ k) := by rw [← ha, adr_of_toNat]
  have hr := (stable_allocAligned s.heap s.mem n align).ok_le
    (Nat.le_max_right (base.toNat + size.toNat + 33) fuel) hr
  have hbig : base.toNat + size.toNat + 32 < max (base.toNat + size.toNat + 33) fuel :=
    Nat.lt_of_lt_of_le (Nat.lt_succ_self _) (Nat.le_max_left ..)
  rcases allocAligned_cases (h := s.heap) (n := n.toNat) (by rw [hbase]; exact hs.blocks)
    (by rw [hbase]; exact hs.tiles) hlt (by rw [hbase]; exact h0) hs.nonempty hk hn with
    ⟨-, hno⟩ | ⟨l₁, b, l₂, rfl, hpass, hbu, hshort, hall⟩
  · have hno := hno _ hbig
    rw [adr_of_toNat, ← hal, hr] at hno
    cases hno
    exact ⟨h, .refuse⟩
  have hall := hall _ hbig
  rw [adr_of_toNat, ← hal, hr, hbase] at hall
  rw [hbase] at hpass hshort
  have hb := blocks_at hs.blocks
  have htl := hs.tiles
  simp only [span_append, span] at htl
  have hroom := hs.roomy hlt h0 ha hsp l₁ b l₂ rfl hpass hbu hshort
  cases hat : attempt s.mem (base.toNat + span l₁) n.toNat
      (padding (base.toNat + span l₁ + 32) (2 ^ k)) b.len with
  | none => rw [hat] at hall; cases hall
  | some q =>
    rw [hat] at hall
    cases hall
    obtain ⟨k', hp, hf⟩ := attempt_refill hb (by omega) (by omega) hbu
      (padding_cases (Nat.two_pow_pos k) _) (padding_le hshort) hroom hat
    have hvac := hs.refill_vacant hbu hf
    have hpn : q.1.toNat = base.toNat + span l₁ + 32 + padding (base.toNat + span l₁ + 32) (2 ^ k) := by
      rw [hp, adr_toNat (by omega)]
    rw [← hpn] at hf
    exact hs.grant (by omega) hlow hab h0 hbu hf

theorem Firm.free (h : Firm base size s) (hlt : base.toNat + size.toNat < 2 ^ 64) {p : Word}
    (hv : MayFree s p) (hr : Heap.free fuel s.mem p = .ok m') :
    Firm base size (s.drop m' p) ∧
      Objects.Step (objects s) (.free p.toNat) (objects (s.drop m' p)) := by
  obtain ⟨l, hs, hlow, hab⟩ := id h
  obtain ⟨n, hp⟩ := Option.ne_none_iff_exists'.mp hv.1
  have hst := hs.staleFails hlt hv.2
  -- the same call with a bound that suffices
  have hr := (stable_free s.mem p).ok_le
    (Nat.le_max_right (base.toNat + size.toNat + 1) fuel) hr
  have hbig : base.toNat + size.toNat < max (base.toNat + size.toNat + 1) fuel :=
    Nat.lt_of_lt_of_le (Nat.lt_succ_self _) (Nat.le_max_left ..)
  obtain ⟨h0, l₁, b, l₂, rfl, hu, rfl, -⟩ := hs.live_block hp
  refine ⟨?_, ?_⟩
  · -- the free blocks behind some header have been absorbed
    rcases free_cases hs.blocks hs.tiles hlt hu hlow hst hbig with
      ⟨msg, he⟩ | ⟨k₁, c, k₂, m'', hk, hc, he, hm', -⟩
    · rw [he] at hr
      cases hr
    rw [he] at hr
    cases hr
    have hlc := hlow.clear
    have hac := hab.clear
    have htl := hs.tiles
    rw [← span_clear, hk] at htl
    rw [hk] at hlc hac
    refine ⟨_, hs.freed hlt h0 hu hm' ?_ ?_, ?_, ?_⟩
    · rw [span_append, span_mergeForward, ← span_append]
      exact htl
    · rw [hk, usedOf_append, usedOf_append, usedOf_mergeForward _ hc]
    · rw [lower_append] at hlc ⊢
      exact ⟨hlc.1, hlc.2.mergeForward⟩
    · simp only [span_append, span] at htl
      rw [Above, List.forall_mem_append] at hac ⊢
      exact ⟨hac.1, Above.mergeForward hac.2 (Nat.le_add_right ..) (by omega)⟩
  · have hobj := @objects_put s (adr (base.toNat + span l₁ + 32)) m' none
      fun q j hq _ => free_frame hs.blocks hs.tiles hlt hu hlow hst hbig hr ((hs.live q j).mp hq)
    rw [St.drop, hobj]
    exact .free (by rw [objects_obj, hp, Option.map_some])

/-- A place within a live payload. -/
theorem live_of_lt {p i : Word} (hv : i < (s.live p).getD 0) :
    ∃ n, s.live p = some n ∧ i.toNat < n.toNat := by
  cases hp : s.live p with
  | none =>
    rw [hp] at hv
    exact absurd hv BitVec.not_lt_zero
  | some n =>
    rw [hp] at hv
    exact ⟨n, rfl, BitVec.lt_def.mp hv⟩

theorem Firm.store (h : Firm base size s) (hlt : base.toNat + size.toNat < 2 ^ 64) {p i : Word}
    {v : Byte} (hv : i < (s.live p).getD 0) :
    Firm base size { s with mem := s.mem.fill (p + i) 1 v } ∧
      Objects.Step (objects s) (.store p.toNat i.toNat v)
        (objects { s with mem := s.mem.fill (p + i) 1 v }) := by
  obtain ⟨l, hs, hlow, hab⟩ := id h
  obtain ⟨t, ht, hsh, -⟩ := hs.poke 0 hlt (p := p) (i := i) (v := v) hv
  cases ht
  refine ⟨⟨l, hsh, hlow, hab⟩, ?_⟩
  obtain ⟨n, hp, hi⟩ := live_of_lt hv
  have hu := (hs.live p n).mp hp
  have hb := usedOf_bounds hu
  have htl := hs.tiles
  have hpi : p + i = p + adr i.toNat := by rw [adr_of_toNat]
  rw [hpi]
  refine Objects.ofMem_store (n := n.toNat) (by rw [sizes, hp, Option.map_some]) hi (by omega)
    fun q k hq hne => ?_
  obtain ⟨j, hj, rfl⟩ := sizes_some hq
  have hbq := usedOf_bounds ((hs.live q j).mp hj)
  rcases usedOf_disjoint ((hs.live q j).mp hj) hu with he | he | he
  · exact absurd (BitVec.eq_of_toNat_eq (congrArg Prod.fst he)) hne
  · omega
  · omega

theorem load_step (s : St) {p i : Word} (hv : i < (s.live p).getD 0) :
    Objects.Step (objects s) (.load p.toNat i.toNat (s.mem (p + i))) (objects s) := by
  obtain ⟨n, hp, hi⟩ := live_of_lt hv
  have hpi : p + i = p + adr i.toNat := by rw [adr_of_toNat]
  rw [hpi]
  exact Objects.ofMem_load (n := n.toNat) (by rw [sizes, hp, Option.map_some]) hi

/-! ## Giving the heap up -/

/-- The check passes exactly when all blocks are free. -/
theorem checkNoLiving_blocks {m : Mem} {e : Nat} (he : e < 2 ^ 64) :
    ∀ (l : List Blk) (a fuel : Nat), Blocks m e a l → a + span l = e → 0 < a → l.length < fuel →
      checkNoLiving m fuel (link e a) = if AllFree l then .ok ()
        else .error (.panic "Tried to destroy heap with living objects")
  | [], a, fuel, _, hx, _, hf => by
    obtain ⟨fuel, rfl⟩ : ∃ k, fuel = k + 1 := ⟨fuel - 1, by omega⟩
    have hae : a = e := hx
    have hall : AllFree [] := fun b hb => absurd hb List.not_mem_nil
    rw [link, if_pos hae, checkNoLiving, if_pos rfl, if_pos hall]
  | b :: l, a, fuel, ⟨hb, hl⟩, hx, h0, hf => by
    obtain ⟨fuel, rfl⟩ : ∃ k, fuel = k + 1 := ⟨fuel - 1, by omega⟩
    simp only [span] at hx
    rw [link, if_neg (by omega), checkNoLiving, if_neg (adr_ne_zero h0 (by omega)),
      if_neg (not_not_intro hb.hasMagic)]
    by_cases hu : b.used = true
    · rw [if_pos (hb.isAlloc.mpr hu), if_neg fun h => by
        rw [h b (List.mem_cons_self ..)] at hu; cases hu]
    · rw [if_neg (mt hb.isAlloc.mp hu), hb.next,
        checkNoLiving_blocks he l _ fuel hl (by omega) (by omega) (by simpa using hf)]
      have hu : b.used = false := by simpa using hu
      simp only [AllFree, List.forall_mem_cons, hu, true_and]

theorem stable_checkNoLiving (m : Mem) (hdr : Word) : Res.Stable (checkNoLiving m · hdr) := by
  intro n
  induction n generalizing hdr with
  | zero => exact .loop _
  | succ n ih => exact .ite (.refl _) (.ite (.refl _) (.ite (.refl _) (ih _)))

/-- The check of a heap ends, and passes exactly when nothing is live. -/
theorem Firm.check (h : Firm base size s) (hlt : base.toNat + size.toNat < 2 ^ 64)
    (hf : base.toNat + size.toNat < fuel) :
    (checkNoLiving s.mem fuel s.heap.rootHeader = .ok () ∧ ∀ p, s.live p = none) ∨
    (checkNoLiving s.mem fuel s.heap.rootHeader =
      .error (.panic "Tried to destroy heap with living objects") ∧ ∃ p, s.live p ≠ none) := by
  obtain ⟨l, hs, -⟩ := h
  have hnone : usedOf base.toNat l = [] → ∀ p, s.live p = none := fun hu p => by
    refine Option.eq_none_iff_forall_ne_some.mpr fun n hn => ?_
    have := (hs.live p n).mp hn
    rw [hu] at this
    cases this
  rw [hs.rootHeader]
  rcases Nat.eq_zero_or_pos base.toNat with h0 | h0
  · have hz : base = 0 := BitVec.eq_of_toNat_eq h0
    obtain ⟨fuel, rfl⟩ : ∃ k, fuel = k + 1 := ⟨fuel - 1, by omega⟩
    exact .inl ⟨by rw [checkNoLiving, if_pos hz], hnone (hs.null h0)⟩
  have htl := hs.tiles
  have hroot : link (base.toNat + size.toNat) base.toNat = base := by
    rw [link, if_neg, adr_of_toNat]
    have := hs.nonempty
    cases l with
    | nil => exact absurd rfl this
    | cons b l => simp only [span] at htl; omega
  have hc := checkNoLiving_blocks hlt l base.toNat fuel hs.blocks htl h0
    (by have := length_le_span (l := l); omega)
  rw [hroot] at hc
  rw [hc]
  by_cases hall : AllFree l
  · exact .inl ⟨if_pos hall, hnone (usedOf_free hall)⟩
  · refine .inr ⟨if_neg hall, ?_⟩
    simp only [AllFree, not_forall, Bool.not_eq_false] at hall
    obtain ⟨b, hb, hu⟩ := hall
    obtain ⟨l₁, l₂, rfl⟩ := List.append_of_mem hb
    simp only [span_append, span] at htl
    refine ⟨adr (base.toNat + span l₁ + 32), ?_⟩
    rw [(hs.live _ (adr b.len)).mpr ?_]
    · exact Option.some_ne_none _
    · rw [adr_toNat (by omega), adr_toNat (by omega)]
      exact mem_usedOf.mpr ⟨l₁, b, l₂, rfl, hu, rfl, rfl⟩

theorem Firm.size_ne (h : Firm base size s) : s.heap.m_size ≠ 0 := by
  obtain ⟨l, hs, -⟩ := h
  rw [hs.heap]
  intro h0
  have htl := hs.tiles
  have hne := hs.nonempty
  have hz : size.toNat = 0 := by rw [show size = 0 from h0]; rfl
  cases l with
  | nil => exact absurd rfl hne
  | cons b l => simp only [span] at htl; omega

end Calls

/-! ## Whole runs -/

/-- Not set up yet, or a heap in the sense of `Firm`. -/
def Ready (s : St) : Prop := (s.heap = Heap.empty ∧ s.live = fun _ => none) ∨
  ∃ base size : Word, base.toNat + size.toNat < 2 ^ 64 ∧ Firm base size s

section Runs
variable {s s' : St} {c : Call × Ans} {fuel : Nat}

theorem objects_of_none (hl : s.live = fun _ => none) : objects s =
    ⟨s.heap.m_base.toNat, s.heap.m_base.toNat + s.heap.m_size.toNat, fun _ => none⟩ := by
  rw [objects, hl]
  exact Objects.ofMem_none ..

/-- A heap that has been set up, when nothing is live. -/
theorem reset_ready {base size : Word} {h : Heap} {m : Mem}
    (hv : Promise s (.reset base size)) (hr : s.heap.reset fuel s.mem base size = .ok (h, m))
    (hl : s.live = fun _ => none) : Ready { s with heap := h, mem := m } ∧
      Objects.Step (objects s) (.reset base.toNat (base.toNat + size.toNat))
        (objects { s with heap := h, mem := m }) := by
  refine ⟨.inr ⟨base, size, hv.2, _, .init hv.1 hv.2 ⟨⟨_, _, _, hr⟩, hl⟩, ⟨.inl rfl, trivial⟩,
    above_cons (.inl rfl) (above_nil _)⟩, ?_⟩
  obtain ⟨rfl, -⟩ := reset_eq hr
  rw [objects_of_none (s := { s with heap := _, mem := m }) hl]
  exact .reset fun p => by rw [objects_of_none hl]

/-- Before the first `reset` there is nothing to hand out and nothing to free. -/
theorem Ready.step_empty (he : s.heap = Heap.empty) (hl : s.live = fun _ => none)
    (h : service.step s c s') : Ready s' ∧ Objects.Step (objects s) (event c) (objects s') := by
  obtain ⟨c, a⟩ := c
  obtain ⟨hv, fuel, h⟩ := h
  have hself : Ready s := .inl ⟨he, hl⟩
  have hroot : s.heap.rootHeader = 0 := by rw [he]; rfl
  have hlive : ∀ p, ¬ s.live p ≠ none := fun p => by rw [hl]; exact not_not_intro rfl
  have hin : ∀ p i : Word, ¬ i < (s.live p).getD 0 := fun p i => by
    rw [hl]
    exact BitVec.not_lt_zero
  have hal : ∀ n r m, s.heap.alloc fuel s.mem n = .ok (r, m) → r = none ∧ m = s.mem := by
    intro n r m hr
    rcases allocFrom_outcome fuel _ hr with h | ⟨hne, -⟩
    · exact h
    · exact absurd hroot hne
  cases c with
  | reset base size =>
    obtain ⟨⟨h', m⟩, hr, h⟩ := Res.bind_eq_ok.mp h
    cases h
    exact reset_ready hv hr hl
  | alloc n =>
    obtain ⟨⟨r, m⟩, hr, h⟩ := Res.bind_eq_ok.mp h
    obtain ⟨rfl, rfl⟩ := hal n r m hr
    cases h
    exact ⟨hself, .refuse⟩
  | allocAligned n align =>
    obtain ⟨⟨r, m⟩, hr, h⟩ := Res.bind_eq_ok.mp h
    cases fuel with
    | zero => cases hr
    | succ fuel =>
      rw [Heap.allocAligned, hroot, allocAlignedFrom, if_pos rfl] at hr
      cases hr
      cases h
      exact ⟨hself, .refuse⟩
  | new n =>
    obtain ⟨⟨r, m⟩, hr, h⟩ := Res.bind_eq_ok.mp h
    rw [operatorNew, Res.assert_not (by rw [he]; decide)] at hr
    cases hr
  | free p => exact absurd hv.1 (hlive p)
  | freeChecked p n => exact absurd hv.1 (hlive p)
  | delete p => exact absurd hv.1 (hlive p)
  | deleteSized p n => exact absurd hv.1 (hlive p)
  | store p i v => exact absurd hv (hin p i)
  | load p i => exact absurd hv (hin p i)

/-- One call on a heap: the invariant holds again, and the clients see one
event of a store of objects. -/
theorem Firm.call {base size : Word} (hI : Firm base size s)
    (hlt : base.toNat + size.toNat < 2 ^ 64) (h : service.step s c s') :
    Ready s' ∧ Objects.Step (objects s) (event c) (objects s') := by
  obtain ⟨c, a⟩ := c
  obtain ⟨hv, fuel, h⟩ := h
  have ready {t : St} {e : Objects.Event Byte}
      (h : Firm base size t ∧ Objects.Step (objects s) e (objects t)) :
      Ready t ∧ Objects.Step (objects s) e (objects t) := ⟨.inr ⟨base, size, hlt, h.1⟩, h.2⟩
  cases c with
  | reset b n =>
    obtain ⟨⟨h', m⟩, hr, h⟩ := Res.bind_eq_ok.mp h
    cases h
    refine reset_ready hv hr (funext fun p => ?_)
    -- the old heap has passed its check
    rw [Heap.reset, if_pos hI.size_ne] at hr
    obtain ⟨⟨⟩, hck, -⟩ := Res.bind_eq_ok.mp hr
    have hck := (stable_checkNoLiving s.mem s.heap.rootHeader).ok_le
      (Nat.le_max_right (base.toNat + size.toNat + 1) fuel) hck
    rcases hI.check hlt (Nat.lt_of_lt_of_le (Nat.lt_succ_self _) (Nat.le_max_left _ fuel)) with
      ⟨-, hnone⟩ | ⟨hp, -⟩
    · exact hnone p
    · rw [hp] at hck
      cases hck
  | alloc n =>
    obtain ⟨⟨r, m⟩, hr, h⟩ := Res.bind_eq_ok.mp h
    cases h
    exact ready (hI.alloc hlt hv hr)
  | allocAligned n align =>
    obtain ⟨⟨r, m⟩, hr, h⟩ := Res.bind_eq_ok.mp h
    cases h
    exact ready (hI.allocAligned hv hr)
  | new n =>
    obtain ⟨⟨p, m⟩, hr, h⟩ := Res.bind_eq_ok.mp h
    cases h
    obtain ⟨-, -, hr⟩ := Res.bind_eq_ok.mp hr
    obtain ⟨⟨r, m'⟩, hr, h⟩ := Res.bind_eq_ok.mp hr
    cases r with
    | none => cases h
    | some q =>
      cases h
      exact ready (hI.alloc hlt hv hr)
  | free p =>
    obtain ⟨m, hr, h⟩ := Res.bind_eq_ok.mp h
    cases h
    exact ready (hI.free hlt hv hr)
  | freeChecked p n =>
    obtain ⟨m, hr, h⟩ := Res.bind_eq_ok.mp h
    cases h
    exact ready (hI.free hlt hv (free_of_freeChecked hr))
  | delete p =>
    obtain ⟨m, hr, h⟩ := Res.bind_eq_ok.mp h
    cases h
    obtain ⟨-, -, hr⟩ := Res.bind_eq_ok.mp hr
    exact ready (hI.free hlt hv hr)
  | deleteSized p n =>
    obtain ⟨m, hr, h⟩ := Res.bind_eq_ok.mp h
    cases h
    obtain ⟨-, -, hr⟩ := Res.bind_eq_ok.mp hr
    exact ready (hI.free hlt hv (free_of_freeChecked hr))
  | store p i v =>
    cases h
    exact ready (hI.store hlt hv)
  | load p i =>
    cases h
    exact ready ⟨hI, load_step s hv⟩

theorem Ready.step (hI : Ready s) (h : service.step s c s') :
    Ready s' ∧ Objects.Step (objects s) (event c) (objects s') := by
  rcases hI with ⟨he, hl⟩ | ⟨base, size, hlt, hI⟩
  · exact Ready.step_empty he hl h
  · exact hI.call hlt h

theorem ready_inductive : service.Inductive Ready where
  init _ h := .inl h
  step _ _ _ hI h := (hI.step h).1

/-- The heap's states stand for the stores of their live payloads. -/
theorem service_refines :
    service.Refines (Objects.lts Byte) (fun s o => Ready s ∧ o = objects s) event where
  init s h := ⟨objects s, fun p => by rw [objects_of_none h.2], .inl h, rfl⟩
  step s o c s' := by
    rintro ⟨hI, rfl⟩ h
    obtain ⟨hI', hst⟩ := hI.step h
    exact ⟨objects s', hst, hI', rfl⟩

end Runs

/-! ## Main results -/

/-- **The heap is a store of objects.** What the clients see of any run of
the heap is a run of the store, which ends with the live payloads and their
bytes. -/
theorem refines_objects {s s' : St} {tr : List (Call × Ans)} (h0 : service.init s)
    (hr : service.Run s tr s') :
    (Objects.lts Byte).Run ⟨0, 0, fun _ => none⟩ (tr.map event) (objects s') := by
  obtain ⟨o, ho, -, rfl⟩ := service_refines.run ⟨.inl h0, rfl⟩ hr
  rwa [objects_of_none h0.2, h0.1] at ho

/-- A heap is set up, 16 bytes are taken, and one of them is stored and loaded. -/
def demo : List (Call × Ans) :=
  [(.reset 0x1000 0x1000, .done), (.alloc 16, .addr (some 0x1020)), (.store 0x1020 3 7, .done),
    (.load 0x1020 3, .byte 7)]

theorem demo_run : ∃ s s', service.init s ∧ service.Run s demo s' := by
  have h : (call 12 fresh (.alloc 16)).toOption.any
      (fun r => decide (r.1 = .addr (some 0x1020) ∧ r.2.live 0x1020 = some 16)) = true := by
    decide +kernel
  cases hs : call 12 fresh (.alloc 16) with
  | error f => rw [hs] at h; cases h
  | ok r =>
    obtain ⟨a, s⟩ := r
    rw [hs] at h
    obtain ⟨rfl, hl⟩ := of_decide_eq_true h
    have hin : (3 : Word) < (s.live 0x1020).getD 0 := by rw [hl]; decide
    have hreset : 32 ≤ (0x1000 : Word).toNat ∧
        (0x1000 : Word).toNat + (0x1000 : Word).toNat < 2 ^ 64 := by decide
    have halloc : (16 : Word).toNat + 32 < 2 ^ 64 := by decide
    refine ⟨⟨Heap.empty, ⟨fun _ => 0⟩, fun _ => none⟩,
      { s with mem := s.mem.fill (0x1020 + 3) 1 7 }, ⟨rfl, rfl⟩,
      .cons ⟨hreset, 0, rfl⟩ (.cons ⟨halloc, 12, hs⟩ (.cons ⟨hin, 0, rfl⟩
        (.cons ⟨hin, 0, ?_⟩ (.nil _))))⟩
    have hb : s.mem.fill (0x1020 + 3) 1 7 (0x1020 + 3) = 7 := Mem.fill_at (by decide)
    rw [call, hb]

theorem refines_objects_demo : ∃ s', (Objects.lts Byte).Run ⟨0, 0, fun _ => none⟩
    (demo.map event) (objects s') :=
  let ⟨_, s', h0, hr⟩ := demo_run
  ⟨s', refines_objects h0 hr⟩

/-- **Payloads are the clients' own.** In any run of the heap, a load returns
the byte stored last since the payload was handed out, and payloads that are
live together do not meet. -/
theorem last_store {s s' : St} {tr : List (Call × Ans)} (h0 : service.init s)
    (hr : service.Run s tr s') : Objects.Sound (tr.map event) := by
  obtain ⟨o, ho, -⟩ := service_refines.run ⟨.inl h0, rfl⟩ hr
  exact Objects.run_sound ho

theorem last_store_demo : Objects.Sound (demo.map event) :=
  let ⟨_, _, h0, hr⟩ := demo_run
  last_store h0 hr

/-- **When the heap can be given up.** In every reachable state, setting the
heap up anew and destroying it pass their checks if and only if no payload is
live. -/
theorem reset_iff {s : St} (hr : service.Reachable s) (base size : Word) :
    ((∃ fuel r, s.heap.reset fuel s.mem base size = .ok r) ↔ ∀ p, s.live p = none) ∧
    ((∃ fuel, s.heap.destroy fuel s.mem = .ok ()) ↔ ∀ p, s.live p = none) := by
  have hI := ready_inductive.reachable s hr
  -- both are the check of the old heap, if there is one
  have hreset : (∃ fuel r, s.heap.reset fuel s.mem base size = .ok r) ↔
      ∃ fuel, s.heap.destroy fuel s.mem = .ok () := by
    refine exists_congr fun fuel => ?_
    rw [Heap.reset, Heap.destroy]
    split
    · constructor
      · rintro ⟨_, h⟩
        obtain ⟨⟨⟩, h, -⟩ := Res.bind_eq_ok.mp h
        exact h
      · intro h
        exact ⟨_, by rw [h]; rfl⟩
    · exact ⟨fun _ => rfl, fun _ => ⟨_, rfl⟩⟩
  rw [hreset, and_self]
  rcases hI with ⟨he, hl⟩ | ⟨b, n, hlt, hI⟩
  · rw [he, hl]
    exact ⟨fun _ _ => rfl, fun _ => ⟨0, rfl⟩⟩
  · simp only [Heap.destroy, if_pos hI.size_ne]
    constructor
    · rintro ⟨fuel, hck⟩
      have hck := (stable_checkNoLiving s.mem s.heap.rootHeader).ok_le
        (Nat.le_max_right (b.toNat + n.toNat + 1) fuel) hck
      rcases hI.check hlt (Nat.lt_of_lt_of_le (Nat.lt_succ_self _) (Nat.le_max_left _ fuel)) with
        ⟨-, hnone⟩ | ⟨hp, -⟩
      · exact hnone
      · rw [hp] at hck
        cases hck
    · intro hnone
      rcases hI.check hlt (Nat.lt_succ_self _) with ⟨hp, -⟩ | ⟨-, p, hp⟩
      · exact ⟨_, hp⟩
      · exact absurd (hnone p) hp

theorem reset_iff_demo : ∃ s, service.Reachable s ∧
    ((∃ fuel r, s.heap.reset fuel s.mem 0x1000 32 = .ok r) ↔ ∀ p, s.live p = none) ∧
    ((∃ fuel, s.heap.destroy fuel s.mem = .ok ()) ↔ ∀ p, s.live p = none) := by
  obtain ⟨s, s', h0, hr⟩ := demo_run
  exact ⟨s', ⟨s, demo, h0, hr⟩, reset_iff ⟨s, demo, h0, hr⟩ 0x1000 32⟩

end X64k.L1.Heap
