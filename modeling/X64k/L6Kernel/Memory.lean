import X64k.L1Heap.Footprint
import X64k.L4Mm.Lowest
import X64k.L4Mm.Supply

/-!
# The kernel's memory

`heap::init` makes a block of `mm` the kernel's heap. From then on the owner
of the address space calls `mm` and accesses its blocks, and the clients of
the heap call the heap and access their payloads, in any order and on one
machine: the heap's code runs through the page tables, which lie in the memory
that both write to.

`Promise` is both sides' part: what `mm` and the heap ask for, and that the
owner leaves the heap's block to the heap.

* `kernel_objects`: two stores of objects side by side, in every run.
* `heap_agrees`: a call of the heap ends as it does on a flat memory, faults
  included, and never with a page fault.
* `boots`, `owner_served`: neither `heap::init` nor a call of `mm` panics.
* `never_written`: from 6 MiB on, what `mm` has not handed out is as
  `retainLoaderPaging` left it.
-/
namespace X64k.L4.Mm.Space

open X64k.Core X64k.L2.Paging

/-! ## Code in a block -/

section Code
variable {s : Statics} {root p : Word} {st : Space} {P : List Word} {α : Type}

/-- A program that keeps to a live block does what it does on the memory that
the kernel sees. The tables, the other blocks and the rest of the memory stay. -/
theorem Inv.runVia (hlow : LowTables s root) (h : Inv s root st) (hP : st.live p = some P)
    {f : Prog α} (hf : f.KeepsTo (L1.Heap.Code.Area p.toNat (p.toNat + 0x200000 * P.length))
      (seen root st.machine.mem)) :
    match f.run (seen root st.machine.mem) with
    | .ok (a, mv) => ∃ m', f.runVia (translate root) st.machine.mem = .ok (a, m') ∧
        Inv s root (st.withMem m') ∧
        Mem.EqOn mv (seen root m') p.toNat (p.toNat + 0x200000 * P.length) ∧
        Prog.Off (Area st.live) (place root st.machine.mem) st.machine.mem m' ∧
        (objects root (st.withMem m')).put p.toNat none = (objects root st).put p.toNat none
    | .error e => f.runVia (translate root) st.machine.mem = .error e := by
  have hsub (x : Word) (hx : L1.Heap.Code.Area p.toNat (p.toNat + 0x200000 * P.length) x) :
      Area st.live x := ⟨p, P, hP, hx⟩
  have hw := h.window hlow
  have hvia := Prog.run_via (hw.mono hsub) (.refl _ _ _) (views_seen _ _) hf
  split
  · rename_i a mv hr
    rw [hr] at hvia
    obtain ⟨m', hok, hoff, hviews⟩ := hvia
    have ho := hoff.mono hsub
    have hplace {a : Word} (ha : Area st.live a) : place root m' a = place root st.machine.mem a := by
      rw [place, hw.maps m' ho a ha, Option.getD_some]
    refine ⟨m', hok, h.off hlow ho, fun y h1 h2 => ?_, ho, ?_⟩
    · have hb := (h.backed p P hP).below
      have hy : (adr y).toNat = y := adr_toNat (by omega)
      have hin : L1.Heap.Code.Area p.toNat (p.toNat + 0x200000 * P.length) (adr y) :=
        ⟨by omega, by omega⟩
      show m' (place root m' (adr y)) = mv (adr y)
      rw [hplace (hsub _ hin)]
      exact hviews _ hin
    · -- the places of the other blocks are not written to
      have hother (q : Word) (n : Nat) (hq : sizes st.live q = some n) (hne : q ≠ p) :
          Mem.EqOn (seen root st.machine.mem) (seen root m') q.toNat (q.toNat + n) := by
        obtain ⟨Q, hQ, rfl⟩ := sizes_some hq
        intro y h1 h2
        have hb := (h.backed q Q hQ).below
        have hy : (adr y).toNat = y := adr_toNat (by omega)
        have hin : Area st.live (adr y) := ⟨q, Q, hQ, by omega, by omega⟩
        show m' (place root m' (adr y)) = st.machine.mem (place root st.machine.mem (adr y))
        rw [hplace hin]
        refine hoff _ fun b hb heq => ?_
        obtain rfl := hw.inj b (adr y) (hsub b hb) hin heq
        have hb' := hb
        have := (h.apart q Q p P hQ hP hne).2
        rw [L1.Heap.Code.Area, hy] at hb'
        omega
      have hput (m : Mem) (hm : ∀ q n, sizes st.live q = some n → q ≠ p →
          Mem.EqOn (seen root m) (seen root m') q.toNat (q.toNat + n)) :
          (objects root (st.withMem m)).put p.toNat none =
            Objects.ofMem 0x80000000 (2 ^ 47) (seen root m')
              (fun q => if q = p then none else sizes st.live q) :=
        (Objects.ofMem_put (v := none) (fun _ => rfl) hm).symm
      rw [hput m' fun q n _ _ _ _ _ => rfl]
      exact (hput st.machine.mem hother).symm
  · rename_i e hr
    rw [hr] at hvia
    exact hvia

end Code

end X64k.L4.Mm.Space

namespace X64k.L6.Memory

open X64k.Core X64k.L2.Paging X64k.L4.Mm
open X64k.L1.Heap (Heap)
open X64k.L1.Heap.Code (settle)

/-! ## The system -/

structure Kernel where
  space : Space
  /-- `heap::kernelHeap` -/
  kernelHeap : Heap
  /-- The live payloads of the heap, with their sizes. -/
  payloads : Word → Option Word

/-- The heap and its payloads in the memory that the kernel sees. -/
def Kernel.flat (root : Word) (k : Kernel) : L1.Heap.St :=
  ⟨k.kernelHeap, seen root k.space.machine.mem, k.payloads⟩

/-- The heap object is as constructed, and the only block is the one taken
here. mirrors src/kernel/mem/heap.cpp:261-265 -/
def heapInit (fuel : Nat) (s : Statics) (root : Word) (mach : Machine) : Res Kernel := do
  let (r, mach) ← alloc s mach root 16 AF_RW
  let heapRegion ← orPanic r "Failed to allocate memory for kernel heap"
  let (h, m) ← (L1.Heap.Code.reset fuel Heap.empty heapRegion (16 * 0x200000)).runVia
    (translate root) mach.mem
  let st := Space.grant root ⟨mach, fun _ => none⟩ mach 16 (some heapRegion)
  .ok ⟨st.withMem m, h, fun _ => none⟩

inductive Call where
  | mm (c : Space.Call)
  | heap (c : L1.Heap.Call)
  deriving DecidableEq, Repr

/-- The call is about the block at `p`. -/
def About (p : Word) : Space.Call → Prop
  | .alloc .. => False
  | .free q _ => q = p
  | .store q _ _ => q = p
  | .load q _ => q = p

/-- The owner's and the clients' side. The heap is set up once. -/
def Promise (s : Statics) (root : Word) (k : Kernel) : Call → Prop
  | .mm c => Space.Promise s root k.space c ∧ ¬ About k.kernelHeap.m_base c
  | .heap c => L1.Heap.Promise (k.flat root) c ∧ ∀ b n, c ≠ .reset b n

def call (fuel : Nat) (s : Statics) (root : Word) (k : Kernel) : Call → Res (Ans × Kernel)
  | .mm c => do
    let (a, st) ← Space.call s root k.space c
    .ok (a, { k with space := st })
  | .heap c => do
    let ((a, h), m) ← (L1.Heap.Code.call fuel k.kernelHeap c).runVia (translate root)
      k.space.machine.mem
    .ok (a, ⟨k.space.withMem m, h, settle k.payloads (c, a)⟩)

/-- From `heap::init` on, on the memory `m`. -/
def kernel (s : Statics) (root : Word) (m : Mem) : LTS Kernel (Call × Ans) where
  init k := ∃ fuel, heapInit fuel s root ⟨m, init⟩ = .ok k
  step k c k' := Promise s root k c.1 ∧ ∃ fuel, call fuel s root k c.1 = .ok (c.2, k')

/-- The owner's blocks: all but the heap's. -/
def blocks (root : Word) (k : Kernel) : Objects Byte :=
  (Space.objects root k.space).put k.kernelHeap.m_base.toNat none

def payloads (root : Word) (k : Kernel) : Objects Byte := L1.Heap.objects (k.flat root)

def event : Call × Ans → Objects.Event Byte ⊕ Objects.Event Byte
  | (.mm c, a) => .inl (Space.event (c, a))
  | (.heap c, a) => .inr (L1.Heap.event (c, a))

/-! ## The invariant -/

structure Inv (s : Statics) (root : Word) (k : Kernel) : Prop where
  space : Space.Inv s root k.space
  block : ∃ P, k.space.live k.kernelHeap.m_base = some P ∧
    0x200000 * P.length = k.kernelHeap.m_size.toNat
  firm : L1.Heap.Firm k.kernelHeap.m_base k.kernelHeap.m_size (k.flat root)

section Steps
variable {s : Statics} {root : Word} {k : Kernel}

theorem Inv.bounds (h : Inv s root k) : 0 < k.kernelHeap.m_base.toNat ∧
    k.kernelHeap.m_base.toNat + k.kernelHeap.m_size.toNat ≤ 2 ^ 47 := by
  obtain ⟨P, hP, hlen⟩ := h.block
  have h1 := (h.space.backed _ P hP).above
  have h2 := (h.space.backed _ P hP).below
  omega

/-- The kernel with another memory, the same as before on the heap. -/
theorem firm_seen {k' : Kernel} {t : L1.Heap.St} {base size : Word}
    (h : L1.Heap.Firm base size t) (hheap : k'.kernelHeap = t.heap) (hlive : k'.payloads = t.live)
    (hm : Mem.EqOn t.mem (seen root k'.space.machine.mem) base.toNat (base.toNat + size.toNat)) :
    L1.Heap.Firm base size (k'.flat root) ∧ payloads root k' = L1.Heap.objects t := by
  have hflat : k'.flat root = { t with mem := seen root k'.space.machine.mem } := by
    rw [Kernel.flat, hheap, hlive]
  rw [payloads, hflat]
  exact L1.Heap.Code.firm_congr h hm

/-- A call of `mm`: the heap's block keeps its bytes, whatever the owner does. -/
theorem Inv.mm (hlow : LowTables s root) (h : Inv s root k) {c : Space.Call}
    (hp : Promise s root k (.mm c)) {a : Ans} {st : Space}
    (he : Space.call s root k.space c = .ok (a, st)) :
    Inv s root { k with space := st } ∧
      Objects.Step (blocks root k) (Space.event (c, a)) (blocks root { k with space := st }) ∧
      payloads root { k with space := st } = payloads root k := by
  obtain ⟨hp, hab⟩ := hp
  obtain ⟨hI, hst⟩ := h.space.step (m := k.space.machine.mem) hlow (c := (c, a)) ⟨hp, he⟩
  obtain ⟨P, hP, hlen⟩ := h.block
  have hne (q : Word) (hq : q ≠ k.kernelHeap.m_base) : q.toNat ≠ k.kernelHeap.m_base.toNat :=
    fun heq => hq (BitVec.eq_of_toNat_eq heq)
  -- no event of the owner is about the heap's block
  have habout : ¬ (Space.event (c, a)).About k.kernelHeap.m_base.toNat := by
    cases c with
    | alloc n flags => exact id
    | free q n => exact hne q hab
    | store q i v => exact hne q hab
    | load q i => exact hne q hab
  have hends : ¬ (Space.event (c, a)).Ends k.kernelHeap.m_base.toNat := by
    cases c with
    | alloc n flags => exact id
    | free q n => exact hne q hab
    | store q i v => exact id
    | load q i => exact id
  have hwrites (i : Nat) : ¬ (Space.event (c, a)).Writes k.kernelHeap.m_base.toNat i := by
    cases c with
    | alloc n flags => exact id
    | free q n => exact id
    | store q j v => exact fun hw => hne q hab hw.1
    | load q j => exact id
  have hobj : (Space.objects root k.space).obj k.kernelHeap.m_base.toNat =
      some (Objects.contents (seen root k.space.machine.mem) k.kernelHeap.m_base
        k.kernelHeap.m_size.toNat) := by
    rw [Space.objects, Objects.ofMem_obj, Space.sizes, hP, Option.map_some, Option.map_some, hlen]
  obtain ⟨bs, hbs, hl, hkeep⟩ := hst.keeps hobj hends
  obtain rfl := List.ext_getElem? fun i => hkeep i (hwrites i)
  rw [Space.objects, Objects.ofMem_obj] at hbs
  obtain ⟨n, hn, hc⟩ := Option.map_eq_some_iff.mp hbs
  obtain ⟨P', hP', rfl⟩ := Space.sizes_some hn
  have hlen' : 0x200000 * P'.length = k.kernelHeap.m_size.toNat := by
    have := congrArg List.length hc
    rwa [Objects.length_contents, Objects.length_contents] at this
  rw [hlen'] at hc
  obtain ⟨hF, hpay⟩ := @firm_seen root { k with space := st } _ _ _ h.firm rfl rfl
    (Objects.eqOn_of_contents hc)
  exact ⟨⟨hI, ⟨P', hP', hlen'⟩, hF⟩, hst.hide (by rw [hobj]; exact Option.some_ne_none _) habout,
    hpay⟩

/-- What is left after a call of the heap that was answered with `a`: `t` is
the heap on a flat memory, `m'` the memory of the machine. -/
structure Ran (s : Statics) (root : Word) (k : Kernel) (c : L1.Heap.Call) (a : Ans)
    (t : L1.Heap.St) (m' : Mem) : Prop where
  inv : Inv s root ⟨k.space.withMem m', t.heap, t.live⟩
  sees : Mem.EqOn t.mem (seen root m') k.kernelHeap.m_base.toNat
    (k.kernelHeap.m_base.toNat + k.kernelHeap.m_size.toNat)
  off : Prog.Off (Space.Area k.space.live) (place root k.space.machine.mem) k.space.machine.mem m'
  event : Objects.Step (payloads root k) (L1.Heap.event (c, a))
    (payloads root ⟨k.space.withMem m', t.heap, t.live⟩)
  blocks : blocks root ⟨k.space.withMem m', t.heap, t.live⟩ = blocks root k

/-- A call of the heap does on the machine what it does on a flat memory. -/
theorem Inv.heap (hlow : LowTables s root) (h : Inv s root k) {c : L1.Heap.Call}
    (hp : Promise s root k (.heap c)) (fuel : Nat) :
    match L1.Heap.call fuel (k.flat root) c with
    | .ok (a, t) => ∃ m', call fuel s root k (.heap c) =
        .ok (a, ⟨k.space.withMem m', t.heap, t.live⟩) ∧ Ran s root k c a t m'
    | .error f => call fuel s root k (.heap c) = .error f := by
  obtain ⟨hv, hc⟩ := hp
  obtain ⟨P, hP, hlen⟩ := h.block
  obtain ⟨h0, hlt⟩ := h.bounds
  have hkeep : (L1.Heap.Code.call fuel k.kernelHeap c).KeepsTo
      (L1.Heap.Code.Bounds k.kernelHeap c) (seen root k.space.machine.mem) :=
    L1.Heap.Code.firm_keepsTo h.firm (by omega) h0 hv
  have hin (x : Word) (hx : L1.Heap.Code.Bounds k.kernelHeap c x) : L1.Heap.Code.Area
      k.kernelHeap.m_base.toNat (k.kernelHeap.m_base.toNat + 0x200000 * P.length) x := by
    rw [hlen]
    refine hx.resolve_right fun hx => ?_
    cases c with
    | reset b n => exact hc b n rfl
    | _ => exact hx
  have hvia := h.space.runVia hlow hP (hkeep.mono hin)
  have hflat : L1.Heap.call fuel (k.flat root) c =
      (L1.Heap.Code.call fuel k.kernelHeap c).run (seen root k.space.machine.mem) >>= fun r =>
        .ok (r.1.1, ⟨r.1.2, r.2, settle k.payloads (c, r.1.1)⟩) :=
    L1.Heap.Code.call_eq fuel (k.flat root) c
  cases hr : (L1.Heap.Code.call fuel k.kernelHeap c).run (seen root k.space.machine.mem) with
  | error f =>
    rw [hr] at hvia hflat
    rw [hflat]
    exact congrArg (· >>= _) hvia
  | ok r =>
    obtain ⟨⟨a, hd⟩, mv⟩ := r
    rw [hr] at hvia hflat
    obtain ⟨m', hok, hI, hsees, hoff, hput⟩ := hvia
    rw [hflat]
    obtain ⟨hF, hst⟩ := L1.Heap.Code.firm_call h.firm (by omega) hv hc hflat
    have hheap : hd = k.kernelHeap := L1.Heap.Code.call_heap hc hflat
    rw [hlen] at hsees
    subst hheap
    obtain ⟨hF', hpay⟩ := @firm_seen root ⟨k.space.withMem m', k.kernelHeap,
      settle k.payloads (c, a)⟩ _ _ _ hF rfl rfl hsees
    refine ⟨m', congrArg (· >>= _) hok, ⟨hI, ⟨P, hP, hlen⟩, hF'⟩, hsees, hoff, ?_, hput⟩
    rw [hpay]
    exact hst

theorem Inv.ran (hlow : LowTables s root) (h : Inv s root k) {c : L1.Heap.Call}
    (hp : Promise s root k (.heap c)) {fuel : Nat} {a : Ans} {k' : Kernel}
    (he : call fuel s root k (.heap c) = .ok (a, k')) :
    ∃ t m', k' = ⟨k.space.withMem m', t.heap, t.live⟩ ∧ Ran s root k c a t m' := by
  have hh := h.heap hlow hp fuel
  cases hr : L1.Heap.call fuel (k.flat root) c with
  | error f =>
    rw [hr] at hh
    cases hh.symm.trans he
  | ok r =>
    obtain ⟨b, t⟩ := r
    rw [hr] at hh
    obtain ⟨m', hok, hran⟩ := hh
    cases hok.symm.trans he
    exact ⟨t, m', rfl, hran⟩

end Steps

/-! ## Whole runs -/

section Runs
variable {s : Statics} {root : Word} {m : Mem} {k k' : Kernel}

/-- The heap as `heap::init` leaves it: one free block. -/
def Fresh (root : Word) (k : Kernel) : Prop := ∃ v : Word, k.kernelHeap = ⟨v, 0x2000000⟩ ∧
  L1.Heap.Shape v 0x2000000 (k.flat root) [⟨L1.Heap.headerMagic, 0x2000000 - 32, 0⟩]

/-- What `heap::init` leaves of the memory `m`: one block, which is one free
block of heap. -/
structure Started (s : Statics) (root : Word) (m : Mem) (k : Kernel) : Prop where
  inv : Inv s root k
  supply : ∃ N, Supply s root m k.space.machine N
  fresh : Fresh root k
  blocks : blocks root k = ⟨0x80000000, 2 ^ 47, fun _ => none⟩
  payloads : ∃ v : Word, payloads root k = ⟨v.toNat, v.toNat + 0x2000000, fun _ => none⟩
  phys : k.space.machine.phys = markAll init (List.range' 3 16)
  spare : ∀ y, Space.Spare k.space.machine.phys y → k.space.machine.mem (adr y) = m (adr y)

/-- The heap's block: the first sixteen pages. -/
theorem heap_block (hlow : LowTables s root) (hb : AtBoot s root m) :
    ∃ v mach, alloc s ⟨m, init⟩ root 16 AF_RW = .ok (some v, mach) ∧
      Space.Inv s root (Space.grant root ⟨⟨m, init⟩, fun _ => none⟩ mach 16 (some v)) ∧
      (∃ N, Supply s root m mach N) ∧ mach.phys = markAll init (List.range' 3 16) ∧
      ∀ y, Space.Spare mach.phys y → mach.mem (adr y) = m (adr y) := by
  have hf : AF_RW ≤ AF_RW ||| AF_USER := by decide
  have hroom : (16 : Word).toNat ≤ (clearSlots init).card := by
    rw [clearSlots_init]
    decide
  obtain ⟨v, mach, hal, hS⟩ := (Supply.init hb).alloc hb hb.sound
    (show 0 < (16 : Word).toNat ∧ (16 : Word).toNat ≤ 32 by decide) hroom AF_RW
  have hI := Space.Inv.init hb.sound
  have hst := @Space.step_alloc s root 16 m ⟨⟨m, init⟩, fun _ => none⟩ mach AF_RW (some v)
    hf hroom hal
  obtain ⟨P, hpages, -⟩ := alloc_pages hal
  have hfirst : allocPhysicalPages init 16 = .ok (some ((List.range' 3 16).map physPage),
      markAll init (List.range' 3 16)) := (served_init.next 16 (by decide) rfl).1
  exact ⟨v, mach, hal, (hI.alloc hlow hf hroom hal).1, hS,
    (Prod.mk.inj (Except.ok.inj (hpages.symm.trans hfirst))).2,
    fun y hy => (hI.step_spare hlow hst hy).2⟩

/-- The reset of the heap object as constructed, on a flat memory. -/
theorem reset_block {v : Word} (hlt : v.toNat + 0x2000000 < 2 ^ 64) (fuel : Nat) (mv : Mem) :
    ∃ mv', (L1.Heap.Code.reset fuel Heap.empty v 0x2000000).run mv = .ok (⟨v, 0x2000000⟩, mv') ∧
      L1.Heap.Shape v 0x2000000 ⟨⟨v, 0x2000000⟩, mv', fun _ => none⟩
        [⟨L1.Heap.headerMagic, 0x2000000 - 32, 0⟩] ∧
      (L1.Heap.Code.reset fuel Heap.empty v 0x2000000).KeepsTo
        (L1.Heap.Code.Area v.toNat (v.toNat + 0x2000000)) mv := by
  have hlt : v.toNat + (0x2000000 : Word).toNat < 2 ^ 64 := hlt
  have hreset : Heap.empty.reset fuel mv v 0x2000000 =
      .ok (⟨v, 0x2000000⟩, L1.Heap.placeInitialHeader mv v 0x2000000) := rfl
  have hkeep : (L1.Heap.Code.reset fuel Heap.empty v 0x2000000).KeepsTo
      (L1.Heap.Code.Area v.toNat (v.toNat + 32)) mv :=
    L1.Heap.Code.reset_empty_keepsTo
      (show L1.Heap.Promise ⟨Heap.empty, mv, fun _ => none⟩ (.reset v 0x2000000)
        from ⟨by decide, hlt⟩) _
  refine ⟨_, (L1.Heap.Code.reset_run ..).trans hreset, ?_, hkeep.mono fun x hx =>
    ⟨hx.1, Nat.lt_of_lt_of_le hx.2 (Nat.add_le_add_left (by decide) _)⟩⟩
  exact L1.Heap.Shape.init (s := ⟨⟨v, 0x2000000⟩, _, fun _ => none⟩)
    (show 32 ≤ (0x2000000 : Word).toNat by decide) hlt ⟨⟨fuel, _, _, hreset⟩, rfl⟩

theorem heapInit_started (hlow : LowTables s root) (hb : AtBoot s root m) (fuel : Nat) :
    ∃ k, heapInit fuel s root ⟨m, init⟩ = .ok k ∧ Started s root m k := by
  obtain ⟨v, mach, hal, hI, ⟨N, hS⟩, hphys, hspare⟩ := heap_block hlow hb
  have hP : (Space.grant root ⟨⟨m, L4.Mm.init⟩, fun _ => none⟩ mach 16 (some v)).live v =
      some (Space.framesAt mach.mem root v 16) := if_pos rfl
  have hlen : 0x200000 * (Space.framesAt mach.mem root v 16).length = 0x2000000 := by
    rw [Space.framesAt, List.length_map, List.length_range]
  have hbelow := (hI.backed v _ hP).below
  rw [hlen] at hbelow
  -- the reset on the memory that the kernel sees
  obtain ⟨mv, hreset, hshape, hkeep⟩ := reset_block (Nat.lt_of_le_of_lt hbelow (by decide)) fuel
    (seen root (Space.grant root ⟨⟨m, L4.Mm.init⟩, fun _ => none⟩ mach 16 (some v)).machine.mem)
  rw [← hlen] at hkeep
  have hrun := hI.runVia hlow hP hkeep
  rw [hreset] at hrun
  obtain ⟨m', hok, hI', hsees, hoff, hput⟩ := hrun
  rw [hlen] at hsees
  obtain ⟨hs', hpay⟩ := L1.Heap.Code.shape_congr hshape hsees
  refine ⟨⟨(Space.grant root ⟨mach, fun _ => none⟩ mach 16 (some v)).withMem m', ⟨v, 0x2000000⟩,
    fun _ => none⟩, ?_, ⟨hI', ⟨_, hP, hlen⟩, _, hs', ⟨.inl rfl, trivial⟩,
    L1.Heap.above_cons (.inl rfl) (L1.Heap.above_nil _)⟩, ⟨N, Space.supply_off hlow hI hS hoff⟩,
    ⟨v, rfl, hs'⟩, ?_, ⟨v, hpay.trans (L1.Heap.objects_of_none rfl)⟩, hphys,
    fun y hy => (hI.off_spare hoff hy).trans (hspare y hy)⟩
  · have hok : (L1.Heap.Code.reset fuel Heap.empty v (16 * 0x200000)).runVia (translate root)
        mach.mem = .ok (⟨v, 0x2000000⟩, m') := hok
    simp only [heapInit, hal, Res.ok_bind, orPanic, hok]
  · refine hput.trans ?_
    rw [← Objects.ofMem_none _ _ (seen root mach.mem)]
    refine (Objects.ofMem_put (v := none) (fun q => ?_) fun _ _ _ _ _ _ _ => rfl).symm
    split
    · rfl
    · rename_i hq
      simp only [Space.sizes, Space.grant, Space.put, if_neg hq, Option.map_none]

theorem init_started (hlow : LowTables s root) (hb : AtBoot s root m)
    (h : (kernel s root m).init k) : Started s root m k := by
  obtain ⟨fuel, he⟩ := h
  obtain ⟨k', he', hk⟩ := heapInit_started hlow hb fuel
  obtain rfl := Except.ok.inj (he'.symm.trans he)
  exact hk

theorem Inv.step (hlow : LowTables s root) (h : Inv s root k) {c : Call × Ans}
    (hst : (kernel s root m).step k c k') : Inv s root k' ∧
      (LTS.both (Objects.lts Byte) (Objects.lts Byte)).step (blocks root k, payloads root k)
        (event c) (blocks root k', payloads root k') ∧
      ∀ y, Space.Spare k'.space.machine.phys y → Space.Spare k.space.machine.phys y ∧
        k'.space.machine.mem (adr y) = k.space.machine.mem (adr y) := by
  obtain ⟨c, a⟩ := c
  obtain ⟨hp, fuel, he⟩ := hst
  cases c with
  | mm c =>
    obtain ⟨⟨b, st⟩, hr, he⟩ := Res.bind_eq_ok.mp he
    cases he
    obtain ⟨hI, hobj, hpay⟩ := h.mm hlow hp hr
    exact ⟨hI, ⟨hobj, hpay⟩, fun y hy =>
      @Space.Inv.step_spare s root k.space st m (c, a) y hlow h.space ⟨hp.1, hr⟩ hy⟩
  | heap c =>
    obtain ⟨t, m', rfl, hran⟩ := h.ran hlow hp he
    exact ⟨hran.inv, ⟨hran.event, hran.blocks⟩, fun y hy => ⟨hy, h.space.off_spare hran.off hy⟩⟩

theorem Inv.supply_step {m₀ : Mem} (hlow : LowTables s root) (hb : AtBoot s root m₀)
    (h : Inv s root k) (hS : ∃ N, Supply s root m₀ k.space.machine N) {c : Call × Ans}
    (hst : (kernel s root m).step k c k') : ∃ N, Supply s root m₀ k'.space.machine N := by
  obtain ⟨c, a⟩ := c
  obtain ⟨hp, fuel, he⟩ := hst
  cases c with
  | mm c =>
    obtain ⟨⟨b, st⟩, hr, he⟩ := Res.bind_eq_ok.mp he
    cases he
    exact @Space.supply_step s root m m₀ k.space st (c, a) hlow hb h.space hS ⟨hp.1, hr⟩
  | heap c =>
    obtain ⟨N, hS⟩ := hS
    obtain ⟨t, m', rfl, hran⟩ := h.ran hlow hp he
    exact ⟨N, Space.supply_off hlow h.space hS hran.off⟩

theorem kernel_refines (hlow : LowTables s root) (hb : AtBoot s root m) :
    (kernel s root m).Refines (LTS.both (Objects.lts Byte) (Objects.lts Byte))
      (fun k o => Inv s root k ∧ o = (blocks root k, payloads root k)) event where
  init k hk := by
    have h := init_started hlow hb hk
    obtain ⟨v, hpay⟩ := h.payloads
    exact ⟨_, ⟨fun p => by rw [h.blocks], fun p => by rw [hpay]⟩, h.inv, rfl⟩
  step k o c k' := by
    rintro ⟨hI, rfl⟩ hst
    obtain ⟨hI', hstep, -⟩ := hI.step hlow hst
    exact ⟨_, hstep, hI', rfl⟩

end Runs

/-! ## A run -/

section Demo
variable {s : Statics} {root : Word} {m : Mem} {k : Kernel} {a : Ans} {f : Nat}

/-- The heap as `heap::init` leaves it serves 16 bytes. -/
theorem fresh_serves (h0 : 0 < k.kernelHeap.m_base.toNat)
    (hlt : k.kernelHeap.m_base.toNat + k.kernelHeap.m_size.toNat < 2 ^ 64) (hk : Fresh root k) :
    ∃ p t, L1.Heap.call 2 (k.flat root) (.alloc 16) = .ok (.addr (some p), t) ∧
      t.live p = some 16 ∧ t.heap = k.kernelHeap := by
  obtain ⟨v, hv, hs⟩ := hk
  rw [hv] at h0 hlt
  have hal := L1.Heap.allocFrom_refines (n := 16) (by decide) hlt _ _ 2 hs.blocks hs.tiles h0
    (Nat.lt_succ_self _)
  have hcut : L1.Heap.allocBlks 16 v.toNat [⟨L1.Heap.headerMagic, 0x2000000 - 32, 0⟩] =
      some (v.toNat + 32, L1.Heap.cut 16 v.toNat ⟨L1.Heap.headerMagic, 0x2000000 - 32, 0⟩ ++ []) :=
    if_pos (by decide)
  rw [hcut, L1.Heap.Code.root_link hs] at hal
  obtain ⟨m', hok, -⟩ := hal
  have hok : (k.flat root).heap.alloc 2 (k.flat root).mem 16 = .ok (some (adr (v.toNat + 32)), m') :=
    hok
  refine ⟨adr (v.toNat + 32), (k.flat root).grant m' 16 (some (adr (v.toNat + 32))), ?_, if_pos rfl,
    rfl⟩
  simp only [L1.Heap.call, hok, Res.ok_bind]

theorem Inv.heap_step (hlow : LowTables s root) (h : Inv s root k) {c : L1.Heap.Call}
    {t : L1.Heap.St} (hp : Promise s root k (.heap c))
    (he : L1.Heap.call f (k.flat root) c = .ok (a, t)) :
    ∃ m', (kernel s root m).step k (.heap c, a) ⟨k.space.withMem m', t.heap, t.live⟩ ∧
      Inv s root ⟨k.space.withMem m', t.heap, t.live⟩ := by
  have hh := h.heap hlow hp f
  rw [he] at hh
  obtain ⟨m', hok, hran⟩ := hh
  exact ⟨m', ⟨hp, f, hok⟩, hran.inv⟩

theorem Inv.mm_step (hlow : LowTables s root) (h : Inv s root k) {c : Space.Call} {st : Space}
    (hp : Promise s root k (.mm c)) (he : Space.call s root k.space c = .ok (a, st)) :
    (kernel s root m).step k (.mm c, a) { k with space := st } ∧ Inv s root { k with space := st } :=
  ⟨⟨hp, 0, by rw [call, he, Res.ok_bind]⟩, (h.mm hlow hp he).1⟩

/-- The owner takes two pages behind the heap's. -/
theorem Inv.takes (hlow : LowTables s root) (hb : AtBoot s root m) (h : Inv s root k)
    (hS : ∃ N, Supply s root m k.space.machine N) (hsize : k.kernelHeap.m_size = 0x2000000)
    (hphys : k.space.machine.phys = markAll init (List.range' 3 16)) :
    ∃ q st, (kernel s root m).step k (.mm (.alloc 2 AF_RW), .addr (some q)) { k with space := st } ∧
      Inv s root { k with space := st } ∧ Space.sizes st.live q = some 0x400000 ∧
      q ≠ k.kernelHeap.m_base ∧ st.machine.phys = markAll init (List.range' 3 18) := by
  obtain ⟨N, hS⟩ := hS
  have hroom : (2 : Word).toNat ≤ (clearSlots k.space.machine.phys).card := by
    have hleft := clearSlots_low (show 16 ≤ 32 by decide)
    have hn : (2 : Word).toNat = 2 := rfl
    rw [hphys]
    omega
  obtain ⟨q, mach, hal, -⟩ := hS.alloc hb h.space.sound
    (show 0 < (2 : Word).toNat ∧ (2 : Word).toNat ≤ 32 by decide) hroom AF_RW
  have hp : Promise s root k (.mm (.alloc 2 AF_RW)) := ⟨⟨by decide, hroom⟩, id⟩
  have he : Space.call s root k.space (.alloc 2 AF_RW) =
      .ok (.addr (some q), k.space.grant root mach 2 (some q)) := by
    simp only [Space.call, hal, Res.ok_bind]
  obtain ⟨hst, hI⟩ := h.mm_step (m := m) hlow hp he
  have hsizes : Space.sizes (k.space.grant root mach 2 (some q)).live q = some 0x400000 := by
    simp [Space.grant, Space.sizes, Space.put, Space.framesAt]
  refine ⟨q, _, hst, hI, hsizes, fun hq => ?_, ?_⟩
  · -- the heap's block is longer
    obtain ⟨P, hP, hlen⟩ := hI.block
    obtain ⟨Q, hQ, hlen'⟩ := Space.sizes_some hsizes
    have hP : (k.space.grant root mach 2 (some q)).live k.kernelHeap.m_base = some P := hP
    rw [← hq] at hP
    obtain rfl := Option.some.inj (hP.symm.trans hQ)
    have hlen : 0x200000 * P.length = k.kernelHeap.m_size.toNat := hlen
    rw [hsize] at hlen
    exact absurd (hlen.symm.trans hlen') (by decide)
  · obtain ⟨c, hserved⟩ := (served_init.next 16 (by decide) rfl).2
    have hnext : allocPhysicalPages (markAll init (List.range' 3 16)) 2 =
        .ok (some ((List.range' 19 2).map physPage), markAll init (List.range' 3 18)) :=
      (hserved.next 2 (by decide) rfl).1
    obtain ⟨P, hpages, -⟩ := alloc_pages hal
    rw [hphys] at hpages
    exact (Prod.mk.inj (Except.ok.inj (hpages.symm.trans hnext))).2

/-- Each side takes an object and stores into it, and after the other side's
calls loads from it. -/
theorem demo_run : ∃ s m k k' p q b c, FromLoader 0x200000 0x100000 s {0x100000} m ∧
    (kernel s 0x100000 m).init k ∧ (kernel s 0x100000 m).Run k
      [(.heap (.alloc 16), .addr (some p)), (.heap (.store p 3 7), .done),
        (.mm (.alloc 2 AF_RW), .addr (some q)), (.mm (.store q 5 9), .done),
        (.heap (.load p 3), .byte b), (.mm (.load q 5), .byte c)] k' ∧
      k'.space.machine.phys = markAll init (List.range' 3 18) := by
  obtain ⟨s, m, -, -, h₀, -⟩ := demo_boot
  have hlow : LowTables s 0x100000 := Space.FromLoader.low h₀
  have hb : AtBoot s 0x100000 m := FromLoader.atBoot h₀
  obtain ⟨k, hk, hS⟩ := heapInit_started hlow hb 0
  have hI := hS.inv
  have hbound := hI.bounds
  obtain ⟨p, t, hcall, hlive, hheap⟩ := fresh_serves hbound.1 (by omega) hS.fresh
  obtain ⟨m₁, hst₁, h₁⟩ := hI.heap_step (m := m) (c := .alloc 16) hlow
    ⟨show (16 : Word).toNat + 32 < 2 ^ 64 by decide, nofun⟩ hcall
  have hin : (3 : Word) < (t.live p).getD 0 := by
    rw [hlive]
    decide
  obtain ⟨m₂, hst₂, h₂⟩ := h₁.heap_step (m := m) (c := .store p 3 7) (f := 0) hlow ⟨hin, nofun⟩
    rfl
  have hsize : t.heap.m_size = 0x2000000 := by
    obtain ⟨v, hv, -⟩ := hS.fresh
    rw [hheap, hv]
  obtain ⟨q, st, hst₃, h₃, hq, hne, hphys⟩ := h₂.takes hlow hb
    (h₁.supply_step hlow hb (hI.supply_step hlow hb hS.supply hst₁) hst₂) hsize hS.phys
  have hp₄ : Space.Promise s 0x100000 st (.store q 5 9) := ⟨_, hq, by decide⟩
  obtain ⟨m₄, he₄, -⟩ := h₃.space.store_returns hlow hp₄
  obtain ⟨hst₄, h₄⟩ := h₃.mm_step (m := m) hlow ⟨hp₄, hne⟩ he₄
  obtain ⟨m₅, hst₅, h₅⟩ := h₄.heap_step (m := m) (c := .load p 3) (f := 0) hlow ⟨hin, nofun⟩ rfl
  have hp₆ : Space.Promise s 0x100000 ((st.withMem m₄).withMem m₅) (.load q 5) :=
    ⟨_, hq, by decide⟩
  obtain ⟨c, he₆⟩ := h₅.space.load_returns hlow hp₆
  obtain ⟨hst₆, -⟩ := h₅.mm_step (m := m) hlow ⟨hp₆, hne⟩ he₆
  exact ⟨s, m, k, _, p, q, _, c, h₀, ⟨0, hk⟩, .cons hst₁ (.cons hst₂ (.cons hst₃ (.cons hst₄
    (.cons hst₅ (.cons hst₆ (.nil _)))))), hphys⟩

end Demo

/-! ## Main results -/

section Main
variable {tr root : L3.Loader.Ptr} {s : Statics} {m : Mem} {k k' : Kernel}

theorem inv_inductive (h₀ : FromLoader tr root s {root.addr} m) :
    (kernel s root.addr m).Inductive fun k => Inv s root.addr k ∧
      ∃ N, Supply s root.addr m k.space.machine N where
  init k hk := by
    have h := init_started (Space.FromLoader.low h₀) (FromLoader.atBoot h₀) hk
    exact ⟨h.inv, h.supply⟩
  step k c k' := by
    rintro ⟨hI, hS⟩ hst
    have hlow := Space.FromLoader.low h₀
    exact ⟨(hI.step hlow hst).1, hI.supply_step hlow (FromLoader.atBoot h₀) hS hst⟩

/-- **Two stores of objects.** On the loader's tables, whatever the calls and
however the two sides take turns: what the owner sees of its blocks and what
the clients see of the heap are runs of two stores of objects that do not
touch each other, with the heap's store in one block. -/
theorem kernel_objects (h₀ : FromLoader tr root s {root.addr} m) {cs : List (Call × Ans)}
    (h0 : (kernel s root.addr m).init k) (hr : (kernel s root.addr m).Run k cs k') :
    ∃ v : Word, (LTS.both (Objects.lts Byte) (Objects.lts Byte)).Run
        (⟨0x80000000, 2 ^ 47, fun _ => none⟩, ⟨v.toNat, v.toNat + 0x2000000, fun _ => none⟩)
        (cs.map event) (blocks root.addr k', payloads root.addr k') := by
  have hlow := Space.FromLoader.low h₀
  have hb := FromLoader.atBoot h₀
  have h := init_started hlow hb h0
  obtain ⟨v, hpay⟩ := h.payloads
  obtain ⟨o, ho, -, rfl⟩ := (kernel_refines hlow hb).run ⟨h.inv, rfl⟩ hr
  rw [h.blocks, hpay] at ho
  exact ⟨v, ho⟩

theorem kernel_objects_demo : ∃ (k' : Kernel) (v : Word), ∃ es,
    (LTS.both (Objects.lts Byte) (Objects.lts Byte)).Run
      (⟨0x80000000, 2 ^ 47, fun _ => none⟩, ⟨v.toNat, v.toNat + 0x2000000, fun _ => none⟩) es
      (blocks 0x100000 k', payloads 0x100000 k') ∧ es.length = 6 := by
  obtain ⟨s, m, k, k', p, q, b, c, h₀, h0, hr, -⟩ := demo_run
  obtain ⟨v, h⟩ := @kernel_objects 0x200000 0x100000 s m k k' h₀ _ h0 hr
  exact ⟨k', v, _, h, rfl⟩

/-- **No interference.** In every such run each side's loads return what that
side stored last, and what one side holds at a time never meets: the owner's
blocks among themselves, and the clients' payloads. -/
theorem kernel_sound (h₀ : FromLoader tr root s {root.addr} m) {cs : List (Call × Ans)}
    (h0 : (kernel s root.addr m).init k) (hr : (kernel s root.addr m).Run k cs k') :
    Objects.Sound ((cs.map event).filterMap Sum.getLeft?) ∧
      Objects.Sound ((cs.map event).filterMap Sum.getRight?) := by
  obtain ⟨o, ho, -⟩ := (kernel_refines (Space.FromLoader.low h₀) (FromLoader.atBoot h₀)).run
    ⟨((inv_inductive h₀).init _ h0).1, rfl⟩ hr
  obtain ⟨h1, h2⟩ := ho.both
  exact ⟨Objects.run_sound h1, Objects.run_sound h2⟩

theorem kernel_sound_demo : ∃ (p q : Word) (b c : Byte),
    Objects.Sound [.alloc (0x200000 * 2) (some q.toNat), .store q.toNat 5 9, .load q.toNat 5 c] ∧
      Objects.Sound [.alloc 16 (some p.toNat), .store p.toNat 3 7, .load p.toNat 3 b] := by
  obtain ⟨s, m, k, k', p, q, b, c, h₀, h0, hr, -⟩ := demo_run
  exact ⟨p, q, b, c, @kernel_sound 0x200000 0x100000 s m k k' h₀ _ h0 hr⟩

/-- **The machine is transparent.** In every reachable state, a call of the
heap ends on the machine as it does on the flat memory that the kernel sees:
with the same answer and the same heap, or with the same fault, which is never
a page fault of its own. -/
theorem heap_agrees (h₀ : FromLoader tr root s {root.addr} m)
    (hr : (kernel s root.addr m).Reachable k) {c : L1.Heap.Call}
    (hp : Promise s root.addr k (.heap c)) (fuel : Nat) :
    match L1.Heap.call fuel (k.flat root.addr) c with
    | .ok (a, t) => ∃ k', call fuel s root.addr k (.heap c) = .ok (a, k') ∧
        k'.kernelHeap = t.heap ∧ k'.payloads = t.live ∧
        Mem.EqOn t.mem (seen root.addr k'.space.machine.mem) k.kernelHeap.m_base.toNat
          (k.kernelHeap.m_base.toNat + k.kernelHeap.m_size.toNat)
    | .error f => call fuel s root.addr k (.heap c) = .error f := by
  have h := ((inv_inductive h₀).reachable k hr).1.heap (Space.FromLoader.low h₀) hp fuel
  split
  · rename_i a t he
    rw [he] at h
    obtain ⟨m', hok, hran⟩ := h
    exact ⟨_, hok, rfl, rfl, hran.sees⟩
  · rename_i f he
    rw [he] at h
    exact h

theorem heap_agrees_demo : ∃ s m k, (kernel s 0x100000 m).Reachable k ∧
    match L1.Heap.call 9 (k.flat 0x100000) (.alloc 8) with
    | .ok (a, t) => ∃ k', call 9 s 0x100000 k (.heap (.alloc 8)) = .ok (a, k') ∧
        k'.kernelHeap = t.heap ∧ k'.payloads = t.live ∧
        Mem.EqOn t.mem (seen 0x100000 k'.space.machine.mem) k.kernelHeap.m_base.toNat
          (k.kernelHeap.m_base.toNat + k.kernelHeap.m_size.toNat)
    | .error f => call 9 s 0x100000 k (.heap (.alloc 8)) = .error f := by
  obtain ⟨s, m, k, k', p, q, b, c, h₀, h0, hr, -⟩ := demo_run
  have hp : Promise s 0x100000 k' (.heap (.alloc 8)) :=
    ⟨show (8 : Word).toNat + 32 < 2 ^ 64 by decide, nofun⟩
  exact ⟨s, m, k', ⟨k, _, h0, hr⟩, @heap_agrees 0x200000 0x100000 s m k' h₀ ⟨k, _, h0, hr⟩ _ hp 9⟩

/-- **The kernel boots.** On the loader's tables `heap::init` does not panic. -/
theorem boots (h₀ : FromLoader tr root s {root.addr} m) (fuel : Nat) :
    ∃ k, heapInit fuel s root.addr ⟨m, L4.Mm.init⟩ = .ok k ∧ (kernel s root.addr m).init k := by
  obtain ⟨k, he, -⟩ := heapInit_started (Space.FromLoader.low h₀) (FromLoader.atBoot h₀) fuel
  exact ⟨k, he, fuel, he⟩

theorem boots_demo : ∃ s m k, FromLoader 0x200000 0x100000 s {0x100000} m ∧
    heapInit 0 s 0x100000 ⟨m, L4.Mm.init⟩ = .ok k := by
  obtain ⟨s, m, -, -, h₀, -⟩ := demo_boot
  obtain ⟨k₀, he, -⟩ := @boots 0x200000 0x100000 s m h₀ 0
  exact ⟨s, m, k₀, h₀, he⟩

/-- **The owner is served.** In every reachable state a call of `mm`, or an
access to a block, that keeps the owner's side returns, if it asks for no more
than 32 pages. -/
theorem owner_served (h₀ : FromLoader tr root s {root.addr} m)
    (hr : (kernel s root.addr m).Reachable k) {c : Space.Call} (hp : Promise s root.addr k (.mm c))
    (hn : ∀ n flags, c = .alloc n flags → n.toNat ≤ 32) (fuel : Nat) :
    ∃ a k', call fuel s root.addr k (.mm c) = .ok (a, k') := by
  obtain ⟨hI, hS⟩ := (inv_inductive h₀).reachable k hr
  obtain ⟨a, st, he⟩ := Space.call_returns (Space.FromLoader.low h₀) (FromLoader.atBoot h₀) hI.space
    hS hp.1 hn
  exact ⟨a, { k with space := st }, by rw [call, he, Res.ok_bind]⟩

theorem owner_served_demo : ∃ s m k, (kernel s 0x100000 m).Reachable k ∧
    ∃ a k', call 0 s 0x100000 k (.mm (.alloc 32 AF_USER)) = .ok (a, k') := by
  obtain ⟨s, m, k, k', p, q, b, c, h₀, h0, hr, hphys⟩ := demo_run
  have hroom : (32 : Word).toNat ≤ (clearSlots k'.space.machine.phys).card := by
    have hleft := clearSlots_low (show 18 ≤ 32 by decide)
    have hn : (32 : Word).toNat = 32 := rfl
    rw [hphys]
    omega
  have hp : Promise s 0x100000 k' (.mm (.alloc 32 AF_USER)) := ⟨⟨by decide, hroom⟩, id⟩
  refine ⟨s, m, k', ⟨k, _, h0, hr⟩, @owner_served 0x200000 0x100000 s m k' h₀ ⟨k, _, h0, hr⟩ _ hp
    (fun n flags hc => ?_) 0⟩
  cases hc
  decide

end Main

end X64k.L6.Memory
