import X64k.Core.Program
import X64k.L1Heap.Frame

/-!
# The heap's code as loads and stores

The functions of `Heap` once more, as programs: every field of a header that
the source reads or writes is one access. Run on a flat memory they compute
what the functions do (`alloc_run`, `allocAligned_run`, `free_run`,
`freeChecked_run`, `reset_run`), so what is known of the functions is known of
the programs; as programs they can also be run with address translation.

The walks of `alloc` and `allocAligned`, and `free`, keep to the range of the
heap (`allocFrom_keepsTo`, `allocAlignedFrom_keepsTo`, `free_keepsTo`).
-/
namespace X64k.L1.Heap.Code

open X64k.Core

/-! ## Header fields -/

def flags (hdr : Word) : Prog Word := .load64 hdr
def length (hdr : Word) : Prog Word := .load64 (hdr + 8)
def prev (hdr : Word) : Prog Word := .load64 (hdr + 16)
def next (hdr : Word) : Prog Word := .load64 (hdr + 24)

def setFlags (hdr v : Word) : Prog Unit := .store64 hdr v
def setLength (hdr v : Word) : Prog Unit := .store64 (hdr + 8) v
def setPrev (hdr v : Word) : Prog Unit := .store64 (hdr + 16) v
def setNext (hdr v : Word) : Prog Unit := .store64 (hdr + 24) v

/-! ## Setting up -/

/-- mirrors src/kernel/mem/heap.cpp:49-54 -/
def placeInitialHeader (hdr size : Word) : Prog Unit := do
  setFlags hdr headerMagic
  setLength hdr (size - headerSize)
  setPrev hdr 0
  setNext hdr 0

/-- mirrors src/kernel/mem/heap.cpp:36-43 -/
def checkNoLiving : Nat → Word → Prog Unit
  | 0, _ => .fail .loop
  | fuel + 1, hdr =>
    if hdr = 0 then .ret ()
    else do
      let f ← flags hdr
      if f &&& headerMagic ≠ headerMagic then .fail (.panic "Heap is broken")
      else do
        let f ← flags hdr
        if f &&& HF_ALLOC ≠ 0 then .fail (.panic "Tried to destroy heap with living objects")
        else do
          let n ← next hdr
          checkNoLiving fuel n

/-- mirrors src/kernel/mem/heap.cpp:34-55 -/
def reset (fuel : Nat) (h : Heap) (base size : Word) : Prog Heap := do
  if h.m_size ≠ 0 then
    checkNoLiving fuel h.rootHeader
  let h' : Heap := ⟨base, size⟩
  placeInitialHeader h'.rootHeader size
  .ret h'

/-! ## Allocation -/

/-- mirrors src/kernel/mem/heap.cpp:76-85 -/
def split (hdr size : Word) : Prog Unit := do
  let newHeader := hdr + headerSize + size
  let f ← flags hdr
  setFlags hdr (f ||| HF_ALLOC)
  setPrev newHeader hdr
  let n ← next hdr
  setNext newHeader n
  setFlags newHeader headerMagic
  let len ← length hdr
  setLength newHeader (len - size - headerSize)
  setNext hdr newHeader
  setLength hdr size

/-- `hdr->flags |= HF_ALLOC` -/
def mark (hdr : Word) : Prog Unit := do
  let f ← flags hdr
  setFlags hdr (f ||| HF_ALLOC)

/-- mirrors src/kernel/mem/heap.cpp:64-94 -/
def allocFrom (size : Word) : Nat → Word → Prog (Option Word)
  | 0, _ => .fail .loop
  | fuel + 1, hdr =>
    if hdr = 0 then .ret none
    else do
      let f ← flags hdr
      if f &&& headerMagic ≠ headerMagic then .fail (.panic "Heap is broken")
      else do
        let f ← flags hdr
        if f &&& HF_ALLOC ≠ 0 then do
          let n ← next hdr
          allocFrom size fuel n
        else do
          let len ← length hdr
          if len > size + headerSize then do
            split hdr size
            .ret (some (hdr + headerSize))
          else do
            let len ← length hdr
            if len = size then do
              mark hdr
              .ret (some (hdr + headerSize))
            else do
              let n ← next hdr
              allocFrom size fuel n

/-- mirrors src/kernel/mem/heap.cpp:61-97 -/
def alloc (fuel : Nat) (h : Heap) (size : Word) : Prog (Option Word) :=
  allocFrom size fuel h.rootHeader

/-- mirrors src/kernel/mem/heap.cpp:157-173 -/
def cutMiddle (hdr nextAligned size padSize actualSize : Word) : Prog Unit := do
  let last := nextAligned + size
  let mid := nextAligned - headerSize
  let n ← next hdr
  setNext last n
  setNext mid last
  setNext hdr mid
  setLength last (actualSize - size - headerSize)
  setLength mid size
  setLength hdr (padSize - headerSize)
  setFlags last headerMagic
  setFlags mid (headerMagic ||| HF_ALLOC)
  setPrev mid hdr
  setPrev last mid

/-- mirrors src/kernel/mem/heap.cpp:174-187 -/
def cutHead (hdr nextAligned size padSize : Word) : Prog Unit := do
  let last := nextAligned - headerSize
  setPrev last hdr
  let n ← next hdr
  setNext last n
  setNext hdr last
  setLength last size
  setLength hdr (padSize - headerSize)
  setFlags last (headerMagic ||| HF_ALLOC)

/-- mirrors src/kernel/mem/heap.cpp:114-190 -/
def place (hdr size align : Word) : Nat → Word → Prog (Option Word)
  | 0, _ => .fail .loop
  | fuel + 1, nextAligned => do
    let addr := hdr + headerSize
    let padSize := nextAligned - addr
    let len ← length hdr
    let actualSize := len - padSize
    if actualSize.slt 0 then .ret none
    else if addr = nextAligned then
      if actualSize = size then do
        mark hdr
        .ret (some addr)
      else do
        split hdr size
        .ret (some addr)
    else if padSize < headerSize then do
      let len ← length hdr
      if nextAligned + align - addr ≥ len then .ret none
      else place hdr size align fuel (nextAligned + align)
    else if actualSize > size + headerSize then do
      cutMiddle hdr nextAligned size padSize actualSize
      .ret (some nextAligned)
    else if actualSize = size then do
      cutHead hdr nextAligned size padSize
      .ret (some nextAligned)
    else place hdr size align fuel nextAligned

/-- mirrors src/kernel/mem/heap.cpp:103-193 -/
def allocAlignedFrom (size align : Word) (bound : Nat) : Nat → Word → Prog (Option Word)
  | 0, _ => .fail .loop
  | fuel + 1, hdr =>
    if hdr = 0 then .ret none
    else do
      let f ← flags hdr
      if f &&& headerMagic ≠ headerMagic then .fail (.panic "Heap is broken")
      else do
        let f ← flags hdr
        if f &&& HF_ALLOC ≠ 0 then do
          let n ← next hdr
          allocAlignedFrom size align bound fuel n
        else do
          match ← place hdr size align bound (alignUp (hdr + headerSize) align) with
          | some p => .ret (some p)
          | none => do
            let n ← next hdr
            allocAlignedFrom size align bound fuel n

/-- mirrors src/kernel/mem/heap.cpp:99-194 -/
def allocAligned (fuel : Nat) (h : Heap) (size align : Word) : Prog (Option Word) :=
  allocAlignedFrom size align fuel fuel h.rootHeader

/-! ## Freeing -/

/-- mirrors src/kernel/mem/heap.cpp:209-218 -/
def freeBack : Nat → Word → Prog Word
  | 0, _ => .fail .loop
  | fuel + 1, hdr => do
    let p ← prev hdr
    if p = 0 then .ret hdr
    else do
      let f ← flags p
      Prog.assert (f &&& headerMagic = headerMagic) "(prev->flags & headerMagic) == headerMagic"
      let f ← flags p
      if f &&& HF_ALLOC ≠ 0 then .ret hdr else freeBack fuel p

/-- mirrors src/kernel/mem/heap.cpp:228-233 -/
def absorb (hdr nxt : Word) : Prog Unit := do
  let len ← length hdr
  let k ← length nxt
  setLength hdr (len + (headerSize + k))
  let n ← next nxt
  setNext hdr n
  let n ← next hdr
  if n ≠ 0 then setPrev n hdr else .ret ()
  Prog.memset nxt 0 headerSize.toNat 0

/-- mirrors src/kernel/mem/heap.cpp:220-234 -/
def freeForward : Nat → Word → Prog Unit
  | 0, _ => .fail .loop
  | fuel + 1, hdr => do
    let n ← next hdr
    if n = 0 then .ret ()
    else do
      let f ← flags n
      Prog.assert (f &&& headerMagic = headerMagic) "(next->flags & headerMagic) == headerMagic"
      let f ← flags n
      if f &&& HF_ALLOC ≠ 0 then .ret ()
      else do
        absorb hdr n
        freeForward fuel hdr

/-- mirrors src/kernel/mem/heap.cpp:196-235 -/
def free (fuel : Nat) (p : Word) : Prog Unit := do
  let hdr := p - headerSize
  let f ← flags hdr
  Prog.assert (f &&& headerMagic = headerMagic)
    "(hdr->flags & heap::headerMagic) == heap::headerMagic"
  let f ← flags hdr
  if ¬ f &&& HF_ALLOC ≠ 0 then
    .fail (.panic "Heap object double-free detected: tried to free non-allocated pointer")
  else do
    let f ← flags hdr
    setFlags hdr (f &&& ~~~HF_ALLOC)
    let hdr ← freeBack fuel hdr
    freeForward fuel hdr

/-- mirrors src/kernel/mem/heap.cpp:237-246 -/
def freeChecked (fuel : Nat) (p sz : Word) : Prog Unit := do
  let hdr := p - headerSize
  let f ← flags hdr
  Prog.assert (f &&& headerMagic = headerMagic)
    "(hdr->flags & heap::headerMagic) == heap::headerMagic"
  let len ← length hdr
  Prog.assert (sz = len) "sz == hdr->length"
  free fuel p

/-! ## On a flat memory -/

section Run
variable {m : Mem}

@[simp] theorem flags_run (hdr : Word) : (flags hdr).run m = .ok (Heap.flags m hdr, m) := rfl
@[simp] theorem length_run (hdr : Word) : (length hdr).run m = .ok (Heap.length m hdr, m) := rfl
@[simp] theorem prev_run (hdr : Word) : (prev hdr).run m = .ok (Heap.prev m hdr, m) := rfl
@[simp] theorem next_run (hdr : Word) : (next hdr).run m = .ok (Heap.next m hdr, m) := rfl

@[simp] theorem setFlags_run (hdr v : Word) :
    (setFlags hdr v).run m = .ok ((), Heap.setFlags m hdr v) := rfl

@[simp] theorem setLength_run (hdr v : Word) :
    (setLength hdr v).run m = .ok ((), Heap.setLength m hdr v) := rfl
@[simp] theorem setPrev_run (hdr v : Word) :
    (setPrev hdr v).run m = .ok ((), Heap.setPrev m hdr v) := rfl
@[simp] theorem setNext_run (hdr v : Word) :
    (setNext hdr v).run m = .ok ((), Heap.setNext m hdr v) := rfl

@[simp] theorem mark_run (hdr : Word) :
    (mark hdr).run m = .ok ((), Heap.setFlags m hdr (Heap.flags m hdr ||| HF_ALLOC)) := rfl

@[simp] theorem split_run (hdr size : Word) :
    (split hdr size).run m = .ok ((), Heap.split m hdr size) := rfl

@[simp] theorem cutMiddle_run (hdr nextAligned size padSize actualSize : Word) :
    (cutMiddle hdr nextAligned size padSize actualSize).run m =
      .ok ((), Heap.cutMiddle m hdr nextAligned size padSize actualSize) := rfl

@[simp] theorem cutHead_run (hdr nextAligned size padSize : Word) :
    (cutHead hdr nextAligned size padSize).run m =
      .ok ((), Heap.cutHead m hdr nextAligned size padSize) := rfl

@[simp] theorem placeInitialHeader_run (hdr size : Word) :
    (placeInitialHeader hdr size).run m = .ok ((), Heap.placeInitialHeader m hdr size) := rfl

@[simp] theorem absorb_run (hdr nxt : Word) :
    (absorb hdr nxt).run m = .ok ((), Heap.absorb m hdr nxt) := by
  have hfill := Prog.run_memset nxt 0 (n := headerSize.toNat) (by decide)
  simp only [absorb, Prog.run_bind, Prog.run_ite, Prog.run_ret, length_run, next_run, setLength_run,
    setNext_run, setPrev_run, Res.ok_bind, hfill, Heap.absorb]
  split <;> rfl

theorem checkNoLiving_run (fuel : Nat) (hdr : Word) :
    (checkNoLiving fuel hdr).run m = (Heap.checkNoLiving m fuel hdr >>= fun _ => .ok ((), m)) := by
  induction fuel generalizing hdr with
  | zero => rfl
  | succ fuel ih =>
    simp only [checkNoLiving, Heap.checkNoLiving, Prog.run_bind, Prog.run_ite, Prog.run_ret,
      Prog.run_fail, flags_run, next_run, Res.ok_bind, ih, hasMagic, isAlloc, ne_eq]
    split
    · rfl
    split
    · rfl
    split <;> rfl

theorem reset_run (fuel : Nat) (h : Heap) (base size : Word) :
    (reset fuel h base size).run m = h.reset fuel m base size := by
  unfold reset Heap.reset
  split
  · rw [Prog.run_bind, checkNoLiving_run]
    cases Heap.checkNoLiving m fuel h.rootHeader <;> rfl
  · rfl

theorem allocFrom_run (size : Word) (fuel : Nat) (hdr : Word) :
    (allocFrom size fuel hdr).run m = Heap.allocFrom m size fuel hdr := by
  induction fuel generalizing hdr with
  | zero => rfl
  | succ fuel ih =>
    simp only [allocFrom, Heap.allocFrom, Prog.run_bind, Prog.run_ite, Prog.run_ret, Prog.run_fail,
      flags_run, length_run, next_run, split_run, mark_run, Res.ok_bind, ih, hasMagic, isAlloc, ne_eq]

theorem alloc_run (fuel : Nat) (h : Heap) (size : Word) :
    (alloc fuel h size).run m = h.alloc fuel m size := allocFrom_run size fuel _

/-- The program answers with the pointer; the memory is its own. -/
theorem place_run (hdr size align : Word) (fuel : Nat) (nextAligned : Word) :
    (place hdr size align fuel nextAligned).run m =
      (Heap.place m hdr size align fuel nextAligned >>= fun r => .ok (match r with
        | some (p, m') => (some p, m')
        | none => (none, m))) := by
  induction fuel generalizing nextAligned with
  | zero => rfl
  | succ fuel ih =>
    simp only [place, Heap.place, Prog.run_bind, Prog.run_ite, Prog.run_ret, length_run, mark_run,
      split_run, cutMiddle_run, cutHead_run, Res.ok_bind, ih]
    repeat' split
    all_goals rfl

theorem allocAlignedFrom_run (size align : Word) (bound fuel : Nat) (hdr : Word) :
    (allocAlignedFrom size align bound fuel hdr).run m =
      Heap.allocAlignedFrom m size align bound fuel hdr := by
  induction fuel generalizing hdr with
  | zero => rfl
  | succ fuel ih =>
    simp only [allocAlignedFrom, Heap.allocAlignedFrom, Prog.run_bind, Prog.run_ite, Prog.run_ret,
      Prog.run_fail, flags_run, next_run, Res.ok_bind, ih, hasMagic, isAlloc, ne_eq, place_run]
    split
    · rfl
    split
    · rfl
    split
    · rfl
    cases Heap.place m hdr size align bound (alignUp (hdr + headerSize) align) with
    | error f => rfl
    | ok r =>
      cases r with
      | some q => rfl
      | none => exact ih _

theorem allocAligned_run (fuel : Nat) (h : Heap) (size align : Word) :
    (allocAligned fuel h size align).run m = h.allocAligned fuel m size align :=
  allocAlignedFrom_run size align fuel fuel _

theorem freeBack_run (fuel : Nat) (hdr : Word) :
    (freeBack fuel hdr).run m = (Heap.freeBack m fuel hdr >>= fun h => .ok (h, m)) := by
  induction fuel generalizing hdr with
  | zero => rfl
  | succ fuel ih =>
    simp only [freeBack, Heap.freeBack, Prog.run_bind, Prog.run_ite, Prog.run_ret, prev_run,
      flags_run, Res.ok_bind, Prog.run_assert]
    split
    · rfl
    unfold assert
    split
    · simp only [Res.ok_bind]
      split
      · rfl
      · exact ih _
    · rfl

theorem freeForward_run (fuel : Nat) (hdr : Word) :
    (freeForward fuel hdr).run m = (Heap.freeForward fuel m hdr >>= fun m' => .ok ((), m')) := by
  induction fuel generalizing m with
  | zero => rfl
  | succ fuel ih =>
    simp only [freeForward, Heap.freeForward, Prog.run_bind, Prog.run_ite, Prog.run_ret, next_run,
      flags_run, absorb_run, Res.ok_bind, ih, Prog.run_assert]
    split
    · rfl
    unfold assert
    split
    · simp only [Res.ok_bind]
      split <;> rfl
    · rfl

theorem free_run (fuel : Nat) (p : Word) :
    (free fuel p).run m = (Heap.free fuel m p >>= fun m' => .ok ((), m')) := by
  simp only [free, Heap.free, Prog.run_bind, Prog.run_ite, Prog.run_fail, flags_run, setFlags_run,
    freeBack_run, freeForward_run, Res.ok_bind, Prog.run_assert]
  unfold assert
  split
  · simp only [Res.ok_bind]
    split
    · rfl
    · cases Heap.freeBack _ fuel (p - headerSize) <;> rfl
  · rfl

theorem freeChecked_run (fuel : Nat) (p sz : Word) :
    (freeChecked fuel p sz).run m = (Heap.freeChecked fuel m p sz >>= fun m' => .ok ((), m')) := by
  simp only [freeChecked, Heap.freeChecked, Prog.run_bind, flags_run, length_run, free_run,
    Res.ok_bind, Prog.run_assert]
  unfold assert
  split
  · simp only [Res.ok_bind]
    split <;> rfl
  · rfl

end Run

/-! ## Keeping to the heap -/

/-- The addresses from `lo` up to `hi`. -/
def Area (lo hi : Nat) (x : Word) : Prop := lo ≤ x.toNat ∧ x.toNat < hi

section Keeps
variable {m : Mem} {lo e a n : Nat} {b : Blk} {α : Type}

theorem covers_area {x k : Nat} (h1 : lo ≤ x) (h2 : x + k ≤ e) (he : e ≤ 2 ^ 64) :
    Prog.Covers (Area lo e) (adr x) k := by
  refine ⟨by omega, fun i hi => ?_⟩
  rw [Area, adr_add, adr_toNat (by omega)]
  omega

/-- The four fields of a header. -/
theorem covers_hdr (h1 : lo ≤ a) (h2 : a + 32 ≤ e) (he : e ≤ 2 ^ 64) :
    Prog.Covers (Area lo e) (adr a) 8 ∧ Prog.Covers (Area lo e) (adr a + 8) 8 ∧
      Prog.Covers (Area lo e) (adr a + 16) 8 ∧ Prog.Covers (Area lo e) (adr a + 24) 8 := by
  have h (k : Nat) (hk : k + 8 ≤ 32) : Prog.Covers (Area lo e) (adr a + adr k) 8 := by
    rw [adr_add]
    exact covers_area (by omega) (by omega) he
  exact ⟨covers_area h1 (by omega) he, h 8 (by decide), h 16 (by decide), h 24 (by decide)⟩

theorem mark_keepsTo (h1 : lo ≤ a) (h2 : a + 32 ≤ e) (he : e ≤ 2 ^ 64) :
    (mark (adr a)).KeepsTo (Area lo e) m := by
  obtain ⟨c0, -⟩ := covers_hdr h1 h2 he
  exact .load c0 (.store c0 (.ret _ _))

theorem split_keepsTo (h1 : lo ≤ a) (h2 : a + 32 + n + 32 ≤ e) (he : e ≤ 2 ^ 64) :
    (split (adr a) (adr n)).KeepsTo (Area lo e) m := by
  obtain ⟨c0, c8, c16, c24⟩ := covers_hdr h1 (show a + 32 ≤ e by omega) he
  have hnew : adr a + headerSize + adr n = adr (a + 32 + n) := by
    rw [headerSize_eq, adr_add, adr_add]
  obtain ⟨d0, d8, d16, d24⟩ := covers_hdr (show lo ≤ a + 32 + n by omega) h2 he
  rw [← hnew] at d0 d8 d16 d24
  exact .load c0 <| .store c0 <| .store d16 <| .load c24 <| .store d24 <| .store d0 <| .load c8 <|
    .store d8 <| .store c24 <| .store c8 <| .ret _ _

theorem cutMiddle_keepsTo {d : Nat} {actualSize padSize : Word} (h1 : lo ≤ a) (hd : 32 ≤ d)
    (h2 : a + 32 + d + n + 32 ≤ e) (he : e ≤ 2 ^ 64) :
    (cutMiddle (adr a) (adr (a + 32) + adr d) (adr n) padSize actualSize).KeepsTo
      (Area lo e) m := by
  obtain ⟨c0, c8, c16, c24⟩ := covers_hdr h1 (show a + 32 ≤ e by omega) he
  have hlast : adr (a + 32) + adr d + adr n = adr (a + 32 + d + n) := by rw [adr_add, adr_add]
  have hmid : adr (a + 32) + adr d - headerSize = adr (a + d) := by
    rw [adr_add, headerSize_eq, sub_adr (by omega)]
    exact congrArg adr (by omega)
  obtain ⟨d0, d8, d16, d24⟩ := covers_hdr (show lo ≤ a + 32 + d + n by omega) h2 he
  obtain ⟨f0, f8, f16, f24⟩ := covers_hdr (show lo ≤ a + d by omega) (show a + d + 32 ≤ e by omega) he
  rw [← hlast] at d0 d8 d16 d24
  rw [← hmid] at f0 f8 f16 f24
  exact .load c24 <| .store d24 <| .store f24 <| .store c24 <| .store d8 <| .store f8 <|
    .store c8 <| .store d0 <| .store f0 <| .store f16 <| .store d16 <| .ret _ _

theorem cutHead_keepsTo {d : Nat} {size padSize : Word} (h1 : lo ≤ a) (hd : 32 ≤ d)
    (h2 : a + 32 + d ≤ e) (he : e ≤ 2 ^ 64) :
    (cutHead (adr a) (adr (a + 32) + adr d) size padSize).KeepsTo (Area lo e) m := by
  obtain ⟨c0, c8, c16, c24⟩ := covers_hdr h1 (show a + 32 ≤ e by omega) he
  have hlast : adr (a + 32) + adr d - headerSize = adr (a + d) := by
    rw [adr_add, headerSize_eq, sub_adr (by omega)]
    exact congrArg adr (by omega)
  obtain ⟨f0, f8, f16, f24⟩ := covers_hdr (show lo ≤ a + d by omega) (show a + d + 32 ≤ e by omega) he
  rw [← hlast] at f0 f8 f16 f24
  exact .store f16 <| .load c24 <| .store f24 <| .store c24 <| .store f8 <| .store c8 <|
    .store f0 <| .ret _ _

/-- The walk of `alloc` over the blocks from `a` on. -/
theorem allocFrom_keepsTo {l : List Blk} (hn : n + 32 < 2 ^ 64) (he : e < 2 ^ 64) (fuel : Nat)
    (hm : Blocks m e a l) (hx : a + span l = e) (h0 : 0 < a) (hlo : lo ≤ a) :
    (allocFrom (adr n) fuel (link e a)).KeepsTo (Area lo e) m := by
  induction l generalizing a fuel with
  | nil =>
    cases fuel with
    | zero => exact .fail _ _
    | succ fuel =>
      have hae : a = e := hx
      rw [link, if_pos hae, allocFrom, if_pos rfl]
      exact .ret _ _
  | cons b l ih =>
    cases fuel with
    | zero => exact .fail _ _
    | succ fuel =>
      obtain ⟨hb, hl⟩ := hm
      simp only [span] at hx
      rw [link, if_neg (by omega)]
      obtain ⟨c0, c8, c16, c24⟩ := covers_hdr hlo (show a + 32 ≤ e by omega) (by omega)
      have hrec := ih fuel hl (by omega) (by omega) (by omega)
      rw [allocFrom]
      refine Prog.uses_ite (fun _ => .ret _ _) fun _ => Prog.uses_load c0 rfl ?_
      refine Prog.uses_ite (fun _ => .fail _ _) fun _ => Prog.uses_load c0 rfl ?_
      have hskip := Prog.uses_load c24 hb.next hrec
      refine Prog.uses_ite (fun _ => hskip) fun _ => Prog.uses_load c8 hb.length ?_
      refine Prog.uses_ite (fun hgt => ?_) fun _ => Prog.uses_load c8 rfl ?_
      · -- it fits with a rest
        rw [gt_iff_lt, headerSize_eq, adr_add, adr_lt_iff hn (by omega)] at hgt
        exact Prog.uses_seq (split_keepsTo hlo (by omega) (by omega)) (split_run _ _) (.ret _ _)
      · refine Prog.uses_ite (fun _ => ?_) fun _ => hskip
        exact Prog.uses_seq (mark_keepsTo hlo (by omega) (by omega)) (mark_run _) (.ret _ _)

/-- `absorb` accesses the two headers and the one behind them, if there is one. -/
theorem absorb_keepsTo {c : Blk} (hc : HdrAt m e (a + 32 + b.len) c)
    (hlo : lo ≤ a) (hx : a + 32 + b.len + 32 + c.len = e ∨ a + 32 + b.len + 32 + c.len + 32 ≤ e)
    (he : e < 2 ^ 64) :
    (absorb (adr a) (adr (a + 32 + b.len))).KeepsTo (Area lo e) m := by
  obtain ⟨c0, c8, c16, c24⟩ := covers_hdr hlo (show a + 32 ≤ e by omega) (by omega)
  obtain ⟨d0, d8, d16, d24⟩ := covers_hdr (show lo ≤ a + 32 + b.len by omega)
    (show a + 32 + b.len + 32 ≤ e by omega) (by omega)
  have hnext (v : Word) : Heap.next (Heap.setLength m (adr a) v) (adr (a + 32 + b.len)) =
      link e (a + 32 + b.len + 32 + c.len) := by
    rw [next_adr, setLength_adr, Mem.load64_store64_ne _ _ (by omega) (by omega) (by omega),
      ← next_adr, hc.next]
  refine Prog.uses_load c8 rfl (Prog.uses_load d8 rfl (Prog.uses_store c8 ?_))
  refine Prog.uses_load d24 (hnext _) (Prog.uses_store c24 ?_)
  refine Prog.uses_load c24 (Mem.load64_store64 ..) ?_
  have hclear (m' : Mem) : (Prog.memset (adr (a + 32 + b.len)) 0 headerSize.toNat 0).KeepsTo
      (Area lo e) m' := by
    refine Prog.uses_memset 0 _ 0 m' fun j _ hj => Prog.covers_one ?_
    have hj : j < 32 := by simpa [headerSize] using hj
    rw [Area, adr_add, adr_toNat (by omega)]
    omega
  refine Prog.uses_ite (fun h0 => ?_) fun _ => hclear _
  -- the block behind the absorbed one gets a new `prev` link
  have hne : a + 32 + b.len + 32 + c.len ≠ e := fun h => h0 (if_pos h)
  rw [link, if_neg hne]
  exact Prog.uses_store (covers_hdr (by omega) (hx.resolve_left hne) (by omega)).2.2.1 (hclear _)

/-- The absorption, by induction on the blocks behind. -/
theorem freeForward_keepsTo (he : e < 2 ^ 64) {l : List Blk} {t : Bool} (fuel : Nat)
    (hm : Blocks m e a (b :: (if t then setHeadPrev (adr a) l else l)))
    (hx : a + 32 + b.len + span l = e) (hlo : lo ≤ a) :
    (freeForward fuel (adr a)).KeepsTo (Area lo e) m := by
  induction l generalizing m b t fuel with
  | nil =>
    cases fuel with
    | zero => exact .fail _ _
    | succ fuel =>
      simp only [span, Nat.add_zero] at hx
      obtain ⟨c0, c8, c16, c24⟩ := covers_hdr hlo (show a + 32 ≤ e by omega) (by omega)
      have hlink : Heap.next m (adr a) = 0 := hm.1.next.trans (if_pos hx)
      rw [freeForward]
      refine Prog.uses_load c24 hlink ?_
      rw [if_pos rfl]
      exact .ret _ _
  | cons c l ih =>
    cases fuel with
    | zero => exact .fail _ _
    | succ fuel =>
      obtain ⟨hb, hrest⟩ := hm
      obtain ⟨c', hcu, hcl, hc, hl⟩ := hrest.head_relinked
      simp only [span] at hx
      obtain ⟨c0, c8, c16, c24⟩ := covers_hdr hlo (show a + 32 ≤ e by omega) (by omega)
      obtain ⟨d0, d8, d16, d24⟩ := covers_hdr (show lo ≤ a + 32 + b.len by omega)
        (show a + 32 + b.len + 32 ≤ e by omega) (by omega)
      have hlink : Heap.next m (adr a) = adr (a + 32 + b.len) := hb.next.trans (if_neg (by omega))
      rw [← hcl] at hl hx
      have hspan := span_pos l
      obtain ⟨hm1, -⟩ := absorb_refines (l := l) hb hc hl (by omega) he
      rw [freeForward]
      refine Prog.uses_load c24 hlink ?_
      refine Prog.uses_ite (fun _ => .ret _ _) fun _ => Prog.uses_load d0 rfl ?_
      refine Prog.uses_assert fun _ => Prog.uses_load d0 rfl ?_
      refine Prog.uses_ite (fun _ => .ret _ _) fun _ => ?_
      exact Prog.uses_seq (absorb_keepsTo hc hlo (by omega) he) (absorb_run _ _)
        (ih (t := true) fuel hm1 (by rw [Blk.resize_len]; omega))

/-- Going back from a header of the chain: a `prev` link is not below the heap,
and names a header wherever the magic test passes. By induction on the bound. -/
theorem freeBack_keepsTo {l : List Blk} (hm : Blocks m e a l) (hx : a + span l = e)
    (he : e < 2 ^ 64) (hlow : Lower a l) (hab : Above a l) (hst : StaleFails m a l) (fuel : Nat) :
    ∀ l₁ b l₂, l = l₁ ++ b :: l₂ → (freeBack fuel (adr (a + span l₁))).KeepsTo (Area a e) m := by
  induction fuel with
  | zero => exact fun _ _ _ _ => .fail _ _
  | succ fuel ih =>
    rintro l₁ b l₂ rfl
    have hb := blocks_at hm
    have hmem : b ∈ l₁ ++ b :: l₂ := by simp
    have hlo := ((lower_append _ _ _).mp hlow).2.1
    have hx' := hx
    simp only [span_append, span] at hx'
    obtain ⟨c0, c8, c16, c24⟩ := covers_hdr (show a ≤ a + span l₁ by omega)
      (show a + span l₁ + 32 ≤ e by omega) (by omega)
    rw [freeBack]
    refine Prog.uses_load c16 hb.prev ?_
    refine Prog.uses_ite (fun _ => .ret _ _) fun h0 => ?_
    have hlt := hlo.resolve_left h0
    have hge := (hab b hmem).resolve_left h0
    have hcov : Prog.Covers (Area a e) b.prev 8 := by
      rw [← adr_of_toNat b.prev]
      exact covers_area hge (by omega) (by omega)
    refine Prog.uses_load hcov rfl (Prog.uses_assert fun hmag => ?_)
    refine Prog.uses_load hcov rfl (Prog.uses_ite (fun _ => .ret _ _) fun _ => ?_)
    by_cases hhd : ∀ h ∈ hdrs a (l₁ ++ b :: l₂), b.prev ≠ adr h
    · exact absurd hmag (hst b hmem h0 hhd)
    · simp only [not_forall, not_not] at hhd
      obtain ⟨h, hh, hp⟩ := hhd
      obtain ⟨k₁, c, k₂, hk, rfl⟩ := mem_hdrs.mp hh
      rw [hp]
      exact ih k₁ c k₂ hk

/-- **`free` keeps to the heap.** -/
theorem free_keepsTo {l₁ l₂ : List Blk} (hm : Blocks m e a (l₁ ++ b :: l₂))
    (hx : a + span (l₁ ++ b :: l₂) = e) (he : e < 2 ^ 64)
    (hlow : Lower a (l₁ ++ b :: l₂)) (hab : Above a (l₁ ++ b :: l₂))
    (hst : StaleFails m a (l₁ ++ b :: l₂)) (fuel : Nat) :
    (free fuel (adr (a + span l₁ + 32))).KeepsTo (Area a e) m := by
  have hm' := clear_blocks hm hx he
  have hst' := hst.clear (adr (a + span l₁))
  have hx' : a + span (l₁ ++ b.clear :: l₂) = e := by rw [span_clear]; exact hx
  have hxs := hx
  simp only [span_append, span] at hxs
  obtain ⟨c0, -⟩ := covers_hdr (show a ≤ a + span l₁ by omega)
      (show a + span l₁ + 32 ≤ e by omega) (by omega)
  rw [free, sub_headerSize]
  refine Prog.uses_load c0 rfl (Prog.uses_assert fun _ => Prog.uses_load c0 rfl ?_)
  refine Prog.uses_ite (fun _ => .fail _ _) fun _ => Prog.uses_load c0 rfl ?_
  refine Prog.uses_store c0 ?_
  refine Prog.uses_bind (freeBack_keepsTo hm' hx' he hlow.clear hab.clear hst' fuel l₁ b.clear l₂ rfl)
    fun h m₂ hr => ?_
  -- where the walk back stops there is a header of the chain
  rw [freeBack_run] at hr
  obtain ⟨h', hbk, hr⟩ := Res.bind_eq_ok.mp hr
  cases hr
  have hbk := (stable_freeBack _ _).ok_le (Nat.le_max_left fuel (e + 1)) hbk
  have hlt : a + span l₁ < max fuel (e + 1) :=
    Nat.lt_of_lt_of_le (show a + span l₁ < e + 1 by omega) (Nat.le_max_right ..)
  rcases freeBack_cases hm' hx' he hlow.clear hst' _ l₁ b.clear l₂ rfl b.clear_used hlt with
    ⟨msg, herr⟩ | ⟨k₁, c, k₂, hk, -, hok⟩
  · cases herr.symm.trans hbk
  · cases hok.symm.trans hbk
    rw [hk] at hm' hx'
    rw [blocks_append] at hm'
    simp only [span_append, span] at hx'
    exact freeForward_keepsTo he (t := false) fuel hm'.2 (by omega) (by omega)

/-- The inner loop of `allocAligned` from `d` bytes of padding on. Without
padding the block must have room for what is cut off. -/
theorem place_keepsTo {A : Nat} (hb : HdrAt m e a b) (hlen : b.len < 2 ^ 63) (hA : A ≤ 2 ^ 63)
    (hn : n + 32 < 2 ^ 63) (hlo : lo ≤ a) (hx : a + 32 + b.len ≤ e) (he : e < 2 ^ 64)
    (fuel d : Nat) (hd : d ≤ 2 ^ 63) (hroom : d = 0 → b.len = n ∨ n + 32 ≤ b.len) :
    (place (adr a) (adr n) (adr A) fuel (adr (a + 32) + adr d)).KeepsTo (Area lo e) m := by
  induction fuel generalizing d with
  | zero => exact .fail _ _
  | succ fuel ih =>
    obtain ⟨c0, c8, c16, c24⟩ := covers_hdr hlo (show a + 32 ≤ e by omega) (by omega)
    have haddr : adr a + headerSize = adr (a + 32) := by rw [headerSize_eq, adr_add]
    have hpad : adr (a + 32) + adr d - adr (a + 32) = adr d := by
      rw [BitVec.add_comm, BitVec.add_sub_cancel]
    have hnext : adr (a + 32) + adr d + adr A - adr (a + 32) = adr (d + A) := by
      rw [BitVec.add_assoc, BitVec.add_comm, BitVec.add_sub_cancel, adr_add]
    have hslt := slt_zero_iff hlen hd
    rw [place]
    refine Prog.uses_load c8 hb.length ?_
    rw [haddr, hpad]
    refine Prog.uses_ite (fun _ => .ret _ _) fun h1 => ?_
    have hle : d ≤ b.len := Nat.not_lt.mp (mt hslt.mpr h1)
    rw [sub_adr hle]
    refine Prog.uses_ite (fun h2 => ?_) fun h2 => ?_
    · -- the block is already aligned
      have hd0 : d = 0 := by
        have h : adr d = 0 := by rw [← hpad, ← h2, BitVec.sub_self]; rfl
        exact (adr_inj (by omega) (by omega)).mp h
      refine Prog.uses_ite (fun _ => ?_) fun hne => ?_
      · exact Prog.uses_seq (mark_keepsTo hlo (by omega) (by omega)) (mark_run _) (.ret _ _)
      · rw [hd0, Nat.sub_zero, adr_inj (by omega) (by omega)] at hne
        have := (hroom hd0).resolve_left hne
        exact Prog.uses_seq (split_keepsTo hlo (by omega) (by omega)) (split_run _ _) (.ret _ _)
    have hd0 : d ≠ 0 := by
      rintro rfl
      exact h2 (BitVec.add_zero _).symm
    refine Prog.uses_ite (fun h3 => ?_) fun h3 => ?_
    · -- no room for a header
      refine Prog.uses_load c8 hb.length ?_
      rw [hnext]
      refine Prog.uses_ite (fun _ => .ret _ _) fun h4 => ?_
      rw [headerSize_eq, adr_lt_iff (by omega) (by decide)] at h3
      rw [ge_iff_le, BitVec.not_le, adr_lt_iff (by omega) (by omega)] at h4
      rw [BitVec.add_assoc, adr_add]
      exact ih (d + A) (by omega) (by omega)
    have hd32 : 32 ≤ d := by
      rwa [headerSize_eq, adr_lt_iff (by omega) (by decide), Nat.not_lt] at h3
    refine Prog.uses_ite (fun h4 => ?_) fun _ => Prog.uses_ite (fun _ => ?_) fun _ => ?_
    · rw [headerSize_eq, adr_add, gt_iff_lt, adr_lt_iff (by omega) (by omega)] at h4
      exact Prog.uses_seq (cutMiddle_keepsTo hlo hd32 (by omega) (by omega))
        (cutMiddle_run _ _ _ _ _) (.ret _ _)
    · exact Prog.uses_seq (cutHead_keepsTo hlo hd32 (by omega) (by omega))
        (cutHead_run _ _ _ _) (.ret _ _)
    · exact ih d hd (fun h => absurd h hd0)

/-- The walk of `allocAligned`, by induction on the blocks. -/
theorem allocAlignedFrom_keepsTo {k : Nat} {l : List Blk} (hk : k < 64) (hn : n + 32 < 2 ^ 63)
    (he : e < 2 ^ 63) (bound fuel : Nat) (hm : Blocks m e a l) (hx : a + span l = e) (h0 : 0 < a)
    (hlo : lo ≤ a) (hroom : Roomy (2 ^ k) n a l) :
    (allocAlignedFrom (adr n) (adr (2 ^ k)) bound fuel (link e a)).KeepsTo (Area lo e) m := by
  have hA : 2 ^ k ≤ 2 ^ 63 := Nat.pow_le_pow_right (by decide) (by omega)
  have hA0 : 0 < 2 ^ k := Nat.two_pow_pos k
  induction l generalizing a fuel with
  | nil =>
    cases fuel with
    | zero => exact .fail _ _
    | succ fuel =>
      have hae : a = e := hx
      rw [link, if_pos hae, allocAlignedFrom, if_pos rfl]
      exact .ret _ _
  | cons b l ih =>
    cases fuel with
    | zero => exact .fail _ _
    | succ fuel =>
      obtain ⟨hb, hl⟩ := hm
      simp only [span] at hx
      rw [link, if_neg (by omega)]
      obtain ⟨c0, c8, c16, c24⟩ := covers_hdr hlo (show a + 32 ≤ e by omega) (by omega)
      have hrec (h : b.used = true ∨ Short b.len (a + 32) (2 ^ k)) :=
        Prog.uses_load c24 hb.next (ih fuel hl (by omega) (by omega) (by omega) (hroom.tail h))
      rw [allocAlignedFrom]
      refine Prog.uses_ite (fun _ => .ret _ _) fun _ => Prog.uses_load c0 rfl ?_
      refine Prog.uses_ite (fun _ => .fail _ _) fun _ => Prog.uses_load c0 rfl ?_
      refine Prog.uses_ite (fun hu => hrec (.inl (hb.isAlloc.mp hu))) fun hu => ?_
      have hbu : b.used = false := by simpa using mt hb.isAlloc.mpr hu
      -- the padding that the inner loop starts with
      have hgap := gap_lt (x := a + 32) hA0
      have hstart : alignUp (adr a + headerSize) (adr (2 ^ k)) =
          adr (a + 32) + adr (gap (a + 32) (2 ^ k)) := by
        rw [headerSize_eq, adr_add, alignUp_adr hk (by omega)]
      have hfirst : gap (a + 32) (2 ^ k) = 0 → b.len = n ∨ n + 32 ≤ b.len := by
        intro hg
        have hz : padding (a + 32) (2 ^ k) = 0 := if_pos ((gap_eq_zero hA0).mp hg)
        exact hroom [] b l rfl trivial hbu (fun h => h.1 hz) hz
      refine Prog.uses_bind ?_ fun r m' hr => ?_
      · rw [hstart]
        exact place_keepsTo hb (by omega) hA hn hlo (by omega) (by omega) bound _ (by omega) hfirst
      rw [place_run] at hr
      obtain ⟨q, hq, hr⟩ := Res.bind_eq_ok.mp hr
      cases q with
      | some q =>
        cases hr
        exact .ret _ _
      | none =>
        cases hr
        refine hrec (.inr ?_)
        -- the inner loop gives up only on blocks that are too short
        by_contra hs
        have hends := Res.ne_loop_of_ok hq
        have hq := (place_le m _ _ _ (Nat.le_max_left bound 33) _ hends).trans hq
        have hlong := place_long hb (by omega) hk (by omega) hn hs
          (show 32 < max bound 33 from Nat.lt_of_lt_of_le (by decide) (Nat.le_max_right ..))
        rw [hlong] at hq
        split at hq <;> cases hq

/-- Only the initial header is written. -/
theorem placeInitialHeader_keepsTo (h : a + 32 < 2 ^ 64) (size : Word) :
    (placeInitialHeader (adr a) size).KeepsTo (Area a (a + 32)) m := by
  obtain ⟨c0, c8, c16, c24⟩ := covers_hdr (Nat.le_refl a) (Nat.le_refl _) (Nat.le_of_lt h)
  exact .store c0 <| .store c8 <| .store c16 <| .store c24 <| .ret _ _

end Keeps

end X64k.L1.Heap.Code
