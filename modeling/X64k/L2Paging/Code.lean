import X64k.Core.Program
import X64k.L2Paging.Model

/-!
# The paging code as loads and stores

`map`, `get` and `unmap` once more, with what they call, as programs: every
table entry, word of the bitmap and counter that the source reads or writes is
one access. On a flat memory they compute what the functions do (`map_computes`,
`get_computes`, `unmap_computes`); as programs they show which bytes they touch.
-/
namespace X64k.L2.Paging.Code

open X64k.Core

/-! ## Bitmap, counters and entries -/

def trackingWord (s : Statics) (idx : Word) : Prog Word := .load64 (s.tracking + idx * 8)
def setTrackingWord (s : Statics) (idx v : Word) : Prog Unit := .store64 (s.tracking + idx * 8) v

def refcountOf (s : Statics) (idx : Word) : Prog (BitVec 16) :=
  .load (s.refcount + idx * 2) 2 fun v => .ret (BitVec.ofNat 16 v)

def setRefcount (s : Statics) (idx : Word) (v : BitVec 16) : Prog Unit :=
  .store (s.refcount + idx * 2) 2 v.toNat (.ret ())

def entryAt (t i : Word) : Prog Word := .load64 (t + i * 8)
def setEntryAt (t i v : Word) : Prog Unit := .store64 (t + i * 8) v

/-! ## Pages -/

/-- mirrors src/kernel/mem/pm.cpp:204-214 -/
def allocFrom (s : Statics) : Nat → Word → Prog (Option Word)
  | 0, _ => .fail .loop
  | fuel + 1, addr =>
    if addr < s.stop then do
      let idx := PM_TRACKING_INDEX (addr - s.start)
      let bit := PM_TRACKING_BIT (addr - s.start)
      let w ← trackingWord s idx
      if w &&& bit = 0 then do
        let w ← trackingWord s idx
        setTrackingWord s idx (w ||| bit)
        Prog.memset addr 0 0x1000 0
        .ret (some addr)
      else allocFrom s fuel (addr + 0x1000)
    else .ret none

/-- mirrors src/kernel/mem/pm.cpp:201-217 -/
def alloc (s : Statics) : Prog (Option Word) := allocFrom s scanBound s.start

/-- mirrors src/kernel/mem/pm.cpp:219-229 -/
def free (s : Statics) (addr : Word) : Prog Unit := do
  let idx := PM_TRACKING_INDEX (addr - s.start)
  let bit := PM_TRACKING_BIT (addr - s.start)
  let w ← trackingWord s idx
  Prog.assert (w &&& bit ≠ 0) "m_pagingTrackingStructure[idx] & bit"
  let w ← trackingWord s idx
  setTrackingWord s idx (w &&& ~~~bit)

/-- mirrors src/kernel/mem/pm.cpp:239-248 -/
def incRefs (s : Statics) (addr : Word) : Prog Unit := do
  Prog.assert (s.contains addr) "m_pagingStructureRange.contains(addr)"
  Prog.assert (addr &&& 0xFFF = 0) "!(addr & 0xFFF)"
  let idx := PM_REFCOUNT_INDEX (addr - s.start)
  let n ← refcountOf s idx
  setRefcount s idx (n + 1)

/-- mirrors src/kernel/mem/pm.cpp:250-263 -/
def decRefs (s : Statics) (addr : Word) : Prog (BitVec 16) := do
  Prog.assert (s.contains addr) "m_pagingStructureRange.contains(addr)"
  Prog.assert (addr &&& 0xFFF = 0) "!(addr & 0xFFF)"
  let idx := PM_REFCOUNT_INDEX (addr - s.start)
  let n ← refcountOf s idx
  if n ≠ 0 then do
    let n ← refcountOf s idx
    setRefcount s idx (n - 1)
    .ret (n - 1)
  else .ret 0

/-- mirrors src/kernel/algo/option.hpp:38-43 -/
def orPanic {α : Type} (o : Option α) (msg : String) : Prog α :=
  match o with
  | some a => .ret a
  | none => .fail (.panic msg)

/-! ## The operations -/

/-- mirrors src/kernel/mem/pm.cpp:39-44 -/
def mapInPd (s : Statics) (pd pdi leaf : Word) : Prog Unit := do
  let e ← entryAt pd pdi
  if isPresent e then .fail (.panic "Entry is already present\n")
  else do
    setEntryAt pd pdi leaf
    incRefs s pd

/-- mirrors src/kernel/mem/pm.cpp:46-54 -/
def mapNewPd (s : Statics) (pdpt pdpti pdi leaf : Word) : Prog Unit := do
  let o ← alloc s
  let pdaddr ← orPanic o "Failed to allocate PD"
  setEntryAt pdaddr pdi leaf
  setEntryAt pdpt pdpti (pdaddr ||| F_PRESENT ||| F_RW)
  incRefs s pdaddr
  incRefs s pdpt

/-- mirrors src/kernel/mem/pm.cpp:57-70 -/
def mapNewPdpt (s : Statics) (self pml4i pdpti pdi leaf : Word) : Prog Unit := do
  let o ← alloc s
  let pdptaddr ← orPanic o "Failed to allocate PDPT"
  let o ← alloc s
  let pdaddr ← orPanic o "Failed to allocate PD"
  setEntryAt pdaddr pdi leaf
  setEntryAt pdptaddr pdpti (pdaddr ||| F_PRESENT ||| F_RW)
  setEntryAt self pml4i (pdptaddr ||| F_PRESENT ||| F_RW)
  incRefs s pdaddr
  incRefs s pdptaddr

/-- mirrors src/kernel/mem/pm.cpp:24-72 -/
def map (s : Statics) (self vaddr paddr flags : Word) : Prog Unit := do
  Prog.assert (vaddr &&& 0x1FFFFF = 0) "!(vaddr & 0x1FFFFF)"
  Prog.assert (paddr &&& 0x1FFFFF = 0) "!(paddr & 0x1FFFFF)"
  let pml4i := pml4Index vaddr
  let pdpti := pdptIndex vaddr
  let pdi := pdIndex vaddr
  let leaf := paddr ||| flags ||| F_PRESENT ||| F_PS
  let e ← entryAt self pml4i
  if isPresent e then do
    let pml4e ← entryAt self pml4i
    let pdpt := tableOf pml4e
    let e ← entryAt pdpt pdpti
    if isPresent e then do
      let pdpte ← entryAt pdpt pdpti
      mapInPd s (tableOf pdpte) pdi leaf
    else mapNewPd s pdpt pdpti pdi leaf
  else mapNewPdpt s self pml4i pdpti pdi leaf

/-- mirrors src/kernel/mem/pm.cpp:74-98 -/
def get (self vaddrFull : Word) : Prog (Option Word) := do
  let vaddr := vaddrFull &&& ~~~(0x1FFFFF : Word)
  let low := vaddrFull &&& 0x1FFFFF
  let e ← entryAt self (pml4Index vaddr)
  if isPresent e then do
    let pml4e ← entryAt self (pml4Index vaddr)
    let pdpt := tableOf pml4e
    let e ← entryAt pdpt (pdptIndex vaddr)
    if isPresent e then do
      let pdpte ← entryAt pdpt (pdptIndex vaddr)
      let pd := tableOf pdpte
      let e ← entryAt pd (pdIndex vaddr)
      if isPresent e then do
        let e ← entryAt pd (pdIndex vaddr)
        .ret (some ((e &&& ~~~(0x1FFFFF : Word)) ||| low))
      else .ret none
    else .ret none
  else .ret none

/-- mirrors src/kernel/mem/pm.cpp:119-131 -/
def dropPd (s : Statics) (pdpt pd : Word) : Prog Unit := do
  let n ← decRefs s pd
  if n = 0 then do
    free s pd
    let n ← decRefs s pdpt
    if n = 0 then free s pdpt else .ret ()
  else .ret ()

/-- mirrors src/kernel/mem/pm.cpp:100-138 -/
def unmap (s : Statics) (self vaddr : Word) : Prog Bool := do
  Prog.assert (vaddr &&& 0x1FFFFF = 0) "!(vaddr & 0x1FFFFF)"
  let e ← entryAt self (pml4Index vaddr)
  if isPresent e then do
    let pml4e ← entryAt self (pml4Index vaddr)
    let pdpt := tableOf pml4e
    let e ← entryAt pdpt (pdptIndex vaddr)
    if isPresent e then do
      let pdpte ← entryAt pdpt (pdptIndex vaddr)
      let pd := tableOf pdpte
      let e ← entryAt pd (pdIndex vaddr)
      if isPresent e then do
        dropPd s pdpt pd
        .ret true
      else .ret false
    else .ret false
  else .ret false

/-! ## On a flat memory -/

section Run
variable {s : Statics} {m : Mem}

@[simp] theorem trackingWord_run (idx : Word) :
    (trackingWord s idx).run m = .ok (Paging.trackingWord s m idx, m) := rfl

@[simp] theorem setTrackingWord_run (idx v : Word) :
    (setTrackingWord s idx v).run m = .ok ((), Paging.setTrackingWord s m idx v) := rfl

@[simp] theorem refcountOf_run (idx : Word) :
    (refcountOf s idx).run m = .ok (Paging.refcountOf s m idx, m) := rfl

@[simp] theorem setRefcount_run (idx : Word) (v : BitVec 16) :
    (setRefcount s idx v).run m = .ok ((), Paging.setRefcount s m idx v) := rfl

@[simp] theorem entryAt_run (t i : Word) :
    (entryAt t i).run m = .ok (Paging.entryAt m t i, m) := rfl

@[simp] theorem setEntryAt_run (t i v : Word) :
    (setEntryAt t i v).run m = .ok ((), Paging.setEntryAt m t i v) := rfl

@[simp] theorem orPanic_run {α : Type} (o : Option α) (msg : String) :
    (orPanic o msg).run m = (Paging.orPanic o msg >>= fun a => .ok (a, m)) := by
  cases o <;> rfl

theorem allocFrom_run (fuel : Nat) (addr : Word) :
    (allocFrom s fuel addr).run m = Paging.allocFrom s m fuel addr := by
  induction fuel generalizing addr with
  | zero => rfl
  | succ fuel ih =>
    have hclear (m : Mem) := Prog.run_memset addr 0 (n := 0x1000) (by decide) m
    simp only [allocFrom, Paging.allocFrom, Prog.run_bind, Prog.run_ite, Prog.run_ret,
      trackingWord_run, setTrackingWord_run, Res.ok_bind, hclear, ih]

theorem alloc_run : (alloc s).run m = Paging.alloc s m := allocFrom_run scanBound s.start

theorem free_run (addr : Word) :
    (free s addr).run m = (Paging.free s m addr >>= fun m' => .ok ((), m')) := by
  simp only [free, Paging.free, Prog.run_bind, trackingWord_run, setTrackingWord_run,
    Prog.run_assert, Res.ok_bind]
  unfold assert
  split <;> rfl

theorem incRefs_run (addr : Word) :
    (incRefs s addr).run m = (Paging.incRefs s m addr >>= fun m' => .ok ((), m')) := by
  rw [incRefs, Paging.incRefs, Prog.run_assert_seq]
  unfold assert
  split
  · rw [Res.ok_bind, Res.ok_bind, Prog.run_assert_seq]
    unfold assert
    split <;> rfl
  · rfl

theorem decRefs_run (addr : Word) : (decRefs s addr).run m = Paging.decRefs s m addr := by
  rw [decRefs, Paging.decRefs, Prog.run_assert_seq]
  refine congrArg _ (funext fun _ => ?_)
  rw [Prog.run_assert_seq]
  refine congrArg _ (funext fun _ => ?_)
  simp only [Prog.run_bind, Prog.run_ite, Prog.run_ret, refcountOf_run, setRefcount_run,
    Res.ok_bind]

theorem mapInPd_run (pd pdi leaf : Word) : (mapInPd s pd pdi leaf).run m =
    (Pml4.mapInPd s m pd pdi leaf >>= fun m' => .ok ((), m')) := by
  simp only [mapInPd, Pml4.mapInPd, Prog.run_bind, Prog.run_ite, Prog.run_fail, entryAt_run,
    setEntryAt_run, incRefs_run, Res.ok_bind]
  split <;> rfl

theorem mapNewPd_run (pdpt pdpti pdi leaf : Word) : (mapNewPd s pdpt pdpti pdi leaf).run m =
    (Pml4.mapNewPd s m pdpt pdpti pdi leaf >>= fun m' => .ok ((), m')) := by
  simp only [mapNewPd, Pml4.mapNewPd, Prog.run_bind, alloc_run, orPanic_run, setEntryAt_run,
    incRefs_run, Res.ok_bind, bind_assoc]

theorem mapNewPdpt_run (self pml4i pdpti pdi leaf : Word) :
    (mapNewPdpt s self pml4i pdpti pdi leaf).run m =
      (Pml4.mapNewPdpt s m self pml4i pdpti pdi leaf >>= fun m' => .ok ((), m')) := by
  simp only [mapNewPdpt, Pml4.mapNewPdpt, Prog.run_bind, alloc_run, orPanic_run, setEntryAt_run,
    incRefs_run, Res.ok_bind, bind_assoc]

theorem map_computes (self vaddr paddr flags : Word) : (map s self vaddr paddr flags).run m =
    (Pml4.map s m self vaddr paddr flags >>= fun m' => .ok ((), m')) := by
  rw [map, Pml4.map, Prog.run_assert_seq, bind_assoc]
  refine congrArg _ (funext fun _ => ?_)
  rw [Prog.run_assert_seq, bind_assoc]
  refine congrArg _ (funext fun _ => ?_)
  simp only [Prog.run_bind, Prog.run_ite, entryAt_run, Res.ok_bind, mapInPd_run, mapNewPd_run,
    mapNewPdpt_run]
  split
  · split <;> rfl
  · rfl

theorem get_computes (self vaddr : Word) : (get self vaddr).run m = .ok (Pml4.get m self vaddr, m) := by
  simp only [get, Pml4.get, Prog.run_bind, Prog.run_ite, Prog.run_ret, entryAt_run, Res.ok_bind]
  split
  · split
    · split <;> rfl
    · rfl
  · rfl

theorem dropPd_run (pdpt pd : Word) : (dropPd s pdpt pd).run m =
    (Pml4.dropPd s m pdpt pd >>= fun m' => .ok ((), m')) := by
  simp only [dropPd, Pml4.dropPd, Prog.run_bind, Prog.run_ite, Prog.run_ret, decRefs_run, free_run,
    Res.ok_bind, bind_assoc]
  refine congrArg _ (funext fun r => ?_)
  split
  · simp only [bind_assoc]
    refine congrArg _ (funext fun m₁ => congrArg _ (funext fun r' => ?_))
    split <;> rfl
  · rfl

theorem unmap_computes (self vaddr : Word) :
    (unmap s self vaddr).run m = Pml4.unmap s m self vaddr := by
  rw [unmap, Pml4.unmap, Prog.run_assert_seq]
  refine congrArg _ (funext fun _ => ?_)
  simp only [Prog.run_bind, Prog.run_ite, Prog.run_ret, entryAt_run, dropPd_run, Res.ok_bind,
    bind_assoc]

end Run

end X64k.L2.Paging.Code
