import X64k.L1Heap.Code
import X64k.L1Heap.Service

/-!
# What a call of the heap touches

One call of the heap's interface as a program, the operators and the clients'
own accesses included. On a flat memory it is the call of the service
(`call_eq`).

* `call_keepsTo`: in every reachable state, whatever the call and however it
  ends, no byte outside the heap is loaded or stored; a `reset` also writes
  the first header of the range that it is given.
-/
namespace X64k.L1.Heap.Code

open X64k.Core

/-- mirrors src/kernel/algo/new.hpp:6-14 -/
def operatorNew (fuel : Nat) (h : Heap) (v : Word) : Prog Word := do
  Prog.assert h.valid "heap::kernelHeap.valid()"
  match ← alloc fuel h v with
  | some p => .ret p
  | none => .fail (.panic "Allocation failed")

/-- mirrors src/kernel/algo/new.hpp:16-19,26-29 -/
def operatorDelete (fuel : Nat) (h : Heap) (v : Word) : Prog Unit := do
  Prog.assert h.valid "heap::kernelHeap.valid()"
  free fuel v

/-- mirrors src/kernel/algo/new.hpp:21-24,31-34 -/
def operatorDeleteSized (fuel : Nat) (h : Heap) (v n : Word) : Prog Unit := do
  Prog.assert h.valid "heap::kernelHeap.valid()"
  freeChecked fuel v n

/-- A call, with the heap object after it. -/
def call (fuel : Nat) (h : Heap) : Call → Prog (Ans × Heap)
  | .reset base size => do
    let h ← reset fuel h base size
    .ret (.done, h)
  | .alloc n => do
    let r ← alloc fuel h n
    .ret (.addr r, h)
  | .allocAligned n align => do
    let r ← allocAligned fuel h n align
    .ret (.addr r, h)
  | .new n => do
    let p ← operatorNew fuel h n
    .ret (.addr (some p), h)
  | .free p => do
    free fuel p
    .ret (.done, h)
  | .freeChecked p n => do
    freeChecked fuel p n
    .ret (.done, h)
  | .delete p => do
    operatorDelete fuel h p
    .ret (.done, h)
  | .deleteSized p n => do
    operatorDeleteSized fuel h p n
    .ret (.done, h)
  | .store p i v => .store (p + i) 1 v.toNat (.ret (.done, h))
  | .load p i => .load (p + i) 1 fun v => .ret (.byte (BitVec.ofNat 8 v), h)

/-- A payload of `n` bytes is handed out, if it is. -/
def settleAlloc (live : Word → Option Word) (n : Word) : Ans → Word → Option Word
  | .addr (some p) => setLive live p (some n)
  | .addr none => live
  | .done => live
  | .byte _ => live

/-- The live payloads after a call that was answered. -/
def settle (live : Word → Option Word) : Call × Ans → Word → Option Word
  | (.reset _ _, _) => live
  | (.alloc n, a) => settleAlloc live n a
  | (.allocAligned n _, a) => settleAlloc live n a
  | (.new n, a) => settleAlloc live n a
  | (.free p, _) => setLive live p none
  | (.freeChecked p _, _) => setLive live p none
  | (.delete p, _) => setLive live p none
  | (.deleteSized p _, _) => setLive live p none
  | (.store _ _ _, _) => live
  | (.load _ _, _) => live

/-! ## On a flat memory -/

section Run
variable {m : Mem}

theorem operatorNew_run (fuel : Nat) (h : Heap) (v : Word) :
    (operatorNew fuel h v).run m = Heap.operatorNew fuel h m v := by
  rw [operatorNew, Heap.operatorNew, Prog.run_assert_seq, Prog.run_bind, alloc_run]
  refine congrArg _ (funext fun _ => ?_)
  cases h.alloc fuel m v with
  | error f => rfl
  | ok r =>
    obtain ⟨r, m'⟩ := r
    cases r <;> rfl

theorem operatorDelete_run (fuel : Nat) (h : Heap) (v : Word) :
    (operatorDelete fuel h v).run m =
      (Heap.operatorDelete fuel h m v >>= fun m' => .ok ((), m')) := by
  rw [operatorDelete, Heap.operatorDelete, Prog.run_assert_seq, free_run]
  unfold Core.assert
  split <;> rfl

theorem operatorDeleteSized_run (fuel : Nat) (h : Heap) (v n : Word) :
    (operatorDeleteSized fuel h v n).run m =
      (Heap.operatorDeleteSized fuel h m v n >>= fun m' => .ok ((), m')) := by
  rw [operatorDeleteSized, Heap.operatorDeleteSized, Prog.run_assert_seq, freeChecked_run]
  unfold Core.assert
  split <;> rfl

/-- The service's call is the program's run. -/
theorem call_eq (fuel : Nat) (s : St) (c : Call) :
    Heap.call fuel s c = (call fuel s.heap c).run s.mem >>= fun r =>
      .ok (r.1.1, ⟨r.1.2, r.2, settle s.live (c, r.1.1)⟩) := by
  cases c with
  | reset base size =>
    simp only [Heap.call, call, Prog.run_bind, reset_run]
    cases s.heap.reset fuel s.mem base size <;> rfl
  | alloc n =>
    simp only [Heap.call, call, Prog.run_bind, alloc_run]
    cases s.heap.alloc fuel s.mem n with
    | error f => rfl
    | ok r =>
      obtain ⟨r, m'⟩ := r
      cases r <;> rfl
  | allocAligned n align =>
    simp only [Heap.call, call, Prog.run_bind, allocAligned_run]
    cases s.heap.allocAligned fuel s.mem n align with
    | error f => rfl
    | ok r =>
      obtain ⟨r, m'⟩ := r
      cases r <;> rfl
  | new n =>
    simp only [Heap.call, call, Prog.run_bind, operatorNew_run]
    cases Heap.operatorNew fuel s.heap s.mem n <;> rfl
  | free p =>
    simp only [Heap.call, call, Prog.run_bind, free_run]
    cases Heap.free fuel s.mem p <;> rfl
  | freeChecked p n =>
    simp only [Heap.call, call, Prog.run_bind, freeChecked_run]
    cases Heap.freeChecked fuel s.mem p n <;> rfl
  | delete p =>
    simp only [Heap.call, call, Prog.run_bind, operatorDelete_run]
    cases Heap.operatorDelete fuel s.heap s.mem p <;> rfl
  | deleteSized p n =>
    simp only [Heap.call, call, Prog.run_bind, operatorDeleteSized_run]
    cases Heap.operatorDeleteSized fuel s.heap s.mem p n <;> rfl
  | store p i v =>
    show _ = (.ok (.done, ⟨s.heap, s.mem.storeN (p + i) 1 v.toNat, s.live⟩) : Res (Ans × St))
    rw [Prog.storeN_byte]
    rfl
  | load p i =>
    show _ = (.ok (.byte (BitVec.ofNat 8 (s.mem.loadN (p + i) 1)), s) : Res (Ans × St))
    rw [Prog.loadN_byte, BitVec.ofNat_toNat, BitVec.setWidth_eq]
    rfl

end Run

/-! ## Keeping to the heap -/

section Keeps
variable {base size : Word} {s : St} {fuel : Nat} {V : Word → Prop}

/-- Without a heap the walks end at once. -/
theorem walks_null (m : Mem) (n align : Word) (bound : Nat) :
    (allocFrom n fuel 0).KeepsTo V m ∧ (allocAlignedFrom n align bound fuel 0).KeepsTo V m ∧
      (checkNoLiving fuel 0).KeepsTo V m := by
  cases fuel with
  | zero => exact ⟨.fail _ _, .fail _ _, .fail _ _⟩
  | succ fuel =>
    rw [allocFrom, allocAlignedFrom, checkNoLiving, if_pos rfl, if_pos rfl, if_pos rfl]
    exact ⟨.ret _ _, .ret _ _, .ret _ _⟩

/-- The check of the old heap, by induction on the blocks. -/
theorem checkNoLiving_keepsTo {m : Mem} {e lo : Nat} (he : e < 2 ^ 64) :
    ∀ (l : List Blk) (a fuel : Nat), Blocks m e a l → a + span l = e → lo ≤ a →
      (checkNoLiving fuel (link e a)).KeepsTo (Area lo e) m
  | _, _, 0, _, _, _ => .fail _ _
  | [], a, fuel + 1, _, hx, _ => by
    have hae : a = e := hx
    rw [link, if_pos hae, checkNoLiving, if_pos rfl]
    exact .ret _ _
  | b :: l, a, fuel + 1, ⟨hb, hl⟩, hx, hlo => by
    simp only [span] at hx
    obtain ⟨c0, c8, c16, c24⟩ := covers_hdr hlo (show a + 32 ≤ e by omega) (by omega)
    rw [link, if_neg (by omega), checkNoLiving]
    refine Prog.uses_ite (fun _ => .ret _ _) fun _ => Prog.uses_load c0 rfl ?_
    refine Prog.uses_ite (fun _ => .fail _ _) fun _ => Prog.uses_load c0 rfl ?_
    refine Prog.uses_ite (fun _ => .fail _ _) fun _ => Prog.uses_load c24 hb.next ?_
    exact checkNoLiving_keepsTo he l _ fuel hl (by omega) (by omega)

theorem root_link {l : List Blk} (hs : Shape base size s l) :
    link (base.toNat + size.toNat) base.toNat = s.heap.rootHeader := by
  rw [hs.rootHeader, link, if_neg, adr_of_toNat]
  have htl := hs.tiles
  cases l with
  | nil => exact absurd rfl hs.nonempty
  | cons b l => simp only [span] at htl; omega

theorem alloc_keepsTo (h : Firm base size s) (hlt : base.toNat + size.toNat < 2 ^ 64)
    (h0 : 0 < base.toNat) {n : Word} (hn : n.toNat + 32 < 2 ^ 64) :
    (alloc fuel s.heap n).KeepsTo (Area base.toNat (base.toNat + size.toNat)) s.mem := by
  obtain ⟨l, hs, -⟩ := h
  have hk := allocFrom_keepsTo hn hlt fuel hs.blocks hs.tiles h0 (Nat.le_refl _)
  rwa [adr_of_toNat, root_link hs] at hk

theorem allocAligned_keepsTo (h : Firm base size s) (h0 : 0 < base.toNat) {n align : Word}
    (hv : Promise s (.allocAligned n align)) :
    (allocAligned fuel s.heap n align).KeepsTo (Area base.toNat (base.toNat + size.toNat))
      s.mem := by
  obtain ⟨l, hs, -⟩ := h
  obtain ⟨hn, ⟨k, ha⟩, hlt, hsp⟩ := hv
  rw [hs.heap] at hlt
  have hk : k < 64 := by
    have := align.isLt
    rw [ha] at this
    exact (Nat.pow_lt_pow_iff_right (by decide)).mp this
  have hkeep := allocAlignedFrom_keepsTo hk hn hlt fuel fuel hs.blocks hs.tiles h0 (Nat.le_refl _)
    (hs.roomy hlt h0 ha hsp)
  rwa [adr_of_toNat, ← ha, adr_of_toNat, root_link hs] at hkeep

theorem mayFree_keepsTo (h : Firm base size s) (hlt : base.toNat + size.toNat < 2 ^ 64) {p : Word}
    (hv : MayFree s p) :
    (free fuel p).KeepsTo (Area base.toNat (base.toNat + size.toNat)) s.mem ∧
      ∀ n, (freeChecked fuel p n).KeepsTo (Area base.toNat (base.toNat + size.toNat)) s.mem := by
  obtain ⟨l, hs, hlow, hab⟩ := h
  obtain ⟨n, hp⟩ := Option.ne_none_iff_exists'.mp hv.1
  have hst := hs.staleFails hlt hv.2
  obtain ⟨-, l₁, b, l₂, rfl, -, rfl, -⟩ := hs.live_block hp
  have hfree := free_keepsTo hs.blocks hs.tiles hlt hlow hab hst fuel
  refine ⟨hfree, fun k => ?_⟩
  have htl := hs.tiles
  simp only [span_append, span] at htl
  obtain ⟨c0, c8, -⟩ := covers_hdr (Nat.le_add_right base.toNat (span l₁))
    (show base.toNat + span l₁ + 32 ≤ base.toNat + size.toNat by omega) (by omega)
  rw [freeChecked, sub_headerSize]
  refine Prog.uses_load c0 rfl (Prog.uses_assert fun _ => ?_)
  exact Prog.uses_load c8 rfl (Prog.uses_assert fun _ => hfree)

/-- The first header of the range that a `reset` is given. -/
theorem firstHeader_keepsTo {b n : Word} (hv : Promise s (.reset b n)) (m : Mem) :
    (placeInitialHeader b n).KeepsTo (Area b.toNat (b.toNat + 32)) m := by
  have hp := placeInitialHeader_keepsTo (m := m)
    (Nat.lt_of_le_of_lt (Nat.add_le_add_left hv.1 b.toNat) hv.2) n
  rwa [adr_of_toNat] at hp

theorem reset_keepsTo (h : Firm base size s) (hlt : base.toNat + size.toNat < 2 ^ 64) {b n : Word}
    (hv : Promise s (.reset b n)) :
    (reset fuel s.heap b n).KeepsTo (fun x => Area base.toNat (base.toNat + size.toNat) x ∨
      Area b.toNat (b.toNat + 32) x) s.mem := by
  obtain ⟨l, hs, -⟩ := id h
  have hck : (checkNoLiving fuel s.heap.rootHeader).KeepsTo
      (Area base.toNat (base.toNat + size.toNat)) s.mem := by
    rw [← root_link hs]
    exact checkNoLiving_keepsTo hlt l _ fuel hs.blocks hs.tiles (Nat.le_refl _)
  rw [reset, if_pos h.size_ne]
  refine Prog.uses_bind (hck.mono fun _ => .inl) fun _ m' _ => ?_
  exact Prog.uses_bind ((firstHeader_keepsTo hv m').mono fun _ => .inr) fun _ _ _ => .ret _ _

theorem operatorNew_keepsTo {h : Heap} {m : Mem} {n : Word} (ha : (alloc fuel h n).KeepsTo V m) :
    (operatorNew fuel h n).KeepsTo V m := by
  refine Prog.uses_assert fun _ => Prog.uses_bind ha fun r m' _ => ?_
  cases r with
  | none => exact .fail _ _
  | some p => exact .ret _ _

/-- Where a call may load and store: in the heap, and a `reset` also where it
places the first header. -/
def Bounds (h : Heap) (c : Call) (x : Word) : Prop :=
  Area h.m_base.toNat (h.m_base.toNat + h.m_size.toNat) x ∨
    match c with
    | .reset base _ => Area base.toNat (base.toNat + headerSize.toNat) x
    | _ => False

/-- A byte of a live payload. -/
theorem payload_covers (h : Firm base size s) (hlt : base.toNat + size.toNat < 2 ^ 64) {p i : Word}
    (hv : i < (s.live p).getD 0) :
    Prog.Covers (Area base.toNat (base.toNat + size.toNat)) (p + i) 1 := by
  obtain ⟨l, hs, -⟩ := h
  obtain ⟨n, hp, hi⟩ := live_of_lt hv
  have hb := usedOf_bounds ((hs.live p n).mp hp)
  have htl := hs.tiles
  rw [show p + i = adr (p.toNat + i.toNat) by rw [← adr_add, adr_of_toNat, adr_of_toNat]]
  exact covers_area (by omega) (by omega) (by omega)

/-- A heap that is not at address 0. -/
theorem firm_keepsTo (h : Firm base size s) (hlt : base.toNat + size.toNat < 2 ^ 64)
    (h0 : 0 < base.toNat) {c : Call} (hv : Promise s c) :
    (call fuel s.heap c).KeepsTo (Bounds s.heap c) s.mem := by
  have hheap : s.heap = ⟨base, size⟩ := by
    obtain ⟨l, hs, -⟩ := h
    exact hs.heap
  have within {α : Type} {p : Prog α} {f : α → Prog (Ans × Heap)} {m : Mem}
      (hp : p.KeepsTo (Area base.toNat (base.toNat + size.toNat)) m)
      (hf : ∀ a m', p.run m = .ok (a, m') → ∃ r, f a = .ret r) :
      (p >>= f).KeepsTo (Bounds s.heap c) m := by
    refine Prog.uses_bind (hp.mono fun x hx => .inl (by rw [hheap]; exact hx)) fun a m' hr => ?_
    obtain ⟨r, hr⟩ := hf a m' hr
    rw [hr]
    exact .ret _ _
  cases c with
  | reset b n =>
    refine Prog.uses_bind ((reset_keepsTo h hlt hv).mono fun x hx => ?_) fun _ _ _ => .ret _ _
    rw [Bounds, hheap]
    exact hx
  | alloc n => exact within (alloc_keepsTo h hlt h0 hv) fun _ _ _ => ⟨_, rfl⟩
  | allocAligned n align => exact within (allocAligned_keepsTo h h0 hv) fun _ _ _ => ⟨_, rfl⟩
  | new n => exact within (operatorNew_keepsTo (alloc_keepsTo h hlt h0 hv)) fun _ _ _ => ⟨_, rfl⟩
  | free p => exact within (mayFree_keepsTo h hlt hv).1 fun _ _ _ => ⟨_, rfl⟩
  | freeChecked p n => exact within ((mayFree_keepsTo h hlt hv).2 n) fun _ _ _ => ⟨_, rfl⟩
  | delete p =>
    exact within (Prog.uses_assert fun _ => (mayFree_keepsTo h hlt hv).1) fun _ _ _ => ⟨_, rfl⟩
  | deleteSized p n =>
    exact within (Prog.uses_assert fun _ => (mayFree_keepsTo h hlt hv).2 n) fun _ _ _ => ⟨_, rfl⟩
  | store p i v =>
    have hc := payload_covers h hlt hv
    exact .store ⟨hc.1, fun j hj => .inl (by rw [hheap]; exact hc.2 j hj)⟩ (.ret _ _)
  | load p i =>
    have hc := payload_covers h hlt hv
    exact .load ⟨hc.1, fun j hj => .inl (by rw [hheap]; exact hc.2 j hj)⟩ (.ret _ _)

/-- The heap object as constructed has nothing to check. -/
theorem reset_empty_keepsTo {b n : Word} (hv : Promise s (.reset b n)) (m : Mem) :
    (reset fuel Heap.empty b n).KeepsTo (Area b.toNat (b.toNat + 32)) m :=
  Prog.uses_bind (firstHeader_keepsTo hv m) fun _ _ _ => .ret _ _

/-- Without a heap, or with one at address 0, nothing is live. -/
theorem idle_keepsTo (hroot : s.heap.rootHeader = 0) (hl : ∀ p, s.live p = none) {c : Call}
    (hv : Promise s c) : (call fuel s.heap c).KeepsTo (Bounds s.heap c) s.mem := by
  have hfree {p : Word} {q : Prop} (h : MayFree s p) : q := absurd (hl p) h.1
  have hin {p i : Word} {q : Prop} (h : i < (s.live p).getD 0) : q := by
    rw [hl] at h
    exact absurd h BitVec.not_lt_zero
  have hwalk := @walks_null fuel (Bounds s.heap c) s.mem
  rw [← hroot] at hwalk
  cases c with
  | reset b n =>
    have hplace (m : Mem) : (placeInitialHeader b n).KeepsTo (Bounds s.heap (.reset b n)) m :=
      (firstHeader_keepsTo hv m).mono fun _ => .inr
    refine Prog.uses_bind ?_ fun _ _ _ => .ret _ _
    unfold reset
    split
    · refine Prog.uses_bind (hwalk 0 0 0).2.2 fun _ m' _ => ?_
      exact Prog.uses_bind (hplace m') fun _ _ _ => .ret _ _
    · exact Prog.uses_bind (hplace _) fun _ _ _ => .ret _ _
  | alloc n => exact Prog.uses_bind (hwalk n 0 0).1 fun _ _ _ => .ret _ _
  | allocAligned n align => exact Prog.uses_bind (hwalk n align fuel).2.1 fun _ _ _ => .ret _ _
  | new n => exact Prog.uses_bind (operatorNew_keepsTo (hwalk n 0 0).1) fun _ _ _ => .ret _ _
  | free p => exact hfree hv
  | freeChecked p n => exact hfree hv
  | delete p => exact hfree hv
  | deleteSized p n => exact hfree hv
  | store p i v => exact hin hv
  | load p i => exact hin hv

end Keeps

/-! ## Only the heap matters -/

section Congr
variable {base size : Word} {s s' : St} {m : Mem} {fuel : Nat}

/-- Two memories that agree on the heap are the same heap, with the same
payloads. -/
theorem shape_congr {l : List Blk} (hs : Shape base size s l)
    (hm : Mem.EqOn s.mem m base.toNat (base.toNat + size.toNat)) :
    Shape base size { s with mem := m } l ∧ objects { s with mem := m } = objects s := by
  have htl := hs.tiles
  refine ⟨⟨hs.heap, hs.nonempty, hs.blocks.transport (hm.mono (Nat.le_refl _) (by omega)),
    hs.tiles, hs.live, hs.null⟩, Objects.ofMem_congr fun q n hq => ?_⟩
  obtain ⟨k, hk, rfl⟩ := sizes_some hq
  have hb := usedOf_bounds ((hs.live q k).mp hk)
  exact hm.mono (by omega) (by omega)

theorem firm_congr (h : Firm base size s)
    (hm : Mem.EqOn s.mem m base.toNat (base.toNat + size.toNat)) :
    Firm base size { s with mem := m } ∧ objects { s with mem := m } = objects s := by
  obtain ⟨l, hs, hlow, hab⟩ := h
  obtain ⟨hs', hobj⟩ := shape_congr hs hm
  exact ⟨⟨l, hs', hlow, hab⟩, hobj⟩

/-- Calls other than `reset` keep the heap object. -/
theorem call_heap {c : Call} {a : Ans} (hc : ∀ b n, c ≠ .reset b n)
    (he : Heap.call fuel s c = .ok (a, s')) : s'.heap = s.heap := by
  have hgrant (m : Mem) (n : Word) (r : Option Word) : (s.grant m n r).heap = s.heap := by
    cases r <;> rfl
  cases c with
  | reset b n => exact absurd rfl (hc b n)
  | alloc n =>
    obtain ⟨⟨r, m⟩, -, he⟩ := Res.bind_eq_ok.mp he
    cases he
    exact hgrant m n r
  | allocAligned n align =>
    obtain ⟨⟨r, m⟩, -, he⟩ := Res.bind_eq_ok.mp he
    cases he
    exact hgrant m n r
  | new n =>
    obtain ⟨⟨p, m⟩, -, he⟩ := Res.bind_eq_ok.mp he
    cases he
    exact hgrant m n (some p)
  | free p =>
    obtain ⟨m, -, he⟩ := Res.bind_eq_ok.mp he
    cases he
    rfl
  | freeChecked p n =>
    obtain ⟨m, -, he⟩ := Res.bind_eq_ok.mp he
    cases he
    rfl
  | delete p =>
    obtain ⟨m, -, he⟩ := Res.bind_eq_ok.mp he
    cases he
    rfl
  | deleteSized p n =>
    obtain ⟨m, -, he⟩ := Res.bind_eq_ok.mp he
    cases he
    rfl
  | store p i v =>
    cases he
    rfl
  | load p i =>
    cases he
    rfl

theorem ready_firm (h : Ready s) (hsz : s.heap.m_size ≠ 0) :
    Firm s.heap.m_base s.heap.m_size s := by
  rcases h with ⟨he, -⟩ | ⟨b, n, -, hF⟩
  · rw [he] at hsz
    exact absurd rfl hsz
  · obtain ⟨l, hs, -⟩ := id hF
    rw [hs.heap]
    exact hF

/-- A call other than `reset` leads from a heap to the same heap. -/
theorem firm_call {c : Call} {a : Ans} (h : Firm base size s)
    (hlt : base.toNat + size.toNat < 2 ^ 64) (hv : Promise s c) (hc : ∀ b n, c ≠ .reset b n)
    (he : Heap.call fuel s c = .ok (a, s')) :
    Firm base size s' ∧ Objects.Step (objects s) (event (c, a)) (objects s') := by
  obtain ⟨hr, hst⟩ := h.call hlt (c := (c, a)) ⟨hv, fuel, he⟩
  refine ⟨?_, hst⟩
  have hF := ready_firm hr (by rw [call_heap hc he]; exact h.size_ne)
  obtain ⟨l, hs, -⟩ := h
  rwa [call_heap hc he, hs.heap] at hF

end Congr

/-! ## Main result -/

/-- **The heap keeps to its range.** In every reachable state, a call in which
the client keeps its side loads and stores within the bounds only, however
long it runs and however it ends; and the call is what the program does. -/
theorem call_keepsTo {s : St} (hr : service.Reachable s) {c : Call} (hv : Promise s c)
    (fuel : Nat) : (call fuel s.heap c).KeepsTo (Bounds s.heap c) s.mem ∧
      Heap.call fuel s c = (call fuel s.heap c).run s.mem >>= fun r =>
        .ok (r.1.1, ⟨r.1.2, r.2, settle s.live (c, r.1.1)⟩) := by
  refine ⟨?_, call_eq fuel s c⟩
  rcases ready_inductive.reachable s hr with ⟨he, hl⟩ | ⟨base, size, hlt, h⟩
  · exact idle_keepsTo (by rw [he]; rfl) (fun p => by rw [hl]) hv
  rcases Nat.eq_zero_or_pos base.toNat with h0 | h0
  · obtain ⟨l, hs, -⟩ := h
    refine idle_keepsTo (hs.rootHeader.trans (BitVec.eq_of_toNat_eq h0)) (fun p => ?_) hv
    refine Option.eq_none_iff_forall_ne_some.mpr fun n hn => ?_
    exact absurd (hs.live_block hn).1 (by omega)
  · exact firm_keepsTo h hlt h0 hv

theorem call_keepsTo_demo : ∃ s, service.Reachable s ∧
    (call 12 s.heap (.alloc 8)).KeepsTo (Bounds s.heap (.alloc 8)) s.mem := by
  obtain ⟨s, s', h0, hr⟩ := demo_run
  have hv : Promise s' (.alloc 8) := show (8 : Word).toNat + 32 < 2 ^ 64 by decide
  exact ⟨s', ⟨s, demo, h0, hr⟩, (call_keepsTo ⟨s, demo, h0, hr⟩ hv 12).1⟩

end X64k.L1.Heap.Code
