import X64k.L3Handover.Elf
import Mathlib.Order.Bounds.Defs

/-!
# Where the kernel is loaded (`src/loader/loader.cpp:103-119`)

`calculateLoadAddr` is a fold over the ends of the modules: an end above the
running address replaces it, rounded up to 2 MiB.

* `bump_clears`, `fold_isLeast`: as long as every end can be rounded up in 32
  bits, the result is the least frame above 4 MiB and all of them.
* `loadAddr_iff`: and never otherwise, since an end above 0xFFE00000 has no
  frame above it that 32 bits can hold.
-/
namespace X64k.L3.Loader

open X64k.Core

/-! ## The fold -/

/-- One module. mirrors src/loader/loader.cpp:114-116 -/
def bump (addr modEnd : Ptr) : Ptr := if addr < modEnd then alignUp modEnd 0x200000 else addr

/-- The list of modules at `mods` can be read, and its `mod_end` fields are
`ends`. -/
def ModList (m : Mem) (mods : Ptr) (ends : List Ptr) : Prop :=
  ∀ i (h : i < ends.length),
    member m (mods + BitVec.ofNat 32 (16 * i)) 4 4 = .ok (ends.get ⟨i, h⟩).toNat

/-- The frames that are no lower than `addr` and any of `ends`. -/
def Clears (addr : Nat) (ends : List Ptr) : Set Nat :=
  {x | 0x200000 ∣ x ∧ addr ≤ x ∧ ∀ e ∈ ends, e.toNat ≤ x}

section
variable {m : Mem} {mods : Ptr} {ends : List Ptr}

theorem calculateLoadAddr_fold (h : ModList m mods ends) : ∀ (rest done : List Ptr) (addr : Ptr),
    ends = done ++ rest →
    calculateLoadAddr m mods rest.length done.length addr = .ok (rest.foldl bump addr)
  | [], _, _, _ => rfl
  | e :: rest, done, addr, hends => by
    have hlt : done.length < ends.length := by
      rw [hends, List.length_append, List.length_cons]
      omega
    have hread := h done.length hlt
    have hget : ends.get ⟨done.length, hlt⟩ = e := by
      subst hends
      simp
    rw [hget] at hread
    have hrec := calculateLoadAddr_fold h rest (done ++ [e]) (bump addr e) (by simp [hends])
    rw [List.length_append, List.length_singleton] at hrec
    rw [List.length_cons, calculateLoadAddr, hread, Res.ok_bind]
    dsimp only
    rw [show BitVec.ofNat 32 e.toNat = e from BitVec.ofNat_toNat .. |>.trans (BitVec.setWidth_eq e)]
    exact hrec

/-- The next address, and the frames above it. -/
theorem bump_clears {addr e : Ptr} (ha : 0x200000 ∣ addr.toNat) (he : e.toNat ≤ 0xFFE00000)
    (ends : List Ptr) : 0x200000 ∣ (bump addr e).toNat ∧
      Clears (bump addr e).toNat ends = Clears addr.toNat (e :: ends) := by
  have hup := alignUp_toNat he
  unfold bump
  split
  · rename_i hlt
    have hlt' := BitVec.lt_def.mp hlt
    refine ⟨by omega, Set.ext fun x => ?_⟩
    constructor
    · rintro ⟨hd, hx, hall⟩
      exact ⟨hd, by omega, List.forall_mem_cons.mpr ⟨by omega, hall⟩⟩
    · rintro ⟨hd, hx, hall⟩
      obtain ⟨h1, h2⟩ := List.forall_mem_cons.mp hall
      exact ⟨hd, by omega, h2⟩
  · rename_i hge
    have hge' := BitVec.le_def.mp (BitVec.not_lt.mp hge)
    refine ⟨ha, Set.ext fun x => ?_⟩
    constructor
    · rintro ⟨hd, hx, hall⟩
      exact ⟨hd, hx, List.forall_mem_cons.mpr ⟨by omega, hall⟩⟩
    · rintro ⟨hd, hx, hall⟩
      exact ⟨hd, hx, (List.forall_mem_cons.mp hall).2⟩

theorem fold_isLeast : ∀ {ends : List Ptr} {addr : Ptr}, 0x200000 ∣ addr.toNat →
    (∀ e ∈ ends, e.toNat ≤ 0xFFE00000) →
    IsLeast (Clears addr.toNat ends) (ends.foldl bump addr).toNat
  | [], addr, ha, _ => ⟨⟨ha, Nat.le_refl _, List.forall_mem_nil _⟩, fun _ hx => hx.2.1⟩
  | e :: ends, addr, ha, hall => by
    obtain ⟨he, hends⟩ := List.forall_mem_cons.mp hall
    obtain ⟨hb, hset⟩ := bump_clears ha he ends
    rw [← hset]
    exact fold_isLeast hb hends

/-- A frame of the 32-bit address space is above no end from 0xFFE00000 on. -/
theorem clears_bound {addr : Nat} {la : Ptr} (h : la.toNat ∈ Clears addr ends) :
    ∀ e ∈ ends, e.toNat ≤ 0xFFE00000 := by
  intro e he
  have h1 := la.isLt
  have h2 := h.2.2 e he
  have h3 := h.1
  omega

end

/-- **The load address** is the least multiple of 2 MiB above 4 MiB and every
module, whatever their order, exactly when every end has one in 32 bits. -/
theorem loadAddr_iff {m : Mem} {mods : Ptr} {ends : List Ptr} (h : ModList m mods ends) :
    (∃ la, calculateLoadAddr m mods ends.length 0 0x400000 = .ok la ∧
      IsLeast {x | 0x200000 ∣ x ∧ 0x400000 ≤ x ∧ ∀ e ∈ ends, e.toNat ≤ x} la.toNat) ↔
    ∀ e ∈ ends, e.toNat ≤ 0xFFE00000 := by
  have hfold := calculateLoadAddr_fold h ends [] 0x400000 rfl
  constructor
  · rintro ⟨la, -, hl⟩
    exact clears_bound hl.1
  · intro hall
    have hframe : 0x200000 ∣ (0x400000 : Ptr).toNat := by decide
    exact ⟨_, hfold, fold_isLeast hframe hall⟩

/-- The loader's tables, and two modules at 0x300000. -/
def demoModules (end₀ end₁ : Ptr) : Mem :=
  ([(0x100000, 0x101001), (0x101000, 0x81), (0x101008, 0x200081), (0x300000, end₀.addr <<< 32),
    (0x300010, end₁.addr <<< 32)] : List (Word × Word)).foldl (fun m w => m.store64 w.1 w.2)
    ⟨fun _ => 0⟩

theorem demo_modList {end₀ end₁ : Ptr}
    (h₀ : member (demoModules end₀ end₁) 0x300000 4 4 = .ok end₀.toNat)
    (h₁ : member (demoModules end₀ end₁) 0x300010 4 4 = .ok end₁.toNat) :
    ModList (demoModules end₀ end₁) 0x300000 [end₀, end₁] := by
  intro i h
  have hi : i = 0 ∨ i = 1 := by
    simp only [List.length_cons, List.length_nil] at h
    omega
  rcases hi with rfl | rfl
  · exact h₀
  · exact h₁

theorem demo_low : ModList (demoModules 0x512345 0x345678) 0x300000 [0x512345, 0x345678] :=
  demo_modList (by decide +kernel) (by decide +kernel)

theorem demo_high : ModList (demoModules 0x512345 0xFFF00000) 0x300000 [0x512345, 0xFFF00000] :=
  demo_modList (by decide +kernel) (by decide +kernel)

theorem loadAddr_demo : ∃ la,
    calculateLoadAddr (demoModules 0x512345 0x345678) 0x300000 2 0 0x400000 = .ok la ∧
    IsLeast {x | 0x200000 ∣ x ∧ 0x400000 ≤ x ∧ ∀ e ∈ [(0x512345 : Ptr), 0x345678], e.toNat ≤ x}
      la.toNat := by
  refine (loadAddr_iff demo_low).mpr fun e he => ?_
  simp only [List.mem_cons, List.not_mem_nil, or_false] at he
  rcases he with rfl | rfl
  · decide
  · decide

/-- **A module that ends in the last 2 MiB** of the 32-bit address space: the
result is 0. -/
theorem loadAddr_wraps : ¬ ∀ (m : Mem) (mods : Ptr) (ends : List Ptr), ModList m mods ends →
    ∃ la, calculateLoadAddr m mods ends.length 0 0x400000 = .ok la ∧
      IsLeast {x | 0x200000 ∣ x ∧ 0x400000 ≤ x ∧ ∀ e ∈ ends, e.toNat ≤ x} la.toNat := by
  intro hall
  obtain ⟨la, -, hl⟩ := hall _ _ _ demo_high
  have h := clears_bound hl.1 0xFFF00000 (List.mem_cons_of_mem _ List.mem_cons_self)
  exact absurd h (by decide)

end X64k.L3.Loader
