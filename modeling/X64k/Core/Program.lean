import X64k.Core.Mem
import X64k.Core.Res

/-!
# Programs over memory, with and without address translation

A `Prog` is code as its loads and stores see it. `run` executes it on a flat
memory. `runVia` executes it on a machine that translates every byte's address
first, by tables which lie in the same memory and may change under a store.

`run_via` relates the two: a program that keeps to an area whose translation is
one to one, and whose tables are elsewhere, does on the machine what it does on
the flat memory that the area shows, faults included, and there is no page
fault. `KeepsTo` is that the program keeps to an area, `Uses` that its accesses
are among some.
-/
namespace X64k.Core

inductive Prog (α : Type) where
  | ret (a : α)
  | fail (f : Fault)
  /-- Load the number of `n` bytes at `a`. -/
  | load (a : Word) (n : Nat) (k : Nat → Prog α)
  | store (a : Word) (n v : Nat) (k : Prog α)

namespace Prog
variable {α β : Type}

def bind : Prog α → (α → Prog β) → Prog β
  | ret a, f => f a
  | fail e, _ => fail e
  | load a n k, f => load a n fun x => (k x).bind f
  | store a n v k, f => store a n v (k.bind f)

instance : Monad Prog where
  pure := ret
  bind := bind

def load64 (a : Word) : Prog Word := load a 8 fun v => ret (BitVec.ofNat 64 v)
def store64 (a v : Word) : Prog Unit := store a 8 v.toNat (ret ())

/-- The source's `assert` macro. -/
def assert (c : Prop) [Decidable c] (msg : String) : Prog Unit :=
  if c then ret () else fail (.assertFail msg)

/-- The loop of `memset` from byte `i` on. mirrors src/kernel/algo/memory.cpp:10-15 -/
def memset (a : Word) (b : Byte) : Nat → Nat → Prog Unit
  | 0, _ => ret ()
  | n + 1, i => store (a + adr i) 1 b.toNat (memset a b n (i + 1))

/-- The first access: its address and width. -/
def first : Prog α → Option (Word × Nat)
  | ret _ => none
  | fail _ => none
  | load a n _ => some (a, n)
  | store a n _ _ => some (a, n)

/-! ## On a flat memory -/

def run : Prog α → Mem → Res (α × Mem)
  | ret a, m => .ok (a, m)
  | fail e, _ => .error e
  | load a n k, m => (k (m.loadN a n)).run m
  | store a n v k, m => k.run (m.storeN a n v)

@[simp] theorem run_ret (a : α) (m : Mem) : (ret a).run m = .ok (a, m) := rfl
@[simp] theorem run_pure (a : α) (m : Mem) : (pure a : Prog α).run m = .ok (a, m) := rfl
@[simp] theorem run_fail (e : Fault) (m : Mem) : (fail e : Prog α).run m = .error e := rfl
@[simp] theorem run_load64 (a : Word) (m : Mem) : (load64 a).run m = .ok (m.load64 a, m) := rfl
@[simp] theorem run_store64 (a v : Word) (m : Mem) :
    (store64 a v).run m = .ok ((), m.store64 a v) := rfl

@[simp] theorem run_ite (c : Prop) [Decidable c] (p q : Prog α) (m : Mem) :
    (if c then p else q).run m = if c then p.run m else q.run m := by
  split <;> rfl

@[simp] theorem run_bind (p : Prog α) (f : α → Prog β) (m : Mem) :
    (p >>= f).run m = p.run m >>= fun r => (f r.1).run r.2 := by
  show (p.bind f).run m = _
  induction p generalizing m with
  | ret a => rfl
  | fail e => rfl
  | load a n k ih => exact ih _ m
  | store a n v k ih => exact ih _

theorem run_assert (c : Prop) [Decidable c] (msg : String) (m : Mem) :
    (assert c msg).run m = (Core.assert c msg >>= fun _ => .ok ((), m)) := by
  unfold assert Core.assert
  split <;> rfl

theorem run_assert_seq (c : Prop) [Decidable c] (msg : String) (p : Unit → Prog α) (m : Mem) :
    (assert c msg >>= p).run m = (Core.assert c msg >>= fun _ => (p ()).run m) := by
  rw [run_bind, run_assert]
  unfold Core.assert
  split <;> rfl

theorem assert_seq {c : Prop} [Decidable c] (h : c) (msg : String) (p : Unit → Prog α) :
    (assert c msg >>= p) = p () := by
  rw [assert, if_pos h]
  rfl

theorem run_memset_from (a : Word) (b : Byte) : ∀ (n i : Nat) (m : Mem),
    (memset a b n i).run m = .ok ((), m.fillLoop a b n i)
  | 0, _, _ => rfl
  | n + 1, i, m => run_memset_from a b n (i + 1) (m.storeN (a + adr i) 1 b.toNat)

theorem run_memset (a : Word) (b : Byte) {n : Nat} (hn : n ≤ 2 ^ 64) (m : Mem) :
    (memset a b n 0).run m = .ok ((), m.fill a n b) := by
  rw [run_memset_from, Mem.fillLoop_eq_fill _ _ _ _ hn]

/-! ## Accesses -/

/-- Every access of the program, run on `m`, is to an address and of a width in
`W`. -/
inductive Uses (W : Word → Nat → Prop) : Prog α → Mem → Prop where
  | ret (a : α) (m : Mem) : Uses W (ret a) m
  | fail (e : Fault) (m : Mem) : Uses W (fail e) m
  | load {a : Word} {n : Nat} {k : Nat → Prog α} {m : Mem} : W a n →
      Uses W (k (m.loadN a n)) m → Uses W (load a n k) m
  | store {a : Word} {n v : Nat} {k : Prog α} {m : Mem} : W a n →
      Uses W k (m.storeN a n v) → Uses W (store a n v k) m

section Uses
variable {W : Word → Nat → Prop} {m : Mem}

theorem uses_store64 {a v : Word} (h : W a 8) : (store64 a v).Uses W m := .store h (.ret _ _)

/-- A step that returns: its accesses, then those of what follows. -/
theorem uses_seq {p : Prog α} {f : α → Prog β} {a : α} {m m' : Mem} (hp : p.Uses W m)
    (hr : p.run m = .ok (a, m')) (hf : (f a).Uses W m') : (p >>= f).Uses W m := by
  show (p.bind f).Uses W m
  induction hp with
  | ret b m => cases hr; exact hf
  | fail e m => cases hr
  | load hc _ ih => exact .load hc (ih hr)
  | store hc _ ih => exact .store hc (ih hr)

/-- A load, and what is done with the word. -/
theorem uses_load {a v : Word} {f : Word → Prog α} (h : W a 8) (hv : m.load64 a = v)
    (hf : (f v).Uses W m) : (load64 a >>= f).Uses W m := by
  subst hv
  exact .load h hf

theorem uses_store {a v : Word} {f : Unit → Prog α} (h : W a 8)
    (hf : (f ()).Uses W (m.store64 a v)) : (store64 a v >>= f).Uses W m := .store h hf

/-- A step that may fail. -/
theorem uses_bind {p : Prog α} {f : α → Prog β} {m : Mem} (hp : p.Uses W m)
    (hf : ∀ a m', p.run m = .ok (a, m') → (f a).Uses W m') : (p >>= f).Uses W m := by
  show (p.bind f).Uses W m
  induction hp with
  | ret a m => exact hf a m rfl
  | fail e m => exact .fail e m
  | load hc _ ih => exact .load hc (ih hf)
  | store hc _ ih => exact .store hc (ih hf)

theorem uses_ite {c : Prop} {_ : Decidable c} {p q : Prog α} (hp : c → p.Uses W m)
    (hq : ¬ c → q.Uses W m) : (if c then p else q).Uses W m := by
  split
  · exact hp ‹_›
  · exact hq ‹_›

/-- What follows an assertion may rely on it. -/
theorem uses_assert {c : Prop} [Decidable c] {msg : String} {p : Unit → Prog α}
    (hp : c → (p ()).Uses W m) : (assert c msg >>= p).Uses W m := by
  by_cases h : c
  · rw [assert_seq h]
    exact hp h
  · rw [assert, if_neg h]
    exact .fail _ _

theorem uses_memset {x : Word} (b : Byte) : ∀ (n i : Nat) (m : Mem),
    (∀ j, i ≤ j → j < i + n → W (x + adr j) 1) → (memset x b n i).Uses W m
  | 0, _, _, _ => .ret _ _
  | n + 1, i, _, h => .store (h i (Nat.le_refl _) (by omega))
      (uses_memset b n (i + 1) _ fun j h1 h2 => h j (by omega) (by omega))

theorem Uses.mono {W' : Word → Nat → Prop} {p : Prog α} (h : p.Uses W m)
    (hW : ∀ a n, W a n → W' a n) : p.Uses W' m := by
  induction h with
  | ret a m => exact .ret a m
  | fail e m => exact .fail e m
  | load hc _ ih => exact .load (hW _ _ hc) ih
  | store hc _ ih => exact .store (hW _ _ hc) ih

/-- What no access is to is not written. -/
theorem Uses.frame {p : Prog α} {m m' : Mem} {a : α} (h : p.Uses W m)
    (hr : p.run m = .ok (a, m')) {x : Word} (hx : ∀ b n, W b n → ¬ Within b n x) :
    m' x = m x := by
  induction h with
  | ret b m => cases hr; rfl
  | fail e m => cases hr
  | load hc _ ih => exact ih hr
  | store hc _ ih => rw [ih hr, Mem.storeN_off (hx _ _ hc)]

end Uses

/-! ## Keeping to an area -/

/-- The `n` bytes from `a` on are in `V`. -/
def Covers (V : Word → Prop) (a : Word) (n : Nat) : Prop := n ≤ 2 ^ 64 ∧ ∀ i < n, V (a + adr i)

/-- Every byte that the program, run on `m`, loads or stores is in `V`. -/
abbrev KeepsTo (V : Word → Prop) (p : Prog α) (m : Mem) : Prop := p.Uses (Covers V) m

theorem covers_one {V : Word → Prop} {x : Word} (h : V x) : Covers V x 1 := by
  refine ⟨by decide, fun i hi => ?_⟩
  rw [Nat.lt_one_iff.mp hi, show x + adr 0 = x from BitVec.add_zero x]
  exact h

theorem KeepsTo.mono {V V' : Word → Prop} {p : Prog α} {m : Mem} (h : p.KeepsTo V m)
    (hV : ∀ x, V x → V' x) : p.KeepsTo V' m :=
  Uses.mono h fun _ _ hc => ⟨hc.1, fun i hi => hV _ (hc.2 i hi)⟩

/-! ## With translation -/

def pageFault : Fault := .panic "page fault"

/-- The translation that the tables in a memory give. -/
abbrev Trans := Mem → Word → Option Word

def loadVia (tr : Trans) (m : Mem) : Nat → Word → Res Nat
  | 0, _ => .ok 0
  | n + 1, a =>
    match tr m a with
    | some p => do
      let hi ← loadVia tr m n (a + 1)
      .ok ((m p).toNat + 256 * hi)
    | none => .error pageFault

/-- Byte after byte, each through the tables as they are by then. -/
def storeVia (tr : Trans) : Nat → Mem → Word → Nat → Res Mem
  | 0, m, _, _ => .ok m
  | n + 1, m, a, v =>
    match tr m a with
    | some p => storeVia tr n (m.storeN p 1 v) (a + 1) (v / 256)
    | none => .error pageFault

def runVia (tr : Trans) : Prog α → Mem → Res (α × Mem)
  | ret a, m => .ok (a, m)
  | fail e, _ => .error e
  | load a n k, m => do
    let v ← loadVia tr m n a
    (k v).runVia tr m
  | store a n v k, m => do
    let m ← storeVia tr n m a v
    k.runVia tr m

/-- `m` is `m₀` but for the places of the area `V`. -/
def Off (V : Word → Prop) (τ : Word → Word) (m₀ m : Mem) : Prop :=
  ∀ p, (∀ a, V a → τ a ≠ p) → m p = m₀ p

/-- The area of `m` shows the flat memory `mv`. -/
def Views (V : Word → Prop) (τ : Word → Word) (m mv : Mem) : Prop := ∀ a, V a → m (τ a) = mv a

/-- Whatever is in the area, its addresses are translated by `τ`, one to one. -/
structure Window (tr : Trans) (V : Word → Prop) (τ : Word → Word) (m₀ : Mem) : Prop where
  inj : ∀ a b, V a → V b → τ a = τ b → a = b
  maps : ∀ m, Off V τ m₀ m → ∀ a, V a → tr m a = some (τ a)

section Via
variable {tr : Trans} {V : Word → Prop} {τ : Word → Word} {m₀ m mv : Mem} {a : Word} {n : Nat}

theorem Off.refl (V : Word → Prop) (τ : Word → Word) (m : Mem) : Off V τ m m := fun _ _ => rfl

theorem Off.mono {V' : Word → Prop} (h : Off V τ m₀ m) (hV : ∀ x, V x → V' x) : Off V' τ m₀ m :=
  fun p hp => h p fun a ha => hp a (hV a ha)

/-- Part of a window. -/
theorem Window.mono {V' : Word → Prop} (h : Window tr V' τ m₀) (hV : ∀ x, V x → V' x) :
    Window tr V τ m₀ where
  inj a b ha hb := h.inj a b (hV a ha) (hV b hb)
  maps m ho a ha := h.maps m (ho.mono hV) a (hV a ha)

theorem covers_succ (h : Covers V a (n + 1)) : V a ∧ Covers V (a + 1) n := by
  refine ⟨?_, Nat.le_of_succ_le h.1, fun i hi => ?_⟩
  · have := h.2 0 (Nat.succ_pos n)
    rwa [show a + adr 0 = a from BitVec.add_zero a] at this
  · have := h.2 (i + 1) (Nat.succ_lt_succ hi)
    rwa [show a + adr (i + 1) = a + 1 + adr i by
      rw [Nat.add_comm i 1, ← adr_add, BitVec.add_assoc]; rfl] at this

theorem loadVia_eq (hw : Window tr V τ m₀) (ho : Off V τ m₀ m) (hv : Views V τ m mv) :
    ∀ (n : Nat) (a : Word), Covers V a n → loadVia tr m n a = .ok (mv.loadN a n)
  | 0, _, _ => rfl
  | n + 1, a, hc => by
    obtain ⟨ha, hc⟩ := covers_succ hc
    simp only [loadVia, hw.maps m ho a ha, loadVia_eq hw ho hv n (a + 1) hc, Res.ok_bind, hv a ha]
    rfl

/-- A number is stored byte after byte. -/
theorem storeN_succ (m : Mem) (a : Word) (v : Nat) (hn : n + 1 ≤ 2 ^ 64) :
    m.storeN a (n + 1) v = (m.storeN a 1 v).storeN (a + 1) n (v / 256) := by
  refine Mem.ext (funext fun x => ?_)
  have hsub : x - (a + 1) = x - a - 1 := by
    simp only [BitVec.sub_eq_add_neg, BitVec.neg_add, BitVec.add_assoc]
  simp only [Mem.storeN]
  rw [hsub]
  generalize x - a = y
  rcases Nat.eq_zero_or_pos y.toNat with h0 | h0
  · -- the first byte
    have hy : y = 0 := BitVec.eq_of_toNat_eq h0
    have hlast : ¬ (y - 1).toNat < n := by
      rw [hy, show (0 - 1 : Word).toNat = 2 ^ 64 - 1 from rfl]
      omega
    rw [if_pos (by omega), if_neg hlast, if_pos (by omega), h0]
  · have hpred : (y - 1).toNat = y.toNat - 1 := by
      exact BitVec.toNat_sub_of_le (BitVec.le_def.mpr h0)
    rw [hpred, Nat.div_div_eq_div_mul, ← Nat.pow_succ',
      show (y.toNat - 1).succ = y.toNat from Nat.sub_add_cancel h0]
    by_cases hy : y.toNat < n + 1
    · rw [if_pos hy, if_pos (by omega)]
    · rw [if_neg hy, if_neg (by omega), if_neg (by omega)]

theorem within_one (p x : Word) : Within p 1 x ↔ x = p := by
  rw [Within, Nat.lt_one_iff]
  constructor
  · intro h
    rw [eq_add_of_within p x, h]
    exact BitVec.add_zero p
  · rintro rfl
    rw [BitVec.sub_self]
    rfl

/-- One byte. -/
theorem storeN_byte (m : Mem) (a : Word) (v : Byte) : m.storeN a 1 v.toNat = m.fill a 1 v := by
  refine Mem.ext (funext fun x => ?_)
  simp only [Mem.storeN, Mem.fill]
  split
  · rename_i h
    rw [Nat.lt_one_iff.mp h, Nat.pow_zero, Nat.div_one, BitVec.ofNat_toNat, BitVec.setWidth_eq]
  · rfl

theorem loadN_byte (m : Mem) (a : Word) : m.loadN a 1 = (m a).toNat := by
  simp [Mem.loadN]

theorem storeVia_eq (hw : Window tr V τ m₀) : ∀ (n : Nat) (m mv : Mem) (a : Word) (v : Nat),
    Off V τ m₀ m → Views V τ m mv → Covers V a n →
    ∃ m', storeVia tr n m a v = .ok m' ∧ Off V τ m₀ m' ∧ Views V τ m' (mv.storeN a n v)
  | 0, m, mv, a, v, ho, hv, _ => ⟨m, rfl, ho, fun x hx => (hv x hx).trans (Mem.storeN_off (by omega)).symm⟩
  | n + 1, m, mv, a, v, ho, hv, hc => by
    have hn := hc.1
    obtain ⟨ha, hc⟩ := covers_succ hc
    -- the first byte, at the place of `a`
    have ho' : Off V τ m₀ (m.storeN (τ a) 1 v) := fun p hp => by
      rw [Mem.storeN_off (mt (within_one _ _).mp (Ne.symm (hp a ha)))]
      exact ho p hp
    have hv' : Views V τ (m.storeN (τ a) 1 v) (mv.storeN a 1 v) := by
      intro x hx
      by_cases hxa : x = a
      · subst hxa
        rw [Mem.storeN_at ((within_one _ _).mpr rfl), Mem.storeN_at ((within_one _ _).mpr rfl), BitVec.sub_self,
          BitVec.sub_self]
      · rw [Mem.storeN_off (mt (within_one _ _).mp hxa),
          Mem.storeN_off (mt (within_one _ _).mp fun h => hxa (hw.inj x a hx ha h))]
        exact hv x hx
    obtain ⟨m', h1, h2, h3⟩ := storeVia_eq hw n _ _ (a + 1) (v / 256) ho' hv' hc
    refine ⟨m', ?_, h2, ?_⟩
    · simp only [storeVia, hw.maps m ho a ha]
      exact h1
    · rw [storeN_succ mv a v hn]
      exact h3

/-- **Translation is transparent.** A program that keeps to the window does on
the machine what it does on the flat memory that the window shows. -/
theorem run_via (hw : Window tr V τ m₀) {p : Prog α} {m mv : Mem} (ho : Off V τ m₀ m)
    (hv : Views V τ m mv) (hp : p.KeepsTo V mv) :
    match p.run mv with
    | .ok (a, mv') => ∃ m', p.runVia tr m = .ok (a, m') ∧ Off V τ m₀ m' ∧ Views V τ m' mv'
    | .error f => p.runVia tr m = .error f := by
  induction hp generalizing m with
  | ret a mv => exact ⟨m, rfl, ho, hv⟩
  | fail e mv => rfl
  | @load a n k mv hc _ ih =>
    simp only [run, runVia, loadVia_eq hw ho hv n a hc, Res.ok_bind]
    exact ih ho hv
  | @store a n v k mv hc _ ih =>
    obtain ⟨m', h1, h2, h3⟩ := storeVia_eq hw n m mv a v ho hv hc
    simp only [run, runVia, h1, Res.ok_bind]
    exact ih h2 h3

end Via

end Prog
end X64k.Core
