/-!
# Results of code that can halt

`Res α` is what a call delivers: a value, or the fault that stopped the
machine. A loop of the source is translated with a bound on its iterations;
`Fault.loop` is the answer when the bound is used up, so a result that is not
`Fault.loop` is the result of the source's own loop: `Res.Stable` says that a
larger bound does not change it.
-/
namespace X64k.Core

inductive Fault where
  /-- A failed assertion; the argument is the asserted expression. -/
  | assertFail (msg : String)
  | panic (msg : String)
  | loop
  deriving DecidableEq, Repr

abbrev Res (α : Type) := Except Fault α

/-- The source's `assert` macro. -/
def assert (c : Prop) [Decidable c] (msg : String) : Res Unit :=
  if c then .ok () else .error (.assertFail msg)

namespace Res
variable {α β : Type}

theorem bind_eq_ok {x : Res α} {f : α → Res β} {b : β} :
    (x >>= f) = .ok b ↔ ∃ a, x = .ok a ∧ f a = .ok b := by
  cases x with
  | ok a =>
    constructor
    · intro h; exact ⟨a, rfl, h⟩
    · rintro ⟨_, ⟨rfl⟩, h⟩; exact h
  | error e =>
    constructor
    · intro h; cases h
    · rintro ⟨_, h, _⟩; cases h

@[simp] theorem ok_bind (a : α) (f : α → Res β) : ((.ok a : Res α) >>= f) = f a := rfl

@[simp] theorem error_bind (e : Fault) (f : α → Res β) :
    ((.error e : Res α) >>= f) = .error e := rfl

@[simp] theorem assert_of {c : Prop} [Decidable c] (h : c) (msg : String) :
    assert c msg = .ok () := if_pos h

theorem assert_not {c : Prop} [Decidable c] (h : ¬ c) (msg : String) :
    assert c msg = .error (.assertFail msg) := if_neg h

theorem ne_loop_of_ok {r : Res α} {a : α} (h : r = .ok a) : r ≠ .error .loop := by
  rw [h]
  intro h
  cases h

theorem ends_of_ok {r : Res α} {P : α → Prop} {a : α} (h : r = .ok a) (ha : P a) :
    r ≠ .error .loop ∧ ∀ b, r = .ok b → P b := by
  refine ⟨ne_loop_of_ok h, fun b hb => ?_⟩
  rw [h] at hb
  cases hb
  exact ha

theorem ends_of_error {r : Res α} {P : α → Prop} {e : Fault} (h : r = .error e)
    (he : e ≠ .loop) : r ≠ .error .loop ∧ ∀ b, r = .ok b → P b := by
  rw [h]
  constructor
  · intro hl
    cases hl
    exact he rfl
  · intro b hb
    cases hb

/-! ## More iterations -/

/-- `r'` is `r`, unless `r` had used up its bound. -/
def Le (r r' : Res α) : Prop := r ≠ .error .loop → r' = r

theorem Le.refl (r : Res α) : Le r r := fun _ => rfl

theorem Le.loop (r : Res α) : Le (.error .loop) r := fun h => absurd rfl h

theorem Le.ite {c : Prop} [Decidable c] {x x' y y' : Res α} (hx : Le x x') (hy : Le y y') :
    Le (if c then x else y) (if c then x' else y') := by
  split
  · exact hx
  · exact hy

theorem Le.bind {x x' : Res α} {f f' : α → Res β} (hx : Le x x') (hf : ∀ a, Le (f a) (f' a)) :
    Le (x >>= f) (x' >>= f') := by
  intro h
  cases x with
  | ok a => rw [hx (ne_loop_of_ok rfl), ok_bind, ok_bind]; exact hf a h
  | error e => rw [hx (fun he => h (by cases he; rfl)), error_bind, error_bind]

/-- Once the bound suffices, a larger one changes nothing. -/
def Stable (f : Nat → Res α) : Prop := ∀ n, Le (f n) (f (n + 1))

theorem Stable.le {f : Nat → Res α} (h : Stable f) {n k : Nat} (hk : n ≤ k) :
    Le (f n) (f k) := by
  intro hn
  induction hk with
  | refl => rfl
  | step _ ih => rw [h _ (ih ▸ hn), ih]

/-- A value stays, whatever the larger bound. -/
theorem Stable.ok_le {f : Nat → Res α} (h : Stable f) {n k : Nat} {a : α} (hk : n ≤ k)
    (hn : f n = .ok a) : f k = .ok a :=
  (h.le hk (ne_loop_of_ok hn)).trans hn

/-- Two bounds that both suffice give the same answer. -/
theorem Stable.det {f : Nat → Res α} (h : Stable f) {n k : Nat} (hn : f n ≠ .error .loop)
    (hk : f k ≠ .error .loop) : f n = f k := by
  rcases Nat.le_total n k with hle | hle
  · exact (h.le hle hn).symm
  · exact h.le hle hk

theorem Stable.ok_det {f : Nat → Res α} (h : Stable f) {n k : Nat} {a b : α} (hn : f n = .ok a)
    (hk : f k = .ok b) : a = b := by
  have hdet := h.det (ne_loop_of_ok hn) (ne_loop_of_ok hk)
  rw [hn, hk] at hdet
  cases hdet
  rfl

/-- Where one bound gives a value, no bound gives another fault than its end. -/
theorem Stable.eq_loop {f : Nat → Res α} (h : Stable f) {n k : Nat} {a : α} {e : Fault}
    (hn : f n = .ok a) (hk : f k = .error e) : e = .loop := by
  refine Decidable.byContradiction fun he => ?_
  have hne : f k ≠ .error .loop := by
    rw [hk]
    intro h
    cases h
    exact he rfl
  have hdet := h.det (ne_loop_of_ok hn) hne
  rw [hn, hk] at hdet
  cases hdet

end Res
end X64k.Core
