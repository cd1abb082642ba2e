import X64k.Core.Res

/-!
# Mealy machines whose output can fail

A machine reads its input letter by letter; each letter moves the state and puts
out some text, or fails. `run` is the state after a word, `emit` its output.

* `run_part`: a part of the state that moves on its own.
* `emit_append`: the output of two words in a row.
* `Simulated.eq`: a program that goes through its input as the machine does, one
  letter at a time, computes the machine's output.
-/
namespace X64k.Core

structure Mealy (σ α ω : Type) where
  next : σ → α → σ
  out : σ → α → Res (List ω)

namespace Mealy
variable {σ α ω τ : Type} (M : Mealy σ α ω)

def run (s : σ) (w : List α) : σ := w.foldl M.next s

def emit : σ → List α → Res (List ω)
  | _, [] => .ok []
  | s, c :: w => do
    let x ← M.out s c
    let y ← emit (M.next s c) w
    .ok (x ++ y)

variable {M}

@[simp] theorem run_nil (s : σ) : M.run s [] = s := rfl

@[simp] theorem run_cons (s : σ) (c : α) (w : List α) :
    M.run s (c :: w) = M.run (M.next s c) w := rfl

/-- A part of the state that moves on its own. -/
theorem run_part {π : Type} {part : σ → π} {step : π → α → π}
    (h : ∀ s c, part (M.next s c) = step (part s) c) (s : σ) (w : List α) :
    part (M.run s w) = w.foldl step (part s) := by
  induction w generalizing s with
  | nil => rfl
  | cons c w ih => rw [run_cons, ih, h, List.foldl_cons]

@[simp] theorem emit_nil (s : σ) : M.emit s [] = .ok [] := rfl

theorem emit_cons (s : σ) (c : α) (w : List α) :
    M.emit s (c :: w) = (do
      let x ← M.out s c
      let y ← M.emit (M.next s c) w
      .ok (x ++ y)) := rfl

theorem emit_append (s : σ) (w w' : List α) :
    M.emit s (w ++ w') = (do
      let x ← M.emit s w
      let y ← M.emit (M.run s w) w'
      .ok (x ++ y)) := by
  induction w generalizing s with
  | nil =>
    show M.emit s w' = M.emit s w' >>= fun y => .ok ([] ++ y)
    cases M.emit s w' <;> rfl
  | cons c w ih =>
    simp only [List.cons_append, emit_cons, ih, run_cons]
    cases M.out s c with
    | error e => rfl
    | ok x =>
      cases M.emit (M.next s c) w with
      | error e => rfl
      | ok y =>
        simp only [Res.ok_bind]
        cases M.emit (M.run (M.next s c) w) w' with
        | error e => rfl
        | ok z => simp only [Res.ok_bind, List.append_assoc]

/-- No letter fails, so no word does. -/
theorem emit_ok (h : ∀ s c, ∃ x, M.out s c = .ok x) : ∀ (s : σ) (w : List α),
    ∃ x, M.emit s w = .ok x
  | s, [] => ⟨[], rfl⟩
  | s, c :: w => by
    obtain ⟨x, hx⟩ := h s c
    obtain ⟨y, hy⟩ := emit_ok h (M.next s c) w
    exact ⟨x ++ y, by rw [emit_cons, hx, Res.ok_bind, hy, Res.ok_bind]⟩

/-! ## Programs -/

/-- `prog` does what the machine does: where the letter `c` lies in front, it
goes on to a state with that letter's output appended, or fails with it; at the
end of the input it answers what it has put out, or `e` outside `final`. `Reads`
says which input a program state has in front of it. -/
structure Simulated (M : Mealy σ α ω) (prog : τ → Res (List ω)) (Reads : τ → List α → Prop)
    (abs : τ → σ) (acc : τ → List ω) (final : σ → Prop) [DecidablePred final] (e : Fault) :
    Prop where
  step : ∀ t c w, Reads t (c :: w) →
    (∃ e', M.out (abs t) c = .error e' ∧ prog t = .error e') ∨
    ∃ t' x, M.out (abs t) c = .ok x ∧ prog t = prog t' ∧ Reads t' w ∧
      abs t' = M.next (abs t) c ∧ acc t' = acc t ++ x
  stop : ∀ t, Reads t [] → prog t = if final (abs t) then .ok (acc t) else .error e

theorem Simulated.eq {prog : τ → Res (List ω)} {Reads : τ → List α → Prop} {abs : τ → σ}
    {acc : τ → List ω} {final : σ → Prop} [DecidablePred final] {e : Fault}
    (h : Simulated M prog Reads abs acc final e) {t : τ} {w : List α} (hr : Reads t w) :
    prog t = (do
      let x ← M.emit (abs t) w
      if final (M.run (abs t) w) then .ok (acc t ++ x) else .error e) := by
  induction w generalizing t with
  | nil => rw [h.stop t hr, emit_nil, Res.ok_bind, run_nil, List.append_nil]
  | cons c w ih =>
    rcases h.step t c w hr with ⟨e', hout, hprog⟩ | ⟨t', x, hout, hprog, hr', habs, hacc⟩
    · rw [hprog, emit_cons, hout]
      rfl
    · rw [hprog, ih hr', emit_cons, hout, Res.ok_bind, run_cons, habs, hacc]
      cases M.emit (M.next (abs t) c) w with
      | error e' => rfl
      | ok y => simp only [Res.ok_bind, List.append_assoc]

end Mealy
end X64k.Core
