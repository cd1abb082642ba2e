import X64k.L1Heap.Chain
import Mathlib.Data.List.Chain

/-!
# Facts about block lists

Pure facts about `allocBlks` and `mergeForward`, with no memory in sight.

* `usedOf a l`: the payload ranges of the allocated blocks.
* `Linked pv a l`: every `prev` link names the block before (`pv` for the
  first): the exact inverse of the `next` links.
* `Coalesced l`: no two neighbours are both free.
* `Lower a l`: every `prev` link that is not null points below its header;
  true of every reachable heap, stale links included.

`allocBlks_cases` and `mergeForward_cases` say once what the two operations
do to a list; the rest follows by splitting the list where they say.
-/
namespace X64k.L1.Heap

open X64k.Core

/-! ## What the operations do -/

theorem allocBlks_none {n : Nat} : ∀ {l : List Blk} {a : Nat}, allocBlks n a l = none →
    ∀ c ∈ l, c.fits n = false
  | [], _, _ => by simp
  | b :: l, a, h => by
    simp only [allocBlks] at h
    split at h
    · cases h
    · rename_i hb
      rw [Option.map_eq_none_iff] at h
      have ih := allocBlks_none h
      intro c hc
      rcases List.mem_cons.mp hc with rfl | hc
      · simpa using hb
      · exact ih c hc

/-- The first block that fits is cut, the others stay. -/
theorem allocBlks_cases {n : Nat} : ∀ {l l' : List Blk} {a p : Nat},
    allocBlks n a l = some (p, l') → ∃ l₁ b l₂, l = l₁ ++ b :: l₂ ∧
      (∀ c ∈ l₁, c.fits n = false) ∧ b.fits n = true ∧ p = a + span l₁ + 32 ∧
      l' = l₁ ++ (cut n (a + span l₁) b ++ l₂)
  | [], _, _, _, h => by cases h
  | b :: l, l', a, p, h => by
    simp only [allocBlks] at h
    split at h
    · rename_i hb
      cases h
      exact ⟨[], b, l, rfl, by simp, hb, rfl, rfl⟩
    · rename_i hb
      rw [Option.map_eq_some_iff] at h
      obtain ⟨⟨q, k⟩, h1, h2⟩ := h
      cases h2
      obtain ⟨l₁, c, l₂, rfl, hnf, hf, rfl, rfl⟩ := allocBlks_cases h1
      refine ⟨b :: l₁, c, l₂, rfl, ?_, hf, ?_, ?_⟩
      · intro d hd
        rcases List.mem_cons.mp hd with rfl | hd
        · simpa using hb
        · exact hnf d hd
      · simp only [span]; omega
      · simp only [span, List.cons_append]
        rw [show a + (32 + b.len + span l₁) = a + 32 + b.len + span l₁ by omega]

/-- A block of a list split in two ways is the same block, or on one side. -/
theorem split_twice {l₁ l₂ j₁ j₂ : List Blk} {b c : Blk} (h : l₁ ++ b :: l₂ = j₁ ++ c :: j₂) :
    (c = b ∧ j₁ = l₁ ∧ j₂ = l₂) ∨ (∃ r, l₁ = j₁ ++ c :: r) ∨
      ∃ r, j₁ = l₁ ++ b :: r ∧ l₂ = r ++ c :: j₂ := by
  rcases List.append_eq_append_iff.mp h with ⟨r, rfl, hr⟩ | ⟨r, rfl, hr⟩
  · cases r with
    | nil =>
      cases hr
      exact .inl ⟨rfl, List.append_nil _, rfl⟩
    | cons d r =>
      obtain ⟨rfl, rfl⟩ := List.cons.inj hr
      exact .inr (.inr ⟨r, rfl, rfl⟩)
  · cases r with
    | nil =>
      cases hr
      exact .inl ⟨rfl, (List.append_nil _).symm, rfl⟩
    | cons d r =>
      obtain ⟨rfl, -⟩ := List.cons.inj hr
      exact .inr (.inl ⟨r, rfl⟩)

theorem fits_used {n : Nat} {b : Blk} (h : b.fits n = true) : b.used = false := by
  simp only [Blk.fits, Bool.and_eq_true, Bool.not_eq_true'] at h
  exact h.1

/-- A block that fits and is not split has exactly the requested length. -/
theorem fits_len {n : Nat} {b : Blk} (h : b.fits n = true) (hs : ¬ n + 32 < b.len) :
    b.len = n := by
  simp only [Blk.fits, hs, decide_false, Bool.false_or, Bool.and_eq_true, decide_eq_true_eq] at h
  exact h.2

/-- The free blocks `k₁` behind `b` are absorbed, up to the first used one. -/
theorem mergeForward_cases (a : Nat) : ∀ (l : List Blk) (b : Blk) (t : Bool), ∃ k₁ k₂,
    l = k₁ ++ k₂ ∧ (∀ c ∈ k₁, c.used = false) ∧ (∀ c ∈ k₂.head?, c.used = true) ∧
      mergeForward a b t l = b.resize (b.len + span k₁) ::
        (if t = true ∨ k₁ ≠ [] then setHeadPrev (adr a) k₂ else k₂)
  | [], b, t => ⟨[], [], rfl, by simp, by simp, by cases t <;> simp [mergeForward, span, setHeadPrev]⟩
  | c :: l, b, t => by
    cases hu : c.used with
    | true =>
      refine ⟨[], c :: l, rfl, by simp, by simpa using hu, ?_⟩
      cases t <;> simp [mergeForward, hu, span]
    | false =>
      obtain ⟨k₁, k₂, rfl, h1, h2, h3⟩ :=
        mergeForward_cases a l (b.resize (b.len + 32 + c.len)) true
      refine ⟨c :: k₁, k₂, rfl, ?_, h2, ?_⟩
      · intro d hd
        rcases List.mem_cons.mp hd with rfl | hd
        · exact hu
        · exact h1 d hd
      · simp only [mergeForward, hu, h3, span]
        simp [Blk.resize, Nat.add_assoc]

/-! ## Bytes covered -/

@[simp] theorem span_cut (n a : Nat) (b : Blk) : span (cut n a b) = 32 + b.len := by
  unfold cut
  split
  · simp only [span, Blk.resize_len]; omega
  · simp [span]

theorem span_mergeForward (a : Nat) (b : Blk) (l : List Blk) :
    span (mergeForward a b false l) = span (b :: l) := by
  obtain ⟨k₁, k₂, rfl, -, -, h⟩ := mergeForward_cases a l b false
  rw [h]
  split <;> simp only [span, span_append, span_setHeadPrev, Blk.resize_len] <;> omega

/-! ## Header addresses -/

def hdrs (a : Nat) : List Blk → List Nat
  | [] => []
  | b :: l => a :: hdrs (a + 32 + b.len) l

theorem hdrs_append : ∀ (l₁ l₂ : List Blk) (a : Nat),
    hdrs a (l₁ ++ l₂) = hdrs a l₁ ++ hdrs (a + span l₁) l₂
  | [], _, _ => rfl
  | b :: l₁, l₂, a => by
    simp only [List.cons_append, hdrs, hdrs_append l₁ l₂, span]
    rw [show a + 32 + b.len + span l₁ = a + (32 + b.len + span l₁) by omega]

theorem mem_hdrs {h : Nat} : ∀ {l : List Blk} {a : Nat}, h ∈ hdrs a l ↔
    ∃ l₁ b l₂, l = l₁ ++ b :: l₂ ∧ h = a + span l₁ := by
  intro l a
  constructor
  · induction l generalizing a with
    | nil => intro hm; cases hm
    | cons b l ih =>
      intro hm
      rcases List.mem_cons.mp hm with rfl | hm
      · exact ⟨[], b, l, rfl, rfl⟩
      · obtain ⟨l₁, c, l₂, rfl, rfl⟩ := ih hm
        exact ⟨b :: l₁, c, l₂, rfl, by simp only [span]; omega⟩
  · rintro ⟨l₁, b, l₂, rfl, rfl⟩
    rw [hdrs_append]
    simp [hdrs]

theorem hdrs_bounds {h a : Nat} {l : List Blk} (hm : h ∈ hdrs a l) :
    a ≤ h ∧ h + 32 ≤ a + span l := by
  obtain ⟨l₁, b, l₂, rfl, rfl⟩ := mem_hdrs.mp hm
  simp only [span_append, span]
  omega

/-! ## Allocated payloads -/

/-- Payload address and length of every allocated block. -/
def usedOf (a : Nat) : List Blk → List (Nat × Nat)
  | [] => []
  | b :: l =>
    if b.used then (a + 32, b.len) :: usedOf (a + 32 + b.len) l else usedOf (a + 32 + b.len) l

theorem usedOf_append : ∀ (l₁ l₂ : List Blk) (a : Nat),
    usedOf a (l₁ ++ l₂) = usedOf a l₁ ++ usedOf (a + span l₁) l₂
  | [], _, _ => rfl
  | b :: l₁, l₂, a => by
    simp only [List.cons_append, usedOf, usedOf_append l₁ l₂, span]
    rw [show a + 32 + b.len + span l₁ = a + (32 + b.len + span l₁) by omega]
    split <;> rfl

theorem mem_usedOf {q k : Nat} : ∀ {l : List Blk} {a : Nat}, (q, k) ∈ usedOf a l ↔
    ∃ l₁ b l₂, l = l₁ ++ b :: l₂ ∧ b.used = true ∧ q = a + span l₁ + 32 ∧ k = b.len := by
  intro l a
  constructor
  · induction l generalizing a with
    | nil => intro h; cases h
    | cons b l ih =>
      intro h
      simp only [usedOf] at h
      have htail : (q, k) ∈ usedOf (a + 32 + b.len) l → ∃ l₁ c l₂, b :: l = l₁ ++ c :: l₂ ∧
          c.used = true ∧ q = a + span l₁ + 32 ∧ k = c.len := by
        intro h
        obtain ⟨l₁, c, l₂, rfl, hu, hq, hk⟩ := ih h
        exact ⟨b :: l₁, c, l₂, rfl, hu, by simp only [span]; omega, hk⟩
      split at h
      · rename_i hu
        rcases List.mem_cons.mp h with h | h
        · cases h; exact ⟨[], b, l, rfl, hu, rfl, rfl⟩
        · exact htail h
      · exact htail h
  · rintro ⟨l₁, b, l₂, rfl, hu, rfl, rfl⟩
    rw [usedOf_append]
    simp [usedOf, hu]

theorem usedOf_bounds {q k a : Nat} {l : List Blk} (h : (q, k) ∈ usedOf a l) :
    a + 32 ≤ q ∧ q + k ≤ a + span l := by
  obtain ⟨l₁, b, l₂, rfl, -, rfl, rfl⟩ := mem_usedOf.mp h
  simp only [span_append, span]
  omega

/-- Two allocated payloads are the same block or do not meet. -/
theorem usedOf_disjoint {q k q' k' : Nat} : ∀ {l : List Blk} {a : Nat}, (q, k) ∈ usedOf a l →
    (q', k') ∈ usedOf a l → (q, k) = (q', k') ∨ q + k + 32 ≤ q' ∨ q' + k' + 32 ≤ q
  | [], _, h, _ => by cases h
  | b :: l, a, h, h' => by
    simp only [usedOf] at h h'
    split at h
    · rename_i hu
      rw [if_pos hu] at h'
      rcases List.mem_cons.mp h with h | h <;> rcases List.mem_cons.mp h' with h' | h'
      · exact .inl (h.trans h'.symm)
      · cases h; have := usedOf_bounds h'; exact .inr (.inl (by omega))
      · cases h'; have := usedOf_bounds h; exact .inr (.inr (by omega))
      · exact usedOf_disjoint h h'
    · rename_i hu
      rw [if_neg hu] at h'
      exact usedOf_disjoint h h'

theorem usedOf_free {a : Nat} : ∀ {l : List Blk}, (∀ c ∈ l, c.used = false) → usedOf a l = []
  | [], _ => rfl
  | b :: l, h => by
    simp only [usedOf, h b (List.mem_cons_self ..), Bool.false_eq_true, if_false]
    exact usedOf_free fun c hc => h c (List.mem_cons_of_mem _ hc)

theorem usedOf_setHeadPrev (p : Word) (a : Nat) (l : List Blk) :
    usedOf a (setHeadPrev p l) = usedOf a l := by
  cases l <;> rfl

theorem usedOf_mergeForward (a : Nat) {b : Blk} (hb : b.used = false) (l : List Blk) :
    usedOf a (mergeForward a b false l) = usedOf a (b :: l) := by
  obtain ⟨k₁, k₂, rfl, hk, -, h⟩ := mergeForward_cases a l b false
  rw [h]
  simp only [usedOf, hb, Blk.resize_used, Blk.resize_len, Bool.false_eq_true, if_false,
    usedOf_append, usedOf_free hk, List.nil_append]
  rw [show a + 32 + (b.len + span k₁) = a + 32 + b.len + span k₁ by omega]
  split
  · exact usedOf_setHeadPrev ..
  · rfl

/-- `alloc` adds one payload and changes none. -/
theorem usedOf_allocBlks {n a p : Nat} {l l' : List Blk} (h : allocBlks n a l = some (p, l')) :
    ∀ x, x ∈ usedOf a l' ↔ x = (p, n) ∨ x ∈ usedOf a l := by
  obtain ⟨l₁, b, l₂, rfl, -, hf, rfl, rfl⟩ := allocBlks_cases h
  intro x
  have hu := fits_used hf
  have hcut : usedOf (a + span l₁) (cut n (a + span l₁) b) = [(a + span l₁ + 32, n)] := by
    unfold cut
    split
    · simp [usedOf]
    · rename_i hs
      simp [usedOf, fits_len hf hs]
  simp only [usedOf_append, hcut, span_cut, List.mem_append, List.mem_singleton, usedOf, hu,
    Bool.false_eq_true, if_false]
  rw [show a + span l₁ + (32 + b.len) = a + span l₁ + 32 + b.len by omega]
  constructor
  · rintro (h | h | h)
    · exact .inr (.inl h)
    · exact .inl h
    · exact .inr (.inr h)
  · rintro (h | h | h)
    · exact .inr (.inl h)
    · exact .inl h
    · exact .inr (.inr h)

/-- The payload `alloc` returns was in no allocated block. -/
theorem allocBlks_fresh {n a p : Nat} {l l' : List Blk} (h : allocBlks n a l = some (p, l'))
    (k : Nat) : (p, k) ∉ usedOf a l := by
  obtain ⟨l₁, b, l₂, rfl, -, hf, rfl, rfl⟩ := allocBlks_cases h
  have hu := fits_used hf
  rw [usedOf_append, List.mem_append]
  rintro (hm | hm)
  · have := usedOf_bounds hm; omega
  · simp only [usedOf, hu, Bool.false_eq_true, if_false] at hm
    have := usedOf_bounds hm; omega

/-- Clearing a block's flag removes its payload and no other. -/
theorem usedOf_clear {a : Nat} {b : Blk} {l₁ l₂ : List Blk} (hb : b.used = true) :
    ∀ x, x ∈ usedOf a (l₁ ++ b.clear :: l₂) ↔
      x.1 ≠ a + span l₁ + 32 ∧ x ∈ usedOf a (l₁ ++ b :: l₂) := by
  rintro ⟨q, k⟩
  simp only [usedOf_append, List.mem_append, usedOf, Blk.clear_used, Blk.clear_len, hb,
    Bool.false_eq_true, if_false, if_true, List.mem_cons, Prod.mk.injEq]
  constructor
  · rintro (h | h)
    · have := usedOf_bounds h; exact ⟨by omega, .inl h⟩
    · have := usedOf_bounds h; exact ⟨by omega, .inr (.inr h)⟩
  · rintro ⟨hne, h | ⟨h, -⟩ | h⟩
    · exact .inl h
    · exact absurd h hne
    · exact .inr h

/-! ## Links that point down -/

/-- Every `prev` link is null or points below its own header. -/
def Lower : Nat → List Blk → Prop
  | _, [] => True
  | a, b :: l => (b.prev = 0 ∨ b.prev.toNat < a) ∧ Lower (a + 32 + b.len) l

theorem lower_append : ∀ (l₁ l₂ : List Blk) (a : Nat),
    Lower a (l₁ ++ l₂) ↔ Lower a l₁ ∧ Lower (a + span l₁) l₂
  | [], _, a => by simp [Lower, span]
  | b :: l₁, l₂, a => by
    simp only [List.cons_append, Lower, lower_append l₁ l₂, and_assoc, span]
    rw [show a + 32 + b.len + span l₁ = a + (32 + b.len + span l₁) by omega]

theorem Lower.setHeadPrev {a x : Nat} {l : List Blk} (h : Lower x l) (ha : a < x) :
    Lower x (setHeadPrev (adr a) l) := by
  cases l with
  | nil => trivial
  | cons c l => exact ⟨.inr (Nat.lt_of_le_of_lt (adr_toNat_le a) ha), h.2⟩

theorem Lower.allocBlks {n a p : Nat} {l l' : List Blk} (hl : Lower a l)
    (h : allocBlks n a l = some (p, l')) : Lower a l' := by
  obtain ⟨l₁, b, l₂, rfl, -, -, rfl, rfl⟩ := allocBlks_cases h
  rw [lower_append] at hl
  obtain ⟨h1, hb, h2⟩ := hl
  rw [lower_append, lower_append, span_cut]
  rw [show a + span l₁ + 32 + b.len = a + span l₁ + (32 + b.len) by omega] at h2
  refine ⟨h1, ?_, h2⟩
  unfold cut
  split
  · have := adr_toNat_le (a + span l₁)
    refine ⟨hb, .inr ?_, trivial⟩
    show (adr (a + span l₁)).toNat < a + span l₁ + 32 + n
    omega
  · exact ⟨hb, trivial⟩

theorem Lower.mergeForward {a : Nat} {b : Blk} {l : List Blk} (h : Lower a (b :: l)) :
    Lower a (mergeForward a b false l) := by
  obtain ⟨k₁, k₂, rfl, -, -, hm⟩ := mergeForward_cases a l b false
  obtain ⟨hb, hl⟩ := h
  rw [lower_append] at hl
  have hk : Lower (a + 32 + (b.len + span k₁)) k₂ := by
    rw [show a + 32 + (b.len + span k₁) = a + 32 + b.len + span k₁ by omega]; exact hl.2
  rw [hm]
  refine ⟨hb, ?_⟩
  rw [Blk.resize_len]
  split
  · exact hk.setHeadPrev (by omega)
  · exact hk

theorem Lower.clear {a : Nat} {b : Blk} {l₁ l₂ : List Blk} (h : Lower a (l₁ ++ b :: l₂)) :
    Lower a (l₁ ++ b.clear :: l₂) := by
  rw [lower_append] at h ⊢; exact h

/-! ## Links that name the neighbour -/

/-- Every `prev` link is the header before; the first one is `pv`. -/
def Linked : Word → Nat → List Blk → Prop
  | _, _, [] => True
  | pv, a, b :: l => b.prev = pv ∧ Linked (adr a) (a + 32 + b.len) l

/-- The header of the last block, `pv` if there is none. -/
def lastAdr : Word → Nat → List Blk → Word
  | pv, _, [] => pv
  | _, a, b :: l => lastAdr (adr a) (a + 32 + b.len) l

theorem linked_append : ∀ (l₁ l₂ : List Blk) (pv : Word) (a : Nat),
    Linked pv a (l₁ ++ l₂) ↔ Linked pv a l₁ ∧ Linked (lastAdr pv a l₁) (a + span l₁) l₂
  | [], _, pv, a => by simp [Linked, span, lastAdr]
  | b :: l₁, l₂, pv, a => by
    simp only [List.cons_append, Linked, linked_append l₁ l₂, and_assoc, span, lastAdr]
    rw [show a + 32 + b.len + span l₁ = a + (32 + b.len + span l₁) by omega]

theorem lastAdr_append (b : Blk) : ∀ (l : List Blk) (pv : Word) (a : Nat),
    lastAdr pv a (l ++ [b]) = adr (a + span l)
  | [], _, _ => rfl
  | c :: l, pv, a => by
    simp only [List.cons_append, lastAdr, lastAdr_append b l, span]
    rw [show a + 32 + c.len + span l = a + (32 + c.len + span l) by omega]

theorem linked_iff {pv : Word} {a : Nat} {l : List Blk} : Linked pv a l ↔
    (∀ b ∈ l.head?, b.prev = pv) ∧
      ∀ l₁ b c l₂, l = l₁ ++ b :: c :: l₂ → c.prev = adr (a + span l₁) := by
  constructor
  · intro h
    constructor
    · intro b hb
      cases l with
      | nil => cases hb
      | cons d l => cases hb; exact h.1
    · rintro l₁ b c l₂ rfl
      exact ((linked_append _ _ _ _).mp h).2.2.1
  · induction l generalizing a pv with
    | nil => intro _; trivial
    | cons b l ih =>
      rintro ⟨h1, h2⟩
      refine ⟨h1 b rfl, ih ⟨?_, ?_⟩⟩
      · intro c hc
        cases l with
        | nil => cases hc
        | cons d l => cases hc; exact h2 [] b c l rfl
      · rintro l₁ c d l₂ rfl
        rw [h2 (b :: l₁) c d l₂ rfl, span]
        exact congrArg adr (by omega)

/-- A first fit that does not split, or splits the last block, keeps the
links. -/
theorem Linked.cut {n a : Nat} {b : Blk} {l₁ l₂ : List Blk} {pv : Word}
    (h : Linked pv a (l₁ ++ b :: l₂)) (hs : n + 32 < b.len → l₂ = []) :
    Linked pv a (l₁ ++ (cut n (a + span l₁) b ++ l₂)) := by
  rw [linked_append] at h ⊢
  obtain ⟨h1, hb, h2⟩ := h
  refine ⟨h1, ?_⟩
  unfold Heap.cut
  split
  · rename_i hn
    rw [hs hn]
    exact ⟨hb, rfl, trivial⟩
  · exact ⟨hb, h2⟩

/-- Splitting a block that has one behind it leaves that block's `prev` link
stale. -/
theorem not_linked_cut {n a e : Nat} {b : Blk} {l₁ l₂ : List Blk} {pv : Word}
    (h : Linked pv a (l₁ ++ b :: l₂)) (hs : n + 32 < b.len) (hne : l₂ ≠ [])
    (hx : a + span (l₁ ++ b :: l₂) = e) (he : e < 2 ^ 64) :
    ¬ Linked pv a (l₁ ++ (cut n (a + span l₁) b ++ l₂)) := by
  cases l₂ with
  | nil => exact absurd rfl hne
  | cons d l₂ =>
    intro h'
    simp only [span_append, span] at hx
    rw [linked_append] at h h'
    obtain ⟨-, -, hd, -⟩ := h
    simp only [Heap.cut, if_pos hs] at h'
    obtain ⟨-, -, -, hd', -⟩ := h'
    rw [hd, Blk.resize_len, adr_inj (by omega) (by omega)] at hd'
    omega

theorem Linked.mergeForward {a : Nat} {b : Blk} {l : List Blk} {pv : Word}
    (h : Linked pv a (b :: l)) : Linked pv a (mergeForward a b false l) := by
  obtain ⟨k₁, k₂, rfl, -, -, hm⟩ := mergeForward_cases a l b false
  obtain ⟨hb, hl⟩ := h
  rw [hm]
  refine ⟨hb, ?_⟩
  rw [linked_append] at hl
  rw [Blk.resize_len, show a + 32 + (b.len + span k₁) = a + 32 + b.len + span k₁ by omega]
  cases k₁ with
  | nil => exact hl.2
  | cons c k₁ =>
    cases k₂ with
    | nil => trivial
    | cons d k₂ => exact ⟨rfl, hl.2.2⟩

theorem Linked.clear {a : Nat} {b : Blk} {l₁ l₂ : List Blk} {pv : Word}
    (h : Linked pv a (l₁ ++ b :: l₂)) : Linked pv a (l₁ ++ b.clear :: l₂) := by
  rw [linked_append] at h ⊢; exact h

/-! ## No two free neighbours -/

/-- Of two neighbours one is allocated. -/
def Coalesced (l : List Blk) : Prop := l.IsChain fun b c => b.used = true ∨ c.used = true

theorem coalesced_append {l₁ l₂ : List Blk} : Coalesced (l₁ ++ l₂) ↔ Coalesced l₁ ∧ Coalesced l₂ ∧
    ∀ b ∈ l₁.getLast?, ∀ c ∈ l₂.head?, b.used = true ∨ c.used = true :=
  List.isChain_append

theorem coalesced_cons {b : Blk} {l : List Blk} : Coalesced (b :: l) ↔ Coalesced l ∧
    ∀ c ∈ l.head?, b.used = true ∨ c.used = true := by
  rw [← List.singleton_append, coalesced_append]
  simp [Coalesced]

theorem Coalesced.cut {n a : Nat} {b : Blk} {l₁ l₂ : List Blk} (h : Coalesced (l₁ ++ b :: l₂))
    (hf : b.fits n = true) : Coalesced (l₁ ++ (cut n a b ++ l₂)) := by
  rw [coalesced_append, coalesced_cons] at h
  obtain ⟨h1, ⟨h2, h3⟩, -⟩ := h
  have hu := fits_used hf
  have hhead : ∀ c ∈ l₂.head?, c.used = true := fun c hc => by simpa [hu] using h3 c hc
  rw [coalesced_append]
  refine ⟨h1, ?_, ?_⟩
  · unfold Heap.cut
    split
    · simp only [List.cons_append, List.nil_append, coalesced_cons, Blk.resize_used, Blk.mark_used]
      exact ⟨⟨h2, fun c hc => .inr (hhead c hc)⟩, fun _ _ => .inl trivial⟩
    · simp only [List.singleton_append, coalesced_cons, Blk.mark_used]
      exact ⟨h2, fun _ _ => .inl trivial⟩
  · intro c hc d hd
    right
    unfold Heap.cut at hd
    split at hd <;> simp at hd <;> subst hd <;> simp

/-- Absorption leaves no free block behind the block that absorbs. -/
theorem coalesced_mergeForward (a : Nat) {b : Blk} (hb : b.used = false) (t : Bool) {l : List Blk}
    (h : Coalesced l) : Coalesced (mergeForward a b t l) ∧
      ∀ c ∈ (mergeForward a b t l).head?, c.used = false := by
  obtain ⟨k₁, k₂, rfl, -, hk, hm⟩ := mergeForward_cases a l b t
  rw [coalesced_append] at h
  have hset : Coalesced (setHeadPrev (adr a) k₂) ∧
      ∀ c ∈ (setHeadPrev (adr a) k₂).head?, c.used = true := by
    cases k₂ with
    | nil => exact ⟨List.isChain_nil, by simp [setHeadPrev]⟩
    | cons d k₂ =>
      simp only [setHeadPrev, coalesced_cons, Blk.relink_used]
      have := coalesced_cons.mp h.2.1
      exact ⟨this, by simpa using hk⟩
  rw [hm]
  refine ⟨?_, by simpa using hb⟩
  rw [coalesced_cons]
  split
  · exact ⟨hset.1, fun c hc => .inr (hset.2 c hc)⟩
  · exact ⟨h.2.1, fun c hc => .inr (hk c hc)⟩

end X64k.L1.Heap
