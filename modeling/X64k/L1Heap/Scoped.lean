import X64k.L1Heap.Merge

/-!
# Scoped use of the heap

Blocks are freed in the opposite order of their allocation. On the way the
`prev` links go stale wherever a hole is carved up, and the splits are undone
one by one; when everything has been freed, the chain is the one of before.

The invariant keeps, of the links, only what the walks back need: a free block
names its neighbour (`Sturdy`). An allocated one may have any `prev` link,
which no `free` of the scope changes but to set it right (`Relinks`).

* `Restores`: what is on the stack can be undone.
* `Restores.free`: freeing the last block undoes its allocation.
* `scoped_restores`: no panic, and the chain of before.
-/
namespace X64k.L1.Heap

open X64k.Core

/-! ## Links set right -/

/-- `l'` are the blocks `l`; a `prev` link may have been set to the header
before. -/
def Relinks : Word → Nat → List Blk → List Blk → Prop
  | _, _, [], [] => True
  | pv, a, b :: l, b' :: l' => b'.flags = b.flags ∧ b'.len = b.len ∧
      (b'.prev = b.prev ∨ b'.prev = pv) ∧ Relinks (adr a) (a + 32 + b.len) l l'
  | _, _, _, _ => False

/-- Every free block's `prev` link is the header before; `pv` for the first. -/
def FreeLinked : Word → Nat → List Blk → Prop
  | _, _, [] => True
  | pv, a, b :: l => (b.used = false → b.prev = pv) ∧ FreeLinked (adr a) (a + 32 + b.len) l

/-- No two neighbours are free, and free blocks name the block before. -/
structure Sturdy (a : Nat) (l : List Blk) : Prop where
  coalesced : Coalesced l
  linked : FreeLinked 0 a l

section Relinks
variable {a : Nat} {pv : Word}

theorem Relinks.refl : ∀ (l : List Blk) (pv : Word) (a : Nat), Relinks pv a l l
  | [], _, _ => trivial
  | _ :: l, _, _ => ⟨rfl, rfl, .inl rfl, Relinks.refl l _ _⟩

theorem Relinks.trans : ∀ {l l' l'' : List Blk} {pv : Word} {a : Nat}, Relinks pv a l l' →
    Relinks pv a l' l'' → Relinks pv a l l''
  | [], [], [], _, _, _, _ => trivial
  | b :: l, b' :: l', b'' :: l'', pv, a, ⟨h1, h2, h3, h4⟩, ⟨g1, g2, g3, g4⟩ => by
    rw [h2] at g4
    refine ⟨g1.trans h1, g2.trans h2, ?_, h4.trans g4⟩
    rcases g3 with g3 | g3
    · rwa [g3]
    · exact .inr g3

theorem relinks_append : ∀ {l₁ l₂ l' : List Blk} {pv : Word} {a : Nat},
    Relinks pv a (l₁ ++ l₂) l' ↔ ∃ l₁' l₂', l' = l₁' ++ l₂' ∧ Relinks pv a l₁ l₁' ∧
      Relinks (lastAdr pv a l₁) (a + span l₁) l₂ l₂'
  | [], l₂, l', pv, a => by
    constructor
    · intro h
      exact ⟨[], l', rfl, trivial, h⟩
    · rintro ⟨l₁', l₂', rfl, h1, h2⟩
      cases l₁' with
      | nil => exact h2
      | cons b l₁' => exact h1.elim
  | b :: l₁, l₂, l', pv, a => by
    have hx : a + 32 + b.len + span l₁ = a + span (b :: l₁) := by simp only [span]; omega
    constructor
    · intro h
      cases l' with
      | nil => exact h.elim
      | cons b' l' =>
        obtain ⟨h1, h2, h3, h4⟩ := h
        obtain ⟨l₁', l₂', rfl, h5, h6⟩ := relinks_append.mp h4
        rw [hx] at h6
        exact ⟨b' :: l₁', l₂', rfl, ⟨h1, h2, h3, h5⟩, h6⟩
    · rintro ⟨l₁', l₂', rfl, h5, h6⟩
      cases l₁' with
      | nil => exact h5.elim
      | cons b' l₁' =>
        obtain ⟨h1, h2, h3, h4⟩ := h5
        rw [← hx] at h6
        exact ⟨h1, h2, h3, relinks_append.mpr ⟨l₁', l₂', rfl, h4, h6⟩⟩

theorem Relinks.span_eq : ∀ {l l' : List Blk} {pv : Word} {a : Nat}, Relinks pv a l l' →
    span l' = span l
  | [], [], _, _, _ => rfl
  | _ :: _, _ :: _, _, _, ⟨_, h2, _, h4⟩ => by rw [span, span, h2, h4.span_eq]

theorem Relinks.lastAdr_eq : ∀ {l l' : List Blk} {pv : Word} {a : Nat}, Relinks pv a l l' →
    ∀ q, lastAdr q a l' = lastAdr q a l
  | [], [], _, _, _, _ => rfl
  | _ :: _, _ :: _, _, _, ⟨_, h2, _, h4⟩, _ => by rw [lastAdr, lastAdr, h2, h4.lastAdr_eq]

theorem Relinks.usedOf_eq : ∀ {l l' : List Blk} {pv : Word} {a : Nat}, Relinks pv a l l' →
    usedOf a l' = usedOf a l
  | [], [], _, _, _ => rfl
  | b :: _, b' :: _, _, _, ⟨h1, h2, _, h4⟩ => by
    have hu : b'.used = b.used := by rw [Blk.used, Blk.used, h1]
    rw [usedOf, usedOf, hu, h2, h4.usedOf_eq]

theorem Relinks.used_eq : ∀ {l l' : List Blk} {pv : Word} {a : Nat}, Relinks pv a l l' →
    l'.map Blk.used = l.map Blk.used
  | [], [], _, _, _ => rfl
  | b :: _, b' :: _, _, _, ⟨h1, _, _, h4⟩ => by
    have hu : b'.used = b.used := by rw [Blk.used, Blk.used, h1]
    rw [List.map_cons, List.map_cons, hu, h4.used_eq]

/-- Nothing is left to be set right in a list whose links are exact. -/
theorem Relinks.eq_of_linked : ∀ {l l' : List Blk} {pv : Word} {a : Nat}, Relinks pv a l l' →
    Linked pv a l → l' = l
  | [], [], _, _, _, _ => rfl
  | b :: l, b' :: l', pv, a, ⟨h1, h2, h3, h4⟩, ⟨g1, g2⟩ => by
    have hp : b'.prev = b.prev := by
      rcases h3 with h3 | h3
      · exact h3
      · rw [h3, g1]
    have hb : b' = b := by
      cases b
      cases b'
      cases h1
      cases h2
      cases hp
      rfl
    rw [hb, h4.eq_of_linked g2]

/-- The block behind `b` is set to name it. -/
theorem Relinks.setHeadPrev {l l' : List Blk} {x : Nat} {q : Word} (h : Relinks q x l l') :
    Relinks (adr a) x l (setHeadPrev (adr a) l') := by
  cases l with
  | nil =>
    cases l' with
    | nil => trivial
    | cons _ _ => exact h.elim
  | cons c l =>
    cases l' with
    | nil => exact h.elim
    | cons c' l' =>
      obtain ⟨h1, h2, -, h4⟩ := h
      exact ⟨h1, h2, .inr rfl, h4⟩

/-! ## Sturdy chains -/

theorem freeLinked_append : ∀ (l₁ l₂ : List Blk) (pv : Word) (a : Nat),
    FreeLinked pv a (l₁ ++ l₂) ↔
      FreeLinked pv a l₁ ∧ FreeLinked (lastAdr pv a l₁) (a + span l₁) l₂
  | [], l₂, pv, a => by simp [FreeLinked, span, lastAdr]
  | b :: l₁, l₂, pv, a => by
    simp only [List.cons_append, FreeLinked, freeLinked_append l₁ l₂, and_assoc, span, lastAdr]
    rw [show a + 32 + b.len + span l₁ = a + (32 + b.len + span l₁) by omega]

theorem Linked.freeLinked : ∀ {l : List Blk} {pv : Word} {a : Nat}, Linked pv a l →
    FreeLinked pv a l
  | [], _, _, _ => trivial
  | _ :: _, _, _, ⟨h1, h2⟩ => ⟨fun _ => h1, h2.freeLinked⟩

/-- An allocated first block may have any `prev` link. -/
theorem FreeLinked.any {l : List Blk} (h : FreeLinked pv a l) (hu : ∀ c ∈ l.head?, c.used = true)
    (q : Word) : FreeLinked q a l := by
  cases l with
  | nil => trivial
  | cons c l => exact ⟨fun hf => absurd ((hu c rfl).symm.trans hf) (by decide), h.2⟩

theorem Relinks.freeLinked : ∀ {l l' : List Blk} {pv : Word} {a : Nat}, Relinks pv a l l' →
    FreeLinked pv a l → FreeLinked pv a l'
  | [], [], _, _, _, _ => trivial
  | b :: l, b' :: l', pv, a, ⟨h1, h2, h3, h4⟩, ⟨g1, g2⟩ => by
    refine ⟨fun hu => ?_, ?_⟩
    · have hu' : b.used = false := by rw [← hu, Blk.used, Blk.used, h1]
      rcases h3 with h3 | h3
      · rw [h3, g1 hu']
      · exact h3
    · rw [h2]
      exact h4.freeLinked g2

theorem Relinks.sturdy {l l' : List Blk} (h : Relinks 0 a l l') (hs : Sturdy a l) :
    Sturdy a l' := by
  refine ⟨?_, h.freeLinked hs.linked⟩
  have hc := hs.coalesced
  have hmap : ∀ l : List Blk, Coalesced l ↔
      (l.map Blk.used).IsChain fun x y => x = true ∨ y = true := fun l =>
    (List.isChain_map (R := fun x y => x = true ∨ y = true) Blk.used).symm
  rw [hmap, h.used_eq, ← hmap]
  exact hc

/-- Behind a free block, one is allocated. -/
theorem Sturdy.behind {l₁ l₂ : List Blk} {b : Blk} (h : Sturdy a (l₁ ++ b :: l₂))
    (hu : b.used = false) : ∀ c ∈ l₂.head?, c.used = true := fun c hc => by
  have h1 := (coalesced_cons.mp (coalesced_append.mp h.coalesced).2.1).2 c hc
  rwa [hu, or_iff_right (by decide)] at h1

theorem Sturdy.before {l₁ l₂ : List Blk} {b : Blk} (h : Sturdy a (l₁ ++ b :: l₂))
    (hu : b.used = false) : ∀ c ∈ l₁.getLast?, c.used = true := fun c hc => by
  have h1 := (coalesced_append.mp h.coalesced).2.2 c hc b rfl
  rwa [hu, or_iff_left (by decide)] at h1

/-- Cutting a block keeps the chain sturdy. -/
theorem Sturdy.cut {n : Nat} {l₁ l₂ : List Blk} {b : Blk} (h : Sturdy a (l₁ ++ b :: l₂))
    (hf : b.fits n = true) : Sturdy a (l₁ ++ (cut n (a + span l₁) b ++ l₂)) := by
  have hbehind := h.behind (fits_used hf)
  refine ⟨h.coalesced.cut hf, ?_⟩
  have hl := h.linked
  rw [freeLinked_append] at hl ⊢
  obtain ⟨h1, -, h2⟩ := hl
  refine ⟨h1, ?_⟩
  unfold Heap.cut
  split
  · refine ⟨fun hu => ?_, fun _ => rfl, ?_⟩
    · rw [Blk.resize_used, Blk.mark_used] at hu
      cases hu
    · show FreeLinked _ (a + span l₁ + 32 + n + 32 + (b.len - n - 32)) l₂
      rw [show a + span l₁ + 32 + n + 32 + (b.len - n - 32) = a + span l₁ + 32 + b.len by omega]
      exact h2.any hbehind _
  · refine ⟨fun hu => ?_, h2⟩
    rw [Blk.mark_used] at hu
    cases hu

end Relinks

/-! ## Undoing -/

/-- From the blocks `l`, freeing what is on the stack, the last one first,
leads back to `l₀`. -/
inductive Restores (a : Nat) (l₀ : List Blk) : List (Nat × Nat) → List Blk → Prop where
  | nil {l : List Blk} : Relinks 0 a l₀ l → Restores a l₀ [] l
  | cons {st : List (Nat × Nat)} {l l' l'' : List Blk} {p n : Nat} : Restores a l₀ st l →
      allocBlks n a l = some (p, l') → Relinks 0 a l' l'' → Restores a l₀ ((p, n) :: st) l''

section Restores
variable {m : Mem} {e a : Nat} {l₀ l l' : List Blk} {st : List (Nat × Nat)}

theorem Restores.relinks (h : Restores a l₀ st l) (hr : Relinks 0 a l l') :
    Restores a l₀ st l' := by
  cases h with
  | nil h => exact .nil (h.trans hr)
  | cons h h1 h2 => exact .cons h h1 (h2.trans hr)

theorem Restores.sturdy (h : Restores a l₀ st l) (h₀ : Sturdy a l₀) : Sturdy a l := by
  induction h with
  | nil h => exact h.sturdy h₀
  | cons _ h1 h2 ih =>
    obtain ⟨l₁, b, l₂, rfl, -, hf, -, rfl⟩ := allocBlks_cases h1
    exact h2.sturdy (ih.cut hf)

/-- What is on the stack is allocated. -/
theorem Restores.used (h : Restores a l₀ st l) : ∀ x ∈ st, x ∈ usedOf a l := by
  induction h with
  | nil _ => exact nofun
  | cons _ h1 h2 ih =>
    intro x hx
    rw [h2.usedOf_eq, usedOf_allocBlks h1]
    rcases List.mem_cons.mp hx with rfl | hx
    · exact .inl rfl
    · exact .inr (ih x hx)

/-- Marking a free block and clearing it again. -/
theorem clear_mark_flags {f : Word} (h : f &&& HF_ALLOC = 0) :
    (f ||| HF_ALLOC) &&& ~~~HF_ALLOC = f := by
  calc (f ||| HF_ALLOC) &&& ~~~HF_ALLOC
      = (f &&& ~~~HF_ALLOC) ||| (HF_ALLOC &&& ~~~HF_ALLOC) := BitVec.and_or_distrib_right
    _ = (f &&& ~~~HF_ALLOC) ||| (f &&& HF_ALLOC) := by rw [h, BitVec.and_not_self]
    _ = f &&& (~~~HF_ALLOC ||| HF_ALLOC) := BitVec.and_or_distrib_left.symm
    _ = f := by
      rw [show ~~~HF_ALLOC ||| HF_ALLOC = BitVec.allOnes 64 by decide]
      exact BitVec.and_allOnes

theorem Blk.flags_free {b : Blk} (h : b.used = false) : b.flags &&& HF_ALLOC = 0 := by
  simpa [Blk.used] using h

theorem Relinks.head_used {l l' : List Blk} {pv : Word} {x : Nat} (h : Relinks pv x l l')
    (hu : ∀ c ∈ l.head?, c.used = true) : ∀ c ∈ l'.head?, c.used = true := by
  intro c hc
  cases l with
  | nil =>
    cases l' with
    | nil => cases hc
    | cons _ _ => exact h.elim
  | cons b l =>
    cases l' with
    | nil => cases hc
    | cons b' l' =>
      cases hc
      have h1 := h.1
      rw [Blk.used, h1]
      exact hu b rfl

theorem Relinks.last_used {l l' : List Blk} {pv : Word} {x : Nat} (h : Relinks pv x l l')
    (hu : ∀ c ∈ l.getLast?, c.used = true) : ∀ c ∈ l'.getLast?, c.used = true := by
  intro c hc
  have h1 : (l'.map Blk.used).getLast? = some c.used := by
    rw [List.getLast?_map, Option.mem_def.mp hc]
    rfl
  rw [h.used_eq, List.getLast?_map, Option.map_eq_some_iff] at h1
  obtain ⟨d, hd, he⟩ := h1
  rw [← he]
  exact hu d hd

/-- The block that was cut, and what the cut has left behind it. -/
theorem Relinks.of_cut {n x : Nat} {pv : Word} {b : Blk} {l₂ k : List Blk}
    (h : Relinks pv x (cut n x b ++ l₂) k) :
    ∃ c r l₂', k = c :: (r ++ l₂') ∧ c.flags = b.mark.flags ∧ c.len + span r = b.len ∧
      (c.prev = b.prev ∨ c.prev = pv) ∧ AllFree r ∧ (∃ q, Relinks q (x + 32 + b.len) l₂ l₂') ∧
      Relinks (adr x) (x + 32 + b.len) l₂
        (if false = true ∨ r ≠ [] then Heap.setHeadPrev (adr x) l₂' else l₂') := by
  unfold cut at h
  split at h
  · rename_i hn
    -- split in two
    obtain ⟨k₁, l₂', rfl, h1, h2⟩ := relinks_append.mp h
    cases k₁ with
    | nil => exact h1.elim
    | cons c k₁ =>
      obtain ⟨hf, hlen, hp, h1⟩ := h1
      cases k₁ with
      | nil => exact h1.elim
      | cons d k₁ =>
        obtain ⟨gf, glen, -, h1⟩ := h1
        cases k₁ with
        | cons _ _ => exact h1.elim
        | nil =>
          have hd : d.used = false := by
            rw [Blk.used, gf]
            exact (by decide : decide (headerMagic &&& HF_ALLOC ≠ 0) = false)
          have hx : x + span [b.mark.resize n, ⟨headerMagic, b.len - n - 32, adr x⟩] =
              x + 32 + b.len := by
            simp only [span, Blk.resize_len]
            omega
          rw [hx] at h2
          have hlen' : c.len = n := hlen
          have glen' : d.len = b.len - n - 32 := glen
          refine ⟨c, [d], l₂', rfl, hf, ?_, hp, ?_, ⟨_, h2⟩, ?_⟩
          · simp only [span]
            omega
          · exact List.forall_mem_singleton.mpr hd
          · rw [if_pos (.inr (by simp))]
            exact h2.setHeadPrev
  · -- taken as a whole
    cases k with
    | nil => exact h.elim
    | cons c k =>
      obtain ⟨hf, hlen, hp, h2⟩ := h
      refine ⟨c, [], k, rfl, hf, ?_, hp, List.forall_mem_nil _, ⟨_, h2⟩, ?_⟩
      · simp only [span]
        exact hlen
      · rw [if_neg (by simp)]
        exact h2

/-- **Freeing the last block undoes its allocation.** -/
theorem Restores.free {p n : Nat} (h : Restores a l₀ ((p, n) :: st) l) (h₀ : Sturdy a l₀)
    (hm : Blocks m e a l) (hx : a + span l = e) (he : e < 2 ^ 64) (h0 : 0 < a) {fuel : Nat}
    (hf : e < fuel) : ∃ m' l', Heap.free fuel m (adr p) = .ok m' ∧ Blocks m' e a l' ∧
      a + span l' = e ∧ Restores a l₀ st l' := by
  cases h with
  | @cons _ k k' _ _ _ h h1 h2 =>
  obtain ⟨l₁, b, l₂, rfl, -, hfit, rfl, rfl⟩ := allocBlks_cases h1
  have hS := h.sturdy h₀
  have hbu := fits_used hfit
  have hbp : b.prev = lastAdr 0 a l₁ := ((freeLinked_append _ _ _ _).mp hS.linked).2.1 hbu
  have hspan : span l = span (l₁ ++ b :: l₂) := by
    rw [h2.span_eq]
    simp only [span_append, span_cut, span]
  obtain ⟨l₁', k, rfl, hl₁, hk⟩ := relinks_append.mp h2
  obtain ⟨c, r, l₂', rfl, hcf, hlen, hcp, hr, ⟨q, hq⟩, hl₂⟩ := hk.of_cut
  have ha : a + span l₁' = a + span l₁ := by rw [hl₁.span_eq]
  -- the block's own link is exact, and the block before is allocated
  have hcp' : c.prev = b.prev := hcp.elim id fun h => h.trans hbp.symm
  have hstay : c.clear.prev = lastAdr 0 a l₁' := by
    rw [hl₁.lastAdr_eq]
    exact hcp'.trans hbp
  have hcu : c.used = true := by rw [Blk.used, hcf]; exact b.mark_used
  have hm₁ := clear_blocks hm hx he
  have hx₁ : a + span (l₁' ++ c.clear :: (r ++ l₂')) = e := by rw [span_clear]; exact hx
  rw [← ha, free_live hm hcu fuel]
  generalize setFlags m (adr (a + span l₁')) (flags m (adr (a + span l₁')) &&& ~~~HF_ALLOC) = m₁
    at *
  obtain ⟨fuel, rfl⟩ : ∃ k, fuel = k + 1 := ⟨fuel - 1, by omega⟩
  rw [freeBack_stay hm₁ hstay (hl₁.last_used (hS.before hbu)) h0 hx₁ he fuel, Res.ok_bind]
  -- the rest of the cut block is absorbed again
  obtain ⟨m', g1, g2, -⟩ := freeForward_at hm₁ hx₁ he (show (r ++ l₂').length < fuel + 1 by
    have h1 := length_le_span (l := r ++ l₂')
    simp only [span_append, span] at hx₁ h1
    omega)
  have hback : Relinks 0 a (l₁ ++ b :: l₂)
      (l₁' ++ mergeForward (a + span l₁') c.clear false (r ++ l₂')) := by
    rw [mergeForward_run _ (hq.head_used (hS.behind hbu)) r c.clear false hr, ha]
    refine relinks_append.mpr ⟨l₁', _, rfl, hl₁, ?_, hlen, .inl hcp', hl₂⟩
    show c.flags &&& ~~~HF_ALLOC = b.flags
    rw [hcf]
    exact clear_mark_flags (Blk.flags_free hbu)
  refine ⟨m', _, g1, g2, ?_, h.relinks hback⟩
  rw [hback.span_eq, ← hspan]
  exact hx

end Restores

/-! ## Scopes as a system -/

structure Scope where
  mem : Mem
  /-- pointer and size of the blocks not yet freed, the last one first -/
  stack : List (Word × Word)

/-- Only the last block may be freed, and only blocks of the scope written. -/
def Scope.Valid (s : Scope) : Op → Prop
  | .alloc n => n.toNat + 32 < 2 ^ 64
  | .free p => ∃ n, s.stack.head? = some (p, n)
  | .poke p i _ => ∃ n, (p, n) ∈ s.stack ∧ i < n

def Scope.exec (h : Heap) (fuel : Nat) (s : Scope) : Op → Res Scope
  | .alloc n => do
    match ← h.alloc fuel s.mem n with
    | (some p, m) => .ok ⟨m, (p, n) :: s.stack⟩
    | (none, m) => .ok { s with mem := m }
  | .free p => do
    let m ← free fuel s.mem p
    .ok ⟨m, s.stack.tail⟩
  | .poke p i v => .ok { s with mem := s.mem.fill (p + i) 1 v }

/-- Runs on the heap `h`, from the memory `m₀` on. -/
def scopes (h : Heap) (m₀ : Mem) : LTS Scope Op where
  init s := s = ⟨m₀, []⟩
  step s op s' := s.Valid op ∧ ∃ fuel, s.exec h fuel op = .ok s'

/-- Some bound on the iterations ends the call in a failed assertion or a
panic. -/
def Scope.Panics (h : Heap) (s : Scope) (op : Op) : Prop :=
  ∃ fuel f, s.exec h fuel op = .error f ∧ f ≠ .loop

/-- The same headers, with the same fields. -/
def SameChain (m m' : Mem) (root : Word) : Prop :=
  ∀ h, (OnChain m' root h ↔ OnChain m root h) ∧ (OnChain m root h → flags m' h = flags m h ∧
    length m' h = length m h ∧ prev m' h = prev m h ∧ next m' h = next m h)

theorem stable_scope (h : Heap) (s : Scope) (op : Op) : Res.Stable (s.exec h · op) := by
  intro n
  cases op with
  | alloc k => exact .bind (stable_allocFrom _ _ _ n) fun _ => .refl _
  | free p => exact .bind (stable_free _ _ n) fun _ => .refl _
  | poke p i v => exact .refl _

/-- The stack, in numbers. -/
abbrev Scope.entries (s : Scope) : List (Nat × Nat) :=
  s.stack.map fun x => (x.1.toNat, x.2.toNat)

/-- The chain can be led back to `l₀`. A heap at the null pointer has no chain
and hands out nothing. -/
def InScope (h : Heap) (e : Nat) (m₀ : Mem) (l₀ : List Blk) (s : Scope) : Prop :=
  h.m_base = 0 ∧ s = ⟨m₀, []⟩ ∨ 0 < h.m_base.toNat ∧ ∃ l, Blocks s.mem e h.m_base.toNat l ∧
    h.m_base.toNat + span l = e ∧ Restores h.m_base.toNat l₀ s.entries l

section Scope
variable {h : Heap} {e : Nat} {m₀ : Mem} {l₀ l : List Blk} {s s' : Scope} {fuel : Nat}

theorem InScope.alloc (he : e < 2 ^ 64) (hne : h.m_base.toNat + 32 ≤ e) (hs : InScope h e m₀ l₀ s)
    {n : Word} (hn : n.toNat + 32 < 2 ^ 64) (hf : e < fuel) :
    ∃ s', s.exec h fuel (.alloc n) = .ok s' ∧ InScope h e m₀ l₀ s' := by
  obtain ⟨fuel, rfl⟩ : ∃ k, fuel = k + 1 := ⟨fuel - 1, by omega⟩
  rcases hs with ⟨hz, rfl⟩ | ⟨h0, l, hm, hx, hR⟩
  · have ha : h.alloc (fuel + 1) m₀ n = .ok (none, m₀) := by
      rw [Heap.alloc, Heap.rootHeader, hz]
      exact if_pos rfl
    exact ⟨_, by rw [Scope.exec, ha, Res.ok_bind], .inl ⟨hz, rfl⟩⟩
  have hlen := length_le_span (l := l)
  have hroot : link e h.m_base.toNat = h.m_base := by
    rw [link, if_neg (by omega), adr_of_toNat]
  have hsp := allocFrom_refines hn he l h.m_base.toNat (fuel + 1) hm hx h0 (by omega)
  rw [adr_of_toNat, hroot] at hsp
  cases hr : allocBlks n.toNat h.m_base.toNat l with
  | none =>
    rw [hr] at hsp
    have ha : h.alloc (fuel + 1) s.mem n = .ok (none, s.mem) := hsp
    exact ⟨_, by rw [Scope.exec, ha, Res.ok_bind], .inr ⟨h0, l, hm, hx, hR⟩⟩
  | some q =>
    obtain ⟨p, l'⟩ := q
    rw [hr] at hsp
    obtain ⟨m', h1, h2, -⟩ := hsp
    obtain ⟨hb1, hb2, -⟩ := allocBlks_range hr
    have ha : h.alloc (fuel + 1) s.mem n = .ok (some (adr p), m') := h1
    refine ⟨_, by rw [Scope.exec, ha, Res.ok_bind], .inr ⟨h0, l', h2, by omega, ?_⟩⟩
    have hp : (adr p).toNat = p := adr_toNat (by omega)
    rw [Scope.entries, List.map_cons, hp]
    exact .cons hR hr (Relinks.refl ..)

theorem InScope.free (he : e < 2 ^ 64) (h₀ : Sturdy h.m_base.toNat l₀) (hs : InScope h e m₀ l₀ s)
    {p : Word} (hv : s.Valid (.free p)) (hf : e < fuel) :
    ∃ s', s.exec h fuel (.free p) = .ok s' ∧ InScope h e m₀ l₀ s' := by
  obtain ⟨n, hp⟩ := hv
  obtain ⟨st, hst⟩ : ∃ st, s.stack = (p, n) :: st := by
    cases hc : s.stack with
    | nil => rw [hc] at hp; cases hp
    | cons x st => rw [hc] at hp; cases hp; exact ⟨st, rfl⟩
  rcases hs with ⟨-, rfl⟩ | ⟨h0, l, hm, hx, hR⟩
  · cases hst
  rw [Scope.entries, hst, List.map_cons] at hR
  obtain ⟨m', l', h1, h2, h3, h4⟩ := hR.free h₀ hm hx he h0 hf
  rw [adr_of_toNat] at h1
  refine ⟨_, by rw [Scope.exec, h1, Res.ok_bind], .inr ⟨h0, l', h2, h3, ?_⟩⟩
  rw [hst]
  exact h4

theorem InScope.poke (fuel : Nat) (he : e < 2 ^ 64) (hs : InScope h e m₀ l₀ s) {p i : Word}
    {v : Byte} (hv : s.Valid (.poke p i v)) :
    ∃ s', s.exec h fuel (.poke p i v) = .ok s' ∧ InScope h e m₀ l₀ s' := by
  obtain ⟨n, hp, hi⟩ := hv
  rcases hs with ⟨-, rfl⟩ | ⟨h0, l, hm, hx, hR⟩
  · cases hp
  have hu := hR.used (p.toNat, n.toNat) (List.mem_map.mpr ⟨(p, n), hp, rfl⟩)
  have hb := usedOf_bounds hu
  have hi' : i.toNat < n.toNat := BitVec.lt_def.mp hi
  refine ⟨_, rfl, .inr ⟨h0, l, hm.of_hdrs fun x hx' => ?_, hx, hR⟩⟩
  have h1 := usedOf_hdrs hu hx'
  have h2 := hdrs_bounds hx'
  have hpi : p + i = adr (p.toNat + i.toNat) := by
    rw [← adr_add, adr_of_toNat, adr_of_toNat]
  show Mem.EqOn s.mem (s.mem.fill (p + i) 1 v) x (x + 32)
  rw [hpi]
  exact Mem.EqOn.fill _ _ (by omega) (by omega) (by omega) (by omega)

theorem InScope.step (he : e < 2 ^ 64) (hne : h.m_base.toNat + 32 ≤ e)
    (h₀ : Sturdy h.m_base.toNat l₀) (hs : InScope h e m₀ l₀ s) {op : Op} (hv : s.Valid op)
    (hf : e < fuel) : ∃ s', s.exec h fuel op = .ok s' ∧ InScope h e m₀ l₀ s' := by
  cases op with
  | alloc n => exact hs.alloc he hne hv hf
  | free p => exact hs.free he h₀ hv hf
  | poke p i v => exact hs.poke fuel he hv

theorem inScope_reachable (he : e < 2 ^ 64) (hne : h.m_base.toNat + 32 ≤ e)
    (h₀ : Sturdy h.m_base.toNat l₀) (hm : Blocks m₀ e h.m_base.toNat l₀)
    (hx : h.m_base.toNat + span l₀ = e) (hr : (scopes h m₀).Reachable s) :
    InScope h e m₀ l₀ s := by
  refine LTS.Inductive.reachable (I := InScope h e m₀ l₀) ⟨?_, ?_⟩ s hr
  · rintro s rfl
    rcases Nat.eq_zero_or_pos h.m_base.toNat with h0 | h0
    · exact .inl ⟨BitVec.eq_of_toNat_eq h0, rfl⟩
    · exact .inr ⟨h0, l₀, hm, hx, .nil (Relinks.refl ..)⟩
  · rintro s op s' hs ⟨hv, k, hk⟩
    obtain ⟨s₁, h1, h2⟩ := hs.step he hne h₀ hv (Nat.lt_succ_self e)
    obtain rfl := (stable_scope h s op).ok_det hk h1
    exact h2

/-- Two memories that show the same blocks have the same chain. -/
theorem sameChain_of_blocks {m m' : Mem} {a : Nat} (hm : Blocks m e a l) (hm' : Blocks m' e a l)
    (hx : a + span l = e) (he : e < 2 ^ 64) (hl : l ≠ []) : SameChain m m' (adr a) := by
  intro g
  refine ⟨(onChain_iff hm' hx he hl).trans (onChain_iff hm hx he hl).symm, fun ho => ?_⟩
  obtain ⟨l₁, b, l₂, rfl, rfl⟩ := (onChain_iff hm hx he hl).mp ho
  have h1 := blocks_at hm
  have h2 := blocks_at hm'
  exact ⟨h2.flags.trans h1.flags.symm, h2.length.trans h1.length.symm,
    h2.prev.trans h1.prev.symm, h2.next.trans h1.next.symm⟩

theorem coalesced_of {m : Mem} {a : Nat} (hm : Blocks m e a l) (hx : a + span l = e)
    (he : e < 2 ^ 64) (hl : l ≠ []) (hc : NoFreeNeighbours m (adr a)) : Coalesced l := by
  refine List.isChain_iff_forall_rel_of_append_cons_cons.mpr ?_
  rintro b c l₁ l₂ rfl
  have hm' : Blocks m e a ((l₁ ++ [b]) ++ c :: l₂) := by simpa using hm
  have h1 := hc _ ((onChain_iff hm hx he hl).mpr ⟨l₁, b, c :: l₂, rfl, rfl⟩)
    ((next_eq_zero hm hx he).not.mpr (by simp))
  rwa [next_eq_adr hm hx, (blocks_at hm).isAlloc, (blocks_at hm').isAlloc] at h1

/-! ## Main result -/

/-- **Scoped use restores the heap.** On a chain that tiles the heap, with
exact links and no two free neighbours, no call of a properly nested run
panics, and whenever all its blocks are freed the chain is the one of before. -/
theorem scoped_restores {h : Heap} {m₀ : Mem} (he : e < 2 ^ 64)
    (ht : Tiled m₀ e h.m_base.toNat) (hp : PrevInverse m₀ h.rootHeader)
    (hc : NoFreeNeighbours m₀ h.rootHeader) {s : Scope} (hr : (scopes h m₀).Reachable s) :
    (∀ op, s.Valid op → ¬ s.Panics h op ∧ ∃ fuel s', s.exec h fuel op = .ok s') ∧
    (s.stack = [] → SameChain m₀ s.mem h.rootHeader) := by
  obtain ⟨l₀, hl, hm, hx⟩ := ht.blocks
  have hroot : h.rootHeader = adr h.m_base.toNat := (adr_of_toNat _).symm
  rw [hroot] at hp hc ⊢
  have hlk := (prevInverse_iff hm hx he hl).mp hp
  have h₀ : Sturdy h.m_base.toNat l₀ := ⟨coalesced_of hm hx he hl hc, hlk.freeLinked⟩
  have hs := inScope_reachable he ht.lt h₀ hm hx hr
  constructor
  · intro op hv
    obtain ⟨s', h1, -⟩ := hs.step he ht.lt h₀ hv (Nat.lt_succ_self e)
    refine ⟨?_, e + 1, s', h1⟩
    rintro ⟨k, f, hk, hf⟩
    exact hf ((stable_scope h s op).eq_loop h1 hk)
  · intro hst
    rcases hs with ⟨-, rfl⟩ | ⟨-, l, hm', -, hR⟩
    · exact fun _ => ⟨Iff.rfl, fun _ => ⟨rfl, rfl, rfl, rfl⟩⟩
    · rw [Scope.entries, hst] at hR
      cases hR with
      | nil hrel =>
        rw [hrel.eq_of_linked hlk] at hm'
        exact sameChain_of_blocks hm hm' hx he hl

end Scope

instance Scope.decidableValid (s : Scope) : (op : Op) → Decidable (s.Valid op)
  | .alloc n => inferInstanceAs (Decidable (n.toNat + 32 < 2 ^ 64))
  | .free p => decidable_of_iff (s.stack.head?.map Prod.fst = some p) (by
      rw [Option.map_eq_some_iff, Prod.exists]
      exact ⟨fun ⟨_, n, h, hp⟩ => ⟨n, hp ▸ h⟩, fun ⟨n, h⟩ => ⟨p, n, h, rfl⟩⟩)
  | .poke p i _ => decidable_of_iff (∃ b ∈ s.stack, b.1 = p ∧ i < b.2) (by
      rw [Prod.exists]
      exact ⟨fun ⟨_, n, h, hp, hi⟩ => ⟨n, hp ▸ h, hi⟩, fun ⟨n, h, hi⟩ => ⟨p, n, h, rfl, hi⟩⟩)

/-- A call of the run, with its precondition checked. -/
def Scope.play (h : Heap) (fuel : Nat) (s : Scope) (op : Op) : Option Scope :=
  if s.Valid op then (s.exec h fuel op).toOption else none

theorem Scope.play_step {h : Heap} {m₀ : Mem} {fuel : Nat} {s s' : Scope} {op : Op}
    (hp : s.play h fuel op = some s') : (scopes h m₀).step s op s' := by
  unfold Scope.play at hp
  split at hp
  · rename_i hv
    cases he : s.exec h fuel op with
    | ok t =>
      rw [he] at hp
      cases hp
      exact ⟨hv, fuel, he⟩
    | error f =>
      rw [he] at hp
      cases hp
  · cases hp

/-- Three blocks, the last two one after the other within the first. -/
def nested : List Op :=
  [.alloc 16, .alloc 100, .poke 0x1050 99 7, .free 0x1050, .alloc 8, .free 0x1050, .free 0x1020]

theorem scoped_restores_fresh : ∃ s, (scopes ⟨0x1000, 0x1000⟩ fresh.mem).Run ⟨fresh.mem, []⟩
    nested s ∧ SameChain fresh.mem s.mem 0x1000 := by
  have h : (match nested.foldlM (Scope.play ⟨0x1000, 0x1000⟩ 12) ⟨fresh.mem, []⟩ with
      | some s => decide (s.stack = [])
      | none => false) = true := by decide +kernel
  split at h
  · rename_i s hs
    have hrun : (scopes ⟨0x1000, 0x1000⟩ fresh.mem).Run ⟨fresh.mem, []⟩ nested s :=
      .of_foldlM (fun _ _ _ => Scope.play_step) hs
    have hE : Exact 0x1000 0x1000 fresh := exact_init (by decide) (by decide) fresh_init
    obtain ⟨hp, hc⟩ := hE.intact (by decide)
    obtain ⟨l, hshape, -⟩ := hE
    have ht := tiled_of_blocks (show Blocks fresh.mem 0x2000 0x1000 l from hshape.blocks)
      hshape.tiles (by decide) hshape.nonempty
    exact ⟨s, hrun, (scoped_restores (h := ⟨0x1000, 0x1000⟩) (by decide) ht hp hc
      ⟨_, _, rfl, hrun⟩).2 (of_decide_eq_true h)⟩
  · cases h

end X64k.L1.Heap
