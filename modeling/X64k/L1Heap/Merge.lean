import X64k.L1Heap.Tiling

/-!
# Freeing a block of a well-formed heap

`free` on a chain whose `prev` links are exact, whatever the pattern of free
and allocated blocks: neighbours may both be free.

* `freeBack_run`: the walk back ends at the start of the run of free blocks.
* `freeForward_zeroes`: the absorbed headers are left zero.
* `free_merges`: the run around the freed block has become one free block.
-/
namespace X64k.L1.Heap

open X64k.Core

/-! ## A chain as a list of blocks -/

section
variable {m : Mem} {e a : Nat} {l : List Blk}

/-- The block that the header at `a` describes. -/
def blkAt (m : Mem) (a : Nat) : Blk :=
  ⟨flags m (adr a), (length m (adr a)).toNat, prev m (adr a)⟩

theorem Tiled.lt {a : Nat} : Tiled m e a → a + 32 ≤ e
  | .last _ _ h => by omega
  | .step _ _ _ h => by
    have := h.lt
    omega

theorem Tiled.blocks {a : Nat} (ht : Tiled m e a) :
    ∃ l, l ≠ [] ∧ Blocks m e a l ∧ a + span l = e := by
  induction ht with
  | @last a hm hn hx =>
    refine ⟨[blkAt m a], by simp, ⟨⟨rfl, hm, ?_, rfl, ?_⟩, trivial⟩, ?_⟩
    · exact (adr_of_toNat _).symm
    · rw [hn]
      exact (if_pos hx).symm
    · simp only [span, blkAt]
      omega
  | @step a hm hn h0 h ih =>
    obtain ⟨l, -, hl, hx⟩ := ih
    have hlt := h.lt
    refine ⟨blkAt m a :: l, by simp, ⟨⟨rfl, hm, ?_, rfl, ?_⟩, hl⟩, ?_⟩
    · exact (adr_of_toNat _).symm
    · rw [hn]
      exact (if_neg (show a + 32 + (length m (adr a)).toNat ≠ e by omega)).symm
    · simp only [span, blkAt]
      omega

/-! ## Runs of free blocks -/

/-- All blocks are free. -/
abbrev AllFree (l : List Blk) : Prop := ∀ c ∈ l, c.used = false

theorem split_back (l : List Blk) : ∃ l₁ r, l = l₁ ++ r ∧ AllFree r ∧
    ∀ c ∈ l₁.getLast?, c.used = true := by
  induction l using List.reverseRecOn with
  | nil => exact ⟨[], [], rfl, nofun, nofun⟩
  | append_singleton l c ih =>
    cases hu : c.used with
    | true => exact ⟨l ++ [c], [], (List.append_nil _).symm, nofun, by simp [hu]⟩
    | false =>
      obtain ⟨l₁, r, rfl, hr, hl⟩ := ih
      refine ⟨l₁, r ++ [c], List.append_assoc .., fun d hd => ?_, hl⟩
      rcases List.mem_append.mp hd with hd | hd
      · exact hr d hd
      · rw [List.mem_singleton.mp hd, hu]

theorem split_front : ∀ l : List Blk, ∃ r l₂, l = r ++ l₂ ∧ AllFree r ∧
    ∀ c ∈ l₂.head?, c.used = true
  | [] => ⟨[], [], rfl, nofun, nofun⟩
  | c :: l => by
    cases hu : c.used with
    | true => exact ⟨[], c :: l, rfl, nofun, by simp [hu]⟩
    | false =>
      obtain ⟨r, l₂, rfl, hr, hl⟩ := split_front l
      exact ⟨c :: r, l₂, rfl, List.forall_mem_cons.mpr ⟨hu, hr⟩, hl⟩

/-- Forward, a run is absorbed as a whole. -/
theorem mergeForward_run (a : Nat) {l₂ : List Blk} (h₂ : ∀ c ∈ l₂.head?, c.used = true) :
    ∀ (r : List Blk) (b : Blk) (t : Bool), AllFree r → mergeForward a b t (r ++ l₂) =
      b.resize (b.len + span r) :: (if t = true ∨ r ≠ [] then setHeadPrev (adr a) l₂ else l₂)
  | [], b, t, _ => by
    cases l₂ with
    | nil => cases t <;> simp [mergeForward, span, setHeadPrev]
    | cons d l₂ =>
      have hd := h₂ d rfl
      cases t <;> simp [mergeForward, hd, span]
  | c :: r, b, t, hr => by
    obtain ⟨hc, hr⟩ := List.forall_mem_cons.mp hr
    rw [List.cons_append, mergeForward, hc, if_neg (by decide), mergeForward_run a h₂ r _ true hr]
    simp [span, Blk.resize, Nat.add_assoc]

/-- The block that starts a run of linked blocks is named by the one behind
the run once the run is one block. -/
theorem setHeadPrev_linked {pv : Word} {b : Blk} (h : Linked pv a (b :: l)) :
    setHeadPrev (adr a) l = l := by
  cases l with
  | nil => rfl
  | cons c l =>
    have hc : c.prev = adr a := h.2.1
    unfold setHeadPrev
    rw [← hc]
    rfl

theorem freeBack_run {l₁ : List Blk} (h₁ : ∀ c ∈ l₁.getLast?, c.used = true) (h0 : 0 < a)
    (he : e < 2 ^ 64) : ∀ (r : List Blk) (b : Blk) (l₂ : List Blk) (fuel : Nat), AllFree r →
      Blocks m e a (l₁ ++ (r ++ b :: l₂)) → Linked 0 a (l₁ ++ (r ++ b :: l₂)) →
      a + span (l₁ ++ (r ++ b :: l₂)) = e → r.length < fuel →
      freeBack m fuel (adr (a + span (l₁ ++ r))) = .ok (adr (a + span l₁)) := by
  intro r
  induction r using List.reverseRecOn with
  | nil =>
    intro b l₂ fuel _ hm hlk hx hf
    obtain ⟨fuel, rfl⟩ : ∃ k, fuel = k + 1 := ⟨fuel - 1, by omega⟩
    rw [List.append_nil]
    exact freeBack_stay hm ((linked_append _ _ _ _).mp hlk).2.1 h₁ h0 hx he fuel
  | append_singleton r c ih =>
    intro b l₂ fuel hr hm hlk hx hf
    obtain ⟨fuel, rfl⟩ : ∃ k, fuel = k + 1 := ⟨fuel - 1, by omega⟩
    have hc : c.used = false := hr c (by simp)
    have hm' : Blocks m e a ((l₁ ++ (r ++ [c])) ++ b :: l₂) := by simpa using hm
    have hlk' : Linked 0 a ((l₁ ++ (r ++ [c])) ++ b :: l₂) := by simpa using hlk
    have hm₁ : Blocks m e a ((l₁ ++ r) ++ c :: b :: l₂) := by simpa using hm
    have hbk := blocks_at hm'
    have hck := blocks_at hm₁
    have hp : b.prev = adr (a + span (l₁ ++ r)) := by
      have h := ((linked_append _ _ _ _).mp hlk').2.1
      rwa [← List.append_assoc, lastAdr_append] at h
    have hx' := hx
    simp only [span_append, span] at hx'
    have hne : adr (a + span (l₁ ++ r)) ≠ 0 :=
      adr_ne_zero (by omega) (by rw [span_append]; omega)
    rw [freeBack, hbk.prev, hp, if_neg hne, Res.assert_of hck.hasMagic, Res.ok_bind,
      if_neg (by rw [hck.isAlloc, hc]; decide)]
    rw [List.append_assoc, List.singleton_append] at hm hlk hx
    rw [List.length_append, List.length_singleton] at hf
    exact ih c (b :: l₂) fuel (fun d hd => hr d (by simp [hd])) hm hlk hx (by omega)

/-! ## What is left of the absorbed headers -/

/-- The header at `h` is zero. -/
def Zeroed (m : Mem) (h : Nat) : Prop := ∀ i < 32, m (adr (h + i)) = 0

theorem Zeroed.transport {m m' : Mem} {h lo hi : Nat} (hz : Zeroed m h) (hag : Mem.EqOn m m' lo hi)
    (h1 : lo ≤ h) (h2 : h + 32 ≤ hi) : Zeroed m' h := fun i hi' => by
  rw [hag (h + i) (by omega) (by omega), hz i hi']

theorem freeForward_zeroes (he : e < 2 ^ 64) {l₂ : List Blk} (h₂ : ∀ c ∈ l₂.head?, c.used = true) :
    ∀ (r : List Blk) (m : Mem) (a : Nat) (b : Blk) (t : Bool) (fuel : Nat) (m' : Mem), AllFree r →
      Blocks m e a (b :: (if t then setHeadPrev (adr a) (r ++ l₂) else r ++ l₂)) →
      a + 32 + b.len + span (r ++ l₂) = e → freeForward fuel m (adr a) = .ok m' →
      Mem.EqOn m m' (a + 32) (a + 32 + b.len) ∧ ∀ h ∈ hdrs (a + 32 + b.len) r, Zeroed m' h
  | [], m, a, b, t, fuel, m', _, hbl, hx, hr => by
    have hsame : m' = m := by
      cases fuel with
      | zero => cases hr
      | succ fuel =>
        obtain ⟨hb, hrest⟩ := hbl
        rw [freeForward, hb.next] at hr
        cases l₂ with
        | nil =>
          simp only [List.append_nil, span, Nat.add_zero] at hx
          have hlink : link e (a + 32 + b.len) = 0 := if_pos hx
          rw [hlink, if_pos rfl] at hr
          cases hr
          rfl
        | cons d l₂ =>
          simp only [List.nil_append, span] at hx
          obtain ⟨d', hdu, -, hd, -⟩ := hrest.head_relinked
          have hlink : link e (a + 32 + b.len) = adr (a + 32 + b.len) := if_neg (by omega)
          have hne : adr (a + 32 + b.len) ≠ 0 := adr_ne_zero (by omega) (by omega)
          rw [hlink, if_neg hne, Res.assert_of hd.hasMagic, Res.ok_bind,
            if_pos (hd.isAlloc.mpr (hdu.trans (h₂ d rfl)))] at hr
          cases hr
          rfl
    rw [hsame]
    exact ⟨Mem.EqOn.refl m _ _, List.forall_mem_nil _⟩
  | c :: r, m, a, b, t, fuel, m', hfree, hbl, hx, hr => by
    obtain ⟨hcu, hfree⟩ := List.forall_mem_cons.mp hfree
    cases fuel with
    | zero => cases hr
    | succ fuel =>
      obtain ⟨hb, hrest⟩ := hbl
      obtain ⟨c', hcu', hcl, hc, hl⟩ := hrest.head_relinked
      have hx : a + 32 + b.len + (32 + c.len + span (r ++ l₂)) = e := hx
      have hlink : link e (a + 32 + b.len) = adr (a + 32 + b.len) := if_neg (by omega)
      have hne : adr (a + 32 + b.len) ≠ 0 := adr_ne_zero (by omega) (by omega)
      rw [freeForward, hb.next, hlink, if_neg hne, Res.assert_of hc.hasMagic,
        Res.ok_bind, if_neg (by rw [hc.isAlloc, hcu', hcu]; decide)] at hr
      rw [← hcl] at hl hx
      obtain ⟨h1, -⟩ := absorb_refines (l := r ++ l₂) hb hc hl (by omega) he
      obtain ⟨h2, h3⟩ := freeForward_zeroes he h₂ r _ a (b.resize (b.len + 32 + c'.len)) true fuel m'
        hfree h1 (by rw [Blk.resize_len]; omega) hr
      rw [Blk.resize_len] at h2 h3
      have hspan := span_pos (r ++ l₂)
      refine ⟨?_, ?_⟩
      · refine Mem.EqOn.trans ?_ (h2.mono (Nat.le_refl _) (by omega))
        exact eqOn_absorb hb hc (by omega) he (by omega) (by omega) (by omega) (by omega)
      · intro h hh
        rcases List.mem_cons.mp hh with rfl | hh
        · have hz : Zeroed (absorb m (adr a) (adr (a + 32 + b.len))) (a + 32 + b.len) :=
            fun i hi => absorb_zero m (adr a) _ hi
          exact hz.transport h2 (by omega) (by omega)
        · rw [← hcl, show a + 32 + b.len + 32 + c'.len = a + 32 + (b.len + 32 + c'.len) by omega]
            at hh
          exact h3 h hh

/-! ## `free` -/

/-- The block at `h` is `b`, allocated, between the free blocks `r₁` and `r₂`,
which are all that neighbour it. -/
structure Around (m : Mem) (e a : Nat) (h : Word) (l₁ r₁ : List Blk) (b : Blk) (r₂ l₂ : List Blk) :
    Prop where
  blocks : Blocks m e a (l₁ ++ (r₁ ++ b :: (r₂ ++ l₂)))
  tiles : a + span (l₁ ++ (r₁ ++ b :: (r₂ ++ l₂))) = e
  here : h = adr (a + span (l₁ ++ r₁))
  used : b.used = true
  left : AllFree r₁
  right : AllFree r₂
  before : ∀ c ∈ l₁.getLast?, c.used = true
  after : ∀ c ∈ l₂.head?, c.used = true

/-- In `m'` the blocks `c :: r` behind `l₁` are one free block: `c` with the
lengths and headers of `r` added to its own. The other blocks are those of
before, but for the `prev` link of the first one of `l₂`. -/
structure Merged (m' : Mem) (e a : Nat) (l₁ : List Blk) (c : Blk) (r l₂ : List Blk) : Prop where
  blocks : Blocks m' e a (l₁ ++ c.resize (c.len + span r) :: setHeadPrev (adr (a + span l₁)) l₂)
  free : c.used = false
  zeroed : ∀ h ∈ hdrs (a + span l₁ + 32 + c.len) r, Zeroed m' h
  tiled : Tiled m' e a
  inverse : PrevInverse m' (adr a)

theorem Tiled.around (ht : Tiled m e a) (he : e < 2 ^ 64) {h : Word} (ho : OnChain m (adr a) h)
    (hu : isAlloc m h) : ∃ l₁ r₁ b r₂ l₂, Around m e a h l₁ r₁ b r₂ l₂ := by
  obtain ⟨l, hne, hm, hx⟩ := ht.blocks
  obtain ⟨k₁, b, k₂, rfl, rfl⟩ := (onChain_iff hm hx he hne).mp ho
  have hb := (blocks_at hm).isAlloc.mp hu
  obtain ⟨l₁, r₁, rfl, h1, h2⟩ := split_back k₁
  obtain ⟨r₂, l₂, rfl, h3, h4⟩ := split_front k₂
  exact ⟨l₁, r₁, b, r₂, l₂, by simpa using hm, by simpa using hx, rfl, hb, h1, h3, h2, h4⟩

/-- **Freeing merges the run.** On a chain that tiles the heap, with exact
`prev` links, `free` of an allocated block returns, and the run of free blocks
around it is one free block. -/
theorem free_merges (ht : Tiled m e a) (he : e < 2 ^ 64) (h0 : 0 < a)
    (hp : PrevInverse m (adr a)) {h : Word} (ho : OnChain m (adr a) h) (hu : isAlloc m h) :
    ∃ l₁ r₁ b r₂ l₂, Around m e a h l₁ r₁ b r₂ l₂ ∧ ∃ c r, r₁ ++ b.clear :: r₂ = c :: r ∧
      ∀ fuel, e < fuel → ∃ m', free fuel m (h + headerSize) = .ok m' ∧ Merged m' e a l₁ c r l₂ := by
  obtain ⟨l₁, r₁, b, r₂, l₂, hA⟩ := ht.around he ho hu
  obtain ⟨c, r, hcr⟩ : ∃ c r, r₁ ++ b.clear :: r₂ = c :: r := by
    cases r₁ with
    | nil => exact ⟨_, _, rfl⟩
    | cons d r₁ => exact ⟨_, _, rfl⟩
  refine ⟨l₁, r₁, b, r₂, l₂, hA, c, r, hcr, fun fuel hf => ?_⟩
  have hne : l₁ ++ (r₁ ++ b :: (r₂ ++ l₂)) ≠ [] := by simp
  have hlk := (prevInverse_iff hA.blocks hA.tiles he hne).mp hp
  have hm := hA.blocks
  have hx := hA.tiles
  -- the flag is cleared
  rw [← List.append_assoc] at hm hx hlk
  have hm₁ := clear_blocks hm hx he
  have hx₁ : a + span ((l₁ ++ r₁) ++ b.clear :: (r₂ ++ l₂)) = e := by rw [span_clear]; exact hx
  have hlk₁ := hlk.clear
  have hh : h + headerSize = adr (a + span (l₁ ++ r₁) + 32) := by
    rw [hA.here, headerSize_eq, adr_add]
  rw [hh, free_live hm hA.used fuel]
  generalize setFlags m (adr (a + span (l₁ ++ r₁)))
    (flags m (adr (a + span (l₁ ++ r₁))) &&& ~~~HF_ALLOC) = m₁ at *
  -- back to the start of the run
  rw [List.append_assoc] at hm₁ hx₁ hlk₁
  have hlen : r₁.length < fuel := by
    have h1 := length_le_span (l := r₁)
    simp only [span_append] at hx₁
    omega
  rw [freeBack_run hA.before h0 he r₁ b.clear (r₂ ++ l₂) fuel hA.left hm₁ hlk₁ hx₁ hlen, Res.ok_bind]
  -- and forward over the rest of it
  have hrun : r₁ ++ b.clear :: (r₂ ++ l₂) = c :: (r ++ l₂) := by
    calc r₁ ++ b.clear :: (r₂ ++ l₂) = (r₁ ++ b.clear :: r₂) ++ l₂ := by simp
      _ = c :: (r ++ l₂) := by rw [hcr]; rfl
  have hfree : AllFree (c :: r) := by
    rw [← hcr]
    intro d hd
    rcases List.mem_append.mp hd with hd | hd
    · exact hA.left d hd
    · rcases List.mem_cons.mp hd with rfl | hd
      · exact b.clear_used
      · exact hA.right d hd
  obtain ⟨hcu, hr⟩ := List.forall_mem_cons.mp hfree
  rw [hrun] at hm₁ hx₁ hlk₁
  obtain ⟨m', h1, h2, -⟩ := freeForward_at hm₁ hx₁ he (show (r ++ l₂).length < fuel by
    have h1 := length_le_span (l := r ++ l₂)
    simp only [span_append, span] at hx₁ h1
    omega)
  have hlk₂ := ((linked_append _ _ _ _).mp hlk₁).2
  have hlk' : Linked 0 a (l₁ ++ mergeForward (a + span l₁) c false (r ++ l₂)) :=
    (linked_append _ _ _ _).mpr ⟨((linked_append _ _ _ _).mp hlk₁).1, hlk₂.mergeForward⟩
  have hx' : a + span (l₁ ++ mergeForward (a + span l₁) c false (r ++ l₂)) = e := by
    rw [span_append, span_mergeForward, ← span_append]
    exact hx₁
  have htail : (if false = true ∨ r ≠ [] then setHeadPrev (adr (a + span l₁)) l₂ else l₂) =
      setHeadPrev (adr (a + span l₁)) l₂ := by
    cases r with
    | nil =>
      rw [if_neg (by simp)]
      exact (setHeadPrev_linked hlk₂).symm
    | cons d r => exact if_pos (.inr (by simp))
  rw [mergeForward_run _ hA.after r c false hr, htail] at h2 hlk' hx'
  refine ⟨m', h1, h2, hcu, ?_, ?_, ?_⟩
  · have hbl := ((blocks_append _ _ _).mp hm₁).2
    rw [span_append, span] at hx₁
    exact (freeForward_zeroes he hA.after r m₁ (a + span l₁) c false fuel m' hr hbl (by omega) h1).2
  · exact tiled_of_blocks h2 hx' he (by simp)
  · exact (prevInverse_iff h2 hx' he (by simp)).mpr hlk'

end

/-- Two blocks in use behind a hole. -/
def hole : List Op := [.alloc 16, .alloc 100, .alloc 16, .free 0x1020]

def holeBlocks : List Blk :=
  [⟨headerMagic, 16, 0⟩, ⟨headerMagic ||| HF_ALLOC, 100, 0x1000⟩,
    ⟨headerMagic ||| HF_ALLOC, 16, 0x1030⟩, ⟨headerMagic, 3836, 0x10B4⟩]

/-- The block behind the hole is freed. -/
theorem free_merges_fresh : ∃ s m' l₁ c r l₂, play 12 fresh hole = some s ∧
    free 0x2001 s.mem (0x1030 + headerSize) = .ok m' ∧ Merged m' 0x2000 0x1000 l₁ c r l₂ := by
  have h : (play 12 fresh hole).any (fun s => decide (Blocks s.mem 0x2000 0x1000 holeBlocks)) =
      true := by decide +kernel
  obtain ⟨s, hs, hm⟩ := (Option.any_eq_true _ _).mp h
  have hm := of_decide_eq_true hm
  have hx : 0x1000 + span holeBlocks = 0x2000 := rfl
  have hne : holeBlocks ≠ [] := List.cons_ne_nil _ _
  have hlk : Linked 0 0x1000 holeBlocks := ⟨rfl, rfl, rfl, rfl, trivial⟩
  have ho : OnChain s.mem (adr 0x1000) 0x1030 :=
    (onChain_iff hm hx (by decide) hne).mpr ⟨holeBlocks.take 1, _, holeBlocks.drop 2, rfl, rfl⟩
  have hu : isAlloc s.mem 0x1030 := (hm.2.1.isAlloc).mpr rfl
  obtain ⟨l₁, r₁, b, r₂, l₂, -, c, r, -, h⟩ := free_merges
    (tiled_of_blocks hm hx (by decide) hne) (by decide) (by decide)
    ((prevInverse_iff hm hx (by decide) hne).mpr hlk) ho hu
  obtain ⟨m', h1, h2⟩ := h 0x2001 (by decide)
  exact ⟨s, m', l₁, c, r, l₂, hs, h1, h2⟩

end X64k.L1.Heap
