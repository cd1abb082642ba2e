import Mathlib.Algebra.Order.BigOperators.Group.Finset
import Mathlib.Data.Set.Defs
import Mathlib.Order.Interval.Finset.Nat

/-!
# First fit on a line of cells

Cells are numbers. Some, `O`, were taken before; runs of cells are then taken
one after the other, each at the lowest place from `lo` on where it fits, and
never given back: `N` is what they take.

First fit leaves no hole in front of a run (`Packed.place`), so a stretch of
cells without obstacles fills up from its start. Hence a long enough line has
room for one more run (`Packed.room`), however the runs came.
-/
namespace X64k.Core.Packing

/-- The `n` cells from `i` on are free. -/
def Free (O : Set Nat) (N : Finset Nat) (i n : Nat) : Prop := ∀ j < n, i + j ∉ O ∧ i + j ∉ N

/-- In front of every cell that a run took there is no free one. -/
def Packed (lo : Nat) (O : Set Nat) (N : Finset Nat) : Prop :=
  ∀ i, lo ≤ i → i + 1 ∈ N → i ∈ O ∨ i ∈ N

section
variable {lo p n : Nat} {O : Set Nat} {N : Finset Nat}

theorem packed_empty (lo : Nat) (O : Set Nat) : Packed lo O ∅ := fun _ _ h =>
  absurd h (Finset.notMem_empty _)

/-- One more run, at the lowest place where it fits. -/
theorem Packed.place (h : Packed lo O N) (hfree : Free O N p n)
    (hlow : ∀ i, lo ≤ i → i < p → ¬ Free O N i n) : Packed lo O (N ∪ Finset.Ico p (p + n)) := by
  intro i hi hmem
  rcases Finset.mem_union.mp hmem with hN | hnew
  · exact (h i hi hN).imp_right fun h => Finset.mem_union_left _ h
  obtain ⟨h1, h2⟩ := Finset.mem_Ico.mp hnew
  rcases Nat.lt_or_ge i p with hlt | hge
  · -- a hole at `p - 1` would have let the run start there
    by_contra hno
    refine hlow i hi hlt fun j hj => ?_
    rcases Nat.eq_zero_or_pos j with rfl | h0
    · exact ⟨fun hO => hno (.inl hO), fun hN => hno (.inr (Finset.mem_union_left _ hN))⟩
    · have heq : i + j = p + (j - 1) := by omega
      rw [heq]
      exact hfree (j - 1) (by omega)
  · exact .inr (Finset.mem_union_right _ (Finset.mem_Ico.mpr ⟨hge, by omega⟩))

/-- Where there are no obstacles, all cells in front of one taken are taken. -/
theorem Packed.before (h : Packed lo O N) {a j : Nat} (ha : lo ≤ a) (hj : j ∈ N)
    (hO : ∀ i, a ≤ i → i ≤ j → i ∉ O) {i : Nat} (hai : a ≤ i) (hij : i ≤ j) : i ∈ N := by
  induction hij using Nat.decreasingInduction with
  | self => exact hj
  | of_succ k hk ih =>
    exact (h k (Nat.le_trans ha hai) (ih (by omega))).resolve_left (hO k hai (by omega))

/-- Of the stretches of `T` cells with the numbers in `G`, which have no
obstacles, one has room for `n` cells at its end, when fewer cells are taken
than would fill all of them but for `L` cells each. -/
theorem Packed.room (h : Packed lo O N) {T L : Nat} (hn : n ≤ L) (h0 : 0 < L) (hL : L ≤ T) {G : Finset Nat}
    (hlo : ∀ g ∈ G, lo ≤ T * g) (hO : ∀ g ∈ G, ∀ i, T * g ≤ i → i < T * (g + 1) → i ∉ O)
    (hfew : N.card < G.card * (T - L + 1)) : ∃ g ∈ G, Free O N (T * (g + 1) - n) n := by
  by_contra hno
  have hfull (g : Nat) (hg : g ∈ G) : Finset.Ico (T * g) (T * g + (T - L + 1)) ⊆ N := by
    have hstep : T * (g + 1) = T * g + T := Nat.mul_succ T g
    have hblocked : ∃ j < n, T * (g + 1) - n + j ∈ N := by
      by_contra hall
      refine hno ⟨g, hg, fun j hj => ⟨hO g hg _ (by omega) (by omega), fun hN => hall ⟨j, hj, hN⟩⟩⟩
    obtain ⟨j, hj, hN⟩ := hblocked
    intro i hi
    obtain ⟨h1, h2⟩ := Finset.mem_Ico.mp hi
    exact h.before (hlo g hg) hN (fun k hk1 hk2 => hO g hg k hk1 (by omega)) h1 (by omega)
  have hdisj : (G : Set Nat).PairwiseDisjoint fun g => Finset.Ico (T * g) (T * g + (T - L + 1)) := by
    intro g _ g' _ hne
    refine Finset.disjoint_left.mpr fun i hi hi' => ?_
    have h1 := Finset.mem_Ico.mp hi
    have h2 := Finset.mem_Ico.mp hi'
    rcases Nat.lt_or_gt_of_ne hne with hlt | hlt
    · have := Nat.mul_le_mul_left T hlt
      rw [Nat.mul_succ] at this
      omega
    · have := Nat.mul_le_mul_left T hlt
      rw [Nat.mul_succ] at this
      omega
  have hcard := Finset.card_le_card (Finset.biUnion_subset.mpr hfull)
  rw [Finset.card_biUnion hdisj, Finset.sum_const_nat fun g _ => by
    rw [Nat.card_Ico, Nat.add_sub_cancel_left]] at hcard
  exact absurd hcard (Nat.not_le.mpr hfew)

end

end X64k.Core.Packing
