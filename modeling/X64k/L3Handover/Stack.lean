import X64k.Core.LTS
import X64k.L3Handover.Handover

/-!
# The stack the kernel runs on

The loader's image starts at 0x200000 (`src/loader/loader.lds`) and holds the
stack in its `.bss` (`src/loader/boot/multiboot.s:113-116`). `long_enter` jumps
to `kernel_entry`, which calls `kernel_main` without loading `%rsp`
(`src/kernel/entry.s`), so the kernel goes on using that stack.

The range `retainLoaderPaging` takes over ends at 0x3FF000, above the image,
and what lies behind the highest marked page is cleared. The loader only marks
pages below 0x200000: the cleanup covers the image from its first byte on, and
with it the stack (`stack_cleared`). Its pages are then free for `alloc`
(`stack_page_free`).
-/
namespace X64k.L3.Retain

open X64k.Core X64k.L2.Paging

/-! ## The image -/

/-- Where the linker puts the loader's data; `stackBottom` is `stack_bottom`,
`tracker` is `m_dataTracker`, `imageEnd` the first address behind the image. -/
structure Image where
  stackBottom : Word
  tracker : BitVec 32
  imageEnd : Nat

/-- Stack and tracker lie in the image, which ends below 0x3FF000. -/
structure Image.Linked (img : Image) : Prop where
  stack_ge : 0x200000 ≤ img.stackBottom.toNat
  stack_le : img.stackBottom.toNat + 65536 ≤ img.imageEnd
  tracker_ge : 0x200000 ≤ img.tracker.toNat
  tracker_le : img.tracker.toNat + 32 ≤ img.imageEnd
  end_lt : img.imageEnd < 0x3FF000

/-- The byte at `x` belongs to the stack. -/
abbrev Image.stack (img : Image) (x : Word) : Prop := Within img.stackBottom 65536 x

/-- What the loader publishes. -/
def Image.loaderData (img : Image) : LoaderData := ⟨0x100000, 0x100000, img.tracker⟩

/-! ## Runs of `alloc` and `free` -/

inductive Op where
  | alloc
  | free (addr : Word)
  deriving DecidableEq, Repr

/-- The memory, and every `memset` done so far by the cleanup and by `alloc`,
the last one first. -/
structure State where
  mem : Mem
  clears : List Clear

/-- The `memset` of an `alloc` that delivers `o`. -/
def allocClear (o : Option Word) : List Clear :=
  match o with
  | some a => [⟨a, 0x1000⟩]
  | none => []

def exec (s : Statics) (st : State) : Op → Res State
  | .alloc => do
    let (o, m) ← alloc s st.mem
    .ok ⟨m, allocClear o ++ st.clears⟩
  | .free a => do
    let m ← free s st.mem a
    .ok ⟨m, st.clears⟩

/-- The state that `retainLoaderPaging` leaves, started on the memory `m`. -/
def Starts (img : Image) (m : Mem) (st : State) : Prop :=
  ∃ x m₁, retainTables img.loaderData m = .ok (x, m₁) ∧
    retainLoaderPaging img.loaderData m = .ok (expanded img.loaderData, st.mem) ∧
    st.clears = (cleanup (expanded img.loaderData) x).toList

def lts (img : Image) : LTS State Op where
  init st := ∃ m, Starts img m st
  step st op st' := exec (expanded img.loaderData) st op = .ok st'

/-- No `memset` has written a byte of the stack. -/
def Spares (img : Image) (st : State) : Prop :=
  ∀ c ∈ st.clears, ∀ x, img.stack x → ¬ c.writes x

section
variable {img : Image}

theorem Image.Linked.handover (h : img.Linked) : Handover img.loaderData := by
  have h1 := h.tracker_le
  have h2 := h.end_lt
  have h3 : img.loaderData.loaderPagingBase.toNat = 0x100000 := rfl
  have h4 : img.loaderData.loaderPagingSize.toNat = 0x100000 := rfl
  have h5 : img.loaderData.loaderPagingTracking.toNat = img.tracker.toNat := rfl
  exact ⟨by omega, by omega, by omega, .inl (by omega)⟩

theorem loaderData_pages (img : Image) : img.loaderData.pages = 256 := by
  have h : img.loaderData.loaderPagingSize.toNat = 0x100000 := rfl
  rw [LoaderData.pages, h]

/-- Addresses of the stack as numbers. -/
theorem stack_bounds (h : img.Linked) {x : Word} (hx : img.stack x) :
    0x200000 ≤ x.toNat ∧ x.toNat < 0x3FF000 := by
  have h1 := h.stack_ge
  have h2 := h.stack_le
  have h3 := h.end_lt
  rw [Image.stack, Within, BitVec.toNat_sub] at hx
  have h4 := x.isLt
  omega

/-- The cleanup writes every byte from the end of the loader's region up to
the end of the new range. -/
theorem cleanup_writes (h : img.Linked) {m₀ m : Mem} {x : Word}
    (hC : Copied img.loaderData m₀ img.loaderData.pages x m) :
    ∃ c, cleanup (expanded img.loaderData) x = some c ∧
      ∀ y : Word, 0x200000 ≤ y.toNat → y.toNat < 0x3FF000 → c.writes y := by
  have hH := h.handover
  obtain ⟨c, hc, hdst, hlen⟩ := hC.cleanup_eq hH
  refine ⟨c, hc, fun y hy hy' => ?_⟩
  have hx : x.toNat + 0x1000 ≤ 0x200000 := by
    rcases hC.max_eq with rfl | ⟨k, hk, -, rfl⟩
    · decide
    · have h1 := (layout hH).page_toNat (pages_lt hH hk)
      have h2 : (expanded img.loaderData).start.toNat = 0x100000 := start_toNat img.loaderData
      rw [loaderData_pages] at hk
      omega
  rw [Clear.writes, Within, hlen, hdst, BitVec.toNat_sub, adr_toNat (by omega)]
  omega

/-- The handover returns on every memory. -/
theorem starts (h : img.Linked) (m : Mem) : ∃ st, Starts img m st := by
  obtain ⟨x, m₁, h1, hC⟩ := retainTables_copied h.handover m
  obtain ⟨c, h2, -⟩ := cleanup_writes h hC
  refine ⟨⟨c.run m₁, [c]⟩, x, m₁, h1, ?_, by rw [h2]; rfl⟩
  unfold retainLoaderPaging
  rw [h1, Res.ok_bind]
  dsimp only
  rw [h2]

theorem Starts.cleanup (h : img.Linked) {m : Mem} {st : State} (hs : Starts img m st) :
    ∃ c ∈ st.clears, ∀ y : Word, img.stack y → c.writes y := by
  obtain ⟨x, m₁, h1, -, h2⟩ := hs
  obtain ⟨x', m', h1', hC⟩ := retainTables_copied h.handover m
  rw [h1] at h1'
  cases h1'
  obtain ⟨c, hc, hw⟩ := cleanup_writes h hC
  refine ⟨c, by rw [h2, hc]; exact List.mem_singleton.mpr rfl, fun y hy => ?_⟩
  obtain ⟨h3, h4⟩ := stack_bounds h hy
  exact hw y h3 h4

/-- What has been cleared stays on record. -/
theorem exec_clears {s : Statics} {st st' : State} {op : Op} (h : exec s st op = .ok st') :
    st.clears ⊆ st'.clears := by
  cases op with
  | alloc =>
    obtain ⟨⟨o, m⟩, -, he⟩ := Res.bind_eq_ok.mp h
    cases he
    exact List.subset_append_right _ _
  | free a =>
    obtain ⟨m, -, he⟩ := Res.bind_eq_ok.mp h
    cases he
    exact fun _ hc => hc

/-- The pages that begin in the stack are free after the handover: `alloc` will
hand them out and clear them once more. -/
theorem stack_page_free (h : img.Linked) (m : Mem) :
    ∃ m', retainLoaderPaging img.loaderData m = .ok (expanded img.loaderData, m') ∧
      ∀ n < (expanded img.loaderData).pages,
        img.stack ((expanded img.loaderData).page n) →
        tracked (expanded img.loaderData) m' n = false := by
  have hH := h.handover
  obtain ⟨x, m₁, c, -, -, -, hok⟩ := retain_returns hH m
  refine ⟨_, hok, fun n hn hx => (Retained.of_ok hH hok).free n ?_ hn⟩
  have h3 := (stack_bounds h hx).1
  have h4 := (layout hH).page_toNat hn
  have h5 : (expanded img.loaderData).start.toNat = 0x100000 := start_toNat img.loaderData
  rw [loaderData_pages]
  omega

/-! ## Main result -/

/-- **The stack is cleared.** Whatever the loader's image looks like and
whatever its bitmap holds, the handover returns, and in every run from there
the cleanup has written the stack from its first byte to its last. -/
theorem stack_cleared (h : img.Linked) :
    (∀ m, ∃ st, Starts img m st) ∧ ∀ st, (lts img).Reachable st →
      ¬ Spares img st ∧ ∃ c ∈ st.clears, ∀ x, img.stack x → c.writes x := by
  refine ⟨starts h, fun st hst => ?_⟩
  have hall : ∃ c ∈ st.clears, ∀ x, img.stack x → c.writes x := by
    refine LTS.Inductive.reachable
      (I := fun st => ∃ c ∈ st.clears, ∀ x, img.stack x → c.writes x) ⟨?_, ?_⟩ st hst
    · rintro st ⟨m, hs⟩
      exact hs.cleanup h
    · rintro st op st' ⟨c, hc, hw⟩ hstep
      exact ⟨c, exec_clears hstep hc, hw⟩
  obtain ⟨c, hc, hw⟩ := hall
  have hbot : img.stack img.stackBottom := by
    rw [Image.stack, Within, BitVec.sub_self]
    decide
  exact ⟨fun hsp => hsp c hc img.stackBottom hbot (hw _ hbot), c, hc, hw⟩

end

/-- A stack at 0x210000 in an image that ends at 0x220000. -/
def demoImage : Image := ⟨0x210000, 0x201000, 0x220000⟩

theorem demoImage_linked : demoImage.Linked :=
  ⟨by decide, by decide, by decide, by decide, by decide⟩

theorem stack_cleared_demo : ∃ st, Starts demoImage Loader.demoMem st ∧ ¬ Spares demoImage st := by
  obtain ⟨h1, h2⟩ := stack_cleared demoImage_linked
  obtain ⟨st, hs⟩ := h1 Loader.demoMem
  exact ⟨st, hs, (h2 st ⟨st, [], ⟨_, hs⟩, .nil st⟩).1⟩

/-- **The first byte of the stack** of `demoImage` is cleared right at the
handover. -/
theorem stack_run : ¬ ∀ img : Image, img.Linked → ∀ st, (lts img).Reachable st → Spares img st := by
  intro hall
  obtain ⟨st, hs⟩ := starts demoImage_linked Loader.demoMem
  obtain ⟨c, hc, hw⟩ := hs.cleanup demoImage_linked
  have hst : (lts demoImage).Reachable st := ⟨st, [], ⟨_, hs⟩, .nil st⟩
  exact hall demoImage demoImage_linked st hst c hc 0x210000 (by decide) (hw _ (by decide))

end X64k.L3.Retain
