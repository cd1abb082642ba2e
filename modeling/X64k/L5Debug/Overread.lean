import X64k.L5Debug.Scan
import X64k.L5Debug.LoaderVprintf

/-!
# Where the formatters stop

The width loop of the kernel's formatter tests for the NUL
(`src/kernel/sys/debug.cpp:65`), the switches behind it do not: the NUL is taken
for a letter that is no conversion, `++fmt` steps over it and the loop goes on
behind the string. The same happens in the loader's, right behind a `%`.

* `reads_behind`: the format `%`, in both.
* `reads_inside`: both stay inside the string exactly when the format does not
  end inside a conversion.
-/
namespace X64k.L5.Overread

open X64k.Core

theorem kernel_result {m : Mem} {p : Word} {f : CStr} (hf : Vprintf.strAt m p = .ok f.bytes)
    (buf : Itoa.Buf) (args : Vprintf.Args) :
    (Vprintf.Complete f → ∃ x, Vprintf.vprintf m buf f args = .ok x) ∧
    (¬ Vprintf.Complete f → Vprintf.vprintf m buf f args = .error overread) := by
  obtain ⟨x, hx⟩ := Vprintf.emit_ok hf (.init args) f.bytes
  rw [Vprintf.vprintf_eq, hx, Res.ok_bind]
  exact ⟨fun h => ⟨x, if_pos h⟩, fun h => if_neg h⟩

theorem loader_result {m : Mem} {p : L3.Loader.Ptr} {f : CStr}
    (hf : LoaderVprintf.strAt m p = .ok f.bytes) (buf : Itoa.Buf) (args : LoaderVprintf.Args) :
    (LoaderVprintf.Complete f → ∃ x, LoaderVprintf.vprintf m buf f args = .ok x) ∧
    (¬ LoaderVprintf.Complete f → LoaderVprintf.vprintf m buf f args = .error overread) := by
  obtain ⟨x, hx⟩ := LoaderVprintf.emit_ok hf ⟨.text, args⟩ f.bytes
  rw [LoaderVprintf.vprintf_eq, hx, Res.ok_bind]
  exact ⟨fun h => ⟨x, if_pos h⟩, fun h => if_neg h⟩

/-- A run that gives a value where `c` holds, and reads too far where it does not. -/
theorem ne_overread_iff {r : Res (List Byte)} {c : Prop}
    (h : (c → ∃ x, r = .ok x) ∧ (¬ c → r = .error overread)) : r ≠ .error overread ↔ c := by
  constructor
  · intro hr
    by_contra hc
    exact hr (h.2 hc)
  · intro hc hr
    obtain ⟨x, hx⟩ := h.1 hc
    rw [hx] at hr
    cases hr

/-! ## Main result -/

/-- **Where reading stops.** For every format in memory and every argument list,
kernel and loader `vprintf` read no byte behind the format's NUL if and only if
the format does not end inside a conversion. -/
theorem reads_inside (m : Mem) (buf : Itoa.Buf) (f : CStr) :
    (∀ (p : Word) (args : Vprintf.Args), Vprintf.strAt m p = .ok f.bytes →
      (Vprintf.vprintf m buf f args ≠ .error overread ↔ Vprintf.Complete f)) ∧
    ∀ (p : L3.Loader.Ptr) (args : LoaderVprintf.Args), LoaderVprintf.strAt m p = .ok f.bytes →
      (LoaderVprintf.vprintf m buf f args ≠ .error overread ↔ LoaderVprintf.Complete f) :=
  ⟨fun _ args hf => ne_overread_iff (kernel_result hf buf args),
    fun _ args hf => ne_overread_iff (loader_result hf buf args)⟩

/-- A format of `n` percent signs. -/
def percents (n : Nat) : CStr :=
  ⟨List.replicate n (ch '%'), fun c hc => by rw [List.eq_of_mem_replicate hc]; decide⟩

/-- A memory with that format at 0x1000. -/
def percentMem (n : Nat) : Mem := ⟨fun a => if (a - 0x1000).toNat < n then ch '%' else 0⟩

/-- Both formatters read on behind the NUL of `%`. -/
theorem reads_behind :
    (Vprintf.strAt (percentMem 1) 0x1000 = .ok (percents 1).bytes ∧
      Vprintf.vprintf (percentMem 1) (fun _ => 0) (percents 1) (Stream'.const 0) =
        .error overread) ∧
    LoaderVprintf.strAt (percentMem 1) 0x1000 = .ok (percents 1).bytes ∧
      LoaderVprintf.vprintf (percentMem 1) (fun _ => 0) (percents 1) (Stream'.const 0) =
        .error overread :=
  ⟨⟨rfl, rfl⟩, rfl, rfl⟩

/-- Not so behind that of `%%`. -/
theorem reads_inside_demo :
    Vprintf.vprintf (percentMem 2) (fun _ => 0) (percents 2) (Stream'.const 0) ≠ .error overread ∧
    LoaderVprintf.vprintf (percentMem 2) (fun _ => 0) (percents 2) (Stream'.const 0) ≠
      .error overread :=
  ⟨((reads_inside _ _ (percents 2)).1 0x1000 _ rfl).mpr (by decide),
    ((reads_inside _ _ (percents 2)).2 0x1000 _ rfl).mpr (by decide)⟩

end X64k.L5.Overread
