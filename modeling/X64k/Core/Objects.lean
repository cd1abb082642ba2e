import X64k.Core.LTS
import X64k.Core.Mem

/-!
# A store of objects

What the clients of an allocator may rely on, without blocks or headers: at
any time some objects are live, each at an address with its contents. An
object is handed out in vacant room of the region, its contents unknown; from
then on only stores to the object itself change it, until it is freed.

The events carry the answers of the allocator, so a run of the store is what
the clients see. Two results follow about that alone:

* `load_of_store`: a load returns what was stored last at that place;
* `alloc_apart`: an object handed out while another is live does not meet it.

`run_sound` states both for every place of a run.

`ofMem` are the objects that lie in a memory; a byte stored into one of them is
a step (`ofMem_store`), and so is a byte loaded (`ofMem_load`).
-/
namespace X64k.Core

/-- The live objects by address; they are carved out of `[lo, hi)`. -/
structure Objects (V : Type) where
  lo : Nat
  hi : Nat
  obj : Nat → Option (List V)

/-- What an allocator answers to its clients. -/
inductive Ans where
  | done
  | addr (r : Option Word)
  | byte (v : Byte)
  deriving DecidableEq, Repr

/-- The pointer in an answer. -/
def Ans.ptr : Ans → Option Nat
  | .addr r => r.map BitVec.toNat
  | _ => none

/-- The byte in an answer. -/
def Ans.val : Ans → Byte
  | .byte v => v
  | _ => 0

namespace Objects
variable {V : Type}

inductive Event (V : Type) where
  | reset (lo hi : Nat)
  | alloc (n : Nat) (r : Option Nat)
  | free (p : Nat)
  | store (p i : Nat) (v : V)
  | load (p i : Nat) (v : V)
  deriving DecidableEq, Repr

/-- The object at `p` replaced. -/
def put (o : Objects V) (p : Nat) (b : Option (List V)) : Objects V :=
  { o with obj := fun q => if q = p then b else o.obj q }

/-- `n` places from `p` on are in the region and in no live object. -/
structure Vacant (o : Objects V) (p n : Nat) : Prop where
  fresh : o.obj p = none
  inside : o.lo ≤ p ∧ p + n ≤ o.hi
  apart : ∀ q bs, o.obj q = some bs → p + n ≤ q ∨ q + bs.length ≤ p

inductive Step : Objects V → Event V → Objects V → Prop where
  | reset {o : Objects V} {lo hi : Nat} : (∀ p, o.obj p = none) →
      Step o (.reset lo hi) ⟨lo, hi, fun _ => none⟩
  | refuse {o : Objects V} {n : Nat} : Step o (.alloc n none) o
  | grant {o : Objects V} {p n : Nat} {bs : List V} : o.Vacant p n → bs.length = n →
      Step o (.alloc n (some p)) (o.put p (some bs))
  | free {o : Objects V} {p : Nat} {bs : List V} : o.obj p = some bs →
      Step o (.free p) (o.put p none)
  | store {o : Objects V} {p i : Nat} {v : V} {bs : List V} : o.obj p = some bs → i < bs.length →
      Step o (.store p i v) (o.put p (some (bs.set i v)))
  | load {o : Objects V} {p i : Nat} {v : V} {bs : List V} : o.obj p = some bs →
      bs[i]? = some v → Step o (.load p i v) o

def lts (V : Type) : LTS (Objects V) (Event V) where
  init o := ∀ p, o.obj p = none
  step := Step

/-- The object at `p` does not outlive the event. -/
def Event.Ends (p : Nat) : Event V → Prop
  | .reset .. => True
  | .free q => q = p
  | _ => False

/-- The event stores into place `i` of the object at `p`. -/
def Event.Writes (p i : Nat) : Event V → Prop
  | .store q j _ => q = p ∧ j = i
  | _ => False

@[simp] theorem put_obj (o : Objects V) (p q : Nat) (b : Option (List V)) :
    (o.put p b).obj q = if q = p then b else o.obj q := rfl
@[simp] theorem put_lo (o : Objects V) (p : Nat) (b : Option (List V)) : (o.put p b).lo = o.lo := rfl
@[simp] theorem put_hi (o : Objects V) (p : Nat) (b : Option (List V)) : (o.put p b).hi = o.hi := rfl

/-- The event is about the object at `p`. -/
def Event.About (p : Nat) : Event V → Prop
  | .reset .. => True
  | .alloc .. => False
  | .free q => q = p
  | .store q _ _ => q = p
  | .load q _ _ => q = p

/-- Events that are not about an object may do without it. -/
theorem Step.hide {o o' : Objects V} {e : Event V} {p : Nat} (h : Step o e o')
    (hp : o.obj p ≠ none) (he : ¬ e.About p) : Step (o.put p none) e (o'.put p none) := by
  have hput {q : Nat} (hne : q ≠ p) (b : Option (List V)) :
      (o.put q b).put p none = (o.put p none).put q b := by
    simp only [put, Objects.mk.injEq, true_and]
    funext a
    split
    · rename_i ha
      rw [if_neg fun h => hne (h.symm.trans ha)]
    · rfl
  cases h with
  | reset => exact absurd trivial he
  | refuse => exact .refuse
  | @grant q _ cs hv hl =>
    have hne : q ≠ p := by
      rintro rfl
      exact hp hv.fresh
    rw [hput hne]
    refine .grant ⟨?_, hv.inside, fun r bs hr => ?_⟩ hl
    · rw [put_obj, if_neg hne]
      exact hv.fresh
    · rw [put_obj] at hr
      split at hr
      · cases hr
      · exact hv.apart r bs hr
  | @free q bs hq =>
    have hne : q ≠ p := he
    rw [hput hne]
    exact .free (by rw [put_obj, if_neg hne, hq])
  | @store q j v bs hq hj =>
    have hne : q ≠ p := he
    rw [hput hne]
    exact .store (by rw [put_obj, if_neg hne, hq]) hj
  | @load q j v bs hq hv =>
    have hne : q ≠ p := he
    exact .load (by rw [put_obj, if_neg hne, hq]) hv

/-- An object survives every event but its own end, with its length and with
every place that is not stored into. -/
theorem Step.keeps {o o' : Objects V} {e : Event V} {p : Nat} {bs : List V} (h : Step o e o')
    (hp : o.obj p = some bs) (he : ¬ e.Ends p) :
    ∃ bs', o'.obj p = some bs' ∧ bs'.length = bs.length ∧
      ∀ i, ¬ e.Writes p i → bs'[i]? = bs[i]? := by
  cases h with
  | reset => exact absurd trivial he
  | refuse => exact ⟨bs, hp, rfl, fun _ _ => rfl⟩
  | @grant q _ cs hv =>
    have hne : p ≠ q := by
      rintro rfl
      rw [hv.fresh] at hp
      cases hp
    exact ⟨bs, by rw [put_obj, if_neg hne, hp], rfl, fun _ _ => rfl⟩
  | @free q _ _ =>
    have hne : p ≠ q := fun h => he h.symm
    exact ⟨bs, by rw [put_obj, if_neg hne, hp], rfl, fun _ _ => rfl⟩
  | @store q j v cs hq hj =>
    by_cases hpq : p = q
    · subst hpq
      rw [hp, Option.some.injEq] at hq
      subst hq
      refine ⟨bs.set j v, by rw [put_obj, if_pos rfl], List.length_set, fun i hi => ?_⟩
      exact List.getElem?_set_ne fun h => hi ⟨rfl, h⟩
    · exact ⟨bs, by rw [put_obj, if_neg hpq, hp], rfl, fun _ _ => rfl⟩
  | load => exact ⟨bs, hp, rfl, fun _ _ => rfl⟩

/-- The same over a run: by induction, one event at a time. -/
theorem run_keeps {p : Nat} : ∀ {es : List (Event V)} {o o' : Objects V} {bs : List V},
    (lts V).Run o es o' → o.obj p = some bs → (∀ e ∈ es, ¬ e.Ends p) →
    ∃ bs', o'.obj p = some bs' ∧ bs'.length = bs.length ∧
      ∀ i, (∀ e ∈ es, ¬ e.Writes p i) → bs'[i]? = bs[i]?
  | [], _, _, bs, .nil _, hp, _ => ⟨bs, hp, rfl, fun _ _ => rfl⟩
  | e :: es, _, _, bs, .cons hst hr, hp, he => by
    obtain ⟨h1, h2⟩ := List.forall_mem_cons.mp he
    obtain ⟨cs, hc, hl, hi⟩ := Step.keeps hst hp h1
    obtain ⟨ds, hd, hl', hi'⟩ := run_keeps hr hc h2
    refine ⟨ds, hd, hl'.trans hl, fun i hw => ?_⟩
    obtain ⟨w1, w2⟩ := List.forall_mem_cons.mp hw
    exact (hi' i w2).trans (hi i w1)

/-- **A load returns the last store.** -/
theorem load_of_store {o o' : Objects V} {p i : Nat} {v w : V} {es : List (Event V)}
    (h : (lts V).Run o (.store p i v :: (es ++ [.load p i w])) o')
    (hes : ∀ e ∈ es, ¬ e.Ends p ∧ ¬ e.Writes p i) : w = v := by
  obtain ⟨o₁, h1, h2⟩ := LTS.Run.split (show (lts V).Run o ([Event.store p i v] ++ (es ++ [.load p i w])) o' from h)
  obtain ⟨o₂, h2, h3⟩ := h2.split
  cases h1 with | cons hst hnil => ?_
  cases hnil
  cases h3 with | cons hld hnil => ?_
  cases hnil
  cases hst with | @store _ _ _ bs hp hi => ?_
  obtain ⟨cs, hc, -, hk⟩ := run_keeps h2 (by rw [put_obj, if_pos rfl])
    fun e he => (hes e he).1
  cases hld with | @load _ _ _ ds hd hv => ?_
  rw [hc, Option.some.injEq] at hd
  rw [← hd, hk i fun e he => (hes e he).2, List.getElem?_set_self hi, Option.some.injEq] at hv
  exact hv.symm

/-- **Live objects are apart**: what is handed out while the object at `p` is
live does not meet it. -/
theorem alloc_apart {o o' : Objects V} {p n q k : Nat} {es : List (Event V)}
    (h : (lts V).Run o (.alloc n (some p) :: (es ++ [.alloc k (some q)])) o')
    (hes : ∀ e ∈ es, ¬ e.Ends p) : q ≠ p ∧ (q + k ≤ p ∨ p + n ≤ q) := by
  obtain ⟨o₁, h1, h2⟩ := LTS.Run.split (show (lts V).Run o ([Event.alloc n (some p)] ++ (es ++ [.alloc k (some q)])) o' from h)
  obtain ⟨o₂, h2, h3⟩ := h2.split
  cases h1 with | cons hst hnil => ?_
  cases hnil
  cases h3 with | cons hal hnil => ?_
  cases hnil
  cases hst with | @grant _ _ bs hv hn => ?_
  obtain ⟨cs, hc, hl, -⟩ := run_keeps h2 (by rw [put_obj, if_pos rfl]) hes
  cases hal with | @grant _ _ ds hw => ?_
  refine ⟨?_, ?_⟩
  · rintro rfl
    rw [hw.fresh] at hc
    cases hc
  · have := hw.apart p cs hc
    rwa [hl, hn] at this

/-- What the clients rely on, of the events of a whole run. -/
structure Sound (es : List (Event V)) : Prop where
  load : ∀ pre p i v mid w post, es = pre ++ .store p i v :: (mid ++ .load p i w :: post) →
    (∀ e ∈ mid, ¬ e.Ends p ∧ ¬ e.Writes p i) → w = v
  apart : ∀ pre p n mid q k post,
    es = pre ++ .alloc n (some p) :: (mid ++ .alloc k (some q) :: post) →
    (∀ e ∈ mid, ¬ e.Ends p) → q ≠ p ∧ (q + k ≤ p ∨ p + n ≤ q)

theorem run_sound {o o' : Objects V} {es : List (Event V)} (h : (lts V).Run o es o') :
    Sound es where
  load pre p i v mid w post := by
    rintro rfl hmid
    obtain ⟨o₁, -, h1⟩ := h.split
    have hl : .store p i v :: (mid ++ .load p i w :: post) =
        (Event.store p i v :: (mid ++ [.load p i w])) ++ post := by simp
    rw [hl] at h1
    obtain ⟨o₂, h1, -⟩ := h1.split
    exact load_of_store h1 hmid
  apart pre p n mid q k post := by
    rintro rfl hmid
    obtain ⟨o₁, -, h1⟩ := h.split
    have hl : .alloc n (some p) :: (mid ++ .alloc k (some q) :: post) =
        (Event.alloc n (some p) :: (mid ++ [.alloc k (some q)]) : List (Event V)) ++ post := by simp
    rw [hl] at h1
    obtain ⟨o₂, h1, -⟩ := h1.split
    exact alloc_apart h1 hmid

/-! ## In memory -/

/-- The `n` bytes at `p`. -/
def contents (m : Mem) (p : Word) (n : Nat) : List Byte :=
  (List.range n).map fun i => m (p + adr i)

/-- The objects that lie in `m` where `live` says, with their lengths. -/
def ofMem (lo hi : Nat) (m : Mem) (live : Word → Option Nat) : Objects Byte where
  lo := lo
  hi := hi
  obj a := if a < 2 ^ 64 then (live (adr a)).map (contents m (adr a)) else none

section Memory
variable {m m' : Mem} {p q : Word} {n i lo hi : Nat} {live live' : Word → Option Nat}

@[simp] theorem length_contents (m : Mem) (p : Word) (n : Nat) : (contents m p n).length = n := by
  simp [contents]

theorem getElem?_contents (hi : i < n) : (contents m p n)[i]? = some (m (p + adr i)) := by
  simp [contents, hi]

theorem adr_offset (p : Word) (i : Nat) : p + adr i = adr (p.toNat + i) := by
  rw [← adr_add, adr_of_toNat]

theorem contents_eqOn (h : Mem.EqOn m m' p.toNat (p.toNat + n)) :
    contents m' p n = contents m p n := by
  refine List.map_congr_left fun i hi => ?_
  rw [adr_offset]
  exact h _ (Nat.le_add_right ..) (Nat.add_lt_add_left (List.mem_range.mp hi) _)

theorem eqOn_of_contents (h : contents m' p n = contents m p n) :
    Mem.EqOn m m' p.toNat (p.toNat + n) := by
  intro y h1 h2
  have hy : y = p.toNat + (y - p.toNat) := by omega
  have hi : y - p.toNat < n := by omega
  have hg : (contents m' p n)[y - p.toNat]? = (contents m p n)[y - p.toNat]? := by rw [h]
  rw [getElem?_contents hi, getElem?_contents hi, adr_offset, ← hy] at hg
  exact Option.some.inj hg

/-- A store changes one byte of the contents. -/
theorem contents_fill (v : Byte) (hi : i < n) (hn : p.toNat + n ≤ 2 ^ 64) :
    contents (m.fill (p + adr i) 1 v) p n = (contents m p n).set i v := by
  refine List.ext_getElem? fun j => ?_
  rw [List.getElem?_set, length_contents]
  by_cases hj : j < n
  · rw [getElem?_contents hj, getElem?_contents hj]
    by_cases hij : i = j
    · subst hij
      rw [if_pos rfl, if_pos hi, Mem.fill_at (by simp)]
    · rw [if_neg hij]
      refine congrArg some ?_
      have h : Mem.EqOn m (m.fill (adr (p.toNat + i)) 1 v) (p.toNat + j) (p.toNat + j + 1) :=
        Mem.EqOn.fill m v (by omega) (by omega) (by omega) (by omega)
      rw [adr_offset, adr_offset]
      exact h _ (Nat.le_refl _) (Nat.lt_succ_self _)
  · rw [List.getElem?_eq_none (by simpa using hj), List.getElem?_eq_none (by simpa using hj)]
    by_cases hij : i = j
    · omega
    · rw [if_neg hij]

@[simp] theorem ofMem_obj (lo hi : Nat) (m : Mem) (live : Word → Option Nat) (p : Word) :
    (ofMem lo hi m live).obj p.toNat = (live p).map (contents m p) := by
  simp only [ofMem, adr_of_toNat]
  rw [if_pos p.isLt]

/-- The object at an address, the address as a number. -/
theorem ofMem_obj_some {a : Nat} {bs : List Byte} (h : (ofMem lo hi m live).obj a = some bs) :
    ∃ q n, a = q.toNat ∧ live q = some n ∧ bs = contents m q n := by
  simp only [ofMem] at h
  split at h
  · rename_i ha
    obtain ⟨n, hn, rfl⟩ := Option.map_eq_some_iff.mp h
    exact ⟨adr a, n, (adr_toNat ha).symm, hn, rfl⟩
  · cases h

theorem ofMem_none (lo hi : Nat) (m : Mem) : ofMem lo hi m (fun _ => none) = ⟨lo, hi, fun _ => none⟩ := by
  simp [ofMem]

/-- One object handed out, given back or stored into, the others untouched. -/
theorem ofMem_put {v : Option Nat} (hl : ∀ q, live' q = if q = p then v else live q)
    (hk : ∀ q n, live q = some n → q ≠ p → Mem.EqOn m m' q.toNat (q.toNat + n)) :
    ofMem lo hi m' live' = (ofMem lo hi m live).put p.toNat (v.map (contents m' p)) := by
  simp only [ofMem, put, Objects.mk.injEq, true_and]
  funext a
  by_cases ha : a < 2 ^ 64
  · rw [if_pos ha, hl]
    by_cases hap : a = p.toNat
    · subst hap
      rw [if_pos rfl, adr_of_toNat, if_pos rfl]
    · have hne : adr a ≠ p := fun h => hap (by rw [← h, adr_toNat ha])
      rw [if_neg hap, if_pos ha, if_neg hne]
      cases hq : live (adr a) with
      | none => rfl
      | some n => exact congrArg some (contents_eqOn (hk _ _ hq hne))
  · have hap : a ≠ p.toNat := fun h => ha (h ▸ p.isLt)
    rw [if_neg ha, if_neg hap, if_neg ha]

/-- Nothing handed out, no object changed. -/
theorem ofMem_congr (hk : ∀ q n, live q = some n → Mem.EqOn m m' q.toNat (q.toNat + n)) :
    ofMem lo hi m' live = ofMem lo hi m live := by
  simp only [ofMem, Objects.mk.injEq, true_and]
  funext a
  split
  · cases hq : live (adr a) with
    | none => rfl
    | some n => exact congrArg some (contents_eqOn (hk _ _ hq))
  · rfl

theorem ofMem_store {v : Byte} (hp : live p = some n) (hi' : i < n) (hn : p.toNat + n ≤ 2 ^ 64)
    (hk : ∀ q k, live q = some k → q ≠ p → q.toNat + k ≤ 2 ^ 64 ∧
      (q.toNat + k ≤ p.toNat ∨ p.toNat + n ≤ q.toNat)) :
    Step (ofMem lo hi m live) (.store p.toNat i v)
      (ofMem lo hi (m.fill (p + adr i) 1 v) live) := by
  have hself : ∀ q, live q = if q = p then some n else live q := fun q => by
    split
    · rename_i hq; rw [hq, hp]
    · rfl
  have hput : ofMem lo hi (m.fill (p + adr i) 1 v) live = _ :=
    ofMem_put (m := m) (v := some n) hself fun q k hq hne => by
      have := hk q k hq hne
      rw [adr_offset]
      exact Mem.EqOn.fill _ _ (by omega) (by omega) (by omega) (by omega)
  rw [hput, Option.map_some, contents_fill v hi' hn]
  refine .store (by rw [ofMem_obj, hp, Option.map_some]) ?_
  rwa [length_contents]

theorem ofMem_load (hp : live p = some n) (hi' : i < n) :
    Step (ofMem lo hi m live) (.load p.toNat i (m (p + adr i))) (ofMem lo hi m live) := by
  refine .load (by rw [ofMem_obj, hp, Option.map_some]) ?_
  rw [getElem?_contents hi']

end Memory

end Objects
end X64k.Core
