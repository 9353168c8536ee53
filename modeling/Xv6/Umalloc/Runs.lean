import Xv6.Umalloc.Search

/-!
# Programs that use `malloc` and `free`

The invariant holds in every run, and every call returns.
-/

namespace Xv6.Umalloc

open Lib Lib.Cmd Block

section

variable {limit base n : Nat} {w w' : World} {c : Call}

theorem Inv.malloc {nbytes : UInt32} {ap : Nat} {t : State} (hserved :
    Served limit base (nunits nbytes) w.live ap t) :
    Inv limit base (if ap = 0 then { w with heap := t } else
      { heap := t
        live := { addr := ap - unit, size := (t.mem (ap - unit)).size } :: w.live }) := by
  rcases hserved with ⟨rfl, ring, h⟩ | ⟨ring, b, h, -, rfl⟩
  · exact .inr ⟨ring, h⟩
  · have hkept := h.kept b List.mem_cons_self
    rw [if_neg (show b.addr + unit ≠ 0 from Nat.succ_ne_zero _), Nat.add_sub_cancel, hkept]
    exact .inr ⟨ring, h⟩

theorem free_spec_live (hinv : Inv limit base w) (hlimit : limit < 2 ^ 32) (hn : limit < n)
    {b : Block} (hb : b ∈ w.live) :
    wp (free n (b.addr + unit))
      (fun _ t => Inv limit base { heap := t, live := w.live.erase b }) (fun _ => False) w.heap := by
  rcases hinv with ⟨-, hlive, -⟩ | ⟨ring, h⟩
  · rw [hlive] at hb
    exact absurd hb List.not_mem_nil
  · apply ((h.perm (List.perm_cons_erase hb)).free hlimit hn).imp
    rintro _ t ⟨ring', h', -⟩
    exact .inr ⟨ring', h'⟩

theorem Inv.write {a : Nat} {hd : Header} (hinv : Inv limit base w)
    (ha : ∃ b ∈ w.live, b.addr < a ∧ a < b.stop) :
    Inv limit base { w with heap := { w.heap with mem := upd w.heap.mem a hd } } := by
  obtain ⟨b, hb, hlt, hstop⟩ := ha
  have hhas : b.Has a := ⟨Nat.le_of_lt hlt, hstop⟩
  rcases hinv with ⟨-, hlive, -⟩ | ⟨ring, h⟩
  · rw [hlive] at hb
    exact absurd hb List.not_mem_nil
  · right
    refine ⟨ring, { h with linked := h.linked.congr fun x hx => ?_, kept := fun z hz => ?_ }⟩
    · refine upd_of_ne _ _ _ fun heq => h.ring_not_has hb hx ?_
      rw [heq]
      exact hhas
    · have hne : z.addr ≠ a := by
        intro heq
        by_cases hzb : z = b
        · rw [hzb] at heq
          omega
        · have hapart : Apart z b := h.apart.forall hz hb hzb
          exact hapart a (heq ▸ has_addr (h.sized z hz)) hhas
      simp only
      rw [upd_of_ne _ _ _ hne]
      exact h.kept z hz

theorem Inv.step (hbase : 0 < base) (hlimit : limit < 2 ^ 32) (hn : 2 * limit + 2 ≤ n)
    (hinv : Inv limit base w) (hstep : Step limit base n w c w') : Inv limit base w' := by
  cases c with
  | malloc nbytes =>
    simp only [Step, next] at hstep
    split at hstep
    next hunits =>
      have hwp := malloc_spec hbase hlimit (by rw [Nat.mul_comm]; exact hunits) hn hinv
      split at hstep
      next ap t ht =>
        have hnext := Inv.malloc (hwp.ok ht)
        split at hstep
        next hap =>
          rw [if_pos hap] at hnext
          exact Option.some.inj hstep ▸ hnext
        next hap =>
          rw [if_neg hap] at hnext
          exact Option.some.inj hstep ▸ hnext
      next => cases hstep
    next => cases hstep
  | free b =>
    simp only [Step, next] at hstep
    split at hstep
    next hb =>
      have hwp := free_spec_live hinv hlimit (show limit < n by omega) hb
      split at hstep
      next r t ht => exact Option.some.inj hstep ▸ hwp.ok ht
      next => cases hstep
    next => cases hstep
  | write a hd =>
    simp only [Step, next] at hstep
    split at hstep
    next ha => exact Option.some.inj hstep ▸ hinv.write ha
    next => cases hstep

end

structure FreeList (base : Nat) (s : State) (ring : List Block) : Prop where
  /-- Each block leads to the next, and the last one to `base`. -/
  linked : Linked base s.mem ring
  /-- `base` comes first, and the addresses go up, with gaps. -/
  ordered : Ordered base ring
  start : ∃ x ∈ ring, s.freep = x.addr

/-- The free blocks and the blocks of the program have all units that `sbrk` gave. -/
def Accounted (base : Nat) (w : World) : Prop :=
  w.heap.freep = 0 ∧ w.live = [] ∧ w.heap.obtained = 0 ∨
    ∃ ring, FreeList base w.heap ring ∧ total ring + total w.live = w.heap.obtained

/-- A block for a request, away from the other blocks of the program and from the headers of
the free list. -/
structure Suits (base : Nat) (live : List Block) (nbytes : UInt32) (t : State) (b : Block) : Prop where
  size : (t.mem b.addr).size = b.size
  enough : b.addr + unit + nbytes.toNat ≤ b.stop
  apart : ∀ x ∈ live, Apart b x
  headers : ∃ ring, FreeList base t ring ∧
    ∀ x ∈ ring, Apart b { addr := x.addr, size := 1 }

section

variable {limit base n : Nat} {w : World}

theorem Inv.accounted (h : Inv limit base w) : Accounted base w := by
  rcases h with ⟨hfreep, hlive, hobtained, -⟩ | ⟨ring, h⟩
  · exact .inl ⟨hfreep, hlive, hobtained⟩
  · exact .inr ⟨ring, ⟨h.linked, h.ordered, h.start⟩, h.units⟩

theorem Given.suits {nbytes : UInt32} {live : List Block} {ap : Nat} {t : State}
    (h : Given limit base (nunits nbytes) live ap t) :
    ∃ b, ap = b.addr + unit ∧ Suits base live nbytes t b := by
  obtain ⟨ring, b, h, hsize, rfl⟩ := h
  refine ⟨b, rfl, h.kept b List.mem_cons_self, ?_, (List.pairwise_cons.1 h.apart).1, ring,
    ⟨h.linked, h.ordered, h.start⟩, fun x hx a hba hxa => ?_⟩
  · change b.addr + 16 + nbytes.toNat ≤ b.addr + 16 * b.size
    rw [hsize]
    change b.addr + 16 + nbytes.toNat ≤ b.addr + 16 * ((nbytes.toNat + 16 - 1) / 16 + 1)
    omega
  · obtain ⟨hle, hlt⟩ := hxa
    change x.addr ≤ a at hle
    change a < x.addr + 16 * 1 at hlt
    rcases h.ordered.sized hx with rfl | hpos
    · have habove := h.bounds a (.inr ⟨b, List.mem_cons_self, hba⟩)
      simp only at hlt
      omega
    · have hstop := header_le_stop hpos
      exact h.disjoint b List.mem_cons_self a hba ⟨x, hx, hle, by omega⟩

end

/-- `limit` bounds the units that `sbrk` gives, and the loops take at most `n` rounds. -/
theorem umalloc_safe (limit base n top : Nat) (mem : Nat → Header) (sbrks : List (Option Nat))
    (calls : List Call) (w : World) (hbase : 0 < base) (htop : base + unit ≤ top)
    (hlimit : limit < 2 ^ 32) (hn : 2 * limit + 2 ≤ n)
    (hrun : Run (Step limit base n) (start mem top sbrks) calls w) :
    Accounted base w ∧
    (∀ nbytes, unit * nunits nbytes < 2 ^ 31 →
      ∃ ap t, malloc limit base n nbytes w.heap = .ok (ap, t) ∧
        (ap = 0 ∨ ∃ b, ap = b.addr + unit ∧ Suits base w.live nbytes t b)) ∧
    ∀ b ∈ w.live, ∃ t, free n (b.addr + unit) w.heap = .ok (⟨⟩, t) := by
  have hinv : Inv limit base w := by
    refine hrun.invariant (fun w c w' hinv hstep => hinv.step hbase hlimit hn hstep) ?_
    exact .inl ⟨rfl, rfl, rfl, htop⟩
  refine ⟨hinv.accounted, fun nbytes hunits => ?_, fun b hb => ?_⟩
  · have hwp := malloc_spec hbase hlimit (by rw [Nat.mul_comm]; exact hunits) hn hinv
    cases hr : malloc limit base n nbytes w.heap with
    | ok r =>
      refine ⟨r.1, r.2, rfl, ?_⟩
      rcases hwp.ok hr with ⟨hap, -⟩ | hgiven
      · exact .inl hap
      · exact .inr hgiven.suits
    | error e => exact (hwp.stop hr).elim
  · have hwp := free_spec_live hinv hlimit (show limit < n by omega) hb
    cases hr : free n (b.addr + unit) w.heap with
    | ok r => exact ⟨r.2, rfl⟩
    | error e => exact (hwp.stop hr).elim

def labelled (limit base n : Nat) (w : World) (c : Call) : Option (World × Call) :=
  (next limit base n w c).map fun t => (t, c)

theorem labelled_step {limit base n : Nat} (w : World) (c : Call) (t : World) (e : Call)
    (h : labelled limit base n w c = some (t, e)) : Step limit base n w e t := by
  obtain ⟨u, hu, heq⟩ := Option.map_eq_some_iff.1 h
  cases heq
  exact hu

/-- Three requests, the second of which is freed, and a write to the first block. -/
def sample : List Call :=
  [.malloc 100, .malloc 50, .malloc 8, .free { addr := 65360, size := 5 }, .write 65500 ⟨1, 2⟩]

theorem umalloc_safe_sample :
    ∃ calls w, Run (Step 10000 16 20002) (start (fun _ => ⟨0, 0⟩) 32 [some 0]) calls w ∧
      w.live.length = 2 ∧ w.heap.obtained = 4096 ∧ Accounted 16 w := by
  have hcheck : (trace (labelled 10000 16 20002) (start (fun _ => ⟨0, 0⟩) 32 [some 0]) sample).any
      (fun x => decide (x.1.live.length = 2 ∧ x.1.heap.obtained = 4096)) = true := by
    decide +kernel
  obtain ⟨⟨w, calls⟩, hw, hcheck⟩ := (Option.any_eq_true _ _).1 hcheck
  obtain ⟨hlive, hobtained⟩ := of_decide_eq_true hcheck
  have hrun := trace_run labelled_step hw
  exact ⟨calls, w, hrun, hlive, hobtained, (umalloc_safe 10000 16 20002 32 _ [some 0] calls w
    (by decide) (by decide) (by decide) (by decide) hrun).1⟩

def hoard : List Call :=
  List.replicate 33 (.malloc 2147483616) ++
    (List.range 33).map fun i => .free { addr := 32 + 2147483632 * i, size := 134217727 }

/-- The size of the last free block is a `uint` and has wrapped. -/
theorem umalloc_units_lost :
    ∃ calls w, Run (Step (2 ^ 33) 16 (2 ^ 34 + 2))
      (start (fun _ => ⟨0, 0⟩) 32 (List.replicate 33 (some 0))) calls w ∧ ¬Accounted 16 w := by
  have hcheck : (trace (labelled (2 ^ 33) 16 (2 ^ 34 + 2))
      (start (fun _ => ⟨0, 0⟩) 32 (List.replicate 33 (some 0))) hoard).any
      (fun x => decide (x.1.heap.mem 16 = ⟨32, 0⟩ ∧ x.1.heap.mem 32 = ⟨16, 134217695⟩ ∧
        x.1.heap.obtained = 4429184991 ∧ x.1.live = [])) = true := by
    decide +kernel
  obtain ⟨⟨w, calls⟩, hw, hcheck⟩ := (Option.any_eq_true _ _).1 hcheck
  obtain ⟨hbase, hblock, hobtained, hlive⟩ := of_decide_eq_true hcheck
  refine ⟨calls, w, trace_run labelled_step hw, ?_⟩
  rintro (⟨-, -, hzero⟩ | ⟨ring, hfree, htotal⟩)
  · simp only at hobtained hzero
    omega
  · obtain ⟨bs, rfl, -⟩ := hfree.ordered.head
    obtain ⟨hhead, hrest⟩ := linked_cons.1 hfree.linked
    rw [hbase, Header.mk.injEq] at hhead
    cases bs with
    | nil => exact absurd hhead.1 (by decide)
    | cons x bs =>
      have hx : 32 = x.addr := hhead.1
      obtain ⟨hnext, -⟩ := linked_cons.1 hrest
      rw [← hx, hblock, Header.mk.injEq] at hnext
      cases bs with
      | nil =>
        rw [hlive, total_cons, total_cons, total_nil, ← hnext.2, hobtained] at htotal
        exact absurd htotal (by decide)
      | cons y bs =>
        have hy : 16 = y.addr := hnext.1
        have hsort := (List.pairwise_cons.1 hfree.ordered.sorted).2
        have hlt := Gap.lt ((List.pairwise_cons.1 hsort).1 y List.mem_cons_self)
        omega

end Xv6.Umalloc
