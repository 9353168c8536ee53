import Mathlib

/-!
# Ring buffers

A ring buffer is a function on `Fin N` that is read from position `r` on, modulo
`N`.  `contents f r n` are the `n` elements from there.  Adding behind the last one
and removing the first are the operations of a queue, as long as it has at most
`N` elements.  Positions count only modulo `N`, so they may wrap at any multiple of it.
-/

namespace Xv6.Lib

universe u

variable {α : Type u} {N : Nat} [NeZero N] {f : Fin N → α} {r r' n : Nat} {x : α}

def contents (f : Fin N → α) (r n : Nat) : List α := (List.range n).map fun i => f (Fin.ofNat N (r + i))

@[simp] theorem length_contents : (contents f r n).length = n := by
  simp [contents]

@[simp] theorem contents_zero : contents f r 0 = [] := rfl

theorem contents_congr (h : r % N = r' % N) : contents f r n = contents f r' n := by
  unfold contents
  refine List.map_congr_left fun i _ => ?_
  congr 1
  apply Fin.ext
  show (r + i) % N = (r' + i) % N
  rw [Nat.add_mod, h, ← Nat.add_mod]

theorem contents_succ : contents f r (n + 1) = f (Fin.ofNat N r) :: contents f (r + 1) n := by
  unfold contents
  rw [List.range_succ_eq_map, List.map_cons, List.map_map]
  refine congrArg _ (List.map_congr_left fun i _ => ?_)
  show f (Fin.ofNat N (r + (i + 1))) = f (Fin.ofNat N (r + 1 + i))
  rw [Nat.add_assoc, Nat.add_comm 1 i]

theorem ofNat_ne {i j : Nat} (hij : i < j) (hj : j < N) :
    Fin.ofNat N (r + i) ≠ Fin.ofNat N (r + j) := by
  intro heq
  have hmod : (r + i) % N = (r + j) % N := congrArg Fin.val heq
  have hdvd : N ∣ (r + j) - (r + i) :=
    Nat.dvd_of_mod_eq_zero (Nat.sub_mod_eq_zero_of_mod_eq hmod.symm)
  have hzero := Nat.eq_zero_of_dvd_of_lt hdvd (by omega)
  omega

theorem contents_push (h : n < N) :
    contents (Function.update f (Fin.ofNat N (r + n)) x) r (n + 1) = contents f r n ++ [x] := by
  unfold contents
  rw [List.range_succ, List.map_append, List.map_singleton, Function.update_self]
  refine congrArg (· ++ [x]) (List.map_congr_left fun i hi => ?_)
  exact Function.update_of_ne (ofNat_ne (List.mem_range.1 hi) h) _ _

/-!
## Free-running counters

The producer's counter `hi` and the consumer's `lo` have 16 bits and are reduced modulo
`N` only where the ring is accessed.
-/

structure Window (f : Fin N → α) (lo hi : UInt16) (l : List α) : Prop where
  hi_eq : hi = lo + UInt16.ofNat l.length
  items : contents f lo.toNat l.length = l

namespace Window

variable {lo hi : UInt16} {l : List α}

theorem nil (f : Fin N → α) (lo : UInt16) : Window f lo lo [] := by
  constructor
  · change lo = lo + 0
    rw [UInt16.add_zero]
  · rfl

theorem eq_iff (h : Window f lo hi l) (hlen : l.length < 2 ^ 16) : lo = hi ↔ l = [] := by
  rw [h.hi_eq]
  constructor
  · intro heq
    have hnat := congrArg UInt16.toNat heq
    rw [UInt16.toNat_add, UInt16.toNat_ofNat_of_lt' hlen] at hnat
    have hlo := lo.toNat_lt
    rw [← List.length_eq_zero_iff]
    omega
  · rintro rfl
    exact (UInt16.add_zero lo).symm

theorem slot_congr (hN : N ∣ 2 ^ 16) (i : UInt16) (n : Nat) :
    Fin.ofNat N (i + UInt16.ofNat n).toNat = Fin.ofNat N (i.toNat + n) := by
  apply Fin.ext
  change (i + UInt16.ofNat n).toNat % N = (i.toNat + n) % N
  rw [UInt16.toNat_add, UInt16.toNat_ofNat', Nat.mod_mod_of_dvd _ hN, Nat.add_mod,
    Nat.mod_mod_of_dvd _ hN, ← Nat.add_mod]

theorem pop {l : List α} (hN : N ∣ 2 ^ 16) (h : Window f lo hi (x :: l)) :
    f (Fin.ofNat N lo.toNat) = x ∧ Window f (lo + 1) hi l := by
  have hitems := h.items
  rw [List.length_cons, contents_succ] at hitems
  injection hitems with hfirst hrest
  refine ⟨hfirst, ?_, ?_⟩
  · rw [h.hi_eq, List.length_cons, Nat.add_comm, UInt16.ofNat_add, UInt16.add_assoc]
    rfl
  · rw [← hrest]
    simp only [length_contents]
    apply contents_congr
    have hslot := congrArg Fin.val (slot_congr (N := N) hN lo 1)
    exact hslot

theorem write {g : Fin N → α} (hN : N ∣ 2 ^ 16) (h : Window f lo hi l) (hlen : l.length < N)
    (hg : ∀ k, k ≠ Fin.ofNat N hi.toNat → g k = f k) : Window g lo hi l := by
  constructor
  · exact h.hi_eq
  · rw [h.hi_eq, slot_congr hN] at hg
    calc contents g lo.toNat l.length = contents f lo.toNat l.length := by
          apply List.map_congr_left
          intro i hi
          exact hg _ (ofNat_ne (List.mem_range.1 hi) hlen)
      _ = l := h.items

theorem bump (hN : N ∣ 2 ^ 16) (h : Window f lo hi l) (hx : f (Fin.ofNat N hi.toNat) = x) :
    Window f lo (hi + 1) (l ++ [x]) := by
  constructor
  · rw [List.length_append, List.length_singleton, UInt16.ofNat_add, ← UInt16.add_assoc, ← h.hi_eq]
    rfl
  · rw [h.hi_eq, slot_congr hN] at hx
    calc contents f lo.toNat (l ++ [x]).length
        = contents f lo.toNat l.length ++ [f (Fin.ofNat N (lo.toNat + l.length))] := by
          rw [List.length_append, List.length_singleton]
          unfold contents
          rw [List.range_succ, List.map_append, List.map_singleton]
      _ = l ++ [x] := by rw [h.items, hx]

end Window

end Xv6.Lib
