import Xv6.Lib.Bytes

/-!
# `memmove` of the kernel and of the user library

Both copy byte by byte, up or down, and choose the direction by a test of the addresses.  The
kernel's length is a `uint`, the user library's an `int`.  Pointers are 64-bit words.
-/

namespace Xv6.Ulib

open Lib

abbrev Ptr := BitVec 64

abbrev Memory := Ptr → UInt8

/-- `while(n-- > 0) *d++ = *s++;` -/
def copyUp : Nat → Memory → Ptr → Ptr → Memory
  | 0, m, _, _ => m
  | n + 1, m, d, s => copyUp n (upd m d (m s)) (d + 1) (s + 1)

/-- `while(n-- > 0) *--d = *--s;` -/
def copyDown : Nat → Memory → Ptr → Ptr → Memory
  | 0, m, _, _ => m
  | n + 1, m, d, s => copyDown n (upd m (d - 1) (m (s - 1))) (d - 1) (s - 1)

/-- `memmove` of `kernel/string.c` -/
def kernelMemmove (m : Memory) (dst src : Ptr) (n : BitVec 32) : Memory :=
  if src < dst ∧ dst < src + n.setWidth 64 then
    copyDown n.toNat m (dst + n.setWidth 64) (src + n.setWidth 64)
  else copyUp n.toNat m dst src

/-- `memmove` of `user/ulib.c` -/
def userMemmove (m : Memory) (dst src : Ptr) (n : BitVec 32) : Memory :=
  if dst < src then copyUp n.toInt.toNat m dst src
  else copyDown n.toInt.toNat m (dst + n.signExtend 64) (src + n.signExtend 64)

/-- `m'` has the `n` bytes that `m` has at `src` at `dst`, and all others of `m`. -/
structure Snapshot (m m' : Memory) (dst src : Ptr) (n : Nat) : Prop where
  content : ∀ i, i < n → m' (dst + BitVec.ofNat 64 i) = m (src + BitVec.ofNat 64 i)
  frame : ∀ a, (∀ i, i < n → a ≠ dst + BitVec.ofNat 64 i) → m' a = m a

/-- The addresses of byte `i`. -/
def pair (dst src : Ptr) (i : Nat) : Ptr × Ptr := (dst + BitVec.ofNat 64 i, src + BitVec.ofNat 64 i)

section

variable {m m' : Memory} {dst src : Ptr} {n : Nat}

theorem Snapshot.unique {m'' : Memory} (h : Snapshot m m' dst src n)
    (h' : Snapshot m m'' dst src n) : m' = m'' := by
  funext a
  by_cases ha : ∃ i, i < n ∧ a = dst + BitVec.ofNat 64 i
  · obtain ⟨i, hi, rfl⟩ := ha
    rw [h.content i hi, h'.content i hi]
  · have hout : ∀ i, i < n → a ≠ dst + BitVec.ofNat 64 i := fun i hi heq => ha ⟨i, hi, heq⟩
    rw [h.frame a hout, h'.frame a hout]

theorem snapshot_copyAll {l : List Nat} (hmem : ∀ i, i ∈ l ↔ i < n)
    (hl : l.Pairwise fun i j => dst + BitVec.ofNat 64 i ≠ dst + BitVec.ofNat 64 j ∧
      dst + BitVec.ofNat 64 i ≠ src + BitVec.ofNat 64 j) :
    Snapshot m (copyAll m (l.map (pair dst src))) dst src n where
  content i hi := by
    have hp : pair dst src i ∈ l.map (pair dst src) := List.mem_map_of_mem ((hmem i).2 hi)
    exact copyAll_of_mem (List.pairwise_map.2 hl) hp
  frame a ha := by
    apply copyAll_of_not_mem
    intro p hp
    obtain ⟨i, hi, rfl⟩ := List.mem_map.1 hp
    exact ha i ((hmem i).1 hi)

theorem pair_succ (dst src : Ptr) (i : Nat) : pair (dst + 1) (src + 1) i = pair dst src (i + 1) := by
  have hword (p : Ptr) : p + 1 + BitVec.ofNat 64 i = p + BitVec.ofNat 64 (i + 1) := by
    rw [BitVec.ofNat_add, BitVec.add_assoc, BitVec.add_comm 1]
    rfl
  exact Prod.ext (hword dst) (hword src)

theorem copyUp_eq : copyUp n m dst src = copyAll m ((List.range n).map (pair dst src)) := by
  induction n generalizing m dst src with
  | zero => rfl
  | succ n ih =>
    have hpairs : (List.range n).map (pair (dst + 1) (src + 1)) =
        (List.range n).map (pair dst src ∘ Nat.succ) :=
      List.map_congr_left fun i _ => pair_succ dst src i
    rw [copyUp, ih, hpairs, List.range_succ_eq_map, List.map_cons, List.map_map]
    simp [copyAll, pair]

theorem copyDown_eq : copyDown n m (dst + BitVec.ofNat 64 n) (src + BitVec.ofNat 64 n) =
    copyAll m ((List.range n).reverse.map (pair dst src)) := by
  induction n generalizing m with
  | zero => rfl
  | succ n ih =>
    have hword (p : Ptr) : p + BitVec.ofNat 64 (n + 1) - 1 = p + BitVec.ofNat 64 n := by
      rw [BitVec.ofNat_add, ← BitVec.add_assoc]
      exact BitVec.add_sub_cancel _ _
    rw [copyDown, hword, hword, ih, List.range_succ, List.reverse_concat, List.map_cons]
    rfl

theorem toNat_offset {p : Ptr} {i : Nat} (h : p.toNat + i < 2 ^ 64) :
    (p + BitVec.ofNat 64 i).toNat = p.toNat + i := by
  rw [BitVec.toNat_add, BitVec.toNat_ofNat, Nat.mod_eq_of_lt (show i < 2 ^ 64 by omega),
    Nat.mod_eq_of_lt h]

theorem offset_ne {p q : Ptr} {i j : Nat} (hp : p.toNat + i < 2 ^ 64) (hq : q.toNat + j < 2 ^ 64)
    (h : p.toNat + i ≠ q.toNat + j) : p + BitVec.ofNat 64 i ≠ q + BitVec.ofNat 64 j := by
  intro heq
  have hnat := congrArg BitVec.toNat heq
  rw [toNat_offset hp, toNat_offset hq] at hnat
  exact h hnat

/-- Upwards, a byte is written before the ones above it are read. -/
theorem snapshot_copyUp (hdst : dst.toNat + n ≤ 2 ^ 64) (hsrc : src.toNat + n ≤ 2 ^ 64)
    (h : dst.toNat ≤ src.toNat ∨ src.toNat + n ≤ dst.toNat) :
    Snapshot m (copyUp n m dst src) dst src n := by
  rw [copyUp_eq]
  refine snapshot_copyAll (fun i => List.mem_range) ?_
  apply List.pairwise_lt_range.imp_of_mem
  intro i j hi hj hij
  rw [List.mem_range] at hi hj
  exact ⟨offset_ne (by omega) (by omega) (by omega), offset_ne (by omega) (by omega) (by omega)⟩

theorem snapshot_copyDown (hdst : dst.toNat + n ≤ 2 ^ 64) (hsrc : src.toNat + n ≤ 2 ^ 64)
    (h : src.toNat ≤ dst.toNat) :
    Snapshot m (copyDown n m (dst + BitVec.ofNat 64 n) (src + BitVec.ofNat 64 n)) dst src n := by
  rw [copyDown_eq]
  refine snapshot_copyAll (fun i => by rw [List.mem_reverse, List.mem_range]) ?_
  rw [List.pairwise_reverse]
  apply List.pairwise_lt_range.imp_of_mem
  intro i j hi hj hij
  rw [List.mem_range] at hi hj
  exact ⟨offset_ne (by omega) (by omega) (by omega), offset_ne (by omega) (by omega) (by omega)⟩

end

section

variable {m : Memory} {dst src : Ptr} {n : BitVec 32}

theorem snapshot_kernel (hdst : dst.toNat + n.toNat ≤ 2 ^ 64) (hsrc : src.toNat + n.toNat ≤ 2 ^ 64) :
    Snapshot m (kernelMemmove m dst src n) dst src n.toNat := by
  have hn : n.setWidth 64 = BitVec.ofNat 64 n.toNat := (BitVec.ofNat_toNat 64 n).symm
  unfold kernelMemmove
  rw [hn]
  by_cases hlt : src.toNat < dst.toNat
  · have hend : (src + BitVec.ofNat 64 n.toNat).toNat = src.toNat + n.toNat := toNat_offset (by omega)
    by_cases hover : dst.toNat < src.toNat + n.toNat
    · rw [if_pos ⟨hlt, by rw [BitVec.lt_def, hend]; exact hover⟩]
      exact snapshot_copyDown hdst hsrc (Nat.le_of_lt hlt)
    · rw [if_neg (by rw [BitVec.lt_def, BitVec.lt_def, hend]; omega)]
      exact snapshot_copyUp hdst hsrc (by omega)
  · rw [if_neg fun h => hlt h.1]
    exact snapshot_copyUp hdst hsrc (by omega)

theorem snapshot_user (hdst : dst.toNat + n.toInt.toNat ≤ 2 ^ 64)
    (hsrc : src.toNat + n.toInt.toNat ≤ 2 ^ 64) :
    Snapshot m (userMemmove m dst src n) dst src n.toInt.toNat := by
  unfold userMemmove
  by_cases hlt : dst < src
  · have hle : dst.toNat < src.toNat := hlt
    rw [if_pos hlt]
    exact snapshot_copyUp hdst hsrc (by omega)
  · have hle : ¬dst.toNat < src.toNat := hlt
    rw [if_neg hlt]
    by_cases hneg : n.toInt < 0
    · rw [Int.toNat_of_nonpos (by omega)]
      exact ⟨fun i hi => absurd hi (Nat.not_lt_zero i), fun _ _ => rfl⟩
    · have hn : n.signExtend 64 = BitVec.ofNat 64 n.toInt.toNat := by
        rw [BitVec.signExtend, ← BitVec.ofInt_natCast, Int.toNat_of_nonneg (by omega)]
      rw [hn]
      exact snapshot_copyDown hdst hsrc (by omega)

/-- Both copy a snapshot of the source range and nothing else, whatever the overlap, and they
agree on every length that is one for both. -/
theorem memmove_snapshot (m : Memory) (dst src : Ptr) (n : BitVec 32) :
    (dst.toNat + n.toNat ≤ 2 ^ 64 → src.toNat + n.toNat ≤ 2 ^ 64 →
      Snapshot m (kernelMemmove m dst src n) dst src n.toNat) ∧
    (dst.toNat + n.toInt.toNat ≤ 2 ^ 64 → src.toNat + n.toInt.toNat ≤ 2 ^ 64 →
      Snapshot m (userMemmove m dst src n) dst src n.toInt.toNat) ∧
    (0 ≤ n.toInt → dst.toNat + n.toNat ≤ 2 ^ 64 → src.toNat + n.toNat ≤ 2 ^ 64 →
      kernelMemmove m dst src n = userMemmove m dst src n) := by
  refine ⟨snapshot_kernel, snapshot_user, fun hpos hdst hsrc => ?_⟩
  have hlen : n.toInt.toNat = n.toNat := by
    have hnat := BitVec.toInt_eq_toNat_cond n
    have hlt := n.isLt
    split at hnat <;> omega
  have huser : Snapshot m (userMemmove m dst src n) dst src n.toNat := by
    rw [← hlen] at hdst hsrc ⊢
    exact snapshot_user hdst hsrc
  exact (snapshot_kernel hdst hsrc).unique huser

def ramp : Memory := fun a => UInt8.ofNat a.toNat

theorem memmove_snapshot_ramp : kernelMemmove ramp 5 4 3 = userMemmove ramp 5 4 3 :=
  (memmove_snapshot ramp 5 4 3).2.2 (by decide) (by decide) (by decide)

end

end Xv6.Ulib
