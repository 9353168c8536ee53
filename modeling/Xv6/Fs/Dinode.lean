import Xv6.Fs.Types

/-!
# Inodes and directory entries in their blocks

Storing an inode and reading it back, and reading another one; and where an inode says
that the pieces of its file are.
-/

namespace Xv6.Fs

open Lib

def ptr (bufs : Nat → Bytes) (d : Dinode) (j : Nat) : Nat :=
  if h : j < 12 then (getElem d.addrs j (direct_lt h)).toNat
  else if d.indirect = 0 then 0
  else word (bufs d.indirect.toNat) (4 * (j - 12)) 4

theorem short_toNat (v : Int16) : short v.toUInt16.toNat = v := by
  unfold short
  rw [UInt16.ofNat_toNat]

theorem word_bytes {d : Bytes} {o k v : Nat} (hv : v < 256 ^ k)
    (h : ∀ i, i < k → d (o + i) = byteOf v i) : word d o k = v := by
  rw [word_of_bytes h, Nat.mod_eq_of_lt hv]

section

variable {x : Dinode} {d : Bytes} {o o' : Nat}

theorem store_byte (x : Dinode) (d : Bytes) (o : Nat) {j : Nat} (hj : j < 64) :
    x.store d o (o + j) = x.bytes j := by
  unfold Dinode.store
  rw [blit_inside (by omega) (by omega)]
  congr 1
  omega

theorem load_store (x : Dinode) (d : Bytes) (o : Nat) : Dinode.load (x.store d o) o = x := by
  have hword : ∀ (k n v : Nat), k + n ≤ 64 → v < 256 ^ n →
      (∀ i, i < n → x.bytes (k + i) = byteOf v i) → word (x.store d o) (o + k) n = v := by
    intro k n v hk hv hbytes
    apply word_bytes hv
    intro i hi
    rw [Nat.add_assoc, store_byte x d o (by omega), hbytes i hi]
  have hshort : ∀ (k : Nat) (v : Int16), k + 2 ≤ 64 →
      (∀ i, i < 2 → x.bytes (k + i) = byteOf v.toUInt16.toNat i) →
      short (word (x.store d o) (o + k) 2) = v := by
    intro k v hk hbytes
    rw [hword k 2 v.toUInt16.toNat hk (by have := v.toUInt16.toNat_lt; omega) hbytes, short_toNat]
  have htype := hshort 0 x.type (by omega) fun i hi => by
    simp [Dinode.bytes, hi]
  have hmajor := hshort 2 x.major (by omega) fun i hi => by
    simp [Dinode.bytes, show ¬2 + i < 2 by omega, show 2 + i < 4 by omega]
  have hminor := hshort 4 x.minor (by omega) fun i hi => by
    simp [Dinode.bytes, show ¬4 + i < 2 by omega, show ¬4 + i < 4 by omega, show 4 + i < 6 by omega]
  have hnlink := hshort 6 x.nlink (by omega) fun i hi => by
    simp [Dinode.bytes, show ¬6 + i < 2 by omega, show ¬6 + i < 4 by omega, show ¬6 + i < 6 by omega,
      show 6 + i < 8 by omega]
  have hsize := hword 8 4 x.size.toNat (by omega) (by have := x.size.toNat_lt; omega) fun i hi => by
    simp [Dinode.bytes, show ¬8 + i < 2 by omega, show ¬8 + i < 4 by omega, show ¬8 + i < 6 by omega,
      show ¬8 + i < 8 by omega, show 8 + i < 12 by omega]
  have haddr : ∀ k : Fin 13, word (x.store d o) (o + (12 + 4 * k.val)) 4 = x.addrs[k].toNat := by
    intro k
    have hk := k.isLt
    apply hword _ _ _ (by omega) (by have := x.addrs[k].toNat_lt; omega)
    intro i hi
    have hfin : Fin.ofNat 13 ((12 + 4 * k.val + i - 12) / 4) = k := by
      apply Fin.ext
      change (12 + 4 * k.val + i - 12) / 4 % 13 = k.val
      omega
    have hmod : (12 + 4 * k.val + i - 12) % 4 = i := by omega
    unfold Dinode.bytes
    rw [if_neg (by omega), if_neg (by omega), if_neg (by omega), if_neg (by omega),
      if_neg (by omega)]
    simp only [hfin, hmod]
  unfold Dinode.load
  rw [Nat.add_zero] at htype
  rw [htype, hmajor, hminor, hnlink, hsize, UInt32.ofNat_toNat]
  cases x with
  | mk type major minor nlink size addrs =>
    simp only [Dinode.mk.injEq, true_and]
    apply Vector.ext
    intro i hi
    rw [Vector.getElem_ofFn, Nat.add_assoc]
    have := haddr ⟨i, hi⟩
    dsimp only at this
    rw [this]
    exact UInt32.ofNat_toNat

theorem load_congr {d' : Bytes} (h : ∀ j, o ≤ j → j < o + 64 → d j = d' j) :
    Dinode.load d o = Dinode.load d' o := by
  have hword : ∀ k n, k + n ≤ 64 → word d (o + k) n = word d' (o + k) n := by
    intro k n hk
    apply word_congr
    intro i hi hi'
    exact h i (by omega) (by omega)
  have h0 := hword 0 2 (by omega)
  rw [Nat.add_zero] at h0
  unfold Dinode.load
  rw [h0, hword 2 2 (by omega), hword 4 2 (by omega), hword 6 2 (by omega), hword 8 4 (by omega)]
  simp only [Dinode.mk.injEq, true_and]
  congr 1
  funext k
  rw [Nat.add_assoc, hword _ 4 (by have := k.isLt; omega)]

theorem load_store_of_ne (h : o' + 64 ≤ o ∨ o + 64 ≤ o') :
    Dinode.load (x.store d o) o' = Dinode.load d o' := by
  apply load_congr
  intro j hj hj'
  exact blit_outside (by omega)

end

theorem ptr_congr {bufs : Nat → Bytes} {d d' : Dinode} (h : d.addrs = d'.addrs) (j : Nat) :
    ptr bufs d j = ptr bufs d' j := by
  unfold ptr Dinode.indirect
  rw [h]

theorem load_bytes {de : Dirent} (hinum : de.inum < 65536) (hname : de.name.length = 14) {d : Bytes}
    (h : ∀ j, j < 16 → d j = de.bytes j) : Dirent.load d = de := by
  have hword : word d 0 2 = de.inum := by
    apply word_bytes (by omega)
    intro i hi
    rw [Nat.zero_add, h i (by omega), Dirent.bytes, if_pos hi]
  have hlist : (List.range' 2 14).map d = de.name := by
    apply List.ext_getElem
    · simp [hname]
    · intro i hi hi'
      simp only [List.length_map, List.length_range'] at hi
      rw [List.getElem_map, List.getElem_range', h _ (by omega), Dirent.bytes, if_neg (by omega)]
      rw [show 2 + 1 * i - 2 = i by omega, List.getD_eq_getElem?_getD, List.getElem?_eq_getElem hi', Option.getD_some]
  unfold Dirent.load
  rw [hword, hlist]

end Xv6.Fs
