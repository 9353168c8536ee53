import Xv6.Fs.Types

/-!
# The memory of a process, byte by byte

What `copyout` and `copyin` do, without their loops over pages.
-/

namespace Xv6.Fs

open Lib

/-- The byte at a user address, if it is mapped. -/
def UserMem.byte (mem : UserMem) (va : Nat) : Option UInt8 :=
  (mem (va / 4096)).map fun page => page (va % 4096)

section

variable {mem : UserMem} {va dstva len : Nat}

theorem UserMem.page_of_byte (h : (mem.byte va).isSome) : ∃ page, mem (va / 4096) = some page := by
  unfold UserMem.byte at h
  rw [Option.isSome_map] at h
  exact Option.isSome_iff_exists.1 h

theorem UserMem.byte_upd (src : Bytes) (o : Nat) {page : Bytes} {n : Nat}
    (hpage : mem (dstva / 4096) = some page) (hn : dstva % 4096 + n ≤ 4096) (va : Nat) :
    UserMem.byte (upd mem (dstva / 4096)
      (some (blit page (dstva % 4096) n fun j => src (o + j)))) va =
      if dstva ≤ va ∧ va < dstva + n then some (src (o + (va - dstva))) else mem.byte va := by
  unfold UserMem.byte
  by_cases hva : va / 4096 = dstva / 4096
  · rw [hva, upd_self, hpage]
    by_cases hin : dstva ≤ va ∧ va < dstva + n
    · rw [if_pos hin, Option.map_some, blit_inside (by omega) (by omega)]
      congr 3
      omega
    · rw [if_neg hin, Option.map_some, blit_outside (by omega), Option.map_some]
  · rw [upd_of_ne _ _ _ hva, if_neg (by omega)]

/-- `copyout` to mapped memory writes the bytes, and only them. -/
theorem copyout_byte (src : Bytes) (o : Nat) {fuel : Nat} (hfuel : len < fuel)
    (hmapped : ∀ i, i < len → (mem.byte (dstva + i)).isSome) :
    (copyout src mem fuel o dstva len).2 = true ∧
    ∀ va, (copyout src mem fuel o dstva len).1.byte va =
      if dstva ≤ va ∧ va < dstva + len then some (src (o + (va - dstva))) else mem.byte va := by
  induction fuel generalizing mem o dstva len with
  | zero => omega
  | succ fuel ih =>
    unfold copyout
    by_cases hlen : len = 0
    · rw [if_pos hlen]
      refine ⟨rfl, fun va => ?_⟩
      rw [if_neg (by omega)]
    rw [if_neg hlen]
    obtain ⟨page, hpage⟩ := UserMem.page_of_byte (hmapped 0 (by omega))
    rw [Nat.add_zero] at hpage
    simp only [hpage]
    have hbyte := UserMem.byte_upd src o hpage
      (show dstva % 4096 + min (4096 - dstva % 4096) len ≤ 4096 by omega)
    have hnext : ∀ i, i < len - min (4096 - dstva % 4096) len →
        (UserMem.byte (upd mem (dstva / 4096) (some (blit page (dstva % 4096)
          (min (4096 - dstva % 4096) len) fun j => src (o + j))))
          ((dstva / 4096 + 1) * 4096 + i)).isSome := by
      intro i hi
      rw [hbyte, if_neg (by omega)]
      have := hmapped ((dstva / 4096 + 1) * 4096 + i - dstva) (by omega)
      rwa [show dstva + ((dstva / 4096 + 1) * 4096 + i - dstva) =
        (dstva / 4096 + 1) * 4096 + i by omega] at this
    obtain ⟨hok, hrest⟩ := ih (o + min (4096 - dstva % 4096) len) (by omega) hnext
    refine ⟨hok, fun va => ?_⟩
    rw [hrest va]
    by_cases hlater : (dstva / 4096 + 1) * 4096 ≤ va ∧
        va < (dstva / 4096 + 1) * 4096 + (len - min (4096 - dstva % 4096) len)
    · rw [if_pos hlater, if_pos (by omega)]
      congr 2
      omega
    · rw [if_neg hlater, hbyte]
      by_cases hnow : dstva ≤ va ∧ va < dstva + min (4096 - dstva % 4096) len
      · rw [if_pos hnow, if_pos (by omega)]
      · rw [if_neg hnow, if_neg (by omega)]

/-- `copyout` writes nothing outside of its range, also where it fails. -/
theorem copyout_outside (src : Bytes) {o fuel va : Nat} (hva : va < dstva ∨ dstva + len ≤ va) :
    (copyout src mem fuel o dstva len).1.byte va = mem.byte va := by
  induction fuel generalizing mem o dstva len with
  | zero => rfl
  | succ fuel ih =>
    unfold copyout
    by_cases hlen : len = 0
    · rw [if_pos hlen]
    rw [if_neg hlen]
    cases hpage : mem (dstva / 4096) with
    | none => rfl
    | some page =>
      have hbyte := UserMem.byte_upd src o hpage
        (show dstva % 4096 + min (4096 - dstva % 4096) len ≤ 4096 by omega) va
      simp only
      rw [ih (by omega), hbyte, if_neg (by omega)]

theorem mapped_of_copyout (src : Bytes) (o : Nat) {fuel : Nat} (hfuel : len < fuel)
    (hok : (copyout src mem fuel o dstva len).2 = true) :
    ∀ i, i < len → (mem.byte (dstva + i)).isSome := by
  induction fuel generalizing mem o dstva len with
  | zero => omega
  | succ fuel ih =>
    intro i hi
    unfold copyout at hok
    rw [if_neg (by omega)] at hok
    cases hpage : mem (dstva / 4096) with
    | none =>
      rw [hpage] at hok
      cases hok
    | some page =>
      simp only [hpage] at hok
      have hbyte := UserMem.byte_upd src o hpage
        (show dstva % 4096 + min (4096 - dstva % 4096) len ≤ 4096 by omega)
      by_cases hnow : i < min (4096 - dstva % 4096) len
      · rw [UserMem.byte, show (dstva + i) / 4096 = dstva / 4096 by omega, hpage]
        rfl
      · have hrest := ih _ (by omega) hok (dstva + i - (dstva / 4096 + 1) * 4096) (by omega)
        rw [show (dstva / 4096 + 1) * 4096 + (dstva + i - (dstva / 4096 + 1) * 4096) = dstva + i
          by omega, hbyte, if_neg (by omega)] at hrest
        exact hrest

end

section

variable {mem : UserMem} {srcva len : Nat}

theorem copyin_zero (d : Bytes) (fuel dst : Nat) : copyin mem d fuel dst srcva 0 = (d, true) := by
  cases fuel with
  | zero => rfl
  | succ fuel =>
    unfold copyin
    rw [if_pos rfl]

theorem copyin_byte (d : Bytes) (dst : Nat) {fuel : Nat} (hfuel : len < fuel)
    (hmapped : ∀ i, i < len → (mem.byte (srcva + i)).isSome) :
    copyin mem d fuel dst srcva len =
      (blit d dst len fun j => (mem.byte (srcva + j)).getD 0, true) := by
  induction fuel generalizing d dst srcva len with
  | zero => omega
  | succ fuel ih =>
    unfold copyin
    by_cases hlen : len = 0
    · rw [if_pos hlen, hlen]
      have hnone : blit d dst 0 (fun j => (mem.byte (srcva + j)).getD 0) = d := by
        funext i
        exact blit_outside (by omega)
      rw [hnone]
    rw [if_neg hlen]
    obtain ⟨page, hpage⟩ := UserMem.page_of_byte (hmapped 0 (by omega))
    rw [Nat.add_zero] at hpage
    simp only [hpage]
    generalize hn : min (4096 - srcva % 4096) len = n
    have hbyte : ∀ j, j < n → page (srcva % 4096 + j) = (mem.byte (srcva + j)).getD 0 := by
      intro j hj
      have hdiv : (srcva + j) / 4096 = srcva / 4096 := by omega
      have hmod : (srcva + j) % 4096 = srcva % 4096 + j := by omega
      rw [UserMem.byte, hdiv, hmod, hpage]
      rfl
    have hpiece : blit d dst n (fun j => page (srcva % 4096 + j)) =
        blit d dst n fun j => (mem.byte (srcva + j)).getD 0 := by
      funext i
      by_cases hin : dst ≤ i ∧ i < dst + n
      · rw [blit_inside hin.1 hin.2, blit_inside hin.1 hin.2, hbyte _ (by omega)]
      · rw [blit_outside (by omega), blit_outside (by omega)]
    by_cases hlast : n = len
    · subst hlast
      rw [hpiece, Nat.sub_self, copyin_zero]
    · have hnext : (srcva / 4096 + 1) * 4096 = srcva + n := by omega
      rw [hnext, ih _ _ (by omega) fun i hi => by rw [Nat.add_assoc]; exact hmapped _ (by omega)]
      have hrest := blit_blit d (fun j => (mem.byte (srcva + j)).getD 0) dst n (len - n)
      simp only [← Nat.add_assoc] at hrest
      rw [hpiece, hrest, show n + (len - n) = len by omega]

/-- `copyin` writes nothing outside of its range, also where it fails. -/
theorem copyin_outside (d : Bytes) {fuel dst i : Nat} (hi : i < dst ∨ dst + len ≤ i) :
    (copyin mem d fuel dst srcva len).1 i = d i := by
  induction fuel generalizing d dst srcva len with
  | zero => rfl
  | succ fuel ih =>
    unfold copyin
    by_cases hlen : len = 0
    · rw [if_pos hlen]
    rw [if_neg hlen]
    cases hpage : mem (srcva / 4096) with
    | none => rfl
    | some page =>
      simp only
      rw [ih _ (by omega), blit_outside (by omega)]

theorem mapped_of_copyin (d : Bytes) (dst : Nat) {fuel : Nat} (hfuel : len < fuel)
    (hok : (copyin mem d fuel dst srcva len).2 = true) :
    ∀ i, i < len → (mem.byte (srcva + i)).isSome := by
  induction fuel generalizing d dst srcva len with
  | zero => omega
  | succ fuel ih =>
    intro i hi
    unfold copyin at hok
    rw [if_neg (by omega)] at hok
    cases hpage : mem (srcva / 4096) with
    | none =>
      rw [hpage] at hok
      cases hok
    | some page =>
      simp only [hpage] at hok
      by_cases hnow : i < min (4096 - srcva % 4096) len
      · rw [UserMem.byte, show (srcva + i) / 4096 = srcva / 4096 by omega, hpage]
        rfl
      · have hrest := ih _ _ (by omega) hok (srcva + i - (srcva / 4096 + 1) * 4096) (by omega)
        rwa [show (srcva / 4096 + 1) * 4096 + (srcva + i - (srcva / 4096 + 1) * 4096) =
          srcva + i by omega] at hrest

theorem copyin_none (d : Bytes) (dst : Nat) {fuel : Nat} (hfuel : 0 < fuel) (hlen : 0 < len)
    (hnone : mem.byte srcva = none) : copyin mem d fuel dst srcva len = (d, false) := by
  have hpage : mem (srcva / 4096) = none := Option.map_eq_none_iff.1 hnone
  cases fuel with
  | zero => omega
  | succ fuel =>
    unfold copyin
    rw [if_neg (by omega), hpage]

end

end Xv6.Fs
