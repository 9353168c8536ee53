import Xv6.Vm.Code

/-!
# Page-table entries

An entry holds the address of a page and ten flags, and the indices of the three levels are
those of a number of three digits.
-/

namespace Xv6.Vm

theorem pte_eq_add {pa flags : Nat} (h : flags < 1024) : PA2PTE pa ||| flags = PA2PTE pa + flags := by
  have hshift : PA2PTE pa = (pa / 4096) <<< 10 := by
    rw [PA2PTE, Nat.shiftLeft_eq]
  rw [hshift]
  exact (Nat.shiftLeft_add_eq_or_of_lt h _).symm

theorem pte_and {m flags mask : Nat} (h : flags < 1024) (hmask : mask < 1024) :
    (m * 1024 + flags) &&& mask = flags &&& mask := by
  apply Nat.eq_of_testBit_eq
  intro i
  rw [Nat.testBit_and, Nat.testBit_and]
  by_cases hi : i < 10
  · rw [Nat.mul_comm, show 1024 = 2 ^ 10 from rfl, Nat.testBit_two_pow_mul_add _ h, if_pos hi]
  · have hbit : mask.testBit i = false := by
      apply Nat.testBit_lt_two_pow
      calc mask < 2 ^ 10 := hmask
        _ ≤ 2 ^ i := Nat.pow_le_pow_right (by decide) (by omega)
    rw [hbit, Bool.and_false, Bool.and_false]

section

variable {pa flags mask : Nat}

theorem pte_page (hpa : pa % 4096 = 0) (hlt : pa < 2 ^ 64) (h : flags < 1024) :
    PTE2PA (PA2PTE pa ||| flags) = pa := by
  rw [pte_eq_add h, PTE2PA, PA2PTE]
  have hdiv : (pa / 4096 * 1024 + flags) / 1024 = pa / 4096 := by omega
  rw [hdiv]
  omega

theorem pte_mask (h : flags < 1024) (hmask : mask < 1024) :
    (PA2PTE pa ||| flags) &&& mask = flags &&& mask := by
  rw [pte_eq_add h, PA2PTE, pte_and h hmask]

theorem pte_lt (hlt : pa < 2 ^ 64) (h : flags < 1024) : PA2PTE pa ||| flags < 256 ^ 8 := by
  rw [pte_eq_add h, PA2PTE]
  omega

end

def Valid (e : Nat) : Prop := e &&& PTE_V ≠ 0

instance (e : Nat) : Decidable (Valid e) := inferInstanceAs (Decidable (_ ≠ _))

theorem not_valid_zero : ¬Valid 0 := by decide

def Leaf (e : Nat) : Prop := Valid e ∧ e &&& (PTE_R ||| PTE_W ||| PTE_X) ≠ 0

theorem Leaf.flags_ne {e : Nat} (h : Leaf e) : PTE_FLAGS e ≠ PTE_V := by
  intro hflags
  apply h.2
  have he : e = e / 1024 * 1024 + 1 := by
    unfold PTE_FLAGS at hflags
    change e % 1024 = 1 at hflags
    omega
  rw [he, pte_and (by decide) (by decide)]
  decide

/-- What is allowed as `perm`: some of `PTE_R`, `PTE_W`, `PTE_X` and `PTE_U`, and not `PTE_U`
alone. -/
def Perm (perm : Nat) : Prop :=
  perm ||| 30 = 30 ∧ perm &&& (PTE_R ||| PTE_W ||| PTE_X) ≠ 0

instance (perm : Nat) : Decidable (Perm perm) := inferInstanceAs (Decidable (_ ∧ _))

section

variable {pa perm page : Nat}

theorem Perm.lt (h : Perm perm) : perm < 32 := by
  have hle : perm ≤ perm ||| 30 := Nat.left_le_or
  have heq := h.1
  omega

def entry (pa perm : Nat) : Nat := PA2PTE pa ||| perm ||| PTE_V

theorem entry_eq (pa perm : Nat) : entry pa perm = PA2PTE pa ||| (perm ||| PTE_V) :=
  Nat.or_assoc _ _ _

theorem Perm.flags_lt (h : Perm perm) : perm ||| PTE_V < 1024 :=
  Nat.or_lt_two_pow (n := 10) (Nat.lt_trans h.lt (by decide)) (by decide)

theorem entry_leaf (h : Perm perm) : Leaf (entry pa perm) := by
  constructor
  · rw [Valid, entry_eq, pte_mask h.flags_lt (by decide), Nat.and_or_distrib_right, Nat.and_self]
    exact Nat.ne_of_gt (Nat.lt_of_lt_of_le (by decide) Nat.right_le_or)
  · rw [entry_eq, pte_mask h.flags_lt (by decide), Nat.and_or_distrib_right]
    intro hzero
    have hle : perm &&& (PTE_R ||| PTE_W ||| PTE_X) ≤ 0 := hzero ▸ Nat.left_le_or
    exact h.2 (Nat.le_zero.1 hle)

theorem entry_lt (h : Perm perm) (hlt : pa < 2 ^ 64) : entry pa perm < 256 ^ 8 := by
  rw [entry_eq]
  exact pte_lt hlt h.flags_lt

theorem entry_page (h : Perm perm) (hpa : pa % 4096 = 0) (hlt : pa < 2 ^ 64) :
    PTE2PA (entry pa perm) = pa := by
  rw [entry_eq, pte_page hpa hlt h.flags_lt]

def link (page : Nat) : Nat := PA2PTE page ||| PTE_V

theorem link_spec (hpage : page % 4096 = 0) (hlt : page < 2 ^ 64) :
    Valid (link page) ∧ link page &&& (PTE_R ||| PTE_W ||| PTE_X) = 0 ∧ PTE2PA (link page) = page ∧
    link page < 256 ^ 8 := by
  refine ⟨?_, ?_, pte_page hpage hlt (by decide), pte_lt hlt (by decide)⟩
  · unfold Valid link
    rw [pte_mask (by decide) (by decide)]
    decide
  · unfold link
    rw [pte_mask (by decide) (by decide)]
    decide

end

theorem PX_lt (level va : Nat) : PX level va < 512 := Nat.mod_lt _ (by decide)

/-- Below `MAXVA` the three indices are those of one page only. -/
theorem PX_inj {va va' : Nat} (h : va < MAXVA) (h' : va' < MAXVA)
    (heq : ∀ level, level ≤ 2 → PX level va = PX level va') : va / 4096 = va' / 4096 := by
  have h0 : va / 4096 % 512 = va' / 4096 % 512 := heq 0 (by decide)
  have h1 : va / 2097152 % 512 = va' / 2097152 % 512 := heq 1 (by decide)
  have h2 : va / 1073741824 % 512 = va' / 1073741824 % 512 := heq 2 (by decide)
  change va < 274877906944 at h
  change va' < 274877906944 at h'
  omega

end Xv6.Vm
