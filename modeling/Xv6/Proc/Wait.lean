import Xv6.Proc.WaitStat

/-!
# `wait` and `wait_stat`

The two system calls in the same state.  `sys_wait_stat` fetches its first argument with
`argint`, which stores four bytes into an `int *` on the stack: the other four are what the
stack held before.
-/

namespace Xv6.WaitStat

open Lib Fs

def copyStatus (image : Bytes) (addr : Nat) (mem : UserMem) : UserMem × Bool :=
  if addr ≠ 0 then copyout image mem 5 44 addr 4 else (mem, true)

def wait (s : Kern) (p : Slot) (addr : Nat) : Option (UInt32 × Kern) :=
  match s.zombie p with
  | some c =>
    let r := copyStatus (s.image c) addr (s.mem p)
    let t := { s with mem := upd s.mem p r.1 }
    if r.2 then some ((s.proc c).pid, t.freeproc c) else some (-1, t)
  | none => if !s.havekids p || (s.proc p).killed ≠ 0 then some (-1, s) else none

def argint (stack a0 : UInt64) : Nat := stack.toNat / 2 ^ 32 * 2 ^ 32 + a0.toNat % 2 ^ 32

def sysWait (s : Kern) (p : Slot) (a0 : UInt64) : Option (UInt32 × Kern) := wait s p a0.toNat

def sysWaitStat (s : Kern) (p : Slot) (a0 a1 stack : UInt64) : Option (UInt32 × Kern) :=
  waitStat s p (argint stack a0) a1.toNat

/-- A call that scans the table in these states, one after each wakeup, until it returns. -/
def callOver (round : Kern → Option (UInt32 × Kern)) (l : List Kern) : Option (UInt32 × Kern) :=
  l.findSome? round

structure Agree (a b : Nat) (mem mem' : UserMem) : Prop where
  pages : ∀ n, (mem' n).isSome = (mem n).isSome
  bytes : ∀ va, va < a ∨ b ≤ va → mem'.byte va = mem.byte va

section Memory

variable {mem mem' : UserMem} {a b va : Nat}

theorem byte_isSome (mem : UserMem) (va : Nat) : (mem.byte va).isSome = (mem (va / 4096)).isSome := by
  rw [UserMem.byte, Option.isSome_map]

theorem agree_of_bytes (h : ∀ va, (mem'.byte va).isSome = (mem.byte va).isSome)
    (hbytes : ∀ va, va < a ∨ b ≤ va → mem'.byte va = mem.byte va) : Agree a b mem mem' where
  pages n := by
    have hn := h (n * 4096)
    rwa [byte_isSome, byte_isSome, Nat.mul_div_cancel n (by decide)] at hn
  bytes := hbytes

theorem Agree.upd {page page' : Bytes} (src : Bytes) (o : Nat) {dstva n : Nat}
    (h : Agree a b mem mem') (hpage : mem (dstva / 4096) = some page)
    (hpage' : mem' (dstva / 4096) = some page') (hn : dstva % 4096 + n ≤ 4096) :
    Agree a b
      (Lib.upd mem (dstva / 4096) (some (blit page (dstva % 4096) n fun j => src (o + j))))
      (Lib.upd mem' (dstva / 4096) (some (blit page' (dstva % 4096) n fun j => src (o + j)))) where
  pages m := by
    rw [upd_eq, upd_eq]
    split
    · rfl
    · exact h.pages m
  bytes va hva := by
    rw [UserMem.byte_upd src o hpage hn, UserMem.byte_upd src o hpage' hn, h.bytes va hva]

theorem Agree.copyout (src : Bytes) {fuel o dstva len : Nat} (h : Agree a b mem mem') :
    (copyout src mem' fuel o dstva len).2 = (copyout src mem fuel o dstva len).2 ∧
    Agree a b (copyout src mem fuel o dstva len).1 (copyout src mem' fuel o dstva len).1 := by
  induction fuel generalizing mem mem' o dstva len with
  | zero => exact ⟨rfl, h⟩
  | succ fuel ih =>
    unfold Fs.copyout
    by_cases hlen : len = 0
    · rw [if_pos hlen, if_pos hlen]
      exact ⟨rfl, h⟩
    · rw [if_neg hlen, if_neg hlen]
      have hpages := h.pages (dstva / 4096)
      cases hpage : mem (dstva / 4096) with
      | none =>
        rw [hpage] at hpages
        rw [Option.isSome_eq_false_iff.1 hpages |> Option.isNone_iff_eq_none.1]
        exact ⟨rfl, h⟩
      | some page =>
        rw [hpage] at hpages
        obtain ⟨page', hpage'⟩ := Option.isSome_iff_exists.1 hpages
        rw [hpage']
        exact ih (h.upd src o hpage hpage' (by omega))

end Memory

/-- Where the calls may write: 64 bytes are mapped at `a1`, apart from the word at `a0`. -/
structure Writable (mem : UserMem) (a0 a1 : UInt64) : Prop where
  perf : ∀ i, i < 64 → (mem.byte (a1.toNat + i)).isSome
  disjoint : a0 ≠ 0 → a0.toNat + 4 ≤ a1.toNat ∨ a1.toNat + 64 ≤ a0.toNat

/-- Both sleep, or both return the same value and leave the same process table and, but for the
64 bytes at `a1`, the same memory. -/
def SameOutcome (p : Slot) (a1 : Nat) : Option (UInt32 × Kern) → Option (UInt32 × Kern) → Prop
  | none, none => True
  | some (r, t), some (r', t') =>
    r' = r ∧ t'.proc = t.proc ∧ (∀ q, q ≠ p → t'.mem q = t.mem q) ∧
      ∀ va, va < a1 ∨ a1 + 64 ≤ va → (t'.mem p).byte va = (t.mem p).byte va
  | _, _ => False

section Round

variable {s : Kern} {p c : Slot} {a0 a1 stack : UInt64} {mem : UserMem}

theorem argint_eq (h : stack.toNat / 2 ^ 32 = a0.toNat / 2 ^ 32) : argint stack a0 = a0.toNat := by
  rw [argint, h]
  omega

theorem copyFields_agree (image : Bytes) (h : Writable mem a0 a1) :
    (copyFields image a1.toNat fields mem).2 = true ∧
    Agree a1.toNat (a1.toNat + 64) mem (copyFields image a1.toNat fields mem).1 := by
  have hmapped : ∀ i, i < 44 → (mem.byte (a1.toNat + i)).isSome := by
    intro i hi
    exact h.perf i (by omega)
  obtain ⟨hok, hbyte⟩ := copyFields_fields image hmapped
  refine ⟨hok, agree_of_bytes (fun va => ?_) fun va hva => ?_⟩
  · rw [hbyte va]
    split
    · next hin =>
      have hsome := h.perf (va - a1.toNat) (by omega)
      rw [show a1.toNat + (va - a1.toNat) = va by omega] at hsome
      rw [hsome]
      rfl
    · rfl
  · rw [hbyte va, if_neg (by omega)]

theorem copyResults_agree (image : Bytes) (h : Writable mem a0 a1) :
    (copyResults image a0.toNat a1.toNat mem).2 = (copyStatus image a0.toNat mem).2 ∧
    Agree a1.toNat (a1.toNat + 64) (copyStatus image a0.toNat mem).1
      (copyResults image a0.toNat a1.toNat mem).1 := by
  obtain ⟨hok, hagree⟩ := copyFields_agree image h
  unfold copyResults copyStatus
  by_cases hzero : a0.toNat = 0
  · simp only [hok, hzero, bne_self_eq_false, Bool.and_false, Bool.false_eq_true, if_false, ne_eq,
      not_true_eq_false]
    exact ⟨trivial, hagree⟩
  · simp only [hok, Bool.true_and, bne_iff_ne, ne_eq, hzero, not_false_eq_true, if_true]
    exact hagree.copyout image

theorem sameOutcome_freeproc {r : UInt32} {m m' : UserMem}
    (h : Agree a1.toNat (a1.toNat + 64) m m') :
    SameOutcome p a1.toNat (some (r, ({ s with mem := upd s.mem p m } : Kern).freeproc c))
      (some (r, ({ s with mem := upd s.mem p m' } : Kern).freeproc c)) := by
  refine ⟨rfl, rfl, fun q hq => ?_, fun va hva => ?_⟩
  · simp only [Kern.freeproc, upd_eq, if_neg hq]
  · simp only [Kern.freeproc, upd_eq, if_true]
    split
    · rfl
    · exact h.bytes va hva

theorem round_agrees (hstack : stack.toNat / 2 ^ 32 = a0.toNat / 2 ^ 32)
    (h : Writable (s.mem p) a0 a1) :
    SameOutcome p a1.toNat (sysWait s p a0) (sysWaitStat s p a0 a1 stack) := by
  rw [sysWait, sysWaitStat, argint_eq hstack, wait, waitStat]
  cases hc : s.zombie p with
  | none =>
    dsimp only
    split
    · exact ⟨rfl, rfl, fun _ _ => rfl, fun _ _ => rfl⟩
    · trivial
  | some c =>
    obtain ⟨hok, hagree⟩ := copyResults_agree (s.image c) h
    dsimp only
    rw [hok]
    split
    · exact sameOutcome_freeproc hagree
    · refine ⟨rfl, rfl, fun q hq => ?_, fun va hva => ?_⟩
      · simp only [upd_eq, if_neg hq]
      · simp only [upd_self]
        exact hagree.bytes va hva

theorem status_written {r : UInt32} {t : Kern} (hstack : stack.toNat / 2 ^ 32 = a0.toNat / 2 ^ 32)
    (h : Writable (s.mem p) a0 a1) (hrun : (s.proc p).state = .running) (hc : s.zombie p = some c)
    (ht : sysWaitStat s p a0 a1 stack = some (r, t)) :
    (a0 = 0 → ∀ va, va < a1.toNat ∨ a1.toNat + 64 ≤ va → (t.mem p).byte va = (s.mem p).byte va) ∧
    (a0 ≠ 0 → (t.proc c).state = .unused → ∀ i, i < 4 →
      (t.mem p).byte (a0.toNat + i) = some (byteOf (s.proc c).xstate.toNat i)) := by
  have hne := zombie_ne hrun hc
  have hzombie : (s.proc c).state = .zombie := by
    have hfound := List.find?_some hc
    simp only [decide_eq_true_eq] at hfound
    exact hfound.2
  obtain ⟨hok, hagree⟩ := copyResults_agree (s.image c) h
  rw [sysWaitStat, argint_eq hstack, waitStat, hc] at ht
  dsimp only at ht
  -- whether the slot is freed or not, the caller has the memory after the copies
  have hmem : t.mem p = (copyResults (s.image c) a0.toNat a1.toNat (s.mem p)).1 := by
    split at ht <;> obtain ⟨-, rfl⟩ := Prod.mk.inj (Option.some.inj ht)
    · simp only [Kern.freeproc, upd_of_ne _ _ _ hne, upd_self]
    · simp only [upd_self]
  rw [hmem]
  constructor
  · rintro rfl va hva
    rw [hagree.bytes va hva]
    rfl
  · intro hzero hfreed i hi
    have hzero : a0.toNat ≠ 0 := fun heq => hzero (UInt64.toNat_inj.1 heq)
    split at ht <;> obtain ⟨-, rfl⟩ := Prod.mk.inj (Option.some.inj ht)
    · next hcopied =>
      rw [hok, copyStatus, if_pos hzero] at hcopied
      have hmapped := mapped_of_copyout (s.image c) 44 (by decide) hcopied
      have hbyte := (copyResults_byte (s.image c) (fun j hj => h.perf j (by omega))
        fun _ => hmapped).2
      rw [hbyte, if_pos (by omega), show a0.toNat + i - a0.toNat = i by omega, image_xstate s c hi]
    · exact absurd (hzombie.symm.trans hfreed) (by decide)

end Round

end Xv6.WaitStat
