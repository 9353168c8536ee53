import Xv6.Vm.Space

/-!
# `sys_sbrk`

`growproc` keeps the size in a `uint` and adds a signed `n` to it, so that a break below zero
wraps to a large one.  `uvmdealloc` then has nothing to do and returns the old size.
-/

namespace Xv6.Vm

open Lib.Cmd

/-- The process that calls: its size, and the memory. -/
structure Caller where
  vm : State
  sz : Nat

def onVm {α : Type} (c : Cmd α) : Lib.Cmd Fail Caller α := fun s =>
  (c s.vm).map fun (a, vm) => (a, { s with vm })

def uintOf (n : Int) : Nat := (n % 2 ^ 32).toNat

def intOf (x : Nat) : Int := if x % 2 ^ 32 < 2 ^ 31 then x % 2 ^ 32 else x % 2 ^ 32 - 2 ^ 32

def setSz (sz : Nat) : Lib.Cmd Fail Caller PUnit := modify fun s => { s with sz }

def growproc (kend pagetable : Nat) (n : Int) : Lib.Cmd Fail Caller Bool := do
  let sz := (← get).sz % 2 ^ 32
  if 0 < n then
    let sz := (← onVm (uvmalloc kend pagetable sz (uintOf (sz + n)))) % 2 ^ 32
    if sz = 0 then return false
    else
      setSz sz
      return true
  else if n < 0 then
    let sz := (← onVm (uvmdealloc kend pagetable sz (uintOf (sz + n)))) % 2 ^ 32
    setSz sz
    return true
  else
    setSz sz
    return true

def sysSbrk (kend pagetable : Nat) (n : Int) : Lib.Cmd Fail Caller Int := do
  let addr := intOf (← get).sz
  if ← growproc kend pagetable n then return addr else return -1

structure Moved (kend pt : Nat) (n : Int) (s t : Caller) : Prop where
  sz : (t.sz : Int) = s.sz + n
  space : Space kend t.vm pt t.sz
  kept : Kept s.vm t.vm pt (PGROUNDUP (min s.sz t.sz))
  zeroed : Zeroed t.vm pt (PGROUNDUP s.sz) (PGROUNDUP t.sz)

structure Stayed (kend pt : Nat) (s t : Caller) : Prop where
  sz : t.sz = s.sz
  space : Space kend t.vm pt t.sz
  kept : Kept s.vm t.vm pt (PGROUNDUP s.sz)

/-- What `sbrk` is for: it returns the old size and moves the break by `n`, or -1 and does not. -/
def SbrkExact (kend pt : Nat) (n : Int) (s : Caller) : Prop :=
  wp (sysSbrk kend pt n) (fun r t => r = s.sz ∧ Moved kend pt n s t ∨ r = -1 ∧ Stayed kend pt s t)
    (fun _ => False) s

section Rules

variable {s : Caller} {E : Fail → Prop}

theorem wp_onVm {α : Type} {c : Cmd α} {Q : α → Caller → Prop} :
    wp (onVm c) Q E s ↔ wp c (fun a vm => Q a { s with vm }) E s.vm := by
  unfold wp onVm
  cases c s.vm with
  | ok p => rfl
  | error e => rfl

end Rules

section Growproc

variable {kend pt : Nat} {n : Int} {s : Caller}

theorem uintOf_of_nonneg (h : 0 ≤ n) (hlt : n < 2 ^ 32) : (uintOf n : Int) = n := by
  unfold uintOf
  omega

theorem Kept.refl (s : State) (pt top : Nat) : Kept s s pt top := fun _ _ => ⟨rfl, rfl⟩

theorem growproc_spec (h : Space kend s.vm pt s.sz) (hsz : s.sz < 2 ^ 31) (hn : n < 2 ^ 31)
    (hpos : 0 ≤ (s.sz : Int) + n) :
    wp (growproc kend pt n) (fun r t => r = true ∧ Moved kend pt n s t ∨ r = false ∧ Stayed kend pt s t)
      (fun _ => False) s := by
  have hmod : s.sz % 2 ^ 32 = s.sz := Nat.mod_eq_of_lt (by omega)
  have hnew := uintOf_of_nonneg hpos (by omega)
  rw [growproc, wp_bind, wp_get]
  simp only [hmod]
  by_cases hgrow : 0 < n
  · have hlt : uintOf (s.sz + n) < 2 ^ 32 := by omega
    have hmax : uintOf (s.sz + n) ≤ TRAPFRAME := Nat.le_trans (Nat.le_of_lt hlt) (by decide)
    have hle : s.sz ≤ uintOf (s.sz + n) := by omega
    rw [if_pos hgrow, wp_bind, wp_onVm]
    apply (uvmalloc_space h hle hmax).imp
    rintro r t (⟨rfl, hspace, hkept, hzero⟩ | ⟨rfl, hspace, hkept⟩)
    · have hne : uintOf (s.sz + n) ≠ 0 := by omega
      rw [Nat.mod_eq_of_lt hlt, if_neg hne]
      refine .inl ⟨rfl, hnew, hspace, ?_, hzero⟩
      change Kept _ _ _ (PGROUNDUP (min s.sz (uintOf (s.sz + n))))
      rw [Nat.min_eq_left hle]
      exact hkept
    · exact .inr ⟨rfl, rfl, hspace, hkept⟩
  · rw [if_neg hgrow]
    by_cases hshrink : n < 0
    · have hle : uintOf (s.sz + n) ≤ s.sz := by omega
      rw [if_pos hshrink, wp_bind, wp_onVm]
      apply (uvmdealloc_space h hle).imp
      rintro r t ⟨rfl, hspace, hkept⟩
      have hlt : uintOf (s.sz + n) < 2 ^ 32 := by omega
      rw [Nat.mod_eq_of_lt hlt]
      refine .inl ⟨rfl, hnew, hspace, ?_, ?_⟩
      · change Kept _ _ _ (PGROUNDUP (min s.sz (uintOf (s.sz + n))))
        rw [Nat.min_eq_right hle]
        exact hkept
      · intro va hbot htop
        have hmono := PGROUNDUP_mono hle h.le
        change va < PGROUNDUP (uintOf (s.sz + n)) at htop
        omega
    · obtain rfl : n = 0 := by omega
      rw [if_neg hshrink]
      refine .inl ⟨rfl, (Int.add_zero _).symm, h, .refl _ _ _, ?_⟩
      intro va hbot htop
      exact absurd htop (Nat.not_lt.2 hbot)

/-- `sbrk` moves the break by exactly `n` or not at all, unless it would be below zero. -/
theorem sbrk_exact (h : Space kend s.vm pt s.sz) (hsz : s.sz < 2 ^ 31) (hn : n < 2 ^ 31)
    (hpos : 0 ≤ (s.sz : Int) + n) : SbrkExact kend pt n s := by
  have haddr : intOf s.sz = s.sz := by
    unfold intOf
    rw [if_pos (by omega)]
    omega
  rw [SbrkExact, sysSbrk, wp_bind, wp_get, wp_bind, haddr]
  apply (growproc_spec h hsz hn hpos).imp
  rintro r t (⟨rfl, hmoved⟩ | ⟨rfl, hstayed⟩)
  · exact .inl ⟨rfl, hmoved⟩
  · exact .inr ⟨rfl, hstayed⟩

/-- A process with no memory, whose page table is at `pt`. -/
def bare (free : List Nat) : Caller where
  vm := { mem := fun _ _ => 0, freelist := free }
  sz := 0

theorem space_bare {free : List Nat} (hnodup : (pt :: free).Nodup)
    (hpages : ∀ q ∈ pt :: free, Page kend q) : Space kend (bare free).vm pt (bare free).sz := by
  have htable : Table kend (bare free).vm 2 pt := .empty rfl hnodup hpages
  have htop : PGROUNDUP (bare free).sz = 0 := show PGROUNDUP 0 = 0 by decide
  refine ⟨htable, Nat.zero_le _, ?_, fun va _ _ => lookup_zero rfl va, ?_⟩
  · intro va hva
    rw [htop] at hva
    exact absurd hva (Nat.not_lt_zero va)
  · rw [htop]
    exact .nil htable

/-- Growing by a page and two bytes, with five free pages. -/
theorem sbrk_exact_bare :
    SbrkExact 0x80022000 0x80100000 4098
      (bare [0x80101000, 0x80102000, 0x80103000, 0x80104000, 0x80105000]) := by
  refine sbrk_exact (space_bare (by decide) ?_) (by decide) (by decide) (by decide)
  have hpages : ∀ q ∈ [0x80100000, 0x80101000, 0x80102000, 0x80103000, 0x80104000, 0x80105000],
      q % 4096 = 0 ∧ 0x80022000 ≤ q ∧ q < PHYSTOP := by decide
  intro q hq
  exact ⟨(hpages q hq).1, (hpages q hq).2.1, (hpages q hq).2.2⟩

/-- Below zero the size stays as it is, and `sbrk` returns it. -/
theorem sbrk_below (hsz : s.sz < 2 ^ 31) (hn : -2 ^ 31 ≤ n) (hneg : (s.sz : Int) + n < 0) :
    sysSbrk kend pt n s = .ok ((s.sz : Int), s) := by
  have haddr : intOf s.sz = s.sz := by
    unfold intOf
    rw [if_pos (by omega)]
    omega
  have hmod : s.sz % 2 ^ 32 = s.sz := Nat.mod_eq_of_lt (by omega)
  have hwrap : s.sz ≤ uintOf (s.sz + n) := by
    unfold uintOf
    omega
  have hgrow : growproc kend pt n s = .ok (true, s) := by
    rw [growproc, bind_ok (c := get) (a := s) (t := s) rfl]
    simp only [hmod]
    have hcall : onVm (uvmdealloc kend pt s.sz (uintOf (s.sz + n))) s = .ok (s.sz, s) := by
      rw [uvmdealloc, if_pos hwrap]
      rfl
    rw [if_neg (by omega), if_pos (by omega), bind_ok hcall, hmod]
    rfl
  rw [sysSbrk, bind_ok (c := get) (a := s) (t := s) rfl, bind_ok hgrow, if_pos rfl, haddr]
  rfl

/-- A process without memory asks for a break of -1 and is told that it has it. -/
theorem break_below_zero :
    ¬∀ (kend pt : Nat) (n : Int) (s : Caller), Space kend s.vm pt s.sz → s.sz < 2 ^ 31 →
      -2 ^ 31 ≤ n → n < 2 ^ 31 → SbrkExact kend pt n s := by
  intro h
  have hspace : Space 0 (bare []).vm 4096 (bare []).sz := by
    apply space_bare (by decide)
    intro q hq
    obtain rfl := List.mem_singleton.1 hq
    exact ⟨rfl, Nat.zero_le _, by decide⟩
  have hexact := h 0 4096 (-1) (bare []) hspace (by decide) (by decide) (by decide)
  rw [SbrkExact, wp_of_ok (sbrk_below (by decide) (by decide) (by decide))] at hexact
  rcases hexact with ⟨-, hmoved⟩ | ⟨hr, -⟩
  · exact absurd hmoved.sz (by decide)
  · exact absurd hr (by decide)

end Growproc

end Xv6.Vm
