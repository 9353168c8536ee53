import Xv6.Sched.Invariant

/-!
# Harts that wait for each other

The kernel nests its spinlocks in one order, except that `allocproc`, `exit` and the
SRT and CFSD schedulers take `tickslock` while they hold a `p->lock`, and `clockintr`
and `sys_sleep` take a `p->lock` while they hold `tickslock`.  Two harts that meet in
these sections can wait for each other for ever; without such a meeting, no harts do.
-/

namespace Xv6.Sched

variable {n : Nat}

theorem not_transGen_self {α : Type*} {r : α → α → Prop} {f : α → Nat} {b : Nat}
    (hb : ∀ a, f a ≤ b) (hr : ∀ a₁ a₂ a₃ a₄, r a₁ a₂ → r a₂ a₃ → r a₃ a₄ → f a₁ < f a₂) (a : α) :
    ¬Relation.TransGen r a a := by
  have hnext : ∀ a, Relation.TransGen r a a → ∃ c, r a c ∧ Relation.TransGen r c c := by
    intro a ha
    obtain ⟨c, hac, hca⟩ := Relation.TransGen.head'_iff.1 ha
    exact ⟨c, hac, Relation.TransGen.tail' hca hac⟩
  induction hm : b - f a using Nat.strong_induction_on generalizing a with
  | _ m ih =>
    intro ha
    obtain ⟨c, hac, hc⟩ := hnext a ha
    obtain ⟨d, hcd, hd⟩ := hnext c hc
    obtain ⟨e, hde, -⟩ := hnext d hd
    have hlt := hr a c d e hac hcd hde
    have := hb c
    exact ih (b - f c) (by omega) c rfl hc

namespace Sys

variable {pol : Policy} {s s' : Sys n} {h k : Fin n}

def wanted (s : Sys n) (h : Fin n) : Option Lock :=
  match s.running h with
  | Instr.acquire lk :: _ => some lk
  | _ => none

/-- Hart `h` spins in `acquire` on a lock that hart `k` holds. -/
def Waits (s : Sys n) (h k : Fin n) : Prop := (s.wanted h).bind s.owner = some k

instance (s : Sys n) (h k : Fin n) : Decidable (s.Waits h k) :=
  inferInstanceAs (Decidable ((s.wanted h).bind s.owner = some k))

theorem waits_iff : s.Waits h k ↔ ∃ lk rest, s.running h = Instr.acquire lk :: rest ∧
    s.owner lk = some k := by
  unfold Waits wanted
  constructor
  · intro hw
    split at hw
    · next lk rest hcode => exact ⟨lk, rest, hcode, hw⟩
    · simp at hw
  · rintro ⟨lk, rest, hcode, hown⟩
    simp [hcode, hown]

/-- Hart `k` holds a `p->lock` and asks for `tickslock`, which hart `h` holds in
`clockintr` or `sys_sleep`, where it may go on to take any `p->lock`. -/
def Inverted (s : Sys n) (h k : Fin n) : Prop :=
  s.wanted k = some .tickslock ∧ (∃ j, s.owner (.proc j) = some k) ∧
    s.owner .tickslock = some h ∧ ticking (s.running h) = true

instance (s : Sys n) (h k : Fin n) : Decidable (s.Inverted h k) :=
  inferInstanceAs (Decidable (_ ∧ _ ∧ _ ∧ _))

/-- Along a chain of waiting harts the locks come later and later in the order. -/
theorem Inv.rank_lt (hI : Inv s) (hno : ∀ h k, ¬s.Inverted h k) {h₁ h₂ h₃ h₄ : Fin n}
    (h₁₂ : s.Waits h₁ h₂) (h₂₃ : s.Waits h₂ h₃) (h₃₄ : s.Waits h₃ h₄) {l₁ l₂ : Lock}
    (hl₁ : s.wanted h₁ = some l₁) (hl₂ : s.wanted h₂ = some l₂) : l₁.rank < l₂.rank := by
  obtain ⟨lk₁, rest₁, hcode₁, hown₁⟩ := waits_iff.1 h₁₂
  obtain ⟨lk₂, rest₂, hcode₂, hown₂⟩ := waits_iff.1 h₂₃
  obtain ⟨lk₃, rest₃, hcode₃, hown₃⟩ := waits_iff.1 h₃₄
  obtain rfl : lk₁ = l₁ := by simpa [wanted, hcode₁] using hl₁
  obtain rfl : lk₂ = l₂ := by simpa [wanted, hcode₂] using hl₂
  have hheld₂ : lk₁ ∈ held (Instr.acquire lk₂ :: rest₂) := hcode₂ ▸ (hI.own lk₁ h₂).1 hown₁
  have hheld₃ : lk₂ ∈ held (Instr.acquire lk₃ :: rest₃) := hcode₃ ▸ (hI.own lk₂ h₃).1 hown₂
  simp only [held, Finset.mem_erase] at hheld₂ hheld₃
  rcases (hI.ok hcode₂).2.2.1 lk₁ hheld₂.2 with rfl | hlt | ⟨rfl, j, rfl⟩
  · exact absurd rfl hheld₂.1
  · exact hlt
  · -- the next hart waits while it holds `tickslock`, so it is in `clockintr` or `sys_sleep`
    have hrank : 2 ≤ lk₃.rank := by
      rcases (hI.ok hcode₃).2.2.1 .tickslock hheld₃.2 with heq | hlt | ⟨heq, -⟩
      · exact absurd heq hheld₃.1
      · exact hlt
      · exact absurd heq.symm hheld₃.1
    have htick : ticking (s.running h₃) = true := by
      have := ((hI.ok hcode₃).2.2.2.1 hheld₃.2).resolve_left (Ne.symm hheld₃.1)
      simp [hcode₃, ticking, show ¬lk₃.rank < 2 by omega, this]
    exact absurd ⟨hl₂, ⟨j, hown₁⟩, hown₂, htick⟩ (hno h₃ h₂)

theorem Inv.no_cycle (hI : Inv s) (hno : ∀ h k, ¬s.Inverted h k) (h : Fin n) :
    ¬Relation.TransGen s.Waits h h := by
  refine not_transGen_self (f := fun h => ((s.wanted h).map Lock.rank).getD 0) (b := 3) ?_ ?_ h
  · intro k
    cases s.wanted k with
    | none => simp
    | some lk => cases lk <;> simp
  · intro h₁ h₂ h₃ h₄ h₁₂ h₂₃ h₃₄
    obtain ⟨l₁, hl₁⟩ : ∃ l, s.wanted h₁ = some l := by
      cases hw : s.wanted h₁ with
      | none => simp [Waits, hw] at h₁₂
      | some l => exact ⟨l, rfl⟩
    obtain ⟨l₂, hl₂⟩ : ∃ l, s.wanted h₂ = some l := by
      cases hw : s.wanted h₂ with
      | none => simp [Waits, hw] at h₂₃
      | some l => exact ⟨l, rfl⟩
    simpa [hl₁, hl₂] using hI.rank_lt hno h₁₂ h₂₃ h₃₄ hl₁ hl₂

/-- Two harts that wait for each other.  Under DEFAULT and FCFS, hart 1 is in
`allocproc`; under SRT and CFSD it is about to run the process it has chosen. -/
def collision : Policy → List (Fin 2 × Choice)
  | .dflt => [goes 1 6, [(1, .done), (1, .syscall .fork)], goes 1 11,
      [(0, .interrupt .timer)], goes 0 7].flatten
  | .fcfs => [goes 1 262, [(1, .done), (1, .syscall .fork)], goes 1 11,
      [(0, .interrupt .timer)], goes 0 7].flatten
  | .srt | .cfsd => [goes 1 260, [(0, .interrupt .timer)], goes 0 3].flatten

/-- Under every policy two harts can come to wait for each other: one in `clockintr`,
one that takes `tickslock` under a `p->lock`. -/
theorem deadlock_reachable :
    ¬∃ pol, ∀ s : Sys 2, Reachable pol s → ∀ h, ¬Relation.TransGen s.Waits h h := by
  rintro ⟨pol, hfree⟩
  have hcheck : ((boot 2).trace pol (collision pol)).any
      (fun x => decide (x.1.Waits 0 1 ∧ x.1.Waits 1 0)) = true := by
    cases pol <;> decide +kernel
  obtain ⟨⟨s, es⟩, hs, hcheck⟩ := (Option.any_eq_true _ _).1 hcheck
  obtain ⟨h₀₁, h₁₀⟩ := of_decide_eq_true hcheck
  exact hfree s ⟨es, (trace_run hs).2⟩ 0 (.tail (.single h₀₁) h₁₀)

/-- In a run that never has one hart hold a `p->lock` and ask for `tickslock` while
another holds `tickslock` in `clockintr` or `sys_sleep`, no harts wait for each other
in a cycle. -/
theorem deadlock_free (pol : Policy) (es : List (Event n)) (s : Sys n)
    (hrun : Lib.Run (Lib.Restrict (Step pol) fun _ _ u => ∀ h k, ¬u.Inverted h k) (boot n) es s)
    (h : Fin n) : ¬Relation.TransGen s.Waits h h := by
  have hI : Inv s := Reachable.inv ⟨es, hrun.of_restrict⟩
  have hno : ∀ h k, ¬s.Inverted h k := by
    refine hrun.invariant (I := fun u => ∀ h k, ¬u.Inverted h k) (fun _ _ _ _ hstep => hstep.2) ?_
    rintro h k ⟨hw, -⟩
    simp [wanted, running, boot] at hw
  exact hI.no_cycle hno h

/-- Hart 1 waits for the lock that hart 0 took first. -/
theorem deadlock_free_scan :
    ∃ (es : List (Event 2)) (s : Sys 2),
      Lib.Run (Lib.Restrict (Step .cfsd) fun _ _ u => ∀ h k, ¬u.Inverted h k) (boot 2) es s ∧
      s.Waits 1 0 ∧ ¬Relation.TransGen s.Waits 1 1 := by
  have hcheck : ((boot 2).trace .cfsd (goes 0 3 ++ goes 1 2)).any
      (fun x => decide (x.1.Waits 1 0)) = true := by
    decide +kernel
  obtain ⟨⟨s, es⟩, hs, hwait⟩ := (Option.any_eq_true _ _).1 hcheck
  have hall : ∀ k ≤ 5, ((boot 2).trace .cfsd ((goes 0 3 ++ goes 1 2).take k)).all
      (fun x => decide (∀ h k, ¬x.1.Inverted h k)) = true := by
    decide +kernel
  have hrun := trace_restrict (C := fun u => ∀ h k, ¬u.Inverted h k) hs fun k hk u us hu => by
    have := hall k hk
    rw [hu] at this
    exact of_decide_eq_true this
  exact ⟨es, s, hrun, of_decide_eq_true hwait, deadlock_free .cfsd es s hrun 1⟩

/-- No hart takes a lock out of order, or fails one of these tests of `acquire`, `release` and
`sched`. -/
theorem locks_disciplined (pol : Policy) (s : Sys n) (hs : Reachable pol s) (h : Fin n) :
    (∀ lk c l, s.running h = .acquire lk :: c → s.owner l = some h →
      l.rank < lk.rank ∨ lk = .tickslock ∧ ∃ j, l = .proc j) ∧
      (∀ lk c, s.running h = .release lk :: c → s.owner lk = some h) ∧
      ∀ p c, s.running h = .sched p :: c →
        s.owner (.proc p) = some h ∧ s.noff h = 1 ∧ (s.d.proc p).state ≠ .running := by
  have hI := hs.inv
  refine ⟨fun lk c l hcode hl => ?_, fun lk c hcode => ?_, fun p c hcode => ?_⟩
  · rw [hI.own, hcode] at hl
    obtain ⟨hne, hl⟩ := Finset.mem_erase.1 hl
    exact ((hI.ok hcode).2.2.1 l hl).resolve_left hne
  · simp [hI.own, hcode, held, Instr.gives]
  · obtain ⟨hcur, -, hrest⟩ := hI.ok hcode
    have hheld : held (s.running h) = {.proc p} := by simpa [hcode, held, Instr.gives] using hrest
    have hpark : Parking (s.d.proc p).state := by simpa [hcode, parked] using hI.run h p hcur
    refine ⟨by simp [hI.own, hheld], by simp [hI.noff, hheld], fun hrun => ?_⟩
    simp [Parking, hrun] at hpark

/-- The first process is to release its lock. -/
theorem locks_disciplined_first : ∃ s : Sys 1, Reachable .dflt s ∧ s.owner (.proc 0) = some 0 := by
  obtain ⟨⟨s, es⟩, hs⟩ : ∃ x, (boot 1).trace .dflt (goes 0 5) = some x := ⟨_, rfl⟩
  have hr : Reachable .dflt s := ⟨es, (trace_run hs).2⟩
  refine ⟨s, hr, (locks_disciplined .dflt s hr 0).2.1 _ [.clients 0, .user] ?_⟩
  cases hs
  rfl

end Sys

end Xv6.Sched
