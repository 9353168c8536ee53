import Xv6.Sched.Invariant

/-!
# Who runs a process

A process is the current process of at most one hart, whatever body of
`scheduler()` the kernel is built with.
-/

namespace Xv6.Sched

variable {n : Nat}

namespace Sys

variable {pol : Policy} {s s' : Sys n} {e : Event n}

/-- A hart whose `c->proc` is `p` either runs `p` as a running process or holds
`p->lock`. -/
theorem Inv.running_of_cpuProc (hI : Inv s) {h : Fin n} {p : Slot}
    (hcpu : s.d.cpuProc h = some p) (hfree : s.owner (.proc p) = none) :
    (s.d.proc p).state = .running := by
  have hnot : ¬Pinned (s.cur h) (s.running h) p := by
    intro hpin
    have := hI.pinned_held hpin
    rw [← hI.own, hfree] at this
    simp at this
  have hc := hI.cpu h
  cases ht : s.cur h with
  | scheduler k =>
    rw [ht] at hc
    exact absurd (.inl (hc.symm.trans hcpu)) hnot
  | kernel q =>
    rw [ht] at hc
    obtain rfl : q = p := Option.some.inj (hc.symm.trans hcpu)
    have hrun := hI.run h q ht
    split at hrun
    · next hp => exact absurd (.inr (.inr (.inr ⟨ht, hp⟩))) hnot
    · exact hrun

/-- `c->proc` is set to a process by the dispatch of that process only. -/
theorem Inv.runnable_of_dispatch (hI : Inv s) (hs : s.Step pol e s') {h : Fin n} {p : Slot}
    (hnew : s'.d.cpuProc h = some p) (hold : s.d.cpuProc h ≠ some p) :
    (s.d.proc p).state = .runnable := by
  obtain ⟨k, hs⟩ := hs.stepOf
  cases hs with
  | exec hcode hx =>
    have hstay : ∀ v, Function.update s.d.cpuProc k v h = some p → v = some p := by
      intro v hv
      by_cases hk : h = k
      · rwa [hk, Function.update_self] at hv
      · rw [Function.update_of_ne hk] at hv
        exact absurd hv hold
    rcases (exec_effect hx (hI.ok hcode)).cpuProc with hc | hc | ⟨j, hj, hc⟩
    · exact absurd (hc ▸ hnew) hold
    · exact absurd (hstay _ (hc ▸ hnew)) (by simp)
    · obtain rfl : j = p := Option.some.inj (hstay _ (hc ▸ hnew))
      exact hj
  | _ => exact absurd hnew hold

/-- Under every policy, a process is the `c->proc` of at most one hart, a hart
dispatches only a process that is `RUNNABLE` at that moment, and while `p->lock`
is free `p` is `RUNNING` exactly when one hart has it as its `c->proc`. -/
theorem one_cpu_per_process (pol : Policy) (s : Sys n) (hs : Reachable pol s) :
    (∀ p h k, s.d.cpuProc h = some p → s.d.cpuProc k = some p → h = k) ∧
      (∀ e s', s.Step pol e s' → ∀ p h, s'.d.cpuProc h = some p → s.d.cpuProc h ≠ some p →
        (s.d.proc p).state = .runnable) ∧
      ∀ p, s.owner (.proc p) = none →
        ((s.d.proc p).state = .running ↔ ∃! h, s.d.cpuProc h = some p) := by
  have hI := hs.inv
  refine ⟨fun p h k => hI.uniq h k p, fun e s' hstep p h => hI.runnable_of_dispatch hstep, ?_⟩
  intro p hfree
  constructor
  · intro hrun
    obtain ⟨h, hh⟩ := hI.runCpu p hrun
    exact ⟨h, hh, fun k hk => hI.uniq k h p hk hh⟩
  · rintro ⟨h, hh, -⟩
    exact hI.running_of_cpuProc hh hfree

/-- Hart 0 of two has dispatched the first process and released its lock. -/
theorem one_cpu_per_process_first_dispatch :
    ∃ s : Sys 2, Reachable .dflt s ∧ s.owner (.proc 0) = none ∧
      (s.d.proc 0).state = .running ∧ ∃! h, s.d.cpuProc h = some 0 := by
  obtain ⟨⟨s, es⟩, hs⟩ : ∃ x, (boot 2).trace .dflt (List.replicate 6 (0, .go)) = some x := ⟨_, rfl⟩
  have hr : Reachable .dflt s := ⟨es, (trace_run hs).2⟩
  obtain ⟨hfree, hrun⟩ : s.owner (.proc 0) = none ∧ (s.d.proc 0).state = .running := by
    obtain rfl := (Prod.mk.inj (Option.some.inj hs)).1
    exact ⟨rfl, rfl⟩
  exact ⟨s, hr, hfree, hrun, ((one_cpu_per_process .dflt s hr).2.2 0 hfree).1 hrun⟩

end Sys

end Xv6.Sched
