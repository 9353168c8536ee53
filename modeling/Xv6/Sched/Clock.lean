import Xv6.Sched.Lifecycle

/-!
# Tick accounting

`clockintr` adds one to `ticks` and then visits the slots one after the other.
While a slot is still to be visited its counters are one tick behind, and that is
the whole invariant: the counters of a live process never add up to more than the
ticks since its creation, minus the visit that is still to come.
-/

namespace Xv6.Sched

open Instr

variable {n : Nat}

def Proc.charged (p : Proc) : Int := p.stime + p.retime + p.rutime

def Proc.times (p : Proc) : Int × Int × Int × Int × Int :=
  (p.ctime, p.ttime, p.stime, p.retime, p.rutime)

def Procstate.Alive (st : Procstate) : Prop := st ≠ .unused ∧ st ≠ .zombie

theorem clocking_held {t : Thread n} {c : Code} {k : Nat} (hwf : WF t c)
    (hc : clocking c = some k) : Lock.tickslock ∈ held c := by
  unfold clocking at hc
  split at hc
  case h_1 m hin =>
    exact held_of_inner hwf hin (by simp) fun rest hwf => held_subset_cons (by simp) hwf.1.1
  case h_2 j hin =>
    exact held_of_inner hwf hin (by simp) fun rest hwf => held_subset_cons (by simp) hwf.1.1
  case h_3 => simp at hc

variable {d d' : Data n} {i : Instr} {rest : Code} {p j : Slot} {b : Bool} {es : List (Event n)}

theorem clocking_of_section {h : Fin n} {t : Thread n} {c' : Code} {m : Nat}
    (hs : Section d h i rest d' c') (hok : Ok t i rest) (hm : clocking c' = some m) :
    i = tick ∨ ∃ m', clocking (i :: rest) = some m' ∧ m' ≤ m := by
  cases hs
  case plain hplain hr => simp [(none_of_plain hplain).2.1] at hm
  case same hi hin hbe =>
    rw [clocking, hin] at hm
    exact .inr ⟨m, hm, le_rfl⟩
  case tick hi hin hbe => exact .inl hi
  case clockVisit j hi hd hin hbe =>
    subst hi
    simp only [clocking, hin, Option.some.injEq] at hm
    exact .inr ⟨j, by simp [clocking, inner], by omega⟩
  case account j hi hin hbe =>
    subst hi
    simp only [clocking, hin, Option.some.injEq] at hm
    exact .inr ⟨j, by simp [clocking, inner], by omega⟩
  case wakeDone chan k hi hk hd hc =>
    subst hi hc
    rcases hok.2.2.2 with hplain | ⟨p, j, hin⟩ | ⟨p, st, hin⟩
    · simp [(none_of_plain hplain).2.1] at hm
    · simp [clocking, hin] at hm
    · simp [clocking, hin] at hm
  all_goals simp_all [clocking]

theorem accountProc_times (p : Proc) :
    (Data.accountProc p).ctime = p.ctime ∧ (Data.accountProc p).ttime = p.ttime ∧
      (Data.accountProc p).charged ≤ p.charged + 1 ∧
      (0 ≤ p.stime ∧ 0 ≤ p.retime ∧ 0 ≤ p.rutime →
        0 ≤ (Data.accountProc p).stime ∧ 0 ≤ (Data.accountProc p).retime ∧
          0 ≤ (Data.accountProc p).rutime) := by
  unfold Data.accountProc Proc.charged
  split <;> simp <;> omega

theorem accountProc_of_not_alive {p : Proc} (hp : p.state = .used ∨ ¬p.state.Alive) :
    Data.accountProc p = p := by
  unfold Data.accountProc
  unfold Procstate.Alive at hp
  split <;> simp_all

theorem claims_of_filling {c : Code} (hf : filling c = some (j, b)) : Claims c j := by
  induction c with
  | nil => simp [filling] at hf
  | cons i c ih =>
    cases i <;> simp only [filling, reduceCtorEq, Option.some.injEq, Prod.mk.injEq,
      Option.ite_none_right_eq_some] at hf
    case acquire lk | release lk =>
      obtain ⟨x, hx, hxj⟩ := ih hf.2
      exact ⟨x, List.mem_cons_of_mem _ hx, hxj⟩
    case setCtime k | initCounters k => exact ⟨_, List.mem_cons_self, by simp [Instr.claim, hf.1]⟩

theorem Writes.times (hw : Writes d i d') (j : Slot) :
    (d'.proc j).times = (d.proc j).times ∨
      (i = Instr.account j ∧ d'.proc j = Data.accountProc (d.proc j)) ∨
      (i = setCtime j ∧ d'.proc j = { d.proc j with ctime := asInt d.ticks }) ∨
      (i = initCounters j ∧ d'.proc j =
        { d.proc j with
          stime := 0, retime := 0, rutime := 0, ttime := 0,
          averageBursttime := QUANTUM * 100, priority := 5 }) ∨
      (i = setTtime j ∧ d'.proc j = { d.proc j with ttime := asInt d.ticks }) := by
  cases hw
  case none hsame =>
    have := hsame j
    simp [Proc.times, this.ctime, this.ttime, this.stime, this.retime, this.rutime]
  case account k hi hd | ctime k hi hd | counters k hi hd | ttime k hi hd =>
    by_cases hjk : j = k
    · subst hjk
      simp [hi, hd]
    · simp [hd, hjk]
  all_goals
    rename_i hd
    left
    rw [hd]
    simp only [Data.freeproc, Data.setState, Data.setProc_proc]
    split <;> simp_all [Proc.times]

theorem Writes.charge (hw : Writes d i d') (j : Slot) :
    ((d'.proc j).charged = (d.proc j).charged ∧ (d'.proc j).ctime = (d.proc j).ctime) ∨
      (i = Instr.account j ∧ d'.proc j = Data.accountProc (d.proc j)) ∨
      (i = setCtime j ∧ (d'.proc j).ctime = asInt d.ticks) ∨
      (i = initCounters j ∧ (d'.proc j).charged = 0 ∧ (d'.proc j).ctime = (d.proc j).ctime) := by
  rcases hw.times j with h | h | ⟨hi, hj⟩ | ⟨hi, hj⟩ | ⟨hi, hj⟩
  · simp only [Proc.times, Prod.mk.injEq] at h
    simp [Proc.charged, h]
  · exact .inr (.inl h)
  · simp [hi, hj]
  · simp [hi, hj, Proc.charged]
  · simp [hj, Proc.charged]

/-- Only `exit` writes `ttime` of a process that is not being created. -/
theorem Writes.ttime_eq (hw : Writes d i d') (j : Slot) :
    (d'.proc j).ttime = (d.proc j).ttime ∨ i = initCounters j ∨
      (i = setTtime j ∧ (d'.proc j).ttime = asInt d.ticks) := by
  rcases hw.times j with h | ⟨-, hj⟩ | ⟨-, hj⟩ | ⟨hi, -⟩ | ⟨hi, hj⟩
  · simp only [Proc.times, Prod.mk.injEq] at h
    exact .inl h.2.1
  · exact .inl (by rw [hj, (accountProc_times _).2.1])
  · simp [hj]
  · exact .inr (.inl hi)
  · simp [hi, hj]

theorem Writes.nonneg (hw : Writes d i d') (j : Slot)
    (hpos : 0 ≤ (d.proc j).stime ∧ 0 ≤ (d.proc j).retime ∧ 0 ≤ (d.proc j).rutime) :
    0 ≤ (d'.proc j).stime ∧ 0 ≤ (d'.proc j).retime ∧ 0 ≤ (d'.proc j).rutime := by
  rcases hw.times j with h | ⟨-, hj⟩ | ⟨-, hj⟩ | ⟨-, hj⟩ | ⟨-, hj⟩
  · simp only [Proc.times, Prod.mk.injEq] at h
    simpa [h] using hpos
  · rw [hj]
    exact (accountProc_times _).2.2.2 hpos
  · simpa [hj] using hpos
  · simp [hj]
  · simpa [hj] using hpos

namespace Sys

variable {pol : Policy} {s s' : Sys n} {h : Fin n} {e : Event n}

def Pending (s : Sys n) (j : Slot) : Prop :=
  ∃ h k, clocking (s.running h) = some k ∧ k ≤ j

/-- The charges of slot `j` fit into the time since its creation. -/
def Within (s : Sys n) (j : Slot) : Prop :=
  (s.d.proc j).charged + (s.d.proc j).ctime ≤ s.d.ticks ∧
    (s.Pending j → (s.d.proc j).charged + (s.d.proc j).ctime + 1 ≤ s.d.ticks)

structure ClockInv (s : Sys n) : Prop where
  nonneg : ∀ j, 0 ≤ (s.d.proc j).stime ∧ 0 ≤ (s.d.proc j).retime ∧ 0 ≤ (s.d.proc j).rutime
  live : ∀ j, (s.d.proc j).state.Alive → (∀ h b, filling (s.running h) ≠ some (j, b)) →
    s.Within j
  /-- `allocproc` has written `ctime` and still has to reset the counters. -/
  dated : ∀ h j, filling (s.running h) = some (j, true) →
    (s.d.proc j).ctime ≤ s.d.ticks ∧ (s.Pending j → (s.d.proc j).ctime + 1 ≤ s.d.ticks)
  /-- `exit` has made the process a zombie and still has to write `ttime`. -/
  unstamped : ∀ h j, s.cur h = .kernel j → stamping (s.running h) = true →
    (s.d.proc j).state = .zombie → s.Within j
  stamped : ∀ j, (s.d.proc j).state = .zombie →
    (∀ h, s.cur h = .kernel j → stamping (s.running h) = false) →
    (s.d.proc j).charged + (s.d.proc j).ctime ≤ (s.d.proc j).ttime

theorem Inv.not_pending (hI : Inv s) (hlk : .tickslock ∈ held (s.running h))
    (hc : clocking (s.running h) = none) (j : Slot) : ¬s.Pending j := by
  rintro ⟨k, m, hk, -⟩
  obtain rfl := hI.exclusive (clocking_held (hI.wf _) hk) hlk
  simp [hc] at hk

/-- Either `ticks` stays and no new visit is pending, or the clock ticks. -/
theorem StepOf.clock (hI : Inv s) (hs : StepOf pol s h e s') (hsmall : s.d.ticks < 2 ^ 31) :
    s'.d.ticks = s.d.ticks ∧ (∀ j, s'.Pending j → s.Pending j) ∨
      s'.d.ticks = s.d.ticks + 1 ∧ ∃ rest, s.running h = tick :: rest := by
  have hother : (∀ m, clocking (s'.running h) = some m →
      ∃ m', clocking (s.running h) = some m' ∧ m' ≤ m) → ∀ j, s'.Pending j → s.Pending j := by
    rintro hh j ⟨k, m, hk, hm⟩
    by_cases hkh : k = h
    · subst hkh
      obtain ⟨m', hm', hle⟩ := hh m hk
      exact ⟨k, m', hm', by omega⟩
    · rw [hs.running_other hI hkh] at hk
      exact ⟨k, m, hk, hm⟩
  cases hs.progress hI with
  | out hd hplain hr =>
    refine .inl ⟨by rw [hd], hother fun m hm => ?_⟩
    simp [(none_of_plain hplain).2.1] at hm
  | lock hd hcur hin hbe =>
    refine .inl ⟨by rw [hd], hother fun m hm => ?_⟩
    rw [clocking, hin] at hm
    exact ⟨m, hm, le_rfl⟩
  | start hd hcur hr hin =>
    refine .inl ⟨by rw [hd], hother fun m hm => ?_⟩
    rcases hin with ⟨p, a, b, hin⟩ | ⟨p, hin⟩ <;> simp [clocking, hin] at hm
  | exec hcode hd hcur hx hrun hsec =>
    rw [hd]
    rcases (exec_ticks hx).2 with ⟨rfl, ht⟩ | ⟨hi, ht⟩
    · exact .inr ⟨by omega, _, hcode⟩
    · refine .inl ⟨ht, hother fun m hm => ?_⟩
      rw [hrun] at hm
      rw [hcode]
      exact (clocking_of_section hsec (hI.ok hcode) hm).resolve_left hi

/-- Apart from `exec`, no step writes the table or moves `allocproc` and `exit` on
in the stretches where the accounting fields are out of date. -/
theorem StepOf.still (hI : Inv s) (hs : StepOf pol s h e s') :
    (∃ c i rest exp d', s.running h = i :: rest ∧
      Sched.exec pol s.d h (s.cur h) c i = some (d', exp, e) ∧
      s' = { s with d := d', code := Function.update s.code (s.cur h) (exp ++ rest) }) ∨
    (s'.d = s.d ∧ filling (s'.running h) = filling (s.running h) ∧
      stamping (s'.running h) = stamping (s.running h) ∧
      (s'.cur h = s.cur h ∨ stamping (s'.running h) = false)) := by
  cases hs with
  | exec hcode hx => exact .inl ⟨_, _, _, _, _, hcode, hx, rfl⟩
  | acquire hcode hfree =>
    right
    have hok := (hI.ok hcode).2.2.2.2.2.1
    refine ⟨rfl, ?_, ?_, .inl rfl⟩ <;> rw [running_update, hcode]
    · simp only [filling]
      split
      · rfl
      · next hlk => exact (hok.resolve_left hlk).1
    · simp only [stamping]
      rcases hok with rfl | ⟨-, hst⟩ <;> simp_all
  | release hcode hi hown =>
    right
    rcases hi with ⟨rfl, -⟩ | ⟨p, chan, rfl, -⟩
    · obtain ⟨-, -, hok, -, hst⟩ := hI.ok hcode
      refine ⟨rfl, ?_, ?_, .inl rfl⟩ <;> rw [running_update, hcode]
      · simp only [filling]
        split
        · rfl
        · next hlk => exact hok.resolve_left hlk
      · exact hst
    · obtain ⟨c', rfl⟩ := (hI.ok hcode).2.2.2
      refine ⟨rfl, ?_, ?_, .inl rfl⟩ <;> rw [running_update, hcode] <;> rfl
  | sched hcode hstate =>
    right
    have hcur := (hI.ok hcode).1
    have hback := settled_of_dispatching (hI.back h _ hcur).2.1
    rw [hcode]
    refine ⟨rfl, ?_, ?_, .inr ?_⟩
    · simpa [Sys.running, hcur, filling] using hback.2.2.2.1
    · simpa [Sys.running, hcur, stamping] using hback.2.2.2.2.2.1
    · simpa [Sys.running, hcur] using hback.2.2.2.2.2.1
  | swtch hcode =>
    right
    obtain ⟨hne, hquiet, -⟩ := hI.target hcode
    have hupd (c : Code) := Function.update_of_ne (hne h).symm c s.code
    rw [hcode]
    refine ⟨rfl, ?_, ?_, .inr ?_⟩
    · simpa [Sys.running, hupd, filling] using hquiet.1.1.2.2.2.1
    · simpa [Sys.running, hupd, stamping] using hquiet.1.1.2.2.2.2.2
    · simpa [Sys.running, hupd] using hquiet.1.1.2.2.2.2.2
  | forkret hcode =>
    right
    obtain ⟨⟨p, hp, hpi⟩, -, hquiet, -⟩ := hI.ok hcode
    rename_i i rest
    have hne : s.cur h ≠ .kernel i := by simpa [hp] using hpi
    have hupd (f : Thread n → Code) (c : Code) := Function.update_of_ne hne c f
    rw [hcode]
    refine ⟨rfl, ?_, ?_, .inl rfl⟩
    · simpa [Sys.running, hupd, filling] using hquiet.1.1.2.2.2.1
    · simpa [Sys.running, hupd, stamping] using hquiet.1.1.2.2.2.2.2
  | interrupt hnoff hiret =>
    right
    rename_i k
    have h₁ := (hI.idle_of_noff hnoff).1.1.1.2.2.2
    have h₂ := (hI.trap_wf pol k hnoff).2.1.1.1.2.2.2
    refine ⟨rfl, ?_, ?_, .inl rfl⟩ <;> rw [running_update]
    · rw [h₁.1, h₂.1]
    · rw [h₁.2.2, h₂.2.2]

theorem StepOf.within_of_le (hI : Inv s) (hs : StepOf pol s h e s') (hsmall : s.d.ticks < 2 ^ 31)
    (hle : (s'.d.proc j).charged + (s'.d.proc j).ctime ≤
      (s.d.proc j).charged + (s.d.proc j).ctime) (hw : s.Within j) : s'.Within j := by
  obtain ⟨hw₁, hw₂⟩ := hw
  rcases hs.clock hI hsmall with ⟨ht, hp⟩ | ⟨ht, -⟩
  · refine ⟨by omega, fun hpj => ?_⟩
    have := hw₂ (hp j hpj)
    omega
  · refine ⟨by omega, fun _ => by omega⟩

theorem StepOf.not_pending_account (hI : Inv s) (hs : StepOf pol s h e s') {c : Choice} {exp : Code}
    (hcode : s.running h = Instr.account j :: rest)
    (hx : Sched.exec pol s.d h (s.cur h) c (Instr.account j) = some (d', exp, e))
    (hs' : s' = { s with d := d', code := Function.update s.code (s.cur h) (exp ++ rest) }) :
    ¬s'.Pending j := by
  rintro ⟨k, m, hk, hm⟩
  by_cases hkh : k = h
  · subst hkh
    cases hx
    have hin := (hI.ok hcode).2.2.2
    rw [hs', running_update, List.nil_append] at hk
    simp only [clocking, hin, Option.some.injEq] at hk
    omega
  · rw [hs.running_other hI hkh] at hk
    have hlk : Lock.tickslock ∈ held (s.running h) := by
      rw [hcode]
      exact held_subset_cons (by simp) (hI.ok hcode).1
    exact hkh (hI.exclusive (clocking_held (hI.wf _) hk) hlk)

/-- A step charges no slot beyond its time, unless it is filling the slot in. -/
theorem StepOf.within (hI : Inv s) (hs : StepOf pol s h e s') (hsmall : s.d.ticks < 2 ^ 31)
    (hf : ∀ b, Sched.filling (s.running h) ≠ some (j, b)) (hw : s.Within j) :
    s'.Within j := by
  have hstep := hs
  cases hs with
  | exec hcode hx =>
    rename_i c i rest exp d'
    rcases (exec_writes hx).charge j with ⟨hc, ht⟩ | ⟨rfl, hj⟩ | ⟨rfl, -⟩ | ⟨rfl, -⟩
    · exact hstep.within_of_le hI hsmall (by simp [hc, ht]) hw
    · have hpend : s.Pending j := ⟨h, j, by simp [hcode, clocking, inner], le_rfl⟩
      have hle := hw.2 hpend
      obtain ⟨h₁, -, h₃, -⟩ := accountProc_times (s.d.proc j)
      have ht : d'.ticks = s.d.ticks := by
        rcases (exec_ticks hx).2 with ⟨hi, -⟩ | ⟨-, ht⟩
        · simp at hi
        · exact ht
      refine ⟨?_, ?_⟩
      · simp only [hj, ht]
        omega
      · intro hp
        exact absurd hp (hstep.not_pending_account hI hcode hx rfl)
    · exact absurd (by rw [hcode]; rfl) (hf false)
    · exact absurd (by rw [hcode]; rfl) (hf true)
  | _ => exact hstep.within_of_le hI hsmall le_rfl hw

theorem asInt_of_lt {x : Nat} (hx : x < 2 ^ 31) : asInt x = x := if_pos hx

theorem Inv.filling_used (hI : Inv s)
    (hf : Sched.filling (s.running h) = some (j, b)) : (s.d.proc j).state = .used := by
  have := hI.claim (s.cur h) j (claims_of_filling hf)
  rw [← Sys.running, (settled_of_filling hf).2.2.2.1] at this
  simpa using this

theorem StepOf.dated_of_same (hI : Inv s) (hs : StepOf pol s h e s') (hsmall : s.d.ticks < 2 ^ 31)
    (hj : (s'.d.proc j).ctime = (s.d.proc j).ctime)
    (hd : (s.d.proc j).ctime ≤ s.d.ticks ∧ (s.Pending j → (s.d.proc j).ctime + 1 ≤ s.d.ticks)) :
    (s'.d.proc j).ctime ≤ s'.d.ticks ∧ (s'.Pending j → (s'.d.proc j).ctime + 1 ≤ s'.d.ticks) := by
  rw [hj]
  rcases hs.clock hI hsmall with ⟨ht, hp⟩ | ⟨ht, -⟩
  · refine ⟨by omega, fun hpj => ?_⟩
    have := hd.2 (hp j hpj)
    omega
  · exact ⟨by omega, fun _ => by omega⟩

theorem ClockInv.of_still (hI : Inv s) (hC : ClockInv s) (hs : StepOf pol s h e s')
    (hsmall : s.d.ticks < 2 ^ 31) (hd : s'.d = s.d)
    (hfill : filling (s'.running h) = filling (s.running h))
    (hstamp : stamping (s'.running h) = stamping (s.running h))
    (hcur : s'.cur h = s.cur h ∨ stamping (s'.running h) = false) : ClockInv s' := by
  have hfill' : ∀ k, filling (s'.running k) = filling (s.running k) := by
    intro k
    by_cases hk : k = h
    · rw [hk, hfill]
    · rw [hs.running_other hI hk]
  have hstamp' : ∀ k, stamping (s'.running k) = stamping (s.running k) := by
    intro k
    by_cases hk : k = h
    · rw [hk, hstamp]
    · rw [hs.running_other hI hk]
  have hcur' : ∀ k, s'.cur k = s.cur k ∨ stamping (s'.running k) = false := by
    intro k
    by_cases hk : k = h
    · rw [hk]
      exact hcur
    · exact .inl (hs.cur_other hk)
  have hw : ∀ j, s.Within j → s'.Within j := fun j =>
    hs.within_of_le hI hsmall (by rw [hd])
  refine ⟨?_, ?_, ?_, ?_, ?_⟩
  · rw [hd]
    exact hC.nonneg
  · intro j hj hf
    rw [hd] at hj
    exact hw j (hC.live j hj fun k b => hfill' k ▸ hf k b)
  · intro k j hk
    exact hs.dated_of_same hI hsmall (by rw [hd]) (hC.dated k j (hfill' k ▸ hk))
  · intro k j hk hst hz
    rw [hd] at hz
    rcases hcur' k with hc | hc
    · exact hw j (hC.unstamped k j (hc ▸ hk) (hstamp' k ▸ hst) hz)
    · simp [hc] at hst
  · intro j hz hst
    rw [hd] at hz ⊢
    refine hC.stamped j hz fun k hk => ?_
    rw [← hstamp' k]
    rcases hcur' k with hc | hc
    · exact hst k (hc.trans hk)
    · exact hc

theorem exec_filling {c : Choice} {exp : Code}
    (hx : Sched.exec pol s.d h (s.cur h) c i = some (d', exp, e))
    (hf : filling (i :: rest) = some (j, b)) :
    i = setCtime j ∧ b = false ∨ i = initCounters j ∧ b = true := by
  cases i <;> simp [filling] at hf
  case acquire | release => simp [Sched.exec] at hx
  case setCtime k => exact .inl ⟨by rw [hf.1], hf.2⟩
  case initCounters k => exact .inr ⟨by rw [hf.1], hf.2⟩

section

variable {c : Choice} {i : Instr} {rest exp : Code} {d' : Data n}

theorem ClockInv.live_of_exec (hI : Inv s) (hC : ClockInv s) (hs : StepOf pol s h e s')
    (hsmall : s.d.ticks < 2 ^ 31) (hcode : s.running h = i :: rest)
    (hx : Sched.exec pol s.d h (s.cur h) c i = some (d', exp, e)) (hd : s'.d = d')
    (hrun : s'.running h = exp ++ rest) (hj : (s'.d.proc j).state.Alive)
    (hf : ∀ k b, filling (s'.running k) ≠ some (j, b)) : s'.Within j := by
  have hok := hI.ok hcode
  by_cases hold : ∃ k b, filling (s.running k) = some (j, b)
  · -- the only hart that can have finished filling in `j` is `h`
    obtain ⟨k, b, hk⟩ := hold
    have hkh : k = h := by
      by_contra hkh
      exact hf k b (by rw [hs.running_other hI hkh, hk])
    subst hkh
    rw [hcode] at hk
    rcases exec_filling hx hk with ⟨rfl, -⟩ | ⟨rfl, rfl⟩
    · cases hx
      exact absurd (by rw [hrun]; exact hok.2.2) (hf k true)
    · cases hx
      have hdate := hs.dated_of_same hI hsmall (j := j) (by simp [hd])
        (hC.dated k j (by rw [hcode, hk]))
      have hzero : (s'.d.proc j).charged = 0 := by simp [hd, Proc.charged]
      rw [Within, hzero, Int.zero_add]
      exact hdate
  · push Not at hold
    by_cases hal : (s.d.proc j).state.Alive
    · exact hs.within hI hsmall (hold h) (hC.live j hal hold)
    · exfalso
      have hne : (d'.proc j).state ≠ (s.d.proc j).state := by
        intro heq
        rw [hd, heq] at hj
        exact hal hj
      have htr := exec_transition hI hcode hx hne
      rw [hd] at hj
      generalize (s.d.proc j).state = a, (d'.proc j).state = b at htr hal hj
      cases htr
      case used pid hi =>
        subst hi
        cases hx
        exact hf h false (by rw [hrun]; exact hok.2)
      case reap => simp [Procstate.Alive] at hj
      all_goals simp [Procstate.Alive] at hal

theorem ClockInv.dated_of_exec (hI : Inv s) (hC : ClockInv s) (hs : StepOf pol s h e s')
    (hsmall : s.d.ticks < 2 ^ 31) (hcode : s.running h = i :: rest)
    (hx : Sched.exec pol s.d h (s.cur h) c i = some (d', exp, e)) (hd : s'.d = d')
    (hrun : s'.running h = exp ++ rest) {k : Fin n} (hk : filling (s'.running k) = some (j, true)) :
    (s'.d.proc j).ctime ≤ s'.d.ticks ∧ (s'.Pending j → (s'.d.proc j).ctime + 1 ≤ s'.d.ticks) := by
  have hok := hI.ok hcode
  by_cases hkh : k = h
  · subst hkh
    rw [hrun] at hk
    rcases (exec_effect hx hok).filling with hf | ⟨m, pid, rfl, hf⟩ | ⟨m, rfl, hf⟩ | ⟨m, rfl, hf⟩
    · rw [hf] at hk
      rcases exec_filling hx hk with ⟨-, hb⟩ | ⟨rfl, -⟩
      · simp at hb
      · rw [← hf] at hk
        cases hx
        have := hok.2.1.1.2.2.2.1
        simp [this] at hk
    · simp [hf] at hk
    · obtain rfl : m = j := by
        rw [hf] at hk
        simpa using hk
      have hct : (s'.d.proc m).ctime = s.d.ticks := by
        cases hx
        simp [hd, asInt_of_lt hsmall]
      have hlk : Lock.tickslock ∈ held (s.running k) := by
        rw [hcode]
        exact held_subset_cons (by simp) hok.1
      rcases hs.clock hI hsmall with ⟨ht, hp⟩ | ⟨-, r, hr⟩
      · refine ⟨by omega, fun hpj => ?_⟩
        exact absurd (hp m hpj) (hI.not_pending hlk (by simp [hcode, clocking, inner]) m)
      · rw [hcode] at hr
        simp at hr
    · simp [hf] at hk
  · rw [hs.running_other hI hkh] at hk
    refine hs.dated_of_same hI hsmall ?_ (hC.dated k j hk)
    rw [hd]
    rcases (exec_writes hx).charge j with ⟨-, ht⟩ | ⟨-, hj⟩ | ⟨rfl, -⟩ | ⟨-, -, ht⟩
    · exact ht
    · rw [hj, (accountProc_times _).1]
    · have hlk : Lock.proc j ∈ held (s.running h) := by
        rw [hcode]
        exact held_subset_cons (by simp) hok.2.1
      exact absurd (hI.exclusive (filling_mem_held (hI.wf _) hk) hlk) hkh
    · exact ht

theorem ClockInv.of_exec (hI : Inv s) (hC : ClockInv s) (hs : StepOf pol s h e s')
    (hsmall : s.d.ticks < 2 ^ 31) (hcode : s.running h = i :: rest)
    (hx : Sched.exec pol s.d h (s.cur h) c i = some (d', exp, e))
    (hs' : s' = { s with d := d', code := Function.update s.code (s.cur h) (exp ++ rest) }) :
    ClockInv s' := by
  have hd : s'.d = d' := by rw [hs']
  have hcur : s'.cur = s.cur := by rw [hs']
  have hrun : s'.running h = exp ++ rest := by rw [hs', running_update]
  have hok := hI.ok hcode
  -- a zombie that is still being run has `setTtime` as its next instruction
  have hstamp : ∀ j, s.cur h = .kernel j → (s.d.proc j).state = .zombie → i = setTtime j := by
    intro j hj hz
    have hrun := hI.run h j hj
    rw [hcode] at hrun
    split at hrun
    · next hp =>
      obtain ⟨p, rfl⟩ := exec_parked hx hp
      have := hok.1
      rw [hj] at this
      rw [Thread.kernel.inj this]
    · simp [hz] at hrun
  refine ⟨?_, ?_, ?_, ?_, ?_⟩
  · intro j
    rw [hd]
    exact (exec_writes hx).nonneg j (hC.nonneg j)
  · intro j hj hf
    exact hC.live_of_exec hI hs hsmall hcode hx hd hrun hj hf
  · intro k j hk
    exact hC.dated_of_exec hI hs hsmall hcode hx hd hrun hk
  · intro k j hk hst hz
    rw [hcur] at hk
    rw [hd] at hz
    have hnot : (s.d.proc j).state ≠ .used → ∀ m b, filling (s.running m) ≠ some (j, b) :=
      fun hu m b hf => hu (hI.filling_used hf)
    rcases exec_zombie hI hcode hx hz with hold | ⟨hcj, hold, -⟩
    · have hkh : k ≠ h := by
        rintro rfl
        obtain rfl := hstamp j hk hold
        cases hx
        rw [hrun] at hst
        simp [hok.2.2.2.2] at hst
      rw [hs.running_other hI hkh] at hst
      exact hs.within hI hsmall (hnot (by simp [hold]) h) (hC.unstamped k j hk hst hold)
    · refine hs.within hI hsmall (hnot (by simp [hold]) h) (hC.live j ?_ (hnot (by simp [hold])))
      simp [Procstate.Alive, hold]
  · intro j hz hst
    rw [hd] at hz ⊢
    rcases exec_zombie hI hcode hx hz with hold | ⟨hcj, -, st, rfl⟩
    · have hclaim : ∀ x : Instr, i = x → x.claim = some j → allocating (x :: rest) = none → False := by
        rintro x rfl hx hal
        have := hI.used_of_claim hcode hx hal
        simp [this] at hold
      by_cases hh : s.cur h = .kernel j
      · obtain rfl := hstamp j hh hold
        have hw := hC.unstamped h j hh (by rw [hcode]; rfl) hold
        cases hx
        simpa [Proc.charged, asInt_of_lt hsmall] using hw.1
      · have hbound := hC.stamped j hold fun k hk => by
          have hkh : k ≠ h := by
            rintro rfl
            exact hh hk
          rw [← hs.running_other hI hkh]
          exact hst k (by rw [hcur, hk])
        have hch : (d'.proc j).charged = (s.d.proc j).charged ∧
            (d'.proc j).ctime = (s.d.proc j).ctime := by
          rcases (exec_writes hx).charge j with hsame | ⟨-, hj⟩ | ⟨hi, -⟩ | ⟨hi, -⟩
          · exact hsame
          · rw [hj, accountProc_of_not_alive (.inr (by simp [Procstate.Alive, hold]))]
            exact ⟨rfl, rfl⟩
          · exact (hclaim _ hi rfl rfl).elim
          · exact (hclaim _ hi rfl rfl).elim
        have htt : (d'.proc j).ttime = (s.d.proc j).ttime := by
          rcases (exec_writes hx).ttime_eq j with hsame | hi | ⟨rfl, -⟩
          · exact hsame
          · exact (hclaim _ hi rfl rfl).elim
          · exact absurd hok.1 hh
        rw [hch.1, hch.2, htt]
        exact hbound
    · exfalso
      cases hx
      have := hst h (by rw [hcur, hcj])
      rw [hrun] at this
      simp [hok.2.2.2.2.2] at this

end

theorem ClockInv.step (hI : Inv s) (hC : ClockInv s) (hs : StepOf pol s h e s')
    (hsmall : s.d.ticks < 2 ^ 31) : ClockInv s' := by
  rcases hs.still hI with ⟨c, i, rest, exp, d', hcode, hx, hs'⟩ | ⟨hd, hfill, hstamp, hcur⟩
  · exact hC.of_exec hI hs hsmall hcode hx hs'
  · exact hC.of_still hI hs hsmall hd hfill hstamp hcur

theorem ClockInv.boot : ClockInv (boot n) := by
  have hrun : ∀ h, (Sys.boot n).running h = [schedLoop] := fun h => rfl
  refine ⟨?_, ?_, ?_, ?_, ?_⟩
  · intro j
    simp only [Sys.boot]
    split <;> simp
  · intro j hj hf
    refine ⟨?_, ?_⟩
    · simp only [Sys.boot, Proc.charged]
      split <;> simp
    · rintro ⟨h, k, hk, -⟩
      simp [hrun, clocking, inner] at hk
  · intro h j hf
    simp [hrun, filling] at hf
  · intro h j hcur
    simp [Sys.boot] at hcur
  · intro j hz
    simp only [Sys.boot] at hz
    split at hz <;> simp at hz

/-- The steps that keep `ticks` within an `int`. -/
def TicksFit (_ : Sys n) (_ : Event n) (t : Sys n) : Prop := t.d.ticks < 2 ^ 31

theorem Step.ticks_le (hs : s.Step pol e s') : s'.d.ticks ≤ s.d.ticks + 1 := by
  obtain ⟨h, hs⟩ := hs.stepOf
  cases hs with
  | exec hcode hx =>
    rcases (exec_ticks hx).2 with ⟨-, ht⟩ | ⟨-, ht⟩
    · rw [ht]
      exact Nat.mod_le _ _
    · exact ht.le.trans (Nat.le_succ _)
  | _ => exact Nat.le_succ _

theorem ticksFit_of_length (hrun : Lib.Run (Step pol) s es s')
    (hlen : s.d.ticks + es.length < 2 ^ 31) :
    Lib.Run (Lib.Restrict (Step pol) TicksFit) s es s' := by
  suffices h : s'.d.ticks ≤ s.d.ticks + es.length ∧
      Lib.Run (Lib.Restrict (Step pol) TicksFit) s es s' from h.2
  induction hrun with
  | refl => exact ⟨by simp, .refl _⟩
  | tail _ hlast ih =>
    rw [List.length_append, List.length_singleton] at hlen ⊢
    obtain ⟨hle, hrun⟩ := ih (by omega)
    have hnext := hlast.ticks_le
    exact ⟨by omega, hrun.tail ⟨hlast, by unfold TicksFit; omega⟩⟩

theorem clockInv_of_run (hrun : Lib.Run (Lib.Restrict (Step pol) TicksFit) (boot n) es s) :
    Inv s ∧ ClockInv s ∧ s.d.ticks < 2 ^ 31 := by
  refine hrun.invariant (I := fun s => Inv s ∧ ClockInv s ∧ s.d.ticks < 2 ^ 31) ?_
    ⟨Inv.boot, ClockInv.boot, by simp [Sys.boot]⟩
  rintro s e s' ⟨hI, hC, hsmall⟩ ⟨hstep, hfit⟩
  obtain ⟨h, hs⟩ := hstep.stepOf
  exact ⟨hI.step hstep, hC.step hI hs hsmall, hfit⟩

/-! ## Zombies -/

def Sealed (s : Sys n) (p : Slot) : Prop :=
  (s.d.proc p).state = .zombie ∧ ∀ h, s.cur h ≠ .kernel p

theorem Inv.sealed (hI : Inv s) (hfree : s.owner (.proc p) = none)
    (hz : (s.d.proc p).state = .zombie) : s.Sealed p := by
  refine ⟨hz, fun h hcur => ?_⟩
  have hrun := hI.run h p hcur
  split at hrun
  · next hp =>
    have := hI.pinned_held (.inr (.inr (.inr ⟨hcur, hp⟩)))
    rw [← hI.own, hfree] at this
    simp at this
  · simp [hz] at hrun

theorem StepOf.zombie (hI : Inv s) (hs : StepOf pol s h e s') (hz : (s.d.proc p).state = .zombie)
    (he : ∀ q pid st, e ≠ .reaped q p pid st) :
    (s'.d.proc p).state = .zombie := by
  by_contra hne
  rw [← hz] at hne
  cases hs
  case exec c i rest exp d' hcode hx =>
    have htr := exec_transition hI hcode hx hne
    generalize (d'.proc p).state = b at htr
    rw [hz] at htr
    cases htr with
    | reap hi =>
      subst hi
      simp only [Sched.exec, hz, if_true] at hx
      split at hx
      · cases hx
        exact he _ _ _ rfl
      · split at hx
        · cases hx
          exact hne rfl
        · simp at hx
      · simp at hx
  all_goals exact hne rfl

theorem Sealed.step (hI : Inv s) (hs : StepOf pol s h e s') (hp : s.Sealed p)
    (he : ∀ q pid st, e ≠ .reaped q p pid st) :
    s'.Sealed p ∧ (s'.d.proc p).times = (s.d.proc p).times := by
  obtain ⟨hz, hcur⟩ := hp
  refine ⟨⟨hs.zombie hI hz he, ?_⟩, ?_⟩
  · intro k hk
    by_cases hkh : k = h
    · subst hkh
      cases hs
      case sched => simp at hk
      case swtch i rest hcode =>
        obtain rfl : i = p := by simpa using hk
        have := (hI.target hcode).2.2.2.1
        simp [hz] at this
      all_goals exact hcur k hk
    · rw [hs.cur_other hkh] at hk
      exact hcur k hk
  · cases hs
    case exec c i rest exp d' hcode hx =>
      have hclaim : ∀ x : Instr, i = x → x.claim = some p → allocating (x :: rest) = none → False := by
        rintro x rfl hx hal
        have := hI.used_of_claim hcode hx hal
        simp [this] at hz
      rcases (exec_writes hx).times p with hsame | ⟨-, hacc⟩ | ⟨hi, -⟩ | ⟨hi, -⟩ | ⟨rfl, -⟩
      · exact hsame
      · rw [hacc, accountProc_of_not_alive (.inr (by simp [Procstate.Alive, hz]))]
      · exact (hclaim _ hi rfl rfl).elim
      · exact (hclaim _ hi rfl rfl).elim
      · exact absurd (hI.ok hcode).1 (hcur h)
    all_goals rfl

theorem Sealed.run (hI : Inv s) (hp : s.Sealed p) (hrun : Lib.Run (Step pol) s es s')
    (he : ∀ q pid st, Event.reaped q p pid st ∉ es) :
    (s'.d.proc p).state = .zombie ∧ (s'.d.proc p).times = (s.d.proc p).times := by
  suffices h : Inv s' ∧ ((∀ q pid st, Event.reaped q p pid st ∉ es) →
      s'.Sealed p ∧ (s'.d.proc p).times = (s.d.proc p).times) from
    ⟨(h.2 he).1.1, (h.2 he).2⟩
  refine hrun.history (I := fun es t => Inv t ∧ ((∀ q pid st, Event.reaped q p pid st ∉ es) →
    t.Sealed p ∧ (t.d.proc p).times = (s.d.proc p).times)) ?_ ⟨hI, fun _ => ⟨hp, rfl⟩⟩
  rintro es t e t' ⟨hIt, ih⟩ hstep
  refine ⟨hIt.step hstep, fun hes => ?_⟩
  obtain ⟨hseal, htimes⟩ := ih fun q pid st hmem => hes q pid st (by simp [hmem])
  obtain ⟨h, hs⟩ := hstep.stepOf
  obtain ⟨hseal', htimes'⟩ := hseal.step hIt hs fun q pid st heq => hes q pid st (by simp [heq])
  exact ⟨hseal', htimes'.trans htimes⟩

/-- While `p->lock` is free, the counters of a live process add up to at most the
ticks since its creation, those of a zombie to at most its life time, and the
accounting fields of a zombie stay as they are until it is reaped.  The bounds hold
even while another hart is inside `clockintr`. -/
theorem tick_accounting (pol : Policy) (es : List (Event n)) (s : Sys n)
    (hrun : Lib.Run (Lib.Restrict (Step pol) TicksFit) (boot n) es s) (p : Slot)
    (hfree : s.owner (.proc p) = none) :
    ((s.d.proc p).state ≠ .unused → (s.d.proc p).state ≠ .zombie →
      (s.d.proc p).stime + (s.d.proc p).retime + (s.d.proc p).rutime ≤
        s.d.ticks - (s.d.proc p).ctime) ∧
    ((s.d.proc p).state = .zombie →
      (s.d.proc p).ctime ≤ (s.d.proc p).ttime ∧
      (s.d.proc p).stime + (s.d.proc p).retime + (s.d.proc p).rutime ≤
        (s.d.proc p).ttime - (s.d.proc p).ctime ∧
      ∀ es' s', Lib.Run (Step pol) s es' s' → (∀ q pid st, Event.reaped q p pid st ∉ es') →
        (s'.d.proc p).state = .zombie ∧ (s'.d.proc p).times = (s.d.proc p).times) := by
  obtain ⟨hI, hC, -⟩ := clockInv_of_run hrun
  refine ⟨?_, ?_⟩
  · intro hu hz
    have hfill : ∀ h b, filling (s.running h) ≠ some (p, b) := by
      intro h b hf
      have := filling_mem_held (hI.wf _) hf
      rw [← Sys.running, ← hI.own, hfree] at this
      simp at this
    have := (hC.live p ⟨hu, hz⟩ hfill).1
    unfold Proc.charged at this
    omega
  · intro hz
    have hseal := hI.sealed hfree hz
    have hle := hC.stamped p hz fun h hcur => absurd hcur (hseal.2 h)
    have hpos := hC.nonneg p
    unfold Proc.charged at hle
    exact ⟨by omega, by omega, fun es' s' hrun' he => hseal.run hI hrun' he⟩

/-- The first clock interrupt has just charged the first process, which waits to be
dispatched. -/
theorem tick_accounting_first_tick :
    ∃ (es : List (Event 1)) (s : Sys 1),
      Lib.Run (Lib.Restrict (Step .srt) TicksFit) (boot 1) es s ∧ s.owner (.proc 0) = none ∧
        s.d.ticks = 1 ∧ (s.d.proc 0).retime = 1 ∧
        (s.d.proc 0).stime + (s.d.proc 0).retime + (s.d.proc 0).rutime ≤
          s.d.ticks - (s.d.proc 0).ctime := by
  obtain ⟨⟨s, es⟩, hs⟩ : ∃ x, (boot 1).trace .srt
      ((0, .interrupt .timer) :: List.replicate 6 (0, .go)) = some x := ⟨_, rfl⟩
  obtain ⟨hes, hrun⟩ := trace_run hs
  have hfit := ticksFit_of_length hrun (by rw [hes]; decide)
  obtain ⟨hfree, ht, hre, hst⟩ : s.owner (.proc 0) = none ∧ s.d.ticks = 1 ∧
      (s.d.proc 0).retime = 1 ∧ (s.d.proc 0).state = .runnable := by
    obtain rfl := (Prod.mk.inj (Option.some.inj hs)).1
    exact ⟨rfl, rfl, rfl, rfl⟩
  have hle := (tick_accounting .srt es s hfit 0 hfree).1 (by simp [hst]) (by simp [hst])
  exact ⟨es, s, hfit, hfree, ht, hre, hle⟩

end Sys

end Xv6.Sched
