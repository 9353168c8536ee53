import Xv6.Sched.Lifecycle

/-!
# Sleeping and waking up

`sleep` takes `p->lock` before it releases the caller's lock, and `wakeup` takes
`p->lock` to look at `p`.  So from the moment the caller's lock is released, a
process either already sleeps or holds its own lock until it does, and a `wakeup`
that goes past its slot finds it.
-/

namespace Xv6.Sched

open Instr

variable {n : Nat}

variable {c rest : Code} {d d' : Data n} {t : Thread n} {i : Instr} {k : Nat}

section

attribute [local simp] napping Ok Settled Still Quiet Idle

theorem napping_exit {ip p : Slot} {st : Int} : napping (exit ip p st ++ c) = false := by
  unfold exit
  split <;> simp

theorem napping_syscall {ip p : Slot} {x : Syscall} : napping (syscall ip p x ++ c) = false := by
  cases x
  case exit => exact napping_exit
  all_goals simp [syscall, fork, wait, kill, sysSleep]

theorem exec_napping {pol : Policy} {h : Fin n} {c : Choice} {exp : Code} {e : Event n}
    (hx : exec pol d h t c i = some (d', exp, e)) (hok : Ok t i rest) :
    napping (exp ++ rest) = false := by
  cases i <;> simp only [exec, forSlot, Option.bind_eq_bind, Option.bind_eq_some_iff,
    reduceCtorEq] at hx
  case user =>
    obtain ⟨p, -, hx⟩ := hx
    split at hx <;> cases hx
    · split
      · rw [List.append_assoc]
        exact napping_exit
      · rw [List.append_assoc]
        exact napping_syscall
    · rfl
  case killedExit =>
    obtain ⟨p, -, -, rfl, -⟩ := hx
    split
    · exact napping_exit
    · simp_all
  case quantum =>
    obtain ⟨p, -, -, rfl, -⟩ := hx
    rfl
  case allocMem | killCheck | reparent | clients | clientLoop | intrLoop | waitCheck | tryRun =>
    repeat' split at hx
    all_goals cases hx
    all_goals simp_all [forkTail, allocQueueCounter, wakeup, sleep]
  all_goals cases hx
  case yieldRunnable p => exact (settled_of_parked hok.2.2).2.2.2.2.1
  case setSleeping p chan => exact (settled_of_parked hok.2.2.1).2.2.2.2.1
  case setZombie p st => exact (settled_of_parked hok.2.2.2.1).2.2.2.2.1
  case setTtime p => exact (settled_of_parked hok.2.2.2.1).2.2.2.2.1
  case setUsed j pid => exact (settled_of_filling hok.2).2.2.2.2.1
  case setCtime j => exact (settled_of_filling hok.2.2).2.2.2.2.1
  case setAverage j b => exact (settled_of_dispatching hok.2.2.1).2.2.2.2.1
  case scan k cand min =>
    split
    · rfl
    · cases cand <;> simp_all
  all_goals
    first
    | rfl
    | simp_all; done
    | repeat' split
      all_goals simp_all [allocFound, allocQueueCounter, sleep]

end

theorem Writes.chan_eq (hw : Writes d i d') (j : Slot) :
    (d'.proc j).chan = (d.proc j).chan ∨
      (∃ ch, i = setSleeping j ch ∧ (d'.proc j).chan = ch) ∨ i = clearChan j ∨
      (d'.proc j).state = .unused := by
  cases hw
  case none hsame => exact .inl (hsame j).chan
  case sleeping p ch hi hd =>
    by_cases hj : j = p
    · subst hj
      exact .inr (.inl ⟨ch, hi, by simp [hd, Data.setState]⟩)
    · exact .inl (by simp [hd, Data.setState, hj])
  case clear p hi hd =>
    by_cases hj : j = p
    · exact .inr (.inr (.inl (hj ▸ hi)))
    · exact .inl (by simp [hd, hj])
  case freed k hi hd =>
    by_cases hj : j = k
    · exact .inr (.inr (.inr (by simp [hd, hj, Data.freeproc, Data.setState])))
    · exact .inl (by simp [hd, hj, Data.freeproc, Data.setState])
  case account k hi hd =>
    left
    rw [hd, Data.setProc_proc]
    split
    · next hj =>
      rw [hj]
      unfold Data.accountProc
      split <;> rfl
    · rfl
  all_goals
    rename_i hd
    left
    rw [hd]
    simp only [Data.setState, Data.setProc_proc]
    split <;> simp_all

namespace Sys

variable {pol : Policy} {s s' : Sys n} {h : Fin n} {e : Event n} {p : Slot} {chan : Chan}

def Committed (s : Sys n) (p : Slot) (chan : Chan) : Prop :=
  (s.d.proc p).state = .sleeping ∧ (s.d.proc p).chan = chan ∨
    ∃ c, s.code (.kernel p) = setSleeping p chan :: c

theorem Inv.napping_held (hI : Inv s) (hcode : s.code (.kernel p) = setSleeping p chan :: c) :
    ∃ h, s.cur h = .kernel p ∧ Lock.proc p ∈ held (s.running h) := by
  by_contra hno
  push Not at hno
  have hcur : ∀ h, s.cur h ≠ .kernel p := by
    intro h hcur
    have hrun : s.running h = setSleeping p chan :: c := by rw [Sys.running, hcur, hcode]
    apply hno h hcur
    rw [hrun]
    exact held_subset_cons (by simp) (hI.ok hrun).2.1
  have hnap := (hI.susp p hcur).1.1.1.2.2.2.2.1
  simp [hcode, napping] at hnap

theorem Inv.sleeping_of_committed (hI : Inv s) (hc : s.Committed p chan)
    (hheld : Lock.proc p ∈ held (s.running h)) (hnap : napping (s.running h) = false) :
    (s.d.proc p).state = .sleeping ∧ (s.d.proc p).chan = chan := by
  rcases hc with hc | ⟨c, hcode⟩
  · exact hc
  · obtain ⟨k, hk, hheld'⟩ := hI.napping_held hcode
    obtain rfl := hI.exclusive hheld hheld'
    rw [Sys.running, hk, hcode] at hnap
    simp [napping] at hnap

theorem Inv.not_committed (hI : Inv s) (hcur : s.cur h = .kernel p)
    (hp : parked (s.running h) = false) (hnap : napping (s.running h) = false) :
    ¬s.Committed p chan := by
  rintro (⟨hst, -⟩ | ⟨c, hcode⟩)
  · have hrun := hI.run h p hcur
    rw [if_neg (by simp [hp]), hst] at hrun
    cases hrun
  · rw [Sys.running, hcur, hcode] at hnap
    simp [napping] at hnap

theorem Inv.not_committed_self (hI : Inv s) {chan' : Chan}
    (hcode : s.running h = wakeupLoop chan' k :: rest) (hcpu : s.d.cpuProc h = some p) :
    ¬s.Committed p chan := by
  have hc := hI.cpu h
  cases ht : s.cur h with
  | scheduler k' =>
    rw [ht, hcode] at hc
    have : s.d.cpuProc h = none := hc
    simp [this] at hcpu
  | kernel q =>
    rw [ht] at hc
    obtain rfl : q = p := Option.some.inj (hc.symm.trans hcpu)
    exact hI.not_committed ht (by rw [hcode]; rfl) (by rw [hcode]; rfl)

/-- A code that starts with `setSleeping` was reached through `sleep`. -/
theorem StepOf.napping (hI : Inv s) (hs : StepOf pol s h e s')
    (hcode' : s'.code (.kernel p) = setSleeping p chan :: c) :
    s.code (.kernel p) = setSleeping p chan :: c ∨ ∃ lk, e = .slept p chan lk := by
  have hnap : Sched.napping (s'.code (.kernel p)) = true := by rw [hcode']; rfl
  by_cases hcur : .kernel p = s.cur h
  · rw [hcur] at hnap hcode'
    cases hs with
    | acquire hcode hfree =>
      simp [(hI.ok hcode).2.2.2.2.2.2] at hnap
    | release hcode hi hown =>
      rcases hi with ⟨rfl, -⟩ | ⟨q, ch, rfl, rfl⟩
      · simp [(hI.ok hcode).2.2.2.1] at hnap
      · obtain ⟨c', rfl⟩ := (hI.ok hcode).2.2.2
        simp only [Function.update_self, List.cons.injEq, setSleeping.injEq] at hcode'
        obtain ⟨⟨rfl, rfl⟩, -⟩ := hcode'
        exact .inr ⟨_, rfl⟩
    | sched hcode hstate =>
      simp [(hI.ok hcode).2.1.1.1.2.2.2.2.1] at hnap
    | swtch hcode =>
      obtain ⟨⟨k, hk⟩, -⟩ := hI.ok hcode
      rw [hk] at hcur
      cases hcur
    | forkret hcode =>
      obtain ⟨⟨q, hq, hqi⟩, -, hquiet, -⟩ := hI.ok hcode
      rename_i i rest
      have hne : s.cur h ≠ .kernel i := by simpa [hq] using hqi
      simp [Function.update_of_ne hne, hquiet.1.1.2.2.2.2.1] at hnap
    | exec hcode hx =>
      simp [exec_napping hx (hI.ok hcode)] at hnap
    | interrupt hnoff hiret =>
      rename_i k
      simp [(hI.trap_wf pol k hnoff).2.1.1.1.2.2.2.2.1] at hnap
  · rcases hs.code_other hI hcur with hsame | ⟨i, -, -, hnew⟩
    · exact .inl (hsame ▸ hcode')
    · simp [hnew, Sched.napping] at hnap

/-- Executing `setSleeping p chan` needs `p` to be committed already. -/
theorem Inv.committed_of_setSleeping (hI : Inv s)
    (hcode : s.running h = setSleeping p chan :: rest) : s.Committed p chan := by
  have hcur := (hI.ok hcode).1
  rw [Sys.running, hcur] at hcode
  exact .inr ⟨_, hcode⟩

theorem StepOf.chan_of_sleeping (hI : Inv s) (hs : StepOf pol s h e s')
    (hst : (s.d.proc p).state = .sleeping) (hst' : (s'.d.proc p).state = .sleeping) :
    (s'.d.proc p).chan = (s.d.proc p).chan := by
  have hnot : ∀ {i : Instr} {rest : Code}, s.running h = i :: rest → s.cur h = .kernel p →
      parked (i :: rest) = true := by
    intro i rest hcode hcur
    have hrun := hI.run h p hcur
    rw [hcode] at hrun
    split at hrun
    · next hp => exact hp
    · simp [hst] at hrun
  cases hs with
  | exec hcode hx =>
    rcases (exec_writes hx).chan_eq p with hsame | ⟨ch, rfl, -⟩ | rfl | hfree
    · exact hsame
    · cases hnot hcode (hI.ok hcode).1
    · cases hnot hcode (hI.ok hcode).1
    · have : Procstate.unused = .sleeping := hfree.symm.trans hst'
      cases this
  | _ => rfl

theorem StepOf.falls_asleep (hI : Inv s) (hs : StepOf pol s h e s')
    (hst : (s.d.proc p).state ≠ .sleeping) (hst' : (s'.d.proc p).state = .sleeping) :
    ∃ ch rest, s.cur h = .kernel p ∧ s.running h = setSleeping p ch :: rest ∧
      s'.code (.kernel p) = rest ∧ (s'.d.proc p).chan = ch := by
  obtain ⟨i, rest, hcode, htr⟩ := hs.transition hI (j := p) (by rw [hst']; exact hst.symm)
  rw [hst'] at htr
  generalize (s.d.proc p).state = a at htr
  cases htr with
  | sleep ht hi =>
    rename_i ch
    subst hi
    refine ⟨ch, rest, ht, hcode, ?_⟩
    cases hs with
    | exec hcode' hx =>
      obtain ⟨rfl, rfl⟩ := List.cons.inj (hcode'.symm.trans hcode)
      cases hx
      simp [ht, Data.setState]
    | _ => exact absurd hst' hst

/-- A process commits itself to sleeping only by the `release` inside `sleep`. -/
theorem StepOf.committed (hI : Inv s) (hs : StepOf pol s h e s') (hc : s'.Committed p chan) :
    s.Committed p chan ∨ ∃ lk, e = .slept p chan lk := by
  rcases hc with ⟨hst, hch⟩ | ⟨c, hcode'⟩
  · left
    by_cases hold : (s.d.proc p).state = .sleeping
    · exact .inl ⟨hold, (hs.chan_of_sleeping hI hold hst).symm.trans hch⟩
    · obtain ⟨ch, rest, -, hcode, -, hch'⟩ := hs.falls_asleep hI hold hst
      rw [← hch, hch']
      exact hI.committed_of_setSleeping hcode
  · rcases hs.napping hI hcode' with hold | hnew
    · exact .inl (.inr ⟨c, hold⟩)
    · exact .inr hnew

/-! ## How a wakeup goes past a slot -/

theorem exec_not_slept {c : Choice} {exp : Code} (hx : Sched.exec pol d h t c i = some (d', exp, e))
    (lk : Lock) : e ≠ .slept p chan lk := by
  rintro rfl
  cases exec_emits hx

inductive Rouse (s s' : Sys n) (h : Fin n) : Prop
  | none (hr' : rousing (s'.running h) = none)
      (hr : ∀ chan k, rousing (s.running h) = some (chan, k) → NPROC ≤ k)
  | start (chan : Chan) (hcur : s'.cur h = s.cur h) (hr' : rousing (s'.running h) = some (chan, 0))
      (hr : rousing (s.running h) = none)
  | same (hcur : s'.cur h = s.cur h) (hr' : rousing (s'.running h) = rousing (s.running h))
  /-- The process in slot `j` does not sleep on `chan`. -/
  | pass (chan : Chan) (j : Slot) (hcur : s'.cur h = s.cur h)
      (hr' : rousing (s'.running h) = some (chan, j.val + 1))
      (hr : rousing (s.running h) = some (chan, j.val)) (hj : ¬s'.Committed j chan)

theorem StepOf.rouse (hI : Inv s) (hs : StepOf pol s h e s') : Rouse s s' h := by
  cases hs.progress hI with
  | out hd hp hr => exact .none (none_of_plain hp).1 (by simp [hr])
  | lock hd hcur hin hbe => exact .same hcur (by simp [rousing, hin])
  | start hd hcur hr hin =>
    refine .none ?_ (by simp [hr])
    rcases hin with ⟨p, a, k, hin⟩ | ⟨p, hin⟩ <;> simp [rousing, hin]
  | exec hcode hd hcur hx hrun hsec =>
    rename_i c i rest exp d'
    have hback : ∀ j chan, s'.Committed j chan → s.Committed j chan := fun j chan hc =>
      (hs.committed hI hc).resolve_right (by simpa using fun lk => exec_not_slept hx lk)
    cases hsec
    case plain hp hr =>
      rw [← hrun] at hp
      exact .none (none_of_plain hp).1 (by simp [hcode, hr])
    case same hi hin hbe =>
      rw [← hrun, ← hcode] at hin
      exact .same hcur (by simp [rousing, hin])
    case wakeVisit chan j hi hj hd hin hbe =>
      subst hi
      rw [← hrun] at hin
      exact .same hcur (by simp [rousing, hin, hcode, inner])
    case wakeFound chan j hi hj hd hin hbe =>
      subst hi
      rw [← hrun] at hin
      exact .same hcur (by simp [rousing, hin, hcode, inner])
    case wakeSkip chan j hi hj hd hin hbe =>
      subst hi
      rw [← hrun] at hin
      refine .pass chan j hcur (by simp [rousing, hin]) (by simp [rousing, hcode, inner]) ?_
      exact fun hc => hI.not_committed_self hcode hj (hback j chan hc)
    case wakeMiss chan j hi hj hd hin hbe =>
      subst hi
      rw [← hrun] at hin
      refine .pass chan j hcur (by simp [rousing, hin]) (by simp [rousing, hcode, inner]) ?_
      intro hc
      refine hj (hI.sleeping_of_committed (h := h) (hback j chan hc) ?_ (by simp [hcode, Sched.napping]))
      rw [hcode]
      exact held_subset_cons (by simp) (hI.ok hcode).2.1
    case woken chan j hi hd' hin hbe =>
      subst hi
      rw [← hrun] at hin
      refine .pass chan j hcur (by simp [rousing, hin]) (by simp [rousing, hcode, inner]) ?_
      rintro (⟨hst, -⟩ | ⟨x, hx'⟩)
      · simp [hd, hd', Data.setState] at hst
      · have hold := (hs.napping hI hx').resolve_right
          (by simpa using fun lk => exec_not_slept hx lk)
        obtain ⟨k, hk, hheld⟩ := hI.napping_held hold
        have hheld' : Lock.proc j ∈ held (s.running h) := by
          rw [hcode]
          exact held_subset_cons (by simp) (hI.ok hcode).1
        obtain rfl := hI.exclusive hheld hheld'
        rw [Sys.running, hk, hold] at hcode
        cases hcode
    case wakeDone chan k hi hk hd hc =>
      subst hi
      refine .none ?_ ?_
      · rw [hrun, hc]
        rcases (hI.ok hcode).2.2.2 with hplain | ⟨p, j, hin⟩ | ⟨p, st, hin⟩
        · exact (none_of_plain hplain).1
        · simp [rousing, hin]
        · simp [rousing, hin]
      · intro ch m hm
        simp only [hcode, rousing, inner, Option.some.injEq, Prod.mk.injEq] at hm
        omega
    case clockDone k hi hk hd hin hbe =>
      subst hi
      rw [← hrun] at hin
      exact .start .ticks hcur (by simp [rousing, hin]) (by simp [rousing, hcode, inner])
    case wakeStart x hd hr hin hbe =>
      rw [← hrun] at hin
      exact .start (.other x) hcur (by simp [rousing, hin]) (by simp [hcode, hr])
    case adopt p j hi hj hd hin hbe =>
      subst hi
      rw [← hrun] at hin
      exact .start (.proc s.d.initproc) hcur (by simp [rousing, hin]) (by simp [rousing, hcode, inner])
    case exitWake p st hi hd hin hbe =>
      subst hi
      rw [← hrun] at hin
      exact .start (((s.d.proc p).parent.map Chan.proc).getD .null) hcur (by simp [rousing, hin])
        (by simp [rousing, hcode, inner])
    case sleepStart p chan lk hchan hd hr hin =>
      rw [← hrun] at hin
      exact .none (by simp [rousing, hin]) (by simp [hcode, hr])
    all_goals
      subst_vars
      exact .none (by simp_all [rousing]) (by simp [rousing, hcode, inner])

/-- A `wakeup(chan)` that has got past slot `p` was past it before, or has just seen
that `p` does not sleep on `chan`. -/
theorem Rouse.past (hr : Rouse s s' h) (hk : rousing (s'.running h) = some (chan, k))
    (hpk : p < k) :
    s'.cur h = s.cur h ∧ ((∃ k₀, rousing (s.running h) = some (chan, k₀) ∧ p < k₀) ∨
      ¬s'.Committed p chan) := by
  cases hr with
  | none hr' hr => simp [hr'] at hk
  | start chan' hcur hr' hr =>
    simp only [hr', Option.some.injEq, Prod.mk.injEq] at hk
    omega
  | same hcur hr' => exact ⟨hcur, .inl ⟨k, hr' ▸ hk, hpk⟩⟩
  | pass chan' j hcur hr' hr hj =>
    rw [hr'] at hk
    cases hk
    refine ⟨hcur, ?_⟩
    by_cases hpj : p = j
    · exact .inr (hpj ▸ hj)
    · have hne : p.val ≠ j.val := fun heq => hpj (Fin.ext heq)
      exact .inl ⟨j, hr, by omega⟩

/-- A `wakeup(chan)` does not go past a slot that stays committed to `chan`. -/
theorem Rouse.stays (hr : Rouse s s' h) (hk : rousing (s.running h) = some (chan, k)) (hkp : k ≤ p)
    (hc : s'.Committed p chan) :
    ∃ k', rousing (s'.running h) = some (chan, k') ∧ k' ≤ p := by
  cases hr with
  | none hr' hr =>
    have := hr chan k hk
    have := p.isLt
    omega
  | start chan' hcur hr' hr => simp [hr] at hk
  | same hcur hr' => exact ⟨k, by rw [hr', hk], hkp⟩
  | pass chan' j hcur hr' hr hj =>
    simp only [hr] at hk
    obtain ⟨rfl, rfl⟩ := hk
    refine ⟨j + 1, hr', ?_⟩
    by_contra hlt
    obtain rfl : p = j := Fin.ext (by omega)
    exact hj hc

/-! ## No wakeup is lost -/

/-- Thread `t` has not looked at `p` yet in the `wakeup(chan)` it is in, or `p` does
not sleep on `chan`. -/
def Heard (s : Sys n) (t : Thread n) (p : Slot) (chan : Chan) : Prop :=
  ∀ h k, s.cur h = t → rousing (s.running h) = some (chan, k) → p < k → ¬s.Committed p chan

theorem Heard.step (hI : Inv s) (hs : StepOf pol s h e s') (hh : s.Heard t p chan)
    (hno : ∀ lk, e ≠ .slept p chan lk) : s'.Heard t p chan := by
  intro j k hcur hr hpk hc
  have hold : s.Committed p chan := (hs.committed hI hc).resolve_right (by simpa using hno)
  by_cases hj : j = h
  · subst hj
    obtain ⟨hsame, ⟨k₀, hr₀, hpk₀⟩ | hnot⟩ := (hs.rouse hI).past hr hpk
    · exact hh j k₀ (hsame ▸ hcur) hr₀ hpk₀ hold
    · exact hnot hc
  · rw [hs.cur_other hj] at hcur
    rw [hs.running_other hI hj] at hr
    exact hh j k hcur hr hpk hold

theorem StepOf.returned (hs : StepOf pol s h (.wakeupReturned t chan) s') :
    s.cur h = t ∧ ∃ k, rousing (s.running h) = some (chan, k) ∧ NPROC ≤ k := by
  generalize he : Event.wakeupReturned t chan = e at hs
  cases hs with
  | exec hcode hx =>
    subst he
    cases exec_emits hx with
    | returned _ k hi hk =>
      subst hi
      exact ⟨rfl, k, by simp [rousing, hcode, inner], hk⟩
  | release hcode hi hown =>
    rcases hi with ⟨-, rfl⟩ | ⟨_, _, -, rfl⟩ <;> cases he
  | _ => cases he

/-- No `wakeup` is under way when a thread takes an outer lock. -/
theorem StepOf.heard_of_acquired {lk : Lock} (hI : Inv s) (hs : StepOf pol s h (.acquired t lk) s')
    (hlk : lk.rank < 2) : s'.Heard t p chan := by
  generalize he : Event.acquired t lk = e at hs
  cases hs with
  | acquire hcode hfree =>
    cases he
    rintro j k hcur hr - -
    obtain rfl : j = h := hI.cur_inj hcur
    rw [running_update] at hr
    rcases (hI.ok hcode).2.2.2.2.1 hlk with hp | ⟨q, a, b, hin⟩ | ⟨q, hin⟩
    · simp [(none_of_plain hp).1] at hr
    · simp [rousing, hin] at hr
    · simp [rousing, hin] at hr
  | exec hcode hx =>
    subst he
    cases exec_emits hx
  | release hcode hi hown =>
    rcases hi with ⟨-, rfl⟩ | ⟨_, _, -, rfl⟩ <;> cases he
  | _ => cases he

theorem StepOf.rank_of_slept {lk : Lock} (hI : Inv s) (hs : StepOf pol s h (.slept p chan lk) s') :
    lk.rank < 2 := by
  generalize he : Event.slept p chan lk = e at hs
  cases hs with
  | release hcode hi hown =>
    rcases hi with ⟨-, rfl⟩ | ⟨_, _, rfl, rfl⟩ <;> cases he
    exact (hI.ok hcode).2.2.1.1
  | exec hcode hx =>
    subst he
    cases exec_emits hx
  | _ => cases he

/-- A process that called `sleep(chan, lk)` is not asleep on `chan` any more once a
thread that took `lk` after the sleeper had released it has returned from
`wakeup(chan)`. -/
theorem no_lost_wakeup (pol : Policy) (before between after : List (Event n)) (s : Sys n) (p : Slot)
    (chan : Chan) (lk : Lock) (t : Thread n) (hrun : Lib.Run (Step pol) (boot n)
      (before ++ .slept p chan lk :: between ++ .acquired t lk :: after) s)
    (hwake : .wakeupReturned t chan ∈ after) (hlast : ∀ chan' lk', .slept p chan' lk' ∉ after) :
    ¬((s.d.proc p).state = .sleeping ∧ (s.d.proc p).chan = chan) := by
  have hrun' : Lib.Run (Step pol) (boot n)
      (before ++ ([.slept p chan lk] ++ (between ++ ([.acquired t lk] ++ after)))) s := by
    simpa using hrun
  obtain ⟨s₁, h₁, hrun'⟩ := hrun'.split
  obtain ⟨s₂, h₂, hrun'⟩ := hrun'.split
  obtain ⟨s₃, h₃, hrun'⟩ := hrun'.split
  obtain ⟨s₄, h₄, h₅⟩ := hrun'.split
  have hI₁ : Inv s₁ := Reachable.inv ⟨_, h₁⟩
  have hI₃ : Inv s₃ := Reachable.inv ⟨_, (h₁.append h₂).append h₃⟩
  have hI₄ : Inv s₄ := Reachable.inv ⟨_, ((h₁.append h₂).append h₃).append h₄⟩
  have hlk : lk.rank < 2 := by
    obtain ⟨h, hs⟩ := h₂.step_of_single.stepOf
    exact hs.rank_of_slept hI₁
  have hheard : s₄.Heard t p chan := by
    obtain ⟨h, hs⟩ := h₄.step_of_single.stepOf
    exact hs.heard_of_acquired hI₃ hlk
  suffices hmain : Inv s ∧ ((∀ chan' lk', .slept p chan' lk' ∉ after) →
      s.Heard t p chan ∧ (.wakeupReturned t chan ∈ after → ¬s.Committed p chan)) from
    fun hsl => (hmain.2 hlast).2 hwake (.inl hsl)
  refine h₅.history (I := fun es u => Inv u ∧ ((∀ chan' lk', Event.slept p chan' lk' ∉ es) →
    u.Heard t p chan ∧ (.wakeupReturned t chan ∈ es → ¬u.Committed p chan))) ?_
    ⟨hI₄, fun _ => ⟨hheard, by simp⟩⟩
  rintro es u e u' ⟨hI, ih⟩ hstep
  refine ⟨hI.step hstep, fun hno => ?_⟩
  have hold := ih fun c l hmem => hno c l (by simp [hmem])
  have he : ∀ l, e ≠ .slept p chan l := fun l hl => hno chan l (by simp [hl])
  obtain ⟨h, hs⟩ := hstep.stepOf
  refine ⟨hold.1.step hI hs he, ?_⟩
  intro hmem hc
  have hc' : u.Committed p chan := (hs.committed hI hc).resolve_right (by simpa using he)
  rcases List.mem_append.1 hmem with hmem | hmem
  · exact hold.2 hmem hc'
  · obtain rfl : _ = e := by simpa using hmem
    obtain ⟨hcur, k, hr, hk⟩ := hs.returned
    exact hold.1 h k hcur hr (p.isLt.trans_le hk) hc'

/-- Hart 0 puts the first process to sleep on channel 5 under lock 0; then hart 1 takes
a device interrupt whose handler takes the lock and calls `wakeup`. -/
def sleepThenWake : List (Fin 2 × Choice) :=
  [goes 0 6, [(0, .done), (0, .syscall (.client 0)), (0, .go), (0, .sleepOn 5)], goes 0 6,
    [(1, .interrupt (.device 0)), (1, .go), (1, .wakeOn 5)], goes 1 262].flatten

theorem no_lost_wakeup_device :
    ∃ (before between after : List (Event 2)) (s : Sys 2),
      Lib.Run (Step .dflt) (boot 2) (before ++ .slept 0 (.other 5) (.other 0) :: between ++
        .acquired (.scheduler 1) (.other 0) :: after) s ∧
      .wakeupReturned (.scheduler 1) (.other 5) ∈ after ∧
      ¬((s.d.proc 0).state = .sleeping ∧ (s.d.proc 0).chan = .other 5) := by
  have hcheck : ((boot 2).trace .dflt sleepThenWake).any (fun x => decide
      (x.2 = x.2.take 11 ++ .slept 0 (.other 5) (.other 0) :: (x.2.drop 12).take 5 ++
        .acquired (.scheduler 1) (.other 0) :: x.2.drop 18 ∧
      .wakeupReturned (.scheduler 1) (.other 5) ∈ x.2.drop 18 ∧
      ∀ e ∈ x.2.drop 18, ¬e matches .slept _ _ _)) = true := by
    decide +kernel
  obtain ⟨⟨s, es⟩, hs, hcheck⟩ := (Option.any_eq_true _ _).1 hcheck
  obtain ⟨hsplit, hwake, hno⟩ := of_decide_eq_true hcheck
  dsimp only at hsplit hwake hno
  have hlast : ∀ chan' lk', .slept 0 chan' lk' ∉ es.drop 18 := by
    intro chan' lk' hmem
    simpa using hno _ hmem
  have hrun := (trace_run hs).2
  rw [hsplit] at hrun
  exact ⟨_, _, _, s, hrun, hwake, no_lost_wakeup _ _ _ _ s 0 _ _ _ hrun hwake hlast⟩

end Sys

end Xv6.Sched
