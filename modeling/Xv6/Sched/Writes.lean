import Xv6.Sched.Effect

/-!
# What an instruction writes and reports

The fields of `struct proc` that waiting, exiting and accounting depend on, the
few instructions that write them, and the instructions that are seen as an event.
Together with `exec_effect`, which covers `p->state`, this is all that the
invariants need to know about `exec`.
-/

namespace Xv6.Sched

open Instr

variable {n : Nat}

/-- Two table entries agree on everything but `state`, `killed` and the fields that
only the scheduling policies read. -/
structure Same (p q : Proc) : Prop where
  chan : q.chan = p.chan
  xstate : q.xstate = p.xstate
  pid : q.pid = p.pid
  ctime : q.ctime = p.ctime
  ttime : q.ttime = p.ttime
  stime : q.stime = p.stime
  retime : q.retime = p.retime
  rutime : q.rutime = p.rutime
  parent : q.parent = p.parent

theorem Same.refl (p : Proc) : Same p p := ⟨rfl, rfl, rfl, rfl, rfl, rfl, rfl, rfl, rfl⟩

theorem same_setProc (d : Data n) (i : Slot) (f : Proc → Proc) (hf : Same (d.proc i) (f (d.proc i)))
    (j : Slot) : Same (d.proc j) ((d.setProc i f).proc j) := by
  rw [Data.setProc_proc]
  split
  · next hj =>
    subst hj
    exact hf
  · exact Same.refl _

inductive Writes (d : Data n) (i : Instr) (d' : Data n) : Prop
  | none (hsame : ∀ j, Same (d.proc j) (d'.proc j))
  | account (j : Slot) (hi : i = Instr.account j) (hd : d' = d.setProc j Data.accountProc)
  | sleeping (p : Slot) (chan : Chan) (hi : i = setSleeping p chan)
      (hd : d' = (d.setProc p fun q => { q with chan := chan }).setState p .sleeping)
  | clear (p : Slot) (hi : i = clearChan p) (hd : d' = d.setProc p fun q => { q with chan := .null })
  | used (j : Slot) (pid : Int) (hi : i = setUsed j pid)
      (hd : d' = (d.setProc j fun q => { q with pid := pid }).setState j .used)
  | ctime (j : Slot) (hi : i = setCtime j)
      (hd : d' = d.setProc j fun q => { q with ctime := asInt d.ticks })
  | counters (j : Slot) (hi : i = initCounters j)
      (hd : d' = d.setProc j fun q =>
        { q with
          stime := 0, retime := 0, rutime := 0, ttime := 0,
          averageBursttime := QUANTUM * 100, priority := 5 })
  | freed (j : Slot) (hi : (∃ p, i = allocMem p j) ∨ ∃ p a, i = waitCheck p a j ∧ (d.proc j).state = .zombie)
      (hd : d' = d.freeproc j)
  | parent (p j : Slot) (hi : i = setParent p j)
      (hd : d' = d.setProc j fun q => { q with parent := some p })
  | reparent (p j : Slot) (hi : i = Instr.reparent p j) (hj : (d.proc j).parent = some p)
      (hd : d' = d.setProc j fun q => { q with parent := some d.initproc })
  | zombie (p : Slot) (st : Int) (hi : i = setZombie p st)
      (hd : d' = (d.setProc p fun q => { q with xstate := st }).setState p .zombie)
  | ttime (p : Slot) (hi : i = setTtime p)
      (hd : d' = d.setProc p fun q => { q with ttime := asInt d.ticks })

theorem same_setState (d : Data n) (i : Slot) (st : Procstate) (j : Slot) :
    Same (d.proc j) ((d.setState i st).proc j) :=
  same_setProc d i _ (by constructor <;> rfl) j

variable {pol : Policy} {d d' : Data n} {h : Fin n} {t : Thread n} {c : Choice} {i : Instr}
  {exp : Code} {e : Event n}

theorem exec_writes (hx : exec pol d h t c i = some (d', exp, e)) : Writes d i d' := by
  cases i <;> simp only [exec, forSlot, Option.bind_eq_bind, Option.bind_eq_some_iff,
    reduceCtorEq] at hx
  case user =>
    obtain ⟨p, -, hx⟩ := hx
    split at hx <;> cases hx
    · exact .none fun _ => .refl _
    · exact .none (same_setProc d _ _ (by constructor <;> rfl))
  case killedExit | quantum =>
    obtain ⟨p, -, rfl, -, -⟩ := hx
    exact .none fun _ => .refl _
  case allocMem p j =>
    split at hx <;> cases hx
    · exact .none (same_setProc d _ _ (by constructor <;> rfl))
    · exact .freed j (.inl ⟨p, rfl⟩) rfl
  case waitCheck p a j =>
    split at hx
    · next hz =>
      split at hx
      · cases hx
        exact .freed j (.inr ⟨p, a, rfl, hz⟩) rfl
      · split at hx <;> cases hx
        exact .none fun _ => .refl _
      · cases hx
    · cases hx
      exact .none fun _ => .refl _
  case killCheck pid j =>
    repeat' split at hx
    all_goals cases hx
    · refine .none fun k => ?_
      simp only [Data.setState, Data.setProc_proc]
      split
      · next hk =>
        subst hk
        constructor <;> rfl
      · exact Same.refl _
    · exact .none (same_setProc d _ _ (by constructor <;> rfl))
    · exact .none fun _ => .refl _
  case reparent p k =>
    split at hx
    · split at hx
      all_goals cases hx
      · next hk hp => exact .reparent p ⟨k, hk⟩ rfl hp rfl
      · exact .none fun _ => .refl _
    · cases hx
      exact .none fun _ => .refl _
  case tryRun j =>
    split at hx <;> cases hx
    · exact .none (same_setState d j .running)
    · exact .none fun _ => .refl _
  case clients | clientLoop | intrLoop =>
    split at hx <;> cases hx
    all_goals exact .none fun _ => .refl _
  all_goals cases hx
  case account j => exact .account j rfl rfl
  case setSleeping p chan => exact .sleeping p chan rfl rfl
  case clearChan p => exact .clear p rfl rfl
  case setUsed j pid => exact .used j pid rfl rfl
  case setCtime j => exact .ctime j rfl rfl
  case initCounters j => exact .counters j rfl rfl
  case setParent p j => exact .parent p j rfl rfl
  case setZombie p st => exact .zombie p st rfl rfl
  case setTtime p => exact .ttime p rfl rfl
  case wakeRunnable j | yieldRunnable j | forkRunnable j => exact .none (same_setState d j .runnable)
  case setQueue | setAverage =>
    exact .none (same_setProc d _ _ (by constructor <;> rfl))
  all_goals exact .none fun _ => .refl _

theorem exec_ticks (hx : exec pol d h t c i = some (d', exp, e)) :
    d'.initproc = d.initproc ∧
      (i = tick ∧ d'.ticks = (d.ticks + 1) % 2 ^ 32 ∨ i ≠ tick ∧ d'.ticks = d.ticks) := by
  cases i <;> simp only [exec, forSlot, Option.bind_eq_bind, Option.bind_eq_some_iff,
    reduceCtorEq] at hx
  case user =>
    obtain ⟨p, -, hx⟩ := hx
    split at hx <;> cases hx
    all_goals simp
  case killedExit | quantum =>
    obtain ⟨p, -, rfl, -, -⟩ := hx
    simp
  case allocMem | waitCheck | killCheck | reparent | tryRun | clients | clientLoop | intrLoop =>
    repeat' split at hx
    all_goals cases hx
    all_goals simp [Data.setState, Data.freeproc]
  all_goals
    cases hx
    simp [Data.setState]

inductive Emits (d : Data n) (h : Fin n) (t : Thread n) (i : Instr) (d' : Data n) : Event n → Prop
  | tau (hz : ∀ p st, i ≠ setZombie p st) (hw : ∀ p a j, i = waitCheck p a j → d' = d) :
      Emits d h t i d' .tau
  | returned (chan : Chan) (k : Nat) (hi : i = wakeupLoop chan k) (hk : NPROC ≤ k) :
      Emits d h t i d' (.wakeupReturned t chan)
  | exited (p : Slot) (st : Int) (hi : i = setZombie p st) :
      Emits d h t i d' (.exited p (d.proc p).pid st)
  | reaped (p : Slot) (a : WaitArgs) (j : Slot) (hi : i = waitCheck p a j)
      (hz : (d.proc j).state = .zombie) (hd : d' = d.freeproc j) :
      Emits d h t i d'
        (.reaped p j (d.proc j).pid (if a.addr = 0 then none else some (d.proc j).xstate))
  | dispatched (j : Slot) (hi : i = tryRun j) : Emits d h t i d' (.dispatched h j)

theorem exec_emits (hx : exec pol d h t c i = some (d', exp, e)) : Emits d h t i d' e := by
  cases i <;> simp only [exec, forSlot, Option.bind_eq_bind, Option.bind_eq_some_iff,
    reduceCtorEq] at hx
  case user =>
    obtain ⟨p, -, hx⟩ := hx
    split at hx <;> cases hx
    all_goals exact .tau (by simp) (by simp)
  case killedExit | quantum =>
    obtain ⟨p, -, -, -, rfl⟩ := hx
    exact .tau (by simp) (by simp)
  case allocMem | killCheck | reparent | clients | clientLoop | intrLoop =>
    repeat' split at hx
    all_goals cases hx
    all_goals exact .tau (by simp) (by simp)
  case waitCheck p a j =>
    split at hx
    · next hz =>
      split at hx
      · cases hx
        exact .reaped p a j rfl hz rfl
      · split at hx <;> cases hx
        exact .tau (by simp) (by simp)
      · cases hx
    · cases hx
      exact .tau (by simp) (by simp)
  case tryRun j =>
    split at hx <;> cases hx
    · exact .dispatched j rfl
    · exact .tau (by simp) (by simp)
  case wakeupLoop chan k =>
    cases hx
    split
    · exact .tau (by simp) (by simp)
    · next hk => exact .returned chan k rfl (by omega)
  all_goals cases hx
  case setZombie p st => exact .exited p st rfl
  all_goals exact .tau (by simp) (by simp)

end Xv6.Sched
