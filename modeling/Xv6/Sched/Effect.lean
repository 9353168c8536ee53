import Xv6.Sched.Discipline

/-!
# What an instruction does to the process states

`exec_effect` classifies the instructions by their effect on `p->state`, on
`c->proc` and on the position of the executing thread.  The invariants of
dispatching are derived from this classification and never look at a single
instruction again.
-/

namespace Xv6.Sched

open Instr

variable {n : Nat}

/-- `d'` differs from `d` in the state of slot `j`, which is now `st`, and in
nothing else that the dispatching of processes depends on. -/
def Moved (d d' : Data n) (j : Slot) (st : Procstate) : Prop :=
  (∀ k, (d'.proc k).state = if k = j then st else (d.proc k).state) ∧ d'.cpuProc = d.cpuProc

def Unmoved (d d' : Data n) : Prop :=
  (∀ k, (d'.proc k).state = (d.proc k).state) ∧ d'.cpuProc = d.cpuProc

inductive Effect (d : Data n) (h : Fin n) (t : Thread n) (i : Instr) (rest : Code)
    (d' : Data n) (c' : Code) : Prop
  /-- Nothing of interest happens. -/
  | plain (hm : Unmoved d d') (hpos : pos c' = pos (i :: rest))
  /-- `wakeup` has found a sleeper. -/
  | found (j : Slot) (hi : ∃ chan, i = Instr.wake chan j) (hj : (d.proc j).state = .sleeping)
      (hd : d' = d) (hpos : pos c' = { pos (i :: rest) with waking := some j })
  /-- `allocproc` has found a free slot. -/
  | claim (p j : Slot) (hi : i = allocCheck p j) (hj : (d.proc j).state = .unused) (hd : d' = d)
      (hpos : pos c' = { pos (i :: rest) with allocating := some j })
  /-- The scheduler has chosen `j`. -/
  | dispatch (j : Slot) (hi : i = tryRun j) (hj : (d.proc j).state = .runnable)
      (hst : ∀ k, (d'.proc k).state = if k = j then .running else (d.proc k).state)
      (hcpu : d'.cpuProc = Function.update d.cpuProc h (some j))
      (hpos : pos c' = { pos (i :: rest) with dispatching := some j, switching := true })
  /-- The scheduler has come back from `j`. -/
  | clear (j : Slot) (hi : i = clearProc j) (hst : ∀ k, (d'.proc k).state = (d.proc k).state)
      (hcpu : d'.cpuProc = Function.update d.cpuProc h none)
      (hpos : pos c' = { pos (i :: rest) with dispatching := none })
  /-- The process gives up the CPU. -/
  | park (p : Slot) (st : Procstate) (ht : t = .kernel p) (hlk : .proc p ∈ held rest)
      (hi : ∀ q j, i ≠ allocCheck q j) (hz : st = .zombie → ∃ x, i = setZombie p x)
      (hs : st = .sleeping → ∃ chan, i = setSleeping p chan)
      (hr : st = .runnable → i = yieldRunnable p)
      (hst : st = .runnable ∨ st = .sleeping ∨ st = .zombie) (hm : Moved d d' p st)
      (hq : parked (i :: rest) = false)
      (hpos : pos c' = { pos (i :: rest) with parked := true })
  | wake (j : Slot) (hi : ∃ chan, i = wakeRunnable chan j) (hm : Moved d d' j .runnable)
      (hpos : pos c' = { pos (i :: rest) with waking := none })
  | kill (j : Slot) (hi : ∃ pid, i = killCheck pid j) (hj : (d.proc j).state = .sleeping)
      (hm : Moved d d' j .runnable) (hpos : pos c' = pos (i :: rest))
  | used (j : Slot) (hi : ∃ pid, i = setUsed j pid) (hm : Moved d d' j .used)
      (hpos : pos c' = { pos (i :: rest) with allocating := none, filling := some (j, false) })
  /-- `allocproc` has written `ctime`, and then the counters, of slot `j`. -/
  | dated (j : Slot) (hi : i = setCtime j) (hm : Unmoved d d')
      (hpos : pos c' = { pos (i :: rest) with filling := some (j, true) })
  | reset (j : Slot) (hi : i = initCounters j) (hm : Unmoved d d')
      (hpos : pos c' = { pos (i :: rest) with filling := none })
  /-- `fork` has failed and gives the slot back. -/
  | unclaim (j : Slot) (hi : ∃ p, i = allocMem p j) (hm : Moved d d' j .unused)
      (hpos : pos c' = pos (i :: rest)) (hclaim : ∀ k, ¬Claims c' k)
  | reap (j : Slot) (hi : ∃ p a, i = waitCheck p a j) (hj : (d.proc j).state = .zombie)
      (hm : Moved d d' j .unused) (hpos : pos c' = pos (i :: rest))
  | born (j : Slot) (hi : i = forkRunnable j) (hm : Moved d d' j .runnable)
      (hpos : pos c' = pos (i :: rest))

theorem Unmoved.refl (d : Data n) : Unmoved d d := ⟨fun _ => rfl, rfl⟩

theorem unmoved_setProc (d : Data n) (i : Slot) (f : Proc → Proc)
    (hf : (f (d.proc i)).state = (d.proc i).state) : Unmoved d (d.setProc i f) := by
  refine ⟨fun k => ?_, rfl⟩
  rw [Data.setProc_proc]
  split
  · next hk => rw [hk, hf]
  · rfl

theorem moved_setState (d : Data n) (i : Slot) (f : Proc → Proc) (st : Procstate) :
    Moved d ((d.setProc i f).setState i st) i st := by
  refine ⟨fun k => ?_, rfl⟩
  simp only [Data.setState, Data.setProc_proc]
  split <;> rfl

theorem moved_setState' (d : Data n) (i : Slot) (st : Procstate) :
    Moved d (d.setState i st) i st := by
  refine ⟨fun k => ?_, rfl⟩
  simp only [Data.setState, Data.setProc_proc]
  split <;> rfl

theorem accountProc_state (p : Proc) : (Data.accountProc p).state = p.state := by
  unfold Data.accountProc
  split <;> rfl

attribute [local simp] parked dispatching switching waking allocating filling napping stamping plain Ok
  Settled   Still Quiet Idle pos switching_of_dispatching

variable {c c' rest exp : Code} {p j : Slot} {pol : Policy} {d d' : Data n} {h : Fin n}
  {t : Thread n} {i : Instr} {e : Event n}

theorem pos_of_still (hc : Still c) (hc' : Still c') : pos c = pos c' := by
  simp_all

theorem still_exit {ip : Slot} {st : Int} : Still (exit ip p st ++ c) := by
  unfold exit
  split <;> simp

theorem still_syscall {ip : Slot} {x : Syscall} : Still (syscall ip p x ++ c) := by
  cases x
  case exit => exact still_exit
  all_goals simp [syscall, fork, wait, kill, sysSleep]

theorem exec_effect {c : Choice} (hx : exec pol d h t c i = some (d', exp, e)) (hok : Ok t i rest) :
    Effect d h t i rest d' (exp ++ rest) := by
  cases i
  case user =>
    simp only [exec, Option.bind_eq_bind, Option.bind_eq_some_iff] at hx
    obtain ⟨p, -, hx⟩ := hx
    split at hx <;> cases hx
    · refine .plain (.refl d) (pos_of_still ?_ (by simp))
      split
      · rw [List.append_assoc]
        exact still_exit
      · rw [List.append_assoc]
        exact still_syscall
    · exact .plain (unmoved_setProc _ _ _ rfl) (by simp)
  case killedExit =>
    simp only [exec, Option.bind_eq_bind, Option.bind_eq_some_iff] at hx
    obtain ⟨p, -, ⟨⟩⟩ := hx
    refine .plain (.refl d) (pos_of_still ?_ (by simp))
    split
    · exact still_exit
    · simp_all
  case quantum =>
    simp only [exec, Option.bind_eq_bind, Option.bind_eq_some_iff] at hx
    obtain ⟨p, -, ⟨⟩⟩ := hx
    refine .plain (.refl d) (pos_of_still ?_ (by simp))
    split <;> simp_all [yield, allocQueueCounter]
  case reparent p j =>
    simp only [exec] at hx
    split at hx
    · split at hx
      all_goals cases hx
      · exact .plain (unmoved_setProc _ _ _ rfl) (by simp [wakeup])
      · exact .plain (.refl d) (by simp)
    · cases hx
      exact .plain (.refl d) (by simp_all)
  case waitScan p a j hk =>
    cases hx
    refine .plain (.refl d) (pos_of_still ?_ (by simp))
    simp only [forSlot]
    split <;> split <;> simp_all [sleep]
  case waitCheck p a j =>
    simp only [exec] at hx
    split at hx
    · split at hx
      · cases hx
        exact .reap j ⟨p, a, rfl⟩ (by assumption) (moved_setState _ _ _ _) (by simp_all)
      · split at hx
        · cases hx
          exact .plain (.refl d) (by simp_all)
        · simp at hx
      · simp at hx
    · cases hx
      exact .plain (.refl d) (by simp)
  case sleepLoop p k t0 =>
    cases hx
    refine .plain (.refl d) (pos_of_still ?_ (by simp))
    split <;> [split; skip] <;> simp_all [sleep]
  case clientLoop p m =>
    cases c <;> cases hx
    all_goals exact .plain (.refl d) (pos_of_still (by simp_all [sleep, wakeup]) (by simp))
  case clients p =>
    simp only [exec] at hx
    split at hx <;> cases hx
    all_goals exact .plain (.refl d) (pos_of_still (by simp_all) (by simp))
  case intrLoop m =>
    cases c <;> cases hx
    all_goals exact .plain (.refl d) (pos_of_still (by simp_all [wakeup]) (by simp))
  case allocMem p j =>
    simp only [exec] at hx
    split at hx <;> cases hx
    · exact .plain (unmoved_setProc _ _ _ rfl) (by simp [forkTail])
    · refine .unclaim j ⟨p, rfl⟩ (moved_setState _ _ _ _) (by simp_all) ?_
      simpa [Claims, Instr.claim] using hok.2.2.2
  case wake chan j =>
    cases hx
    split
    · next hj => exact .found j ⟨chan, rfl⟩ hj.1 rfl (by simp_all [allocQueueCounter])
    · exact .plain (.refl d) (by simp_all)
  case allocCheck p j =>
    cases hx
    split
    · next hj => exact .claim p j rfl hj rfl (by simp [allocFound])
    · exact .plain (.refl d) (by simp)
  case tryRun j =>
    simp only [exec] at hx
    split at hx <;> cases hx
    · next hj =>
      refine .dispatch j rfl hj (moved_setState' d j .running).1 rfl ?_
      split <;> simp
    · exact .plain (.refl d) (by simp_all)
  case killCheck pid j =>
    simp only [exec] at hx
    split at hx
    · split at hx
      all_goals cases hx
      · next hj =>
        exact .kill j ⟨pid, rfl⟩ hj (moved_setState _ _ _ _) (by simp_all [allocQueueCounter])
      · exact .plain (unmoved_setProc _ _ _ rfl) (by simp_all)
    · cases hx
      exact .plain (.refl d) (by simp)
  all_goals simp only [exec, forSlot, reduceCtorEq] at hx
  all_goals cases hx
  case clearProc j => exact .clear j rfl (fun _ => rfl) rfl (by simp_all)
  case wakeRunnable chan j =>
    exact .wake j ⟨chan, rfl⟩ (moved_setState' _ _ _) (by simp_all)
  case forkRunnable j => exact .born j rfl (moved_setState' _ _ _) (by simp_all)
  case setUsed j pid =>
    have := settled_of_filling hok.2
    exact .used j ⟨pid, rfl⟩ (moved_setState _ _ _ _) (by simp_all)
  case setZombie p st =>
    have := settled_of_parked hok.2.2.2.1
    exact .park p .zombie hok.1 hok.2.1 (by simp) (by simp) (by simp) (by simp) (by simp)
       (moved_setState _ _ _ _) (by simp) (by simp_all)
  case yieldRunnable p =>
    have := settled_of_parked hok.2.2
    exact .park p .runnable hok.1 hok.2.1 (by simp) (by simp) (by simp) (by simp) (by simp)
       (moved_setState' _ _ _) (by simp) (by simp_all)
  case setSleeping p chan =>
    have := settled_of_parked hok.2.2.1
    exact .park p .sleeping hok.1 hok.2.1 (by simp) (by simp) (by simp) (by simp) (by simp)
       (moved_setState _ _ _ _) (by simp) (by simp_all)
  case clockLoop | killLoop | allocLoop | dfltScan | schedLoop | kernelTimer =>
    refine .plain (.refl d) ?_
    split <;> simp_all
  case wakeupLoop chan j =>
    refine .plain (.refl d) ?_
    split <;> [split; skip] <;> simp_all
  case scan j cand min =>
    refine .plain (.refl d) ?_
    split
    · simp
    · cases cand <;> simp_all
  case account j => exact .plain (unmoved_setProc _ _ _ (accountProc_state _)) (by simp_all)
  case setCtime j =>
    have := settled_of_filling hok.2.2
    exact .dated j rfl (unmoved_setProc _ _ _ rfl) (by simp_all)
  case initCounters j => exact .reset j rfl (unmoved_setProc _ _ _ rfl) (by simp_all)
  case setTtime p =>
    have := settled_of_parked hok.2.2.2.1
    exact .plain (unmoved_setProc _ _ _ rfl) (by simp_all)
  case setAverage j b =>
    have := settled_of_dispatching hok.2.2.1
    exact .plain (unmoved_setProc _ _ _ rfl) (by simp_all)
  case setQueue | clearChan | setParent =>
    exact .plain (unmoved_setProc _ _ _ rfl) (by simp_all)
  case tick | takeQueue | takePid => exact .plain ⟨fun _ => rfl, rfl⟩ (by simp_all)
  all_goals exact .plain (.refl d) (by simp_all [wakeup])

/-- `c->proc` changes when a process is dispatched and when it comes back. -/
theorem Effect.cpuProc (he : Effect d h t i rest d' c') :
    d'.cpuProc = d.cpuProc ∨ d'.cpuProc = Function.update d.cpuProc h none ∨
      ∃ j, (d.proc j).state = .runnable ∧ d'.cpuProc = Function.update d.cpuProc h (some j) := by
  cases he
  case dispatch j hi hj hst hcpu hpos => exact .inr (.inr ⟨j, hj, hcpu⟩)
  case clear j hi hst hcpu hpos => exact .inr (.inl hcpu)
  case found j hi hj hd hpos => exact .inl (by rw [hd])
  case claim p j hi hj hd hpos => exact .inl (by rw [hd])
  case plain hm hpos => exact .inl hm.2
  case dated j hi hm hpos => exact .inl hm.2
  case reset j hi hm hpos => exact .inl hm.2
  case park p st ht hlk hi hz hs hr hst hm hq hpos => exact .inl hm.2
  case wake j hi hm hpos => exact .inl hm.2
  case kill j hi hj hm hpos => exact .inl hm.2
  case used j hi hm hpos => exact .inl hm.2
  case unclaim j hi hm hpos hclaim => exact .inl hm.2
  case reap j hi hj hm hpos => exact .inl hm.2
  case born j hi hm hpos => exact .inl hm.2

theorem Effect.filling (he : Effect d h t i rest d' c') :
    Sched.filling c' = Sched.filling (i :: rest) ∨
      (∃ j pid, i = setUsed j pid ∧ Sched.filling c' = some (j, false)) ∨
      (∃ j, i = setCtime j ∧ Sched.filling c' = some (j, true)) ∨
      ∃ j, i = initCounters j ∧ Sched.filling c' = none := by
  cases he
  case used j hi hm hpos =>
    obtain ⟨pid, hi⟩ := hi
    exact .inr (.inl ⟨j, pid, hi, congrArg Pos.filling hpos⟩)
  case dated j hi hm hpos => exact .inr (.inr (.inl ⟨j, hi, congrArg Pos.filling hpos⟩))
  case reset j hi hm hpos => exact .inr (.inr (.inr ⟨j, hi, congrArg Pos.filling hpos⟩))
  case found hpos | claim hpos | dispatch hpos | clear hpos | park hpos | wake hpos | kill hpos |
      reap hpos | born hpos => exact .inl (congrArg Pos.filling hpos)
  case plain hm hpos => exact .inl (congrArg Pos.filling hpos)
  case unclaim j hi hm hpos hclaim => exact .inl (congrArg Pos.filling hpos)

/-! ## Claims -/

theorem claims_iff : Claims c j ↔ j ∈ c.filterMap Instr.claim := by
  simp [Claims]

section
attribute [local simp] Instr.claim List.filterMap_cons

theorem claims_exit (ip p : Slot) (st : Int) : (exit ip p st).filterMap Instr.claim = [] := by
  unfold exit
  split <;> simp

theorem claims_syscall (ip p : Slot) (x : Syscall) :
    (syscall ip p x).filterMap Instr.claim = [] := by
  cases x
  case exit => exact claims_exit ..
  all_goals simp [syscall, fork, wait, kill, sysSleep]

theorem exec_claims {c : Choice} (hx : exec pol d h t c i = some (d', exp, e))
    (hj : j ∈ exp.filterMap Instr.claim) :
    i.claim = some j ∨ ∃ p, i = allocCheck p j ∧ (d.proc j).state = .unused := by
  cases i <;> simp only [exec, forSlot, Option.bind_eq_bind, Option.bind_eq_some_iff,
    reduceCtorEq] at hx
  case user =>
    obtain ⟨p, -, hx⟩ := hx
    split at hx <;> cases hx
    · split at hj <;> simp [claims_exit, claims_syscall] at hj
    · simp at hj
  case killedExit =>
    obtain ⟨p, -, ⟨⟩⟩ := hx
    split at hj <;> simp [claims_exit] at hj
  case quantum =>
    obtain ⟨p, -, ⟨⟩⟩ := hx
    split at hj <;> simp [yield, allocQueueCounter] at hj
  case allocMem | clients | clientLoop | intrLoop =>
    split at hx <;> cases hx
    all_goals
      simp [forkTail, allocQueueCounter, sleep, wakeup] at hj
      try simp [hj]
  case waitCheck | killCheck | reparent | tryRun =>
    repeat' split at hx
    all_goals cases hx
    all_goals simp [allocQueueCounter, wakeup] at hj
  all_goals cases hx
  case allocCheck p i =>
    split at hj
    · simp [allocFound] at hj
      simp_all
    · simp at hj
  case takePid i =>
    simp at hj
    simp [hj]
  case scan i cand min =>
    split at hj
    · simp at hj
    · cases cand <;> simp at hj
  case sleepLoop | waitScan | wakeupLoop =>
    split at hj <;> [split at hj; skip] <;> simp [sleep] at hj
    all_goals split at hj <;> simp at hj
  case clockLoop | killLoop | allocLoop | dfltScan | schedLoop | wake | kernelTimer =>
    split at hj <;> simp [allocQueueCounter] at hj
  all_goals simp [wakeup] at hj

/-- The child's context and parent are set up before it is made runnable. -/
theorem exec_forkRunnable {c : Choice} (hx : exec pol d h t c i = some (d', exp, e))
    (hj : forkRunnable j ∈ exp) :
    forkret j ∈ exp ∧ ∃ p, setParent p j ∈ exp := by
  have hclaim : j ∈ exp.filterMap Instr.claim := List.mem_filterMap.2 ⟨_, hj, rfl⟩
  rcases exec_claims hx hclaim with hi | ⟨p, rfl, hp⟩
  · cases i <;> simp only [Instr.claim, reduceCtorEq, Option.some.injEq] at hi
    case allocMem p k =>
      subst hi
      simp only [exec] at hx
      split at hx <;> cases hx
      all_goals simp_all [forkTail]
    all_goals simp only [exec, reduceCtorEq] at hx
    all_goals
      cases hx
      simp at hj
  · simp only [exec, hp] at hx
    cases hx
    simp [allocFound] at hj

theorem exec_allocMem {c : Choice} (hx : exec pol d h t c i = some (d', exp, e))
    (hj : allocMem p j ∈ exp) :
    (d.proc j).state = .unused := by
  have hclaim : j ∈ exp.filterMap Instr.claim := List.mem_filterMap.2 ⟨_, hj, rfl⟩
  rcases exec_claims hx hclaim with hi | ⟨p, -, hp⟩
  · cases i <;> simp only [Instr.claim, reduceCtorEq, Option.some.injEq] at hi
    case allocMem p k =>
      simp only [exec] at hx
      split at hx <;> cases hx
      all_goals simp [forkTail, allocQueueCounter] at hj
    all_goals simp only [exec, reduceCtorEq] at hx
    all_goals
      cases hx
      simp at hj
  · exact hp
end

/-! ## Interrupts -/

section
attribute [local simp] held parked dispatching switching waking allocating filling napping stamping inner
  plain
  ticking Instr.gives Instr.claim Claims Pinned Ok WF Settled Still Quiet Starts Idle Low NoWait
  WakeLocks List.filterMap_cons

theorem wf_devintr (hart : Nat) (k : Interrupt) (hwf : WF t c)
    (hidle : Idle c) : WF t (devintr hart k ++ c) ∧ Idle (devintr hart k ++ c) := by
  unfold devintr clockintr wakeup
  split
  · split <;> simp_all
  · simp_all

/-- A trap handler can be put in front of any code that holds no lock. -/
theorem wf_trap (pol : Policy) (hart : Nat) (k : Interrupt) (u : Bool) (hwf : WF t c)
    (hidle : Idle c) (hu : u = true → (∃ p, t = .kernel p) ∧ NoWait c) :
    WF t (trap pol hart k u ++ c) ∧ Idle (trap pol hart k u ++ c) := by
  unfold trap
  rw [List.append_assoc, List.append_assoc]
  apply wf_devintr
  all_goals
    unfold afterIntr
    split <;> simp_all

theorem claims_trap (pol : Policy) (hart : Nat) (k : Interrupt) (u : Bool) :
    (trap pol hart k u).filterMap Instr.claim = [] := by
  unfold trap devintr clockintr wakeup afterIntr
  split <;> split
  all_goals first | (split <;> simp) | simp
end

end Xv6.Sched
