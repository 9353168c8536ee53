import Xv6.Sched.Code
import Xv6.Lib.Transition

/-!
# Executing the kernel threads

Each hart runs either its own scheduler thread or the kernel thread of a
process.  `exec` is the effect of one instruction on the shared data together
with the code it expands to; `step` adds the spinlocks, the context switches and
the interrupts.  A hart takes an interrupt only while it holds no spinlock and is
not already in a trap handler.
-/

namespace Xv6.Sched

open Instr

/-- The kernel threads: one scheduler a hart, one thread a process slot. -/
inductive Thread (n : Nat)
  | scheduler (h : Fin n)
  | kernel (i : Slot)
  deriving DecidableEq

/-- What the environment decides in a step: the system call a process makes,
whether a page allocation or a `copyout` succeeds, what a client of `sleep` and
`wakeup` does next, or that an interrupt arrives. -/
inductive Choice
  | go
  | syscall (c : Syscall)
  | fault
  | succeeds (b : Bool)
  | sleepOn (c : Nat)
  | wakeOn (c : Nat)
  | done
  | interrupt (k : Interrupt)
  deriving DecidableEq, Repr

inductive Event (n : Nat)
  | tau
  | acquired (t : Thread n) (lk : Lock)
  | released (t : Thread n) (lk : Lock)
  /-- Process `p` released `lk` inside `sleep(chan, lk)`. -/
  | slept (p : Slot) (chan : Chan) (lk : Lock)
  /-- A `wakeup(chan)` called by thread `t` has returned. -/
  | wakeupReturned (t : Thread n) (chan : Chan)
  /-- The process in slot `i` became a zombie. -/
  | exited (i : Slot) (pid : Int) (status : Int)
  /-- Process `p` freed the zombie in slot `i` and returned `pid`; `status` is
  what it copied out, if it was asked to. -/
  | reaped (p i : Slot) (pid : Int) (status : Option Int)
  /-- Hart `h` made process `i` its current process. -/
  | dispatched (h : Fin n) (i : Slot)
  deriving DecidableEq

/-- Conversion of an `unsigned int` to `int`. -/
def asInt (x : Nat) : Int :=
  if x < 2 ^ 31 then x else (x : Int) - 2 ^ 32

/-- `INT_MAX`. -/
def intMax : Int := 2 ^ 31 - 1

namespace Data

variable {n : Nat}

/-- `p->state = st`. -/
def setState (d : Data n) (i : Slot) (st : Procstate) : Data n :=
  d.setProc i fun p => { p with state := st }

/-- `freeproc(p)`; the accounting fields keep their values. -/
def freeproc (d : Data n) (i : Slot) : Data n :=
  (d.setProc i fun p =>
    { p with
      pid := 0, parent := none, chan := .null, killed := false, xstate := 0 }).setState i .unused

/-- One visit of `clockintr`'s loop. -/
def accountProc (p : Proc) : Proc :=
  match p.state with
  | .running => { p with rutime := p.rutime + 1 }
  | .runnable => { p with retime := p.retime + 1 }
  | .sleeping => { p with stime := p.stime + 1 }
  | _ => p

/-- The run-time ratio of the CFSD policy, in 32-bit arithmetic. -/
def rtRatio (p : Proc) : Int :=
  if (p.rutime + p.stime).bmod (2 ^ 32) = 0 then 0
  else (((p.rutime * p.priority).bmod (2 ^ 32)).tdiv ((p.rutime + p.stime).bmod (2 ^ 32))).bmod (2 ^ 32)

/-- Does `p` replace the candidate `q` in the FCFS scan? -/
def fcfsBetter (p q : Proc) : Bool := p.queueLocation < q.queueLocation

/-- Does `p` replace the candidate `q` in the SRT scan? -/
def srtBetter (p q : Proc) : Bool := p.averageBursttime < q.averageBursttime

/-- One visit of the scan of FCFS, SRT or CFSD: the new candidate and, for CFSD,
the new minimum ratio. -/
def choose (pol : Policy) (d : Data n) (i : Slot) (cand : Option Slot) (min : Int) :
    Option Slot × Int :=
  if (d.proc i).state = .runnable then
    match pol with
    | .cfsd => if rtRatio (d.proc i) < min then (some i, rtRatio (d.proc i)) else (cand, min)
    | .srt => (if cand.all fun c => srtBetter (d.proc i) (d.proc c) then some i else cand, min)
    | _ => (if cand.all fun c => fcfsBetter (d.proc i) (d.proc c) then some i else cand, min)
  else (cand, min)

end Data

/-- The burst-time average of SRT and CFSD after a burst. -/
def average (burst avg : Int) : Int :=
  ALPHA * burst + ((100 - ALPHA) * avg).tdiv 100

/-- The code of a slot visit `f` in a loop over the process table, or `stop`
after the last slot. -/
def forSlot (i : Nat) (f : Slot → Code) (stop : Code) : Code :=
  if hi : i < NPROC then f ⟨i, hi⟩ else stop

section

variable {n : Nat} (pol : Policy) (d : Data n) (h : Fin n) (t : Thread n)

/-- The effect of an instruction on the shared data, the code it expands to and
the event it is seen as.  Lock operations and context switches are not here but
in `fetch`. -/
def exec (c : Choice) : Instr → Option (Data n × Code × Event n)
  -- trap.c
  | user => do
      let p ← d.cpuProc h
      match c with
      | .syscall c =>
        -- usertrap(): a killed process exits before and after the system call
        some (d, if (d.proc p).killed then exit d.initproc p (-1) ++ [user]
          else syscall d.initproc p c ++ [killedExit, user], .tau)
      | .fault =>
        -- an unexpected trap from user space kills the process
        some (d.setProc p fun q => { q with killed := true }, [killedExit, user], .tau)
      | _ => none
  | killedExit => do
      let p ← d.cpuProc h
      some (d, if (d.proc p).killed then exit d.initproc p (-1) else [], .tau)
  | iret => some (d, [], .tau)
  | tick => some ({ d with ticks := (d.ticks + 1) % 2 ^ 32 }, [clockLoop 0], .tau)
  | clockLoop i =>
    some (d, forSlot i
      (fun j => [acquire (.proc j), account j, release (.proc j), clockLoop (i + 1)]) [], .tau)
  | account i => some (d.setProc i Data.accountProc, [], .tau)
  | kernelTimer =>
    some (d, if (d.cpuProc h).any fun p => (d.proc p).state = .running then
      [acquire .tickslock, quantum] else [], .tau)
  | quantum => do
      let p ← d.cpuProc h
      some (d, release .tickslock ::
        if (asInt d.ticks).tmod QUANTUM = 0 then yield p else [], .tau)
  -- wakeup, alloc_queue_counter, yield, sleep, kill
  | wakeupLoop chan i =>
    some (d, forSlot i
      (fun j => (if d.cpuProc h = some j then []
        else [acquire (.proc j), wake chan j, release (.proc j)]) ++
        [wakeupLoop chan (i + 1)]) [],
      if i < NPROC then .tau else .wakeupReturned t chan)
  | wake chan i =>
    some (d, if (d.proc i).state = .sleeping ∧ (d.proc i).chan = chan then
      allocQueueCounter i ++ [wakeRunnable chan i] else [], .tau)
  | wakeRunnable _ i => some (d.setState i .runnable, [], .tau)
  | takeQueue i =>
    some ({ d with queueCounter := (d.queueCounter + 1) % 2 ^ 64 },
      [release .queueLock, setQueue i d.queueCounter], .tau)
  | setQueue i v => some (d.setProc i fun p => { p with queueLocation := v }, [], .tau)
  | yieldRunnable p => some (d.setState p .runnable, [], .tau)
  | setSleeping p chan =>
    some ((d.setProc p fun q => { q with chan := chan }).setState p .sleeping, [], .tau)
  | clearChan p => some (d.setProc p fun q => { q with chan := .null }, [], .tau)
  | killLoop pid i =>
    some (d, forSlot i (fun j => [acquire (.proc j), killCheck pid j]) [], .tau)
  | killCheck pid i =>
    if (d.proc i).pid = pid then
      if (d.proc i).state = .sleeping then
        some ((d.setProc i fun p => { p with killed := true }).setState i .runnable,
          allocQueueCounter i ++ [release (.proc i)], .tau)
      else some (d.setProc i fun p => { p with killed := true }, [release (.proc i)], .tau)
    else some (d, [release (.proc i), killLoop pid (i + 1)], .tau)
  -- allocproc and fork
  | allocLoop p i =>
    some (d, forSlot i (fun j => [acquire (.proc j), allocCheck p j]) [], .tau)
  | allocCheck p i =>
    some (d, if (d.proc i).state = .unused then allocFound p i
      else [release (.proc i), allocLoop p (i + 1)], .tau)
  | takePid i =>
    some ({ d with nextpid := d.nextpid + 1 },
      [release .pidLock, setUsed i d.nextpid], .tau)
  | setUsed i pid =>
    some ((d.setProc i fun p => { p with pid := pid }).setState i .used, [], .tau)
  | setCtime i => some (d.setProc i fun p => { p with ctime := asInt d.ticks }, [], .tau)
  | initCounters i =>
    some (d.setProc i fun p =>
      { p with
        stime := 0, retime := 0, rutime := 0, ttime := 0,
        averageBursttime := QUANTUM * 100, priority := 5 }, [], .tau)
  | allocMem p i =>
    -- kalloc, proc_pagetable and uvmcopy share one way out
    match c with
    | .succeeds true =>
      some (d.setProc i fun q => { q with priority := (d.proc p).priority },
        forkTail p i, .tau)
    | .succeeds false => some (d.freeproc i, [release (.proc i)], .tau)
    | _ => none
  | setParent p i => some (d.setProc i fun q => { q with parent := some p }, [], .tau)
  | forkRunnable i => some (d.setState i .runnable, [], .tau)
  -- exit and reparent
  | reparent p i =>
    if hi : i < NPROC then
      if (d.proc ⟨i, hi⟩).parent = some p then
        some (d.setProc ⟨i, hi⟩ fun q => { q with parent := some d.initproc },
          wakeup (.proc d.initproc) ++ [reparent p (i + 1)], .tau)
      else some (d, [reparent p (i + 1)], .tau)
    else some (d, [], .tau)
  | wakeupParent p =>
    some (d, wakeup (((d.proc p).parent.map Chan.proc).getD .null), .tau)
  | setZombie p status =>
    some ((d.setProc p fun q => { q with xstate := status }).setState p .zombie, [],
      .exited p (d.proc p).pid status)
  | setTtime p => some (d.setProc p fun q => { q with ttime := asInt d.ticks }, [], .tau)
  -- wait and wait_stat
  | waitScan p a i havekids =>
    some (d, forSlot i
      (fun j => if (d.proc j).parent = some p then [acquire (.proc j), waitCheck p a j]
        else [waitScan p a (i + 1) havekids])
      (if !havekids || (d.proc p).killed then [release .waitLock]
        else sleep p (.proc p) .waitLock ++ [waitScan p a 0 false]), .tau)
  | waitCheck p a i =>
    if (d.proc i).state = .zombie then
      match c with
      | .succeeds true =>
        some (d.freeproc i, [release (.proc i), release .waitLock],
          .reaped p i (d.proc i).pid (if a.addr = 0 then none else some (d.proc i).xstate))
      | .succeeds false =>
        if a.copies then some (d, [release (.proc i), release .waitLock], .tau) else none
      | _ => none
    else some (d, [release (.proc i), waitScan p a (i + 1) true], .tau)
  -- sys_sleep
  | sleepStart p k => some (d, [sleepLoop p k d.ticks], .tau)
  | sleepLoop p k ticks0 =>
    some (d, if (d.ticks + 2 ^ 32 - ticks0) % 2 ^ 32 < (k % 2 ^ 32).toNat then
        if (d.proc p).killed then [release .tickslock]
        else sleep p .ticks .tickslock ++ [sleepLoop p k ticks0]
      else [release .tickslock], .tau)
  -- other users of sleep and wakeup
  | clients p =>
    match c with
    | .syscall (.client m) => some (d, [acquire (.other m), clientLoop p m, clients p], .tau)
    | .done => some (d, [], .tau)
    | _ => none
  | clientLoop p m =>
    match c with
    | .sleepOn c => some (d, sleep p (.other c) (.other m) ++ [clientLoop p m], .tau)
    | .wakeOn c => some (d, wakeup (.other c) ++ [clientLoop p m], .tau)
    | .done => some (d, [release (.other m)], .tau)
    | _ => none
  | intrLoop m =>
    match c with
    | .wakeOn c => some (d, wakeup (.other c) ++ [intrLoop m], .tau)
    | .done => some (d, [release (.other m)], .tau)
    | _ => none
  -- scheduler
  | schedLoop =>
    some (d, [if pol = .dflt then dfltScan 0 else scan 0 none intMax, schedLoop], .tau)
  | dfltScan i =>
    some (d, forSlot i
      (fun j => [acquire (.proc j), tryRun j, release (.proc j), dfltScan (i + 1)]) [], .tau)
  | scan i cand min =>
    some (d, forSlot i (fun j => [acquire (.proc j), select j cand min])
      (cand.elim [] fun c => [acquire (.proc c), tryRun c, release (.proc c)]), .tau)
  | select i cand min =>
    some (d, [release (.proc i),
      scan (i + 1) (d.choose pol i cand min).1 (d.choose pol i cand min).2], .tau)
  | tryRun i =>
    if (d.proc i).state = .runnable then
      some ((d.setState i .running).setCpuProc h (some i),
        if pol = .dflt ∨ pol = .fcfs then [swtch i, clearProc i]
        else [acquire .tickslock, startTick i], .dispatched h i)
    else some (d, [], .tau)
  | startTick i =>
    some (d, [release .tickslock, swtch i, acquire .tickslock, stopTick i (asInt d.ticks)], .tau)
  | stopTick i start =>
    some (d, [release .tickslock, setAverage i (asInt d.ticks - start), clearProc i], .tau)
  | setAverage i burst =>
    some (d.setProc i fun p => { p with averageBursttime := average burst p.averageBursttime },
      [], .tau)
  | clearProc _ => some (d.setCpuProc h none, [], .tau)
  | _ => none

end

/-- The whole machine. -/
structure Sys (n : Nat) where
  d : Data n
  /-- The hart that holds a lock (`lk->locked` and `lk->cpu`). -/
  owner : Lock → Option (Fin n)
  /-- Depth of `push_off()` nesting. -/
  noff : Fin n → Nat
  /-- The thread whose registers a hart has loaded. -/
  cur : Fin n → Thread n
  /-- The code each thread still has to execute. -/
  code : Thread n → Code

namespace Sys

variable {n : Nat}

/-- Replace the code of one thread. -/
def setCode (s : Sys n) (t : Thread n) (c : Code) : Sys n :=
  { s with code := Function.update s.code t c }

/-- The code hart `h` is executing. -/
def running (s : Sys n) (h : Fin n) : Code := s.code (s.cur h)

@[simp] theorem running_update (s : Sys n) (h : Fin n) (d : Data n) (owner : Lock → Option (Fin n))
    (noff : Fin n → Nat) (c : Code) :
    running ⟨d, owner, noff, s.cur, Function.update s.code (s.cur h) c⟩ h = c := by
  simp [running]

/-- `acquire(lk)` on hart `h`: possible only while the lock is free. -/
def acquire (s : Sys n) (h : Fin n) (lk : Lock) : Option (Sys n) :=
  if s.owner lk = none then
    some { s with
      owner := Function.update s.owner lk (some h)
      noff := Function.update s.noff h (s.noff h + 1) }
  else none

/-- `release(lk)` on hart `h`, which panics unless `holding(lk)`. -/
def release (s : Sys n) (h : Fin n) (lk : Lock) : Option (Sys n) :=
  if s.owner lk = some h then
    some { s with
      owner := Function.update s.owner lk none
      noff := Function.update s.noff h (s.noff h - 1) }
  else none

/-- Execute the first instruction of hart `h`'s thread. -/
def fetch (pol : Policy) (s : Sys n) (h : Fin n) (c : Choice) : Option (Sys n × Event n) :=
  match s.running h with
  | [] => none
  | .acquire lk :: rest => do
      let s' ← s.acquire h lk
      some (s'.setCode (s.cur h) rest, .acquired (s.cur h) lk)
  | .release lk :: rest => do
      let s' ← s.release h lk
      some (s'.setCode (s.cur h) rest, .released (s.cur h) lk)
  | .releaseSleep p chan lk :: rest => do
      let s' ← s.release h lk
      some (s'.setCode (s.cur h) rest, .slept p chan lk)
  | .sched p :: rest =>
    -- sched() panics unless it holds only p->lock and p is not RUNNING
    if s.owner (.proc p) = some h ∧ s.noff h = 1 ∧ (s.d.proc p).state ≠ .running then
      some ({ s.setCode (s.cur h) rest with
        cur := Function.update s.cur h (.scheduler h) }, .tau)
    else none
  | .swtch i :: rest =>
    some ({ s.setCode (s.cur h) rest with
      cur := Function.update s.cur h (.kernel i) }, .tau)
  | .forkret i :: rest =>
    some ((s.setCode (s.cur h) rest).setCode (.kernel i) [.release (.proc i), .user], .tau)
  | .initExit :: _ | .zombieExit _ :: _ => none
  | i :: rest => do
      let (d', code, e) ← exec pol s.d h (s.cur h) c i
      some ({ s with d := d' }.setCode (s.cur h) (code ++ rest), e)

/-- One step of hart `h`. -/
def step (pol : Policy) (s : Sys n) (h : Fin n) : Choice → Option (Sys n × Event n)
  | .interrupt k =>
    if s.noff h = 0 ∧ Instr.iret ∉ s.running h then
      some (s.setCode (s.cur h)
        (trap pol h k ((s.running h).head? = some .user) ++ s.running h), .tau)
    else none
  | c => s.fetch pol h c

/-- The step relation: some hart makes a step. -/
def Step (pol : Policy) (s : Sys n) (e : Event n) (s' : Sys n) : Prop :=
  ∃ h c, s.step pol h c = some (s', e)

/-- The machine after `main()` has run `userinit()` and every hart has entered
`scheduler()`.  The first process still has to run `fsinit()`. -/
def boot (n : Nat) : Sys n where
  d :=
    { proc := fun i => if i = 0 then
        { state := .runnable, pid := 1, averageBursttime := QUANTUM * 100,
          queueLocation := 1, priority := 5 } else {}
      cpuProc := fun _ => none
      ticks := 0
      nextpid := 2
      queueCounter := 2
      initproc := 0 }
  owner := fun _ => none
  noff := fun _ => 0
  cur := fun h => .scheduler h
  code
    | .scheduler _ => [.schedLoop]
    | .kernel i => if i = 0 then [.release (.proc 0), .clients 0, .user] else []

/-- A state some interleaving of the harts reaches. -/
def Reachable (pol : Policy) (s : Sys n) : Prop :=
  ∃ es, Lib.Run (Step pol) (boot n) es s

/-- Hart `h` makes `k` steps in which the environment decides nothing. -/
def goes (h : Fin n) (k : Nat) : List (Fin n × Choice) := List.replicate k (h, .go)

/-- Run the machine along a given interleaving. -/
def trace (pol : Policy) (s : Sys n) : List (Fin n × Choice) → Option (Sys n × List (Event n))
  | [] => some (s, [])
  | (h, c) :: l => do
      let (s', e) ← s.step pol h c
      let (s'', es) ← s'.trace pol l
      some (s'', e :: es)

theorem trace_run {pol : Policy} {s s' : Sys n} {l : List (Fin n × Choice)} {es : List (Event n)}
    (hl : s.trace pol l = some (s', es)) :
    es.length = l.length ∧ Lib.Run (Step pol) s es s' := by
  induction l generalizing s es with
  | nil =>
    simp only [trace, Option.some.injEq, Prod.mk.injEq] at hl
    obtain ⟨rfl, rfl⟩ := hl
    exact ⟨rfl, .refl s⟩
  | cons x l ih =>
    obtain ⟨h, c⟩ := x
    simp only [trace, Option.bind_eq_bind, Option.bind_eq_some_iff] at hl
    obtain ⟨⟨s₁, e⟩, hstep, ⟨s₂, es₂⟩, htr, hl⟩ := hl
    simp only [Option.some.injEq, Prod.mk.injEq] at hl
    obtain ⟨rfl, rfl⟩ := hl
    obtain ⟨hes, hrun⟩ := ih htr
    exact ⟨by simp [hes], (Lib.Run.single ⟨h, c, hstep⟩).append hrun⟩

/-- An interleaving whose states all meet `C` is a run of the restricted machine. -/
theorem trace_restrict {pol : Policy} {C : Sys n → Prop} {s s' : Sys n}
    {l : List (Fin n × Choice)} {es : List (Event n)} (hl : s.trace pol l = some (s', es))
    (hC : ∀ k ≤ l.length, ∀ u us, s.trace pol (l.take k) = some (u, us) → C u) :
    Lib.Run (Lib.Restrict (Step pol) fun _ _ u => C u) s es s' := by
  induction l generalizing s es with
  | nil =>
    simp only [trace, Option.some.injEq, Prod.mk.injEq] at hl
    obtain ⟨rfl, rfl⟩ := hl
    exact .refl s
  | cons x l ih =>
    obtain ⟨h, c⟩ := x
    simp only [trace, Option.bind_eq_bind, Option.bind_eq_some_iff] at hl
    obtain ⟨⟨s₁, e⟩, hstep, ⟨s₂, es₂⟩, htr, hl⟩ := hl
    simp only [Option.some.injEq, Prod.mk.injEq] at hl
    obtain ⟨rfl, rfl⟩ := hl
    have hrest : ∀ k ≤ l.length, ∀ u us, s₁.trace pol (l.take k) = some (u, us) → C u := by
      intro k hk u us hu
      refine hC (k + 1) (by simpa using hk) u (e :: us) ?_
      simp [trace, hstep, hu]
    have hfirst : C s₁ := hrest 0 (Nat.zero_le _) s₁ [] rfl
    exact (Lib.Run.single ⟨⟨h, c, hstep⟩, hfirst⟩).append (ih htr hrest)

end Sys

end Xv6.Sched
