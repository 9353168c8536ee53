import Xv6.Sched.Types

/-!
# Kernel code as instruction lists

The functions of `proc.c`, `trap.c` and `sysproc.c` that take part in scheduling,
written as the instructions a kernel thread still has to execute.  Acquiring and
releasing a spinlock is one instruction each; the straight-line code between two
lock operations is one instruction or a few.  A branch or a loop is an
instruction that, when executed, is replaced by the code of the branch taken, so
a thread's remaining work is always a plain list and an interrupt handler is
pushed in front of it.
-/

namespace Xv6.Sched

/-- Arguments of `wait(addr)` (`stat = false`) and of `wait_stat(status, ..)`
(`stat = true`).  `addr` is where the exit status goes; zero means nowhere. -/
structure WaitArgs where
  stat : Bool
  addr : Nat
  deriving DecidableEq, Repr

/-- Can a `copyout` of this call fail?  `wait(0)` copies nothing out. -/
def WaitArgs.copies (a : WaitArgs) : Bool := a.stat || a.addr != 0

inductive Instr
  -- spinlock.c; `releaseSleep` is the `release(lk)` inside `sleep(chan, lk)`
  | acquire (lk : Lock)
  | release (lk : Lock)
  | releaseSleep (p : Slot) (chan : Chan) (lk : Lock)
  -- context switches: `sched()`, the scheduler's `swtch`, and `allocproc`
  -- pointing the new context at `forkret`
  | sched (p : Slot)
  | swtch (i : Slot)
  | forkret (i : Slot)
  -- panic("init exiting") and panic("zombie exit")
  | initExit
  | zombieExit (p : Slot)
  -- trap.c
  | user
  | iret
  | killedExit
  | tick
  | clockLoop (i : Nat)
  | account (i : Slot)
  | kernelTimer
  | quantum
  -- wakeup, alloc_queue_counter, yield, sleep, kill
  | wakeupLoop (chan : Chan) (i : Nat)
  | wake (chan : Chan) (i : Slot)
  | wakeRunnable (chan : Chan) (i : Slot)
  | takeQueue (i : Slot)
  | setQueue (i : Slot) (v : Nat)
  | yieldRunnable (p : Slot)
  | setSleeping (p : Slot) (chan : Chan)
  | clearChan (p : Slot)
  | killLoop (pid : Int) (i : Nat)
  | killCheck (pid : Int) (i : Slot)
  -- allocproc and fork
  | allocLoop (p : Slot) (i : Nat)
  | allocCheck (p i : Slot)
  | takePid (i : Slot)
  | setUsed (i : Slot) (pid : Int)
  | setCtime (i : Slot)
  | initCounters (i : Slot)
  | allocMem (p i : Slot)
  | setParent (p i : Slot)
  | forkRunnable (i : Slot)
  -- exit and reparent
  | reparent (p : Slot) (i : Nat)
  | wakeupParent (p : Slot)
  | setZombie (p : Slot) (status : Int)
  | setTtime (p : Slot)
  -- wait and wait_stat
  | waitScan (p : Slot) (a : WaitArgs) (i : Nat) (havekids : Bool)
  | waitCheck (p : Slot) (a : WaitArgs) (i : Slot)
  -- sys_sleep
  | sleepStart (p : Slot) (n : Int)
  | sleepLoop (p : Slot) (n : Int) (ticks0 : Nat)
  -- every other user of sleep and wakeup, in process and in interrupt context
  | clients (p : Slot)
  | clientLoop (p : Slot) (m : Nat)
  | intrLoop (m : Nat)
  -- scheduler
  | schedLoop
  | dfltScan (i : Nat)
  | scan (i : Nat) (cand : Option Slot) (min : Int)
  | select (i : Slot) (cand : Option Slot) (min : Int)
  | tryRun (i : Slot)
  | startTick (i : Slot)
  | stopTick (i : Slot) (start : Int)
  | setAverage (i : Slot) (burst : Int)
  | clearProc (i : Slot)
  deriving DecidableEq, Repr

open Instr

abbrev Code := List Instr

/-! ## proc.c -/

/-- `p->queue_location = alloc_queue_counter()`. -/
def allocQueueCounter (i : Slot) : Code :=
  [acquire .queueLock, takeQueue i]

/-- `wakeup(chan)`. -/
def wakeup (chan : Chan) : Code :=
  [wakeupLoop chan 0]

/-- `yield()`. -/
def yield (p : Slot) : Code :=
  [acquire (.proc p)] ++ allocQueueCounter p ++
    [yieldRunnable p, sched p, release (.proc p)]

/-- `sleep(chan, lk)`. -/
def sleep (p : Slot) (chan : Chan) (lk : Lock) : Code :=
  [acquire (.proc p), releaseSleep p chan lk, setSleeping p chan, sched p,
    clearChan p, release (.proc p), acquire lk]

/-- `kill(pid)`. -/
def kill (pid : Int) : Code :=
  [killLoop pid 0]

/-- `allocproc()` once it has found the free slot `i`, up to the allocation of
the trapframe and the page table. -/
def allocFound (p i : Slot) : Code :=
  [acquire .pidLock, takePid i, acquire .tickslock, setCtime i, release .tickslock,
    initCounters i, allocMem p i]

/-- The rest of `fork()` after every allocation has succeeded. -/
def forkTail (p i : Slot) : Code :=
  [forkret i, release (.proc i), acquire .waitLock, setParent p i, release .waitLock,
    acquire (.proc i)] ++ allocQueueCounter i ++ [forkRunnable i, release (.proc i)]

/-- `fork()`, which starts with `allocproc()`. -/
def fork (p : Slot) : Code :=
  [allocLoop p 0]

/-- `exit(status)`; closing the files and releasing the current directory is the
work of `clients`. -/
def exit (initproc p : Slot) (status : Int) : Code :=
  if p = initproc then [initExit]
  else
    [clients p, acquire .waitLock, reparent p 0, wakeupParent p, acquire (.proc p),
      setZombie p status, acquire .tickslock, setTtime p, release .tickslock,
      release .waitLock, sched p, zombieExit p]

/-- `wait(addr)` and `wait_stat(status, performance)`. -/
def wait (p : Slot) (a : WaitArgs) : Code :=
  [acquire .waitLock, waitScan p a 0 false]

/-! ## trap.c and sysproc.c -/

/-- `clockintr()`. -/
def clockintr : Code :=
  [acquire .tickslock, tick] ++ wakeup .ticks ++ [release .tickslock]

/-- `sys_sleep(n)`. -/
def sysSleep (p : Slot) (n : Int) : Code :=
  [acquire .tickslock, sleepStart p n]

/-- The interrupts a hart can take. -/
inductive Interrupt
  | timer
  | device (m : Nat)
  deriving DecidableEq, Repr

/-- `devintr()`: only hart 0 advances the clock. -/
def devintr (hart : Nat) : Interrupt → Code
  | .timer => if hart = 0 then clockintr else []
  | .device m => [acquire (.other m), intrLoop m]

/-- What `usertrap()` and `kerneltrap()` do after `devintr()`.  The FCFS build never
gives up the CPU on a timer interrupt. -/
def afterIntr (pol : Policy) (k : Interrupt) (fromUser : Bool) : Code :=
  match fromUser, decide (k = .timer ∧ pol ≠ .fcfs) with
  | true, true => [killedExit, acquire .tickslock, quantum]
  | true, false => [killedExit]
  | false, true => [kernelTimer]
  | false, false => []

/-- `kerneltrap()` and, when the hart was in user space, `usertrap()`. -/
def trap (pol : Policy) (hart : Nat) (k : Interrupt) (fromUser : Bool) : Code :=
  devintr hart k ++ afterIntr pol k fromUser ++ [iret]

/-- The system calls that reach the scheduling code.  `client m` is any other
system call that sleeps or wakes under the lock `m`. -/
inductive Syscall
  | fork
  | exit (status : Int)
  | wait (a : WaitArgs)
  | kill (pid : Int)
  | sleep (n : Int)
  | client (m : Nat)
  deriving DecidableEq, Repr

/-- `syscall()` for process `p`. -/
def syscall (initproc p : Slot) : Syscall → Code
  | .fork => fork p
  | .exit status => exit initproc p status
  | .wait a => wait p a
  | .kill pid => kill pid
  | .sleep n => sysSleep p n
  | .client m => [acquire (.other m), clientLoop p m]

end Xv6.Sched
