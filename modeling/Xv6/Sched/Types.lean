import Mathlib

/-!
# Process table, spinlocks and harts

The shared data of `proc.c`, `trap.c` and `spinlock.c` as the scheduling code
sees it: the fields of `struct proc` that it reads or writes, the per-hart
`c->proc`, the tick counter and the two counters behind `pid_lock` and
`queue_lock`.  User memory, open files and the saved user registers do not
influence these functions and are left out.
-/

namespace Xv6.Sched

/-- Maximum number of processes (`param.h`). -/
abbrev NPROC : Nat := 64

/-- Length of a time slice in clock ticks (`param.h`). -/
def QUANTUM : Nat := 5

/-- Weight of the last burst in the burst-time average (`param.h`). -/
def ALPHA : Int := 50

/-- A position in the process table `proc[NPROC]`. -/
abbrev Slot := Fin NPROC

scoped instance neZero_nproc : NeZero NPROC := ⟨by decide⟩
scoped instance neZero_one : NeZero 1 := ⟨by decide⟩
scoped instance neZero_two : NeZero 2 := ⟨by decide⟩

/-- `enum procstate`. -/
inductive Procstate
  | unused | used | sleeping | runnable | running | zombie
  deriving DecidableEq, Repr

/-- The addresses that processes sleep on.  `null` is the zero pointer, `ticks`
is `&ticks`, `proc i` is `&proc[i]`, and `other` stands for every address slept
on outside `proc.c` and `sysproc.c` (pipes, sleep locks, the log, the disk). -/
inductive Chan
  | null
  | ticks
  | proc (i : Slot)
  | other (c : Nat)
  deriving DecidableEq, Repr

/-- The spinlocks.  `other` stands for the locks that guard the remaining sleep
channels. -/
inductive Lock
  | tickslock
  | waitLock
  | pidLock
  | queueLock
  | proc (i : Slot)
  | other (m : Nat)
  deriving DecidableEq, Repr

/-- The fields of `struct proc` used by scheduling, waiting and accounting. -/
structure Proc where
  state : Procstate := .unused
  chan : Chan := .null
  killed : Bool := false
  xstate : Int := 0
  pid : Int := 0
  ctime : Int := 0
  ttime : Int := 0
  stime : Int := 0
  retime : Int := 0
  rutime : Int := 0
  averageBursttime : Int := 0
  queueLocation : Nat := 0
  priority : Int := 0
  parent : Option Slot := none
  deriving Repr

/-- The body of `scheduler` that the build selects (`SCHEDFLAG`). -/
inductive Policy
  | dflt | fcfs | srt | cfsd
  deriving DecidableEq, Repr

/-- Shared data on a machine with `n` harts. -/
structure Data (n : Nat) where
  proc : Slot → Proc
  /-- `c->proc` of each hart. -/
  cpuProc : Fin n → Option Slot
  ticks : Nat
  nextpid : Int
  queueCounter : Nat
  initproc : Slot

namespace Data

variable {n : Nat}

/-- Rewrite one process table entry. -/
@[simps cpuProc ticks initproc]
def setProc (d : Data n) (i : Slot) (f : Proc → Proc) : Data n :=
  { d with proc := Function.update d.proc i (f (d.proc i)) }

@[simp] theorem setProc_proc (d : Data n) (i j : Slot) (f : Proc → Proc) :
    (d.setProc i f).proc j = if j = i then f (d.proc i) else d.proc j := by
  simp [setProc, Function.update_apply]

/-- `c->proc = p` on hart `h`. -/
@[simps proc cpuProc ticks initproc]
def setCpuProc (d : Data n) (h : Fin n) (p : Option Slot) : Data n :=
  { d with cpuProc := Function.update d.cpuProc h p }

end Data

end Xv6.Sched
