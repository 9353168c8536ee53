import Xv6.Sched.Step

/-!
# Lock discipline of the kernel code

What a thread holds is determined by the code it still has to run: `held` reads
it off backwards from the end of the code, where no lock is held.  The other
functions here read off in the same way where the thread is: on its way into
`sched()`, dispatching a process, filling in a free slot, or inside one of the
loops that run under `tickslock`, `wait_lock` or a client's lock.  `WF` collects
what every instruction of the kernel relies on, and `exec_wf` says that executing
an instruction keeps all of it.
-/

namespace Xv6.Sched

open Instr

variable {n : Nat}

/-! ## Locks -/

/-- The order in which the kernel nests its locks, with one exception: `tickslock`
is also taken under a `p->lock`. -/
def Lock.rank : Lock → Nat
  | waitLock | other _ => 0
  | tickslock => 1
  | proc _ => 2
  | pidLock | queueLock => 3

@[simp] theorem Lock.rank_waitLock : Lock.waitLock.rank = 0 := rfl
@[simp] theorem Lock.rank_other (m : Nat) : (Lock.other m).rank = 0 := rfl
@[simp] theorem Lock.rank_tickslock : Lock.tickslock.rank = 1 := rfl
@[simp] theorem Lock.rank_proc (i : Slot) : (Lock.proc i).rank = 2 := rfl
@[simp] theorem Lock.rank_pidLock : Lock.pidLock.rank = 3 := rfl
@[simp] theorem Lock.rank_queueLock : Lock.queueLock.rank = 3 := rfl

/-- The locks an instruction, with everything it expands to, gives up on
balance. -/
def Instr.gives : Instr → Finset Lock
  | release lk | releaseSleep _ _ lk => {lk}
  | takeQueue _ => {.queueLock}
  | takePid _ => {.pidLock}
  | quantum | sleepStart _ _ | sleepLoop _ _ _ | startTick _ | stopTick _ _ => {.tickslock}
  | killCheck _ i | allocCheck _ i | allocMem _ i | select i _ _ | zombieExit i => {.proc i}
  | waitScan _ _ _ _ => {.waitLock}
  | waitCheck _ _ i => {.waitLock, .proc i}
  | clientLoop _ m | intrLoop m => {.other m}
  | _ => ∅

/-- The locks held by a thread that still has to run this code. -/
def held : Code → Finset Lock
  | [] => ∅
  | i :: c =>
    match i with
    | acquire lk => (held c).erase lk
    | _ => i.gives ∪ held c

variable {i : Instr} {rest c : Code} {t : Thread n}

theorem gives_subset_held (hi : ∀ lk, i ≠ acquire lk) : i.gives ⊆ held (i :: rest) := by
  cases i <;> simp [held] at hi ⊢

theorem held_subset_cons (hi : ∀ lk, i ≠ acquire lk) : held rest ⊆ held (i :: rest) := by
  cases i <;> simp [held] at hi ⊢

/-! ## Reading the position of a thread off its code -/

def parked : Code → Bool
  | [] => false
  | i :: c =>
    match i with
    | acquire _ | release _ | setTtime _ => parked c
    | sched _ => true
    | _ => false

def dispatching : Code → Option Slot
  | [] => none
  | i :: c =>
    match i with
    | acquire _ | release _ => dispatching c
    | swtch j | startTick j | stopTick j _ | setAverage j _ | clearProc j => some j
    | _ => none

def switching : Code → Bool
  | [] => false
  | i :: c =>
    match i with
    | acquire _ | release _ => switching c
    | swtch _ | startTick _ => true
    | _ => false

def waking : Code → Option Slot
  | [] => none
  | i :: c =>
    match i with
    | acquire _ | release _ | takeQueue _ | setQueue _ _ => waking c
    | wakeRunnable _ j => some j
    | _ => none

def allocating : Code → Option Slot
  | [] => none
  | i :: c =>
    match i with
    | acquire _ | release _ => allocating c
    | takePid j | setUsed j _ => some j
    | _ => none

/-- The `USED` slot whose accounting fields `allocproc` has not yet reset, and
whether its `ctime` is already written. -/
def filling : Code → Option (Slot × Bool)
  | [] => none
  | i :: c =>
    match i with
    | acquire lk | release lk => if lk = .tickslock then filling c else none
    | setCtime j => some (j, false)
    | initCounters j => some (j, true)
    | _ => none

def napping : Code → Bool
  | [] => false
  | i :: _ =>
    match i with
    | setSleeping _ _ => true
    | _ => false

def stamping : Code → Bool
  | [] => false
  | i :: c =>
    match i with
    | acquire lk => lk = .tickslock && stamping c
    | setTtime _ => true
    | _ => false

/-- The next instruction under the outer lock that the thread holds, looking past
the operations on inner locks. -/
def inner : Code → Option Instr
  | [] => none
  | i :: c =>
    match i with
    | acquire lk | release lk => if lk.rank < 2 then none else inner c
    | takeQueue _ | setQueue _ _ => inner c
    | _ => some i

def plain : Code → Bool
  | [] => true
  | i :: c =>
    match i with
    | acquire lk | release lk => if lk.rank < 2 then true else plain c
    | takeQueue _ | setQueue _ _ => plain c
    | wakeupLoop _ _ | wake _ _ | wakeRunnable _ _ | clockLoop _ | account _
    | waitScan _ _ _ _ | waitCheck _ _ _ | releaseSleep _ _ _ | reparent _ _
    | wakeupParent _ | setZombie _ _ => false
    | _ => true

/-- Does the thread hold `tickslock` in `clockintr` or `sys_sleep`, where it may go
on to take the lock of a process? -/
def ticking : Code → Bool
  | [] => false
  | i :: c =>
    match i with
    | acquire lk | release lk => if lk.rank < 2 then false else ticking c
    | takeQueue _ | setQueue _ _ | wake _ _ | wakeRunnable _ _ => ticking c
    | tick | clockLoop _ | account _ | sleepStart _ _ | sleepLoop _ _ _ => true
    | wakeupLoop chan _ => chan = .ticks
    | releaseSleep _ _ lk => lk = .tickslock
    | _ => false

structure Pos where
  parked : Bool
  dispatching : Option Slot
  switching : Bool
  waking : Option Slot
  allocating : Option Slot
  filling : Option (Slot × Bool)

def pos (c : Code) : Pos :=
  ⟨parked c, dispatching c, switching c, waking c, allocating c, filling c⟩

def Instr.claim : Instr → Option Slot
  | takePid i | setUsed i _ | setCtime i | initCounters i | allocMem _ i | forkret i
  | setParent _ i | forkRunnable i => some i
  | _ => none

def Claims (c : Code) (i : Slot) : Prop := ∃ x ∈ c, x.claim = some i

/-- The slots whose fields the thread is about to change, so that it must not let
go of their lock. -/
def Pinned (t : Thread n) (c : Code) (j : Slot) : Prop :=
  dispatching c = some j ∨ waking c = some j ∨ allocating c = some j ∨
    (t = .kernel j ∧ parked c = true)

def Settled (c : Code) : Prop :=
  parked c = false ∧ dispatching c = none ∧ allocating c = none ∧ filling c = none ∧
    napping c = false ∧ stamping c = false

def Still (c : Code) : Prop := Settled c ∧ waking c = none

def Quiet (c : Code) : Prop := Still c ∧ plain c = true

def Starts (c : Code) : Prop :=
  plain c = true ∨ (∃ p a k, inner c = some (waitScan p a 0 k)) ∨ ∃ p, inner c = some (reparent p 0)

def Idle (c : Code) : Prop := Quiet c ∧ held c = ∅

def Low (c : Code) : Prop := ∀ l ∈ held c, l.rank < 2

def NoWait (c : Code) : Prop := ∀ p a i k, waitScan p a i k ∉ c

def WakeLocks (chan : Chan) (c : Code) : Prop :=
  (∃ l ∈ held c, l.rank < 2) ∧ (.tickslock ∈ held c → chan = .ticks) ∧
    ∀ p, chan = .proc p → .waitLock ∈ held c

def Ok (t : Thread n) (i : Instr) (c : Code) : Prop :=
  match i with
  | acquire lk => lk ∈ held c ∧ (∀ j, Pinned t c j → lk ≠ .proc j) ∧
      (∀ l ∈ held c, l = lk ∨ l.rank < lk.rank ∨ lk = .tickslock ∧ ∃ j, l = .proc j) ∧
      (.tickslock ∈ held c → lk = .tickslock ∨ ticking c = true) ∧
      (lk.rank < 2 → Starts c) ∧ (lk = .tickslock ∨ filling c = none ∧ stamping c = false) ∧
      napping c = false
  | release lk => lk ∉ held c ∧ (lk.rank < 2 → plain c = true) ∧
      (lk = .tickslock ∨ filling c = none) ∧ napping c = false ∧ stamping c = false
  | releaseSleep p chan lk =>
    t = .kernel p ∧ held c = {.proc p} ∧
    (lk.rank < 2 ∧ ∀ q, chan = .proc q → lk = .waitLock) ∧ ∃ c', c = setSleeping p chan :: c'
  | sched p => t = .kernel p ∧ Quiet c ∧ held c = {.proc p}
  | zombieExit p => t = .kernel p ∧ Idle c
  | swtch i => (∃ h, t = .scheduler h) ∧ held c = {.proc i} ∧ dispatching c = some i ∧
      switching c = false
  | forkret i => (∃ p, t = .kernel p ∧ p ≠ i) ∧ .proc i ∈ held c ∧ Quiet c ∧ forkRunnable i ∈ c
  | initExit | iret | kernelTimer | intrLoop _ | killLoop _ _ | killCheck _ _ => Idle c
  | user => (∃ p, t = .kernel p) ∧ c = []
  | killedExit => (∃ p, t = .kernel p) ∧ Idle c ∧ NoWait c
  | quantum => (∃ p, t = .kernel p) ∧ Idle c
  | tick => .tickslock ∈ held c ∧ Low c ∧ Still c ∧
      inner c = some (wakeupLoop .ticks 0)
  | clockLoop _ => .tickslock ∈ held c ∧ Low c ∧ Still c ∧
      inner c = some (wakeupLoop .ticks 0)
  | account i => .tickslock ∈ held c ∧ .proc i ∈ held c ∧ Still c ∧
      inner c = some (clockLoop (i + 1))
  | setCtime i => .tickslock ∈ held c ∧ .proc i ∈ held c ∧ filling c = some (i, true)
  | wakeupLoop chan _ => WakeLocks chan c ∧ Low c ∧ Still c ∧
      (plain c = true ∨ (∃ p i, inner c = some (reparent p i)) ∨ ∃ p st, inner c = some (setZombie p st))
  | wake chan i => WakeLocks chan c ∧ .proc i ∈ held c ∧ (∀ l ∈ held c, l.rank < 3) ∧ Still c ∧ inner c = some (wakeupLoop chan (i + 1))
  | wakeRunnable chan i => .proc i ∈ held c ∧ Still c ∧
      inner c = some (wakeupLoop chan (i + 1))
  | setUsed i _ => .proc i ∈ held c ∧ filling c = some (i, false)
  | takePid i => .pidLock ∉ held c ∧ .proc i ∈ held c ∧ filling c = some (i, false)
  | initCounters i => .proc i ∈ held c ∧ Quiet c
  | forkRunnable i => .proc i ∈ held c ∧ Quiet c ∧ ∀ j, ¬Claims c j
  | takeQueue i => .queueLock ∉ held c ∧ .proc i ∈ held c ∧ Settled c
  | setQueue i _ => .proc i ∈ held c ∧ Settled c
  | yieldRunnable p => t = .kernel p ∧ .proc p ∈ held c ∧ parked c = true
  | setSleeping p chan => t = .kernel p ∧ .proc p ∈ held c ∧ parked c = true ∧
      (NoWait c ∨ chan = .proc p)
  | setZombie p _ => t = .kernel p ∧ .proc p ∈ held c ∧ .waitLock ∈ held c ∧ parked c = true ∧
      .tickslock ∉ held c ∧ stamping c = true
  | setTtime p => t = .kernel p ∧ .tickslock ∈ held c ∧ .proc p ∈ held c ∧ parked c = true ∧
      stamping c = false
  | clearChan p => t = .kernel p ∧ .proc p ∈ held c ∧ Quiet c
  | allocLoop p _ | allocCheck p _ => t = .kernel p ∧ Idle c ∧ ∀ i, ¬Claims c i
  | allocMem p i => t = .kernel p ∧ p ≠ i ∧ Idle c ∧ ∀ i, ¬Claims c i
  | waitScan p _ _ _ | waitCheck p _ _ => t = .kernel p ∧ Idle c
  | sleepStart p _ | sleepLoop p _ _ | clients p | clientLoop p _ =>
    t = .kernel p ∧ Idle c ∧ NoWait c
  | setParent p i => t = .kernel p ∧ held c = {.waitLock} ∧ Quiet c ∧ forkRunnable i ∈ c ∧
      ∀ q, allocMem q i ∉ c
  | reparent p _ => t = .kernel p ∧ held c = {.waitLock} ∧ Still c ∧
      inner c = some (wakeupParent p)
  | wakeupParent p => t = .kernel p ∧ held c = {.waitLock} ∧ Still c ∧
      ∃ st, inner c = some (setZombie p st)
  | schedLoop | dfltScan _ | scan _ _ _ | select _ _ _ => (∃ h, t = .scheduler h) ∧ Idle c
  | tryRun i | clearProc i | startTick i | stopTick i _ =>
    (∃ h, t = .scheduler h) ∧ held c = {.proc i} ∧ Quiet c
  | setAverage i _ => (∃ h, t = .scheduler h) ∧ held c = {.proc i} ∧
      dispatching c = some i ∧ switching c = false

def WF (t : Thread n) : Code → Prop
  | [] => True
  | i :: c => Ok t i c ∧ WF t c

def CpuOk (d : Data n) (h : Fin n) (t : Thread n) (c : Code) : Prop :=
  match t with
  | .kernel p => d.cpuProc h = some p
  | .scheduler _ => d.cpuProc h = dispatching c

/-! ## The positions exclude one another -/

section

attribute [local simp] parked dispatching switching waking allocating filling napping stamping
  plain

variable {c : Code}

theorem switching_of_dispatching (h : dispatching c = none) : switching c = false := by
  induction c with
  | nil => rfl
  | cons i c ih => cases i <;> simp_all

theorem settled_of_parked (h : parked c = true) :
    dispatching c = none ∧ waking c = none ∧ allocating c = none ∧ filling c = none ∧
      napping c = false ∧ plain c = true := by
  induction c with
  | nil => simp at h
  | cons i c ih =>
    cases i
    case acquire lk | release lk => cases lk <;> simp_all [Lock.rank]
    all_goals simp_all

theorem settled_of_dispatching {i : Slot} (h : dispatching c = some i) :
    parked c = false ∧ waking c = none ∧ allocating c = none ∧ filling c = none ∧
      napping c = false ∧ stamping c = false ∧ plain c = true := by
  induction c with
  | nil => simp at h
  | cons i c ih =>
    cases i
    case acquire lk | release lk => cases lk <;> simp_all [Lock.rank]
    all_goals simp_all

theorem settled_of_filling {x : Slot × Bool} (h : filling c = some x) :
    parked c = false ∧ dispatching c = none ∧ waking c = none ∧ allocating c = none ∧
      napping c = false ∧ stamping c = false ∧ plain c = true := by
  induction c with
  | nil => simp at h
  | cons i c ih =>
    cases i
    case acquire lk | release lk => cases lk <;> simp_all [Lock.rank]
    all_goals simp_all

end

attribute [local simp] held parked dispatching switching waking allocating filling napping
  stamping inner plain
  ticking Instr.gives Instr.claim Claims Pinned Ok WF Settled Still Quiet Starts Idle Low NoWait WakeLocks

theorem Pinned.mem_held {j : Slot} (hp : Pinned t c j) (hwf : WF t c) : Lock.proc j ∈ held c := by
  induction c with
  | nil => simp at hp
  | cons i c ih =>
    cases i <;> simp_all
    all_goals grind

theorem WF.kernel_of_parked (hwf : WF t c) (hp : parked c = true) : ∃ p, t = .kernel p := by
  induction c with
  | nil => simp at hp
  | cons i c ih => cases i <;> simp_all

theorem filling_mem_held {j : Slot} {b : Bool} (hwf : WF t c)
    (hf : filling c = some (j, b)) : Lock.proc j ∈ held c := by
  induction c with
  | nil => simp at hf
  | cons i c ih =>
    cases i <;> simp_all

theorem napping_mem_held (hwf : WF t c) (hn : napping c = true) : ∃ j, Lock.proc j ∈ held c := by
  cases c with
  | nil => simp at hn
  | cons i c =>
    cases i <;> simp_all
    case setSleeping p chan => exact ⟨p, hwf.1.2.1⟩

theorem stamping_mem_held (hwf : WF t c) (hs : stamping c = true) : ∃ j, Lock.proc j ∈ held c := by
  induction c with
  | nil => simp at hs
  | cons i c ih =>
    cases i <;> simp_all
    case setTtime p => exact ⟨p, hwf.1.2.2.1⟩

theorem plain_of_inner {chan : Chan} {k : Nat}
    (hi : inner c = some (wakeupLoop chan k)) : plain c = false := by
  induction c with
  | nil => simp at hi
  | cons i c ih => cases i <;> simp_all

/-- The thread holds an outer lock in every section that runs under one. -/
theorem WF.outer_of_plain (hwf : WF t c) (hp : plain c = false) : ∃ l ∈ held c, l.rank < 2 := by
  induction c with
  | nil => simp at hp
  | cons i c ih =>
    have hrest := ih hwf.2
    clear ih
    cases i
    case acquire lk =>
      have hrank : ¬lk.rank < 2 := by
        intro hlt
        simp [hlt] at hp
      have hplain : plain c = false := by
        rwa [plain, if_neg hrank] at hp
      obtain ⟨l, hl, hr⟩ := hrest hplain
      refine ⟨l, Finset.mem_erase.2 ⟨?_, hl⟩, hr⟩
      rintro rfl
      exact hrank hr
    case wakeRunnable chan j =>
      obtain ⟨l, hl, hr⟩ := hrest (plain_of_inner hwf.1.2.2)
      exact ⟨l, held_subset_cons (by simp) hl, hr⟩
    all_goals simp_all
    case clockLoop | account => exact ⟨_, hwf.1.1, by simp⟩
    case setZombie => exact ⟨_, hwf.1.2.2.1, by simp⟩

theorem ticking_of_inner {chan : Chan} {k : Nat}
    (hi : inner c = some (wakeupLoop chan k)) : ticking c = decide (chan = .ticks) := by
  induction c with
  | nil => simp at hi
  | cons i c ih => cases i <;> simp_all

theorem Low.not_proc (hl : Low c) (j : Slot) : Lock.proc j ∉ held c := by
  intro hj
  have := hl _ hj
  simp at this

theorem WF.quiet_of_held (hwf : WF t c) (hheld : held c = ∅) : Quiet c := by
  have hnone : ∀ j, ¬Pinned t c j := by
    intro j hj
    have := hj.mem_held hwf
    simp [hheld] at this
  simp only [Pinned, not_or] at hnone
  refine ⟨⟨⟨?_, ?_, ?_, ?_, ?_, ?_⟩, ?_⟩, ?_⟩
  · by_contra hp
    obtain ⟨p, rfl⟩ := hwf.kernel_of_parked (by simpa using hp)
    exact (hnone p).2.2.2 ⟨rfl, by simpa using hp⟩
  · exact Option.eq_none_iff_forall_ne_some.2 fun j => (hnone j).1
  · exact Option.eq_none_iff_forall_ne_some.2 fun j => (hnone j).2.2.1
  · refine Option.eq_none_iff_forall_ne_some.2 fun x hx => ?_
    have := filling_mem_held hwf hx
    simp [hheld] at this
  · by_contra hnap
    obtain ⟨j, hj⟩ := napping_mem_held hwf (by simpa using hnap)
    simp [hheld] at hj
  · by_contra hst
    obtain ⟨j, hj⟩ := stamping_mem_held hwf (by simpa using hst)
    simp [hheld] at hj
  · exact Option.eq_none_iff_forall_ne_some.2 fun j => (hnone j).2.1
  · by_contra hp
    have := hwf.outer_of_plain (by simpa using hp)
    simp [hheld] at this

/-! ## Well-formedness of the code of each function -/

section

variable {t : Thread n} {p i : Slot} {c : Code}

theorem wf_yield (hc : WF (n := n) (.kernel p) c) (hidle : Idle c) :
    WF (n := n) (.kernel p) (yield p ++ c) ∧ Idle (yield p ++ c) := by
  simp_all [yield, allocQueueCounter]

theorem wf_sleep (chan : Chan) (lk : Lock) (hc : WF (n := n) (.kernel p) c) (hheld : held c = {lk})
    (hstarts : Starts c) (hstill : Still c) (hlk : lk.rank < 2)
    (hchan : ∀ q, chan = .proc q → lk = .waitLock) (hwait : NoWait c ∨ chan = .proc p) :
    WF (n := n) (.kernel p) (sleep p chan lk ++ c) ∧ held (sleep p chan lk ++ c) = {lk} := by
  have hne : lk ≠ .proc p := by
    rintro rfl
    simp at hlk
  simp_all [sleep]
  grind

theorem wf_exit (ip : Slot) (st : Int) (hc : WF (n := n) (.kernel p) c) (hidle : Idle c)
    (hwait : NoWait c) :
    WF (n := n) (.kernel p) (exit ip p st ++ c) ∧ Idle (exit ip p st ++ c) := by
  unfold exit
  split
  · simp_all
  · have h₁ : (({.waitLock, .tickslock, .proc p} : Finset Lock).erase .tickslock).erase
        (.proc p) = {.waitLock} := by grind
    simp_all
    rintro l - (rfl | rfl) <;> simp

theorem wf_syscall (ip : Slot) (x : Syscall) (hc : WF (n := n) (.kernel p) c) (hidle : Idle c)
    (hwait : NoWait c) (hclaim : ∀ i, ¬Claims c i) :
    WF (n := n) (.kernel p) (syscall ip p x ++ c) ∧ Idle (syscall ip p x ++ c) := by
  cases x
  case exit => exact wf_exit _ _ hc hidle hwait
  all_goals simp_all [syscall, fork, wait, kill, sysSleep]

end

theorem exec_wf {pol : Policy} {d d' : Data n} {h : Fin n} {c : Choice} {exp : Code} {e : Event n}
    (hx : exec pol d h t c i = some (d', exp, e)) (hok : Ok t i rest) (hwf : WF t rest)
    (hcpu : CpuOk d h t (i :: rest))
    (hrun : ∀ p, t = .kernel p → parked (i :: rest) = false → (d.proc p).state = .running) :
    WF t (exp ++ rest) ∧ held (exp ++ rest) = held (i :: rest) := by
  cases i
  case user =>
    obtain ⟨⟨p, rfl⟩, rfl⟩ := hok
    have hp : d.cpuProc h = some p := hcpu
    simp only [exec, hp, Option.bind_eq_bind, Option.bind_some] at hx
    cases c <;> cases hx
    case syscall x =>
      have hu : WF (n := n) (.kernel p) [user] := by simp
      have hk : WF (n := n) (.kernel p) [killedExit, user] := by simp
      split
      · have := wf_exit d.initproc (-1) hu (by simp) (by simp)
        simp_all
      · have := wf_syscall d.initproc x hk (by simp) (by simp) (by simp)
        simp_all
    case fault => simp
  case killedExit =>
    obtain ⟨⟨p, rfl⟩, hidle⟩ := hok
    have hp : d.cpuProc h = some p := hcpu
    simp only [exec, hp, Option.bind_eq_bind, Option.bind_some] at hx
    cases hx
    split
    · have := wf_exit d.initproc (-1) hwf hidle.1 hidle.2
      simp_all
    · simp_all
  case quantum =>
    obtain ⟨⟨p, rfl⟩, hidle⟩ := hok
    have hp : d.cpuProc h = some p := hcpu
    simp only [exec, hp, Option.bind_eq_bind, Option.bind_some] at hx
    cases hx
    split
    · have := wf_yield hwf hidle
      simp_all
    · simp_all
  case waitScan p a j hk =>
    obtain ⟨rfl, hidle⟩ := hok
    cases hx
    simp only [forSlot]
    split
    · split
      · have h₁ : ({.waitLock, .proc ⟨j, by assumption⟩} : Finset Lock).erase
            (.proc ⟨j, by assumption⟩) = {.waitLock} := by grind
        simp_all
      · simp_all
    · split
      · simp_all
      · have := wf_sleep (n := n) (p := p)
          (c := waitScan p a 0 false :: rest) (.proc p) .waitLock (by simp_all) (by simp_all) (by simp_all) (by simp_all)
          (by simp) (by simp) (by simp_all)
        simp_all
  case sleepLoop p k t0 =>
    obtain ⟨rfl, hidle⟩ := hok
    cases hx
    split
    · split
      · simp_all
      · have := wf_sleep (n := n) (p := p) (c := sleepLoop p k t0 :: rest)
          .ticks .tickslock (by simp_all) (by simp_all) (by simp_all) (by simp_all)
          (by simp) (by simp) (by simp_all)
        simp_all
    · simp_all
  case clientLoop p m =>
    obtain ⟨rfl, hidle⟩ := hok
    cases c <;> simp only [exec, reduceCtorEq] at hx
    case sleepOn x =>
      cases hx
      have := wf_sleep (n := n) (p := p) (c := clientLoop p m :: rest)
        (.other x) (.other m) (by simp_all) (by simp_all) (by simp_all) (by simp_all)
          (by simp) (by simp) (by simp_all)
      simp_all
    all_goals
      cases hx
      simp_all [wakeup]
  case clients p =>
    simp only [exec] at hx
    split at hx <;> cases hx
    all_goals simp_all
  case intrLoop m =>
    cases c <;> cases hx
    all_goals simp_all [wakeup]
  case waitCheck p a j =>
    simp only [exec] at hx
    split at hx
    · split at hx
      · cases hx
        simp_all [Finset.pair_comm]
      · split at hx
        · cases hx
          simp_all [Finset.pair_comm]
        · simp at hx
      · simp at hx
    · cases hx
      simp_all [Finset.pair_comm]
  case reparent p j =>
    simp only [exec] at hx
    split at hx
    · split at hx
      all_goals
        cases hx
        simp_all [wakeup]
    · cases hx
      simp_all
  case allocMem p j =>
    simp only [exec] at hx
    split at hx
    · cases hx
      have hfresh : ∀ q, allocMem q j ∉ rest := fun q hq => hok.2.2.2 j ⟨_, hq, rfl⟩
      simp_all [forkTail, allocQueueCounter]
    · cases hx
      simp_all
    · simp at hx
  case wakeupLoop chan j =>
    cases hx
    simp only [forSlot]
    have hlow : Low rest := hok.2.1
    have hproc := hlow.not_proc
    split <;> [split; skip] <;> simp_all
    intro l hl
    have := hok.2.1 l hl
    omega
  case clockLoop j =>
    cases hx
    simp only [forSlot]
    have hlow : Low rest := hok.2.1
    have hproc := hlow.not_proc
    split <;> simp_all
  case wake chan j =>
    cases hx
    have htick : .tickslock ∈ held rest → ticking rest = true := by
      intro hmem
      rw [ticking_of_inner hok.2.2.2.2, hok.1.2.1 hmem]
      rfl
    have hqueue : .queueLock ∉ held rest := by
      intro hmem
      have := hok.2.2.1 _ hmem
      simp at this
    split <;> simp_all [allocQueueCounter]
  case wakeupParent p =>
    cases hx
    obtain ⟨st, hst⟩ := hok.2.2.2
    simp_all [wakeup]
  case scan j cand min =>
    cases hx
    simp only [forSlot]
    split
    · simp_all
    · cases cand <;> simp_all
  case kernelTimer =>
    cases hx
    cases t with
    | kernel p => split <;> simp_all
    | scheduler k =>
      have hp : d.cpuProc h = none := hcpu
      simp_all
  case tryRun j =>
    simp only [exec] at hx
    split at hx
    · split at hx
      all_goals
        cases hx
        simp_all
    · cases hx
      simp_all
  case killCheck pid j =>
    simp only [exec] at hx
    split at hx
    · split at hx
      all_goals
        cases hx
        simp_all [allocQueueCounter]
    · cases hx
      simp_all
  case allocCheck p j =>
    cases hx
    split
    · have : p ≠ j := by
        rintro rfl
        simp_all
      simp_all [allocFound]
    · simp_all
  all_goals simp only [exec, forSlot, reduceCtorEq] at hx
  all_goals cases hx
  case killLoop | allocLoop | dfltScan | schedLoop =>
    split <;> simp_all
  all_goals simp_all

end Xv6.Sched
