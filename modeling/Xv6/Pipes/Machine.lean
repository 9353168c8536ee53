import Xv6.Lib.Transition

/-!
# Pipes

A model of `pipewrite`, `piperead` and `pipeclose` on one pipe, called by any number
of processes, and of `kill`.  A process holds `pi->lock` from its `acquire` on, except
in `sleep`; every byte it moves is a step, so that `kill`, which takes only the victim's
`p->lock`, may come between any two of them.  `sleep` gives up `pi->lock` under the
sleeper's `p->lock`, which `wakeup` and `kill` wait for.
-/

namespace Xv6.Pipes

abbrev PIPESIZE : Nat := 512

scoped instance neZero_pipesize : NeZero PIPESIZE := ⟨by decide⟩

/-- `struct pipe` without its lock. -/
structure Pipe where
  data : Fin PIPESIZE → UInt8
  nread : UInt32
  nwrite : UInt32
  readopen : Bool
  writeopen : Bool

/-- The channels `&pi->nread` and `&pi->nwrite`. -/
inductive Chan
  | nread
  | nwrite
  deriving DecidableEq, Repr

/-- The user memory from `addr` on: `copyin` of byte `addr + i`, which fails where
nothing is mapped. -/
abbrev Source := Nat → Option UInt8

/-- Does `copyout` to `addr + i` succeed? -/
abbrev Target := Nat → Bool

inductive Op
  | write (src : Source) (n : Int)
  | read (dst : Target) (n : Int)
  | close (writable : Bool)

/-- Where a process is.  In `sleep` it comes to `…Sleep` with both locks and to
`…Doze` with its `p->lock`; a process that is woken goes on at `…Acquire`. -/
inductive Pc
  | user
  | writeAcquire (src : Source) (i : Nat) (n : Int)
  | writeLoop (src : Source) (i : Nat) (n : Int)
  | writeFull (src : Source) (i : Nat) (n : Int) (k : Nat)
  | writeSleep (src : Source) (i : Nat) (n : Int)
  | writeDoze (src : Source) (i : Nat) (n : Int)
  | writeDone (i k : Nat)
  | readAcquire (dst : Target) (n : Int)
  | readWait (dst : Target) (n : Int)
  | readSleep (dst : Target) (n : Int)
  | readDoze (dst : Target) (n : Int)
  | readLoop (dst : Target) (i : Nat) (n : Int)
  | readDone (i k : Nat)
  | release (r : Int)
  | closeAcquire (writable : Bool)
  | close (writable : Bool)
  | closeWake (writable : Bool) (k : Nat)
  | closeEnd

/-- The process holds its own `p->lock`. -/
def Pc.dozing : Pc → Bool
  | writeDoze .. => true
  | readDoze .. => true
  | _ => false

def Op.start : Op → Pc
  | write src n => .writeAcquire src 0 n
  | read dst n => .readAcquire dst n
  | close w => .closeAcquire w

/-- The channel that `pipeclose` wakes. -/
def closeChan : Bool → Chan
  | true => .nread
  | false => .nwrite

structure Proc where
  pc : Pc
  killed : Bool
  /-- The channel a SLEEPING process sleeps on. -/
  chan : Option Chan

structure Sys (m : Nat) where
  pipe : Pipe
  /-- The process that holds `pi->lock`. -/
  lock : Option (Fin m)
  procs : Fin m → Proc

inductive Event (m : Nat)
  | tau
  | called (p : Fin m) (o : Op)
  /-- A byte came into the pipe. -/
  | accepted (b : UInt8)
  /-- A byte went from the pipe to a reader. -/
  | delivered (b : UInt8)
  /-- A byte left the pipe and could not be copied out. -/
  | lost (b : UInt8)
  | returned (p : Fin m) (r : Int)
  | killed (p : Fin m)
  /-- `kfree` of the pipe. -/
  | freed

namespace Pipe

def full (pi : Pipe) : Bool := pi.nwrite == pi.nread + 512

def empty (pi : Pipe) : Bool := pi.nread == pi.nwrite

/-- `pi->data[pi->nwrite++ % PIPESIZE] = ch`. -/
def put (pi : Pipe) (ch : UInt8) : Pipe :=
  { pi with
    data := Function.update pi.data (Fin.ofNat PIPESIZE pi.nwrite.toNat) ch
    nwrite := pi.nwrite + 1 }

/-- `pi->data[pi->nread % PIPESIZE]`. -/
def front (pi : Pipe) : UInt8 := pi.data (Fin.ofNat PIPESIZE pi.nread.toNat)

/-- `pi->nread++`. -/
def take (pi : Pipe) : Pipe := { pi with nread := pi.nread + 1 }

def shut (pi : Pipe) : Bool → Pipe
  | true => { pi with writeopen := false }
  | false => { pi with readopen := false }

end Pipe

namespace Sys

variable {m : Nat} (s : Sys m) (p : Fin m)

@[simps pipe lock]
def setProc (f : Proc → Proc) : Sys m :=
  { s with procs := Function.update s.procs p (f (s.procs p)) }

def goto (pc : Pc) : Sys m := s.setProc p fun q => { q with pc := pc }

@[simps]
def setPipe (pi : Pipe) : Sys m := { s with pipe := pi }

@[simps]
def setLock (l : Option (Fin m)) : Sys m := { s with lock := l }

/-- `wakeup(c)` at process `j`. -/
def rouse (c : Chan) (j : Fin m) : Sys m :=
  if j ≠ p ∧ (s.procs j).chan = some c then s.setProc j fun q => { q with chan := none } else s

/-- The loop of `wakeup(c)` from process number `k` on; it waits for the `p->lock`
of a process that is about to sleep. -/
def wakeup (c : Chan) (k : Nat) (next : Nat → Pc) (done : Pc) : Option (Sys m) :=
  if h : k < m then
    if ⟨k, h⟩ ≠ p ∧ (s.procs ⟨k, h⟩).pc.dozing then none
    else some ((s.rouse p c ⟨k, h⟩).goto p (next (k + 1)))
  else some (s.goto p done)

/-- `acquire(&pi->lock)`. -/
def acquire (pc : Pc) : Option (Sys m) :=
  if s.lock = none then some ((s.setLock (some p)).goto p pc) else none

/-- One round of `pipewrite`'s loop. -/
def writeLoop (src : Source) (i : Nat) (n : Int) : Sys m × Event m :=
  if (i : Int) < n then
    if s.pipe.readopen = false ∨ (s.procs p).killed then (s.goto p (.release (-1)), .tau)
    else if s.pipe.full then (s.goto p (.writeFull src i n 0), .tau)
    else
      match src i with
      | none => (s.goto p (.writeDone i 0), .tau)
      | some ch => ((s.setPipe (s.pipe.put ch)).goto p (.writeLoop src (i + 1) n), .accepted ch)
  else (s.goto p (.writeDone i 0), .tau)

/-- One round of `piperead`'s first loop. -/
def readWait (dst : Target) (n : Int) : Sys m :=
  if s.pipe.empty ∧ s.pipe.writeopen then
    if (s.procs p).killed then s.goto p (.release (-1)) else s.goto p (.readSleep dst n)
  else s.goto p (.readLoop dst 0 n)

/-- One round of `piperead`'s second loop. -/
def readLoop (dst : Target) (i : Nat) (n : Int) : Sys m × Event m :=
  if (i : Int) < n ∧ s.pipe.empty = false then
    if dst i then
      ((s.setPipe s.pipe.take).goto p (.readLoop dst (i + 1) n), .delivered s.pipe.front)
    else ((s.setPipe s.pipe.take).goto p (.readDone i 0), .lost s.pipe.front)
  else (s.goto p (.readDone i 0), .tau)

/-- The next step of process `p` inside the kernel. -/
def exec : Pc → Option (Sys m × Event m)
  | .user => none
  | .writeAcquire src i n => (s.acquire p (.writeLoop src i n)).map (·, .tau)
  | .writeLoop src i n => some (s.writeLoop p src i n)
  | .writeFull src i n k =>
    (s.wakeup p .nread k (.writeFull src i n) (.writeSleep src i n)).map (·, .tau)
  | .writeSleep src i n => some ((s.setLock none).goto p (.writeDoze src i n), .tau)
  | .writeDoze src i n =>
    some (s.setProc p fun q => { q with pc := .writeAcquire src i n, chan := some .nwrite }, .tau)
  | .writeDone i k => (s.wakeup p .nread k (.writeDone i) (.release i)).map (·, .tau)
  | .readAcquire dst n => (s.acquire p (.readWait dst n)).map (·, .tau)
  | .readWait dst n => some (s.readWait p dst n, .tau)
  | .readSleep dst n => some ((s.setLock none).goto p (.readDoze dst n), .tau)
  | .readDoze dst n =>
    some (s.setProc p fun q => { q with pc := .readAcquire dst n, chan := some .nread }, .tau)
  | .readLoop dst i n => some (s.readLoop p dst i n)
  | .readDone i k => (s.wakeup p .nwrite k (.readDone i) (.release i)).map (·, .tau)
  | .release r => some ((s.setLock none).goto p .user, .returned p r)
  | .closeAcquire w => (s.acquire p (.close w)).map (·, .tau)
  | .close w => some ((s.setPipe (s.pipe.shut w)).goto p (.closeWake w 0), .tau)
  | .closeWake w k => (s.wakeup p (closeChan w) k (.closeWake w) .closeEnd).map (·, .tau)
  | .closeEnd =>
    some ((s.setLock none).goto p .user,
      if s.pipe.readopen = false ∧ s.pipe.writeopen = false then .freed else .tau)

/-- A step of process `p`; a SLEEPING process does not run. -/
def step : Option (Sys m × Event m) :=
  if (s.procs p).chan = none then s.exec p (s.procs p).pc else none

/-- Process `p` calls `o`. -/
def call (o : Op) : Option (Sys m × Event m) :=
  match (s.procs p).pc with
  | .user => some (s.goto p o.start, .called p o)
  | _ => none

/-- `kill` at process `p`, under its `p->lock`. -/
def kill : Option (Sys m × Event m) :=
  if (s.procs p).pc.dozing then none
  else some (s.setProc p fun q => { q with killed := true, chan := none }, .killed p)

end Sys

inductive Step {m : Nat} : Sys m → Event m → Sys m → Prop
  | run {s t : Sys m} {e : Event m} (p : Fin m) : s.step p = some (t, e) → Step s e t
  | call {s t : Sys m} {e : Event m} (p : Fin m) (o : Op) : s.call p o = some (t, e) → Step s e t
  | kill {s t : Sys m} {e : Event m} (p : Fin m) : s.kill p = some (t, e) → Step s e t

/-- An open pipe whose counters are both `c`, which no process uses. -/
def fresh {m : Nat} (data : Fin PIPESIZE → UInt8) (c : UInt32) : Sys m where
  pipe := { data := data, nread := c, nwrite := c, readopen := true, writeopen := true }
  lock := none
  procs _ := { pc := .user, killed := false, chan := none }

/-- What happens next: a process goes on, calls, or is killed. -/
inductive Choice (m : Nat)
  | go (p : Fin m)
  | call (p : Fin m) (o : Op)
  | kill (p : Fin m)

def Sys.next {m : Nat} (s : Sys m) : Choice m → Option (Sys m × Event m)
  | .go p => s.step p
  | .call p o => s.call p o
  | .kill p => s.kill p

theorem Sys.next_step {m : Nat} (s : Sys m) (k : Choice m) (t : Sys m) (e : Event m)
    (h : s.next k = some (t, e)) : Step s e t := by
  cases k with
  | go p => exact .run p h
  | call p o => exact .call p o h
  | kill p => exact .kill p h

/-!
## What a step can do
-/

section

variable {m : Nat}

namespace Sys

variable (s : Sys m) (p q : Fin m)

section

variable (f : Proc → Proc)

@[simp] theorem setProc_procs_self : (s.setProc p f).procs p = f (s.procs p) := by
  simp [setProc]

theorem setProc_procs_of_ne {q : Fin m} (h : q ≠ p) : (s.setProc p f).procs q = s.procs q := by
  simp [setProc, h]

end

@[simp] theorem goto_eq (pc : Pc) : s.goto p pc = s.setProc p fun x => { x with pc := pc } := rfl

@[simp] theorem rouse_pipe (c : Chan) (j : Fin m) : (s.rouse p c j).pipe = s.pipe := by
  unfold rouse
  split <;> rfl

@[simp] theorem rouse_lock (c : Chan) (j : Fin m) : (s.rouse p c j).lock = s.lock := by
  unfold rouse
  split <;> rfl

theorem rouse_procs (c : Chan) (j q : Fin m) :
    ((s.rouse p c j).procs q).pc = (s.procs q).pc ∧
      ((s.rouse p c j).procs q).killed = (s.procs q).killed ∧
      ((s.rouse p c j).procs q).chan =
        if j = q ∧ j ≠ p ∧ (s.procs j).chan = some c then none else (s.procs q).chan := by
  unfold rouse
  by_cases hq : j = q
  · subst hq
    split <;> simp_all
  · split
    · rw [setProc_procs_of_ne _ _ _ (Ne.symm hq)]
      simp [hq]
    · simp [hq]

end Sys

/-- Passing from one place to the next with the lock held, and why. -/
inductive Pass (s : Sys m) (p : Fin m) : Pc → Pc → Prop
  | abort {src : Source} {i : Nat} {n : Int}
      (h : s.pipe.readopen = false ∨ (s.procs p).killed = true) :
      Pass s p (.writeLoop src i n) (.release (-1))
  | full {src : Source} {i : Nat} {n : Int} (h : s.pipe.full = true)
      (hopen : s.pipe.readopen = true) :
      Pass s p (.writeLoop src i n) (.writeFull src i n 0)
  | written {src : Source} {i : Nat} {n : Int} : Pass s p (.writeLoop src i n) (.writeDone i 0)
  | rest {src : Source} {i : Nat} {n : Int} {k : Nat} (h : m ≤ k) :
      Pass s p (.writeFull src i n k) (.writeSleep src i n)
  | writeEnd {i k : Nat} (h : m ≤ k) : Pass s p (.writeDone i k) (.release i)
  | cancel {dst : Target} {n : Int} : Pass s p (.readWait dst n) (.release (-1))
  | wait {dst : Target} {n : Int} (h : s.pipe.empty = true) (hopen : s.pipe.writeopen = true) :
      Pass s p (.readWait dst n) (.readSleep dst n)
  | start {dst : Target} {n : Int} : Pass s p (.readWait dst n) (.readLoop dst 0 n)
  | emptied {dst : Target} {i : Nat} {n : Int} : Pass s p (.readLoop dst i n) (.readDone i 0)
  | readEnd {i k : Nat} (h : m ≤ k) : Pass s p (.readDone i k) (.release i)
  | closed {w : Bool} {k : Nat} (h : m ≤ k) : Pass s p (.closeWake w k) .closeEnd

/-- The loops of `wakeup`. -/
inductive Waking : Chan → Nat → Pc → Pc → Prop
  | full {src : Source} {i : Nat} {n : Int} {k : Nat} :
      Waking .nread k (.writeFull src i n k) (.writeFull src i n (k + 1))
  | written {i k : Nat} : Waking .nread k (.writeDone i k) (.writeDone i (k + 1))
  | read {i k : Nat} : Waking .nwrite k (.readDone i k) (.readDone i (k + 1))
  | close {w : Bool} {k : Nat} : Waking (closeChan w) k (.closeWake w k) (.closeWake w (k + 1))

/-- The places after `acquire`. -/
inductive Acquiring : Pc → Pc → Prop
  | write {src : Source} {i : Nat} {n : Int} :
      Acquiring (.writeAcquire src i n) (.writeLoop src i n)
  | read {dst : Target} {n : Int} : Acquiring (.readAcquire dst n) (.readWait dst n)
  | close {w : Bool} : Acquiring (.closeAcquire w) (.close w)

/-- The places after `pi->lock` is given up. -/
inductive Releasing : Pc → Pc → Prop
  | write {src : Source} {i : Nat} {n : Int} :
      Releasing (.writeSleep src i n) (.writeDoze src i n)
  | read {dst : Target} {n : Int} : Releasing (.readSleep dst n) (.readDoze dst n)
  | ret {r : Int} : Releasing (.release r) .user
  | close : Releasing .closeEnd .user

/-- Falling asleep. -/
inductive Dozing : Chan → Pc → Pc → Prop
  | write {src : Source} {i : Nat} {n : Int} :
      Dozing .nwrite (.writeDoze src i n) (.writeAcquire src i n)
  | read {dst : Target} {n : Int} : Dozing .nread (.readDoze dst n) (.readAcquire dst n)

/-- The outcomes of a step. -/
inductive Move (s : Sys m) (p : Fin m) : Sys m → Event m → Prop
  | acquire {a b : Pc} (hpc : (s.procs p).pc = a) (hmove : Acquiring a b)
      (hlock : s.lock = none) : Move s p ((s.setLock (some p)).goto p b) .tau
  | pass {a b : Pc} (hpc : (s.procs p).pc = a) (hmove : Pass s p a b) : Move s p (s.goto p b) .tau
  | wake {a b : Pc} {c : Chan} {j : Fin m} (hpc : (s.procs p).pc = a)
      (hmove : Waking c j.val a b) (hj : j = p ∨ (s.procs j).pc.dozing = false) :
      Move s p ((s.rouse p c j).goto p b) .tau
  | put {src : Source} {i : Nat} {n : Int} {ch : UInt8}
      (hpc : (s.procs p).pc = .writeLoop src i n) (hopen : s.pipe.readopen = true)
      (halive : (s.procs p).killed = false) (hroom : s.pipe.full = false) (hch : src i = some ch) :
      Move s p ((s.setPipe (s.pipe.put ch)).goto p (.writeLoop src (i + 1) n)) (.accepted ch)
  | take {dst : Target} {i : Nat} {n : Int} (hpc : (s.procs p).pc = .readLoop dst i n)
      (hi : (i : Int) < n) (hsome : s.pipe.empty = false) (hdst : dst i = true) :
      Move s p ((s.setPipe s.pipe.take).goto p (.readLoop dst (i + 1) n)) (.delivered s.pipe.front)
  | lose {dst : Target} {i : Nat} {n : Int} (hpc : (s.procs p).pc = .readLoop dst i n)
      (hi : (i : Int) < n) (hsome : s.pipe.empty = false) (hdst : dst i = false) :
      Move s p ((s.setPipe s.pipe.take).goto p (.readDone i 0)) (.lost s.pipe.front)
  | release {a b : Pc} {e : Event m} (hpc : (s.procs p).pc = a) (hmove : Releasing a b)
      (he : e = .tau ∨ e = .freed ∨ ∃ r, e = .returned p r) :
      Move s p ((s.setLock none).goto p b) e
  | doze {a b : Pc} {c : Chan} (hpc : (s.procs p).pc = a) (hmove : Dozing c a b) :
      Move s p (s.setProc p fun q => { q with pc := b, chan := some c }) .tau
  | shut {w : Bool} (hpc : (s.procs p).pc = .close w) :
      Move s p ((s.setPipe (s.pipe.shut w)).goto p (.closeWake w 0)) .tau
  | call {o : Op} (hpc : (s.procs p).pc = .user) : Move s p (s.goto p o.start) (.called p o)
  | kill (hdoze : (s.procs p).pc.dozing = false) :
      Move s p (s.setProc p fun q => { q with killed := true, chan := none }) (.killed p)

variable {s t : Sys m} {p : Fin m} {e : Event m}

theorem wakeup_move {a : Pc} {c : Chan} {k : Nat} {next : Nat → Pc} {done : Pc}
    (hpc : (s.procs p).pc = a) (hnext : Waking c k a (next (k + 1)))
    (hdone : m ≤ k → Pass s p a done) (h : s.wakeup p c k next done = some t) :
    Move s p t .tau := by
  unfold Sys.wakeup at h
  split at h
  next hk =>
    split at h
    next => cases h
    next hj =>
      cases h
      refine .wake (j := ⟨k, hk⟩) hpc hnext ?_
      by_cases hp : (⟨k, hk⟩ : Fin m) = p
      · exact .inl hp
      · exact .inr (by simpa [hp] using hj)
  next hk =>
    cases h
    exact .pass hpc (hdone (Nat.le_of_not_lt hk))

theorem acquire_move {a b : Pc} (hpc : (s.procs p).pc = a) (hmove : Acquiring a b)
    (h : s.acquire p b = some t) : Move s p t .tau := by
  unfold Sys.acquire at h
  split at h
  next hlock =>
    cases h
    exact .acquire hpc hmove hlock
  next => cases h

theorem writeLoop_move {src : Source} {i : Nat} {n : Int}
    (hpc : (s.procs p).pc = .writeLoop src i n) :
    Move s p (s.writeLoop p src i n).1 (s.writeLoop p src i n).2 := by
  unfold Sys.writeLoop
  split
  next =>
    split
    next hstop => exact .pass hpc (.abort hstop)
    next hgo =>
      simp only [not_or, Bool.not_eq_false, Bool.not_eq_true] at hgo
      split
      next hfull => exact .pass hpc (.full hfull hgo.1)
      next hroom =>
        split
        next => exact .pass hpc .written
        next ch hch => exact .put hpc hgo.1 hgo.2 (by simpa using hroom) hch
  next => exact .pass hpc .written

theorem readLoop_move {dst : Target} {i : Nat} {n : Int}
    (hpc : (s.procs p).pc = .readLoop dst i n) :
    Move s p (s.readLoop p dst i n).1 (s.readLoop p dst i n).2 := by
  unfold Sys.readLoop
  split
  next hi =>
    split
    next hdst => exact .take hpc hi.1 hi.2 hdst
    next hdst => exact .lose hpc hi.1 hi.2 (by simpa using hdst)
  next => exact .pass hpc .emptied

theorem exec_move {a : Pc} (hpc : (s.procs p).pc = a) (h : s.exec p a = some (t, e)) :
    Move s p t e := by
  cases a with
  | user => cases h
  | writeAcquire | readAcquire | closeAcquire =>
    simp only [Sys.exec, Option.map_eq_some_iff, Prod.mk.injEq] at h
    obtain ⟨u, hu, rfl, rfl⟩ := h
    exact acquire_move hpc (by constructor) hu
  | writeLoop src i n =>
    have hmove := writeLoop_move hpc
    simp only [Sys.exec, Option.some.injEq] at h
    rwa [h] at hmove
  | writeFull src i n k =>
    simp only [Sys.exec, Option.map_eq_some_iff, Prod.mk.injEq] at h
    obtain ⟨u, hu, rfl, rfl⟩ := h
    exact wakeup_move hpc .full .rest hu
  | writeDone i k =>
    simp only [Sys.exec, Option.map_eq_some_iff, Prod.mk.injEq] at h
    obtain ⟨u, hu, rfl, rfl⟩ := h
    exact wakeup_move hpc .written .writeEnd hu
  | readDone i k =>
    simp only [Sys.exec, Option.map_eq_some_iff, Prod.mk.injEq] at h
    obtain ⟨u, hu, rfl, rfl⟩ := h
    exact wakeup_move hpc .read .readEnd hu
  | closeWake w k =>
    simp only [Sys.exec, Option.map_eq_some_iff, Prod.mk.injEq] at h
    obtain ⟨u, hu, rfl, rfl⟩ := h
    exact wakeup_move hpc .close .closed hu
  | writeSleep | readSleep =>
    cases h
    exact .release hpc (by constructor) (.inl rfl)
  | release r =>
    cases h
    exact .release hpc .ret (.inr (.inr ⟨r, rfl⟩))
  | closeEnd =>
    cases h
    refine .release hpc .close ?_
    split
    · exact .inr (.inl rfl)
    · exact .inl rfl
  | writeDoze | readDoze =>
    cases h
    exact .doze hpc (by constructor)
  | readWait dst n =>
    simp only [Sys.exec, Option.some.injEq, Prod.mk.injEq] at h
    obtain ⟨rfl, rfl⟩ := h
    unfold Sys.readWait
    split
    next hwait =>
      split
      next => exact .pass hpc .cancel
      next => exact .pass hpc (.wait hwait.1 hwait.2)
    next => exact .pass hpc .start
  | readLoop dst i n =>
    have hmove := readLoop_move hpc
    simp only [Sys.exec, Option.some.injEq] at h
    rwa [h] at hmove
  | close w =>
    cases h
    exact .shut hpc

/-- Every step is a move of some process that is awake, or a `kill`. -/
theorem Step.move (h : Step s e t) :
    ∃ p, Move s p t e ∧ ((s.procs p).chan = none ∨ (∃ o, e = .called p o) ∨ e = .killed p) := by
  cases h with
  | run p hs =>
    unfold Sys.step at hs
    split at hs
    next hchan => exact ⟨p, exec_move rfl hs, .inl hchan⟩
    next => cases hs
  | call p o hs =>
    unfold Sys.call at hs
    split at hs
    next hpc =>
      cases hs
      exact ⟨p, .call hpc, .inr (.inl ⟨o, rfl⟩)⟩
    next => cases hs
  | kill p hs =>
    unfold Sys.kill at hs
    split at hs
    next => cases hs
    next hdoze =>
      cases hs
      exact ⟨p, .kill (by simpa using hdoze), .inr (.inr rfl)⟩

end

end Xv6.Pipes
