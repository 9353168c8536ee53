import Xv6.Lib.Bytes
import Xv6.Lib.Transition

/-!
# Sleep locks

A model of `sleeplock.c`: any number of sleep locks, used by any number of processes,
with `sleep`, `wakeup` and `kill` as they act on them.  Every access to a lock's fields
is a step.  A process that goes to sleep gives up `lk->lk` while it holds its `p->lock`,
which `wakeup` and `kill` wait for.
-/

namespace Xv6.Sleep

open Lib

/-- `struct sleeplock`; `spin` is the process that holds `lk->lk`. -/
structure Lock (m : Nat) where
  locked : Bool
  pid : Int
  spin : Option (Fin m)

/-- Where a process is in a function on a lock. -/
inductive Point
  /-- `acquiresleep`: before `acquire(&lk->lk)`. -/
  | acquire
  /-- `while (lk->locked)`. -/
  | test
  /-- In `sleep`, with `lk->lk`: before `acquire(&p->lock)`. -/
  | sleepAcquire
  /-- With both locks, before `release(lk)`. -/
  | sleepRelease
  /-- With `p->lock` only, before the process becomes SLEEPING. -/
  | doze
  /-- In `sched`, or RUNNABLE again. -/
  | asleep
  | setLocked
  | setPid
  | acquired
  /-- `releasesleep`: before `acquire(&lk->lk)`. -/
  | release
  | clearLocked
  | clearPid
  /-- `wakeup(lk)`, before process `k`. -/
  | wakeup (k : Nat)
  | released
  /-- `holdingsleep`: before `acquire(&lk->lk)`. -/
  | holding
  | holdingTest
  | held (r : Bool)
  deriving DecidableEq, Repr

/-- The process holds `lk->lk`. -/
def Point.inside : Point → Bool
  | acquire => false
  | doze => false
  | asleep => false
  | release => false
  | holding => false
  | _ => true

structure Proc (L : Type) where
  pid : Int
  killed : Bool
  /-- The function it is in, if any, and the lock. -/
  pc : Option (L × Point)
  /-- The lock a SLEEPING process sleeps on. -/
  chan : Option L
  /-- The locks for which `acquiresleep` has returned and `releasesleep` was not called. -/
  has : L → Bool

structure Sys (L : Type) (m : Nat) where
  lock : L → Lock m
  proc : Fin m → Proc L

inductive Move (L : Type) (m : Nat)
  | acquiresleep (p : Fin m) (l : L)
  | releasesleep (p : Fin m) (l : L)
  | holdingsleep (p : Fin m) (l : L)
  /-- The process takes its next step. -/
  | go (p : Fin m)
  | kill (p : Fin m)
  /-- The process is gone and another one has its slot. -/
  | replace (p : Fin m) (pid : Int)

section

variable {L : Type} [DecidableEq L] {m : Nat}

/-- The process holds its own `p->lock`. -/
def Proc.dozing (x : Proc L) : Bool :=
  match x.pc with
  | some (_, .doze) => true
  | _ => false

namespace Sys

def setLock (s : Sys L m) (l : L) (f : Lock m → Lock m) : Sys L m :=
  { s with lock := upd s.lock l (f (s.lock l)) }

def setProc (s : Sys L m) (p : Fin m) (f : Proc L → Proc L) : Sys L m :=
  { s with proc := upd s.proc p (f (s.proc p)) }

/-- Process `p` goes on at another point of its function on `l`. -/
def goto (s : Sys L m) (p : Fin m) (l : L) (a : Point) : Sys L m :=
  s.setProc p fun x => { x with pc := some (l, a) }

/-- `acquire(&lk->lk)`, which waits until the lock is free. -/
def acquire (s : Sys L m) (p : Fin m) (l : L) (a : Point) : Option (Sys L m) :=
  if (s.lock l).spin = none then
    some ((s.setLock l fun k => { k with spin := some p }).goto p l a)
  else none

def release (s : Sys L m) (l : L) : Sys L m :=
  s.setLock l fun k => { k with spin := none }

/-- One round of `wakeup`: `q` is woken if it sleeps on `l`. -/
def wake (s : Sys L m) (l : L) (q : Fin m) : Sys L m :=
  s.setProc q fun x => if x.chan = some l then { x with chan := none } else x

/-- The next step of a process that is at point `a` of a function on `l`. -/
def go (s : Sys L m) (p : Fin m) (l : L) : Point → Option (Sys L m)
  | .acquire => s.acquire p l .test
  | .test => some (s.goto p l (if (s.lock l).locked then .sleepAcquire else .setLocked))
  | .sleepAcquire => some (s.goto p l .sleepRelease)
  | .sleepRelease => some ((s.release l).goto p l .doze)
  | .doze => some (s.setProc p fun x => { x with chan := some l, pc := some (l, .asleep) })
  | .asleep => if (s.proc p).chan = none then some (s.goto p l .acquire) else none
  | .setLocked => some ((s.setLock l fun k => { k with locked := true }).goto p l .setPid)
  | .setPid => some ((s.setLock l fun k => { k with pid := (s.proc p).pid }).goto p l .acquired)
  | .acquired => some ((s.release l).setProc p fun x => { x with pc := none, has := upd x.has l true })
  | .release => s.acquire p l .clearLocked
  | .clearLocked => some ((s.setLock l fun k => { k with locked := false }).goto p l .clearPid)
  | .clearPid => some ((s.setLock l fun k => { k with pid := 0 }).goto p l (.wakeup 0))
  | .wakeup k =>
    if h : k < m then
      if ⟨k, h⟩ = p then some (s.goto p l (.wakeup (k + 1)))
      else if (s.proc ⟨k, h⟩).dozing then none
      else some ((s.wake l ⟨k, h⟩).goto p l (.wakeup (k + 1)))
    else some (s.goto p l .released)
  | .released => some ((s.release l).setProc p fun x => { x with pc := none })
  | .holding => s.acquire p l .holdingTest
  | .holdingTest =>
    some (s.goto p l (.held ((s.lock l).locked && (s.lock l).pid == (s.proc p).pid)))
  | .held _ => some ((s.release l).setProc p fun x => { x with pc := none })

/-- The state after a move, if it can be made. -/
def next (s : Sys L m) : Move L m → Option (Sys L m)
  | .acquiresleep p l => if (s.proc p).pc = none then some (s.goto p l .acquire) else none
  | .releasesleep p l =>
    if (s.proc p).pc = none ∧ (s.proc p).has l = true then
      some (s.setProc p fun x => { x with pc := some (l, .release), has := upd x.has l false })
    else none
  | .holdingsleep p l => if (s.proc p).pc = none then some (s.goto p l .holding) else none
  | .go p =>
    match (s.proc p).pc with
    | some (l, a) => s.go p l a
    | none => none
  | .kill p =>
    if (s.proc p).dozing then none
    else some (s.setProc p fun x => { x with killed := true, chan := none })
  | .replace p pid => some (s.setProc p fun x => { x with pid := pid })

/-- A process is replaced when it is in no function and holds no lock. -/
def CanReplace (s : Sys L m) : Move L m → Prop
  | .replace p _ => (s.proc p).pc = none ∧ ∀ l, (s.proc p).has l = false
  | _ => True

def Step (s : Sys L m) (e : Move L m) (t : Sys L m) : Prop := s.next e = some t ∧ s.CanReplace e

/-- Moves of processes that stay. -/
def play (s : Sys L m) (e : Move L m) : Option (Sys L m × Move L m) :=
  match e with
  | .replace .. => none
  | e => (s.next e).map fun t => (t, e)

theorem play_step (s : Sys L m) (e : Move L m) (t : Sys L m) (e' : Move L m)
    (h : s.play e = some (t, e')) : s.Step e' t := by
  unfold play at h
  split at h
  next => cases h
  next hne =>
    simp only [Option.map_eq_some_iff, Prod.mk.injEq] at h
    obtain ⟨u, hu, rfl, rfl⟩ := h
    refine ⟨hu, ?_⟩
    cases e with
    | replace p pid => exact absurd rfl (hne p pid)
    | _ => trivial

end Sys

/-- The locks after `initsleeplock`. -/
def initial (pid : Fin m → Int) : Sys L m where
  lock := fun _ => { locked := false, pid := 0, spin := none }
  proc := fun p => { pid := pid p, killed := false, pc := none, chan := none, has := fun _ => false }

end

end Xv6.Sleep
