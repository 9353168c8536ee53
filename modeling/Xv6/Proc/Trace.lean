import Xv6.Lib.Bytes
import Xv6.Lib.Transition

/-!
# System call tracing

The trace masks of all processes, over runs of any system calls.  A process is in user space,
inside a system call, or about to leave `syscall`, where the mask is tested.  The loops of
`trace` and `kill` visit one slot a step, under its lock.  Which zombie a `wait` frees is left
open: the masks do not depend on it.
-/

namespace Xv6.Trace

open Lib

abbrev NPROC : Nat := 64

abbrev Slot := Fin NPROC

scoped instance neZero_nproc : NeZero NPROC := ⟨by decide⟩

/-- An `embryo` is USED with its lock still held by `fork`; a `live` process is RUNNABLE,
RUNNING or SLEEPING. -/
inductive Procstate
  | unused
  | embryo
  | used
  | live
  | zombie
  deriving DecidableEq, Repr

abbrev OtherNum := { num : Nat // num ∈ [4, 5] ∨ 7 ≤ num ∧ num ≤ 21 ∨ num = 24 }

/-- The system calls that concern the masks, and the others by number. -/
inductive Call
  | fork
  | exit
  | wait (stat : Bool)
  | kill (pid : Int)
  | trace (mask : BitVec 32) (pid : Int)
  | other (num : OtherNum)
  deriving DecidableEq, Repr

def Call.num : Call → Nat
  | fork => 1
  | exit => 2
  | wait stat => if stat then 23 else 3
  | kill _ => 6
  | trace _ _ => 22
  | other num => num

/-- Where a process is: in user space, in a call with the next slot of its loop, in `fork`
after `allocproc` and after the release of the child's lock, or at the end of `syscall`. -/
inductive Pc
  | user
  | call (c : Call) (i : Nat)
  | copy (k : Slot)
  | start (k : Slot)
  | ret (c : Call)
  deriving DecidableEq, Repr

structure Proc where
  state : Procstate
  pid : Int
  killed : Bool
  maskid : BitVec 32
  pc : Pc
  deriving DecidableEq, Repr

structure Sys where
  proc : Slot → Proc
  nextpid : Int

inductive Event
  | tau
  | called (pid : Int) (c : Call)
  | unknown (pid num : Int)
  | forked (parent child : Int)
  /-- `trace` found the pid. -/
  | traced (mask : BitVec 32) (pid : Int)
  | exited (pid : Int)
  | reaped (pid : Int)
  /-- The call `num` returned, with or without a trace line. -/
  | returned (pid : Int) (num : Nat) (printed : Bool)
  deriving DecidableEq, Repr

def prints (maskid : BitVec 32) (num : Nat) : Bool :=
  (0 : BitVec 32).slt maskid && ((1 : BitVec 32) <<< num &&& maskid) == (1 : BitVec 32) <<< num

/-- What the environment decides: the next call, the slot that `fork` or `wait` finds, and
whether a call or an instruction fails. -/
inductive Choice
  | call (c : Call)
  | unknown (num : Int)
  | slot (k : Slot)
  | go
  | fail
  deriving DecidableEq, Repr

namespace Sys

def setProc (s : Sys) (p : Slot) (f : Proc → Proc) : Sys :=
  { s with proc := upd s.proc p (f (s.proc p)) }

def goto (s : Sys) (p : Slot) (pc : Pc) : Sys := s.setProc p fun x => { x with pc := pc }

def alloc (s : Sys) (k : Slot) : Sys :=
  { s.setProc k fun x => { x with state := .embryo, pid := s.nextpid } with
    nextpid := s.nextpid + 1 }

def spawn (s : Sys) (p k : Slot) : Sys :=
  s.setProc k fun x => { x with state := .used, maskid := (s.proc p).maskid, pc := .user }

def start (s : Sys) (k : Slot) : Sys := s.setProc k fun x => { x with state := .live }

def freeproc (s : Sys) (k : Slot) : Sys :=
  s.setProc k fun x => { x with state := .unused, pid := 0, killed := false, maskid := 0 }

def zombify (s : Sys) (p : Slot) : Sys := s.setProc p fun x => { x with state := .zombie }

def setKilled (s : Sys) (k : Slot) : Sys := s.setProc k fun x => { x with killed := true }

def setMask (s : Sys) (k : Slot) (mask : BitVec 32) : Sys :=
  s.setProc k fun x => { x with maskid := mask }

/-- One iteration of the loops of `trace` and `kill`, which is blocked while the slot's lock
is held. -/
def visit (s : Sys) (p : Slot) (c : Call) (pid : Int) (i : Nat)
    (found : Slot → Sys × Event) : Option (Sys × Event) :=
  if h : i < NPROC then
    if (s.proc ⟨i, h⟩).state = .embryo then none
    else if (s.proc ⟨i, h⟩).pid = pid then
      some ((found ⟨i, h⟩).1.goto p (.ret c), (found ⟨i, h⟩).2)
    else some (s.goto p (.call c (i + 1)), .tau)
  else some (s.goto p (.ret c), .tau)

def inside (s : Sys) (p : Slot) (i : Nat) : Call → Choice → Option (Sys × Event)
  | .fork, .slot k =>
    -- the overflow of `nextpid` is undefined, so no run has it
    if (s.proc k).state = .unused ∧ s.nextpid < 2 ^ 31 - 1 then
      some ((s.alloc k).goto p (.copy k), .tau)
    else none
  | .fork, .fail => some (s.goto p (.ret .fork), .tau)
  | .wait stat, .slot k =>
    if (s.proc k).state = .zombie then
      some ((s.freeproc k).goto p (.ret (.wait stat)), .reaped (s.proc k).pid)
    else none
  | .wait stat, .fail => some (s.goto p (.ret (.wait stat)), .tau)
  | .exit, .go => some (s.zombify p, .exited (s.proc p).pid)
  | .kill pid, .go => s.visit p (.kill pid) pid i fun k => (s.setKilled k, .tau)
  | .trace mask pid, .go =>
    s.visit p (.trace mask pid) pid i fun k => (s.setMask k mask, .traced mask pid)
  | .other num, .go => some (s.goto p (.ret (.other num)), .tau)
  | _, _ => none

def act (s : Sys) (p : Slot) (c : Choice) : Option (Sys × Event) :=
  if (s.proc p).state = .live then
    match (s.proc p).pc, c with
    | .user, .call c =>
      -- a killed process exits when it enters the kernel
      if (s.proc p).killed then some (s.zombify p, .exited (s.proc p).pid)
      else some (s.goto p (.call c 0), .called (s.proc p).pid c)
    | .user, .unknown num =>
      if (s.proc p).killed then some (s.zombify p, .exited (s.proc p).pid)
      else if 0 < num ∧ num < 25 then none
      else some (s, .unknown (s.proc p).pid num)
    | .user, .go =>
      if (s.proc p).killed then some (s.zombify p, .exited (s.proc p).pid) else none
    | .user, .fail => some (s.zombify p, .exited (s.proc p).pid)
    | .call x i, c => s.inside p i x c
    | .copy k, .go =>
      some ((s.spawn p k).goto p (.start k), .forked (s.proc p).pid (s.proc k).pid)
    | .copy k, .fail => some ((s.freeproc k).goto p (.ret .fork), .tau)
    | .start k, .go => some ((s.start k).goto p (.ret .fork), .tau)
    | .ret c, .go =>
      some (s.goto p .user, .returned (s.proc p).pid c.num (prints (s.proc p).maskid c.num))
    | _, _ => none
  else none

/-- The first process, after `userinit`. -/
def boot : Sys where
  proc := fun k => if k = 0
    then { state := .live, pid := 1, killed := false, maskid := 0, pc := .user }
    else { state := .unused, pid := 0, killed := false, maskid := 0, pc := .user }
  nextpid := 2

section Fields

variable (s : Sys) (p k : Slot) (pc : Pc) (f : Proc → Proc)

@[simp] theorem setProc_self : (s.setProc p f).proc p = f (s.proc p) := upd_self ..

theorem setProc_of_ne {k : Slot} (h : k ≠ p) : (s.setProc p f).proc k = s.proc k :=
  upd_of_ne _ _ _ h

theorem setProc_field {β : Type} (g : Proc → β) (hg : ∀ x, g (f x) = g x) :
    g ((s.setProc p f).proc k) = g (s.proc k) := by
  by_cases h : k = p
  · rw [h, setProc_self, hg]
  · rw [setProc_of_ne _ _ _ h]

@[simp] theorem goto_state : ((s.goto p pc).proc k).state = (s.proc k).state :=
  setProc_field s p k _ Proc.state fun _ => rfl

@[simp] theorem goto_pid : ((s.goto p pc).proc k).pid = (s.proc k).pid :=
  setProc_field s p k _ Proc.pid fun _ => rfl

@[simp] theorem goto_maskid : ((s.goto p pc).proc k).maskid = (s.proc k).maskid :=
  setProc_field s p k _ Proc.maskid fun _ => rfl

@[simp] theorem goto_pc : ((s.goto p pc).proc p).pc = pc := by simp [goto]

theorem goto_of_ne {k : Slot} (h : k ≠ p) : (s.goto p pc).proc k = s.proc k := setProc_of_ne _ _ _ h

theorem alloc_of_ne {j : Slot} (h : j ≠ k) : (s.alloc k).proc j = s.proc j := upd_of_ne _ _ _ h

end Fields

end Sys

def Step (s : Sys) (e : Event) (t : Sys) : Prop := ∃ p c, s.act p c = some (t, e)

def Event.record (given : Int → BitVec 32) : Event → Int → BitVec 32
  | traced mask pid => upd given pid mask
  | forked parent child => upd given child (given parent)
  | _ => given

/-- The mask most recently given to each pid: by the last `trace` that found it, or by its
parent when it was forked, or else 0. -/
def given (es : List Event) : Int → BitVec 32 := es.foldl Event.record fun _ => 0

@[simp] theorem given_nil : given [] = fun _ => 0 := rfl

@[simp] theorem given_append (es : List Event) (e : Event) :
    given (es ++ [e]) = e.record (given es) := by
  simp [given]

def Pc.fills : Pc → Option (Slot × Procstate)
  | copy k => some (k, .embryo)
  | start k => some (k, .used)
  | _ => none

/-- The mask that a process in `trace` is about to set. -/
def Pc.mask : Pc → Option (BitVec 32)
  | call (.trace mask _) _ => some mask
  | _ => none

def Event.Silent (e : Event) : Prop :=
  (∀ given, e.record given = given) ∧ ∀ pid num printed, e ≠ .returned pid num printed

theorem Event.silent_tau : Event.tau.Silent := ⟨fun _ => rfl, nofun⟩

theorem Call.num_lt (c : Call) : c.num < 25 := by
  cases c with
  | fork | exit | kill | trace => simp [num]
  | wait stat => cases stat <;> decide
  | other num =>
    obtain ⟨num, h⟩ := num
    change num < 25
    simp only [List.mem_cons, List.not_mem_nil, or_false] at h
    omega

inductive Effect (s : Sys) (p : Slot) : Event → Sys → Prop
  | move {pc : Pc} {e : Event} (hold : (s.proc p).pc.fills = none) (hnew : pc.fills = none)
      (he : e.Silent) (hmask : ∀ mask, pc.mask = some mask →
        (s.proc p).pc.mask = some mask ∨ ∃ pid q, e = .called pid (.trace mask q)) :
      Effect s p e (s.goto p pc)
  | ret {c : Call} (hpc : (s.proc p).pc = .ret c) :
      Effect s p (.returned (s.proc p).pid c.num (prints (s.proc p).maskid c.num)) (s.goto p .user)
  | stay {e : Event} (he : e.Silent) : Effect s p e s
  | alloc {k : Slot} (hold : (s.proc p).pc.fills = none) (hk : (s.proc k).state = .unused) :
      Effect s p .tau ((s.alloc k).goto p (.copy k))
  | drop {k : Slot} (hp : (s.proc p).pc = .copy k) :
      Effect s p .tau ((s.freeproc k).goto p (.ret .fork))
  | spawn {k : Slot} (hp : (s.proc p).pc = .copy k) :
      Effect s p (.forked (s.proc p).pid (s.proc k).pid) ((s.spawn p k).goto p (.start k))
  | start {k : Slot} (hp : (s.proc p).pc = .start k) :
      Effect s p .tau ((s.start k).goto p (.ret .fork))
  | exit (hold : (s.proc p).pc.fills = none) : Effect s p (.exited (s.proc p).pid) (s.zombify p)
  | reap {k : Slot} {c : Call} (hold : (s.proc p).pc.fills = none)
      (hk : (s.proc k).state = .zombie) :
      Effect s p (.reaped (s.proc k).pid) ((s.freeproc k).goto p (.ret c))
  | kill {k : Slot} {c : Call} (hold : (s.proc p).pc.fills = none) :
      Effect s p .tau ((s.setKilled k).goto p (.ret c))
  | trace {k : Slot} {c : Call} {mask : BitVec 32} (hold : (s.proc p).pc.fills = none)
      (hmask : (s.proc p).pc.mask = some mask) (hk : (s.proc k).state ≠ .embryo) :
      Effect s p (.traced mask (s.proc k).pid) ((s.setMask k mask).goto p (.ret c))

section Effects

variable {s t : Sys} {p : Slot} {e : Event}

theorem visit_some {c : Call} {pid : Int} {i : Nat} {found : Slot → Sys × Event}
    (h : s.visit p c pid i found = some (t, e)) :
    (∃ k : Slot, (s.proc k).state ≠ .embryo ∧ (s.proc k).pid = pid ∧
      t = (found k).1.goto p (.ret c) ∧ e = (found k).2) ∨
    e = .tau ∧ (t = s.goto p (.ret c) ∨ t = s.goto p (.call c (i + 1))) := by
  unfold Sys.visit at h
  split at h
  next hi =>
    split at h
    next => cases h
    next hlock =>
      split at h
      next hpid =>
        cases h
        exact .inl ⟨⟨i, hi⟩, hlock, hpid, rfl, rfl⟩
      next =>
        cases h
        exact .inr ⟨rfl, .inr rfl⟩
  next =>
    cases h
    exact .inr ⟨rfl, .inl rfl⟩

theorem Effect.move_plain {pc : Pc} (hold : (s.proc p).pc.fills = none) (hnew : pc.fills = none)
    (he : e.Silent) (hmask : pc.mask = none) : Effect s p e (s.goto p pc) := by
  apply Effect.move hold hnew he
  intro mask hm
  rw [hmask] at hm
  cases hm

theorem Effect.of_inside {c : Call} {i : Nat} {ch : Choice} (hpc : (s.proc p).pc = .call c i)
    (h : s.inside p i c ch = some (t, e)) : Effect s p e t := by
  have hold : (s.proc p).pc.fills = none := by rw [hpc]; rfl
  cases c with
  | fork =>
    cases ch with
    | slot k =>
      obtain ⟨hk, ht⟩ := Option.ite_none_right_eq_some.1 h
      cases ht
      exact .alloc hold hk.1
    | fail => cases h; exact .move_plain hold rfl Event.silent_tau rfl
    | call | unknown | go => cases h
  | exit =>
    cases ch with
    | go => cases h; exact .exit hold
    | call | unknown | slot | fail => cases h
  | wait stat =>
    cases ch with
    | slot k =>
      obtain ⟨hk, ht⟩ := Option.ite_none_right_eq_some.1 h
      cases ht
      exact .reap hold hk
    | fail => cases h; exact .move_plain hold rfl Event.silent_tau rfl
    | call | unknown | go => cases h
  | kill pid =>
    cases ch with
    | go =>
      rw [Sys.inside] at h
      obtain ⟨k, _, _, rfl, rfl⟩ | ⟨rfl, rfl | rfl⟩ := visit_some h
      · exact .kill hold
      · exact .move_plain hold rfl Event.silent_tau rfl
      · exact .move_plain hold rfl Event.silent_tau rfl
    | call | unknown | slot | fail => cases h
  | trace mask pid =>
    cases ch with
    | go =>
      have hmask : (s.proc p).pc.mask = some mask := by rw [hpc]; rfl
      rw [Sys.inside] at h
      obtain ⟨k, hk, rfl, rfl, rfl⟩ | ⟨rfl, rfl | rfl⟩ := visit_some h
      · exact .trace hold hmask hk
      · exact .move_plain hold rfl Event.silent_tau rfl
      · exact .move hold rfl Event.silent_tau fun _ h => .inl (hmask.trans h)
    | call | unknown | slot | fail => cases h
  | other num =>
    cases ch with
    | go => cases h; exact .move_plain hold rfl Event.silent_tau rfl
    | call | unknown | slot | fail => cases h

theorem Effect.called {c : Call} (hold : (s.proc p).pc.fills = none) :
    Effect s p (.called (s.proc p).pid c) (s.goto p (.call c 0)) := by
  apply Effect.move hold rfl
  · exact ⟨fun _ => rfl, nofun⟩
  · intro mask hmask
    cases c with
    | trace m pid =>
      cases hmask
      exact .inr ⟨_, _, rfl⟩
    | fork | exit | wait | kill | other => cases hmask

theorem Effect.returned {pid : Int} {num : Nat} {printed : Bool}
    (h : Effect s p (.returned pid num printed) t) :
    pid = (s.proc p).pid ∧ printed = prints (s.proc p).maskid num ∧ num < 25 := by
  cases h with
  | move _ _ he _ | stay he => exact absurd rfl (he.2 _ _ _)
  | ret => exact ⟨rfl, rfl, Call.num_lt _⟩

theorem live_of_act {ch : Choice} (h : s.act p ch = some (t, e)) : (s.proc p).state = .live :=
  (Option.ite_none_right_eq_some.1 h).1

theorem Effect.of_act {ch : Choice} (h : s.act p ch = some (t, e)) : Effect s p e t := by
  have hact := (Option.ite_none_right_eq_some.1 h).2
  cases hpc : (s.proc p).pc with
  | user =>
    have hold : (s.proc p).pc.fills = none := by rw [hpc]; rfl
    rw [hpc] at hact
    cases ch with
    | call c =>
      dsimp only at hact
      split at hact
      next => cases hact; exact .exit hold
      next => cases hact; exact .called hold
    | unknown num =>
      dsimp only at hact
      split at hact
      next => cases hact; exact .exit hold
      next =>
        obtain ⟨_, ht⟩ := Option.ite_none_left_eq_some.1 hact
        cases ht
        exact .stay ⟨fun _ => rfl, nofun⟩
    | go =>
      obtain ⟨_, ht⟩ := Option.ite_none_right_eq_some.1 hact
      cases ht
      exact .exit hold
    | fail => cases hact; exact .exit hold
    | slot => cases hact
  | call c i =>
    rw [hpc] at hact
    exact .of_inside hpc hact
  | copy k =>
    rw [hpc] at hact
    cases ch with
    | go => cases hact; exact .spawn hpc
    | fail => cases hact; exact .drop hpc
    | call | unknown | slot => cases hact
  | start k =>
    rw [hpc] at hact
    cases ch with
    | go => cases hact; exact .start hpc
    | call | unknown | slot | fail => cases hact
  | ret c =>
    rw [hpc] at hact
    cases ch with
    | go => cases hact; exact .ret hpc
    | call | unknown | slot | fail => cases hact

end Effects

end Xv6.Trace
