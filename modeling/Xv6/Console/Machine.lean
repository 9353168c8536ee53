import Xv6.Lib.Bytes
import Xv6.Lib.Transition

/-!
# The console

A model of `consoleintr` and of `consoleread` called by any number of processes, and of
`kill`.  `consoleintr` runs under `cons.lock` from beginning to end and is one step.  A
reader holds the lock from its `acquire` on, except in `sleep`; every byte it takes is a
step, so that `kill`, which takes only the victim's `p->lock`, may come between any two
of them.
-/

namespace Xv6.Console

open Lib

abbrev INPUT_BUF : Nat := 128

/-- `cons` without its lock. -/
structure Cons where
  buf : Fin INPUT_BUF → UInt8
  r : UInt32
  w : UInt32
  e : UInt32

def newline : UInt8 := 10
def carriageReturn : UInt8 := 13
def controlD : UInt8 := 4
def controlH : UInt8 := 8
def controlP : UInt8 := 16
def controlU : UInt8 := 21
def delete : UInt8 := 127

namespace Cons

/-- `cons.buf[i % INPUT_BUF]`. -/
def char (k : Cons) (i : UInt32) : UInt8 := k.buf (Fin.ofNat INPUT_BUF i.toNat)

/-- The loop for control-U; it ends when `e` comes down to `w`. -/
def killLine : Nat → Cons → Cons
  | 0, k => k
  | n + 1, k =>
    if k.e ≠ k.w ∧ k.char (k.e - 1) ≠ newline then killLine n { k with e := k.e - 1 } else k

/-- `cons.buf[cons.e++ % INPUT_BUF] = c`. -/
def store (k : Cons) (c : UInt8) : Cons :=
  { k with buf := upd k.buf (Fin.ofNat INPUT_BUF k.e.toNat) c, e := k.e + 1 }

/-- The last case of `consoleintr`: the console after it, and whether readers are woken. -/
def accept (k : Cons) (c : UInt8) : Cons × Bool :=
  if c ≠ 0 ∧ k.e - k.r < 128 then
    let c := if c = carriageReturn then newline else c
    let k := k.store c
    if c = newline ∨ c = controlD ∨ k.e = k.r + 128 then ({ k with w := k.e }, true) else (k, false)
  else (k, false)

/-- `consoleintr(c)`. -/
def intr (k : Cons) (c : UInt8) : Cons × Bool :=
  if c = controlP then (k, false)
  else if c = controlU then (killLine (k.e - k.w).toNat k, false)
  else if c = controlH ∨ c = delete then
    (if k.e ≠ k.w then { k with e := k.e - 1 } else k, false)
  else k.accept c

end Cons

/-- Does `either_copyout` of byte `dst + i` succeed? -/
abbrev Target := Nat → Bool

/-- Where a reader is.  `i` bytes of the `n` it asked for are copied. -/
inductive Pc
  | user
  | acquire (dst : Target) (i : Nat) (n : Int)
  | loop (dst : Target) (i : Nat) (n : Int)
  | done (r : Int)

structure Proc where
  pc : Pc
  killed : Bool
  /-- SLEEPING on `&cons.r`. -/
  asleep : Bool

structure Sys (m : Nat) where
  cons : Cons
  /-- The process that holds `cons.lock`. -/
  lock : Option (Fin m)
  procs : Fin m → Proc

inductive Event (m : Nat)
  | tau
  /-- The character `c` came in. -/
  | input (c : UInt8)
  | called (p : Fin m) (dst : Target) (n : Int)
  /-- A byte was copied to a reader. -/
  | delivered (p : Fin m) (b : UInt8)
  /-- A byte left the buffer and could not be copied. -/
  | lost (p : Fin m) (b : UInt8)
  /-- A read found control-D and returned `i`. -/
  | eof (p : Fin m) (i : Nat)
  | returned (p : Fin m) (r : Int)
  | killed (p : Fin m)

namespace Sys

variable {m : Nat} (s : Sys m) (p : Fin m)

def setProc (f : Proc → Proc) : Sys m := { s with procs := upd s.procs p (f (s.procs p)) }

def goto (pc : Pc) : Sys m := s.setProc p fun x => { x with pc := pc }

/-- `consoleintr(c)`, which waits for the lock. -/
def intr (c : UInt8) : Option (Sys m × Event m) :=
  if s.lock = none then
    let r := s.cons.intr c
    some ({ s with
      cons := r.1
      procs := if r.2 then fun q => { s.procs q with asleep := false } else s.procs }, .input c)
  else none

/-- `cons.r++` in a reader. -/
def take : Sys m := { s with cons := { s.cons with r := s.cons.r + 1 } }

/-- One round of the loop of `consoleread`, with the lock. -/
def loop (dst : Target) (i : Nat) (n : Int) : Sys m × Event m :=
  if (i : Int) < n then
    if s.cons.r = s.cons.w then
      if (s.procs p).killed then (s.goto p (.done (-1)), .tau)
      else
        ({ s with lock := none }.setProc p fun x => { x with pc := .acquire dst i n, asleep := true },
          .tau)
    else
      let c := s.cons.char s.cons.r
      if c = controlD then
        -- `cons.r--` undoes `cons.r++` if there was data
        let t := if 0 < i then s else s.take
        ({ t with lock := none }.goto p .user, .eof p i)
      else if dst i then
        (s.take.goto p (if c = newline then .done (i + 1 : Nat) else .loop dst (i + 1) n),
          .delivered p c)
      else (s.take.goto p (.done i), .lost p c)
  else (s.goto p (.done i), .tau)

/-- The next step of process `p` in `consoleread`. -/
def exec : Pc → Option (Sys m × Event m)
  | .user => none
  | .acquire dst i n =>
    if s.lock = none then some ({ s with lock := some p }.goto p (.loop dst i n), .tau) else none
  | .loop dst i n => some (s.loop p dst i n)
  | .done r => some ({ s with lock := none }.goto p .user, .returned p r)

/-- A step of process `p`; a SLEEPING process does not run. -/
def step : Option (Sys m × Event m) :=
  if (s.procs p).asleep then none else s.exec p (s.procs p).pc

def call (dst : Target) (n : Int) : Option (Sys m × Event m) :=
  match (s.procs p).pc with
  | .user => some (s.goto p (.acquire dst 0 n), .called p dst n)
  | _ => none

def kill : Sys m × Event m :=
  (s.setProc p fun x => { x with killed := true, asleep := false }, .killed p)

end Sys

inductive Step {m : Nat} : Sys m → Event m → Sys m → Prop
  | intr {s t : Sys m} {e : Event m} (c : UInt8) : s.intr c = some (t, e) → Step s e t
  | run {s t : Sys m} {e : Event m} (p : Fin m) : s.step p = some (t, e) → Step s e t
  | call {s t : Sys m} {e : Event m} (p : Fin m) (dst : Target) (n : Int) :
      s.call p dst n = some (t, e) → Step s e t
  | kill {s t : Sys m} {e : Event m} (p : Fin m) : s.kill p = (t, e) → Step s e t

/-- The console before its first character. -/
def initial {m : Nat} : Sys m where
  cons := { buf := fun _ => 0, r := 0, w := 0, e := 0 }
  lock := none
  procs _ := { pc := .user, killed := false, asleep := false }

/-- What happens next. -/
inductive Choice (m : Nat)
  | intr (c : UInt8)
  | go (p : Fin m)
  | call (p : Fin m) (dst : Target) (n : Int)
  | kill (p : Fin m)

def Sys.next {m : Nat} (s : Sys m) : Choice m → Option (Sys m × Event m)
  | .intr c => s.intr c
  | .go p => s.step p
  | .call p dst n => s.call p dst n
  | .kill p => some (s.kill p)

theorem Sys.next_step {m : Nat} (s : Sys m) (k : Choice m) (t : Sys m) (e : Event m)
    (h : s.next k = some (t, e)) : Step s e t := by
  cases k with
  | intr c => exact .intr c h
  | go p => exact .run p h
  | call p dst n => exact .call p dst n h
  | kill p => exact .kill p (Option.some.inj h)

end Xv6.Console
