import Xv6.Lib.Bytes
import Xv6.Lib.Command
import Xv6.Lib.Transition

/-!
# `umalloc.c`

Addresses are numbers, and the memory is the header that would be found at each of them.
`sbrk` gives a region some way above all it has given before, or fails; it fails when the
process would have more than `limit` units.  The loops take a bound on their rounds.
-/

namespace Xv6.Umalloc

open Lib

/-- `sizeof(Header)` -/
abbrev unit : Nat := 16

/-- `size` is a `uint`. -/
structure Header where
  ptr : Nat
  size : Nat
  deriving DecidableEq, Repr

structure State where
  mem : Nat → Header
  freep : Nat
  /-- The end of the memory that `sbrk` has given. -/
  top : Nat
  /-- What `sbrk` is going to answer: how far above `top` the next region starts, or -1. -/
  sbrks : List (Option Nat)
  /-- The units that `sbrk` has given. -/
  obtained : Nat

inductive Fail
  /-- A loop went on for longer than the bound. -/
  | bound
  /-- `sbrk` was called with a number that is negative as an `int`. -/
  | negative
  deriving DecidableEq, Repr

abbrev Cmd := Lib.Cmd Fail State

/-- `*p` -/
def load (p : Nat) : Cmd Header := do
  let s ← get
  return s.mem p

/-- `*p = h` -/
def store (p : Nat) (h : Header) : Cmd PUnit := modify fun s => { s with mem := upd s.mem p h }

def setFreep (p : Nat) : Cmd PUnit := modify fun s => { s with freep := p }

/-- The search of `free` for the place of `bp`. -/
def place (bp : Nat) : Nat → Nat → Cmd Nat
  | 0, _ => throw .bound
  | n + 1, p => do
      let h ← load p
      if p < bp ∧ bp < h.ptr then return p
      else if h.ptr ≤ p ∧ (p < bp ∨ bp < h.ptr) then return p
      else place bp n h.ptr

/-- The two `if`s of `free`: the block at `x` is linked to the one at `next`, or the two become
one if they are adjacent. -/
def join (x next : Nat) : Cmd PUnit := do
  let h ← load x
  if x + unit * h.size = next then
    let b ← load next
    store x { ptr := b.ptr, size := (h.size + b.size) % 2 ^ 32 }
  else store x { h with ptr := next }

def free (n : Nat) (ap : Nat) : Cmd PUnit := do
  let bp := ap - unit
  let s ← get
  let p ← place bp n s.freep
  let h ← load p
  join bp h.ptr
  join p bp
  setFreep p

/-- `sbrk` for this number of units. -/
def sbrk (limit nu : Nat) : Cmd (Option Nat) := do
  if 2 ^ 31 ≤ nu * unit then throw .negative
  else
    let s ← get
    match s.sbrks with
    | some gap :: answers =>
      if s.obtained + nu ≤ limit then
        set { s with
          top := s.top + gap + nu * unit
          sbrks := answers
          obtained := s.obtained + nu }
        return some (s.top + gap)
      else
        set { s with sbrks := answers }
        return none
    | none :: answers =>
      set { s with sbrks := answers }
      return none
    | [] => return none

def morecore (limit n nu : Nat) : Cmd (Option Nat) := do
  let nu := if nu < 4096 then 4096 else nu
  match ← sbrk limit nu with
  | none => return none
  | some hp =>
    let h ← load hp
    store hp { h with size := nu }
    free n (hp + unit)
    let s ← get
    return some s.freep

/-- What `malloc` does with a block that is large enough. -/
def take (nunits prevp p : Nat) (h : Header) : Cmd Nat := do
  if h.size = nunits then
    let prev ← load prevp
    store prevp { prev with ptr := h.ptr }
    setFreep prevp
    return p + unit
  else
    store p { h with size := h.size - nunits }
    let tail ← load (p + unit * (h.size - nunits))
    store (p + unit * (h.size - nunits)) { tail with size := nunits }
    setFreep prevp
    return p + unit * (h.size - nunits) + unit

/-- The loop of `malloc`; `m` is the bound for `free`. -/
def search (limit m nunits : Nat) : Nat → Nat → Nat → Cmd Nat
  | 0, _, _ => throw .bound
  | n + 1, prevp, p => do
      let h ← load p
      if nunits ≤ h.size then take nunits prevp p h
      else
        let s ← get
        if p = s.freep then
          match ← morecore limit m nunits with
          | none => return 0
          | some p =>
            let h ← load p
            search limit m nunits n p h.ptr
        else search limit m nunits n p h.ptr

/-- The number of units for a request. -/
def nunits (nbytes : UInt32) : Nat := (nbytes.toNat + unit - 1) / unit + 1

/-- `base` is the address of the static header. -/
def malloc (limit base n : Nat) (nbytes : UInt32) : Cmd Nat := do
  let s ← get
  if s.freep = 0 then
    store base { ptr := base, size := 0 }
    setFreep base
  let s ← get
  let h ← load s.freep
  search limit n (nunits nbytes) n s.freep h.ptr

/-!
## Programs
-/

/-- A block of `size` units with its header at `addr`. -/
structure Block where
  addr : Nat
  size : Nat
  deriving DecidableEq, Repr

/-- The end of a block. -/
def Block.stop (b : Block) : Nat := b.addr + unit * b.size

/-- The allocator and the blocks that the program has. -/
structure World where
  heap : State
  live : List Block

inductive Call
  | malloc (nbytes : UInt32)
  | free (b : Block)
  /-- The program writes to its own memory, which changes what a header at `a` would be. -/
  | write (a : Nat) (h : Header)

/-- What a program does: it asks for less than 2^31 bytes, frees what it has, and leaves the
headers alone. -/
def next (limit base n : Nat) (w : World) : Call → Option World
  | .malloc nbytes =>
    if unit * nunits nbytes < 2 ^ 31 then
      match malloc limit base n nbytes w.heap with
      | .ok (ap, t) =>
        if ap = 0 then some { w with heap := t }
        else some
          { heap := t
            live := { addr := ap - unit, size := (t.mem (ap - unit)).size } :: w.live }
      | .error _ => none
    else none
  | .free b =>
    if b ∈ w.live then
      match free n (b.addr + unit) w.heap with
      | .ok (_, t) => some { heap := t, live := w.live.erase b }
      | .error _ => none
    else none
  | .write a h =>
    if ∃ b ∈ w.live, b.addr < a ∧ a < b.stop then
      some { w with heap := { w.heap with mem := upd w.heap.mem a h } }
    else none

def Step (limit base n : Nat) (w : World) (c : Call) (w' : World) : Prop :=
  next limit base n w c = some w'

/-- Before the first call. -/
def start (mem : Nat → Header) (top : Nat) (sbrks : List (Option Nat)) : World where
  heap :=
    { mem := mem
      freep := 0
      top := top
      sbrks := sbrks
      obtained := 0 }
  live := []

end Xv6.Umalloc
