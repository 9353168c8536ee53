import Xv6.Lib.Ring
import Xv6.Lib.Transition

/-!
# The log and the buffer cache

A model of `log.c` over `bio.c`.  Any number of processes run file system
operations concurrently: they read blocks, change them, `log_write` what they
changed and release it.  The last `end_op` commits.  Every section under `bcache.lock` or `log.lock`, every wait for a sleep lock and every
disk transfer of one block is one step, and the machine may crash between any two
steps; it then restarts with the disk it had and runs `initlog`.

The device is always `ROOTDEV`, so a buffer names a block number or, before its
first use, nothing.  `initlog`'s test of `sizeof(struct logheader)` is a constant
that never fires.
-/

namespace Xv6.Log

def MAXOPBLOCKS : Nat := 10
def LOGSIZE : Nat := MAXOPBLOCKS * 3
def NBUF : Nat := MAXOPBLOCKS * 3

/-- The words of a block: `BSIZE / sizeof(int)`. -/
abbrev WORDS : Nat := 256

abbrev Block := Fin WORDS → Nat
abbrev Disk := Nat → Block
abbrev BufId := Fin NBUF

/-- The fields of `struct superblock` that the log uses. -/
structure Superblock where
  logstart : Nat
  nlog : Nat
  deriving DecidableEq, Repr

/-- The superblock of a disk made by `mkfs`: the log follows the boot block and
the superblock. -/
def mkfs : Superblock := { logstart := 2, nlog := LOGSIZE }

/-- A block outside the log area. -/
def Superblock.home (sb : Superblock) (b : Nat) : Prop :=
  b ≠ sb.logstart ∧ ¬(sb.logstart < b ∧ b < sb.logstart + sb.nlog)

instance (sb : Superblock) (b : Nat) : Decidable (sb.home b) :=
  inferInstanceAs (Decidable (_ ∧ _))

/-- The block numbers in a header block: `n` and then `block[0..n-1]`. -/
def decode (c : Block) : List Nat :=
  (List.range (c 0)).map fun i => if h : i + 1 < WORDS then c ⟨i + 1, h⟩ else 0

/-- The header block after `write_head`'s loop; the words past `block[n-1]` keep
what the buffer held. -/
def encode (l : List Nat) (c : Block) : Block := fun w =>
  if w.val = 0 then l.length else (l[w.val - 1]?).getD (c w)

structure Buf (m : Nat) where
  blockno : Option Nat
  valid : Bool
  refcnt : Nat
  data : Block
  /-- The process that holds the sleep lock. -/
  holder : Option (Fin (m + 1))

/-- The local variables that point to a buffer: of a block of the log area, and of
a home block. -/
inductive Reg
  | lbuf
  | dbuf
  deriving DecidableEq, Repr

/-- The block a `bwrite` is meant for. -/
inductive Target
  | slot (tail b : Nat)
  | header
  | home (tail b : Nat)
  deriving DecidableEq, Repr

def Target.reg : Target → Reg
  | slot _ _ => .lbuf
  | header => .lbuf
  | home _ _ => .dbuf

/-- What remains of the kernel code a process runs.  Block numbers in the code say
which block a pointer is meant to refer to; only `bget` uses its own. -/
inductive Instr
  -- bio.c: `bget` up to the sleep lock, the rest of `bread`, the two halves of `brelse`
  | bget (r : Reg) (b : Nat)
  | bread (r : Reg) (b : Nat)
  | releasesleep (r : Reg) (b : Nat)
  | brelse (r : Reg) (b : Nat)
  | bwrite (k : Target)
  | bunpin (tail b : Nat)
  -- log.c
  | toLog (tail b : Nat)
  | toHome (tail b : Nat)
  | setHead
  | getHead
  | clearHead
  | writeLog (tail : Nat)
  | installTrans (recovering : Bool) (tail : Nat)
  | commit
  | endCommit
  | beginOp
  | endOp
  | initDone
  -- a file system call
  | keep (b : Nat)
  | client
  deriving DecidableEq, Repr

abbrev Code := List Instr

open Instr Lib

/-- `bread(dev, b)` into `r`. -/
def breadCode (r : Reg) (b : Nat) : Code := [bget r b, bread r b]

/-- `brelse(r)`. -/
def brelseCode (r : Reg) (b : Nat) : Code := [releasesleep r b, brelse r b]

section

variable (sb : Superblock)

/-- One round of `write_log`'s loop. -/
def writeLogCode (tail b : Nat) : Code :=
  breadCode .lbuf (sb.logstart + tail + 1) ++ breadCode .dbuf b ++
    [toLog tail b, bwrite (.slot tail b)] ++
    brelseCode .dbuf b ++ brelseCode .lbuf (sb.logstart + tail + 1) ++ [writeLog (tail + 1)]

/-- One round of `install_trans`'s loop. -/
def installCode (recovering : Bool) (tail b : Nat) : Code :=
  breadCode .lbuf (sb.logstart + tail + 1) ++ breadCode .dbuf b ++
    [toHome tail b, bwrite (.home tail b)] ++
    (if recovering then [] else [bunpin tail b]) ++
    brelseCode .lbuf (sb.logstart + tail + 1) ++ brelseCode .dbuf b ++
    [installTrans recovering (tail + 1)]

def readHead : Code :=
  breadCode .lbuf sb.logstart ++ [getHead] ++ brelseCode .lbuf sb.logstart

def writeHead : Code :=
  breadCode .lbuf sb.logstart ++ [setHead, bwrite .header] ++ brelseCode .lbuf sb.logstart

def recoverFromLog : Code :=
  readHead sb ++ [installTrans true 0, clearHead] ++ writeHead sb

/-- `commit()` with a nonempty log. -/
def commitCode : Code :=
  [writeLog 0] ++ writeHead sb ++ [installTrans false 0, clearHead] ++ writeHead sb

end

/-- A buffer that a file system call holds, and whether it changed the buffer
after it last logged it. -/
structure Held where
  buf : BufId
  block : Nat
  dirty : Bool
  deriving DecidableEq, Repr

/-- A process: the code it has still to run, its pointers, and the state of its
file system call: the buffers it holds, its operation, and the blocks that
operation passed to `log_write`. -/
structure Proc where
  code : Code
  reg : Reg → BufId
  held : List Held
  op : Option Nat
  logged : List Nat

inductive Panic
  | noBuffers
  | bwrite
  | brelse
  | tooBig
  | outsideTrans
  | committing
  deriving DecidableEq, Repr

structure Sys (m : Nat) where
  disk : Disk
  bufs : BufId → Buf m
  /-- The list of buffers through `next` and `prev`, with `bcache.head` as its
  sentinel: `head.next` is the most recently used buffer. -/
  links : Links BufId
  outstanding : Nat
  committing : Bool
  /-- `log.lh.block[0..n-1]`. -/
  lh : List Nat
  procs : Fin (m + 1) → Proc
  /-- The processes that sleep in `begin_op`. -/
  asleep : Fin (m + 1) → Bool
  /-- Has `initlog` returned? -/
  up : Bool
  panicked : Option Panic
  /-- The number of operations begun so far. -/
  ops : Nat

/-- The callers of the log and of the cache.  `logged` ones keep the rules of
`log.c`: they read home blocks, change them only inside an operation and log every
change before they release the block or end the operation.  `free` ones only keep
the rule of `bio.c`: they write or log every change before they release a block. -/
inductive Clients
  | logged
  | free
  deriving DecidableEq, Repr

/-- What a file system call does next. -/
inductive Choice
  | go
  | start
  | read (b : Nat)
  | modify (k : Nat) (c : Block)
  | log (k : Nat)
  | flush (k : Nat)
  | drop (k : Nat)
  | finish

inductive Event
  | tau
  | began (o : Nat)
  /-- The holder of block `b` changed its content to `c`. -/
  | changed (b : Nat) (c : Block)
  /-- `bread` returned block `b` with content `c`. -/
  | returned (b : Nat) (c : Block)
  /-- A caller in operation `o` called `log_write` on block `b` with content `c`. -/
  | wrote (o : Option Nat) (b : Nat) (c : Block)
  | ended (o : Nat)
  /-- A `write_head` with a nonzero `n` reached the disk. -/
  | committed
  /-- `initlog` returned. -/
  | recovered
  | crashed

namespace Sys

variable {m : Nat} (s : Sys m) (p : Fin (m + 1))

@[simps disk links outstanding committing lh procs up ops panicked]
def setBuf (i : BufId) (f : Buf m → Buf m) : Sys m :=
  { s with bufs := Function.update s.bufs i (f (s.bufs i)) }

@[simps disk bufs links outstanding committing lh up ops panicked]
def setProc (f : Proc → Proc) : Sys m :=
  { s with procs := Function.update s.procs p (f (s.procs p)) }

/-- Continue process `p` with code `c`. -/
def goto (c : Code) : Sys m := s.setProc p fun q => { q with code := c }

def setReg (r : Reg) (i : BufId) : Sys m :=
  s.setProc p fun q => { q with reg := Function.update q.reg r i }

/-- The buffer a pointer of process `p` refers to. -/
def ptr (r : Reg) : Buf m := s.bufs ((s.procs p).reg r)

@[simps disk bufs lh procs]
def panic (k : Panic) : Sys m := { s with panicked := some k }

@[simps disk bufs lh procs]
def setLh (l : List Nat) : Sys m := { s with lh := l }

@[simps disk bufs lh procs]
def setLinks (l : Links BufId) : Sys m := { s with links := l }

@[simps disk bufs lh procs]
def setCommitting (f : Bool) : Sys m := { s with committing := f }

/-- `virtio_disk_rw(b, 1)`: the write of one block. -/
@[simps disk bufs lh procs]
def writeDisk (b : Nat) (c : Block) : Sys m := { s with disk := Function.update s.disk b c }

/-- `sleep(&log, &log.lock)`. -/
@[simps disk bufs lh procs]
def sleep : Sys m := { s with asleep := Function.update s.asleep p true }

/-- `wakeup(&log)`. -/
@[simps disk bufs lh procs]
def wakeup : Sys m := { s with asleep := fun _ => false }

/-- `log.outstanding += 1`. -/
@[simps disk bufs lh procs]
def enter : Sys m := { s with outstanding := s.outstanding + 1, ops := s.ops + 1 }

/-- `log.outstanding -= 1`. -/
@[simps disk bufs lh procs]
def retire : Sys m := { s with outstanding := s.outstanding - 1 }

@[simps disk bufs lh procs]
def initialised : Sys m := { s with up := true }

/-- The buffers from `head.next` on: most recently used first. -/
def order : List BufId := scan s.links.next NBUF (s.links.next none)

/-- The buffers from `head.prev` on. -/
def orderBack : List BufId := scan s.links.prev NBUF (s.links.prev none)

/-- `bget(dev, b)` under `bcache.lock`: the buffer that holds the block, else the
least recently used free one. -/
def bget (r : Reg) (b : Nat) (c : Code) : Sys m :=
  match s.order.find? fun i => (s.bufs i).blockno = some b with
  | some i =>
    ((s.setBuf i fun x => { x with refcnt := x.refcnt + 1 }).setReg p r i).goto p c
  | none =>
    match s.orderBack.find? fun i => (s.bufs i).refcnt = 0 with
    | some i =>
      ((s.setBuf i fun x =>
        { x with blockno := some b, valid := false, refcnt := 1 }).setReg p r i).goto p c
    | none => s.panic .noBuffers

/-- The end of `bread`: wait for the sleep lock and read the block if the buffer
does not have it. -/
def bread (r : Reg) (c : Code) : Option (Sys m × Event) :=
  let b := (s.ptr p r).blockno.getD 0
  let d := if (s.ptr p r).valid then (s.ptr p r).data else s.disk b
  if (s.ptr p r).holder = none then
    some ((s.setBuf ((s.procs p).reg r) fun x =>
      { x with holder := some p, valid := true, data := d }).goto p c, .returned b d)
  else none

/-- The test and the `releasesleep` of `brelse`. -/
def releasesleep (r : Reg) (c : Code) : Sys m :=
  if (s.ptr p r).holder = some p then
    (s.setBuf ((s.procs p).reg r) fun x => { x with holder := none }).goto p c
  else s.panic .brelse

/-- The part of `brelse` under `bcache.lock`. -/
def brelse (r : Reg) (c : Code) : Sys m :=
  let i := (s.procs p).reg r
  let t := (s.setBuf i fun x => { x with refcnt := x.refcnt - 1 }).goto p c
  if (s.bufs i).refcnt - 1 = 0 then t.setLinks ((s.links.unlink i).pushFront i) else t

def bwrite (k : Target) (c : Code) : Sys m × Event :=
  if (s.ptr p k.reg).holder = some p then
    ((s.writeDisk ((s.ptr p k.reg).blockno.getD 0) (s.ptr p k.reg).data).goto p c,
      if k = .header ∧ s.lh ≠ [] then .committed else .tau)
  else (s.panic .bwrite, .tau)

/-- `begin_op`: one round of its loop. -/
def beginOp (c : Code) : Sys m × Event :=
  if s.committing then (s.sleep p, .tau)
  else if LOGSIZE < s.lh.length + (s.outstanding + 1) * MAXOPBLOCKS then (s.sleep p, .tau)
  else
    (s.enter.setProc p fun q =>
      { q with op := some s.ops, logged := [], code := c }, .began s.ops)

/-- `end_op` up to the commit. -/
def endOp (c : Code) : Sys m × Event :=
  if s.retire.committing then (s.retire.panic .committing, .tau)
  else
    let e := match (s.procs p).op with
      | some o => Event.ended o
      | none => .tau
    if s.retire.outstanding = 0 then
      ((s.retire.setCommitting true).setProc p fun q =>
        { q with op := none, logged := [], code := [commit, endCommit] ++ c }, e)
    else
      (s.retire.wakeup.setProc p fun q => { q with op := none, logged := [], code := c }, e)

/-- `log_write(b)` in operation `o` on the `k`-th buffer the caller holds. -/
def logWrite (sb : Superblock) (o : Option Nat) (k : Nat) (x : Held) : Sys m × Event :=
  let i := x.buf
  let b := (s.bufs i).blockno.getD 0
  let s := s.setProc p fun q => { q with logged := q.logged.insert b }
  if LOGSIZE ≤ s.lh.length ∨ sb.nlog - 1 ≤ s.lh.length then (s.panic .tooBig, .tau)
  else if s.outstanding < 1 then (s.panic .outsideTrans, .tau)
  else
    let s := s.setProc p fun q => { q with held := q.held.set k { x with dirty := false } }
    if b ∈ s.lh then (s, .wrote o b (s.bufs i).data)
    else
      ((s.setLh (s.lh ++ [b])).setBuf i fun x => { x with refcnt := x.refcnt + 1 },
        .wrote o b (s.bufs i).data)

/-- `bwrite(b)` by a file system call on the `k`-th buffer it holds. -/
def flush (k : Nat) (x : Held) : Sys m :=
  if (s.bufs x.buf).holder = some p then
    (s.writeDisk ((s.bufs x.buf).blockno.getD 0) (s.bufs x.buf).data).setProc p fun q =>
      { q with held := q.held.set k { x with dirty := false } }
  else s.panic .bwrite

/-- A file system call between two kernel functions: it begins an operation, reads
a block, changes a block it holds, logs it or writes it, releases one it has not
changed since, or ends its operation. -/
def call (cl : Clients) (sb : Superblock) (c : Code) : Choice → Option (Sys m × Event)
  | .go => none
  | .start =>
    if (s.procs p).op = none then some (s.goto p ([.beginOp, client] ++ c), .tau) else none
  | .read b =>
    if cl = .logged → sb.home b then
      some (s.goto p (breadCode .dbuf b ++ [keep b, client] ++ c), .tau)
    else none
  | .modify k d => do
      let x ← (s.procs p).held[k]?
      if cl = .logged → (s.procs p).op.isSome then
        some ((s.setBuf x.buf fun y => { y with data := d }).setProc p fun q =>
          { q with held := q.held.set k { x with dirty := true } },
          .changed ((s.bufs x.buf).blockno.getD 0) d)
      else none
  | .log k => do
      let x ← (s.procs p).held[k]?
      if cl = .logged → (s.procs p).op.isSome then
        some (s.logWrite p sb (s.procs p).op k x)
      else none
  | .flush k => do
      let x ← (s.procs p).held[k]?
      if cl = .free then some (s.flush p k x, .tau) else none
  | .drop k => do
      let x ← (s.procs p).held[k]?
      if x.dirty then none
      else
        some (((s.setProc p fun q => { q with held := q.held.eraseIdx k }).setReg p .dbuf x.buf).goto p
          (brelseCode .dbuf x.block ++ [client] ++ c), .tau)
  | .finish =>
    if (s.procs p).op.isSome ∧ (cl = .logged → ∀ x ∈ (s.procs p).held, x.dirty = false) then
      some (s.goto p ([.endOp, client] ++ c), .tau)
    else none

/-- The effect of instruction `i` of process `p`, which has the code `c` left. -/
def exec (cl : Clients) (sb : Superblock) (ch : Choice) (c : Code) : Instr → Option (Sys m × Event)
  | .bget r b => some (s.bget p r b c, .tau)
  | .bread r _ => s.bread p r c
  | .releasesleep r _ => some (s.releasesleep p r c, .tau)
  | .brelse r _ => some (s.brelse p r c, .tau)
  | .bwrite k => some (s.bwrite p k c)
  | bunpin _ _ =>
    some ((s.setBuf ((s.procs p).reg .dbuf) fun x =>
      { x with refcnt := x.refcnt - 1 }).goto p c, .tau)
  | toLog _ _ =>
    some ((s.setBuf ((s.procs p).reg .lbuf) fun x =>
      { x with data := (s.ptr p .dbuf).data }).goto p c,
      .changed ((s.ptr p .lbuf).blockno.getD 0) (s.ptr p .dbuf).data)
  | toHome _ _ =>
    some ((s.setBuf ((s.procs p).reg .dbuf) fun x =>
      { x with data := (s.ptr p .lbuf).data }).goto p c,
      .changed ((s.ptr p .dbuf).blockno.getD 0) (s.ptr p .lbuf).data)
  | setHead =>
    some ((s.setBuf ((s.procs p).reg .lbuf) fun x =>
      { x with data := encode s.lh x.data }).goto p c,
      .changed ((s.ptr p .lbuf).blockno.getD 0) (encode s.lh (s.ptr p .lbuf).data))
  | getHead => some ((s.setLh (decode (s.ptr p .lbuf).data)).goto p c, .tau)
  | clearHead => some ((s.setLh []).goto p c, .tau)
  | writeLog t =>
    match s.lh[t]? with
    | some b => some (s.goto p (writeLogCode sb t b ++ c), .tau)
    | none => some (s.goto p c, .tau)
  | installTrans recovering t =>
    match s.lh[t]? with
    | some b => some (s.goto p (installCode sb recovering t b ++ c), .tau)
    | none => some (s.goto p c, .tau)
  | commit =>
    some (s.goto p (if 0 < s.lh.length then commitCode sb ++ c else c), .tau)
  | endCommit => some ((s.setCommitting false).wakeup.goto p c, .tau)
  | .beginOp => some (s.beginOp p c)
  | .endOp => some (s.endOp p c)
  | initDone => some (s.initialised.goto p c, .recovered)
  | keep b =>
    some (s.setProc p fun q =>
      { q with held := ⟨q.reg .dbuf, b, false⟩ :: q.held, code := c }, .tau)
  | client => s.call p cl sb c ch

/-- One step of process `p`.  Nobody runs after a panic, and only the first process
runs before `initlog` has returned. -/
def step (cl : Clients) (sb : Superblock) (ch : Choice) : Option (Sys m × Event) :=
  if s.panicked = none ∧ (s.up ∨ p = 0) ∧ s.asleep p = false then
    match (s.procs p).code with
    | [] => none
    | i :: c => s.exec p cl sb ch c i
  else none

end Sys

/-- `binit`'s loop over the buffers. -/
def binit : Links BufId := (List.finRange NBUF).foldl Links.pushFront Links.empty

/-- The machine after `binit`, when the first process enters `initlog`. -/
def boot {m : Nat} (sb : Superblock) (disk : Disk) (ops : Nat) : Sys m where
  disk := disk
  bufs _ := { blockno := none, valid := false, refcnt := 0, data := fun _ => 0, holder := none }
  links := binit
  outstanding := 0
  committing := false
  lh := []
  procs p :=
    { code := if p = 0 then recoverFromLog sb ++ [initDone, client] else [client]
      reg := fun _ => ⟨0, by decide⟩
      held := []
      op := none
      logged := [] }
  asleep _ := false
  up := false
  panicked := none
  ops := ops

/-- A step of a process, or a crash. -/
inductive Step {m : Nat} (cl : Clients) (sb : Superblock) : Sys m → Event → Sys m → Prop
  | run {s t : Sys m} {e : Event} (p : Fin (m + 1)) (ch : Choice) :
      s.step p cl sb ch = some (t, e) → Step cl sb s e t
  | crash (s : Sys m) : Step cl sb s .crashed (boot sb s.disk s.ops)

/-- The machine under a choice: the process that runs and what it does, or a crash. -/
def Sys.next {m : Nat} (cl : Clients) (sb : Superblock) (s : Sys m) :
    Option (Fin (m + 1) × Choice) → Option (Sys m × Event)
  | some (p, ch) => s.step p cl sb ch
  | none => some (boot sb s.disk s.ops, .crashed)

theorem Sys.next_step {m : Nat} {cl : Clients} {sb : Superblock} (s : Sys m)
    (k : Option (Fin (m + 1) × Choice)) (t : Sys m) (e : Event)
    (h : s.next cl sb k = some (t, e)) : Step cl sb s e t := by
  cases k with
  | none => cases h; exact .crash s
  | some x => exact .run x.1 x.2 h

/-- The machine under a list of choices. -/
def Sys.trace {m : Nat} (cl : Clients) (sb : Superblock) :
    Sys m → List (Option (Fin (m + 1) × Choice)) → Option (Sys m × List Event) :=
  Lib.trace (Sys.next cl sb)

theorem Sys.trace_run {m : Nat} {cl : Clients} {sb : Superblock} {s t : Sys m}
    {ks : List (Option (Fin (m + 1) × Choice))} {es : List Event}
    (h : s.trace cl sb ks = some (t, es)) : Run (Step cl sb) s es t :=
  Lib.trace_run Sys.next_step h

/-- `n` steps of process `p` inside the kernel. -/
def goes {m : Nat} (p : Fin (m + 1)) (n : Nat) : List (Option (Fin (m + 1) × Choice)) :=
  List.replicate n (some (p, .go))

end Xv6.Log
