import Xv6.Lib.Bytes
import Xv6.Lib.RingBuffer
import Xv6.Lib.Transition

/-!
# The disk driver

A model of `virtio_disk.c` between the buffer cache and the device.  A process calls
`virtio_disk_rw` on a buffer whose sleep lock it holds, as `bread` and `bwrite` do; any
number of harts may be in `virtio_disk_intr`; the device fetches the posted chains in
order and completes them in any order.  Between two steps of the driver the device may do
anything it can.  A process that sleeps may go on at any time, as `kill` wakes it too.
The bytes that the device moves are left out.
-/

namespace Xv6.Virtio

open Lib

abbrev NUM : Nat := 8

abbrev VRING_DESC_F_NEXT : UInt16 := 1
abbrev VRING_DESC_F_WRITE : UInt16 := 2

/-- What a descriptor points to. -/
inductive Addr (B : Type)
  | null
  /-- `&disk.ops[i]` -/
  | op (i : Nat)
  /-- `b->data` -/
  | data (b : B)
  /-- `&disk.info[i].status` -/
  | status (i : Nat)

/-- `struct virtq_desc`. -/
structure Desc (B : Type) where
  addr : Addr B
  len : Nat
  flags : UInt16
  next : Nat

/-- `struct virtio_blk_req`. -/
structure BlkReq where
  type : Nat
  reserved : Nat
  sector : Nat

structure Info (B : Type) where
  b : Option B
  status : UInt8

/-- `struct disk` without its lock; `availIdx` and `usedIdx` are `avail->idx` and
`used->idx`, and `lookedIdx` is the driver's own `used_idx`. -/
structure Disk (B : Type) where
  desc : Nat → Desc B
  availIdx : UInt16
  availRing : Fin NUM → Nat
  usedIdx : UInt16
  usedRing : Fin NUM → Nat
  free : Nat → Bool
  lookedIdx : UInt16
  info : Nat → Info B
  ops : Nat → BlkReq

inductive Panic
  | freeDesc1   -- "free_desc 1"
  | freeDesc2   -- "free_desc 2"
  | status      -- "virtio_disk_intr status"
  | noBuf
  deriving DecidableEq, Repr

/-- The descriptors of a request. -/
structure Chain where
  i0 : Nat
  i1 : Nat
  i2 : Nat
  deriving DecidableEq, Repr

def Chain.list (c : Chain) : List Nat := [c.i0, c.i1, c.i2]

namespace Disk

variable {B : Type}

def allocDesc (d : Disk B) : Option (Nat × Disk B) :=
  match (List.range NUM).find? d.free with
  | some i => some (i, { d with free := upd d.free i false })
  | none => none

def freeDesc (d : Disk B) (i : Nat) : Except Panic (Disk B) :=
  if NUM ≤ i then .error .freeDesc1
  else if d.free i then .error .freeDesc2
  else
    .ok { d with
      desc := upd d.desc i { addr := .null, len := 0, flags := 0, next := 0 }
      free := upd d.free i true }

/-- `alloc3_desc` where a descriptor is missing: the others are freed. -/
def freeDescs : List Nat → Disk B → Except Panic (Disk B)
  | [], d => .ok d
  | i :: idx, d => do
      let d ← d.freeDesc i
      freeDescs idx d

/-- The loop of `alloc3_desc`, with `n` rounds to go. -/
def allocLoop : Nat → List Nat → Disk B → Except Panic (Option (List Nat) × Disk B)
  | 0, idx, d => .ok (some idx, d)
  | n + 1, idx, d =>
    match d.allocDesc with
    | some (i, d) => allocLoop n (idx ++ [i]) d
    | none => do
        let d ← freeDescs idx d
        return (none, d)

def alloc3Desc (d : Disk B) : Except Panic (Option Chain × Disk B) := do
  let r ← allocLoop 3 [] d
  return (r.1.map fun idx => { i0 := idx.getD 0 0, i1 := idx.getD 1 0, i2 := idx.getD 2 0 }, r.2)

end Disk

/-- A call of `virtio_disk_rw`. -/
structure Call (B : Type) where
  b : B
  write : Bool
  blockno : Nat

/-- The three descriptors of a request, and what the handler needs of it. -/
def Disk.format {B : Type} (d : Disk B) (r : Call B) (c : Chain) : Disk B :=
  { d with
    ops := upd d.ops c.i0
      { type := if r.write then 1 else 0, reserved := 0, sector := r.blockno * 2 % 2 ^ 32 }
    desc := upd
      (upd
        (upd d.desc c.i0
          { addr := .op c.i0, len := 16, flags := VRING_DESC_F_NEXT, next := c.i1 })
        c.i1
        { addr := .data r.b, len := 1024
          flags := (if r.write then 0 else VRING_DESC_F_WRITE) ||| VRING_DESC_F_NEXT
          next := c.i2 })
      c.i2 { addr := .status c.i0, len := 1, flags := VRING_DESC_F_WRITE, next := 0 }
    info := upd d.info c.i0 { b := some r.b, status := 0xff } }

/-- Where a process is in `virtio_disk_rw`. -/
inductive Point (B : Type)
  | out
  /-- Before `acquire(&disk.vdisk_lock)`. -/
  | enter (r : Call B)
  | alloc (r : Call B)
  /-- Asleep on `&disk.free[0]`. -/
  | sleepFree (r : Call B)
  | format (r : Call B) (c : Chain)
  /-- Before the head goes to the ring. -/
  | ring (b : B) (c : Chain)
  /-- Before `disk.avail->idx += 1`. -/
  | bump (b : B) (c : Chain)
  /-- `while (b->disk == 1)`. -/
  | check (b : B) (c : Chain)
  /-- Asleep on `b`. -/
  | sleepBuf (b : B) (c : Chain)
  /-- Before `disk.info[idx[0]].b = 0`. -/
  | clear (b : B) (c : Chain)
  /-- `free_chain`, before `free_desc(i)`. -/
  | freeing (b : B) (c : Chain) (i : Nat)
  | release (b : B)

/-- Where a hart is in `virtio_disk_intr`. -/
inductive Handler
  | off
  /-- Before `acquire(&disk.vdisk_lock)`. -/
  | enter
  /-- `while (disk.used_idx != disk.used->idx)`. -/
  | test
  /-- The body of the loop. -/
  | body
  | release
  deriving DecidableEq, Repr

/-- The driver and the device.  `busy b` is `b->disk`, `block b` the process that holds
`b->lock`, `fetched` how far the device has looked in the avail ring, and `pending` the
heads it has fetched and not completed. -/
structure Sys (B P H : Type) where
  disk : Disk B
  busy : B → Bool
  block : B → Option P
  lock : Option (P ⊕ H)
  proc : P → Point B
  hart : H → Handler
  fetched : UInt16
  pending : List Nat

inductive Move (B P H : Type)
  /-- `acquiresleep(&b->lock)` and `releasesleep(&b->lock)`. -/
  | lockBuf (p : P) (b : B)
  | unlockBuf (p : P) (b : B)
  | call (p : P) (r : Call B)
  /-- The process takes its next step. -/
  | go (p : P)
  /-- The device interrupts a hart. -/
  | interrupt (h : H)
  | handle (h : H)
  /-- The device takes the next chain from the avail ring. -/
  | fetch
  /-- The device completes a chain that it has taken. -/
  | complete (i : Nat)

/-- What a step does to the request with head `i`. -/
inductive Event (B P : Type)
  | tau
  | post (i : Nat) (p : P) (b : B)
  | complete (i : Nat)
  | see (i : Nat) (b : B)
  | panic (why : Panic)

namespace Sys

variable {B P H : Type} [DecidableEq B] [DecidableEq P] [DecidableEq H]

def goto (s : Sys B P H) (p : P) (a : Point B) : Sys B P H := { s with proc := upd s.proc p a }

def handleTo (s : Sys B P H) (h : H) (a : Handler) : Sys B P H := { s with hart := upd s.hart h a }

/-- `acquire(&disk.vdisk_lock)`, which waits until the lock is free. -/
def acquire (s : Sys B P H) (p : P) (a : Point B) : Option (Sys B P H × Event B P) :=
  if s.lock.isNone then some ({ s.goto p a with lock := some (.inl p) }, .tau) else none

/-- `release(&disk.vdisk_lock)`, or `sleep`. -/
def release (s : Sys B P H) : Sys B P H := { s with lock := none }

/-- The next step of a process. -/
def go (s : Sys B P H) (p : P) : Point B → Option (Sys B P H × Event B P)
  | .out => none
  | .enter r => s.acquire p (.alloc r)
  | .sleepFree r => s.acquire p (.alloc r)
  | .alloc r =>
    match s.disk.alloc3Desc with
    | .ok (some c, d) => some ({ s with disk := d }.goto p (.format r c), .tau)
    | .ok (none, d) => some (({ s with disk := d }.goto p (.sleepFree r)).release, .tau)
    | .error why => some (s, .panic why)
  | .format r c =>
    some ({ s with disk := s.disk.format r c, busy := upd s.busy r.b true }.goto p (.ring r.b c), .tau)
  | .ring b c =>
    let ring := upd s.disk.availRing (Fin.ofNat NUM s.disk.availIdx.toNat) c.i0
    some ({ s with disk := { s.disk with availRing := ring } }.goto p (.bump b c), .tau)
  | .bump b c =>
    let disk := { s.disk with availIdx := s.disk.availIdx + 1 }
    some ({ s with disk := disk }.goto p (.check b c), .post c.i0 p b)
  | .check b c =>
    if s.busy b then some ((s.goto p (.sleepBuf b c)).release, .tau)
    else some (s.goto p (.clear b c), .tau)
  | .sleepBuf b c => s.acquire p (.check b c)
  | .clear b c =>
    let info := upd s.disk.info c.i0 { s.disk.info c.i0 with b := none }
    some ({ s with disk := { s.disk with info := info } }.goto p (.freeing b c c.i0), .tau)
  | .freeing b c i =>
    let flags := (s.disk.desc i).flags
    let next := (s.disk.desc i).next
    match s.disk.freeDesc i with
    | .ok d =>
      some ({ s with disk := d }.goto p
        (if flags &&& VRING_DESC_F_NEXT = 0 then .release b else .freeing b c next), .tau)
    | .error why => some (s, .panic why)
  | .release _ => some ((s.goto p .out).release, .tau)

/-- The next step of a hart in the interrupt handler. -/
def handle (s : Sys B P H) (h : H) : Handler → Option (Sys B P H × Event B P)
  | .off => none
  | .enter =>
    if s.lock.isNone then some ({ s.handleTo h .test with lock := some (.inr h) }, .tau) else none
  | .test =>
    some (s.handleTo h (if s.disk.lookedIdx = s.disk.usedIdx then .release else .body), .tau)
  | .body =>
    let i := s.disk.usedRing (Fin.ofNat NUM s.disk.lookedIdx.toNat)
    if (s.disk.info i).status ≠ 0 then some (s, .panic .status)
    else
      match (s.disk.info i).b with
      | none => some (s, .panic .noBuf)
      | some b =>
        let disk := { s.disk with lookedIdx := s.disk.lookedIdx + 1 }
        some ({ s with disk := disk, busy := upd s.busy b false }.handleTo h .test, .see i b)
  | .release => some ((s.handleTo h .off).release, .tau)

/-- The device follows the chain from head `i` and writes the status. -/
def setStatus (s : Sys B P H) (i : Nat) : Nat → Info B :=
  match (s.disk.desc (s.disk.desc (s.disk.desc i).next).next).addr with
  | .status k => upd s.disk.info k { s.disk.info k with status := 0 }
  | _ => s.disk.info

/-- The state after a move, if it can be made, and what it was. -/
def next (s : Sys B P H) : Move B P H → Option (Sys B P H × Event B P)
  | .lockBuf p b =>
    match s.proc p with
    | .out => if (s.block b).isNone then some ({ s with block := upd s.block b (some p) }, .tau) else none
    | _ => none
  | .unlockBuf p b =>
    match s.proc p with
    | .out => if s.block b = some p then some ({ s with block := upd s.block b none }, .tau) else none
    | _ => none
  | .call p r =>
    match s.proc p with
    | .out => if s.block r.b = some p then some (s.goto p (.enter r), .tau) else none
    | _ => none
  | .go p => s.go p (s.proc p)
  | .interrupt h =>
    match s.hart h with
    | .off => some (s.handleTo h .enter, .tau)
    | _ => none
  | .handle h => s.handle h (s.hart h)
  | .fetch =>
    if s.fetched = s.disk.availIdx then none
    else
      let i := s.disk.availRing (Fin.ofNat NUM s.fetched.toNat)
      some ({ s with fetched := s.fetched + 1, pending := s.pending ++ [i] }, .tau)
  | .complete i =>
    if i ∈ s.pending then
      let disk :=
        { s.disk with
          info := s.setStatus i
          usedRing := upd s.disk.usedRing (Fin.ofNat NUM s.disk.usedIdx.toNat) i
          usedIdx := s.disk.usedIdx + 1 }
      some ({ s with disk := disk, pending := s.pending.erase i }, .complete i)
    else none

def Step (s : Sys B P H) (e : Event B P) (t : Sys B P H) : Prop := ∃ m, s.next m = some (t, e)

/-- After `virtio_disk_init`. -/
def init : Sys B P H where
  disk :=
    { desc := fun _ => { addr := .null, len := 0, flags := 0, next := 0 }
      availIdx := 0
      availRing := fun _ => 0
      usedIdx := 0
      usedRing := fun _ => 0
      free := fun i => i < NUM
      lookedIdx := 0
      info := fun _ => { b := none, status := 0 }
      ops := fun _ => { type := 0, reserved := 0, sector := 0 } }
  busy := fun _ => false
  block := fun _ => none
  lock := none
  proc := fun _ => .out
  hart := fun _ => .off
  fetched := 0
  pending := []

end Sys

end Xv6.Virtio
