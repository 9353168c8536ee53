import Xv6.Fs.Types

/-!
# `fs.c`

The functions of the file system, one definition for each.  A call runs alone: the
locks of other processes are not in its way, and a lock it would have to wait for is
one that it holds itself.
-/

namespace Xv6.Fs

open Lib

/-!
## Blocks
-/

def bread (b : Nat) : Cmd Bytes := return (← get).bufs b

/-- The holder of a buffer changes its bytes. -/
def fill (b : Nat) (d : Bytes) : Cmd PUnit :=
  modify fun s => { s with bufs := upd s.bufs b d }

def logWrite (b : Nat) : Cmd PUnit := do
  let s ← get
  if s.outstanding < 1 then throw .outsideOfTrans
  else
    set { s with
      disk := upd s.disk b (s.bufs b)
      lh := if b ∈ s.lh then s.lh else s.lh ++ [b] }

/-- The holder of a buffer changes its bytes and logs it. -/
def update (b : Nat) (d : Bytes) : Cmd PUnit := do
  fill b d
  logWrite b

def beginOp : Cmd PUnit := modify fun s => { s with outstanding := s.outstanding + 1 }

/-- `end_op`; the last one commits. -/
def endOp : Cmd PUnit :=
  modify fun s =>
    { s with
      outstanding := s.outstanding - 1
      lh := if s.outstanding - 1 = 0 then [] else s.lh }

def bzero (b : Nat) : Cmd PUnit := update b fun _ => 0

/-- The rounds of `balloc` from block `b` on, one for each block of the bitmap. -/
def ballocFrom (sb : Superblock) : Nat → Nat → Cmd Nat
  | 0, _ => throw .outOfBlocks
  | fuel + 1, b =>
    if b < sb.size then do
      let d ← bread (sb.bblock b)
      match (List.range' 0 (min 8192 (sb.size - b))).find? fun bi => !bit d bi with
      | some bi =>
        update (sb.bblock b) (setBit d bi)
        bzero (b + bi)
        return b + bi
      | none => ballocFrom sb fuel (b + 8192)
    else throw .outOfBlocks

def balloc : Cmd Nat := do
  let s ← get
  ballocFrom s.sb (s.sb.size / 8192 + 1) 0

def bfree (b : Nat) : Cmd PUnit := do
  let s ← get
  let d ← bread (s.sb.bblock b)
  if bit d (b % 8192) then update (s.sb.bblock b) (clearBit d (b % 8192))
  else throw .freeingFreeBlock

/-!
## Inodes
-/

/-- The table entry. -/
def entry (k : Slot) : Cmd Inode := return (← get).inode k

/-- The table with another entry `k`. -/
def State.adjust (s : State) (k : Slot) (f : Inode → Inode) : State :=
  { s with inode := upd s.inode k (f (s.inode k)) }

def setEntry (k : Slot) (f : Inode → Inode) : Cmd PUnit := modify fun s => s.adjust k f

def setAddr (k : Slot) (i : Fin 13) (b : Nat) : Cmd PUnit :=
  setEntry k fun ip => { ip with addrs := ip.addrs.set i (UInt32.ofNat b) }

/-- The entry in use for an inode. -/
def State.find (s : State) (dev inum : Nat) : Option Slot :=
  (List.finRange NINODE).find? fun k =>
    0 < (s.inode k).ref && (s.inode k).dev == dev && (s.inode k).inum == inum

/-- The first entry that is not in use. -/
def State.empty (s : State) : Option Slot :=
  (List.finRange NINODE).find? fun k => (s.inode k).ref == 0

def iget (dev inum : Nat) : Cmd Slot := do
  let s ← get
  match s.find dev inum with
  | some k =>
    setEntry k fun ip => { ip with ref := ip.ref + 1 }
    return k
  | none =>
    match s.empty with
    | some k =>
      setEntry k fun ip => { ip with dev := dev, inum := inum, ref := 1, valid := false }
      return k
    | none => throw .tableFull

def ialloc (dev : Nat) (type : Int16) : Cmd Slot := do
  let s ← get
  match (List.range' 1 (s.sb.ninodes - 1)).find? fun i => (s.dinode i).type == 0 with
  | some i =>
    let x : Dinode :=
      { type := type, major := 0, minor := 0, nlink := 0, size := 0, addrs := .replicate 13 0 }
    update (s.sb.iblock i) (x.store (s.bufs (s.sb.iblock i)) (i % 16 * 64))
    iget dev i
  | none => throw .noInodes

def iupdate (k : Slot) : Cmd PUnit := do
  let s ← get
  let ip := s.inode k
  let b := s.sb.iblock ip.inum
  update b (ip.toDinode.store (s.bufs b) (ip.inum % 16 * 64))

def idup (k : Slot) : Cmd Slot := do
  setEntry k fun ip => { ip with ref := ip.ref + 1 }
  return k

def acquiresleep (k : Slot) : Cmd PUnit := do
  let ip ← entry k
  if ip.locked then throw .deadlock
  else setEntry k fun ip => { ip with locked := true }

def releasesleep (k : Slot) : Cmd PUnit :=
  setEntry k fun ip => { ip with locked := false }

/-- The inode is read from its block. -/
def iload (k : Slot) : Cmd PUnit := do
  let s ← get
  setEntry k fun ip => { ip with toDinode := s.dinode ip.inum, valid := true }

def ilock (k : Slot) : Cmd PUnit := do
  let ip ← entry k
  if ip.ref < 1 then throw .ilock
  else
    acquiresleep k
    if ip.valid then pure ⟨⟩
    else
      iload k
      let ip ← entry k
      if ip.type = 0 then throw .noType

def iunlock (k : Slot) : Cmd PUnit := do
  let ip ← entry k
  if !ip.locked || ip.ref < 1 then throw .iunlock
  else releasesleep k

/-- `itrunc`'s loop over the direct blocks. -/
def itruncDirect (k : Slot) : Cmd PUnit :=
  forM (List.finRange 12) fun i => do
    let ip ← entry k
    let a := ip.addrs[i.castSucc]
    if a = 0 then pure ⟨⟩
    else
      bfree a.toNat
      setAddr k i.castSucc 0

/-- `itrunc` at the indirect block. -/
def itruncIndirect (k : Slot) : Cmd PUnit := do
  let ip ← entry k
  let a := ip.indirect
  if a = 0 then pure ⟨⟩
  else
    let d ← bread a.toNat
    forM (List.range 256) fun j =>
      if word d (4 * j) 4 = 0 then pure ⟨⟩ else bfree (word d (4 * j) 4)
    bfree a.toNat
    setAddr k 12 0

def itrunc (k : Slot) : Cmd PUnit := do
  itruncDirect k
  itruncIndirect k
  setEntry k fun ip => { ip with size := 0 }
  iupdate k

/-- `iput` at an inode with no links and no other references. -/
def ifree (k : Slot) : Cmd PUnit := do
  acquiresleep k
  itrunc k
  setEntry k fun ip => { ip with type := 0 }
  iupdate k
  setEntry k fun ip => { ip with valid := false }
  releasesleep k

def iput (k : Slot) : Cmd PUnit := do
  let ip ← entry k
  (if ip.ref = 1 ∧ ip.valid ∧ ip.nlink = 0 then ifree k else pure ⟨⟩)
  setEntry k fun ip => { ip with ref := ip.ref - 1 }

def iunlockput (k : Slot) : Cmd PUnit := do
  iunlock k
  iput k

/-!
## Content
-/

/-- `bmap` at one of the entry's own block numbers. -/
def bmapOwn (k : Slot) (i : Fin 13) : Cmd Nat := do
  let ip ← entry k
  if ip.addrs[i] = 0 then
    let b ← balloc
    setAddr k i b
    return b
  else return ip.addrs[i].toNat

def bmap (k : Slot) (bn : Nat) : Cmd Nat := do
  if h : bn < 12 then bmapOwn k ⟨bn, by omega⟩
  else if bn - 12 < 256 then
    let t ← bmapOwn k 12
    let d ← bread t
    if word d (4 * (bn - 12)) 4 = 0 then
      let b ← balloc
      let d ← bread t
      update t (setWord d (4 * (bn - 12)) 4 b)
      return b
    else return word d (4 * (bn - 12)) 4
  else throw .outOfRange

/-- `readi`'s loop: `tot` bytes are done, and `off` is the offset of the next. -/
def readiLoop (k : Slot) (n : Nat) : Nat → Nat → Nat → Dst → Cmd (Int × Dst)
  | 0, tot, _, dst => return (tot, dst)
  | fuel + 1, tot, off, dst =>
    if tot < n then do
      let b ← bmap k (off / 1024)
      let d ← bread b
      let m := min (n - tot) (1024 - off % 1024)
      let r := eitherCopyout dst tot d (off % 1024) m
      if r.2 then readiLoop k n fuel (tot + m) (off + m) r.1
      else return (-1, r.1)
    else return (tot, dst)

/-- `readi`: the value it returns, and the destination after it. -/
def readi (k : Slot) (dst : Dst) (off n : Nat) : Cmd (Int × Dst) := do
  let ip ← entry k
  if ip.size.toNat < off ∨ 2 ^ 32 ≤ off + n then return (0, dst)
  else
    let n := if ip.size.toNat < off + n then ip.size.toNat - off else n
    readiLoop k n n 0 off dst

/-- `writei`'s loop; the bytes that a failing copy has moved stay in the buffer. -/
def writeiLoop (k : Slot) (src : Src) (n : Nat) : Nat → Nat → Nat → Cmd (Nat × Nat)
  | 0, tot, off => return (tot, off)
  | fuel + 1, tot, off =>
    if tot < n then do
      let b ← bmap k (off / 1024)
      let d ← bread b
      let m := min (n - tot) (1024 - off % 1024)
      let r := eitherCopyin d (off % 1024) src tot m
      if r.2 then
        update b r.1
        writeiLoop k src n fuel (tot + m) (off + m)
      else
        fill b r.1
        return (tot, off)
    else return (tot, off)

def writei (k : Slot) (src : Src) (off n : Nat) : Cmd Int := do
  let ip ← entry k
  if ip.size.toNat < off ∨ 2 ^ 32 ≤ off + n then return -1
  else if 268 * 1024 < off + n then return -1
  else
    let r ← writeiLoop k src n n 0 off
    setEntry k fun ip =>
      { ip with size := if ip.size.toNat < r.2 then UInt32.ofNat r.2 else ip.size }
    iupdate k
    return r.1

/-!
## Directories
-/

/-- The entry of directory `k` at offset `off`; the caller panics where there is none. -/
def readDirent (k : Slot) (off : Nat) (panic : Stop) : Cmd Dirent := do
  let r ← readi k (.kernel fun _ => 0) off 16
  match r with
  | (16, .kernel bytes) => return .load bytes
  | _ => throw panic

def writeDirent (k : Slot) (off : Nat) (de : Dirent) (panic : Stop) : Cmd PUnit := do
  let r ← writei k (.kernel de.bytes) off 16
  if r = 16 then pure ⟨⟩ else throw panic

def dirlookupLoop (dp : Slot) (name : Str) : Nat → Nat → Cmd (Option (Slot × Nat))
  | 0, _ => return none
  | fuel + 1, off => do
      let d ← entry dp
      if off < d.size.toNat then
        let de ← readDirent dp off .dirlookupRead
        if de.inum = 0 then dirlookupLoop dp name fuel (off + 16)
        else if namecmp name de.name = 0 then
          let ip ← iget d.dev de.inum
          return some (ip, off)
        else dirlookupLoop dp name fuel (off + 16)
      else return none

/-- `dirlookup`: the entry's inode and offset. -/
def dirlookup (dp : Slot) (name : Str) : Cmd (Option (Slot × Nat)) := do
  let d ← entry dp
  if d.type = T_DIR then dirlookupLoop dp name (d.size.toNat / 16 + 1) 0
  else throw .notDir

/-- The offset of the first free entry, or of the end. -/
def dirlinkLoop (dp : Slot) : Nat → Nat → Cmd Nat
  | 0, off => return off
  | fuel + 1, off => do
      let d ← entry dp
      if off < d.size.toNat then
        let de ← readDirent dp off .dirlinkRead
        if de.inum = 0 then return off else dirlinkLoop dp fuel (off + 16)
      else return off

def dirlink (dp : Slot) (name : Str) (inum : Nat) : Cmd Int := do
  match ← dirlookup dp name with
  | some (ip, _) =>
    iput ip
    return -1
  | none =>
    let d ← entry dp
    let off ← dirlinkLoop dp (d.size.toNat / 16 + 1) 0
    writeDirent dp off { inum := inum % 65536, name := strncpy 14 name } .dirlink
    return 0

/-!
## Paths
-/

/-- `namex` from `ip` on; every element makes the path shorter. -/
def namexLoop (parent : Bool) : Nat → Slot → Str → Cmd (Option (Slot × Str))
  | 0, _, _ => return none
  | fuel + 1, ip, path =>
    match skipelem path with
    | none =>
      if parent then do
        iput ip
        return none
      else return some (ip, [])
    | some (name, rest) => do
        ilock ip
        let d ← entry ip
        if d.type ≠ T_DIR then
          iunlockput ip
          return none
        else if parent ∧ rest = [] then
          iunlock ip
          return some (ip, name)
        else
          match ← dirlookup ip name with
          | none =>
            iunlockput ip
            return none
          | some (next, _) =>
            iunlockput ip
            namexLoop parent fuel next rest

/-- `namex` for a process whose current directory is `cwd`. -/
def namex (cwd : Slot) (path : Str) (parent : Bool) : Cmd (Option (Slot × Str)) := do
  let ip ← (if path.head? = some slash then iget ROOTDEV ROOTINO else idup cwd)
  namexLoop parent (path.length + 1) ip path

def namei (cwd : Slot) (path : Str) : Cmd (Option Slot) := do
  return (← namex cwd path false).map Prod.fst

def nameiparent (cwd : Slot) (path : Str) : Cmd (Option (Slot × Str)) := namex cwd path true

end Xv6.Fs
