import Xv6.Fs.Types

/-!
# `mkfs`

The program that writes a file system image: the image file as blocks, and the counters
of the next free inode and block.  The host is little-endian, so `xint` and `xshort`
change nothing.  A host file is its name on the command line and the pieces in which
`read` returns it.
-/

namespace Xv6.Mkfs

open Lib Fs

abbrev NINODES : Nat := 200
abbrev FSSIZE : Nat := 1000
abbrev MAXFILE : Nat := 268

/-- `2 + nlog + ninodeblocks + nbitmap`. -/
abbrev nmeta : Nat := 46

/-- What the super block says of the layout. -/
def sb : Superblock where
  size := FSSIZE
  ninodes := NINODES
  inodestart := 32
  bmapstart := 45

/-- Why the program stops: an assertion, or a block that is not in the image file. -/
inductive Fail
  | assertion
  | read
  deriving DecidableEq, Repr

/-- `length` is the number of blocks of the image file. -/
structure State where
  img : Nat → Bytes
  length : Nat
  freeinode : Nat
  freeblock : Nat

abbrev Cmd := Lib.Cmd Fail State

def wsect (sec : Nat) (buf : Bytes) : Cmd PUnit :=
  modify fun s => { s with img := upd s.img sec buf, length := max s.length (sec + 1) }

def rsect (sec : Nat) : Cmd Bytes := do
  let s ← get
  if sec < s.length then return s.img sec else throw .read

def winode (inum : Nat) (ip : Dinode) : Cmd PUnit := do
  let buf ← rsect (sb.iblock inum)
  wsect (sb.iblock inum) (ip.store buf (inum % 16 * 64))

def rinode (inum : Nat) : Cmd Dinode := do
  let buf ← rsect (sb.iblock inum)
  return .load buf (inum % 16 * 64)

/-- A new inode. -/
def newNode (type : Int16) : Dinode where
  type := type
  major := 0
  minor := 0
  nlink := 1
  size := 0
  addrs := .replicate 13 0

def ialloc (type : Int16) : Cmd Nat := do
  let s ← get
  set { s with freeinode := s.freeinode + 1 }
  winode s.freeinode (newNode type)
  return s.freeinode

/-- `freeblock++`. -/
def nextBlock : Cmd Nat := do
  let s ← get
  set { s with freeblock := s.freeblock + 1 }
  return s.freeblock

def setAddr (din : Dinode) (i : Fin 13) (b : Nat) : Dinode :=
  { din with addrs := din.addrs.set i (UInt32.ofNat b) (place_lt i) }

/-- Block number `i` of the inode itself, which is allocated if there is none. -/
def ownBlock (din : Dinode) (i : Fin 13) : Cmd (Dinode × Nat) := do
  if getElem din.addrs i (place_lt i) = 0 then
    let b ← nextBlock
    return (setAddr din i b, b)
  else return (din, (getElem din.addrs i (place_lt i)).toNat)

/-- The block for block number `fbn` of the file. -/
def fileBlock (din : Dinode) (fbn : Nat) : Cmd (Dinode × Nat) := do
  if h : fbn < 12 then ownBlock din ⟨fbn, direct_lt h⟩
  else
    let (din, a) ← ownBlock din 12
    let indirect ← rsect a
    if word indirect (4 * (fbn - 12)) 4 = 0 then
      let b ← nextBlock
      wsect a (setWord indirect (4 * (fbn - 12)) 4 b)
      return (din, b)
    else return (din, word indirect (4 * (fbn - 12)) 4)

/-- The loop of `iappend`: the inode after it, and the offset. -/
def iappendLoop : Nat → Dinode → Nat → List UInt8 → Cmd (Dinode × Nat)
  | 0, din, off, _ => return (din, off)
  | fuel + 1, din, off, p =>
    if p = [] then return (din, off)
    else if MAXFILE ≤ off / 1024 then throw .assertion
    else do
      let (din, x) ← fileBlock din (off / 1024)
      let n1 := min p.length ((off / 1024 + 1) * 1024 - off)
      let buf ← rsect x
      wsect x (blit buf (off - off / 1024 * 1024) n1 fun j => p.getD j 0)
      iappendLoop fuel din (off + n1) (p.drop n1)

def iappend (inum : Nat) (p : List UInt8) : Cmd PUnit := do
  let din ← rinode inum
  let (din, off) ← iappendLoop p.length din din.size.toNat p
  winode inum { din with size := UInt32.ofNat off }

/-- The bitmap: the first `used` blocks are in use. -/
def balloc (used : Nat) : Cmd PUnit := do
  if 8192 ≤ used then throw .assertion
  else wsect sb.bmapstart ((List.range used).foldl setBit fun _ => 0)

/-- The 16 bytes of a directory entry. -/
def entryOf (inum : Nat) (name : Str) : List UInt8 :=
  (List.range 16).map (Dirent.bytes { inum := inum, name := strncpy 14 name })

structure HostFile where
  name : Str
  pieces : List (List UInt8)

def HostFile.bytes (x : HostFile) : List UInt8 := x.pieces.flatten

def userDir : Str := [117, 115, 101, 114, 47]
def underscore : UInt8 := 95

/-- The name without `user/`. -/
def shortname (name : Str) : Str := if userDir.isPrefixOf name then name.drop 5 else name

/-- The name in the file system. -/
def fsName (name : Str) : Str :=
  if (shortname name).headD 0 = underscore then (shortname name).drop 1 else shortname name

def addFile (rootino : Nat) (x : HostFile) : Cmd PUnit := do
  if slash ∈ shortname x.name then throw .assertion
  else
    let inum ← ialloc T_FILE
    iappend rootino (entryOf inum (fsName x.name))
    forM x.pieces fun p => iappend inum p

/-- The super block. -/
def superBytes : Bytes :=
  let d := setWord (fun _ => 0) 0 4 0x10203040
  let d := setWord d 4 4 FSSIZE
  let d := setWord d 8 4 (FSSIZE - nmeta)
  let d := setWord d 12 4 NINODES
  let d := setWord d 16 4 30
  let d := setWord d 20 4 2
  let d := setWord d 24 4 32
  setWord d 28 4 45

/-- The size of the root directory, rounded. -/
def fixRoot (rootino : Nat) : Cmd PUnit := do
  let din ← rinode rootino
  winode rootino { din with size := UInt32.ofNat ((din.size.toNat / 1024 + 1) * 1024) }

/-- An image file of zeros. -/
def start : State where
  img := fun _ _ => 0
  length := FSSIZE
  freeinode := 1
  freeblock := nmeta

def main (files : List HostFile) : Cmd PUnit := do
  wsect 1 superBytes
  let rootino ← ialloc T_DIR
  if rootino ≠ ROOTINO then throw .assertion
  else
    iappend rootino (entryOf rootino dot)
    iappend rootino (entryOf rootino dotdot)
    forM files (addFile rootino)
    fixRoot rootino
    let s ← get
    balloc s.freeblock

/-- The image that `mkfs` writes. -/
def image (files : List HostFile) : Except Fail (Nat → Bytes) :=
  match main files start with
  | .ok (_, s) => .ok s.img
  | .error e => .error e

end Xv6.Mkfs
