import Xv6.Lib.Bytes
import Xv6.Lib.Command

/-!
# The file system's data

Blocks of `BSIZE` = 1024 bytes, inodes with `NDIRECT` = 12 direct blocks and one
indirect block of `NINDIRECT` = 256, 16 inodes to a block (`IPB`), 8192 bits to a
bitmap block (`BPB`), and directory entries of 16 bytes with a name of `DIRSIZ` = 14.
-/

namespace Xv6.Fs

open Lib

/-- Entries of the inode table. -/
abbrev NINODE : Nat := 50

abbrev Slot := Fin NINODE

scoped instance neZero_ninode : NeZero NINODE := ⟨by decide⟩
scoped instance neZero_naddrs : NeZero 13 := ⟨by decide⟩

abbrev ROOTDEV : Nat := 1
abbrev ROOTINO : Nat := 1

abbrev T_DIR : Int16 := 1
abbrev T_FILE : Int16 := 2
abbrev T_DEVICE : Int16 := 3

/-- Why a call does not return: a panic, a pipe or a pointer that is not there, or a lock
that its own caller holds. -/
inductive Stop
  | outOfBlocks        -- "balloc: out of blocks"
  | freeingFreeBlock   -- "freeing free block"
  | outsideOfTrans     -- "log_write outside of trans"
  | noInodes           -- "ialloc: no inodes"
  | tableFull          -- "iget: no inodes"
  | ilock              -- "ilock"
  | noType             -- "ilock: no type"
  | iunlock            -- "iunlock"
  | outOfRange         -- "bmap: out of range"
  | notDir             -- "dirlookup not DIR"
  | dirlookupRead      -- "dirlookup read"
  | dirlinkRead        -- "dirlink read"
  | dirlink            -- "dirlink"
  | isdirempty         -- "isdirempty: readi"
  | unlinkNlink        -- "unlink: nlink < 1"
  | unlinkWritei       -- "unlink: writei"
  | createDots         -- "create dots"
  | createDirlink      -- "create: dirlink"
  | filedup            -- "filedup"
  | fileclose          -- "fileclose"
  | fileread           -- "fileread"
  | initExiting        -- "init exiting"
  | freedPipe
  | nullPointer
  | deadlock
  deriving DecidableEq, Repr

/-- The reasons `fs.c` and the calls on it may stop for, as opposed to the file table. -/
def Stop.ofFs : Stop → Bool
  | filedup => false
  | fileclose => false
  | fileread => false
  | initExiting => false
  | freedPipe => false
  | nullPointer => false
  | _ => true

/-- What the file system uses of the super block. -/
structure Superblock where
  size : Nat
  ninodes : Nat
  inodestart : Nat
  bmapstart : Nat

/-- The block that holds inode `i`. -/
def Superblock.iblock (sb : Superblock) (i : Nat) : Nat := i / 16 + sb.inodestart

/-- The block that holds the bit of block `b`. -/
def Superblock.bblock (sb : Superblock) (b : Nat) : Nat := b / 8192 + sb.bmapstart

structure Dinode where
  type : Int16
  major : Int16
  minor : Int16
  nlink : Int16
  size : UInt32
  addrs : Vector UInt32 13

@[ext] structure Inode extends Dinode where
  dev : Nat
  inum : Nat
  ref : Int
  locked : Bool
  valid : Bool

def short (v : Nat) : Int16 := ⟨UInt16.ofNat v⟩

/-- The inode in the 64 bytes from `o` on. -/
def Dinode.load (d : Bytes) (o : Nat) : Dinode where
  type := short (word d o 2)
  major := short (word d (o + 2) 2)
  minor := short (word d (o + 4) 2)
  nlink := short (word d (o + 6) 2)
  size := UInt32.ofNat (word d (o + 8) 4)
  addrs := .ofFn fun k => UInt32.ofNat (word d (o + 12 + 4 * k.val) 4)

theorem direct_lt {j : Nat} (h : j < 12) : j < 13 := Nat.lt_succ_of_lt h

theorem place_lt (p : Fin 13) : p.val < 13 := p.isLt

/-- `addrs[NDIRECT]`. -/
abbrev Dinode.indirect (d : Dinode) : UInt32 := d.addrs[12]

/-- The 64 bytes of an inode. -/
def Dinode.bytes (x : Dinode) : Bytes := fun j =>
  if j < 2 then byteOf x.type.toUInt16.toNat j
  else if j < 4 then byteOf x.major.toUInt16.toNat (j - 2)
  else if j < 6 then byteOf x.minor.toUInt16.toNat (j - 4)
  else if j < 8 then byteOf x.nlink.toUInt16.toNat (j - 6)
  else if j < 12 then byteOf x.size.toNat (j - 8)
  else byteOf x.addrs[Fin.ofNat 13 ((j - 12) / 4)].toNat ((j - 12) % 4)

def Dinode.store (x : Dinode) (d : Bytes) (o : Nat) : Bytes := blit d o 64 x.bytes

/-- The file system: the buffers, what of them has been logged, the blocks in the log,
and the inode table.  `log_write`'s bound on the log is treated with the log. -/
structure State where
  sb : Superblock
  bufs : Nat → Bytes
  disk : Nat → Bytes
  outstanding : Nat
  lh : List Nat
  inode : Slot → Inode

abbrev Cmd := Lib.Cmd Stop State

/-- Inode `i` as its block has it. -/
def State.dinode (s : State) (i : Nat) : Dinode := Dinode.load (s.bufs (s.sb.iblock i)) (i % 16 * 64)

/-!
## User memory
-/

/-- The pages a process may access, by page number. -/
abbrev UserMem := Nat → Option Bytes

/-- `copyin`: the buffer after it, and whether all bytes were mapped. -/
def copyin (mem : UserMem) (d : Bytes) : Nat → Nat → Nat → Nat → Bytes × Bool
  | 0, _, _, _ => (d, true)
  | fuel + 1, dst, srcva, len =>
    if len = 0 then (d, true)
    else
      match mem (srcva / 4096) with
      | none => (d, false)
      | some page =>
        let n := min (4096 - srcva % 4096) len
        copyin mem (blit d dst n fun j => page (srcva % 4096 + j)) fuel (dst + n)
          ((srcva / 4096 + 1) * 4096) (len - n)

/-- `copyout`: the memory after it, and whether all bytes were mapped. -/
def copyout (src : Bytes) (mem : UserMem) : Nat → Nat → Nat → Nat → UserMem × Bool
  | 0, _, _, _ => (mem, true)
  | fuel + 1, o, dstva, len =>
    if len = 0 then (mem, true)
    else
      match mem (dstva / 4096) with
      | none => (mem, false)
      | some page =>
        let n := min (4096 - dstva % 4096) len
        let page := blit page (dstva % 4096) n fun j => src (o + j)
        copyout src (upd mem (dstva / 4096) (some page)) fuel (o + n)
          ((dstva / 4096 + 1) * 4096) (len - n)

/-- Where `writei` takes its bytes from. -/
inductive Src
  | user (mem : UserMem) (addr : Nat)
  | kernel (bytes : Bytes)

/-- Where `readi` puts its bytes. -/
inductive Dst
  | user (mem : UserMem) (addr : Nat)
  | kernel (bytes : Bytes)

/-- Bytes `tot` to `tot + m` of the source go to offset `o` of the buffer. -/
def eitherCopyin (d : Bytes) (o : Nat) (src : Src) (tot m : Nat) : Bytes × Bool :=
  match src with
  | .user mem addr => copyin mem d (m + 1) o (addr + tot) m
  | .kernel bytes => (blit d o m fun j => bytes (tot + j), true)

/-- `m` bytes of the buffer from offset `o` on go to byte `tot` of the destination. -/
def eitherCopyout (dst : Dst) (tot : Nat) (d : Bytes) (o m : Nat) : Dst × Bool :=
  match dst with
  | .user mem addr =>
    let r := copyout d mem (m + 1) o (addr + tot) m
    (.user r.1 addr, r.2)
  | .kernel bytes => (.kernel (blit bytes tot m fun j => d (o + j)), true)

/-!
## Strings
-/

abbrev Str := List UInt8

/-- `strncmp`, with the bytes after the end of a list read as its NUL. -/
def strncmp : Nat → Str → Str → Int
  | 0, _, _ => 0
  | n + 1, p, q =>
    if p.headD 0 ≠ 0 ∧ p.headD 0 = q.headD 0 then strncmp n p.tail q.tail
    else (p.headD 0).toNat - (q.headD 0).toNat

/-- The `n` bytes that `strncpy` stores. -/
def strncpy : Nat → Str → Str
  | 0, _ => []
  | n + 1, c :: t => if c = 0 then List.replicate (n + 1) 0 else c :: strncpy n t
  | n + 1, [] => List.replicate (n + 1) 0

def namecmp (s t : Str) : Int := strncmp 14 s t

abbrev slash : UInt8 := 47
abbrev dot : Str := [46]
abbrev dotdot : Str := [46, 46]

/-- `skipelem`: the next element of the path, cut to `DIRSIZ` bytes, and what follows. -/
def skipelem (path : Str) : Option (Str × Str) :=
  match path.dropWhile (· == slash) with
  | [] => none
  | c :: rest =>
    some (((c :: rest).takeWhile (· != slash)).take 14,
      ((c :: rest).dropWhile (· != slash)).dropWhile (· == slash))

structure Dirent where
  inum : Nat
  name : Str
  deriving DecidableEq, Repr

/-- The entry in the first 16 bytes. -/
def Dirent.load (d : Bytes) : Dirent where
  inum := word d 0 2
  name := (List.range' 2 14).map d

def Dirent.bytes (de : Dirent) : Bytes :=
  fun i => if i < 2 then byteOf de.inum i else de.name.getD (i - 2) 0

end Xv6.Fs
