import Xv6.Fs.Code

/-!
# `file.c`, `sysfile.c` and the files of a process

The file table, the descriptors and current directory of each process, the ends of
each pipe, and the system calls on them.  A call takes as further arguments what the
rest of the kernel decides: the page that `kalloc` returns, whether `copyout` or the
copy of the memory succeeds, and, for `exec`, what it reads of the file.
-/

namespace Xv6.Files

open Lib Fs

abbrev NFILE : Nat := 100
abbrev NOFILE : Nat := 16
abbrev NPROC : Nat := 64

scoped instance neZero_nproc : NeZero NPROC := ⟨by decide⟩

inductive FdType
  | none
  | pipe
  | inode
  | device
  deriving DecidableEq, Repr

structure File where
  type : FdType
  ref : Int
  readable : Bool
  writable : Bool
  pipe : Nat
  ip : Slot
  off : Nat
  major : Int16

/-- What `pipeclose` uses of a `struct pipe`. -/
structure Ends where
  readopen : Bool
  writeopen : Bool
  deriving DecidableEq, Repr

inductive PState
  | unused
  | live
  | zombie
  deriving DecidableEq, Repr

structure Proc where
  state : PState
  ofile : Fin NOFILE → Option (Fin NFILE)
  cwd : Option Slot

/-- `pipe` has the pipes by their pages; `taken` and `given` count how often a page was
made a pipe and given back. -/
structure Kern where
  fs : Fs.State
  file : Fin NFILE → File
  proc : Fin NPROC → Proc
  pipe : Nat → Option Ends
  taken : Nat → Nat
  given : Nat → Nat

abbrev Cmd := Lib.Cmd Stop Kern

/-- A command of the file system. -/
def onFs {α : Type} (c : Fs.Cmd α) : Cmd α := fun s =>
  match c s.fs with
  | .ok (a, t) => .ok (a, { s with fs := t })
  | .error e => .error e

/-- Another file `f`. -/
def Kern.adjustFile (s : Kern) (f : Fin NFILE) (g : File → File) : Kern :=
  { s with file := upd s.file f (g (s.file f)) }

/-- Another process `p`. -/
def Kern.adjustProc (s : Kern) (p : Fin NPROC) (g : Proc → Proc) : Kern :=
  { s with proc := upd s.proc p (g (s.proc p)) }

def setFile (f : Fin NFILE) (g : File → File) : Cmd PUnit := modify fun s => s.adjustFile f g

def setProc (p : Fin NPROC) (g : Proc → Proc) : Cmd PUnit := modify fun s => s.adjustProc p g

def setFd (p : Fin NPROC) (fd : Fin NOFILE) (f : Option (Fin NFILE)) : Cmd PUnit :=
  setProc p fun x => { x with ofile := upd x.ofile fd f }

def setPipe (pi : Nat) (e : Option Ends) : Cmd PUnit :=
  modify fun s => { s with pipe := upd s.pipe pi e }

/-!
## `file.c` and `pipe.c`
-/

def filealloc : Cmd (Option (Fin NFILE)) := do
  let s ← get
  match (List.finRange NFILE).find? fun f => (s.file f).ref == 0 with
  | some f =>
    setFile f fun x => { x with ref := 1 }
    return some f
  | none => return none

def filedup (f : Fin NFILE) : Cmd PUnit := do
  let x := (← get).file f
  if x.ref < 1 then throw .filedup
  else setFile f fun x => { x with ref := x.ref + 1 }

def kfree (pi : Nat) : Cmd PUnit := do
  setPipe pi none
  modify fun s => { s with given := upd s.given pi (s.given pi + 1) }

/-- The pipe after one end is closed. -/
def Ends.close (e : Ends) (writable : Bool) : Ends :=
  if writable then { e with writeopen := false } else { e with readopen := false }

def pipeclose (pi : Nat) (writable : Bool) : Cmd PUnit := do
  match (← get).pipe pi with
  | none => throw .freedPipe
  | some e =>
    let e := e.close writable
    if e.readopen = false ∧ e.writeopen = false then kfree pi
    else setPipe pi (some e)

/-- `iput` in an operation of its own. -/
def iputOp (k : Slot) : Cmd PUnit :=
  onFs do
    beginOp
    iput k
    endOp

def fileclose (f : Fin NFILE) : Cmd PUnit := do
  let ff := (← get).file f
  if ff.ref < 1 then throw .fileclose
  else if 0 < ff.ref - 1 then setFile f fun x => { x with ref := x.ref - 1 }
  else
    setFile f fun x => { x with ref := 0, type := .none }
    match ff.type with
    | .pipe => pipeclose ff.pipe ff.writable
    | .inode => iputOp ff.ip
    | .device => iputOp ff.ip
    | .none => pure ⟨⟩

/-- The page that `kalloc` returns becomes a pipe. -/
def kalloc (page : Option Nat) : Cmd (Option Nat) := do
  match page with
  | none => return none
  | some pi =>
    modify fun s =>
      { s with
        pipe := upd s.pipe pi (some ⟨true, true⟩)
        taken := upd s.taken pi (s.taken pi + 1) }
    return some pi

/-- `pipealloc`: the two ends. -/
def pipealloc (page : Option Nat) : Cmd (Option (Fin NFILE × Fin NFILE)) := do
  match ← filealloc with
  | none => return none
  | some f0 =>
    match ← filealloc with
    | none =>
      fileclose f0
      return none
    | some f1 =>
      match ← kalloc page with
      | none =>
        fileclose f0
        fileclose f1
        return none
      | some pi =>
        setFile f0 fun x =>
          { x with type := .pipe, readable := true, writable := false, pipe := pi }
        setFile f1 fun x =>
          { x with type := .pipe, readable := false, writable := true, pipe := pi }
        return some (f0, f1)

/-!
## `sysfile.c`
-/

/-- `argfd`: the descriptor and its file. -/
def argfd (p : Fin NPROC) (fd : Int) : Cmd (Option (Fin NOFILE × Fin NFILE)) := do
  let s ← get
  if h : 0 ≤ fd ∧ fd < 16 then
    let i : Fin NOFILE := ⟨fd.toNat, by change _ < 16; omega⟩
    return ((s.proc p).ofile i).map fun f => (i, f)
  else return none

def fdalloc (p : Fin NPROC) (f : Fin NFILE) : Cmd (Option (Fin NOFILE)) := do
  let s ← get
  match (List.finRange NOFILE).find? fun fd => (s.proc p).ofile fd == none with
  | some fd =>
    setFd p fd (some f)
    return some fd
  | none => return none

def sysDup (p : Fin NPROC) (fd : Int) : Cmd Int := do
  match ← argfd p fd with
  | none => return -1
  | some (_, f) =>
    match ← fdalloc p f with
    | none => return -1
    | some fd =>
      filedup f
      return fd.val

def sysClose (p : Fin NPROC) (fd : Int) : Cmd Int := do
  match ← argfd p fd with
  | none => return -1
  | some (fd, f) =>
    setFd p fd none
    fileclose f
    return 0

/-- `sys_pipe`; `out0` and `out1` tell whether the two calls of `copyout` succeed. -/
def sysPipe (p : Fin NPROC) (page : Option Nat) (out0 out1 : Bool) : Cmd Int := do
  match ← pipealloc page with
  | none => return -1
  | some (rf, wf) =>
    match ← fdalloc p rf with
    | none =>
      fileclose rf
      fileclose wf
      return -1
    | some fd0 =>
      match ← fdalloc p wf with
      | none =>
        setFd p fd0 none
        fileclose rf
        fileclose wf
        return -1
      | some fd1 =>
        if out0 && out1 then return 0
        else
          setFd p fd0 none
          setFd p fd1 none
          fileclose rf
          fileclose wf
          return -1

/-- `ip->nlink += n` and `iupdate(ip)`. -/
def addLink (k : Slot) (n : Int16) : Fs.Cmd PUnit := do
  setEntry k fun x => { x with nlink := x.nlink + n }
  iupdate k

/-- `sys_link` from `bad` on. -/
def linkBad (ip : Slot) : Fs.Cmd Int := do
  ilock ip
  addLink ip (-1)
  iunlockput ip
  endOp
  return -1

/-- `sys_link` once the parent of the new name is locked. -/
def linkIn (ip dp : Slot) (name : Str) : Fs.Cmd Int := do
  let d ← entry dp
  let x ← entry ip
  if d.dev ≠ x.dev then
    iunlockput dp
    linkBad ip
  else
    let r ← dirlink dp name x.inum
    if r < 0 then
      iunlockput dp
      linkBad ip
    else
      iunlockput dp
      iput ip
      endOp
      return 0

def link (cwd : Slot) (old new : Str) : Fs.Cmd Int := do
  beginOp
  match ← namei cwd old with
  | none =>
    endOp
    return -1
  | some ip =>
    ilock ip
    let x ← entry ip
    if x.type = T_DIR then
      iunlockput ip
      endOp
      return -1
    else
      addLink ip 1
      iunlock ip
      match ← nameiparent cwd new with
      | none => linkBad ip
      | some (dp, name) =>
        ilock dp
        linkIn ip dp name

/-- `isdirempty`'s loop. -/
def isdiremptyLoop (dp : Slot) : Nat → Nat → Fs.Cmd Bool
  | 0, _ => return true
  | fuel + 1, off => do
      let d ← entry dp
      if off < d.size.toNat then
        let de ← readDirent dp off .isdirempty
        if de.inum ≠ 0 then return false else isdiremptyLoop dp fuel (off + 16)
      else return true

def isdirempty (dp : Slot) : Fs.Cmd Bool := do
  let d ← entry dp
  isdiremptyLoop dp (d.size.toNat / 16 + 1) 32

/-- `sys_unlink` from `bad` on. -/
def unlinkBad (dp : Slot) : Fs.Cmd Int := do
  iunlockput dp
  endOp
  return -1

/-- A directory that is not empty. -/
def inUse (ip : Slot) : Fs.Cmd Bool := do
  let x ← entry ip
  if x.type = T_DIR then
    let r ← isdirempty ip
    return !r
  else return false

/-- `sys_unlink` once it has the entry at `off` and both inodes are locked. -/
def unlinkAt (dp ip : Slot) (off : Nat) : Fs.Cmd Int := do
  let x ← entry ip
  writeDirent dp off { inum := 0, name := List.replicate 14 0 } .unlinkWritei
  (if x.type = T_DIR then addLink dp (-1) else pure ⟨⟩)
  iunlockput dp
  addLink ip (-1)
  iunlockput ip
  endOp
  return 0

def unlink (cwd : Slot) (path : Str) : Fs.Cmd Int := do
  beginOp
  match ← nameiparent cwd path with
  | none =>
    endOp
    return -1
  | some (dp, name) =>
    ilock dp
    if namecmp name dot = 0 ∨ namecmp name dotdot = 0 then unlinkBad dp
    else
      match ← dirlookup dp name with
      | none => unlinkBad dp
      | some (ip, off) =>
        ilock ip
        let x ← entry ip
        if x.nlink < 1 then throw .unlinkNlink
        else
          let busy ← inUse ip
          if busy then
            iunlockput ip
            unlinkBad dp
          else unlinkAt dp ip off

/-- The first two entries of a new directory. -/
def createDots (dp ip : Slot) : Fs.Cmd PUnit := do
  addLink dp 1
  let x ← entry ip
  let r ← dirlink ip dot x.inum
  if r < 0 then throw .createDots
  else
    let d ← entry dp
    let r ← dirlink ip dotdot d.inum
    if r < 0 then throw .createDots else pure ⟨⟩

/-- `create` once `dp` is locked and has no such name. -/
def createNew (dp : Slot) (name : Str) (type major minor : Int16) : Fs.Cmd Slot := do
  let d ← entry dp
  let ip ← ialloc d.dev type
  ilock ip
  setEntry ip fun x => { x with major := major, minor := minor, nlink := 1 }
  iupdate ip
  (if type = T_DIR then createDots dp ip else pure ⟨⟩)
  let x ← entry ip
  let r ← dirlink dp name x.inum
  if r < 0 then throw .createDirlink
  else
    iunlockput dp
    return ip

/-- `create`: the inode, locked. -/
def create (cwd : Slot) (path : Str) (type major minor : Int16) : Fs.Cmd (Option Slot) := do
  match ← nameiparent cwd path with
  | none => return none
  | some (dp, name) =>
    ilock dp
    match ← dirlookup dp name with
    | some (ip, _) =>
      iunlockput dp
      ilock ip
      let x ← entry ip
      if type = T_FILE ∧ (x.type = T_FILE ∨ x.type = T_DEVICE) then return some ip
      else
        iunlockput ip
        return none
    | none =>
      let ip ← createNew dp name type major minor
      return some ip

abbrev O_WRONLY : UInt32 := 1
abbrev O_RDWR : UInt32 := 2
abbrev O_CREATE : UInt32 := 0x200
abbrev O_TRUNC : UInt32 := 0x400

/-- The first part of `sys_open`: the inode, locked. -/
def openInode (cwd : Slot) (path : Str) (omode : UInt32) : Fs.Cmd (Option Slot) := do
  if omode &&& O_CREATE ≠ 0 then create cwd path T_FILE 0 0
  else
    match ← namei cwd path with
    | none => return none
    | some ip =>
      ilock ip
      let x ← entry ip
      if x.type = T_DIR ∧ omode ≠ 0 then
        iunlockput ip
        return none
      else return some ip

/-- `sys_open` when it gives up the inode. -/
def openBad (ip : Slot) : Cmd Int :=
  onFs do
    iunlockput ip
    endOp
    return -1

/-- The file that `sys_open` makes of an inode. -/
def opened (ip : Slot) (x : Inode) (omode : UInt32) (f : File) : File :=
  let f :=
    if x.type = T_DEVICE then { f with type := .device, major := x.major }
    else { f with type := .inode, off := 0 }
  { f with
    ip := ip
    readable := omode &&& O_WRONLY = 0
    writable := omode &&& O_WRONLY ≠ 0 || omode &&& O_RDWR ≠ 0 }

/-- `sys_open` once it has the inode. -/
def openFile (p : Fin NPROC) (ip : Slot) (omode : UInt32) : Cmd Int := do
  let x ← onFs (entry ip)
  if x.type = T_DEVICE ∧ (x.major < 0 ∨ 10 ≤ x.major) then openBad ip
  else
    match ← filealloc with
    | none => openBad ip
    | some f =>
      match ← fdalloc p f with
      | none =>
        fileclose f
        openBad ip
      | some fd =>
        setFile f (opened ip x omode)
        onFs do
          (if omode &&& O_TRUNC ≠ 0 ∧ x.type = T_FILE then itrunc ip else pure ⟨⟩)
          iunlock ip
          endOp
        return fd.val

/-- The current directory of process `p`. -/
def cwdOf (p : Fin NPROC) : Cmd Slot := do
  match ((← get).proc p).cwd with
  | some k => return k
  | none => throw .nullPointer

def sysOpen (p : Fin NPROC) (path : Str) (omode : UInt32) : Cmd Int := do
  let cwd ← cwdOf p
  onFs beginOp
  match ← onFs (openInode cwd path omode) with
  | none =>
    onFs endOp
    return -1
  | some ip => openFile p ip omode

def sysLink (p : Fin NPROC) (old new : Str) : Cmd Int := do
  let cwd ← cwdOf p
  onFs (link cwd old new)

def sysUnlink (p : Fin NPROC) (path : Str) : Cmd Int := do
  let cwd ← cwdOf p
  onFs (unlink cwd path)

/-- `sys_mkdir` and `sys_mknod`. -/
def make (cwd : Slot) (path : Str) (type major minor : Int16) : Fs.Cmd Int := do
  beginOp
  match ← create cwd path type major minor with
  | none =>
    endOp
    return -1
  | some ip =>
    iunlockput ip
    endOp
    return 0

def sysMkdir (p : Fin NPROC) (path : Str) : Cmd Int := do
  let cwd ← cwdOf p
  onFs (make cwd path T_DIR 0 0)

def sysMknod (p : Fin NPROC) (path : Str) (major minor : Int16) : Cmd Int := do
  let cwd ← cwdOf p
  onFs (make cwd path T_DEVICE major minor)

/-- `sys_chdir` up to the change of `p->cwd`: the new directory. -/
def chdir (cwd : Slot) (path : Str) : Fs.Cmd (Option Slot) := do
  beginOp
  match ← namei cwd path with
  | none =>
    endOp
    return none
  | some ip =>
    ilock ip
    let x ← entry ip
    if x.type ≠ T_DIR then
      iunlockput ip
      endOp
      return none
    else
      iunlock ip
      iput cwd
      endOp
      return some ip

def sysChdir (p : Fin NPROC) (path : Str) : Cmd Int := do
  let cwd ← cwdOf p
  match ← onFs (chdir cwd path) with
  | none => return -1
  | some ip =>
    setProc p fun x => { x with cwd := some ip }
    return 0

/-- What `exec` does with the file: it reads some parts of it. -/
def execFile (cwd : Slot) (path : Str) (reads : List (Nat × Nat)) : Fs.Cmd PUnit := do
  beginOp
  match ← namei cwd path with
  | none => endOp
  | some ip =>
    ilock ip
    forM reads fun r => do
      let _ ← readi ip (.kernel fun _ => 0) r.1 r.2
    iunlockput ip
    endOp

def sysExec (p : Fin NPROC) (path : Str) (reads : List (Nat × Nat)) : Cmd PUnit := do
  let cwd ← cwdOf p
  onFs (execFile cwd path reads)

/-!
## Processes
-/

/-- The files and the current directory of `fork`; `mem` tells whether the child gets
its memory. -/
def fork (p : Fin NPROC) (mem : Bool) : Cmd Int := do
  let s ← get
  match (List.finRange NPROC).find? fun q => (s.proc q).state == .unused with
  | none => return -1
  | some q =>
    if !mem then return -1
    else
      forM (List.finRange NOFILE) fun fd => do
        let s ← get
        match (s.proc p).ofile fd with
        | none => pure ⟨⟩
        | some f =>
          filedup f
          setFd q fd (some f)
      let cwd ← cwdOf p
      let _ ← onFs (idup cwd)
      setProc q fun x => { x with cwd := some cwd, state := .live }
      return 0

/-- `exit`, for a process other than the first. -/
def exit (p : Fin NPROC) : Cmd PUnit := do
  if p = 0 then throw .initExiting
  else
    forM (List.finRange NOFILE) fun fd => do
      let s ← get
      match (s.proc p).ofile fd with
      | none => pure ⟨⟩
      | some f =>
        fileclose f
        setFd p fd none
    let cwd ← cwdOf p
    iputOp cwd
    setProc p fun x => { x with cwd := none, state := .zombie }

/-- `wait` finds the zombie. -/
def reap (q : Fin NPROC) : Cmd PUnit := do
  let s ← get
  if (s.proc q).state = .zombie then setProc q fun x => { x with state := .unused }
  else pure ⟨⟩

/-!
## Calls
-/

/-- A call of process `p`.  A path is `none` where `argstr` fails. -/
inductive Call
  | open (path : Option Str) (omode : UInt32)
  | link (old new : Option Str)
  | unlink (path : Option Str)
  | mkdir (path : Option Str)
  | mknod (path : Option Str) (major minor : Int16)
  | chdir (path : Option Str)
  | exec (path : Option Str) (reads : List (Nat × Nat))
  | dup (fd : Int)
  | close (fd : Int)
  | pipe (page : Option Nat) (out0 out1 : Bool)
  | fork (mem : Bool)
  | exit
  | wait (q : Fin NPROC)

/-- A call with a path argument. -/
def withPath (path : Option Str) (f : Str → Cmd PUnit) : Cmd PUnit :=
  match path with
  | none => pure ⟨⟩
  | some path => f path

/-- A call whose result goes to the user. -/
def drop (c : Cmd Int) : Cmd PUnit := do
  let _ ← c
  pure ⟨⟩

def call (p : Fin NPROC) : Call → Cmd PUnit
  | .open path omode => withPath path fun path => drop (sysOpen p path omode)
  | .link old new => withPath old fun old => withPath new fun new => drop (sysLink p old new)
  | .unlink path => withPath path fun path => drop (sysUnlink p path)
  | .mkdir path => withPath path fun path => drop (sysMkdir p path)
  | .mknod path major minor => withPath path fun path => drop (sysMknod p path major minor)
  | .chdir path => withPath path fun path => drop (sysChdir p path)
  | .exec path reads => withPath path fun path => sysExec p path reads
  | .dup fd => drop (sysDup p fd)
  | .close fd => drop (sysClose p fd)
  | .pipe page out0 out1 => drop (sysPipe p page out0 out1)
  | .fork mem => drop (fork p mem)
  | .exit => exit p
  | .wait q => reap q

/-- What `kalloc` returns is not in use as a pipe. -/
def Call.fresh (s : Kern) : Call → Bool
  | .pipe (some pi) _ _ => (s.pipe pi).isNone
  | _ => true

/-- A live process makes a call, which returns. -/
inductive Step (s : Kern) : Fin NPROC × Call → Kern → Prop
  | call {p : Fin NPROC} {c : Call} {t : Kern} : (s.proc p).state = .live → c.fresh s = true →
      call p c s = .ok (⟨⟩, t) → Step s (p, c) t

def Kern.next (s : Kern) (e : Fin NPROC × Call) : Option (Kern × (Fin NPROC × Call)) :=
  if (s.proc e.1).state = .live ∧ e.2.fresh s = true then
    match call e.1 e.2 s with
    | .ok (_, t) => some (t, e)
    | .error _ => none
  else none

theorem Kern.next_step (s : Kern) (e : Fin NPROC × Call) (t : Kern) (e' : Fin NPROC × Call)
    (h : s.next e = some (t, e')) : Step s e' t := by
  unfold Kern.next at h
  split at h
  next hcan =>
    split at h
    next hcall =>
      cases h
      exact .call hcan.1 hcan.2 hcall
    next => cases h
  next => cases h

/-- The kernel when the first process starts: no files, no pipes, one process. -/
structure Booted (s : Kern) : Prop where
  file : ∀ f, (s.file f).ref = 0 ∧ (s.file f).type = .none
  ofile : ∀ p fd, (s.proc p).ofile fd = none
  cwd : ∀ p, (s.proc p).state = .live ↔ (s.proc p).cwd ≠ none
  pipe : ∀ pi, s.pipe pi = none ∧ s.taken pi = 0 ∧ s.given pi = 0

/-- The root directory of an empty file system. -/
def rootNode : Dinode where
  type := T_DIR
  major := 0
  minor := 0
  nlink := 1
  size := 32
  addrs := (Vector.replicate 13 0).set 0 46

/-- A disk that holds an empty file system: blocks up to 46 are in use, and block 46 has
the entries of the root directory. -/
def emptyDisk : Nat → Bytes := fun b =>
  if b = 32 then rootNode.store (fun _ => 0) 64
  else if b = 45 then fun i => if i < 5 then 255 else if i = 5 then 127 else 0
  else if b = 46 then fun i =>
    if i = 0 ∨ i = 16 then 1 else if i = 2 ∨ i = 18 ∨ i = 19 then 46 else 0
  else fun _ => 0

/-- An entry of the inode table that was never used. -/
def unusedInode : Inode where
  type := 0
  major := 0
  minor := 0
  nlink := 0
  size := 0
  addrs := .replicate 13 0
  dev := 0
  inum := 0
  ref := 0
  locked := false
  valid := false

/-- The first process on that disk, in the root directory. -/
def boot : Kern where
  fs :=
    { sb := { size := 1000, ninodes := 200, inodestart := 32, bmapstart := 45 }
      bufs := emptyDisk
      disk := emptyDisk
      outstanding := 0
      lh := []
      inode := fun k =>
        if k = 0 then { unusedInode with dev := 1, inum := 1, ref := 1 } else unusedInode }
  file := fun _ =>
    { type := .none, ref := 0, readable := false, writable := false, pipe := 0, ip := 0, off := 0
      major := 0 }
  proc := fun p =>
    if p = 0 then { state := .live, ofile := fun _ => none, cwd := some 0 }
    else { state := .unused, ofile := fun _ => none, cwd := none }
  pipe := fun _ => none
  taken := fun _ => 0
  given := fun _ => 0

theorem booted_boot : Booted boot := by
  constructor
  · intro f
    exact ⟨rfl, rfl⟩
  · intro p fd
    unfold boot
    by_cases h : p = 0 <;> simp [h]
  · intro p
    unfold boot
    by_cases h : p = 0 <;> simp [h]
  · intro pi
    exact ⟨rfl, rfl, rfl⟩

end Xv6.Files
