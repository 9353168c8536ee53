import Xv6.Lib.Bytes
import Xv6.Lib.Command

/-!
# `kalloc.c` and `vm.c`

Physical memory is a function from the addresses of pages to their bytes, and a `pte_t *` is
the address of a page-table page and an index.  The free list of `kalloc.c` is a list; its
links are not kept in the free pages.  `kend` is the address of `end`.  All numbers are below
2^64 and sums wrap.  The loops take a bound on their rounds, which no loop over user addresses
can reach, since `walk` panics at `MAXVA`.
-/

namespace Xv6.Vm

open Lib

abbrev PGSIZE : Nat := 4096
abbrev PHYSTOP : Nat := 0x88000000
abbrev MAXVA : Nat := 2 ^ 38
abbrev TRAMPOLINE : Nat := MAXVA - PGSIZE
abbrev TRAPFRAME : Nat := TRAMPOLINE - PGSIZE

abbrev PTE_V : Nat := 1
abbrev PTE_R : Nat := 2
abbrev PTE_W : Nat := 4
abbrev PTE_X : Nat := 8
abbrev PTE_U : Nat := 16

def PGROUNDUP (sz : Nat) : Nat := (sz + 4095) % 2 ^ 64 / 4096 * 4096
def PGROUNDDOWN (a : Nat) : Nat := a / 4096 * 4096
def PA2PTE (pa : Nat) : Nat := pa / 4096 * 1024
def PTE2PA (pte : Nat) : Nat := pte / 1024 * 4096 % 2 ^ 64
def PTE_FLAGS (pte : Nat) : Nat := pte % 1024
def PX (level va : Nat) : Nat := va / 2 ^ (12 + 9 * level) % 512

structure State where
  mem : Nat → Bytes
  freelist : List Nat

inductive Fail
  | panic (message : String)
  | bound
  deriving DecidableEq, Repr

abbrev Cmd := Lib.Cmd Fail State

/-- `pagetable[i]` -/
def pte (mem : Nat → Bytes) (pagetable i : Nat) : Nat := word (mem pagetable) (8 * i) 8

/-- `pagetable[i] = v` -/
def setPte (pagetable i v : Nat) : Cmd PUnit :=
  modify fun s => { s with mem := upd s.mem pagetable (setWord (s.mem pagetable) (8 * i) 8 v) }

/-- `memset(pa, c, PGSIZE)` -/
def memset (pa : Nat) (c : UInt8) : Cmd PUnit :=
  modify fun s => { s with mem := upd s.mem pa fun _ => c }

def kfree (kend pa : Nat) : Cmd PUnit := do
  if pa % PGSIZE ≠ 0 ∨ pa < kend ∨ PHYSTOP ≤ pa then throw (.panic "kfree")
  else
    memset pa 1
    modify fun s => { s with freelist := pa :: s.freelist }

def kalloc : Cmd (Option Nat) := do
  let s ← get
  match s.freelist with
  | [] => return none
  | r :: next =>
    set { s with freelist := next }
    memset r 5
    return some r

/-- The loop of `walk`, from a level down to 0. -/
def walkLoop (va : Nat) (alloc : Bool) : Nat → Nat → Cmd (Option (Nat × Nat))
  | 0, pagetable => return some (pagetable, PX 0 va)
  | level + 1, pagetable => do
      let s ← get
      let e := pte s.mem pagetable (PX (level + 1) va)
      if e &&& PTE_V ≠ 0 then walkLoop va alloc level (PTE2PA e)
      else if alloc then
        match ← kalloc with
        | none => return none
        | some page =>
          memset page 0
          setPte pagetable (PX (level + 1) va) (PA2PTE page ||| PTE_V)
          walkLoop va alloc level page
      else return none

def walk (pagetable va : Nat) (alloc : Bool) : Cmd (Option (Nat × Nat)) := do
  if MAXVA ≤ va then throw (.panic "walk") else walkLoop va alloc 2 pagetable

/-- More rounds than there are pages below `MAXVA`. -/
abbrev rounds : Nat := 2 ^ 26 + 1

/-- The loop of `mappages`; it returns whether all pages were mapped. -/
def mapLoop (pagetable last perm : Nat) : Nat → Nat → Nat → Cmd Bool
  | 0, _, _ => throw .bound
  | n + 1, a, pa => do
      match ← walk pagetable a true with
      | none => return false
      | some (page, i) =>
        let s ← get
        if pte s.mem page i &&& PTE_V ≠ 0 then throw (.panic "remap")
        else
          setPte page i (PA2PTE pa ||| perm ||| PTE_V)
          if a = last then return true
          else mapLoop pagetable last perm n ((a + PGSIZE) % 2 ^ 64) ((pa + PGSIZE) % 2 ^ 64)

/-- `mappages`; `true` is 0 and `false` is -1. -/
def mappages (pagetable va size pa perm : Nat) : Cmd Bool :=
  mapLoop pagetable (PGROUNDDOWN ((va + size + (2 ^ 64 - 1)) % 2 ^ 64)) perm rounds (PGROUNDDOWN va) pa

def unmapLoop (kend pagetable stop : Nat) (doFree : Bool) : Nat → Nat → Cmd PUnit
  | 0, _ => throw .bound
  | n + 1, a => do
      if a < stop then
        match ← walk pagetable a false with
        | none => throw (.panic "uvmunmap: walk")
        | some (page, i) =>
          let s ← get
          if pte s.mem page i &&& PTE_V = 0 then throw (.panic "uvmunmap: not mapped")
          else if PTE_FLAGS (pte s.mem page i) = PTE_V then throw (.panic "uvmunmap: not a leaf")
          else
            if doFree then kfree kend (PTE2PA (pte s.mem page i))
            setPte page i 0
            unmapLoop kend pagetable stop doFree n ((a + PGSIZE) % 2 ^ 64)
      else return ⟨⟩

def uvmunmap (kend pagetable va npages : Nat) (doFree : Bool) : Cmd PUnit := do
  if va % PGSIZE ≠ 0 then throw (.panic "uvmunmap: not aligned")
  else unmapLoop kend pagetable ((va + npages * PGSIZE) % 2 ^ 64) doFree rounds va

def uvmcreate : Cmd (Option Nat) := do
  match ← kalloc with
  | none => return none
  | some pagetable =>
    memset pagetable 0
    return some pagetable

/-- A 64-bit number as an `int` and back. -/
def sext32 (x : Nat) : Nat := if x % 2 ^ 32 < 2 ^ 31 then x % 2 ^ 32 else x % 2 ^ 32 + (2 ^ 64 - 2 ^ 32)

def uvmdealloc (kend pagetable oldsz newsz : Nat) : Cmd Nat := do
  if oldsz ≤ newsz then return oldsz
  else
    if PGROUNDUP newsz < PGROUNDUP oldsz then
      uvmunmap kend pagetable (PGROUNDUP newsz)
        (sext32 ((PGROUNDUP oldsz - PGROUNDUP newsz) / PGSIZE)) true
    return newsz

/-- The loop of `uvmalloc`; `oldsz` is rounded. -/
def growLoop (kend pagetable oldsz newsz : Nat) : Nat → Nat → Cmd Nat
  | 0, _ => throw .bound
  | n + 1, a => do
      if a < newsz then
        match ← kalloc with
        | none =>
          let _ ← uvmdealloc kend pagetable a oldsz
          return 0
        | some mem =>
          memset mem 0
          if ← mappages pagetable a PGSIZE mem (PTE_W ||| PTE_X ||| PTE_R ||| PTE_U) then
            growLoop kend pagetable oldsz newsz n ((a + PGSIZE) % 2 ^ 64)
          else
            kfree kend mem
            let _ ← uvmdealloc kend pagetable a oldsz
            return 0
      else return newsz

def uvmalloc (kend pagetable oldsz newsz : Nat) : Cmd Nat := do
  if newsz < oldsz then return oldsz
  else growLoop kend pagetable (PGROUNDUP oldsz) newsz rounds (PGROUNDUP oldsz)

/-- `freewalk`, with a bound on the depth of the calls. -/
def freewalk (kend : Nat) : Nat → Nat → Cmd PUnit
  | 0, _ => throw .bound
  | n + 1, pagetable => do
      forM (List.range 512) fun i => do
        let s ← get
        let e := pte s.mem pagetable i
        if e &&& PTE_V ≠ 0 ∧ e &&& (PTE_R ||| PTE_W ||| PTE_X) = 0 then
          freewalk kend n (PTE2PA e)
          setPte pagetable i 0
        else if e &&& PTE_V ≠ 0 then throw (.panic "freewalk: leaf")
        else return ⟨⟩
      kfree kend pagetable

def uvmfree (kend pagetable sz : Nat) : Cmd PUnit := do
  if 0 < sz then uvmunmap kend pagetable 0 (PGROUNDUP sz / PGSIZE) true
  freewalk kend 3 pagetable

def uvmclear (pagetable va : Nat) : Cmd PUnit := do
  match ← walk pagetable va false with
  | none => throw (.panic "uvmclear")
  | some (page, i) =>
    let s ← get
    setPte page i (pte s.mem page i &&& (2 ^ 64 - 1 - PTE_U))

/-- `walkaddr`; 0 if the address is not mapped for the user. -/
def walkaddr (pagetable va : Nat) : Cmd Nat := do
  if MAXVA ≤ va then return 0
  else
    match ← walk pagetable va false with
    | none => return 0
    | some (page, i) =>
      let s ← get
      if pte s.mem page i &&& PTE_V = 0 then return 0
      else if pte s.mem page i &&& PTE_U = 0 then return 0
      else return PTE2PA (pte s.mem page i)

/-!
## User memory

Buffers of the kernel are apart from the pages of processes.
-/

/-- `memmove` of `n` bytes of a buffer to offset `o` of page `pa`. -/
def poke (pa o n : Nat) (src : Bytes) : Cmd PUnit :=
  modify fun s => { s with mem := upd s.mem pa (blit (s.mem pa) o n src) }

/-- The loop of `copyout`; byte `o` of the buffer is the next. -/
def copyoutLoop (pagetable : Nat) (src : Bytes) : Nat → Nat → Nat → Nat → Cmd Bool
  | 0, _, _, _ => throw .bound
  | fuel + 1, o, dstva, len => do
      if 0 < len then
        let va0 := PGROUNDDOWN dstva
        let pa0 ← walkaddr pagetable va0
        if pa0 = 0 then return false
        else
          let n := min (PGSIZE - (dstva - va0)) len
          poke pa0 (dstva - va0) n fun j => src (o + j)
          copyoutLoop pagetable src fuel (o + n) ((va0 + PGSIZE) % 2 ^ 64) (len - n)
      else return true

/-- `copyout`; `true` is 0 and `false` is -1. -/
def copyout (pagetable dstva : Nat) (src : Bytes) (len : Nat) : Cmd Bool :=
  copyoutLoop pagetable src rounds 0 dstva len

/-- The loop of `copyin`: the buffer after it, and whether it returns 0. -/
def copyinLoop (pagetable : Nat) : Nat → Bytes → Nat → Nat → Nat → Cmd (Bytes × Bool)
  | 0, _, _, _, _ => throw .bound
  | fuel + 1, dst, o, srcva, len => do
      if 0 < len then
        let va0 := PGROUNDDOWN srcva
        let pa0 ← walkaddr pagetable va0
        if pa0 = 0 then return (dst, false)
        else
          let n := min (PGSIZE - (srcva - va0)) len
          let s ← get
          copyinLoop pagetable fuel (blit dst o n fun j => s.mem pa0 (srcva - va0 + j)) (o + n)
            ((va0 + PGSIZE) % 2 ^ 64) (len - n)
      else return (dst, true)

def copyin (pagetable : Nat) (dst : Bytes) (srcva len : Nat) : Cmd (Bytes × Bool) :=
  copyinLoop pagetable rounds dst 0 srcva len

/-- The inner loop of `copyinstr`, from byte `p` of a page on: the buffer, and `got_null`. -/
def strLoop (page : Bytes) : Nat → Nat → Bytes → Nat → Bytes × Bool
  | 0, _, dst, _ => (dst, false)
  | n + 1, p, dst, o =>
    if page p = 0 then (upd dst o 0, true) else strLoop page n (p + 1) (upd dst o (page p)) (o + 1)

def copyinstrLoop (pagetable : Nat) : Nat → Bytes → Nat → Nat → Nat → Cmd (Bytes × Bool)
  | 0, _, _, _, _ => throw .bound
  | fuel + 1, dst, o, srcva, max => do
      if 0 < max then
        let va0 := PGROUNDDOWN srcva
        let pa0 ← walkaddr pagetable va0
        if pa0 = 0 then return (dst, false)
        else
          let n := min (PGSIZE - (srcva - va0)) max
          let s ← get
          let r := strLoop (s.mem pa0) n (srcva - va0) dst o
          if r.2 then return r
          else copyinstrLoop pagetable fuel r.1 (o + n) ((va0 + PGSIZE) % 2 ^ 64) (max - n)
      else return (dst, false)

def copyinstr (pagetable : Nat) (dst : Bytes) (srcva max : Nat) : Cmd (Bytes × Bool) :=
  copyinstrLoop pagetable rounds dst 0 srcva max

end Xv6.Vm
