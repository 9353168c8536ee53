import Xv6.Console.Bounds
import Xv6.Files.Count
import Xv6.Fs.UserMem
import Xv6.Pipes.Bounds

/-!
# `sys_read`

One `int` goes to three readers: `piperead` and `consoleread` take it as it is, and `readi` takes
it for an unsigned number.  How many bytes each of them copies to the user, and what it returns.
-/

namespace Xv6.Files

open Lib Lib.Cmd Fs

def asUint (n : Int) : Nat := (n % 2 ^ 32).toNat

/-- What `fileread` comes to: a value and the memory it leaves, or a call that may sleep. -/
inductive Outcome
  | done (r : Int) (dst : Dst)
  | piperead (pi : Nat)
  | consoleread

abbrev CONSOLE : Int16 := 1

def readInode (f : Fin NFILE) (dst : Dst) (n : Int) : Cmd Outcome := do
  let x := (← get).file f
  onFs (ilock x.ip)
  let r ← onFs (readi x.ip dst x.off (asUint n))
  (if 0 < r.1 then setFile f fun x => { x with off := (x.off + r.1.toNat) % 2 ^ 32 } else pure ⟨⟩)
  onFs (iunlock x.ip)
  return .done r.1 r.2

def sysRead (p : Fin NPROC) (fd : Int) (mem : UserMem) (addr : Nat) (n : Int) : Cmd Outcome := do
  match ← argfd p fd with
  | none => return .done (-1) (.user mem addr)
  | some (_, f) =>
    let x := (← get).file f
    if x.readable = false then return .done (-1) (.user mem addr)
    else
      match x.type with
      | .pipe => return .piperead x.pipe
      | .device =>
        if x.major = CONSOLE then return .consoleread else return .done (-1) (.user mem addr)
      | .inode => readInode f (.user mem addr) n
      | .none => throw .fileread

/-!
## Inodes
-/

def Dst.Inside (mem : UserMem) (addr n : Nat) (dst : Dst) : Prop :=
  ∃ mem', dst = .user mem' addr ∧
    ∀ va, va < addr ∨ addr + n ≤ va → mem'.byte va = mem.byte va

section Inode

variable {mem mem' : UserMem} {addr n tot m o : Nat} {dst : Dst}

theorem Dst.Inside.refl : Dst.Inside mem addr n (.user mem addr) := ⟨mem, rfl, fun _ _ => rfl⟩

theorem eitherCopyout_inside (d : Bytes) (h : Dst.Inside mem addr n dst) (htot : tot + m ≤ n) :
    Dst.Inside mem addr n (eitherCopyout dst tot d o m).1 := by
  obtain ⟨mem', rfl, hsame⟩ := h
  refine ⟨_, rfl, ?_⟩
  intro va hva
  rw [copyout_outside d (by omega)]
  exact hsame va hva

theorem readiLoop_inside {k : Slot} {fuel off : Nat} {s : Fs.State} (h : Dst.Inside mem addr n dst)
    (htot : tot ≤ n) :
    wp (readiLoop k n fuel tot off dst)
      (fun r _ => r.1 ≤ n ∧ Dst.Inside mem addr n r.2) (fun _ => True) s := by
  induction fuel generalizing tot off dst s with
  | zero => exact ⟨Int.ofNat_le.2 htot, h⟩
  | succ fuel ih =>
    unfold readiLoop
    by_cases hlt : tot < n
    · rw [if_pos hlt, wp_bind]
      have hbmap : wp (bmap k (off / 1024)) (fun _ _ => True) (fun _ => True) s := by
        rw [wp_iff]
        exact ⟨fun _ _ _ => trivial, fun _ _ => trivial⟩
      apply hbmap.imp
      intro b t _
      rw [wp_bind, wp_of_ok (a := t.bufs b) (t := t) rfl]
      have hcopy := eitherCopyout_inside (o := off % 1024) (t.bufs b) h
        (show tot + min (n - tot) (1024 - off % 1024) ≤ n by omega)
      change wp (if (eitherCopyout dst tot (t.bufs b) (off % 1024) _).2 = true then _ else _) _ _ _
      rw [wp_ite]
      constructor
      · intro _
        exact ih hcopy (by omega)
      · intro _
        exact ⟨by omega, hcopy⟩
    · rw [if_neg hlt]
      exact ⟨Int.ofNat_le.2 htot, h⟩

theorem Dst.Inside.mono {n' : Nat} (h : Dst.Inside mem addr n dst) (hn : n ≤ n') :
    Dst.Inside mem addr n' dst := by
  obtain ⟨mem', hdst, hsame⟩ := h
  refine ⟨mem', hdst, ?_⟩
  intro va hva
  exact hsame va (by omega)

theorem readi_inside {k : Slot} {off : Nat} {s : Fs.State} :
    wp (readi k (.user mem addr) off n)
      (fun r _ => r.1 ≤ n ∧ Dst.Inside mem addr n r.2 ∧ (2 ^ 32 ≤ off + n → r = (0, .user mem addr)) ∧
        (0 < r.1 → off + r.1 < 2 ^ 32)) (fun _ => True) s := by
  unfold readi
  rw [wp_bind, wp_of_ok (a := s.inode k) (t := s) rfl, wp_ite]
  constructor
  · intro _
    exact ⟨Int.natCast_nonneg n, .refl, fun _ => rfl, fun h => absurd h (Int.lt_irrefl 0)⟩
  · intro hin
    have hsize := (s.inode k).size.toNat_lt
    apply (readiLoop_inside .refl (Nat.zero_le _)).imp
    rintro ⟨r, dst⟩ t ⟨hr, hdst⟩
    change r ≤ _ at hr
    split at hr
    next hbig =>
      rw [if_pos hbig] at hdst
      exact ⟨by omega, hdst.mono (by omega), fun h => absurd h (by omega), fun _ => by omega⟩
    next hsmall =>
      rw [if_neg hsmall] at hdst
      exact ⟨hr, hdst, fun h => absurd h (by omega), fun _ => by omega⟩

end Inode

/-!
## The three readers
-/

/-- In every run of the pipe, a `piperead` of `n` copies at most `n` bytes to its process, and
returns at most `n`. -/
def PipeWithin (n : Int) : Prop :=
  ∀ (m : Nat) (s t : Pipes.Sys m) (p : Fin m) (dst : Pipes.Target)
    (es : List (Pipes.Choice m × Pipes.Event m)),
    (s.procs p).pc = (Pipes.Op.read dst n).start →
    Run (Restrict Pipes.Acts (Pipes.Inside p)) s es t →
    (Pipes.copied p es : Int) ≤ max n 0 ∧ ∀ r, ∀ x ∈ es, Pipes.Returns p r x → r ≤ max n 0

/-- In every run of the console, a `consoleread` of `n` copies at most `n` bytes to its process,
and returns at most `n`. -/
def ConsoleWithin (n : Int) : Prop :=
  ∀ (m : Nat) (s t : Console.Sys m) (p : Fin m) (dst : Console.Target)
    (es : List (Console.Choice m × Console.Event m)),
    (s.procs p).pc = .acquire dst 0 n →
    Run (Restrict Console.Acts (Console.Inside p)) s es t →
    (Console.copied p es : Int) ≤ max n 0 ∧ ∀ r, ∀ x ∈ es, Console.Returns p r x → r ≤ max n 0

/-- The read stays within its request: the value it returns, the addresses it writes to, and the
offset of the file. -/
def Outcome.Within (s : Kern) (f : Option (Fin NFILE)) (mem : UserMem) (addr : Nat) (n : Int)
    (t : Kern) : Outcome → Prop
  | done r dst => r ≤ max n 0 ∧ Dst.Inside mem addr (max n 0).toNat dst ∧
      ∀ g, (t.file g).off = (s.file g).off + if f = some g then (max r 0).toNat else 0
  | piperead _ => PipeWithin n ∧ ∀ g, (t.file g).off = (s.file g).off
  | consoleread => ConsoleWithin n ∧ ∀ g, (t.file g).off = (s.file g).off

section Dispatch

variable {s : Kern} {p : Fin NPROC} {f : Fin NFILE} {mem : UserMem} {addr : Nat} {n fd : Int}

theorem fd_lt {fd : Int} (h : 0 ≤ fd ∧ fd < 16) : fd.toNat < NOFILE := (Int.toNat_lt h.1).2 h.2

def fileOf (s : Kern) (p : Fin NPROC) (fd : Int) : Option (Fin NFILE) :=
  if h : 0 ≤ fd ∧ fd < 16 then (s.proc p).ofile ⟨fd.toNat, fd_lt h⟩ else none

theorem argfd_eq : ∃ i, argfd p fd s = .ok ((fileOf s p fd).map fun f => (i, f), s) := by
  unfold argfd fileOf
  rw [bind_ok (a := s) (t := s) rfl]
  by_cases h : 0 ≤ fd ∧ fd < 16
  · rw [dif_pos h, dif_pos h]
    exact ⟨_, rfl⟩
  · rw [dif_neg h, dif_neg h]
    exact ⟨0, rfl⟩

theorem refused_within (f : Option (Fin NFILE)) {r : Int} (hr : r ≤ 0) :
    (Outcome.done r (.user mem addr)).Within s f mem addr n s := by
  refine ⟨by omega, .refl, ?_⟩
  intro g
  have hzero : (max r 0).toNat = 0 := by omega
  rw [hzero]
  split <;> rfl

theorem asUint_of_nonneg (h : 0 ≤ n) (hn : n < 2 ^ 31) : (asUint n : Int) = n := by
  unfold asUint
  omega

theorem asUint_of_neg (h : n < 0) (hn : -2 ^ 31 ≤ n) : (asUint n : Int) = n + 2 ^ 32 := by
  unfold asUint
  omega

/-- What is asked of an inode past the end of the 32 bits is refused. -/
theorem readi_request {k : Slot} {off : Nat} {u : Fs.State} (hlo : -2 ^ 31 ≤ n) (hhi : n < 2 ^ 31)
    (hoff : 0 ≤ off + n) :
    wp (readi k (.user mem addr) off (asUint n))
      (fun r _ => r.1 ≤ max n 0 ∧ Dst.Inside mem addr (max n 0).toNat r.2 ∧
        (0 < r.1 → off + r.1 < 2 ^ 32)) (fun _ => True) u := by
  apply readi_inside.imp
  rintro ⟨r, dst⟩ t ⟨hr, hdst, hwrap, hend⟩
  by_cases hneg : n < 0
  · have huint := asUint_of_neg hneg hlo
    obtain ⟨rfl, rfl⟩ := Prod.mk.inj (hwrap (by omega))
    exact ⟨Int.le_max_right n 0, .refl, hend⟩
  · have huint := asUint_of_nonneg (Int.not_lt.1 hneg) hhi
    change r ≤ (asUint n : Int) at hr
    refine ⟨by omega, hdst.mono (by omega), hend⟩

theorem readInode_within (hlo : -2 ^ 31 ≤ n) (hhi : n < 2 ^ 31) (hoff : 0 ≤ (s.file f).off + n) :
    wp (readInode f (.user mem addr) n) (fun out t => out.Within s (some f) mem addr n t)
      (fun _ => True) s := by
  have htrue : ∀ {α : Type} (c : Fs.Cmd α) (u : Fs.State), wp c (fun _ _ => True) (fun _ => True) u := by
    intro α c u
    rw [wp_iff]
    exact ⟨fun _ _ _ => trivial, fun _ _ => trivial⟩
  unfold readInode
  rw [wp_bind, wp_get, wp_bind, wp_onFs]
  apply (htrue _ _).imp
  intro _ u _
  rw [wp_bind, wp_onFs]
  apply (readi_request hlo hhi hoff).imp
  rintro ⟨r, dst⟩ v ⟨hr, hdst, hend⟩
  change 0 < r → _ + r < 2 ^ 32 at hend
  rw [wp_bind]
  by_cases hpos : 0 < r
  · rw [if_pos hpos]
    change wp (onFs _ >>= _) _ _ _
    rw [wp_bind, wp_onFs]
    apply (htrue _ _).imp
    intro _ w _
    refine ⟨hr, hdst, ?_⟩
    intro g
    have hlt := hend hpos
    change (upd s.file f _ g).off = _
    rw [upd_eq]
    by_cases hg : g = f
    · subst hg
      rw [if_pos rfl, if_pos rfl]
      change ((s.file g).off + r.toNat) % 2 ^ 32 = _
      rw [Nat.mod_eq_of_lt (by omega), Int.max_eq_left (by omega)]
    · rw [if_neg hg, if_neg (fun heq => hg (Option.some.inj heq).symm)]
      rfl
  · rw [if_neg hpos]
    change wp (onFs _ >>= _) _ _ _
    rw [wp_bind, wp_onFs]
    apply (htrue _ _).imp
    intro _ w _
    refine ⟨hr, hdst, ?_⟩
    intro g
    have hzero : (max r 0).toNat = 0 := by omega
    rw [hzero, ite_self]
    rfl

end Dispatch

/-- The first process with the root directory open as descriptor 0, at offset 0. -/
def rootOpen : Kern :=
  { boot with
    file := upd boot.file 0
      { type := .inode, ref := 1, readable := true, writable := false, pipe := 0, ip := 0, off := 0
        major := 0 }
    proc := upd boot.proc 0 { state := .live, ofile := upd (fun _ => none) 0 (some 0), cwd := some 0 } }

/-- What a call returns, if it does not sleep. -/
def returned (x : Except Stop (Outcome × Kern)) : Option Int :=
  match x with
  | .ok (.done r _, _) => some r
  | _ => none

theorem of_returned {x : Except Stop (Outcome × Kern)} {r : Int} (h : returned x = some r) :
    ∃ dst t, x = .ok (.done r dst, t) := by
  unfold returned at h
  split at h
  next r' dst t =>
    obtain rfl := Option.some.inj h
    exact ⟨dst, t, rfl⟩
  next => cases h

end Xv6.Files
