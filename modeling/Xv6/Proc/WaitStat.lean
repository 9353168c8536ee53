import Xv6.Fs.UserMem

/-!
# `wait_stat`

A round of `wait_stat`, with the bytes it copies from the `struct proc` of the child to
the memory of the caller.  Each of the six fields is copied with the length of the whole
`struct perf`.
-/

namespace Xv6.WaitStat

open Lib Fs

abbrev NPROC : Nat := 64

abbrev Slot := Fin NPROC

inductive Procstate
  | unused
  | used
  | sleeping
  | runnable
  | running
  | zombie
  deriving DecidableEq, Repr

/-- `struct proc` as far as `wait_stat` copies, reads or writes it, with the other bytes
of the structure as they are. -/
structure Proc where
  state : Procstate
  killed : UInt32
  xstate : UInt32
  pid : UInt32
  maskid : UInt32
  ctime : UInt32
  ttime : UInt32
  stime : UInt32
  retime : UInt32
  rutime : UInt32
  averageBursttime : UInt32
  queueLocation : UInt64
  priority : UInt32
  runTimeRatio : UInt32
  parent : Option Slot
  rest : Bytes

structure Perf where
  ctime : UInt32
  ttime : UInt32
  stime : UInt32
  retime : UInt32
  rutime : UInt32
  averageBursttime : UInt32
  deriving DecidableEq, Repr

def Proc.perf (x : Proc) : Perf where
  ctime := x.ctime
  ttime := x.ttime
  stime := x.stime
  retime := x.retime
  rutime := x.rutime
  averageBursttime := x.averageBursttime

/-- `addr` has the addresses of `proc[0]`, `proc[1]` and so on, and `mem` the memory of
each process. -/
structure Kern where
  proc : Slot → Proc
  mem : Slot → UserMem
  addr : Slot → UInt64

def putInt (d : Bytes) (o : Nat) (v : UInt32) : Bytes := setWord d o 4 v.toNat

/-- The fields of `struct proc` from `killed` on, up to `parent`. -/
def Kern.image (s : Kern) (c : Slot) : Bytes :=
  let x := s.proc c
  let d := putInt x.rest 40 x.killed
  let d := putInt d 44 x.xstate
  let d := putInt d 48 x.pid
  let d := putInt d 52 x.maskid
  let d := putInt d 56 x.ctime
  let d := putInt d 60 x.ttime
  let d := putInt d 64 x.stime
  let d := putInt d 68 x.retime
  let d := putInt d 72 x.rutime
  let d := putInt d 76 x.averageBursttime
  let d := setWord d 80 8 x.queueLocation.toNat
  let d := putInt d 88 x.priority
  let d := putInt d 92 x.runTimeRatio
  setWord d 96 8 (match x.parent with | none => 0 | some q => (s.addr q).toNat)

def Perf.bytes (x : Perf) : Bytes :=
  let d := putInt (fun _ => 0) 0 x.ctime
  let d := putInt d 4 x.ttime
  let d := putInt d 8 x.stime
  let d := putInt d 12 x.retime
  let d := putInt d 16 x.rutime
  putInt d 20 x.averageBursttime

/-- The calls of `copyout`, in order: the offset of the field in `struct perf` and in
`struct proc`. -/
def fields : List (Nat × Nat) :=
  [(0, 56), (4, 60), (8, 64), (12, 68), (16, 72), (20, 76)]

def copyFields (image : Bytes) (performance : Nat) : List (Nat × Nat) → UserMem → UserMem × Bool
  | [], mem => (mem, true)
  | (f, o) :: rest, mem =>
    let r := copyout image mem 25 o (performance + f) 24
    if r.2 then copyFields image performance rest r.1 else r

def copyResults (image : Bytes) (status performance : Nat) (mem : UserMem) : UserMem × Bool :=
  let r := copyFields image performance fields mem
  if r.2 && status != 0 then copyout image r.1 5 44 status 4 else r

def Kern.freeproc (s : Kern) (c : Slot) : Kern :=
  { s with
    proc := upd s.proc c { s.proc c with
      pid := 0, parent := none, killed := 0, xstate := 0, state := .unused, maskid := 0 }
    mem := upd s.mem c fun _ => none }

/-- A child of `p` that has exited, the first in the table. -/
def Kern.zombie (s : Kern) (p : Slot) : Option Slot :=
  (List.finRange NPROC).find? fun c => decide ((s.proc c).parent = some p ∧ (s.proc c).state = .zombie)

def Kern.havekids (s : Kern) (p : Slot) : Bool :=
  (List.finRange NPROC).any fun c => (s.proc c).parent = some p

/-- A round of `wait_stat`: what it returns, or nothing where it sleeps until a child
exits. -/
def waitStat (s : Kern) (p : Slot) (status performance : Nat) : Option (UInt32 × Kern) :=
  match s.zombie p with
  | some c =>
    let r := copyResults (s.image c) status performance (s.mem p)
    let t := { s with mem := upd s.mem p r.1 }
    if r.2 then some ((s.proc c).pid, t.freeproc c) else some (-1, t)
  | none => if !s.havekids p || (s.proc p).killed ≠ 0 then some (-1, s) else none

/-!
## What is copied
-/

section

variable {s : Kern} {p c : Slot} {mem : UserMem} {status performance : Nat}

theorem copyFields_byte (image : Bytes) {l : List (Nat × Nat)} (hl : ∀ x ∈ l, x.2 = 56 + x.1)
    (hmapped : ∀ x ∈ l, ∀ i, i < 24 → (mem.byte (performance + x.1 + i)).isSome) :
    (copyFields image performance l mem).2 = true ∧
    ∀ va, (copyFields image performance l mem).1.byte va =
      if ∃ x ∈ l, performance + x.1 ≤ va ∧ va < performance + x.1 + 24 then
        some (image (56 + (va - performance)))
      else mem.byte va := by
  induction l generalizing mem with
  | nil => exact ⟨rfl, fun va => by simp [copyFields]⟩
  | cons x rest ih =>
    obtain ⟨f, o⟩ := x
    have ho : o = 56 + f := hl (f, o) (by simp)
    obtain ⟨hok, hbyte⟩ := copyout_byte image o (show 24 < 25 by omega) (hmapped (f, o) (by simp))
    simp only [copyFields, hok, if_true]
    have hrest : ∀ x ∈ rest, ∀ i, i < 24 →
        ((copyout image mem 25 o (performance + f) 24).1.byte (performance + x.1 + i)).isSome := by
      intro x hx i hi
      rw [hbyte]
      split
      · rfl
      · exact hmapped x (List.mem_cons_of_mem _ hx) i hi
    obtain ⟨hok', hbyte'⟩ := ih (fun x hx => hl x (List.mem_cons_of_mem _ hx)) hrest
    refine ⟨hok', fun va => ?_⟩
    rw [hbyte' va, hbyte va]
    by_cases hlater : ∃ x ∈ rest, performance + x.1 ≤ va ∧ va < performance + x.1 + 24
    · rw [if_pos hlater, if_pos]
      obtain ⟨x, hx, hin⟩ := hlater
      exact ⟨x, List.mem_cons_of_mem _ hx, hin⟩
    · rw [if_neg hlater]
      by_cases hnow : performance + f ≤ va ∧ va < performance + f + 24
      · rw [if_pos hnow, if_pos ⟨(f, o), by simp, hnow⟩, ho]
        congr 2
        omega
      · rw [if_neg hnow, if_neg]
        rintro ⟨x, hx, hin⟩
        rcases List.mem_cons.1 hx with rfl | hx
        · exact hnow hin
        · exact hlater ⟨x, hx, hin⟩

theorem copyFields_fields (image : Bytes)
    (hmapped : ∀ i, i < 44 → (mem.byte (performance + i)).isSome) :
    (copyFields image performance fields mem).2 = true ∧
    ∀ va, (copyFields image performance fields mem).1.byte va =
      if performance ≤ va ∧ va < performance + 44 then some (image (56 + (va - performance)))
      else mem.byte va := by
  have hl : ∀ x ∈ fields, x.2 = 56 + x.1 ∧ x.1 ≤ 20 := by decide
  have hmapped' : ∀ x ∈ fields, ∀ i, i < 24 → (mem.byte (performance + x.1 + i)).isSome := by
    intro x hx i hi
    have := (hl x hx).2
    rw [Nat.add_assoc]
    exact hmapped _ (by omega)
  obtain ⟨hok, hbyte⟩ := copyFields_byte image (fun x hx => (hl x hx).1) hmapped'
  refine ⟨hok, fun va => ?_⟩
  rw [hbyte va]
  have hiff : (∃ x ∈ fields, performance + x.1 ≤ va ∧ va < performance + x.1 + 24) ↔
      performance ≤ va ∧ va < performance + 44 := by
    simp only [fields, List.mem_cons, List.not_mem_nil, or_false, exists_eq_or_imp, exists_eq_left]
    omega
  simp only [hiff]

theorem copyResults_byte (image : Bytes)
    (hmapped : ∀ i, i < 44 → (mem.byte (performance + i)).isSome)
    (hstatus : status ≠ 0 → ∀ i, i < 4 → (mem.byte (status + i)).isSome) :
    (copyResults image status performance mem).2 = true ∧
    ∀ va, (copyResults image status performance mem).1.byte va =
      if status ≠ 0 ∧ status ≤ va ∧ va < status + 4 then some (image (44 + (va - status)))
      else if performance ≤ va ∧ va < performance + 44 then some (image (56 + (va - performance)))
      else mem.byte va := by
  obtain ⟨hok, hbyte⟩ := copyFields_fields image hmapped
  unfold copyResults
  by_cases hzero : status = 0
  · simp only [hok, hzero, bne_self_eq_false, Bool.and_false, Bool.false_eq_true, if_false]
    refine ⟨trivial, fun va => ?_⟩
    rw [hbyte]
    simp
  · simp only [hok, Bool.true_and, bne_iff_ne, ne_eq, hzero, not_false_eq_true, if_true, true_and]
    have hmapped' : ∀ i, i < 4 →
        ((copyFields image performance fields mem).1.byte (status + i)).isSome := by
      intro i hi
      rw [hbyte]
      split
      · rfl
      · exact hstatus hzero i hi
    obtain ⟨hok', hbyte'⟩ := copyout_byte image 44 (show 4 < 5 by omega) hmapped'
    refine ⟨hok', fun va => ?_⟩
    rw [hbyte', hbyte]

/-- In `struct proc` the fields stand in the order of `struct perf`. -/
theorem image_perf (s : Kern) (c : Slot) {i : Nat} (hi : i < 24) :
    s.image c (56 + i) = (s.proc c).perf.bytes i := by
  interval_cases i <;> rfl

theorem image_xstate (s : Kern) (c : Slot) {i : Nat} (hi : i < 4) :
    s.image c (44 + i) = byteOf (s.proc c).xstate.toNat i := by
  interval_cases i <;> rfl

/-- `wait_stat` returns the pid of the child, and has written its results and nothing
else to the memory of the caller. -/
def Exact (s : Kern) (p c : Slot) (status performance : Nat) : Prop :=
  ∃ t, waitStat s p status performance = some ((s.proc c).pid, t) ∧
    (∀ i, i < 24 → (t.mem p).byte (performance + i) = some ((s.proc c).perf.bytes i)) ∧
    (status ≠ 0 → ∀ i, i < 4 →
      (t.mem p).byte (status + i) = some (byteOf (s.proc c).xstate.toNat i)) ∧
    ∀ va, va < performance ∨ performance + 24 ≤ va →
      status = 0 ∨ va < status ∨ status + 4 ≤ va → (t.mem p).byte va = (s.mem p).byte va

/-- Where `wait_stat` may write: both results are mapped, and they are disjoint. -/
structure Fits (mem : UserMem) (status performance : Nat) : Prop where
  perf : ∀ i, i < 24 → (mem.byte (performance + i)).isSome
  xstate : status ≠ 0 → ∀ i, i < 4 → (mem.byte (status + i)).isSome
  disjoint : status ≠ 0 → status + 4 ≤ performance ∨ performance + 24 ≤ status

theorem zombie_ne (hrun : (s.proc p).state = .running) (hc : s.zombie p = some c) : p ≠ c := by
  rintro rfl
  have hzombie := List.find?_some hc
  simp [hrun] at hzombie

end

/-- A process and its child, which has exited; the caller's first page is `page`. -/
def family (page : Bytes) : Kern where
  proc := fun q =>
    { state := if q = 0 then .running else if q = 1 then .zombie else .unused
      killed := 0
      xstate := if q = 1 then 7 else 0
      pid := if q = 0 then 3 else if q = 1 then 4 else 0
      maskid := 0
      ctime := 20
      ttime := 31
      stime := 1
      retime := 2
      rutime := 8
      averageBursttime := 500
      queueLocation := 0
      priority := 5
      runTimeRatio := 0
      parent := if q = 1 then some 0 else none
      rest := fun _ => 0 }
  mem := fun q n => if q = 0 ∧ n = 0 then some page else none
  addr := fun q => 0x80010000 + 360 * q.val.toUInt64

end Xv6.WaitStat
