import Xv6.Lib.RefCache
import Xv6.Log.Machine

/-!
# The discipline of the code

What a process's remaining code says about it: which of its pointers refer to a
buffer and which of them it has locked, how far it is in a commit or a recovery,
and which blocks it still has to unpin.  `Wf` collects what the code itself
promises, and every expansion of an instruction keeps it.
-/

namespace Xv6.Log

open Instr

/-- The block whose buffer pointer `r` refers to, if it refers to one. -/
def live (r : Reg) : Code → Option Nat
  | [] => none
  | i :: c =>
    match i with
    | bget r' _ => if r' = r then none else live r c
    | bread r' b => if r' = r then some b else live r c
    | releasesleep r' b => if r' = r then some b else live r c
    | brelse r' b => if r' = r then some b else live r c
    | keep b => if r = .dbuf then some b else live r c
    | bwrite _ => live r c
    | bunpin _ _ => live r c
    | toLog _ _ => live r c
    | toHome _ _ => live r c
    | setHead => live r c
    | getHead => live r c
    | _ => none

/-- Does the process hold the sleep lock of the buffer `r` refers to? -/
def locked (r : Reg) : Code → Bool
  | [] => false
  | i :: c =>
    match i with
    | bget r' _ => if r' = r then false else locked r c
    | bread r' _ => if r' = r then false else locked r c
    | releasesleep r' _ => if r' = r then true else locked r c
    | brelse r' _ => if r' = r then false else locked r c
    | keep _ => if r = .dbuf then true else locked r c
    | bwrite _ => locked r c
    | bunpin _ _ => locked r c
    | toLog _ _ => locked r c
    | toHome _ _ => locked r c
    | setHead => locked r c
    | getHead => locked r c
    | _ => false

/-- Where a commit or a recovery is.  A block number is that of the round under
way: the block `lh.block[tail]`. -/
inductive Phase
  | idle
  | reading
  | starting
  | writing (tail : Nat) (b : Option Nat)
  | heading
  | installing (tail : Nat) (b : Option Nat)
  | installed
  | clearing
  | closing
  deriving DecidableEq, Repr

def phase : Code → Option Phase
  | [] => none
  | i :: c =>
    match i with
    | bget _ _ => phase c
    | bread _ _ => phase c
    | releasesleep _ _ => phase c
    | brelse _ _ => phase c
    | bunpin _ _ => phase c
    | setHead => phase c
    | toLog t b => some (.writing t (some b))
    | bwrite (.slot t b) => some (.writing t (some b))
    | writeLog t => some (.writing t none)
    | bwrite .header => if phase c = some .closing then some .clearing else some .heading
    | toHome t b => some (.installing t (some b))
    | bwrite (.home t b) => some (.installing t (some b))
    | installTrans _ t => some (.installing t none)
    | clearHead => some .installed
    | getHead => some .reading
    | commit => some .starting
    | endCommit => some .closing
    | initDone => some .closing
    | _ => none

def pins (lh : List Nat) : Code → List Nat
  | [] => lh
  | i :: c =>
    match i with
    | bget _ _ => pins lh c
    | bread _ _ => pins lh c
    | releasesleep _ _ => pins lh c
    | brelse _ _ => pins lh c
    | toHome _ _ => pins lh c
    | bwrite (.home _ _) => pins lh c
    | bunpin t b => b :: lh.drop (t + 1)
    | installTrans recovering t => if recovering then [] else lh.drop t
    | clearHead => []
    | getHead => []
    | _ => lh

section

variable (sb : Superblock)

def Superblock.slot (tail : Nat) : Nat := sb.logstart + tail + 1

def Points (r : Reg) (b : Nat) (f : Bool) (c : Code) : Prop :=
  live r c = some b ∧ locked r c = f

def Bare (c : Code) : Prop := live .lbuf c = none ∧ live .dbuf c = none

def Ok (c : Code) : Instr → Prop
  | bget r b => Points r b false c
  | bread r b =>
    Points r b true c ∧ (r = .dbuf → initDone ∈ c → ∃ t b' c', c = toHome t b' :: c')
  | releasesleep r b => Points r b false c
  | brelse r _ => live r c = none
  | bwrite (.slot t _) =>
    Points .lbuf (sb.slot t) true c ∧ phase c = some (.writing (t + 1) none) ∧
      ∀ lh, pins lh c = lh
  | bwrite .header =>
    Points .lbuf sb.logstart true c ∧
      (phase c = some .closing ∨ phase c = some (.installing 0 none)) ∧ ∀ lh, pins lh c = lh
  | bwrite (.home t b) =>
    Points .dbuf b true c ∧ phase c = some (.installing (t + 1) none) ∧
      (initDone ∉ c → ∃ c', c = bunpin t b :: c') ∧ ∀ lh, ∀ b' ∈ pins lh c, b' = b ∨ b' ∈ lh
  | bunpin t b =>
    Points .dbuf b true c ∧ phase c = some (.installing (t + 1) none) ∧
      ∀ lh, pins lh c = lh.drop (t + 1)
  | toLog t b => Points .dbuf b true c ∧ ∃ c', c = bwrite (.slot t b) :: c'
  | toHome t b => Points .lbuf (sb.slot t) true c ∧ ∃ c', c = bwrite (.home t b) :: c'
  | setHead => ∃ c', c = bwrite .header :: c'
  | getHead =>
    Points .lbuf sb.logstart true c ∧ phase c = some (.installing 0 none) ∧
      (∀ lh, pins lh c = []) ∧ initDone ∈ c
  | clearHead => Bare c ∧ phase c = some .clearing ∧ ∀ lh, pins lh c = lh
  | writeLog _ => Bare c ∧ phase c = some .heading ∧ (∀ lh, pins lh c = lh) ∧ initDone ∉ c
  | installTrans f _ =>
    Bare c ∧ phase c = some .installed ∧ (∀ lh, pins lh c = []) ∧ (f = true ↔ initDone ∈ c)
  | commit => Bare c ∧ phase c = some .closing ∧ (∀ lh, pins lh c = lh) ∧ initDone ∉ c
  | endCommit => c = [client]
  | initDone => c = [client]
  | beginOp => c = [client]
  | endOp => c = [client]
  | keep _ => c = [client]
  | client => c = []

def cause : Instr → Option Instr
  | bwrite (.slot t b) => some (toLog t b)
  | bwrite .header => some setHead
  | bwrite (.home t b) => some (toHome t b)
  | bunpin t b => some (bwrite (.home t b))
  | _ => none

def due : Code → Option Instr
  | [] => none
  | i :: _ => cause i

def Wf : Code → Prop
  | [] => True
  | i :: c => (Ok sb c i ∧ (due c = none ∨ due c = some i)) ∧ Wf c

end

@[simp] theorem due_nil : due [] = none := rfl

@[simp] theorem due_cons {i : Instr} {c : Code} : due (i :: c) = cause i := rfl

theorem due_eq_some {c : Code} {i : Instr} (h : due c = some i) :
    (∃ t b, i = toLog t b) ∨ i = setHead ∨ (∃ t b, i = toHome t b) ∨
      ∃ t b, i = bwrite (.home t b) := by
  cases c with
  | nil => cases h
  | cons j c =>
    rw [due_cons] at h
    cases j with
    | bwrite k => cases k <;> simp_all [cause, eq_comm]
    | bunpin t b => simp_all [cause, eq_comm]
    | _ => cases h

section

variable {sb : Superblock} {c : Code} {r : Reg}

theorem live_of_locked (h : locked r c = true) : ∃ b, live r c = some b := by
  induction c with
  | nil => simp [locked] at h
  | cons i c ih =>
    cases i <;> simp only [locked, live] at h ⊢ <;>
      first
      | exact ih h
      | (split at h <;> simp_all)
      | simp at h

theorem locked_of_not_live (h : live r c = none) : locked r c = false := by
  cases hl : locked r c with
  | false => rfl
  | true =>
    obtain ⟨b, hb⟩ := live_of_locked hl
    rw [h] at hb
    cases hb

theorem Wf.ok {i : Instr} (h : Wf sb (i :: c)) : Ok sb c i := h.1.1

theorem Wf.due_tail {i : Instr} (h : Wf sb (i :: c)) : due c = none ∨ due c = some i := h.1.2

/-- A write or a `bunpin` comes right after the instruction it belongs to. -/
theorem Wf.due_none {i : Instr} (h : Wf sb (i :: c)) (hlog : ∀ t b, i ≠ toLog t b)
    (hhead : i ≠ setHead) (hhome : ∀ t b, i ≠ toHome t b)
    (hwrite : ∀ t b, i ≠ bwrite (.home t b)) : due c = none := by
  rcases h.due_tail with hnone | hsome
  · exact hnone
  · rcases due_eq_some hsome with ⟨t, b, hi⟩ | hi | ⟨t, b, hi⟩ | ⟨t, b, hi⟩
    · exact absurd hi (hlog t b)
    · exact absurd hi hhead
    · exact absurd hi (hhome t b)
    · exact absurd hi (hwrite t b)

theorem Wf.tail {i : Instr} (h : Wf sb (i :: c)) : Wf sb c := h.2

theorem wf_writeLogCode {t b : Nat} (h : Wf sb (writeLog t :: c)) :
    Wf sb (writeLogCode sb t b ++ c) := by
  have hdue := h.due_none (by simp) (by simp) (by simp) (by simp)
  obtain ⟨⟨⟨⟨hl, hd⟩, hphase, hpins, hinit⟩, -⟩, hc⟩ := h
  simp [writeLogCode, breadCode, brelseCode, Wf, Ok, Points, live, locked, phase, pins,
    Superblock.slot, cause, hphase, hpins, hc, Bare, hl, hd, hinit, hdue]

theorem wf_installCode {f : Bool} {t b : Nat} (h : Wf sb (installTrans f t :: c)) :
    Wf sb (installCode sb f t b ++ c) := by
  have hdue := h.due_none (by simp) (by simp) (by simp) (by simp)
  obtain ⟨⟨⟨⟨hl, hd⟩, hphase, hpins, hinit⟩, -⟩, hc⟩ := h
  cases f with
  | true =>
    have hinit : initDone ∈ c := hinit.1 rfl
    simp [installCode, breadCode, brelseCode, Wf, Ok, Points, live, locked, phase, pins,
      Superblock.slot, cause, hphase, hpins, hc, Bare, hl, hd, hinit, hdue]
  | false =>
    have hinit : initDone ∉ c := fun hmem => by cases hinit.2 hmem
    simp [installCode, breadCode, brelseCode, Wf, Ok, Points, live, locked, phase, pins,
      Superblock.slot, cause, hphase, hpins, hc, Bare, hl, hd, hinit, hdue]
    exact fun lh a ha => .inr (List.mem_of_mem_drop ha)

theorem wf_commitCode (h : Wf sb (commit :: c)) : Wf sb (commitCode sb ++ c) := by
  have hdue := h.due_none (by simp) (by simp) (by simp) (by simp)
  obtain ⟨⟨⟨⟨hl, hd⟩, hphase, hpins, hinit⟩, -⟩, hc⟩ := h
  simp [commitCode, writeHead, breadCode, brelseCode, Wf, Ok, Points, live, locked, phase, pins,
    cause, hphase, hpins, hc, Bare, hl, hd, hinit, hdue]

theorem wf_client : Wf sb [client] := by
  simp [Wf, Ok]

/-- The code of a file system call that begins or ends an operation, reads a home
block or releases one. -/
theorem wf_call {b : Nat} :
    Wf sb [beginOp, client] ∧ Wf sb [endOp, client] ∧ Wf sb [commit, endCommit, client] ∧
      Wf sb (brelseCode .dbuf b ++ [client]) ∧
      Wf sb (breadCode .dbuf b ++ [keep b, client]) := by
  simp [breadCode, brelseCode, Wf, Ok, Points, Bare, live, locked, phase, pins, cause]

theorem wf_recover : Wf sb (recoverFromLog sb ++ [initDone, client]) := by
  simp [recoverFromLog, readHead, writeHead, breadCode, brelseCode, Wf, Ok, Points, live, locked,
    phase, pins, cause, Bare]

end

end Xv6.Log
