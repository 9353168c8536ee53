import Xv6.Pipes.Fifo
import Xv6.Pipes.Sleepers

/-!
# What a read takes from the pipe

From the round of its first loop in which `piperead` does not sleep until it returns, a reader
keeps `pi->lock`.  As long as every `copyout` succeeds, what it takes from the pipe is what it
delivers.  At a fault the byte has left the pipe already.
-/

namespace Xv6.Pipes

open Lib

variable {m : Nat}

/-- `pi->lock` is held by the process that is inside. -/
def Owned (s : Sys m) : Prop := ∀ p, s.lock = some p ↔ (s.procs p).pc.holds = true

section Owner

variable {s t : Sys m} {p : Fin m} {e : Event m}

theorem Move.pc_other (hm : Move s p t e) {q : Fin m} (hq : q ≠ p) :
    (t.procs q).pc = (s.procs q).pc := by
  cases hm with
  | @wake a b c j hpc hmove hj =>
    rw [Sys.goto_eq, Sys.setProc_procs_of_ne _ _ _ hq]
    exact (s.rouse_procs p c j q).1
  | _ => simp [Sys.setProc_procs_of_ne, hq]

inductive Locking (s t : Sys m) (p : Fin m) : Prop
  | keep (hlock : t.lock = s.lock) (hpc : (t.procs p).pc.holds = (s.procs p).pc.holds)
  | acquire (hlock : s.lock = none) (hlock' : t.lock = some p) (hpc : (t.procs p).pc.holds = true)
  | release (hpc : (s.procs p).pc.holds = true) (hlock' : t.lock = none)
      (hpc' : (t.procs p).pc.holds = false)

theorem Move.locking (hm : Move s p t e) : Locking s t p := by
  cases hm with
  | acquire hpc hmove hlock =>
    refine .acquire hlock rfl ?_
    rw [Sys.goto_eq, Sys.setProc_procs_self]
    cases hmove <;> rfl
  | pass hpc hmove =>
    refine .keep rfl ?_
    rw [Sys.goto_eq, Sys.setProc_procs_self, hpc]
    cases hmove <;> rfl
  | wake hpc hmove hj =>
    refine .keep (by simp) ?_
    rw [Sys.goto_eq, Sys.setProc_procs_self, hpc]
    cases hmove <;> rfl
  | put hpc | take hpc | lose hpc | shut hpc =>
    refine .keep rfl ?_
    rw [Sys.goto_eq, Sys.setProc_procs_self, hpc]
    rfl
  | release hpc hmove he =>
    refine .release ?_ rfl ?_
    · rw [hpc]
      cases hmove <;> rfl
    · rw [Sys.goto_eq, Sys.setProc_procs_self]
      cases hmove <;> rfl
  | doze hpc hmove =>
    refine .keep rfl ?_
    rw [Sys.setProc_procs_self, hpc]
    cases hmove <;> rfl
  | @call o hpc =>
    refine .keep rfl ?_
    rw [Sys.goto_eq, Sys.setProc_procs_self, hpc]
    cases o <;> rfl
  | kill hdoze =>
    refine .keep rfl ?_
    rw [Sys.setProc_procs_self]

theorem Owned.step (h : Owned s) (hm : Move s p t e) : Owned t := by
  intro q
  by_cases hq : q = p
  · subst hq
    cases hm.locking with
    | keep hlock hpc => rw [hlock, hpc, h q]
    | acquire hlock hlock' hpc => simp [hlock', hpc]
    | release hpc hlock' hpc' => simp [hlock', hpc']
  · rw [hm.pc_other hq, ← h q]
    cases hm.locking with
    | keep hlock hpc => rw [hlock]
    | acquire hlock hlock' hpc => simp [hlock, hlock', Ne.symm hq]
    | release hpc hlock' hpc' => simp [hlock', (h p).2 hpc, Ne.symm hq]

theorem Move.outside (hm : Move s p t e) (hp : (s.procs p).pc.holds = false) :
    t.pipe = s.pipe ∧ e.delivered? = none := by
  cases hm with
  | acquire | doze | call | kill => exact ⟨rfl, rfl⟩
  | @pass a b hpc hmove | @wake a b c j hpc hmove hj | @release a b e hpc hmove he =>
    rw [hpc] at hp
    cases hmove <;> cases hp
  | put hpc | take hpc | lose hpc | shut hpc =>
    rw [hpc] at hp
    cases hp

end Owner

def Taken (pi : Pipe) (l : List UInt8) (qi : Pipe) : Prop :=
  qi.nread = pi.nread + UInt32.ofNat l.length ∧ pi.buffered = l ++ qi.buffered

theorem Taken.nil (pi : Pipe) : Taken pi [] pi := ⟨(UInt32.add_zero _).symm, rfl⟩

theorem Taken.take {pi qi : Pipe} {l : List UInt8} (h : Taken pi l qi) (hsome : qi.empty = false) :
    Taken pi (l ++ [qi.front]) qi.take := by
  constructor
  · change qi.nread + 1 = _
    rw [h.1, List.length_append, UInt32.ofNat_add, UInt32.add_assoc]
    rfl
  · rw [h.2, Pipe.buffered_take hsome, List.append_assoc]
    rfl

inductive Round (pi : Pipe) (dst : Target) (n : Int) : List UInt8 → Pipe → Pc → Prop
  | wait : Round pi dst n [] pi (.readWait dst n)
  | sleep : Round pi dst n [] pi (.readSleep dst n)
  | quit : Round pi dst n [] pi (.release (-1))
  | loop {l : List UInt8} {qi : Pipe} (h : Taken pi l qi) :
      Round pi dst n l qi (.readLoop dst l.length n)
  | done {l : List UInt8} {qi : Pipe} {k : Nat} (h : Taken pi l qi) :
      Round pi dst n l qi (.readDone l.length k)
  | ret {l : List UInt8} {qi : Pipe} (h : Taken pi l qi) : Round pi dst n l qi (.release l.length)

section Reader

variable {s t u : Sys m} {p q : Fin m} {e : Event m} {pi : Pipe} {dst : Target} {n : Int}
  {l : List UInt8} {es : List (Event m)}

theorem Round.holds {a : Pc} {qi : Pipe} (h : Round pi dst n l qi a) : a.holds = true := by
  cases h <;> rfl

theorem Taken.lt {qi : Pipe} (h : Taken pi l qi) (hsome : qi.empty = false) : l.length < pi.count := by
  have hlen := congrArg List.length h.2
  rw [Pipe.buffered_take hsome, List.length_append, List.length_cons, Pipe.buffered,
    length_contents] at hlen
  omega

theorem Round.move (h : Round pi dst n l s.pipe (s.procs p).pc) (hm : Move s p t e)
    (hlock : t.lock = some p) (hmapped : ∀ i : Nat, (i : Int) < n → i < pi.count → dst i = true) :
    Round pi dst n (l ++ e.delivered?.toList) t.pipe (t.procs p).pc := by
  cases hm with
  | acquire hpc hmove =>
    rw [hpc] at h
    cases hmove <;> cases h
  | pass hpc hmove =>
    rw [hpc] at h
    simp only [Sys.goto_eq, Sys.setProc_procs_self, Sys.setProc_pipe, Event.delivered?,
      Option.toList_none, List.append_nil]
    cases hmove <;> cases h
    case cancel.wait => exact .quit
    case wait.wait => exact .sleep
    case start.wait => exact .loop (.nil _)
    case emptied.loop h => exact .done h
    case readEnd.done h => exact .ret h
  | wake hpc hmove hj =>
    rw [hpc] at h
    simp only [Sys.goto_eq, Sys.setProc_procs_self, Sys.setProc_pipe, Sys.rouse_pipe,
      Event.delivered?, Option.toList_none, List.append_nil]
    cases hmove <;> cases h
    case read.done h => exact .done h
  | put hpc | shut hpc | call hpc =>
    rw [hpc] at h
    cases h
  | take hpc hi hsome hdst =>
    rw [hpc] at h
    simp only [Sys.goto_eq, Sys.setProc_procs_self]
    cases h with
    | loop h =>
      have hloop := @Round.loop _ dst n _ _ (h.take hsome)
      rw [List.length_append] at hloop
      exact hloop
  | lose hpc hi hsome hdst =>
    rw [hpc] at h
    cases h with
    | loop h =>
      rw [hmapped _ hi (h.lt hsome)] at hdst
      cases hdst
  | release hpc hmove he => cases hlock
  | doze hpc hmove =>
    rw [hpc] at h
    cases hmove <;> cases h
  | kill hdoze =>
    simp only [Sys.setProc_procs_self, Sys.setProc_pipe, Event.delivered?, Option.toList_none,
      List.append_nil]
    exact h

theorem Round.step (h : Round pi dst n l s.pipe (s.procs p).pc) (hs : Owned s) (hm : Move s q t e)
    (hlock : t.lock = some p) (hmapped : ∀ i : Nat, (i : Int) < n → i < pi.count → dst i = true) :
    Round pi dst n (l ++ e.delivered?.toList) t.pipe (t.procs p).pc := by
  by_cases hq : q = p
  · subst hq
    exact h.move hm hlock hmapped
  · have hout : (s.procs q).pc.holds = false := by
      have hp := (hs p).2 h.holds
      have hq' := mt (hs q).2
      rw [hp] at hq'
      exact Bool.eq_false_iff.2 (hq' fun heq => hq (Option.some.inj heq).symm)
    obtain ⟨hpipe, hnone⟩ := hm.outside hout
    rw [hpipe, hm.pc_other (Ne.symm hq), hnone, Option.toList_none, List.append_nil]
    exact h

theorem delivered_append (es : List (Event m)) (e : Event m) :
    delivered (es ++ [e]) = delivered es ++ e.delivered?.toList := by
  rw [delivered, List.filterMap_append]
  congr 1

theorem Round.run (hs : Owned s) (hpc : (s.procs p).pc = .readWait dst n)
    (hmapped : ∀ i : Nat, (i : Int) < n → i < s.pipe.count → dst i = true)
    (hrun : Run (Restrict Step fun _ _ t => t.lock = some p) s es t) :
    Owned t ∧ Round s.pipe dst n (delivered es) t.pipe (t.procs p).pc := by
  apply hrun.history (I := fun es t => Owned t ∧ Round s.pipe dst n (delivered es) t.pipe (t.procs p).pc)
  · rintro es t e u ⟨howned, hround⟩ ⟨hstep, hlock⟩
    obtain ⟨q, hm, -⟩ := hstep.move
    refine ⟨howned.step hm, ?_⟩
    rw [delivered_append]
    exact hround.step howned hm hlock hmapped
  · refine ⟨hs, ?_⟩
    rw [hpc]
    exact .wait

end Reader

theorem exec_returned {s u : Sys m} {p q : Fin m} {a : Pc} {r : Int}
    (h : s.exec p a = some (u, .returned q r)) :
    a = .release r ∧ u = (s.setLock none).goto p .user := by
  cases a with
  | release r' =>
    simp only [Sys.exec, Option.some.injEq, Prod.mk.injEq, Event.returned.injEq] at h
    obtain ⟨rfl, -, rfl⟩ := h
    exact ⟨rfl, rfl⟩
  | writeLoop src i n =>
    simp only [Sys.exec, Sys.writeLoop, Option.some.injEq] at h
    repeat' split at h
    all_goals simp at h
  | readLoop dst i n =>
    simp only [Sys.exec, Sys.readLoop, Option.some.injEq] at h
    repeat' split at h
    all_goals simp at h
  | closeEnd =>
    simp only [Sys.exec, Option.some.injEq, Prod.mk.injEq] at h
    obtain ⟨-, h⟩ := h
    split at h <;> cases h
  | _ => simp [Sys.exec] at h

/-- A reader with the lock, and one byte in the pipe. -/
def oneByte (dst : Target) : Sys 1 where
  pipe := { data := fun _ => 7, nread := 0, nwrite := 1, readopen := true, writeopen := true }
  lock := some 0
  procs _ := { pc := .readWait dst 2, killed := false, chan := none }

theorem owned_oneByte (dst : Target) : Owned (oneByte dst) := by
  intro p
  have hp : p = 0 := Subsingleton.elim p 0
  simp [oneByte, Pc.holds, hp]

def readRun (dst : Target) (k : Nat) : Option (Sys 1 × List (Event 1)) :=
  Lib.trace (Lib.guarded Sys.next fun _ _ t => t.lock == some 0) (oneByte dst)
    (List.replicate k (.go 0))

theorem readRun_run {dst : Target} {k : Nat} {t : Sys 1} {es : List (Event 1)}
    (h : readRun dst k = some (t, es)) :
    Run (Restrict Step fun _ _ t => t.lock = some 0) (oneByte dst) es t := by
  apply Lib.trace_run _ h
  intro s k t e hstep
  obtain ⟨hnext, hlock⟩ := Option.filter_eq_some_iff.1 hstep
  exact ⟨Sys.next_step s k t e hnext, by simpa using hlock⟩

end Xv6.Pipes
