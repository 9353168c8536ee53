import Xv6.Sched.Sections

/-!
# The life cycle of a process slot

Every change of `p->state` along a step of the machine, with the instruction that
makes it: `p->lock` is held, and the old state is the one the code expects.
-/

namespace Xv6.Sched

open Instr

variable {n : Nat}

variable {d' : Data n} {j : Slot} {i : Instr} {rest exp : Code} {c : Choice}

namespace Sys

variable {pol : Policy} {s s' : Sys n} {h : Fin n} {e : Event n}

inductive Transition (t : Thread n) (i : Instr) (j : Slot) : Procstate → Procstate → Prop
  | dispatch (hi : i = tryRun j) : Transition t i j .runnable .running
  | park (ht : t = .kernel j) (hi : i = yieldRunnable j) : Transition t i j .running .runnable
  | sleep (ht : t = .kernel j) {chan : Chan} (hi : i = setSleeping j chan) :
      Transition t i j .running .sleeping
  | exit (ht : t = .kernel j) {st : Int} (hi : i = setZombie j st) :
      Transition t i j .running .zombie
  | wake {chan : Chan} (hi : i = wakeRunnable chan j) : Transition t i j .sleeping .runnable
  | kill {pid : Int} (hi : i = killCheck pid j) : Transition t i j .sleeping .runnable
  | used {pid : Int} (hi : i = setUsed j pid) : Transition t i j .unused .used
  | unclaim {p : Slot} (hi : i = allocMem p j) : Transition t i j .used .unused
  | born (hi : i = forkRunnable j) : Transition t i j .used .runnable
  | reap {p : Slot} {a : WaitArgs} (hi : i = waitCheck p a j) : Transition t i j .zombie .unused

theorem Moved.state_of_ne {d : Data n} {k : Slot} {st : Procstate} (hm : Moved d d' j st)
    (hne : (d'.proc k).state ≠ (d.proc k).state) : k = j ∧ (d'.proc k).state = st := by
  have := hm.1 k
  split at this
  · next hk => exact ⟨hk, this⟩
  · exact absurd this hne

theorem Inv.used_of_claim (hI : Inv s) (hcode : s.running h = i :: rest) (hi : i.claim = some j)
    (ha : allocating (i :: rest) = none) :
    (s.d.proc j).state = .used := by
  have hc : Claims (s.running h) j := hcode ▸ ⟨i, List.mem_cons_self, hi⟩
  have := hI.claim (s.cur h) j hc
  rw [← Sys.running, hcode, ha] at this
  simpa using this

theorem exec_transition (hI : Inv s) (hcode : s.running h = i :: rest)
    (hx : exec pol s.d h (s.cur h) c i = some (d', exp, e))
    (hne : (d'.proc j).state ≠ (s.d.proc j).state) :
    Transition (s.cur h) i j (s.d.proc j).state (d'.proc j).state := by
  cases exec_effect hx (hI.ok hcode)
  case plain hm hpos => exact absurd (hm.1 j) hne
  case dated k hi hm hpos => exact absurd (hm.1 j) hne
  case reset k hi hm hpos => exact absurd (hm.1 j) hne
  case found k hi hj hd hpos => exact absurd (by rw [hd]) hne
  case claim p k hi hj hd hpos => exact absurd (by rw [hd]) hne
  case clear k hi hst hcpu hpos => exact absurd (hst j) hne
  case dispatch k hi hk hst hcpu hpos =>
    have := hst j
    split at this
    · next hj =>
      subst hj
      rw [hk, this]
      exact .dispatch hi
    · exact absurd this hne
  case park p st ht hlk hi hz hs hr hst hm hq hpos =>
    obtain ⟨rfl, hst'⟩ := Moved.state_of_ne hm hne
    have hrun := hI.run h j ht
    rw [hcode, if_neg (by simp [hq])] at hrun
    rw [hrun, hst']
    rcases hst with rfl | rfl | rfl
    · exact .park ht (hr rfl)
    · obtain ⟨chan, hi⟩ := hs rfl
      exact .sleep ht hi
    · obtain ⟨x, hi⟩ := hz rfl
      exact .exit ht hi
  case wake k hi hm hpos =>
    obtain ⟨rfl, hst'⟩ := Moved.state_of_ne hm hne
    obtain ⟨chan, rfl⟩ := hi
    rw [hI.wake h j (by rw [hcode]; rfl), hst']
    exact .wake rfl
  case kill k hi hj hm hpos =>
    obtain ⟨rfl, hst'⟩ := Moved.state_of_ne hm hne
    obtain ⟨pid, hi⟩ := hi
    rw [hj, hst']
    exact .kill hi
  case used k hi hm hpos =>
    obtain ⟨rfl, hst'⟩ := Moved.state_of_ne hm hne
    obtain ⟨pid, rfl⟩ := hi
    rw [hI.fresh h j (by rw [hcode]; rfl), hst']
    exact .used rfl
  case unclaim k hi hm hpos hclaim =>
    obtain ⟨rfl, hst'⟩ := Moved.state_of_ne hm hne
    obtain ⟨p, rfl⟩ := hi
    rw [hI.used_of_claim hcode rfl rfl, hst']
    exact .unclaim rfl
  case reap k hi hj hm hpos =>
    obtain ⟨rfl, hst'⟩ := Moved.state_of_ne hm hne
    obtain ⟨p, a, hi⟩ := hi
    rw [hj, hst']
    exact .reap hi
  case born k hi hm hpos =>
    obtain ⟨rfl, hst'⟩ := Moved.state_of_ne hm hne
    subst hi
    rw [hI.used_of_claim hcode rfl rfl, hst']
    exact .born rfl

/-- A process on its way into `sched()` still has to write `ttime` if it exits, and
nothing else. -/
theorem exec_parked (hx : exec pol s.d h (s.cur h) c i = some (d', exp, e))
    (hp : parked (i :: rest) = true) : ∃ p, i = setTtime p := by
  cases i <;> simp [parked] at hp <;> simp [exec] at hx ⊢

theorem exec_zombie (hI : Inv s) (hcode : s.running h = i :: rest)
    (hx : exec pol s.d h (s.cur h) c i = some (d', exp, e))
    (hz : (d'.proc j).state = .zombie) : (s.d.proc j).state = .zombie ∨
      s.cur h = .kernel j ∧ (s.d.proc j).state = .running ∧ ∃ st, i = setZombie j st := by
  by_cases hne : (d'.proc j).state = (s.d.proc j).state
  · exact .inl (hne ▸ hz)
  · have htr := exec_transition hI hcode hx hne
    rw [hz] at htr
    generalize (s.d.proc j).state = a at htr
    cases htr with
    | exit ht hi => exact .inr ⟨ht, rfl, _, hi⟩

theorem exec_freed (hI : Inv s) (hcode : s.running h = i :: rest)
    (hx : exec pol s.d h (s.cur h) c i = some (d', exp, e)) (hu' : (d'.proc j).state = .unused)
    (hu : (s.d.proc j).state ≠ .unused) :
    (d'.proc j).parent = none := by
  have htr := exec_transition hI hcode hx (by rw [hu']; exact hu.symm)
  rw [hu'] at htr
  generalize hst : (s.d.proc j).state = a at htr hu
  cases htr with
  | unclaim hi =>
    subst hi
    simp only [Sched.exec] at hx
    split at hx <;> simp only [Option.some.injEq, Prod.mk.injEq, reduceCtorEq] at hx
    · simp [← hx.1, hst] at hu'
    · simp [← hx.1, Data.freeproc, Data.setState]
  | reap hi =>
    subst hi
    simp only [Sched.exec, hst, if_true] at hx
    repeat' split at hx
    all_goals simp only [Option.some.injEq, Prod.mk.injEq, reduceCtorEq] at hx
    all_goals first
      | simp [← hx.1, Data.freeproc, Data.setState]; done
      | simp [← hx.1, hst] at hu'

theorem StepOf.transition (hI : Inv s) (hs : StepOf pol s h e s')
    (hne : (s'.d.proc j).state ≠ (s.d.proc j).state) :
    ∃ i rest, s.running h = i :: rest ∧
      Transition (s.cur h) i j (s.d.proc j).state (s'.d.proc j).state := by
  cases hs with
  | exec hcode hx => exact ⟨_, _, hcode, exec_transition hI hcode hx hne⟩
  | _ => exact absurd rfl hne

end Sys

end Xv6.Sched
