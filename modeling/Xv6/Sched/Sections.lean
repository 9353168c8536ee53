import Xv6.Sched.Writes
import Xv6.Sched.Invariant

/-!
# Loops under an outer lock

`clockintr`, `wakeup`, `wait` and `reparent` go through the process table one slot
at a time while they hold `tickslock`, `wait_lock` or a client's lock.  `inner`
reads off which slot such a loop has come to.  `exec_section` lists the ways in
which one instruction moves it on; every other instruction leaves the thread
outside of all of these loops.
-/

namespace Xv6.Sched

open Instr

variable {n : Nat}

/-- The instruction a thread comes to once the `wakeup` it is in, if any, has
returned. -/
def beyond : Code → Option Instr
  | [] => none
  | i :: c =>
    match i with
    | acquire lk | release lk => if lk.rank < 2 then none else beyond c
    | takeQueue _ | setQueue _ _ | wakeupLoop _ _ | wake _ _ | wakeRunnable _ _ => beyond c
    | _ => some i

def rousing (c : Code) : Option (Chan × Nat) :=
  match inner c with
  | some (wakeupLoop chan k) => some (chan, k)
  | some (wake chan j) | some (wakeRunnable chan j) => some (chan, j)
  | _ => none

def clocking (c : Code) : Option Nat :=
  match inner c with
  | some (clockLoop k) => some k
  | some (account j) => some j
  | _ => none

def scanning (c : Code) : Option Nat :=
  match inner c with
  | some (waitScan _ _ k _) => some k
  | some (waitCheck _ _ j) => some j
  | some (releaseSleep _ (.proc _) _) => some NPROC
  | _ => none

def adopting (c : Code) : Option Nat :=
  match beyond c with
  | some (reparent _ k) => some k
  | some (wakeupParent _) | some (setZombie _ _) => some NPROC
  | _ => none

section

variable {c : Code} {lk : Lock}

theorem inner_acquire (hlk : 2 ≤ lk.rank) : inner (acquire lk :: c) = inner c := if_neg (by omega)

theorem inner_release (hlk : 2 ≤ lk.rank) : inner (release lk :: c) = inner c := if_neg (by omega)

theorem beyond_acquire (hlk : 2 ≤ lk.rank) : beyond (acquire lk :: c) = beyond c :=
  if_neg (by omega)

theorem beyond_release (hlk : 2 ≤ lk.rank) : beyond (release lk :: c) = beyond c :=
  if_neg (by omega)

attribute [local simp] inner beyond plain

theorem beyond_of_plain (hp : plain c = true) : beyond c = inner c := by
  induction c with
  | nil => rfl
  | cons i c ih =>
    cases i
    case acquire lk | release lk =>
      by_cases hlk : lk.rank < 2 <;> simp_all
    all_goals simp_all

theorem none_of_plain (hp : plain c = true) :
    rousing c = none ∧ clocking c = none ∧ scanning c = none ∧ adopting c = none := by
  unfold adopting
  rw [beyond_of_plain hp]
  induction c with
  | nil => simp [rousing, clocking, scanning]
  | cons i c ih =>
    cases i
    case acquire lk =>
      by_cases hlk : lk.rank < 2
      · simp [rousing, clocking, scanning, hlk]
      · rw [rousing, clocking, scanning, inner_acquire (by omega)]
        exact ih (by simp_all)
    case release lk =>
      by_cases hlk : lk.rank < 2
      · simp [rousing, clocking, scanning, hlk]
      · rw [rousing, clocking, scanning, inner_release (by omega)]
        exact ih (by simp_all)
    all_goals simp_all [rousing, clocking, scanning]

end

variable {t : Thread n} {c : Code}

/-- An outer lock that is held at the instruction under way is held already now. -/
theorem held_of_inner {x : Instr} {lk : Lock} (hwf : WF t c) (hin : inner c = some x)
    (hlk : lk.rank < 2) (hx : ∀ rest, WF t (x :: rest) → lk ∈ held (x :: rest)) : lk ∈ held c := by
  induction c with
  | nil => simp [inner] at hin
  | cons i c ih =>
    cases i
    case acquire l =>
      by_cases hl : l.rank < 2
      · simp [inner, hl] at hin
      · rw [inner_acquire (by omega)] at hin
        have hne : lk ≠ l := by
          rintro rfl
          exact hl hlk
        simp [held, ih hwf.2 hin, hne]
    case release l =>
      by_cases hl : l.rank < 2
      · simp [inner, hl] at hin
      · rw [inner_release (by omega)] at hin
        simp [held, ih hwf.2 hin]
    case takeQueue | setQueue => simp [held, ih hwf.2 hin]
    all_goals
      obtain rfl := Option.some.inj hin
      exact hx c hwf

/-- `exit` holds `wait_lock`, and not `tickslock`, from `reparent` on. -/
theorem adopting_held {k : Nat} (hwf : WF t c)
    (ha : adopting c = some k) : Lock.waitLock ∈ held c ∧ Lock.tickslock ∉ held c := by
  unfold adopting at ha
  induction c with
  | nil => simp [beyond] at ha
  | cons i c ih =>
    cases i
    case acquire lk =>
      by_cases hlk : lk.rank < 2
      · simp [beyond, hlk] at ha
      · rw [beyond_acquire (by omega)] at ha
        obtain ⟨h₁, h₂⟩ := ih hwf.2 ha
        have hne : Lock.waitLock ≠ lk := by
          rintro rfl
          simp at hlk
        simp [held, h₁, h₂, hne]
    case release lk =>
      by_cases hlk : lk.rank < 2
      · simp [beyond, hlk] at ha
      · rw [beyond_release (by omega)] at ha
        obtain ⟨h₁, h₂⟩ := ih hwf.2 ha
        have hne : Lock.tickslock ≠ lk := by
          rintro rfl
          simp at hlk
        simp [held, Instr.gives, h₁, h₂, hne]
    all_goals simp_all [beyond, held, Instr.gives, WF, Ok]

/-! ## How the loops go on -/

/-- Instruction `i` of a thread of hart `h`, with `rest` after it, leaves the code
`c'` and the data `d'`. -/
inductive Section (d : Data n) (h : Fin n) (i : Instr) (rest : Code) (d' : Data n) (c' : Code) :
    Prop
  | plain (hp : plain c' = true) (hr : rousing (i :: rest) = none)
  /-- `alloc_queue_counter`. -/
  | same (hi : (∃ j, i = takeQueue j) ∨ ∃ j v, i = setQueue j v)
      (hin : inner c' = inner (i :: rest)) (hbe : beyond c' = beyond (i :: rest))
  | tick (hi : i = Instr.tick) (hin : inner c' = some (clockLoop 0))
      (hbe : beyond c' = some (clockLoop 0))
  | clockVisit (j : Slot) (hi : i = clockLoop j) (hd : d' = d)
      (hin : inner c' = some (Instr.account j)) (hbe : beyond c' = some (Instr.account j))
  | clockDone (k : Nat) (hi : i = clockLoop k) (hk : NPROC ≤ k) (hd : d' = d)
      (hin : inner c' = some (wakeupLoop .ticks 0)) (hbe : adopting c' = none)
  | account (j : Slot) (hi : i = Instr.account j) (hin : inner c' = some (clockLoop (j + 1)))
      (hbe : beyond c' = some (clockLoop (j + 1)))
  /-- A client starts a `wakeup`. -/
  | wakeStart (x : Nat) (hd : d' = d) (hr : rousing (i :: rest) = none)
      (hin : inner c' = some (wakeupLoop (.other x) 0)) (hbe : adopting c' = none)
  | wakeVisit (chan : Chan) (j : Slot) (hi : i = wakeupLoop chan j) (hj : d.cpuProc h ≠ some j)
      (hd : d' = d) (hin : inner c' = some (Instr.wake chan j)) (hbe : beyond c' = beyond (i :: rest))
  /-- `p != myproc()`. -/
  | wakeSkip (chan : Chan) (j : Slot) (hi : i = wakeupLoop chan j) (hj : d.cpuProc h = some j)
      (hd : d' = d) (hin : inner c' = some (wakeupLoop chan (j + 1)))
      (hbe : beyond c' = beyond (i :: rest))
  | wakeDone (chan : Chan) (k : Nat) (hi : i = wakeupLoop chan k) (hk : NPROC ≤ k) (hd : d' = d)
      (hc : c' = rest)
  | wakeFound (chan : Chan) (j : Slot) (hi : i = Instr.wake chan j)
      (hj : (d.proc j).state = .sleeping ∧ (d.proc j).chan = chan) (hd : d' = d)
      (hin : inner c' = some (wakeRunnable chan j)) (hbe : beyond c' = beyond (i :: rest))
  | wakeMiss (chan : Chan) (j : Slot) (hi : i = Instr.wake chan j)
      (hj : ¬((d.proc j).state = .sleeping ∧ (d.proc j).chan = chan)) (hd : d' = d)
      (hin : inner c' = some (wakeupLoop chan (j + 1))) (hbe : beyond c' = beyond (i :: rest))
  | woken (chan : Chan) (j : Slot) (hi : i = wakeRunnable chan j) (hd : d' = d.setState j .runnable)
      (hin : inner c' = some (wakeupLoop chan (j + 1))) (hbe : beyond c' = beyond (i :: rest))
  | scanSkip (p : Slot) (a : WaitArgs) (j : Slot) (k : Bool) (hi : i = waitScan p a j k)
      (hj : (d.proc j).parent ≠ some p) (hd : d' = d)
      (hin : inner c' = some (waitScan p a (j + 1) k))
  | scanVisit (p : Slot) (a : WaitArgs) (j : Slot) (k : Bool) (hi : i = waitScan p a j k)
      (hj : (d.proc j).parent = some p) (hd : d' = d) (hin : inner c' = some (waitCheck p a j))
  | scanSleep (p : Slot) (a : WaitArgs) (m : Nat) (k : Bool) (hi : i = waitScan p a m k)
      (hm : NPROC ≤ m) (hd : d' = d) (hin : inner c' = some (releaseSleep p (.proc p) .waitLock))
  | checkMiss (p : Slot) (a : WaitArgs) (j : Slot) (hi : i = waitCheck p a j)
      (hj : (d.proc j).state ≠ .zombie) (hd : d' = d)
      (hin : inner c' = some (waitScan p a (j + 1) true))
  /-- Any other caller of `sleep`. -/
  | sleepStart (p : Slot) (chan : Chan) (lk : Lock) (hchan : ∀ q, chan ≠ .proc q) (hd : d' = d)
      (hr : rousing (i :: rest) = none) (hin : inner c' = some (releaseSleep p chan lk))
  | adopt (p : Slot) (j : Slot) (hi : i = reparent p j) (hj : (d.proc j).parent = some p)
      (hd : d' = d.setProc j fun q => { q with parent := some d.initproc })
      (hin : inner c' = some (wakeupLoop (.proc d.initproc) 0))
      (hbe : beyond c' = some (reparent p (j + 1)))
  | adoptSkip (p : Slot) (j : Slot) (hi : i = reparent p j) (hj : (d.proc j).parent ≠ some p)
      (hd : d' = d) (hin : inner c' = some (reparent p (j + 1)))
      (hbe : beyond c' = some (reparent p (j + 1)))
  | adoptDone (p : Slot) (k : Nat) (hi : i = reparent p k) (hk : NPROC ≤ k) (hd : d' = d)
      (hin : inner c' = some (wakeupParent p)) (hbe : beyond c' = some (wakeupParent p))
  | exitWake (p : Slot) (st : Int) (hi : i = wakeupParent p) (hd : d' = d)
      (hin : inner c' = some (wakeupLoop (((d.proc p).parent.map Chan.proc).getD .null) 0))
      (hbe : beyond c' = some (setZombie p st))

section

attribute [local simp] inner beyond plain Ok Settled Still Quiet Idle

theorem beyond_of_inner {x : Instr} (hx : inner c = some x)
    (hne : (∀ chan k, x ≠ wakeupLoop chan k) ∧ (∀ chan j, x ≠ Instr.wake chan j) ∧
      ∀ chan j, x ≠ wakeRunnable chan j) : beyond c = some x := by
  induction c with
  | nil => simp at hx
  | cons i c ih =>
    cases i
    case acquire lk | release lk =>
      by_cases hlk : lk.rank < 2 <;> simp_all
    all_goals simp_all
    all_goals subst hx; simp at hne

theorem plain_exit {ip p : Slot} {st : Int} : plain (exit ip p st ++ c) = true := by
  unfold exit
  split <;> simp

theorem plain_syscall {ip p : Slot} {x : Syscall} : plain (syscall ip p x ++ c) = true := by
  cases x
  case exit => exact plain_exit
  all_goals simp [syscall, fork, wait, kill, sysSleep]

theorem exec_section {pol : Policy} {d d' : Data n} {h : Fin n} {c : Choice} {i : Instr}
    {rest exp : Code} {e : Event n} (hx : exec pol d h t c i = some (d', exp, e))
    (hok : Ok t i rest) (hwf : WF t rest) :
    Section d h i rest d' (exp ++ rest) := by
  cases i <;> simp only [exec, forSlot, Option.bind_eq_bind, Option.bind_eq_some_iff,
    reduceCtorEq] at hx
  case user =>
    obtain ⟨p, -, hx⟩ := hx
    split at hx <;> cases hx
    · refine .plain ?_ rfl
      split <;> rw [List.append_assoc]
      · exact plain_exit
      · exact plain_syscall
    · exact .plain (by simp) rfl
  case killedExit =>
    obtain ⟨p, -, ⟨⟩⟩ := hx
    refine .plain ?_ rfl
    split
    · exact plain_exit
    · simp_all
  case quantum =>
    obtain ⟨p, -, ⟨⟩⟩ := hx
    exact .plain (by simp) rfl
  case clockLoop k =>
    cases hx
    split
    · next hk => exact .clockVisit ⟨k, hk⟩ rfl rfl (by simp) (by simp)
    · next hk =>
      refine .clockDone k rfl (by omega) rfl hok.2.2.2 ?_
      by_contra ha
      obtain ⟨m, hm⟩ := Option.ne_none_iff_exists'.1 ha
      exact (adopting_held hwf hm).2 hok.1
  case wakeupLoop chan k =>
    cases hx
    split
    · next hk =>
      split
      · next hj => exact .wakeSkip chan ⟨k, hk⟩ rfl hj rfl (by simp) (by simp)
      · next hj => exact .wakeVisit chan ⟨k, hk⟩ rfl hj rfl (by simp) (by simp)
    · next hk => exact .wakeDone chan k rfl (by omega) rfl (by simp)
  case wake chan j =>
    cases hx
    split
    · next hj =>
      refine .wakeFound chan j rfl hj rfl ?_ ?_
      all_goals simp [allocQueueCounter]
    · next hj => exact .wakeMiss chan j rfl hj rfl hok.2.2.2.2 rfl
  case waitScan p a m k =>
    cases hx
    split
    · next hm =>
      split
      · next hj => exact .scanVisit p a ⟨m, hm⟩ k rfl hj rfl (by simp)
      · next hj => exact .scanSkip p a ⟨m, hm⟩ k rfl hj rfl (by simp)
    · next hm =>
      split
      · exact .plain (by simp) rfl
      · exact .scanSleep p a m k rfl (by omega) rfl (by simp [sleep])
  case waitCheck p a j =>
    split at hx
    · repeat' split at hx
      all_goals cases hx
      all_goals exact .plain (by simp) rfl
    · next hj =>
      cases hx
      exact .checkMiss p a j rfl hj rfl (by simp)
  case reparent p k =>
    split at hx
    · next hk =>
      split at hx <;> cases hx
      · next hj => exact .adopt p ⟨k, hk⟩ rfl hj rfl (by simp [wakeup]) (by simp [wakeup])
      · next hj => exact .adoptSkip p ⟨k, hk⟩ rfl hj rfl (by simp) (by simp)
    · next hk =>
      cases hx
      have hin : inner rest = some (wakeupParent p) := hok.2.2.2
      exact .adoptDone p k rfl (by omega) rfl hin (beyond_of_inner hin (by simp))
  case wakeupParent p =>
    cases hx
    obtain ⟨st, hst⟩ := hok.2.2.2
    exact .exitWake p st rfl rfl (by simp [wakeup]) (by
      simp [wakeup]
      exact beyond_of_inner hst (by simp))
  case sleepLoop p k t0 =>
    cases hx
    split
    · split
      · exact .plain (by simp) rfl
      · exact .sleepStart p .ticks .tickslock (by simp) rfl rfl (by simp [sleep])
    · exact .plain (by simp) rfl
  case clientLoop p m =>
    split at hx <;> cases hx
    · next x => exact .sleepStart p (.other x) (.other m) (by simp) rfl rfl (by simp [sleep])
    · next x => exact .wakeStart x rfl rfl (by simp [wakeup]) (by simp [wakeup, adopting])
    · exact .plain (by simp) rfl
  case intrLoop m =>
    split at hx <;> cases hx
    · next x => exact .wakeStart x rfl rfl (by simp [wakeup]) (by simp [wakeup, adopting])
    · exact .plain (by simp) rfl
  case allocMem p j =>
    split at hx <;> cases hx
    · exact .plain (by simp [forkTail]) rfl
    · exact .plain (by simp_all) rfl
  case clients p =>
    split at hx <;> cases hx
    all_goals exact .plain (by simp_all) rfl
  case killCheck pid j =>
    repeat' split at hx
    all_goals
      cases hx
      exact .plain (by simp_all [allocQueueCounter]) rfl
  case tryRun j =>
    split at hx <;> cases hx
    · refine .plain ?_ rfl
      split <;> simp
    · exact .plain (by simp_all) rfl
  all_goals cases hx
  case tick => exact .tick rfl rfl rfl
  case account j => exact .account j rfl hok.2.2.2 (beyond_of_inner hok.2.2.2 (by simp))
  case wakeRunnable chan j => exact .woken chan j rfl rfl hok.2.2 rfl
  case takeQueue j => exact .same (.inl ⟨j, rfl⟩) (by simp) (by simp)
  case setQueue j v => exact .same (.inr ⟨j, v, rfl⟩) (by simp) (by simp)
  case yieldRunnable p => exact .plain (settled_of_parked hok.2.2).2.2.2.2.2 rfl
  case setSleeping p chan => exact .plain (settled_of_parked hok.2.2.1).2.2.2.2.2 rfl
  case setZombie p st => exact .plain (settled_of_parked hok.2.2.2.1).2.2.2.2.2 rfl
  case setTtime p => exact .plain (settled_of_parked hok.2.2.2.1).2.2.2.2.2 rfl
  case setUsed j pid => exact .plain (settled_of_filling hok.2).2.2.2.2.2.2 rfl
  case setCtime j => exact .plain (settled_of_filling hok.2.2).2.2.2.2.2.2 rfl
  case setAverage j b => exact .plain (settled_of_dispatching hok.2.2.1).2.2.2.2.2.2 rfl
  case scan k cand min =>
    refine .plain ?_ rfl
    split
    · simp
    · cases cand <;> simp_all
  case kernelTimer | killLoop | allocLoop | schedLoop | dfltScan =>
    refine .plain ?_ rfl
    split <;> simp_all
  case allocCheck =>
    refine .plain ?_ rfl
    split <;> simp_all [allocFound]
  all_goals exact .plain (by simp_all) rfl

end


namespace Sys

variable {pol : Policy} {s s' : Sys n} {h : Fin n} {e : Event n}

/-! ## What a step leaves alone -/

theorem StepOf.cur_other (hs : StepOf pol s h e s') {k : Fin n} (hk : k ≠ h) :
    s'.cur k = s.cur k := by
  cases hs with
  | sched | swtch => exact Function.update_of_ne hk ..
  | _ => rfl

/-- The code of the other threads is untouched, except that `fork` sets up the
context of its child. -/
theorem StepOf.code_other (hI : Inv s) (hs : StepOf pol s h e s') (ht : t ≠ s.cur h) :
    s'.code t = s.code t ∨ ∃ i, t = .kernel i ∧ (s.d.proc i).state = .used ∧
      s'.code t = [.release (.proc i), .user] := by
  cases hs with
  | forkret hcode =>
    rename_i i rest
    by_cases hti : t = .kernel i
    · refine .inr ⟨i, hti, ?_, by rw [hti]; exact Function.update_self ..⟩
      have hcl : Claims (s.running h) i := hcode ▸ ⟨_, List.mem_cons_self, rfl⟩
      have := hI.claim (s.cur h) i hcl
      rw [← Sys.running, hcode] at this
      simpa [allocating] using this
    · left
      exact (Function.update_of_ne hti ..).trans (Function.update_of_ne ht ..)
  | _ => exact .inl (Function.update_of_ne ht ..)

theorem StepOf.running_other (hI : Inv s) (hs : StepOf pol s h e s') {k : Fin n} (hk : k ≠ h) :
    s'.running k = s.running k := by
  have hne : s.cur k ≠ s.cur h := fun hc => hk (hI.cur_inj hc)
  rw [Sys.running, hs.cur_other hk]
  rcases hs.code_other hI hne with hc | ⟨i, hi, hst, -⟩
  · exact hc
  · exact absurd hi (hI.cur_ne_of_state (.inl hst))

/-- How a step of hart `h` moves its thread on with respect to the loops under an
outer lock. -/
inductive Progress (pol : Policy) (s : Sys n) (h : Fin n) (e : Event n) (s' : Sys n) : Prop
  /-- The thread is outside these loops now. -/
  | out (hd : s'.d = s.d) (hp : plain (s'.running h) = true) (hr : rousing (s.running h) = none)
  /-- An inner lock was taken or released. -/
  | lock (hd : s'.d = s.d) (hcur : s'.cur h = s.cur h)
      (hin : inner (s'.running h) = inner (s.running h))
      (hbe : beyond (s'.running h) = beyond (s.running h))
  /-- The outer lock of a scan was taken. -/
  | start (hd : s'.d = s.d) (hcur : s'.cur h = s.cur h) (hr : rousing (s.running h) = none)
      (hin : (∃ p a k, inner (s'.running h) = some (waitScan p a 0 k)) ∨
        ∃ p, inner (s'.running h) = some (reparent p 0))
  | exec {c : Choice} {i : Instr} {rest exp : Code} {d' : Data n}
      (hcode : s.running h = i :: rest) (hd : s'.d = d') (hcur : s'.cur h = s.cur h)
      (hx : exec pol s.d h (s.cur h) c i = some (d', exp, e))
      (hrun : s'.running h = exp ++ rest)
      (hsec : Section s.d h i rest d' (exp ++ rest))

theorem StepOf.progress (hI : Inv s) (hs : StepOf pol s h e s') : Progress pol s h e s' := by
  cases hs with
  | acquire hcode hfree =>
    rename_i lk rest
    by_cases hlk : lk.rank < 2
    · have hr : rousing (s.running h) = none := by simp [hcode, rousing, inner, hlk]
      rcases (hI.ok hcode).2.2.2.2.1 hlk with hp | hst | hst
      · exact .out rfl (by simpa [Sys.running] using hp) hr
      · exact .start rfl rfl hr (.inl (by simpa [Sys.running] using hst))
      · exact .start rfl rfl hr (.inr (by simpa [Sys.running] using hst))
    · refine .lock rfl rfl ?_ ?_
      · rw [hcode, inner_acquire (by omega)]
        simp [Sys.running]
      · rw [hcode, beyond_acquire (by omega)]
        simp [Sys.running]
  | release hcode hi hown =>
    rename_i lk rest i
    rcases hi with ⟨rfl, -⟩ | ⟨p, chan, rfl, -⟩
    · by_cases hlk : lk.rank < 2
      · exact .out rfl (by simpa [Sys.running] using (hI.ok hcode).2.1 hlk)
          (by simp [hcode, rousing, inner, hlk])
      · refine .lock rfl rfl ?_ ?_
        · rw [hcode, inner_release (by omega)]
          simp [Sys.running]
        · rw [hcode, beyond_release (by omega)]
          simp [Sys.running]
    · obtain ⟨c', rfl⟩ := (hI.ok hcode).2.2.2
      exact .out rfl (by simp [Sys.running, plain]) (by rw [hcode]; rfl)
  | sched hcode hstate =>
    rename_i p rest
    have hcur := (hI.ok hcode).1
    have hback := settled_of_dispatching (hI.back h p hcur).2.1
    exact .out rfl (by simpa [Sys.running, hcur] using hback.2.2.2.2.2.2) (by rw [hcode]; rfl)
  | swtch hcode =>
    rename_i i rest
    obtain ⟨hne, hquiet, -⟩ := hI.target hcode
    refine .out rfl ?_ (by rw [hcode]; rfl)
    simpa [Sys.running, Function.update_of_ne (hne h).symm] using hquiet.2
  | forkret hcode =>
    rename_i i rest
    obtain ⟨⟨p, hp, hpi⟩, -, hquiet, -⟩ := hI.ok hcode
    have hne : s.cur h ≠ .kernel i := by simpa [hp] using hpi
    refine .out rfl ?_ (by rw [hcode]; rfl)
    simpa [Sys.running, Function.update_of_ne hne] using hquiet.2
  | exec hcode hx =>
    refine .exec hcode rfl rfl hx (Function.update_self ..) (exec_section hx (hI.ok hcode) ?_)
    have := hI.wf (s.cur h)
    rw [← Sys.running, hcode] at this
    exact this.2
  | interrupt hnoff hiret =>
    rename_i k
    have := (hI.trap_wf pol k hnoff).2
    exact .out rfl (by simpa [Sys.running] using this.1.2)
      (none_of_plain (hI.idle_of_noff hnoff).1.2).1

end Sys


end Xv6.Sched
