import Xv6.Sched.Lifecycle

/-!
# Parents and children

`fork` sets the parent of a new process before it makes it runnable, and `exit`
passes the children on to `initproc` before the process becomes a zombie.  So the
parent of a process is always a process that can still run.
-/

namespace Xv6.Sched

open Instr

variable {n : Nat}

def Instr.exits : Instr → Option Slot
  | reparent p _ | wakeupParent p | setZombie p _ => some p
  | _ => none

variable {p q i : Slot} {x : Instr} {d d' : Data n} {t : Thread n}

section

attribute [local simp] Instr.exits List.filterMap_cons

theorem exits_exit {ip : Slot} {st : Int} (hq : q ∈ (exit ip p st).filterMap Instr.exits) :
    q ≠ ip := by
  unfold exit at hq
  split at hq <;> simp_all

theorem exits_syscall {ip : Slot} {x : Syscall}
    (hq : q ∈ (syscall ip p x).filterMap Instr.exits) : q ≠ ip := by
  cases x
  case exit => exact exits_exit hq
  all_goals simp [syscall, fork, wait, kill, sysSleep] at hq

theorem exec_exits {pol : Policy} {h : Fin n} {c : Choice} {i : Instr} {exp : Code} {e : Event n}
    (hx : exec pol d h t c i = some (d', exp, e))
    (hp : p ∈ exp.filterMap Instr.exits) : p ≠ d.initproc ∨ i.exits = some p := by
  cases i <;> simp only [exec, forSlot, Option.bind_eq_bind, Option.bind_eq_some_iff,
    reduceCtorEq] at hx
  case user =>
    obtain ⟨q, -, hx⟩ := hx
    split at hx <;> cases hx
    · left
      split at hp
      · exact exits_exit (by simpa using hp)
      · exact exits_syscall (by simpa using hp)
    · simp at hp
  case killedExit =>
    obtain ⟨q, -, -, rfl, -⟩ := hx
    split at hp
    · exact .inl (exits_exit hp)
    · simp at hp
  case quantum =>
    obtain ⟨q, -, -, rfl, -⟩ := hx
    split at hp <;> simp [yield, allocQueueCounter] at hp
  case reparent q k =>
    repeat' split at hx
    all_goals
      cases hx
      simp [wakeup] at hp
    all_goals exact .inr (by simp [hp])
  case allocMem | clients | clientLoop | intrLoop | waitCheck | killCheck | tryRun =>
    repeat' split at hx
    all_goals cases hx
    all_goals simp [forkTail, allocQueueCounter, sleep, wakeup] at hp
  all_goals cases hx
  case scan i cand min =>
    split at hp
    · simp at hp
    · cases cand <;> simp at hp
  case sleepLoop | waitScan | wakeupLoop =>
    split at hp <;> [split at hp; skip] <;> simp [sleep] at hp
    all_goals split at hp <;> simp at hp
  case clockLoop | killLoop | allocLoop | dfltScan | schedLoop | wake | kernelTimer | allocCheck =>
    split at hp <;> simp [allocQueueCounter, allocFound] at hp
  all_goals simp [wakeup] at hp

end

theorem mem_trap {pol : Policy} {hart : Nat} {k : Interrupt} {u : Bool}
    (hx : x ∈ trap pol hart k u) :
    x.claim = none ∧ x.exits = none ∧ ∀ p a i b, x ≠ waitScan p a i b := by
  have hmem : x ∈ clockintr ∨ (∃ m, x = acquire (.other m) ∨ x = intrLoop m) ∨
      x ∈ [killedExit, acquire .tickslock, quantum, kernelTimer, iret] := by
    unfold trap devintr afterIntr at hx
    rcases k with - | m
    · repeat' split at hx
      all_goals simp at hx ⊢
      all_goals grind
    · repeat' split at hx
      all_goals simp at hx ⊢
      all_goals grind
  rcases hmem with hx | ⟨m, rfl | rfl⟩ | hx
  · simp only [clockintr, wakeup, List.cons_append, List.nil_append, List.mem_cons,
      List.not_mem_nil, or_false] at hx
    rcases hx with rfl | rfl | rfl | rfl <;> simp [Instr.claim, Instr.exits]
  · simp [Instr.claim, Instr.exits]
  · simp [Instr.claim, Instr.exits]
  · simp only [List.mem_cons, List.not_mem_nil, or_false] at hx
    rcases hx with rfl | rfl | rfl | rfl | rfl <;> simp [Instr.claim, Instr.exits]

theorem Writes.parent_eq {i : Instr} (hw : Writes d i d') (j : Slot) :
    (d'.proc j).parent = (d.proc j).parent ∨
      (∃ p, i = setParent p j ∧ (d'.proc j).parent = some p) ∨
      (∃ p, i = Instr.reparent p j ∧ (d.proc j).parent = some p ∧
        (d'.proc j).parent = some d.initproc) ∨
      ((d'.proc j).parent = .none ∧ (d'.proc j).state = .unused ∧
        ((∃ p, i = allocMem p j) ∨ ∃ p a, i = waitCheck p a j ∧ (d.proc j).state = .zombie)) := by
  cases hw
  case none hsame => exact .inl (hsame j).parent
  case parent p k hi hd =>
    by_cases hj : j = k
    · subst hj
      exact .inr (.inl ⟨p, hi, by simp [hd]⟩)
    · exact .inl (by simp [hd, hj])
  case reparent p k hi hk hd =>
    by_cases hj : j = k
    · subst hj
      exact .inr (.inr (.inl ⟨p, hi, hk, by simp [hd]⟩))
    · exact .inl (by simp [hd, hj])
  case freed k hi hd =>
    by_cases hj : j = k
    · subst hj
      exact .inr (.inr (.inr ⟨by simp [hd, Data.freeproc, Data.setState],
        by simp [hd, Data.freeproc, Data.setState], hi⟩))
    · exact .inl (by simp [hd, hj, Data.freeproc, Data.setState])
  case account k hi hd =>
    left
    rw [hd, Data.setProc_proc]
    split
    · next hj =>
      rw [hj]
      unfold Data.accountProc
      split <;> rfl
    · rfl
  all_goals
    rename_i hd
    left
    rw [hd]
    simp only [Data.setState, Data.setProc_proc]
    split <;> simp_all

namespace Sys

variable {pol : Policy} {s s' : Sys n} {h : Fin n} {e : Event n}

theorem StepOf.mem_code (hI : Inv s) (hs : StepOf pol s h e s') (hx : x ∈ s'.code t) :
    x ∈ s.code t ∨ (t = s.cur h ∧ ∃ c i rest exp d', s.running h = i :: rest ∧
      Sched.exec pol s.d h (s.cur h) c i = some (d', exp, e) ∧ s'.code t = exp ++ rest ∧ x ∈ exp) ∨
      x.claim = none ∧ x.exits = none ∧ ∀ p a i b, x ≠ waitScan p a i b := by
  by_cases ht : t = s.cur h
  · subst ht
    have hrest : ∀ {i : Instr} {rest : Code}, s.running h = i :: rest → ∀ y ∈ rest, y ∈ s.code (s.cur h) := by
      intro i rest hcode y hy
      rw [← Sys.running, hcode]
      exact List.mem_cons_of_mem _ hy
    cases hs with
    | acquire hcode => exact .inl (hrest hcode x (by simpa using hx))
    | release hcode => exact .inl (hrest hcode x (by simpa using hx))
    | sched hcode => exact .inl (hrest hcode x (by simpa using hx))
    | swtch hcode => exact .inl (hrest hcode x (by simpa using hx))
    | forkret hcode =>
      obtain ⟨⟨q, hq, hqi⟩, -⟩ := hI.ok hcode
      rename_i i rest
      have hne : s.cur h ≠ .kernel i := by simpa [hq] using hqi
      simp only [Function.update_of_ne hne, Function.update_self] at hx
      exact .inl (hrest hcode x hx)
    | exec hcode hexec =>
      simp only [Function.update_self, List.mem_append] at hx
      rcases hx with hx | hx
      · exact .inr (.inl ⟨rfl, _, _, _, _, _, hcode, hexec, by simp, hx⟩)
      · exact .inl (hrest hcode x hx)
    | interrupt =>
      simp only [Function.update_self, List.mem_append] at hx
      rcases hx with hx | hx
      · exact .inr (.inr (mem_trap hx))
      · exact .inl hx
  · rcases hs.code_other hI ht with hsame | ⟨i, -, -, hnew⟩
    · exact .inl (hsame ▸ hx)
    · rw [hnew] at hx
      simp only [List.mem_cons, List.not_mem_nil, or_false] at hx
      rcases hx with rfl | rfl <;> simp [Instr.claim, Instr.exits]

theorem StepOf.head_of_gone (hI : Inv s) (hs : StepOf pol s h e s') (hx : x ∈ s.code (s.cur h))
    (hx' : x ∉ s'.code (s.cur h)) :
    ∃ rest, s.running h = x :: rest := by
  have hhead : ∀ {i : Instr} {rest : Code}, s.running h = i :: rest →
      (x ∈ rest → x ∈ s'.code (s.cur h)) → ∃ rest, s.running h = x :: rest := by
    intro i rest hcode hrest
    rw [← Sys.running, hcode] at hx
    rcases List.mem_cons.1 hx with rfl | hx
    · exact ⟨rest, hcode⟩
    · exact absurd (hrest hx) hx'
  cases hs with
  | acquire hcode => exact hhead hcode (by simp)
  | release hcode => exact hhead hcode (by simp)
  | sched hcode => exact hhead hcode (by simp)
  | swtch hcode => exact hhead hcode (by simp)
  | forkret hcode =>
    obtain ⟨⟨q, hq, hqi⟩, -⟩ := hI.ok hcode
    rename_i i rest
    have hne : s.cur h ≠ .kernel i := by simpa [hq] using hqi
    exact hhead hcode (by simp [Function.update_of_ne hne])
  | exec hcode hexec => exact hhead hcode fun hmem => by simp [hmem]
  | interrupt => exact absurd (by simp [Sys.running, hx]) hx'

/-- A process leaves the states in which it can run only by `exit`. -/
theorem StepOf.resumable (hI : Inv s) (hs : StepOf pol s h e s')
    (hq : Resumable (s.d.proc q).state) :
    Resumable (s'.d.proc q).state ∨
      s.cur h = .kernel q ∧ ∃ st rest, s.running h = setZombie q st :: rest := by
  by_cases hne : (s'.d.proc q).state = (s.d.proc q).state
  · exact .inl (hne ▸ hq)
  · obtain ⟨i, rest, hcode, htr⟩ := hs.transition hI hne
    generalize (s.d.proc q).state = a, (s'.d.proc q).state = b at htr hq
    cases htr
    case exit ht st hi => exact .inr ⟨ht, st, rest, hi ▸ hcode⟩
    case used | unclaim | reap => simp [Resumable] at hq
    all_goals simp [Resumable]

structure Family (s : Sys n) : Prop where
  init : Resumable (s.d.proc s.d.initproc).state
  exits : ∀ t x p, x ∈ s.code t → x.exits = some p → p ≠ s.d.initproc
  parent : ∀ i q, (s.d.proc i).parent = some q → Resumable (s.d.proc q).state
  /-- A slot that may still be given back by `allocproc` has no parent. -/
  orphan : ∀ i, (s.d.proc i).parent ≠ none →
    (s.d.proc i).state ≠ .unused ∧ ∀ t q, allocMem q i ∉ s.code t
  born : ∀ i, i ≠ s.d.initproc → (s.d.proc i).state ≠ .unused → (s.d.proc i).state ≠ .used →
    (s.d.proc i).parent ≠ none
  forked : ∀ t i, forkRunnable i ∈ s.code t → (∀ q, setParent q i ∉ s.code t) →
    (s.d.proc i).parent ≠ none
  /-- `exit` has no children left in the slots that it has gone through. -/
  adopted : ∀ h p k, s.cur h = .kernel p → adopting (s.running h) = some k →
    ∀ j : Slot, j < k → (s.d.proc j).parent ≠ some p

inductive Kin (s s' : Sys n) (h : Fin n) (i : Slot) : Prop
  | same (hp : (s'.d.proc i).parent = (s.d.proc i).parent)
  | fork (p : Slot) (rest : Code) (hcode : s.running h = setParent p i :: rest)
      (hcode' : s'.code (s.cur h) = rest) (hp : (s'.d.proc i).parent = some p)
  | adopt (p : Slot) (rest : Code) (hcode : s.running h = Instr.reparent p i :: rest)
      (hcode' : ∃ c, s'.running h = wakeupLoop (.proc s.d.initproc) 0 :: c)
      (hold : (s.d.proc i).parent = some p) (hp : (s'.d.proc i).parent = some s.d.initproc)
  | reap (p : Slot) (a : WaitArgs) (rest : Code) (hcode : s.running h = waitCheck p a i :: rest)
      (hz : (s.d.proc i).state = .zombie) (hp : (s'.d.proc i).parent = none)
      (hu : (s'.d.proc i).state = .unused)

theorem StepOf.kin (hF : Family s) (hs : StepOf pol s h e s') (i : Slot) : Kin s s' h i := by
  cases hs with
  | exec hcode hx =>
    rcases (exec_writes hx).parent_eq i with hsame | ⟨p, rfl, hp⟩ | ⟨p, rfl, hold, hp⟩ | ⟨hp, hu, hi⟩
    · exact .same hsame
    · refine .fork p _ hcode ?_ hp
      cases hx
      simp
    · refine .adopt p _ hcode ?_ hold hp
      simp only [Sched.exec, i.isLt, dif_pos, Fin.eta, hold, if_true] at hx
      cases hx
      exact ⟨_, running_update ..⟩
    · rcases hi with ⟨p, rfl⟩ | ⟨p, a, rfl, hz⟩
      · refine .same (hp.trans ?_)
        by_contra hne
        refine (hF.orphan i (Ne.symm hne)).2 (s.cur h) p ?_
        rw [← Sys.running, hcode]
        exact List.mem_cons_self
      · exact .reap p a _ hcode hz hp hu
  | _ => exact .same rfl

/-- While a hart holds `wait_lock`, the others leave the family tree alone. -/
theorem StepOf.parent_of_locked (hI : Inv s) (hF : Family s) (hs : StepOf pol s h e s') {k : Fin n}
    (hk : k ≠ h) (hlk : .waitLock ∈ held (s.running k)) (i : Slot) :
    (s'.d.proc i).parent = (s.d.proc i).parent := by
  have hexcl : .waitLock ∉ held (s.running h) := fun hh => hk (hI.exclusive hlk hh)
  cases hs.kin hF i with
  | same hp => exact hp
  | fork p rest hcode _ hp =>
    refine absurd ?_ hexcl
    rw [hcode]
    apply held_subset_cons (by simp)
    simp [(hI.ok hcode).2.1]
  | adopt p rest hcode _ hold hp =>
    refine absurd ?_ hexcl
    rw [hcode]
    apply held_subset_cons (by simp)
    simp [(hI.ok hcode).2.1]
  | reap p a rest hcode hz hp hu =>
    refine absurd ?_ hexcl
    simp [hcode, held, Instr.gives]

theorem StepOf.initproc_eq (hs : StepOf pol s h e s') : s'.d.initproc = s.d.initproc := by
  cases hs with
  | exec hcode hx => exact (exec_ticks hx).1
  | _ => rfl

theorem Kin.ne_none (hk : Kin s s' h i) (hp : (s.d.proc i).parent ≠ none)
    (hu : (s'.d.proc i).state ≠ .unused) : (s'.d.proc i).parent ≠ none := by
  cases hk with
  | same hp' => exact hp' ▸ hp
  | fork p rest _ _ hp' => simp [hp']
  | adopt p rest _ _ _ hp' => simp [hp']
  | reap _ _ _ _ _ _ hu' => exact absurd hu' hu

theorem Kin.same_of_head (hk : Kin s s' h i) {rest : Code} (hcode : s.running h = x :: rest)
    (hr : ∀ p j, x ≠ Instr.reparent p j) (hc : x.claim = none) (hw : ∀ p a j, x ≠ waitCheck p a j) :
    (s'.d.proc i).parent = (s.d.proc i).parent := by
  cases hk with
  | same hp => exact hp
  | fork p rest hcode' =>
    obtain ⟨rfl, -⟩ := List.cons.inj (hcode.symm.trans hcode')
    cases hc
  | adopt p rest hcode' =>
    obtain ⟨rfl, -⟩ := List.cons.inj (hcode.symm.trans hcode')
    exact absurd rfl (hr p i)
  | reap p a rest hcode' =>
    obtain ⟨rfl, -⟩ := List.cons.inj (hcode.symm.trans hcode')
    exact absurd rfl (hw p a i)

namespace Family

theorem init_step (hI : Inv s) (hF : Family s) (hs : StepOf pol s h e s') :
    Resumable (s'.d.proc s'.d.initproc).state := by
  rw [hs.initproc_eq]
  rcases hs.resumable hI hF.init with hr | ⟨-, st, rest, hcode⟩
  · exact hr
  · refine absurd rfl (hF.exits (s.cur h) (setZombie s.d.initproc st) s.d.initproc ?_ rfl)
    rw [← Sys.running, hcode]
    exact List.mem_cons_self

theorem exits_step (hI : Inv s) (hF : Family s) (hs : StepOf pol s h e s') (hx : x ∈ s'.code t)
    (hp : x.exits = some p) : p ≠ s'.d.initproc := by
  rw [hs.initproc_eq]
  rcases hs.mem_code hI hx with hold | ⟨rfl, c, i, rest, exp, d', hcode, hexec, -, hnew⟩ | ⟨-, hno, -⟩
  · exact hF.exits t x p hold hp
  · rcases exec_exits hexec (List.mem_filterMap.2 ⟨x, hnew, hp⟩) with hne | hi
    · exact hne
    · refine hF.exits (s.cur h) i p ?_ hi
      rw [← Sys.running, hcode]
      exact List.mem_cons_self
  · simp [hno] at hp

theorem parent_step (hI : Inv s) (hF : Family s) (hs : StepOf pol s h e s')
    (hq : (s'.d.proc i).parent = some q) : Resumable (s'.d.proc q).state := by
  cases hs.kin hF i with
  | same hp =>
    rw [hp] at hq
    rcases hs.resumable hI (hF.parent i q hq) with hr | ⟨hcur, st, rest, hcode⟩
    · exact hr
    · have hadopt : adopting (s.running h) = some NPROC := by rw [hcode]; rfl
      exact absurd hq (hF.adopted h q NPROC hcur hadopt i i.isLt)
  | fork p rest hcode _ hp =>
    obtain rfl : p = q := Option.some.inj (hp.symm.trans hq)
    have hrun := hI.run h p (hI.ok hcode).1
    rw [hcode, if_neg (by simp [parked])] at hrun
    rcases hs.resumable hI (.inr (.inr hrun)) with hr | ⟨-, st, rest, hcode'⟩
    · exact hr
    · rw [hcode] at hcode'
      cases hcode'
  | adopt p rest hcode _ hold hp =>
    obtain rfl : s.d.initproc = q := Option.some.inj (hp.symm.trans hq)
    rw [← hs.initproc_eq]
    exact hF.init_step hI hs
  | reap p a rest hcode hz hp hu => simp [hp] at hq

theorem orphan_step (hI : Inv s) (hF : Family s) (hs : StepOf pol s h e s')
    (hi : (s'.d.proc i).parent ≠ none) :
    (s'.d.proc i).state ≠ .unused ∧ ∀ t q, allocMem q i ∉ s'.code t := by
  have hstate : (s.d.proc i).state ≠ .unused → (s'.d.proc i).state ≠ .unused := by
    intro hu hu'
    cases hs with
    | exec hcode hx => exact hi (exec_freed hI hcode hx hu' hu)
    | _ => exact hu hu'
  by_cases hold : (s.d.proc i).parent = none
  · -- the parent has just been set
    cases hs.kin hF i with
    | fork p rest hcode hcode' hp =>
      refine ⟨hstate (by simp [hI.used_of_claim hcode rfl rfl]), fun t q hmem => ?_⟩
      by_cases ht : t = s.cur h
      · rw [ht, hcode'] at hmem
        exact (hI.ok hcode).2.2.2.2 q hmem
      · rcases hs.code_other hI ht with hsame | ⟨j, -, -, hnew⟩
        · refine ht (hI.claimUniq t (s.cur h) i ⟨_, hsame ▸ hmem, rfl⟩ ?_)
          rw [← Sys.running, hcode]
          exact ⟨_, List.mem_cons_self, rfl⟩
        · simp [hnew] at hmem
    | same hp => exact absurd (hp.trans hold) hi
    | adopt p rest hcode _ hp => simp [hold] at hp
    | reap p a rest hcode hz hp hu => exact absurd hp hi
  · obtain ⟨hu, hno⟩ := hF.orphan i hold
    refine ⟨hstate hu, fun t q hmem => ?_⟩
    rcases hs.mem_code hI hmem with hmem | ⟨-, c, x, rest, exp, d', -, hexec, -, hnew⟩ | ⟨hc, -⟩
    · exact hno t q hmem
    · exact hu (exec_allocMem hexec hnew)
    · cases hc

theorem born_step (hI : Inv s) (hF : Family s) (hs : StepOf pol s h e s') (hi : i ≠ s'.d.initproc)
    (hu : (s'.d.proc i).state ≠ .unused)
    (hu' : (s'.d.proc i).state ≠ .used) : (s'.d.proc i).parent ≠ none := by
  rw [hs.initproc_eq] at hi
  refine (hs.kin hF i).ne_none ?_ hu
  by_cases hold : (s.d.proc i).state ≠ .unused ∧ (s.d.proc i).state ≠ .used
  · exact hF.born i hi hold.1 hold.2
  · obtain ⟨x, rest, hcode, htr⟩ := hs.transition hI (j := i) (by
      intro heq
      rw [heq] at hu hu'
      exact hold ⟨hu, hu'⟩)
    generalize (s.d.proc i).state = a, (s'.d.proc i).state = b at htr hold hu hu'
    cases htr
    case born hx =>
      subst hx
      have hmem : forkRunnable i ∈ s.code (s.cur h) := by
        rw [← Sys.running, hcode]
        exact List.mem_cons_self
      refine hF.forked (s.cur h) i hmem fun q hq => ?_
      rw [← Sys.running, hcode] at hq
      rcases List.mem_cons.1 hq with hq | hq
      · cases hq
      · exact (hI.ok hcode).2.2 i ⟨_, hq, rfl⟩
    case used => simp at hu'
    case unclaim | reap => simp at hu
    all_goals simp at hold

theorem forked_step (hI : Inv s) (hF : Family s) (hs : StepOf pol s h e s')
    (hmem : forkRunnable i ∈ s'.code t) (hset : ∀ q, setParent q i ∉ s'.code t) :
    (s'.d.proc i).parent ≠ none := by
  rcases hs.mem_code hI hmem with hold | ⟨-, c, x, rest, exp, d', -, hexec, hcode', hnew⟩ | ⟨hc, -⟩
  · by_cases hq : ∃ q, setParent q i ∈ s.code t
    · obtain ⟨q, hq⟩ := hq
      have ht : t = s.cur h := by
        by_contra ht
        rcases hs.code_other hI ht with hsame | ⟨j, -, -, hnew⟩
        · exact hset q (hsame ▸ hq)
        · simp [hnew] at hmem
      subst ht
      obtain ⟨rest, hcode⟩ := hs.head_of_gone hI hq (hset q)
      cases hs with
      | exec hcode' hx =>
        obtain ⟨rfl, -⟩ := List.cons.inj (hcode'.symm.trans hcode)
        cases hx
        simp
      | release hcode' hi =>
        obtain ⟨rfl, -⟩ := List.cons.inj (hcode'.symm.trans hcode)
        simp at hi
      | acquire hcode' | sched hcode' | swtch hcode' | forkret hcode' =>
        cases hcode'.symm.trans hcode
      | interrupt => exact absurd (by simp [Sys.running, hq]) (hset q)
    · have hne := hF.forked t i hold (by simpa using hq)
      cases hs.kin hF i with
      | same hp => exact hp ▸ hne
      | fork p rest _ _ hp => simp [hp]
      | adopt p rest _ _ _ hp => simp [hp]
      | reap p a rest hcode hz hp hu =>
        rcases hI.claim t i ⟨_, hold, rfl⟩ with hst | ⟨hst, -⟩ <;> simp [hst] at hz
  · obtain ⟨-, p, hp⟩ := exec_forkRunnable hexec hnew
    exact absurd (by rw [hcode']; exact List.mem_append_left _ hp) (hset p)
  · cases hc

theorem adopting_of_section {i : Instr} {rest c' : Code} {m : Nat} (hs : Section d h i rest d' c')
    (ha : adopting c' = some m) :
    (adopting (i :: rest) = some m ∧ (∀ p j, i ≠ Instr.reparent p j) ∧ i.claim = none ∧
      ∀ p a j, i ≠ waitCheck p a j) ∨
    (∃ p j, i = Instr.reparent p j ∧ m = j + 1 ∧ j < NPROC) ∨
    ∃ p k, i = Instr.reparent p k ∧ NPROC ≤ k ∧ d' = d ∧ m = NPROC := by
  have hno : ∀ {x}, inner c' = some x → (∀ p k, x ≠ Instr.reparent p k) →
      (∀ p, x ≠ wakeupParent p) → (∀ p st, x ≠ setZombie p st) →
      ((∀ chan k, x ≠ wakeupLoop chan k) ∧ (∀ chan j, x ≠ Instr.wake chan j) ∧
        ∀ chan j, x ≠ wakeRunnable chan j) → False := by
    intro x hin h₁ h₂ h₃ h₄
    rw [adopting, beyond_of_inner hin h₄] at ha
    cases x <;> simp_all
  cases hs
  case plain hp hr => simp [(none_of_plain hp).2.2.2] at ha
  case same hi hin hbe =>
    refine .inl ⟨by rw [adopting, ← hbe]; exact ha, ?_⟩
    rcases hi with ⟨j, rfl⟩ | ⟨j, v, rfl⟩ <;> simp [Instr.claim]
  case clockDone hbe => simp [hbe] at ha
  case wakeStart hbe => simp [hbe] at ha
  case wakeVisit chan j hi hj hd hin hbe | wakeSkip chan j hi hj hd hin hbe
      | wakeFound chan j hi hj hd hin hbe | wakeMiss chan j hi hj hd hin hbe
      | woken chan j hi hd hin hbe =>
    subst hi
    exact .inl ⟨by rw [adopting, ← hbe]; exact ha, by simp [Instr.claim]⟩
  case wakeDone chan k hi hk hd hc =>
    subst hi hc
    exact .inl ⟨ha, by simp [Instr.claim]⟩
  case adopt p j hi hj hd hin hbe | adoptSkip p j hi hj hd hin hbe =>
    rw [adopting, hbe] at ha
    exact .inr (.inl ⟨p, j, hi, (Option.some.inj ha).symm, j.isLt⟩)
  case adoptDone p k hi hk hd hin hbe =>
    rw [adopting, hbe] at ha
    exact .inr (.inr ⟨p, k, hi, hk, hd, (Option.some.inj ha).symm⟩)
  case exitWake p st hi hd hin hbe =>
    subst hi
    rw [adopting, hbe] at ha
    exact .inl ⟨ha, by simp [Instr.claim]⟩
  all_goals
    rename_i hin
    first
    | exact (hno ‹inner c' = some _› (by simp) (by simp) (by simp) (by simp)).elim

theorem adopted_step (hI : Inv s) (hF : Family s) (hs : StepOf pol s h e s') {k : Fin n} {m : Nat}
    (hcur : s'.cur k = .kernel p) (ha : adopting (s'.running k) = some m) {j : Slot}
    (hj : j < m) : (s'.d.proc j).parent ≠ some p := by
  by_cases hk : k = h
  · subst hk
    cases hs.progress hI with
    | out hd hp hr => simp [(none_of_plain hp).2.2.2] at ha
    | lock hd hcur' hin hbe =>
      rw [adopting, hbe] at ha
      rw [hd]
      exact hF.adopted k p m (hcur' ▸ hcur) ha j hj
    | start hd hcur' hr hin =>
      rcases hin with ⟨q, a, b, hin⟩ | ⟨q, hin⟩
      · simp [adopting, beyond_of_inner hin (by simp)] at ha
      · simp only [adopting, beyond_of_inner hin (by simp), Option.some.injEq] at ha
        omega
    | exec hcode hd hcur' hx hrun hsec =>
      rw [hrun] at ha
      rw [hcur'] at hcur
      rcases adopting_of_section hsec ha with ⟨ha, hno, hc, hw⟩ | ⟨q, i, rfl, rfl, hi⟩ | ⟨q, i, rfl, hi, hd', rfl⟩
      · rw [(hs.kin hF j).same_of_head hcode hno hc hw]
        exact hF.adopted k p m hcur (hcode ▸ ha) j hj
      · obtain rfl : q = p := Thread.kernel.inj ((hI.ok hcode).1.symm.trans hcur)
        have hne : q ≠ s.d.initproc := hF.exits (s.cur k) _ q
          (by rw [← Sys.running, hcode]; exact List.mem_cons_self) rfl
        have hold : j.val ≠ i → (s.d.proc j).parent ≠ some q := fun hji =>
          hF.adopted k q i hcur (by rw [hcode]; rfl) j (by omega)
        rw [hd]
        simp only [Sched.exec, dif_pos hi] at hx
        split at hx
        · cases hx
          rw [Data.setProc_proc]
          split
          · simpa using hne.symm
          · next hji => exact hold fun heq => hji (Fin.ext heq)
        · next hpar =>
          cases hx
          by_cases hji : j.val = i
          · obtain rfl : j = ⟨i, hi⟩ := Fin.ext hji
            exact hpar
          · exact hold hji
      · obtain rfl : q = p := Thread.kernel.inj ((hI.ok hcode).1.symm.trans hcur)
        rw [hd, hd']
        exact hF.adopted k q i hcur (by rw [hcode]; rfl) j (by omega)
  · rw [hs.cur_other hk] at hcur
    rw [hs.running_other hI hk] at ha
    rw [hs.parent_of_locked hI hF hk (adopting_held (hI.wf _) ha).1]
    exact hF.adopted k p m hcur ha j hj

protected theorem step (hI : Inv s) (hF : Family s) (hs : StepOf pol s h e s') : Family s' where
  init := hF.init_step hI hs
  exits _ _ _ hx hp := hF.exits_step hI hs hx hp
  parent _ _ hq := hF.parent_step hI hs hq
  orphan _ hi := hF.orphan_step hI hs hi
  born _ hi hu hu' := hF.born_step hI hs hi hu hu'
  forked _ _ hmem hset := hF.forked_step hI hs hmem hset
  adopted _ _ _ hcur ha _ hj := hF.adopted_step hI hs hcur ha hj

protected theorem boot : Family (boot n) := by
  have hmem : ∀ t x, x ∈ (Sys.boot n).code t → x.claim = none ∧ x.exits = none := by
    intro t x hx
    cases t with
    | scheduler k =>
      obtain rfl : x = schedLoop := by simpa [Sys.boot] using hx
      exact ⟨rfl, rfl⟩
    | kernel i =>
      simp only [Sys.boot] at hx
      split at hx
      · simp only [List.mem_cons, List.not_mem_nil, or_false] at hx
        rcases hx with rfl | rfl | rfl <;> exact ⟨rfl, rfl⟩
      · simp at hx
  have hparent : ∀ i, ((Sys.boot n).d.proc i).parent = none := by
    intro i
    simp only [Sys.boot]
    split <;> rfl
  refine ⟨by simp [Sys.boot, Resumable], ?_, ?_, ?_, ?_, ?_, ?_⟩
  · intro t x p hx hp
    simp [(hmem t x hx).2] at hp
  · intro i q hq
    simp [hparent] at hq
  · intro i hi
    exact absurd (hparent i) hi
  · intro i hi hu
    simp only [Sys.boot] at hi hu
    simp [hi] at hu
  · intro t i hx
    cases (hmem t _ hx).1
  · intro h p k hcur
    simp [Sys.boot] at hcur

end Family

theorem Reachable.family (hs : Reachable pol s) : Family s := by
  obtain ⟨es, hrun⟩ := hs
  suffices h : Inv s ∧ Family s from h.2
  refine hrun.invariant (I := fun s => Inv s ∧ Family s) ?_ ⟨Inv.boot, Family.boot⟩
  rintro s e s' ⟨hI, hF⟩ hstep
  obtain ⟨h, hs⟩ := hstep.stepOf
  exact ⟨hI.step hstep, hF.step hI hs⟩

end Sys

end Xv6.Sched
