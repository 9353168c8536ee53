import Xv6.Sched.MidScan
import Xv6.Sched.Lifecycle

/-!
# Queue locations

A process gets a new queue location each time it becomes runnable: just before, in `wakeup`,
`yield` and `fork`, and just after in `kill`.  `Linked` says that the code has these pairs in it, and
`Stage` how far the running thread is between the two halves of one.
-/

namespace Xv6.Sched

open Instr

variable {n : Nat}

def Instr.takes : Instr → Option Slot
  | takeQueue i => some i
  | _ => none

def Instr.readies : Instr → Option Slot
  | wakeRunnable _ i | yieldRunnable i | forkRunnable i => some i
  | _ => none

/-- Each location that the code takes is for the process it makes runnable next, and no other process
is made runnable.  `prev` is the process that has a location already. -/
def Linked (prev : Option Slot) : Code → Prop
  | [] => prev = none
  | x :: c => x.readies = prev ∧ (∀ i v, x ≠ setQueue i v) ∧ Linked x.takes c

inductive Requeue (d d' : Data n) (x : Instr) (exp : Code) : Prop
  | none (hloc : ∀ j, (d'.proc j).queueLocation = (d.proc j).queueLocation)
      (hcounter : d'.queueCounter = d.queueCounter) (hexp : Linked none exp) (hx : x.takes = none)
      (hset : ∀ i v, x ≠ setQueue i v)
  | kill (pid : Int) (i : Slot) (hi : x = killCheck pid i) (hsleeping : (d.proc i).state = .sleeping)
      (hexp : exp = [acquire .queueLock, takeQueue i, release (.proc i)])
      (hloc : ∀ j, (d'.proc j).queueLocation = (d.proc j).queueLocation)
      (hcounter : d'.queueCounter = d.queueCounter)
  | take (i : Slot) (hi : x = takeQueue i)
      (hexp : exp = [release .queueLock, setQueue i d.queueCounter])
      (hloc : ∀ j, (d'.proc j).queueLocation = (d.proc j).queueLocation)
      (hcounter : d'.queueCounter = (d.queueCounter + 1) % 2 ^ 64)
  | set (i : Slot) (v : Nat) (hi : x = setQueue i v) (hexp : exp = [])
      (hloc : ∀ j, (d'.proc j).queueLocation = if j = i then v else (d.proc j).queueLocation)
      (hcounter : d'.queueCounter = d.queueCounter)

theorem Linked.append {prev : Option Slot} {c c' : Code} (h : Linked prev c) (h' : Linked none c') :
    Linked prev (c ++ c') := by
  induction c generalizing prev with
  | nil =>
    cases h
    exact h'
  | cons x c ih => exact ⟨h.1, h.2.1, ih h.2.2⟩

section

attribute [local simp] Linked Instr.readies Instr.takes

theorem linked_exit (ip p : Slot) (st : Int) : Linked none (exit ip p st) := by
  unfold exit
  split <;> simp

theorem linked_syscall (ip p : Slot) (x : Syscall) : Linked none (syscall ip p x) := by
  cases x
  case exit => exact linked_exit ..
  all_goals simp [syscall, fork, wait, kill, sysSleep]

theorem linked_yield (p : Slot) : Linked none (yield p) := by
  simp [yield, allocQueueCounter]

theorem linked_sleep (p : Slot) (chan : Chan) (lk : Lock) : Linked none (sleep p chan lk) := by
  simp [sleep]

theorem linked_forkTail (p i : Slot) : Linked none (forkTail p i) := by
  simp [forkTail, allocQueueCounter]

theorem linked_trap (pol : Policy) (hart : Nat) (k : Interrupt) (u : Bool) :
    Linked none (trap pol hart k u) := by
  unfold trap devintr clockintr wakeup afterIntr
  split <;> split
  all_goals first | (split <;> simp) | simp

end

variable {i : Slot} {x : Instr}

theorem queueLocation_setProc {d : Data n} {f : Proc → Proc}
    (hf : (f (d.proc i)).queueLocation = (d.proc i).queueLocation) (j : Slot) :
    ((d.setProc i f).proc j).queueLocation = (d.proc j).queueLocation := by
  rw [Data.setProc_proc]
  by_cases hj : j = i
  · rw [if_pos hj, hj, hf]
  · rw [if_neg hj]

theorem queueLocation_free {d : Data n} (i j : Slot) :
    ((d.freeproc i).proc j).queueLocation = (d.proc j).queueLocation := by
  unfold Data.freeproc Data.setState
  rw [queueLocation_setProc rfl, queueLocation_setProc rfl]

theorem queueLocation_account (p : Proc) :
    (Data.accountProc p).queueLocation = p.queueLocation := by
  unfold Data.accountProc
  split <;> rfl

section

variable {pol : Policy} {d d' : Data n} {h : Fin n} {t : Thread n} {c : Choice} {x : Instr}
  {exp : Code} {e : Event n}

attribute [local simp] Linked Instr.readies Instr.takes Data.setState Data.freeproc

theorem exec_requeue (hx : exec pol d h t c x = some (d', exp, e)) : Requeue d d' x exp := by
  cases x <;> simp only [exec, forSlot, Option.bind_eq_bind, Option.bind_eq_some_iff,
    reduceCtorEq] at hx
  case takeQueue i =>
    cases hx
    exact .take i rfl rfl (fun _ => rfl) rfl
  case setQueue i v =>
    cases hx
    refine .set i v rfl rfl (fun j => ?_) rfl
    rw [Data.setProc_proc]
    split <;> rfl
  case killCheck pid i =>
    repeat' split at hx
    all_goals cases hx
    next hsleeping =>
      refine .kill pid i rfl hsleeping rfl (fun j => ?_) rfl
      unfold Data.setState
      rw [queueLocation_setProc rfl, queueLocation_setProc rfl]
    · exact Requeue.none (fun j => queueLocation_setProc rfl j) rfl (by simp) rfl (by simp)
    · exact Requeue.none (fun _ => rfl) rfl (by simp) rfl (by simp)
  case user =>
    obtain ⟨p, -, hx⟩ := hx
    split at hx <;> cases hx
    · refine Requeue.none (fun _ => rfl) rfl ?_ rfl (by simp)
      split
      · exact (linked_exit ..).append (by simp)
      · exact (linked_syscall ..).append (by simp)
    · exact Requeue.none (fun j => queueLocation_setProc rfl j) rfl (by simp) rfl (by simp)
  case killedExit =>
    obtain ⟨p, -, ⟨⟩⟩ := hx
    refine Requeue.none (fun _ => rfl) rfl ?_ rfl (by simp)
    split
    · exact linked_exit ..
    · rfl
  case quantum =>
    obtain ⟨p, -, ⟨⟩⟩ := hx
    refine Requeue.none (fun _ => rfl) rfl ?_ rfl (by simp)
    split
    · exact ⟨rfl, by simp, linked_yield p⟩
    · simp
  case allocMem p i =>
    split at hx <;> cases hx
    · exact Requeue.none (queueLocation_setProc rfl) rfl (linked_forkTail p i) rfl (by simp)
    · exact Requeue.none (queueLocation_free i) rfl (by simp) rfl (by simp)
  case clients p =>
    split at hx <;> cases hx
    all_goals exact Requeue.none (fun _ => rfl) rfl (by simp) rfl (by simp)
  case clientLoop p m =>
    split at hx <;> cases hx
    · exact Requeue.none (fun _ => rfl) rfl ((linked_sleep ..).append (by simp)) rfl (by simp)
    · exact Requeue.none (fun _ => rfl) rfl (by simp [wakeup]) rfl (by simp)
    · exact Requeue.none (fun _ => rfl) rfl (by simp) rfl (by simp)
  case intrLoop m =>
    split at hx <;> cases hx
    all_goals exact Requeue.none (fun _ => rfl) rfl (by simp [wakeup]) rfl (by simp)
  case waitCheck p a i =>
    repeat' split at hx
    all_goals cases hx
    all_goals
      first
      | exact Requeue.none (queueLocation_free i) rfl (by simp) rfl (by simp)
      | exact Requeue.none (fun _ => rfl) rfl (by simp) rfl (by simp)
  case reparent p i =>
    repeat' split at hx
    all_goals cases hx
    · exact Requeue.none (queueLocation_setProc rfl) rfl (by simp [wakeup]) rfl (by simp)
    · exact Requeue.none (fun _ => rfl) rfl (by simp) rfl (by simp)
    · exact Requeue.none (fun _ => rfl) rfl (by simp) rfl (by simp)
  case tryRun i =>
    split at hx
    all_goals cases hx
    · refine Requeue.none (fun j => ?_) rfl ?_ rfl (by simp)
      · change ((d.setState i .running).proc j).queueLocation = _
        exact queueLocation_setProc rfl j
      · split <;> simp
    · exact Requeue.none (fun _ => rfl) rfl (by simp) rfl (by simp)
  all_goals cases hx
  case account i =>
    exact Requeue.none (queueLocation_setProc (queueLocation_account _)) rfl (by simp) rfl (by simp)
  case setUsed | setSleeping | setZombie =>
    refine Requeue.none (fun j => ?_) rfl (by simp) rfl (by simp)
    unfold Data.setState
    rw [queueLocation_setProc rfl, queueLocation_setProc rfl]
  case wakeRunnable | yieldRunnable | clearChan | setCtime | initCounters | setParent
      | forkRunnable | setTtime | setAverage =>
    exact Requeue.none (queueLocation_setProc rfl) rfl (by simp) rfl (by simp)
  all_goals refine Requeue.none (fun _ => rfl) rfl ?_ rfl (by simp)
  case waitScan | sleepLoop =>
    repeat' split
    all_goals first | simp | exact (linked_sleep ..).append (by simp)
  case scan i cand min =>
    split
    · simp
    · cases cand <;> simp
  all_goals
    repeat' split
    all_goals simp [wakeup, allocFound, allocQueueCounter]

end

/-!
## The invariant
-/

/-- How far the running thread is with a new location.  A location that has been taken is at least
`c₀`, and no process has it. -/
inductive Stage (c₀ : Nat) (d : Data n) : Code → Prop
  | calm {c : Code} (h : Linked none c) : Stage c₀ d c
  | killLock {i : Slot} {c : Code} (h : Linked none c) :
      Stage c₀ d (acquire .queueLock :: takeQueue i :: release (.proc i) :: c)
  | killTake {i : Slot} {c : Code} (h : Linked none c) :
      Stage c₀ d (takeQueue i :: release (.proc i) :: c)
  | unlock {i : Slot} {v : Nat} {c : Code} (hv : c₀ ≤ v) (hlt : v < d.queueCounter)
      (hnew : ∀ j, (d.proc j).queueLocation ≠ v) (h : Linked (some i) c ∨ Linked none c) :
      Stage c₀ d (release .queueLock :: setQueue i v :: c)
  | set {i : Slot} {v : Nat} {c : Code} (hv : c₀ ≤ v) (hlt : v < d.queueCounter)
      (hnew : ∀ j, (d.proc j).queueLocation ≠ v) (h : Linked (some i) c ∨ Linked none c) :
      Stage c₀ d (setQueue i v :: c)
  | ready {i : Slot} {c : Code} (hv : c₀ ≤ (d.proc i).queueLocation) (h : Linked (some i) c) :
      Stage c₀ d c

def Procstate.Lives (st : Procstate) : Prop := st ≠ .unused ∧ st ≠ .used

/-- Locations are below the counter and differ from each other, but for the zeros of slots that were
never used. -/
structure Queue (c₀ : Nat) (s : Sys 1) : Prop where
  pos : 1 ≤ c₀
  counter : c₀ ≤ s.d.queueCounter
  others : ∀ t, t ≠ s.cur 0 → Linked none (s.code t)
  stage : Stage c₀ s.d (s.running 0)
  below : ∀ i, (s.d.proc i).queueLocation < s.d.queueCounter
  apart : ∀ i j, (s.d.proc i).queueLocation = (s.d.proc j).queueLocation →
    i = j ∨ (s.d.proc i).queueLocation = 0
  lives : ∀ i, (s.d.proc i).state.Lives → (s.d.proc i).queueLocation ≠ 0

section

variable {c₀ : Nat} {d d' : Data n} {x : Instr} {c rest exp : Code}

/-- An instruction that neither takes a location nor makes a process runnable is met between two
pairs. -/
theorem Stage.tail (h : Stage c₀ d (x :: rest)) (htakes : x.takes = none)
    (hset : ∀ i v, x ≠ setQueue i v) (hacquire : x ≠ acquire .queueLock)
    (hrelease : x ≠ release .queueLock) : Linked none rest := by
  cases h with
  | calm h => exact htakes ▸ h.2.2
  | killLock => exact absurd rfl hacquire
  | killTake => cases htakes
  | unlock => exact absurd rfl hrelease
  | set => exact absurd rfl (hset _ _)
  | ready hv h => exact htakes ▸ h.2.2

/-- The process that an instruction makes runnable has a new location. -/
theorem Stage.readies (h : Stage c₀ d (x :: rest)) (hx : x.readies = some i) :
    c₀ ≤ (d.proc i).queueLocation := by
  cases h with
  | calm h =>
    rw [h.1] at hx
    cases hx
  | killLock => cases hx
  | killTake => cases hx
  | unlock => cases hx
  | set => cases hx
  | ready hv h =>
    rw [h.1] at hx
    cases hx
    exact hv

theorem Linked.proc_of_some {t : Thread n} (h : Linked (some i) c) (hwf : WF t c) :
    .proc i ∈ held c := by
  cases c with
  | nil => cases h
  | cons x c =>
    have hx := h.1
    cases x <;> simp only [Instr.readies, reduceCtorEq, Option.some.injEq] at hx
    all_goals subst hx
    case wakeRunnable chan j => exact held_subset_cons (i := wakeRunnable chan j) nofun hwf.1.1
    case yieldRunnable j => exact held_subset_cons (i := yieldRunnable j) nofun hwf.1.2.1
    case forkRunnable j => exact held_subset_cons (i := forkRunnable j) nofun hwf.1.1

theorem Stage.calm_of_idle {t : Thread n} (h : Stage c₀ d c) (hwf : WF t c) (hheld : held c = ∅) :
    Linked none c := by
  have hempty : ∀ lk, lk ∉ held c := by
    rw [hheld]
    exact Finset.notMem_empty
  cases h with
  | calm h => exact h
  | @killLock i c => exact absurd (by simp [held, Instr.gives]) (hempty (.proc i))
  | killTake => exact absurd (by simp [held, Instr.gives]) (hempty .queueLock)
  | unlock => exact absurd (by simp [held, Instr.gives]) (hempty .queueLock)
  | @set i v c =>
    have hmem : .proc i ∈ held (setQueue i v :: c) :=
      held_subset_cons (i := setQueue i v) nofun hwf.1.1
    exact absurd hmem (hempty _)
  | ready hv h => exact absurd (h.proc_of_some hwf) (hempty _)

theorem Stage.calm_of_head (h : Stage c₀ d (x :: rest)) (hreadies : x.readies = none)
    (htakes : x.takes = none) (hset : ∀ i v, x ≠ setQueue i v) (hacquire : x ≠ acquire .queueLock)
    (hrelease : x ≠ release .queueLock) : Linked none (x :: rest) :=
  ⟨hreadies, hset, htakes ▸ h.tail htakes hset hacquire hrelease⟩

def requeued : Code → Option Slot
  | [] => none
  | x :: c =>
    match x with
    | acquire lk | release lk => if lk = .queueLock then requeued c else none
    | takeQueue i | setQueue i _ => some i
    | _ => none

theorem Linked.requeued_none (h : Linked (some i) c) : requeued c = none := by
  cases c with
  | nil => rfl
  | cons x c =>
    have hx := h.1
    cases x <;> first | rfl | cases hx

theorem Stage.acquired {lk : Lock} (h : Stage c₀ d (acquire lk :: rest)) : Stage c₀ d rest ∧
    (Linked none (acquire lk :: rest) ∧ Linked none rest ∨
      requeued rest = requeued (acquire lk :: rest)) := by
  cases h with
  | calm h => exact ⟨.calm h.2.2, .inl ⟨h, h.2.2⟩⟩
  | killLock h => exact ⟨.killTake h, .inr rfl⟩
  | ready hv h => cases h.1

theorem Stage.released {lk : Lock} (h : Stage c₀ d (release lk :: rest)) : Stage c₀ d rest ∧
    (Linked none (release lk :: rest) ∧ Linked none rest ∨
      requeued rest = requeued (release lk :: rest)) := by
  cases h with
  | calm h => exact ⟨.calm h.2.2, .inl ⟨h, h.2.2⟩⟩
  | unlock hv hlt hnew h => exact ⟨.set hv hlt hnew h, .inr rfl⟩
  | ready hv h => cases h.1

end

structure Requeues (c₀ : Nat) (s s' : Sys 1) : Prop where
  opens : ∀ i, requeued (s'.running 0) = some i →
    requeued (s.running 0) = some i ∨ (s.d.proc i).state = .sleeping ∨ Linked none (s'.running 0)
  keeps : ∀ i, requeued (s.running 0) = some i →
    Linked none (s.running 0) ∨ requeued (s'.running 0) = some i ∨
      c₀ ≤ (s'.d.proc i).queueLocation
  location : ∀ i, (s'.d.proc i).queueLocation = (s.d.proc i).queueLocation ∨
    requeued (s.running 0) = some i ∧ c₀ ≤ (s'.d.proc i).queueLocation

section

variable {pol : Policy} {c₀ : Nat} {s s' : Sys 1} {e : Event 1} {rest : Code}

theorem Requeues.calm (h : Linked none (s.running 0)) (h' : Linked none (s'.running 0))
    (hloc : ∀ i, (s'.d.proc i).queueLocation = (s.d.proc i).queueLocation) : Requeues c₀ s s' :=
  ⟨fun _ _ => .inr (.inr h'), fun _ _ => .inl h, fun i => .inl (hloc i)⟩

theorem Queue.goes (hQ : Queue c₀ s) (hstage : Stage c₀ s.d rest) (owner : Lock → Option (Fin 1))
    (noff : Fin 1 → Nat) :
    Queue c₀ ⟨s.d, owner, noff, s.cur, Function.update s.code (s.cur 0) rest⟩ where
  pos := hQ.pos
  counter := hQ.counter
  others t ht := by
    dsimp only
    rw [Function.update_of_ne ht]
    exact hQ.others t ht
  stage := by
    rw [Sys.running_update]
    exact hstage
  below := hQ.below
  apart := hQ.apart
  lives := hQ.lives

theorem Queue.lock (hQ : Queue c₀ s) (hcode : s.running 0 = x :: rest)
    (h : Stage c₀ s.d rest ∧ (Linked none (x :: rest) ∧ Linked none rest ∨
      requeued rest = requeued (x :: rest))) (owner : Lock → Option (Fin 1)) (noff : Fin 1 → Nat) :
    Queue c₀ ⟨s.d, owner, noff, s.cur, Function.update s.code (s.cur 0) rest⟩ ∧
      Requeues c₀ s ⟨s.d, owner, noff, s.cur, Function.update s.code (s.cur 0) rest⟩ := by
  refine ⟨hQ.goes h.1 owner noff, ?_⟩
  have hrunning := Sys.running_update s 0 s.d owner noff rest
  rcases h.2 with ⟨hbefore, hafter⟩ | hsame
  · apply Requeues.calm
    · rwa [hcode]
    · rwa [hrunning]
    · exact fun _ => rfl
  · refine ⟨fun i hi => .inl ?_, fun i hi => .inr (.inl ?_), fun _ => .inl rfl⟩
    · rwa [hrunning, hsame, ← hcode] at hi
    · rwa [hrunning, hsame, ← hcode]

theorem Queue.switch (hQ : Queue c₀ s) (hcode : s.running 0 = x :: rest)
    (h : Linked none (x :: rest)) (htakes : x.takes = none) (t' : Thread 1)
    (owner : Lock → Option (Fin 1)) (noff : Fin 1 → Nat) :
    Queue c₀ ⟨s.d, owner, noff, Function.update s.cur 0 t', Function.update s.code (s.cur 0) rest⟩ ∧
      Requeues c₀ s
        ⟨s.d, owner, noff, Function.update s.cur 0 t', Function.update s.code (s.cur 0) rest⟩ := by
  have hall : ∀ t, Linked none (Function.update s.code (s.cur 0) rest t) := by
    intro t
    by_cases ht : t = s.cur 0
    · rw [ht, Function.update_self]
      exact htakes ▸ h.2.2
    · rw [Function.update_of_ne ht]
      exact hQ.others t ht
  refine ⟨⟨hQ.pos, hQ.counter, fun t _ => hall t, .calm (hall _), hQ.below, hQ.apart, hQ.lives⟩, ?_⟩
  apply Requeues.calm
  · rwa [hcode]
  · exact hall _
  · exact fun _ => rfl

/-- What an instruction leaves behind, but for the processes that it makes runnable. -/
theorem Queue.exec_stage (hQ : Queue c₀ s) {c : Choice} {exp : Code} {d' : Data 1}
    (hcode : s.running 0 = x :: rest) (hx : exec pol s.d 0 (s.cur 0) c x = some (d', exp, e))
    (hwrap : s.d.queueCounter ≤ d'.queueCounter) :
    Stage c₀ d' (exp ++ rest) ∧ (∀ i, (d'.proc i).queueLocation < d'.queueCounter) ∧
    (∀ i j, (d'.proc i).queueLocation = (d'.proc j).queueLocation →
      i = j ∨ (d'.proc i).queueLocation = 0) ∧
    Requeues c₀ s { s with d := d', code := Function.update s.code (s.cur 0) (exp ++ rest) } := by
  have hstage := hQ.stage
  rw [hcode] at hstage
  have hrunning := Sys.running_update s 0 d' s.owner s.noff (exp ++ rest)
  have hnot : x ≠ acquire .queueLock ∧ x ≠ release .queueLock := by
    constructor
    · rintro rfl
      cases hx
    · rintro rfl
      cases hx
  cases exec_requeue hx with
  | none hloc hcounter hexp htakes hset =>
    have hlinked := hexp.append (hstage.tail htakes hset hnot.1 hnot.2)
    refine ⟨.calm hlinked, fun i => ?_, fun i j => ?_, ?_⟩
    · rw [hloc, hcounter]
      exact hQ.below i
    · rw [hloc, hloc]
      exact hQ.apart i j
    · refine ⟨fun i _ => .inr (.inr ?_), fun i hi => ?_, fun i => .inl (hloc i)⟩
      · rwa [hrunning]
      · -- the instruction may make a process runnable, and then no process gets a location
        rw [hcode] at hi ⊢
        cases hreadies : x.readies with
        | none => exact .inl (hstage.calm_of_head hreadies htakes hset hnot.1 hnot.2)
        | some j => cases x <;> first | (cases hreadies; done) | cases hi
  | kill pid i hi hsleeping hexp hloc hcounter =>
    subst hi hexp
    have hcalm := hstage.calm_of_head rfl rfl nofun nofun nofun
    refine ⟨.killLock hcalm.2.2, fun i => ?_, fun i j => ?_, ?_⟩
    · rw [hloc, hcounter]
      exact hQ.below i
    · rw [hloc, hloc]
      exact hQ.apart i j
    · refine ⟨fun j hj => .inr (.inl ?_), fun _ _ => .inl (hcode ▸ hcalm), fun j => .inl (hloc j)⟩
      rw [hrunning] at hj
      cases hj
      exact hsleeping
  | take i hi hexp hloc hcounter =>
    subst hi hexp
    have hlt : s.d.queueCounter < d'.queueCounter := by
      have hne : (s.d.queueCounter + 1) % 2 ^ 64 ≠ s.d.queueCounter := by omega
      rw [← hcounter] at hne
      omega
    have hrest : Linked (some i) rest ∨ Linked none rest := by
      cases hstage with
      | calm h => exact .inl h.2.2
      | killTake h => exact .inr ⟨rfl, nofun, h⟩
      | ready hv h => exact .inl h.2.2
    refine ⟨.unlock hQ.counter hlt (fun j => ?_) hrest, fun j => ?_, fun i j => ?_, ?_⟩
    · rw [hloc]
      exact Nat.ne_of_lt (hQ.below j)
    · rw [hloc]
      exact Nat.lt_trans (hQ.below j) hlt
    · rw [hloc, hloc]
      exact hQ.apart i j
    · refine ⟨fun j hj => .inl ?_, fun j hj => .inr (.inl ?_), fun j => .inl (hloc j)⟩
      · rw [hrunning] at hj
        rw [hcode]
        exact hj
      · rw [hrunning]
        rw [hcode] at hj
        exact hj
  | set i v hi hexp hloc hcounter =>
    subst hi hexp
    cases hstage with
    | calm h => exact absurd rfl (h.2.1 i v)
    | ready hv h => cases h.1
    | set hv hlt hnew h =>
      have hself : (d'.proc i).queueLocation = v := by rw [hloc, if_pos rfl]
      have hother : ∀ j, j ≠ i → (d'.proc j).queueLocation = (s.d.proc j).queueLocation := by
        intro j hj
        rw [hloc, if_neg hj]
      have hstage' : Stage c₀ d' rest := by
        rcases h with h | h
        · exact .ready (hself ▸ hv) h
        · exact .calm h
      refine ⟨hstage', fun j => ?_, fun j k hjk => ?_, ?_⟩
      · rw [hcounter, hloc]
        split
        · exact hlt
        · exact hQ.below j
      · by_cases hj : j = i
        · by_cases hk : k = i
          · exact .inl (hj.trans hk.symm)
          · rw [hj, hself, hother k hk] at hjk
            exact absurd hjk.symm (hnew k)
        · by_cases hk : k = i
          · rw [hk, hself, hother j hj] at hjk
            exact absurd hjk (hnew j)
          · rw [hother j hj, hother k hk] at hjk
            rw [hother j hj]
            exact hQ.apart j k hjk
      · refine ⟨fun j hj => ?_, fun j hj => ?_, fun j => ?_⟩
        · rw [hrunning] at hj ⊢
          rcases h with h | h
          · rw [List.nil_append, h.requeued_none] at hj
            cases hj
          · exact .inr (.inr h)
        · rw [hcode] at hj
          cases hj
          exact .inr (.inr (hself ▸ hv))
        · by_cases hj : j = i
          · subst hj
            refine .inr ⟨?_, hself ▸ hv⟩
            rw [hcode]
            rfl
          · exact .inl (hother j hj)

theorem Requeues.pos (h : Requeues c₀ s s') (hpos : 1 ≤ c₀)
    (hi : (s.d.proc i).queueLocation ≠ 0) : (s'.d.proc i).queueLocation ≠ 0 := by
  rcases h.location i with hsame | ⟨-, hnew⟩
  · rwa [hsame]
  · omega

/-- The slot in which a process has come to life has a location. -/
theorem lives_of_transition {t : Thread 1} {j : Slot} {a b : Procstate}
    (h : Sys.Transition t x j a b) (hb : b.Lives) : a.Lives ∨ x.readies = some j := by
  cases h with
  | born hi =>
    subst hi
    exact .inr rfl
  | used => exact absurd rfl hb.2
  | unclaim => exact absurd rfl hb.1
  | reap => exact absurd rfl hb.1
  | _ => exact .inl ⟨nofun, nofun⟩

theorem Queue.exec (hI : Sys.Inv s) (hQ : Queue c₀ s) {c : Choice} {exp : Code} {d' : Data 1}
    (hcode : s.running 0 = x :: rest) (hx : exec pol s.d 0 (s.cur 0) c x = some (d', exp, e))
    (hwrap : s.d.queueCounter ≤ d'.queueCounter) :
    Queue c₀ { s with d := d', code := Function.update s.code (s.cur 0) (exp ++ rest) } ∧
    Requeues c₀ s { s with d := d', code := Function.update s.code (s.cur 0) (exp ++ rest) } := by
  obtain ⟨hstage, hbelow, hapart, hrequeues⟩ := hQ.exec_stage hcode hx hwrap
  refine ⟨⟨hQ.pos, Nat.le_trans hQ.counter hwrap, ?_, ?_, hbelow, hapart, ?_⟩, hrequeues⟩
  · intro t ht
    dsimp only
    rw [Function.update_of_ne ht]
    exact hQ.others t ht
  · rw [Sys.running_update]
    exact hstage
  · intro i hi
    apply hrequeues.pos hQ.pos
    by_cases hsame : (d'.proc i).state = (s.d.proc i).state
    · exact hQ.lives i (hsame ▸ hi)
    · rcases lives_of_transition (Sys.exec_transition hI hcode hx hsame) hi with hold | hready
      · exact hQ.lives i hold
      · have hstage := hQ.stage
        rw [hcode] at hstage
        have hloc := hstage.readies hready
        have hpos := hQ.pos
        omega

theorem Queue.step (hI : Sys.Inv s) (hQ : Queue c₀ s) (hs : s.Step pol e s') (hwrap : NoWrap s e s') :
    Queue c₀ s' ∧ Requeues c₀ s s' := by
  obtain ⟨h, hs⟩ := hs.stepOf
  obtain rfl : h = 0 := Subsingleton.elim ..
  have hstage := hQ.stage
  cases hs with
  | acquire hcode hfree =>
    rw [hcode] at hstage
    exact hQ.lock hcode hstage.acquired _ _
  | release hcode hi hown =>
    rw [hcode] at hstage
    rcases hi with ⟨rfl, rfl⟩ | ⟨p, chan, rfl, rfl⟩
    · exact hQ.lock hcode hstage.released _ _
    · have hcalm := hstage.calm_of_head rfl rfl nofun nofun nofun
      exact hQ.lock hcode ⟨.calm hcalm.2.2, .inl ⟨hcalm, hcalm.2.2⟩⟩ _ _
  | sched hcode hstate =>
    rw [hcode] at hstage
    exact hQ.switch hcode (hstage.calm_of_head rfl rfl nofun nofun nofun) rfl _ _ _
  | swtch hcode =>
    rw [hcode] at hstage
    exact hQ.switch hcode (hstage.calm_of_head rfl rfl nofun nofun nofun) rfl _ _ _
  | @forkret i rest hcode =>
    rw [hcode] at hstage
    have hcalm := hstage.calm_of_head rfl rfl nofun nofun nofun
    have hnew : Linked none [release (.proc i), user] := ⟨rfl, nofun, rfl, nofun, rfl⟩
    have hall : ∀ t, Linked none (Function.update (Function.update s.code (s.cur 0) rest)
        (.kernel i) [release (.proc i), user] t) := by
      intro t
      by_cases hi : t = .kernel i
      · rw [hi, Function.update_self]
        exact hnew
      · rw [Function.update_of_ne hi]
        by_cases ht : t = s.cur 0
        · rw [ht, Function.update_self]
          exact hcalm.2.2
        · rw [Function.update_of_ne ht]
          exact hQ.others t ht
    refine ⟨⟨hQ.pos, hQ.counter, fun t _ => hall t, .calm (hall _), hQ.below, hQ.apart, hQ.lives⟩,
      ?_⟩
    apply Requeues.calm
    · rwa [hcode]
    · exact hall _
    · exact fun _ => rfl
  | exec hcode hx => exact hQ.exec hI hcode hx hwrap
  | @interrupt k hnoff hiret =>
    have hidle := hI.idle_of_noff hnoff
    have hcalm := hstage.calm_of_idle (hI.wf (s.cur 0)) hidle.2
    have htrap := (linked_trap pol (0 : Fin 1) k ((s.running 0).head? = some .user)).append hcalm
    refine ⟨hQ.goes (.calm htrap) _ _, ?_⟩
    apply Requeues.calm hcalm
    · rw [Sys.running_update]
      exact htrap
    · exact fun _ => rfl

end

end Xv6.Sched
