import Xv6.Sched.Scan
import Xv6.Sched.Writes

/-!
# Scans with interrupts

Between two slots of its scan the scheduler takes interrupts, and their handlers wake processes on
both sides of the slot it has come to.  A process that was runnable stays so, with its queue
location, and one that is woken gets a location from the counter.  So FCFS still runs the first of
those that were runnable when the scan began, and SRT one with no longer average than any of them.
-/

namespace Xv6.Sched

open Instr

variable {n : Nat}

/-!
## Handlers
-/

def Instr.handler : Instr → Bool
  | acquire _ | release _ | iret | tick | clockLoop _ | account _ | kernelTimer | wakeupLoop _ _
  | wake _ _ | wakeRunnable _ _ | takeQueue _ | setQueue _ _ | intrLoop _ => true
  | _ => false

def spine (c : Code) : Code := c.filter fun x => !x.handler

theorem spine_append (c c' : Code) : spine (c ++ c') = spine c ++ spine c' := List.filter_append ..

variable {x : Instr} {i j : Slot} {c exp : Code} {lk : Lock}

theorem spine_handler (h : x.handler = true) (c : Code) : spine (x :: c) = spine c := by
  unfold spine
  rw [List.filter_cons_of_neg]
  simp [h]

theorem spine_other (h : x.handler = false) (c : Code) : spine (x :: c) = x :: spine c := by
  unfold spine
  rw [List.filter_cons_of_pos]
  simp [h]

/-- From `d` to `d'` processes were woken, with queue locations from `c₀` on, and nothing else was
done that a scan depends on. -/
structure Woken (c₀ : Nat) (d d' : Data n) : Prop where
  cpu : d'.cpuProc = d.cpuProc
  stay : ∀ i, (d.proc i).state = .runnable →
    (d'.proc i).state = .runnable ∧ (d'.proc i).queueLocation = (d.proc i).queueLocation
  come : ∀ i, (d'.proc i).state = .runnable →
    (d.proc i).state = .runnable ∨ c₀ ≤ (d'.proc i).queueLocation
  average : ∀ i, (d'.proc i).averageBursttime = (d.proc i).averageBursttime

def Instr.rouses : Instr → Bool
  | takeQueue _ | setQueue _ _ | wakeRunnable _ _ => true
  | _ => false

def Calm (c : Code) : Prop := ∀ x ∈ c, x.rouses = false

inductive Midway (c₀ : Nat) (d : Data n) : Code → Prop
  | calm {c : Code} (h : Calm c) : Midway c₀ d c
  | lock {chan : Chan} {i : Slot} {c : Code} (hi : (d.proc i).state = .sleeping) (h : Calm c) :
      Midway c₀ d (acquire .queueLock :: takeQueue i :: wakeRunnable chan i :: c)
  | take {chan : Chan} {i : Slot} {c : Code} (hi : (d.proc i).state = .sleeping) (h : Calm c) :
      Midway c₀ d (takeQueue i :: wakeRunnable chan i :: c)
  | unlock {chan : Chan} {i : Slot} {v : Nat} {c : Code} (hi : (d.proc i).state = .sleeping)
      (hv : c₀ ≤ v) (h : Calm c) :
      Midway c₀ d (release .queueLock :: setQueue i v :: wakeRunnable chan i :: c)
  | set {chan : Chan} {i : Slot} {v : Nat} {c : Code} (hi : (d.proc i).state = .sleeping)
      (hv : c₀ ≤ v) (h : Calm c) : Midway c₀ d (setQueue i v :: wakeRunnable chan i :: c)
  | rouse {chan : Chan} {i : Slot} {c : Code} (hi : (d.proc i).state = .sleeping)
      (hv : c₀ ≤ (d.proc i).queueLocation) (h : Calm c) : Midway c₀ d (wakeRunnable chan i :: c)

section

variable {c₀ : Nat} {d d' d'' : Data n}

theorem Woken.refl (d : Data n) : Woken c₀ d d :=
  ⟨rfl, fun _ hi => ⟨hi, rfl⟩, fun _ hi => .inl hi, fun _ => rfl⟩

theorem Woken.trans (h : Woken c₀ d d') (h' : Woken c₀ d' d'') : Woken c₀ d d'' where
  cpu := h'.cpu.trans h.cpu
  stay i hi := by
    obtain ⟨hi', hloc⟩ := h.stay i hi
    obtain ⟨hi'', hloc'⟩ := h'.stay i hi'
    exact ⟨hi'', hloc'.trans hloc⟩
  come i hi := by
    rcases h'.come i hi with hi' | hlate
    · rw [(h'.stay i hi').2]
      exact h.come i hi'
    · exact .inr hlate
  average i := (h'.average i).trans (h.average i)

theorem woken_setProc {f : Proc → Proc}
    (hstay : (d.proc i).state = .runnable → (f (d.proc i)).state = .runnable ∧
      (f (d.proc i)).queueLocation = (d.proc i).queueLocation)
    (hcome : (f (d.proc i)).state = .runnable →
      (d.proc i).state = .runnable ∨ c₀ ≤ (f (d.proc i)).queueLocation)
    (havg : (f (d.proc i)).averageBursttime = (d.proc i).averageBursttime) :
    Woken c₀ d (d.setProc i f) := by
  constructor
  · rfl
  all_goals
    intro j
    rw [Data.setProc_proc]
    by_cases hj : j = i
  · rw [if_pos hj, hj]
    exact hstay
  · rw [if_neg hj]
    exact fun hj => ⟨hj, rfl⟩
  · rw [if_pos hj, hj]
    exact hcome
  · rw [if_neg hj]
    exact .inl
  · rw [if_pos hj, hj, havg]
  · rw [if_neg hj]

theorem woken_account (i : Slot) : Woken c₀ d (d.setProc i Data.accountProc) := by
  have hstate := accountProc_state (d.proc i)
  have hloc : (Data.accountProc (d.proc i)).queueLocation = (d.proc i).queueLocation := by
    unfold Data.accountProc
    split <;> rfl
  apply woken_setProc
  · exact fun hi => ⟨hstate.trans hi, hloc⟩
  · exact fun hi => .inl (hstate.symm.trans hi)
  · unfold Data.accountProc
    split <;> rfl

theorem woken_setQueue (hi : (d.proc i).state = .sleeping) (v : Nat) :
    Woken c₀ d (d.setProc i fun p => { p with queueLocation := v }) :=
  woken_setProc (fun h => nomatch hi.symm.trans h) .inl rfl

theorem woken_wake (hi : (d.proc i).state = .sleeping) (hv : c₀ ≤ (d.proc i).queueLocation) :
    Woken c₀ d (d.setState i .runnable) :=
  woken_setProc (fun h => nomatch hi.symm.trans h) (fun _ => .inr hv) rfl

theorem Calm.append {c' : Code} (h : Calm c) (h' : Calm c') : Calm (c ++ c') := by
  intro x hx
  rcases List.mem_append.1 hx with hx | hx
  · exact h x hx
  · exact h' x hx

theorem Calm.tail (h : Calm (x :: c)) : Calm c := fun y hy => h y (List.mem_cons_of_mem _ hy)

theorem Midway.calm_of_head (h : Midway c₀ d (x :: c)) (hx : x.rouses = false)
    (hacquire : x ≠ acquire .queueLock) (hrelease : x ≠ release .queueLock) :
    Calm (x :: c) := by
  cases h with
  | calm h => exact h
  | lock => exact absurd rfl hacquire
  | take => cases hx
  | unlock => exact absurd rfl hrelease
  | set => cases hx
  | rouse => cases hx

theorem Calm.handler {rest : Code} (h : Calm (x :: rest)) (hw : Woken c₀ d d')
    (hcalm : Calm exp) : Woken c₀ d d' ∧ Midway c₀ d' (exp ++ rest) :=
  ⟨hw, .calm (hcalm.append h.tail)⟩

section

variable {pol : Policy} {h : Fin n} {t : Thread n} {c : Choice} {x : Instr} {rest exp : Code}
  {e : Event n}

attribute [local simp] Calm Instr.rouses spine Instr.handler

theorem exec_handler (hx : exec pol d h t c x = some (d', exp, e)) (hh : x.handler = true)
    (hmid : Midway c₀ d (x :: rest)) (hcpu : d.cpuProc h = none) (hc : c₀ ≤ d.queueCounter) :
    Woken c₀ d d' ∧ Midway c₀ d' (exp ++ rest) := by
  cases x <;> simp only [Instr.handler, reduceCtorEq] at hh
  case acquire | release => cases hx
  case wakeRunnable chan i =>
    cases hmid with
    | calm hcalm => exact absurd (hcalm _ List.mem_cons_self) (by simp)
    | rouse hi hv hcalm =>
      cases hx
      exact ⟨woken_wake hi hv, .calm hcalm⟩
  case setQueue i v =>
    cases hmid with
    | calm hcalm => exact absurd (hcalm _ List.mem_cons_self) (by simp)
    | set hi hv hcalm =>
      cases hx
      refine ⟨woken_setQueue hi v, .rouse ?_ ?_ hcalm⟩
      · rw [Data.setProc_proc, if_pos rfl]
        exact hi
      · rw [Data.setProc_proc, if_pos rfl]
        exact hv
  case takeQueue i =>
    cases hmid with
    | calm hcalm => exact absurd (hcalm _ List.mem_cons_self) (by simp)
    | take hi hcalm =>
      cases hx
      exact ⟨⟨rfl, fun _ hj => ⟨hj, rfl⟩, fun _ hj => .inl hj, fun _ => rfl⟩, .unlock hi hc hcalm⟩
  all_goals have hcalm := hmid.calm_of_head rfl nofun nofun
  case intrLoop m =>
    simp only [exec] at hx
    split at hx <;> cases hx
    all_goals exact hcalm.handler (.refl d) (by simp [wakeup])
  all_goals cases hx
  case wake chan i =>
    by_cases hi : (d.proc i).state = .sleeping ∧ (d.proc i).chan = chan
    · rw [if_pos hi]
      exact ⟨.refl d, .lock hi.1 hcalm.tail⟩
    · rw [if_neg hi]
      exact hcalm.handler (.refl d) (by simp)
  case account i => exact hcalm.handler (woken_account i) (by simp)
  case tick =>
    exact hcalm.handler ⟨rfl, fun _ hj => ⟨hj, rfl⟩, fun _ hj => .inl hj, fun _ => rfl⟩ (by simp)
  case iret => exact hcalm.handler (.refl d) (by simp)
  case kernelTimer =>
    rw [hcpu]
    exact hcalm.handler (.refl d) (by simp)
  case clockLoop | wakeupLoop =>
    unfold forSlot
    simp only [hcpu]
    split <;> exact hcalm.handler (.refl d) (by simp)

/-- Handlers call nothing but handlers, unless a process is current. -/
theorem exec_spine (hx : exec pol d h t c x = some (d', exp, e)) (hh : x.handler = true)
    (hcpu : x = kernelTimer → d.cpuProc h = none) : spine exp = [] := by
  cases x <;> simp only [Instr.handler, reduceCtorEq] at hh
  case intrLoop m =>
    simp only [exec] at hx
    split at hx <;> cases hx
    all_goals simp [wakeup]
  all_goals cases hx
  case kernelTimer =>
    rw [hcpu rfl]
    rfl
  case wake chan i => split <;> simp [allocQueueCounter]
  case clockLoop | wakeupLoop =>
    simp only [forSlot]
    repeat' split
    all_goals simp
  all_goals simp

theorem exec_dispatched (hx : exec pol d h t c x = some (d', exp, e)) (hne : ∀ i, x ≠ tryRun i)
    (k : Fin n) (j : Slot) : e ≠ .dispatched k j := by
  cases exec_emits hx with
  | dispatched i hi => exact absurd hi (hne i)
  | _ => nofun

end

end

/-!
## The candidate
-/

def Policy.key (pol : Policy) (p : Proc) : Int :=
  if pol = .srt then p.averageBursttime else p.queueLocation

/-- The candidate after the slots below `i`: a runnable process that no process which was runnable
in `d₀` comes before. -/
structure Best (pol : Policy) (d₀ d : Data n) (i : Nat) (cand : Option Slot) : Prop where
  runnable : ∀ c, cand = some c → (d.proc c).state = .runnable
  first : ∀ a : Slot, (d₀.proc a).state = .runnable → a.val < i →
    ∃ c, cand = some c ∧ pol.key (d.proc c) ≤ pol.key (d.proc a)

section

variable {pol : Policy} {c₀ : Nat} {d₀ d d' : Data n} {cand : Option Slot} {i : Nat}

theorem Woken.key (h : Woken c₀ d d') (hj : (d.proc j).state = .runnable) :
    pol.key (d'.proc j) = pol.key (d.proc j) := by
  unfold Policy.key
  rw [h.average, (h.stay j hj).2]

theorem Best.none : Best pol d₀ d 0 none := ⟨nofun, fun _ _ h => absurd h (Nat.not_lt_zero _)⟩

theorem Best.woken (h : Best pol d₀ d i cand) (hw₀ : Woken c₀ d₀ d) (hw : Woken c₀ d d') :
    Best pol d₀ d' i cand where
  runnable c hc := (hw.stay c (h.runnable c hc)).1
  first a ha hlt := by
    obtain ⟨c, hc, hle⟩ := h.first a ha hlt
    refine ⟨c, hc, ?_⟩
    rw [hw.key (h.runnable c hc), hw.key (hw₀.stay a ha).1]
    exact hle

theorem choose_eq (hpol : pol = .fcfs ∨ pol = .srt) (j : Slot) (min : Int) :
    (d.choose pol j cand min).1 = if (d.proc j).state = .runnable ∧
      ∀ c, cand = some c → pol.key (d.proc j) < pol.key (d.proc c) then some j else cand := by
  unfold Data.choose Policy.key
  by_cases hj : (d.proc j).state = .runnable
  · rcases hpol with rfl | rfl
    · cases cand <;> simp [hj, Data.fcfsBetter]
    · cases cand <;> simp [hj, Data.srtBetter]
  · rw [if_neg hj, if_neg fun h => hj h.1]

theorem Best.choose (h : Best pol d₀ d j cand) (hpol : pol = .fcfs ∨ pol = .srt)
    (hw : Woken c₀ d₀ d) (min : Int) :
    Best pol d₀ d (j + 1) (d.choose pol j cand min).1 := by
  rw [choose_eq hpol]
  by_cases hnew : (d.proc j).state = .runnable ∧
      ∀ c, cand = some c → pol.key (d.proc j) < pol.key (d.proc c)
  · rw [if_pos hnew]
    constructor
    · intro c hc
      cases hc
      exact hnew.1
    · intro a ha hlt
      refine ⟨j, rfl, ?_⟩
      by_cases haj : a = j
      · rw [haj]
      · have hval := Fin.val_ne_of_ne haj
        obtain ⟨c, hc, hle⟩ := h.first a ha (by omega)
        have hless := hnew.2 c hc
        omega
  · rw [if_neg hnew]
    refine ⟨h.runnable, fun a ha hlt => ?_⟩
    by_cases haj : a = j
    · -- the slot itself is runnable, so that there is a candidate which comes first
      have hrunnable := (hw.stay a ha).1
      rw [not_and] at hnew
      have hold := hnew (haj ▸ hrunnable)
      push Not at hold
      rw [haj]
      exact hold
    · have hval := Fin.val_ne_of_ne haj
      exact h.first a ha (by omega)

theorem Best.some_of_runnable (h : Best pol d₀ d i cand) (hi : NPROC ≤ i)
    (hany : ∃ a, (d₀.proc a).state = .runnable) : ∃ c, cand = some c := by
  obtain ⟨a, ha⟩ := hany
  have hlt := a.isLt
  obtain ⟨c, hc, -⟩ := h.first a ha (by omega)
  exact ⟨c, hc⟩

end

/-!
## One hart
-/

structure Solo (s : Sys 1) : Prop where
  cur : s.cur 0 = .scheduler 0
  own : ∀ lk, s.owner lk = some 0 ↔ lk ∈ held (s.running 0)
  noff : s.noff 0 = (held (s.running 0)).card
  wf : WF (s.cur 0) (s.running 0)

section

variable {s : Sys 1} {lk : Lock} {rest c' : Code}

theorem owner_one (o : Option (Fin 1)) : o = none ∨ o = some 0 := by
  cases o with
  | none => exact .inl rfl
  | some h => exact .inr (congrArg some (Subsingleton.elim h 0))

theorem Solo.acquire (hS : Solo s) (hcode : s.running 0 = acquire lk :: rest) :
    s.owner lk = none ∧ Solo { s with
      owner := Function.update s.owner lk (some 0)
      noff := Function.update s.noff 0 (s.noff 0 + 1)
      code := Function.update s.code (s.cur 0) rest } := by
  have hwf := hS.wf
  rw [hcode] at hwf
  have hmem : lk ∈ held rest := hwf.1.1
  have hheld : held (s.running 0) = (held rest).erase lk := by
    rw [hcode]
    rfl
  have hnot : lk ∉ held (s.running 0) := by
    rw [hheld]
    exact Finset.notMem_erase lk (held rest)
  have hfree : s.owner lk = none := by
    rcases owner_one (s.owner lk) with hfree | hown
    · exact hfree
    · exact absurd ((hS.own lk).1 hown) hnot
  refine ⟨hfree, hS.cur, ?_, ?_, ?_⟩
  · intro lk'
    rw [Sys.running_update]
    by_cases heq : lk' = lk
    · subst heq
      simp [hmem]
    · have hown := hS.own lk'
      rw [hheld, Finset.mem_erase] at hown
      simp only [Function.update_of_ne heq, hown, ne_eq, heq, not_false_eq_true, true_and]
  · rw [Sys.running_update]
    dsimp only
    rw [Function.update_self, hS.noff, hheld, Finset.card_erase_of_mem hmem]
    have hpos := Finset.card_pos.2 ⟨lk, hmem⟩
    omega
  · rw [Sys.running_update]
    exact hwf.2

theorem Solo.release (hS : Solo s) (hcode : s.running 0 = release lk :: rest) :
    s.owner lk = some 0 ∧ Solo { s with
      owner := Function.update s.owner lk none
      noff := Function.update s.noff 0 (s.noff 0 - 1)
      code := Function.update s.code (s.cur 0) rest } := by
  have hwf := hS.wf
  rw [hcode] at hwf
  have hnot : lk ∉ held rest := hwf.1.1
  have hheld : held (s.running 0) = insert lk (held rest) := by
    rw [hcode]
    rfl
  have hown : s.owner lk = some 0 := by
    rw [hS.own, hheld]
    exact Finset.mem_insert_self ..
  refine ⟨hown, hS.cur, ?_, ?_, ?_⟩
  · intro lk'
    rw [Sys.running_update]
    by_cases heq : lk' = lk
    · subst heq
      simp [hnot]
    · have hown' := hS.own lk'
      rw [hheld, Finset.mem_insert] at hown'
      simp only [Function.update_of_ne heq, hown', heq, false_or]
  · rw [Sys.running_update]
    dsimp only
    rw [Function.update_self, hS.noff, hheld, Finset.card_insert_of_notMem hnot, Nat.add_sub_cancel]
  · rw [Sys.running_update]
    exact hwf.2

theorem Solo.goes (hS : Solo s) (hwf : WF (s.cur 0) c') (hheld : held c' = held (s.running 0))
    (d' : Data 1) :
    Solo { s with d := d', code := Function.update s.code (s.cur 0) c' } where
  cur := hS.cur
  own lk := by
    rw [Sys.running_update, hheld]
    exact hS.own lk
  noff := by
    rw [Sys.running_update, hheld]
    exact hS.noff
  wf := by
    rw [Sys.running_update]
    exact hwf

end

/-!
## Steps of a scan
-/

def Focus (pol : Policy) (d₀ d : Data 1) : Instr → Prop
  | scan i cand _ => Best pol d₀ d i cand
  | select i cand _ => Best pol d₀ d i cand
  | tryRun c => Best pol d₀ d NPROC (some c)
  | _ => False

structure InScan (pol : Policy) (c₀ : Nat) (d₀ : Data 1) (s : Sys 1) : Prop where
  solo : Solo s
  cpu : s.d.cpuProc 0 = none
  counter : c₀ ≤ s.d.queueCounter
  woken : Woken c₀ d₀ s.d
  midway : Midway c₀ s.d (s.running 0)
  focus : ∃ x, spine (s.running 0) = [x, schedLoop] ∧ Focus pol d₀ s.d x

section

variable {pol : Policy} {c₀ : Nat} {d₀ d d' : Data 1} {s s' : Sys 1} {e : Event 1} {x : Instr}
  {rest : Code}

theorem Focus.woken (h : Focus pol d₀ d x) (hw₀ : Woken c₀ d₀ d) (hw : Woken c₀ d d') :
    Focus pol d₀ d' x := by
  cases x <;> try exact h.elim
  case scan => exact Best.woken h hw₀ hw
  case select => exact Best.woken h hw₀ hw
  case tryRun => exact Best.woken h hw₀ hw

/-- The first instruction is one of a handler, or of the scan itself. -/
theorem InScan.head (hI : InScan pol c₀ d₀ s) :
    ∃ x rest, s.running 0 = x :: rest ∧
      (x.handler = true ∧ spine (s.running 0) = spine rest ∨
        spine rest = [schedLoop] ∧ Focus pol d₀ s.d x) := by
  obtain ⟨y, hspine, hfocus⟩ := hI.focus
  cases hcode : s.running 0 with
  | nil =>
    rw [hcode] at hspine
    cases hspine
  | cons x rest =>
    refine ⟨x, rest, rfl, ?_⟩
    cases hx : x.handler with
    | true => exact .inl ⟨rfl, spine_handler hx rest⟩
    | false =>
      rw [hcode, spine_other hx, List.cons.injEq] at hspine
      obtain ⟨rfl, hrest⟩ := hspine
      exact .inr ⟨hrest, hfocus⟩

theorem dispatching_spine (h : ∀ x ∈ spine c, dispatching [x] = none) : dispatching c = none := by
  induction c with
  | nil => rfl
  | cons x c ih =>
    cases hx : x.handler with
    | true =>
      rw [spine_handler hx] at h
      have hrest := ih h
      cases x <;> first | exact hrest | rfl | cases hx
    | false =>
      rw [spine_other hx] at h
      have hself := h x List.mem_cons_self
      cases x <;> first | exact hself | cases hx

theorem InScan.cpuOk (hI : InScan pol c₀ d₀ s) : CpuOk s.d 0 (s.cur 0) (s.running 0) := by
  obtain ⟨x, hspine, hfocus⟩ := hI.focus
  have hnone : dispatching (s.running 0) = none := by
    apply dispatching_spine
    intro y hy
    rw [hspine] at hy
    simp only [List.mem_cons, List.not_mem_nil, or_false] at hy
    rcases hy with rfl | rfl
    · cases y <;> first | rfl | exact hfocus.elim
    · rfl
  rw [hI.solo.cur]
  exact hI.cpu.trans hnone.symm

theorem InScan.goes (hI : InScan pol c₀ d₀ s) {c : Choice} (hcode : s.running 0 = x :: rest)
    (hx : exec pol s.d 0 (s.cur 0) c x = some (d', exp, e)) :
    Solo { s with d := d', code := Function.update s.code (s.cur 0) (exp ++ rest) } := by
  have hwf := hI.solo.wf
  have hcpu := hI.cpuOk
  rw [hcode] at hwf hcpu
  have hrun : ∀ p, s.cur 0 = .kernel p → parked (x :: rest) = false →
      (s.d.proc p).state = .running := by
    intro p hp
    rw [hI.solo.cur] at hp
    cases hp
  obtain ⟨hwf', hheld⟩ := exec_wf hx hwf.1 hwf.2 hcpu hrun
  exact hI.solo.goes hwf' (hheld.trans (by rw [hcode])) d'

theorem InScan.next (hI : InScan pol c₀ d₀ s) {c : Choice} {y : Instr}
    (hcode : s.running 0 = x :: rest) (hcalm : Calm (x :: rest))
    (hx : exec pol s.d 0 (s.cur 0) c x = some (s.d, exp, e)) (hexp : Calm exp)
    (hspine : spine rest = [schedLoop]) (hy : spine exp = [y]) (hfocus : Focus pol d₀ s.d y) :
    InScan pol c₀ d₀ { s with code := Function.update s.code (s.cur 0) (exp ++ rest) } where
  solo := hI.goes hcode hx
  cpu := hI.cpu
  counter := hI.counter
  woken := hI.woken
  midway := by
    rw [Sys.running_update]
    exact .calm (hexp.append hcalm.tail)
  focus := by
    rw [Sys.running_update, spine_append, hy, hspine]
    exact ⟨y, rfl, hfocus⟩

theorem InScan.exec (hI : InScan pol c₀ d₀ s) (hpol : pol = .fcfs ∨ pol = .srt)
    (hany : ∃ a, (d₀.proc a).state = .runnable) {c : Choice} (hcode : s.running 0 = x :: rest)
    (hx : exec pol s.d 0 (s.cur 0) c x = some (d', exp, e)) (hc : c₀ ≤ d'.queueCounter) :
    InScan pol c₀ d₀ { s with d := d', code := Function.update s.code (s.cur 0) (exp ++ rest) } ∧
        (∀ k j, e ≠ .dispatched k j) ∨
      ∃ j, x = tryRun j ∧ e = .dispatched 0 j ∧ Best pol d₀ s.d NPROC (some j) := by
  obtain ⟨x', rest', hcode', hhead⟩ := hI.head
  rw [hcode, List.cons.injEq] at hcode'
  obtain ⟨rfl, rfl⟩ := hcode'
  have hmid := hI.midway
  rw [hcode] at hmid
  rcases hhead with ⟨hhandler, hspine⟩ | ⟨hspine, hfocus⟩
  · obtain ⟨hw, hmid'⟩ := exec_handler hx hhandler hmid hI.cpu hI.counter
    have hexp := exec_spine hx hhandler fun _ => hI.cpu
    have he := exec_dispatched hx fun i hi => by
      subst hi
      cases hhandler
    obtain ⟨y, hy, hfocus⟩ := hI.focus
    refine .inl ⟨⟨hI.goes hcode hx, ?_, hc, hI.woken.trans hw, ?_, y, ?_, ?_⟩, he⟩
    · dsimp only
      rw [hw.cpu, hI.cpu]
    · rw [Sys.running_update]
      exact hmid'
    · rw [Sys.running_update, spine_append, hexp, List.nil_append, ← hspine, hy]
    · exact hfocus.woken hI.woken hw
  · cases x <;> try exact hfocus.elim
    case scan i cand min =>
      have hcalm := hmid.calm_of_head rfl (by simp) (by simp)
      have hbest : Best pol d₀ s.d i cand := hfocus
      by_cases hi : i < NPROC
      · have hx' := hx
        simp only [Sched.exec, forSlot, dif_pos hi] at hx'
        cases hx'
        refine .inl ⟨hI.next hcode hcalm hx ?_ hspine rfl hbest, by simp⟩
        simp [Calm, Instr.rouses]
      · obtain ⟨b, rfl⟩ := hbest.some_of_runnable (by omega) hany
        have hx' := hx
        simp only [Sched.exec, forSlot, dif_neg hi] at hx'
        cases hx'
        have hlast : Best pol d₀ s.d NPROC (some b) :=
          ⟨hbest.runnable, fun a ha _ => hbest.first a ha (by have hlt := a.isLt; omega)⟩
        refine .inl ⟨hI.next hcode hcalm hx ?_ hspine rfl hlast, by simp⟩
        simp [Calm, Instr.rouses]
    case select j cand min =>
      have hcalm := hmid.calm_of_head rfl (by simp) (by simp)
      have hbest : Best pol d₀ s.d j cand := hfocus
      have hnext := hbest.choose hpol hI.woken min
      cases hx
      refine .inl ⟨hI.next (c := c) hcode hcalm rfl ?_ hspine rfl hnext, by simp⟩
      simp [Calm, Instr.rouses]
    case tryRun b =>
      have hbest : Best pol d₀ s.d NPROC (some b) := hfocus
      simp only [Sched.exec, hbest.runnable b rfl, if_true] at hx
      cases hx
      exact .inr ⟨b, rfl, rfl, hbest⟩

theorem Midway.acquired (h : Midway c₀ d (acquire lk :: rest)) : Midway c₀ d rest := by
  cases h with
  | calm h => exact .calm h.tail
  | lock hi h => exact .take hi h

theorem Midway.released (h : Midway c₀ d (release lk :: rest)) : Midway c₀ d rest := by
  cases h with
  | calm h => exact .calm h.tail
  | unlock hi hv h => exact .set hi hv h

theorem InScan.handled (hI : InScan pol c₀ d₀ s) (hcode : s.running 0 = x :: rest)
    (hx : x.handler = true) (hsolo : Solo s') (hd : s'.d = s.d) (hrun : s'.running 0 = rest)
    (hmid : Midway c₀ s.d rest) : InScan pol c₀ d₀ s' where
  solo := hsolo
  cpu := hd ▸ hI.cpu
  counter := hd ▸ hI.counter
  woken := hd ▸ hI.woken
  midway := by
    rw [hd, hrun]
    exact hmid
  focus := by
    have hfocus := hI.focus
    rw [hcode, spine_handler hx] at hfocus
    rw [hd, hrun]
    exact hfocus

theorem Midway.calm_of_idle {t : Thread 1} (h : Midway c₀ d c) (hwf : WF t c)
    (hheld : held c = ∅) : Calm c := by
  have hstill : waking c = none := (hwf.quiet_of_held hheld).1.2
  cases h with
  | calm h => exact h
  | lock => cases hstill
  | take => cases hstill
  | unlock => cases hstill
  | set => cases hstill
  | rouse => cases hstill

theorem calm_trap (k : Interrupt) : Calm (trap pol 0 k false) ∧ spine (trap pol 0 k false) = [] := by
  unfold trap devintr clockintr wakeup afterIntr
  cases k with
  | timer =>
    cases pol <;> simp [Calm, spine, Instr.handler, Instr.rouses]
  | device m => simp [Calm, spine, Instr.handler, Instr.rouses]

theorem InScan.interrupt (hI : InScan pol c₀ d₀ s) (k : Interrupt) (hnoff : s.noff 0 = 0) :
    InScan pol c₀ d₀ { s with
      code := Function.update s.code (s.cur 0)
        (trap pol 0 k ((s.running 0).head? = some .user) ++ s.running 0) } := by
  have huser : decide ((s.running 0).head? = some .user) = false := by
    obtain ⟨x, rest, hcode, hhead⟩ := hI.head
    rw [hcode]
    simp only [List.head?_cons, Option.some.injEq, decide_eq_false_iff_not]
    rintro rfl
    rcases hhead with ⟨hhandler, -⟩ | ⟨-, hfocus⟩
    · cases hhandler
    · exact hfocus.elim
  have hheld : held (s.running 0) = ∅ := by
    rw [← Finset.card_eq_zero, ← hI.solo.noff, hnoff]
  have hidle : Idle (s.running 0) := ⟨hI.solo.wf.quiet_of_held hheld, hheld⟩
  have hcalm := hI.midway.calm_of_idle hI.solo.wf hheld
  obtain ⟨htrap, hspine⟩ := @calm_trap pol k
  rw [huser]
  obtain ⟨hwf', hidle'⟩ := wf_trap pol 0 k false hI.solo.wf hidle nofun
  refine ⟨hI.solo.goes hwf' (hidle'.2.trans hheld.symm) s.d, hI.cpu, hI.counter, hI.woken, ?_, ?_⟩
  · rw [Sys.running_update]
    exact .calm (htrap.append hcalm)
  · rw [Sys.running_update, spine_append, hspine]
    exact hI.focus

/-- A step leaves the hart in its scan, or runs the process that comes first. -/
theorem InScan.step (hI : InScan pol c₀ d₀ s) (hpol : pol = .fcfs ∨ pol = .srt)
    (hany : ∃ a, (d₀.proc a).state = .runnable) (hs : s.Step pol e s')
    (hc : c₀ ≤ s'.d.queueCounter) :
    InScan pol c₀ d₀ s' ∧ (∀ k j, e ≠ .dispatched k j) ∨
      ∃ j, (s.running 0).head? = some (tryRun j) ∧ e = .dispatched 0 j ∧
        Best pol d₀ s.d NPROC (some j) := by
  obtain ⟨h, hs⟩ := hs.stepOf
  obtain rfl : h = 0 := Subsingleton.elim ..
  have hnot : ∀ {x rest}, s.running 0 = x :: rest → x.handler = false → Focus pol d₀ s.d x := by
    intro x rest hcode hx
    obtain ⟨x', rest', hcode', hhead⟩ := hI.head
    rw [hcode, List.cons.injEq] at hcode'
    obtain ⟨rfl, rfl⟩ := hcode'
    rcases hhead with ⟨hhandler, -⟩ | ⟨-, hfocus⟩
    · rw [hx] at hhandler
      cases hhandler
    · exact hfocus
  cases hs with
  | acquire hcode hfree =>
    exact .inl ⟨hI.handled hcode rfl (hI.solo.acquire hcode).2 rfl (Sys.running_update ..)
      (Midway.acquired (hcode ▸ hI.midway)), nofun⟩
  | release hcode hi hown =>
    rcases hi with ⟨rfl, rfl⟩ | ⟨p, chan, rfl, rfl⟩
    · exact .inl ⟨hI.handled hcode rfl (hI.solo.release hcode).2 rfl (Sys.running_update ..)
        (Midway.released (hcode ▸ hI.midway)), nofun⟩
    · exact (hnot hcode rfl).elim
  | sched hcode hstate => exact (hnot hcode rfl).elim
  | swtch hcode => exact (hnot hcode rfl).elim
  | forkret hcode => exact (hnot hcode rfl).elim
  | exec hcode hx =>
    rcases hI.exec hpol hany hcode hx hc with hnext | ⟨j, rfl, rfl, hbest⟩
    · exact .inl hnext
    · refine .inr ⟨j, ?_, rfl, hbest⟩
      rw [hcode]
      rfl
  | interrupt hnoff hiret => exact .inl ⟨hI.interrupt _ hnoff, nofun⟩

end

/-!
## The scan ends
-/

def Instr.cost : Instr → Nat
  | acquire _ | release _ | iret | account _ | kernelTimer | setQueue _ _ | wakeRunnable _ _ => 1
  | takeQueue _ => 3
  | wake _ _ => 6
  | wakeupLoop _ i => (NPROC - i) * 9 + 1
  | clockLoop i => (NPROC - i) * 4 + 1
  | tick => NPROC * 4 + 2
  | intrLoop _ => 2
  | scan i _ _ => (NPROC - i) * 4 + 5
  | select i _ _ => (NPROC - i) * 4 + 3
  | _ => 0

def Code.cost (c : Code) : Nat := (c.map Instr.cost).sum

theorem cost_nil : Code.cost [] = 0 := rfl

theorem cost_cons (x : Instr) (c : Code) : Code.cost (x :: c) = x.cost + Code.cost c := by
  simp [Code.cost]

theorem cost_append (c c' : Code) : Code.cost (c ++ c') = Code.cost c + Code.cost c' := by
  simp [Code.cost]

section

variable {pol : Policy} {d : Data n} {h : Fin n} {t : Thread n} {x : Instr}

def Advances (pol : Policy) (d : Data n) (h : Fin n) (t : Thread n) (x : Instr) : Prop :=
  ∃ c d' exp e, (∀ k, c ≠ .interrupt k) ∧ exec pol d h t c x = some (d', exp, e) ∧
    Code.cost exp < x.cost

theorem advances_handler (hx : x.handler = true) (hacquire : ∀ lk, x ≠ acquire lk)
    (hrelease : ∀ lk, x ≠ release lk) (hcpu : d.cpuProc h = none) : Advances pol d h t x := by
  cases x <;> simp only [Instr.handler, reduceCtorEq] at hx
  case acquire lk => exact absurd rfl (hacquire lk)
  case release lk => exact absurd rfl (hrelease lk)
  case iret | account | setQueue | wakeRunnable => exact ⟨.go, _, _, _, nofun, rfl, Nat.one_pos⟩
  case tick => exact ⟨.go, _, _, _, nofun, rfl, by decide⟩
  case takeQueue i => exact ⟨.go, _, _, _, nofun, rfl, Nat.lt_succ_self 2⟩
  case intrLoop m => exact ⟨.done, _, _, _, nofun, rfl, Nat.lt_succ_self 1⟩
  case kernelTimer =>
    refine ⟨.go, _, _, _, nofun, rfl, ?_⟩
    rw [hcpu]
    exact Nat.one_pos
  case wake chan i =>
    refine ⟨.go, _, _, _, nofun, rfl, ?_⟩
    split
    · exact Nat.lt_succ_self 5
    · exact Nat.succ_pos _
  case clockLoop | wakeupLoop =>
    refine ⟨.go, _, _, _, nofun, rfl, ?_⟩
    unfold forSlot
    split
    next hi =>
      try rw [hcpu]
      simp only [reduceCtorEq, if_false, cost_append, cost_cons, cost_nil, Instr.cost]
      omega
    next => exact Nat.succ_pos _

theorem advances_scan (i : Nat) (cand : Option Slot) (min : Int) :
    Advances pol d h t (scan i cand min) := by
  refine ⟨.go, _, _, _, nofun, rfl, ?_⟩
  unfold forSlot
  split
  next hi =>
    simp only [cost_cons, cost_nil, Instr.cost]
    omega
  next hi =>
    cases cand with
    | none => exact Nat.succ_pos _
    | some c =>
      simp only [Option.elim, cost_cons, cost_nil, Instr.cost]
      omega

theorem advances_select (i : Slot) (cand : Option Slot) (min : Int) :
    Advances pol d h t (select i cand min) := by
  refine ⟨.go, _, _, _, nofun, rfl, ?_⟩
  have hi := i.isLt
  simp only [cost_cons, cost_nil, Instr.cost]
  omega

end

/-!
## Whole scans
-/

/-- A scan begins: the hart runs its scheduler, without locks and without a process, and the counter
is above the locations that are waiting.  The table is arbitrary. -/
structure ScanStart (s : Sys 1) : Prop where
  cur : s.cur 0 = .scheduler 0
  code : s.code (.scheduler 0) = [scan 0 none intMax, schedLoop]
  owner : ∀ lk, s.owner lk = none
  noff : s.noff 0 = 0
  cpu : s.d.cpuProc 0 = none
  below : ∀ i, (s.d.proc i).state = .runnable → (s.d.proc i).queueLocation < s.d.queueCounter

/-- `queue_counter` does not wrap around, so that a location taken from it is a new one. -/
def NoWrap (s : Sys n) (_ : Event n) (s' : Sys n) : Prop := s.d.queueCounter ≤ s'.d.queueCounter

def NoDispatch (es : List (Event 1)) : Prop := ∀ j, .dispatched 0 j ∉ es

theorem noDispatch_nil : NoDispatch [] := fun _ => List.not_mem_nil

section

variable {pol : Policy} {c₀ : Nat} {d₀ : Data 1} {s t : Sys 1} {es : List (Event 1)}

theorem ScanStart.running (h : ScanStart s) : s.running 0 = [scan 0 none intMax, schedLoop] := by
  unfold Sys.running
  rw [h.cur]
  exact h.code

theorem ScanStart.inScan (h : ScanStart s) (hc : c₀ ≤ s.d.queueCounter) : InScan pol c₀ s.d s where
  solo := by
    have hheld : held (s.running 0) = ∅ := by
      rw [h.running]
      rfl
    refine ⟨h.cur, fun lk => ?_, ?_, ?_⟩
    · rw [h.owner, hheld]
      simp
    · rw [h.noff, hheld]
      rfl
    · rw [h.running, h.cur]
      have hidle : ∀ c : Code, c = [] ∨ c = [schedLoop] → Idle c := by
        rintro c (rfl | rfl)
        · exact ⟨⟨⟨⟨rfl, rfl, rfl, rfl, rfl, rfl⟩, rfl⟩, rfl⟩, rfl⟩
        · exact ⟨⟨⟨⟨rfl, rfl, rfl, rfl, rfl, rfl⟩, rfl⟩, rfl⟩, rfl⟩
      exact ⟨⟨⟨0, rfl⟩, hidle _ (.inr rfl)⟩, ⟨⟨0, rfl⟩, hidle _ (.inl rfl)⟩, trivial⟩
  cpu := h.cpu
  counter := hc
  woken := .refl _
  midway := by
    rw [h.running]
    exact .calm (by simp [Calm, Instr.rouses])
  focus := by
    rw [h.running]
    exact ⟨_, rfl, Best.none⟩

theorem Midway.anyCounter {d : Data n} (h : Midway c₀ d c) : Midway 0 d c := by
  cases h with
  | calm h => exact .calm h
  | lock hi h => exact .lock hi h
  | take hi h => exact .take hi h
  | unlock hi hv h => exact .unlock hi (Nat.zero_le _) h
  | set hi hv h => exact .set hi (Nat.zero_le _) h
  | rouse hi hv h => exact .rouse hi (Nat.zero_le _) h

theorem InScan.anyCounter (hI : InScan pol c₀ d₀ s) : InScan pol 0 d₀ s where
  solo := hI.solo
  cpu := hI.cpu
  counter := Nat.zero_le _
  woken := ⟨hI.woken.cpu, hI.woken.stay, fun _ _ => .inr (Nat.zero_le _), hI.woken.average⟩
  midway := hI.midway.anyCounter
  focus := hI.focus

theorem InScan.run (hI : InScan pol c₀ d₀ s) (hpol : pol = .fcfs ∨ pol = .srt)
    (hany : ∃ a, (d₀.proc a).state = .runnable)
    (hrun : Lib.Run (Lib.Restrict (Sys.Step pol) NoWrap) s es t) (hes : NoDispatch es) :
    InScan pol c₀ d₀ t := by
  induction hrun with
  | refl => exact hI
  | @tail t u es e hrun hstep ih =>
    have hold := ih fun j hj => hes j (List.mem_append_left _ hj)
    rcases hold.step hpol hany hstep.1 (Nat.le_trans hold.counter hstep.2) with hnext | hdispatch
    · exact hnext.1
    · obtain ⟨j, -, rfl, -⟩ := hdispatch
      exact absurd (List.mem_append_right _ List.mem_cons_self) (hes j)

/-- Without further interrupts the scan comes to its end, and a process is dispatched. -/
theorem InScan.finishes (hI : InScan pol 0 d₀ s) (hpol : pol = .fcfs ∨ pol = .srt)
    (hany : ∃ a, (d₀.proc a).state = .runnable) :
    ∃ es t j u, Lib.Run (Sys.Step pol) s es t ∧ NoDispatch es ∧ t.Step pol (.dispatched 0 j) u := by
  -- by induction on the cost of the code that is still to be run
  induction hm : Code.cost (s.running 0) using Nat.strong_induction_on generalizing s with
  | _ m ih =>
    have hforward : ∀ {e s'}, s.Step pol e s' → Code.cost (s'.running 0) < m →
        ∃ es t j u, Lib.Run (Sys.Step pol) s es t ∧ NoDispatch es ∧
          t.Step pol (.dispatched 0 j) u := by
      intro e s' hstep hless
      rcases hI.step hpol hany hstep (Nat.zero_le _) with ⟨hnext, he⟩ | ⟨j, -, rfl, -⟩
      · obtain ⟨es, t, j, u, hrun, hes, hlast⟩ := ih _ hless hnext rfl
        refine ⟨[e] ++ es, t, j, u, (Lib.Run.single hstep).append hrun, fun k hk => ?_, hlast⟩
        rcases List.mem_append.1 hk with hk | hk
        · exact he 0 k (List.mem_singleton.1 hk).symm
        · exact hes k hk
      · exact ⟨[], s, j, s', .refl s, noDispatch_nil, hstep⟩
    have hadvance : ∀ {x rest}, s.running 0 = x :: rest → Advances pol s.d 0 (s.cur 0) x →
        ∃ es t j u, Lib.Run (Sys.Step pol) s es t ∧ NoDispatch es ∧
          t.Step pol (.dispatched 0 j) u := by
      rintro x rest hcode ⟨c, d', exp, e, hc, hx, hless⟩
      apply hforward (Sys.step_exec hcode hc hx)
      rw [Sys.running_update, cost_append, ← hm, hcode, cost_cons]
      omega
    obtain ⟨x, rest, hcode, hhead⟩ := hI.head
    rcases hhead with ⟨hhandler, -⟩ | ⟨-, hfocus⟩
    · by_cases hacquire : ∃ lk, x = Instr.acquire lk
      · obtain ⟨lk, rfl⟩ := hacquire
        obtain ⟨hfree, -⟩ := hI.solo.acquire hcode
        apply hforward (Sys.step_acquire pol hcode hfree)
        rw [Sys.running_update, ← hm, hcode, cost_cons]
        exact Nat.lt_add_of_pos_left Nat.one_pos
      · by_cases hrelease : ∃ lk, x = Instr.release lk
        · obtain ⟨lk, rfl⟩ := hrelease
          obtain ⟨hown, -⟩ := hI.solo.release hcode
          apply hforward (Sys.step_release pol hcode hown)
          rw [Sys.running_update, ← hm, hcode, cost_cons]
          exact Nat.lt_add_of_pos_left Nat.one_pos
        · apply hadvance hcode
          apply advances_handler hhandler _ _ hI.cpu
          · exact fun lk heq => hacquire ⟨lk, heq⟩
          · exact fun lk heq => hrelease ⟨lk, heq⟩
    · cases x <;> try exact hfocus.elim
      case scan i cand min => exact hadvance hcode (advances_scan i cand min)
      case select i cand min => exact hadvance hcode (advances_select i cand min)
      case tryRun b =>
        have hbest : Best pol d₀ s.d NPROC (some b) := hfocus
        have hx : Sched.exec pol s.d 0 (s.cur 0) .go (tryRun b) =
            some ((s.d.setState b .running).setCpuProc 0 (some b),
              (if pol = .dflt ∨ pol = .fcfs then [swtch b, clearProc b]
                else [Instr.acquire .tickslock, startTick b]), .dispatched 0 b) := by
          simp only [Sched.exec, hbest.runnable b rfl, if_true]
        exact ⟨[], s, b, _, .refl s, noDispatch_nil, Sys.step_exec (c := .go) hcode (by simp) hx⟩

/-- The process that the scan runs comes before all that were runnable when it began; under FCFS it
was one of them. -/
theorem ScanStart.dispatched (h : ScanStart s) (hpol : pol = .fcfs ∨ pol = .srt)
    (hany : ∃ a, (s.d.proc a).state = .runnable)
    (hrun : Lib.Run (Lib.Restrict (Sys.Step pol) NoWrap) s es t) (hes : NoDispatch es) {u : Sys 1}
    (hstep : t.Step pol (.dispatched 0 j) u) :
    (∀ i, (s.d.proc i).state = .runnable → pol.key (t.d.proc j) ≤ pol.key (s.d.proc i)) ∧
      (pol = .fcfs → (s.d.proc j).state = .runnable ∧
        (t.d.proc j).queueLocation = (s.d.proc j).queueLocation) := by
  have hI := (h.inScan (Nat.le_refl _)).run hpol hany hrun hes
  have hbest : Best pol s.d t.d NPROC (some j) := by
    rcases hI.anyCounter.step hpol hany hstep (Nat.zero_le _) with ⟨-, hnone⟩ | ⟨k, -, heq, hbest⟩
    · exact absurd rfl (hnone 0 j)
    · cases heq
      exact hbest
  have hfirst : ∀ i, (s.d.proc i).state = .runnable → pol.key (t.d.proc j) ≤ pol.key (s.d.proc i) := by
    intro i hi
    obtain ⟨c, hc, hle⟩ := hbest.first i hi i.isLt
    cases hc
    rwa [hI.woken.key hi] at hle
  refine ⟨hfirst, fun hfcfs => ?_⟩
  rcases hI.woken.come j (hbest.runnable j rfl) with hold | hlate
  · exact ⟨hold, (hI.woken.stay j hold).2⟩
  · -- a location from the counter is above those of the processes that were waiting
    obtain ⟨a, ha⟩ := hany
    have hle := hfirst a ha
    have hbelow := h.below a ha
    subst hfcfs
    unfold Policy.key at hle
    simp only [reduceCtorEq, if_false] at hle
    omega

end

end Xv6.Sched
