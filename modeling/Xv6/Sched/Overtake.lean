import Xv6.Sched.Queue

/-!
# First come, first served

Under FCFS a process that is runnable when a scan begins is dispatched before every process that
becomes runnable later.  Its location stays below the counter of that moment, the later ones get
locations from the counter on, and each scan on the way chooses the least location.
-/

namespace Xv6.Sched

open Instr

/-!
## Reachable states
-/

theorem queue_boot : Queue 1 (Sys.boot 1) where
  pos := Nat.le_refl _
  counter := by decide
  others t _ := by
    cases t with
    | scheduler h => exact ⟨rfl, nofun, rfl⟩
    | kernel i =>
      change Linked none (if i = 0 then [release (.proc 0), clients 0, user] else [])
      split
      · exact ⟨rfl, nofun, rfl, nofun, rfl, nofun, rfl⟩
      · rfl
  stage := .calm ⟨rfl, nofun, rfl⟩
  below := by decide
  apart := by decide
  lives := by
    intro i hi
    by_cases h : i = 0
    · rw [h]
      decide
    · have hstate : ((Sys.boot 1).d.proc i).state = .unused := by
        change (if i = 0 then _ else _ : Proc).state = _
        rw [if_neg h]
      exact absurd hstate hi.1

variable {c exp : Code} {d d' : Data 1} {th : Thread 1}

section

variable {pol : Policy} {s t u : Sys 1} {es : List (Event 1)} {e : Event 1} {i : Slot}

theorem queue_run (hrun : Lib.Run (Lib.Restrict (Sys.Step pol) NoWrap) (Sys.boot 1) es s) :
    Sys.Inv s ∧ Queue 1 s := by
  apply hrun.invariant (I := fun s => Sys.Inv s ∧ Queue 1 s)
  · intro s e t hs hstep
    exact ⟨hs.1.step hstep.1, (hs.2.step hs.1 hstep.1 hstep.2).1⟩
  · exact ⟨Sys.Inv.boot, queue_boot⟩

/-- The location that is taken next is for a process that is not yet runnable. -/
theorem Linked.requeued_some (h : Linked none c) (hi : requeued c = some i) :
    waking c = some i ∨ (yieldRunnable i ∈ c ∧ parked c = false) ∨ forkRunnable i ∈ c := by
  induction c with
  | nil => cases hi
  | cons x c ih =>
    have hpass : Linked none c → requeued c = some i → waking (x :: c) = waking c →
        parked (x :: c) = parked c → waking (x :: c) = some i ∨
          (yieldRunnable i ∈ x :: c ∧ parked (x :: c) = false) ∨ forkRunnable i ∈ x :: c := by
      intro hc hi hwaking hparked
      rw [hwaking, hparked]
      rcases ih hc hi with h | ⟨hmem, h⟩ | hmem
      · exact .inl h
      · exact .inr (.inl ⟨List.mem_cons_of_mem _ hmem, h⟩)
      · exact .inr (.inr (List.mem_cons_of_mem _ hmem))
    cases x <;> first | (cases hi; done) | skip
    case acquire lk =>
      have hlk : requeued (acquire lk :: c) = if lk = .queueLock then requeued c else none := rfl
      rw [hlk] at hi
      split at hi
      · exact hpass h.2.2 hi rfl rfl
      · cases hi
    case release lk =>
      have hlk : requeued (release lk :: c) = if lk = .queueLock then requeued c else none := rfl
      rw [hlk] at hi
      split at hi
      · exact hpass h.2.2 hi rfl rfl
      · cases hi
    case setQueue j v => exact absurd rfl (h.2.1 j v)
    case takeQueue j =>
      cases hi
      have hnext : Linked (some i) c := h.2.2
      cases c with
      | nil => cases hnext
      | cons y c =>
        have hy := hnext.1
        cases y <;> simp only [Instr.readies, reduceCtorEq, Option.some.injEq] at hy
        all_goals subst hy
        case wakeRunnable => exact .inl rfl
        case yieldRunnable =>
          exact .inr (.inl ⟨List.mem_cons_of_mem _ List.mem_cons_self, rfl⟩)
        case forkRunnable => exact .inr (.inr (List.mem_cons_of_mem _ List.mem_cons_self))

theorem WF.ok_of_mem {n : Nat} {t : Thread n} (h : WF t c) {x : Instr} (hx : x ∈ c) :
    ∃ rest, Ok t x rest := by
  induction c with
  | nil => cases hx
  | cons y c ih =>
    rcases List.mem_cons.1 hx with rfl | hx
    · exact ⟨c, h.1⟩
    · exact ih h.2 hx

theorem Sys.Inv.requeued_not_runnable (hI : Sys.Inv s) (h : Linked none (s.running 0))
    (hi : requeued (s.running 0) = some i) : (s.d.proc i).state ≠ .runnable := by
  intro hrunnable
  rcases h.requeued_some hi with hwaking | ⟨hmem, hparked⟩ | hmem
  · have hstate := hI.wake 0 i hwaking
    rw [hrunnable] at hstate
    cases hstate
  · obtain ⟨rest, hok⟩ := (hI.wf (s.cur 0)).ok_of_mem hmem
    have hstate := hI.run 0 i hok.1
    rw [if_neg (by simp [hparked]), hrunnable] at hstate
    cases hstate
  · have hclaim : Claims (s.code (s.cur 0)) i := ⟨_, hmem, rfl⟩
    rcases hI.claim (s.cur 0) i hclaim with hstate | ⟨hstate, -⟩
    · rw [hrunnable] at hstate
      cases hstate
    · rw [hrunnable] at hstate
      cases hstate

/-!
## Since a scan began
-/

theorem exec_tryRun {c : Choice} {h : Fin 1}
    (hx : exec pol d h th c (tryRun i) = some (d', exp, e)) :
    (d.proc i).state = .runnable ∧ e = .dispatched h i ∧ (d'.proc i).state = .running ∨
      (d.proc i).state ≠ .runnable ∧ e = .tau ∧ exp = [] := by
  by_cases hi : (d.proc i).state = .runnable
  · simp only [exec, hi, if_true] at hx
    cases hx
    exact .inl ⟨hi, rfl, by simp [Data.setState]⟩
  · simp only [exec, hi, if_false] at hx
    cases hx
    exact .inr ⟨hi, rfl, rfl⟩

theorem step_dispatched (hs : s.Step pol (.dispatched 0 i) t) :
    (∃ rest, s.running 0 = tryRun i :: rest) ∧ (t.d.proc i).state = .running := by
  obtain ⟨h, hs⟩ := hs.stepOf
  obtain rfl : h = 0 := Subsingleton.elim ..
  generalize he : (Event.dispatched 0 i : Event 1) = e at hs
  cases hs with
  | exec hcode hx =>
    have hemits := exec_emits hx
    rw [← he] at hemits
    generalize hj : (Event.dispatched 0 i : Event 1) = e' at hemits
    cases hemits with
    | dispatched j hi =>
      cases hj
      subst hi
      rcases exec_tryRun hx with ⟨-, -, hrunning⟩ | ⟨-, htau, -⟩
      · exact ⟨⟨_, hcode⟩, hrunning⟩
      · cases he.trans htau
    | _ => cases hj
  | release hcode hi hown =>
    rcases hi with ⟨-, rfl⟩ | ⟨p, chan, -, rfl⟩
    · cases he
    · cases he
  | _ => cases he

theorem dispatched_of_leaves (hI : Sys.Inv s) (hs : s.Step pol e t)
    (hi : (s.d.proc i).state = .runnable) (hi' : (t.d.proc i).state ≠ .runnable) :
    e = .dispatched 0 i := by
  obtain ⟨h, hs⟩ := hs.stepOf
  obtain rfl : h = 0 := Subsingleton.elim ..
  cases hs with
  | @exec c x rest exp d' e hcode hx =>
    have htr := Sys.exec_transition hI hcode hx (j := i) (by rw [hi]; exact hi')
    rw [hi] at htr
    generalize (d'.proc i).state = b at htr
    cases htr with
    | dispatch hj =>
      subst hj
      rcases exec_tryRun hx with ⟨-, he, -⟩ | ⟨hnot, -, -⟩
      · exact he
      · exact absurd hi hnot
  | _ => exact absurd hi hi'

structure Since (s : Sys 1) (es : List (Event 1)) (t : Sys 1) : Prop where
  inv : Sys.Inv t
  queue : Queue s.d.queueCounter t
  old : ∀ i, (s.d.proc i).state = .runnable → .dispatched 0 i ∉ es →
    (t.d.proc i).state = .runnable ∧ (t.d.proc i).queueLocation = (s.d.proc i).queueLocation ∧
      requeued (t.running 0) ≠ some i
  new : ∀ i, (t.d.proc i).state = .runnable →
    ((s.d.proc i).state = .runnable ∧ .dispatched 0 i ∉ es) ∨
      s.d.queueCounter ≤ (t.d.proc i).queueLocation ∨ requeued (t.running 0) = some i

theorem requeued_kill (hI : Sys.Inv s) {c : Choice} {x : Instr} {rest : Code}
    (hcode : s.running 0 = x :: rest) (hx : exec pol s.d 0 (s.cur 0) c x = some (d', exp, e))
    (hi : (s.d.proc i).state ≠ .runnable) (hi' : (d'.proc i).state = .runnable) :
    x.readies = some i ∨ requeued (exp ++ rest) = some i := by
  have htr := Sys.exec_transition hI hcode hx (j := i) (by rw [hi']; exact hi.symm)
  rw [hi'] at htr
  generalize hst : (s.d.proc i).state = a at htr
  cases htr with
  | park ht hj =>
    subst hj
    exact .inl rfl
  | wake hj =>
    subst hj
    exact .inl rfl
  | born hj =>
    subst hj
    exact .inl rfl
  | kill hj =>
    subst hj
    simp only [exec, hst, if_true] at hx
    split at hx
    · cases hx
      exact .inr rfl
    · cases hx
      rw [hst] at hi'
      cases hi'

theorem Since.step (h : Since s es t) (hs : t.Step pol e u) (hwrap : NoWrap t e u) :
    Since s (es ++ [e]) u := by
  have hI' := h.inv.step hs
  obtain ⟨hqueue, hrequeues⟩ := h.queue.step h.inv hs hwrap
  refine ⟨hI', hqueue, ?_, ?_⟩
  · intro i hi hnot
    rw [List.mem_append, not_or, List.mem_singleton] at hnot
    obtain ⟨hrunnable, hloc, hcalm⟩ := h.old i hi hnot.1
    have hrunnable' : (u.d.proc i).state = .runnable := by
      by_contra hne
      exact hnot.2 (dispatched_of_leaves h.inv hs hrunnable hne).symm
    refine ⟨hrunnable', ?_, ?_⟩
    · rcases hrequeues.location i with hsame | ⟨hopen, -⟩
      · exact hsame.trans hloc
      · exact absurd hopen hcalm
    · intro hopen
      rcases hrequeues.opens i hopen with hbefore | hsleeping | hlinked
      · exact hcalm hbefore
      · rw [hrunnable] at hsleeping
        cases hsleeping
      · exact hI'.requeued_not_runnable hlinked hopen hrunnable'
  · intro i hi
    by_cases hbefore : (t.d.proc i).state = .runnable
    · rcases h.new i hbefore with ⟨hold, hnot⟩ | hlate | hopen
      · refine .inl ⟨hold, ?_⟩
        rw [List.mem_append, not_or, List.mem_singleton]
        refine ⟨hnot, ?_⟩
        rintro rfl
        have hrunning := (step_dispatched hs).2
        rw [hi] at hrunning
        cases hrunning
      · rcases hrequeues.location i with hsame | ⟨-, hnew⟩
        · exact .inr (.inl (hsame ▸ hlate))
        · exact .inr (.inl hnew)
      · rcases hrequeues.keeps i hopen with hlinked | hstill | hnew
        · exact absurd hbefore (h.inv.requeued_not_runnable hlinked hopen)
        · exact .inr (.inr hstill)
        · exact .inr (.inl hnew)
    · -- the process has just become runnable
      obtain ⟨k, hs⟩ := hs.stepOf
      obtain rfl : k = 0 := Subsingleton.elim ..
      cases hs with
      | exec hcode hx =>
        rcases requeued_kill h.inv hcode hx hbefore hi with hready | hopen
        · have hstage := h.queue.stage
          rw [hcode] at hstage
          have hloc := hstage.readies hready
          rcases hrequeues.location i with hsame | ⟨-, hnew⟩
          · exact .inr (.inl (hsame ▸ hloc))
          · exact .inr (.inl hnew)
        · refine .inr (.inr ?_)
          rw [Sys.running_update]
          exact hopen
      | _ => exact absurd hi hbefore

end

/-!
## The scheduler's code under FCFS
-/

def Instr.scans : Instr → Bool
  | scan _ _ _ | select _ _ _ | tryRun _ => true
  | _ => false

inductive Front : Code → Prop
  | idle : Front []
  | scan {x : Instr} (h : x.scans = true) : Front [x]
  | switch (j : Slot) : Front [swtch j, clearProc j]
  | back (j : Slot) : Front [clearProc j]

def Shaped (c : Code) : Prop := ∃ pre, c = pre ++ [schedLoop] ∧ Front (spine pre)

def Scanning (c : Code) : Prop := ∃ x rest, spine c = x :: rest ∧ x.scans = true

section

variable {s t u : Sys 1} {es : List (Event 1)} {e : Event 1} {c rest : Code} {x : Instr}

theorem Shaped.head (h : Shaped (x :: rest)) :
    (x = schedLoop ∧ rest = []) ∨ ∃ pre, rest = pre ++ [schedLoop] ∧ Front (spine (x :: pre)) := by
  obtain ⟨pre, hpre, hfront⟩ := h
  cases pre with
  | nil =>
    rw [List.nil_append, List.cons.injEq] at hpre
    exact .inl hpre
  | cons y pre =>
    rw [List.cons_append, List.cons.injEq] at hpre
    obtain ⟨rfl, hrest⟩ := hpre
    exact .inr ⟨pre, hrest, hfront⟩

theorem shaped_of_front {pre : Code} (h : Front (spine pre)) : Shaped (pre ++ [schedLoop]) :=
  ⟨pre, rfl, h⟩

theorem Scanning.dispatching (h : Scanning c) (hshape : Shaped c) : dispatching c = none := by
  obtain ⟨x, rest, hspine, hx⟩ := h
  obtain ⟨pre, rfl, hfront⟩ := hshape
  apply dispatching_spine
  rw [spine_append] at hspine ⊢
  intro y hy
  generalize spine pre = c at hfront hspine hy
  cases hfront with
  | idle =>
    rw [List.nil_append] at hspine
    cases hspine
    cases hx
  | @scan z hz =>
    have hy' : y = z ∨ y = schedLoop := by simpa [spine, Instr.handler] using hy
    rcases hy' with rfl | rfl
    · cases y <;> first | rfl | cases hz
    · rfl
  | switch j =>
    cases hspine
    cases hx
  | back j =>
    cases hspine
    cases hx

theorem shaped_between {pre : Code} (hpre : spine pre = c) (h : Front c)
    (hnot : ∀ y ∈ c, y.scans = false) :
    Shaped (pre ++ [schedLoop]) ∧ ¬Scanning (pre ++ [schedLoop]) := by
  subst hpre
  refine ⟨shaped_of_front h, ?_⟩
  rintro ⟨x, rest, hspine, hx⟩
  have hmem : x ∈ spine pre ++ [schedLoop] := by
    rw [spine_append] at hspine
    change spine pre ++ [schedLoop] = x :: rest at hspine
    rw [hspine]
    exact List.mem_cons_self
  rcases List.mem_append.1 hmem with hmem | hmem
  · rw [hnot x hmem] at hx
    cases hx
  · rw [List.mem_singleton.1 hmem] at hx
    cases hx

theorem exec_scans {ch : Choice} (h : x.scans = true)
    (hx : exec .fcfs d 0 th ch x = some (d', exp, e)) :
    (∃ y, spine exp = [y] ∧ y.scans = true) ∧ (∀ j, e ≠ .dispatched 0 j) ∨
      spine exp = [] ∨ ∃ j, spine exp = [swtch j, clearProc j] := by
  cases x <;> simp only [Instr.scans, reduceCtorEq] at h
  case scan i cand min =>
    cases hx
    simp only [forSlot]
    split
    · exact .inl ⟨⟨_, rfl, rfl⟩, by simp⟩
    · cases cand with
      | none => exact .inr (.inl rfl)
      | some c => exact .inl ⟨⟨_, rfl, rfl⟩, by simp⟩
  case select i cand min =>
    cases hx
    exact .inl ⟨⟨_, rfl, rfl⟩, by simp⟩
  case tryRun j =>
    simp only [exec, or_true, if_true] at hx
    split at hx
    · cases hx
      exact .inr (.inr ⟨j, rfl⟩)
    · cases hx
      exact .inr (.inl rfl)

/-- A scan goes on with an instruction of the scheduler, or begins with it. -/
theorem exec_shaped {ch : Choice} (h : Shaped (x :: rest))
    (hx : exec .fcfs d 0 th ch x = some (d', exp, e)) (hcpu : x = kernelTimer → d.cpuProc 0 = none) :
    Shaped (exp ++ rest) ∧ (Scanning (exp ++ rest) →
      Scanning (x :: rest) ∧ (∀ j, e ≠ .dispatched 0 j) ∨
        exp ++ rest = [Instr.scan 0 none intMax, schedLoop]) := by
  rcases h.head with ⟨rfl, rfl⟩ | ⟨pre, rfl, hfront⟩
  · cases hx
    exact ⟨⟨[Instr.scan 0 none intMax], rfl, .scan rfl⟩, fun _ => .inr rfl⟩
  · rw [← List.append_assoc]
    cases hhandler : x.handler with
    | true =>
      have hexp := exec_spine hx hhandler hcpu
      have hspine : ∀ c, spine (exp ++ c) = spine (x :: c) := by
        intro c
        rw [spine_append, hexp, List.nil_append, spine_handler hhandler]
      refine ⟨shaped_of_front (hspine pre ▸ hfront), fun hscan => .inl ⟨?_, fun j => ?_⟩⟩
      · unfold Scanning
        rw [← hspine, ← List.append_assoc]
        exact hscan
      · apply exec_dispatched hx
        rintro i rfl
        cases hhandler
    | false =>
      rw [spine_other hhandler] at hfront
      generalize hc : x :: spine pre = c at hfront
      have happend : spine pre = [] → spine (exp ++ pre) = spine exp := by
        intro hpre
        rw [spine_append, hpre, List.append_nil]
      cases hfront with
      | idle => cases hc
      | switch j =>
        rw [List.cons.injEq] at hc
        obtain ⟨rfl, -⟩ := hc
        cases hx
      | back j =>
        rw [List.cons.injEq] at hc
        obtain ⟨rfl, hpre⟩ := hc
        cases hx
        have hspine : spine ([] ++ pre) = [] := happend hpre
        obtain ⟨hshape, hnot⟩ := shaped_between hspine .idle nofun
        exact ⟨hshape, fun hscan => absurd hscan hnot⟩
      | scan hscans =>
        rw [List.cons.injEq] at hc
        obtain ⟨rfl, hpre⟩ := hc
        have hspine := happend hpre
        rcases exec_scans hscans hx with ⟨⟨y, hy, hyscans⟩, he⟩ | hend
        · refine ⟨shaped_of_front ?_, fun _ => .inl ⟨⟨x, _, spine_other hhandler _, hscans⟩, he⟩⟩
          rw [hspine, hy]
          exact .scan hyscans
        · rcases hend with hend | ⟨j, hend⟩
          · obtain ⟨hshape, hnot⟩ := shaped_between (hspine.trans hend) .idle nofun
            exact ⟨hshape, fun hscan => absurd hscan hnot⟩
          · obtain ⟨hshape, hnot⟩ := shaped_between (hspine.trans hend) (.switch j)
              (by simp [Instr.scans])
            exact ⟨hshape, fun hscan => absurd hscan hnot⟩

theorem Shaped.handler (h : Shaped (x :: rest)) (hx : x.handler = true) :
    Shaped rest ∧ (Scanning rest → Scanning (x :: rest)) := by
  constructor
  · rcases h.head with ⟨rfl, -⟩ | ⟨pre, rfl, hfront⟩
    · cases hx
    · rw [spine_handler hx] at hfront
      exact shaped_of_front hfront
  · unfold Scanning
    rw [spine_handler hx]
    exact id

theorem Shaped.not_head (h : Shaped (x :: rest)) (hx : x.handler = false) (hscans : x.scans = false)
    (hloop : x ≠ schedLoop) (hswtch : ∀ j, x ≠ swtch j) (hclear : ∀ j, x ≠ clearProc j) : False := by
  rcases h.head with ⟨rfl, -⟩ | ⟨pre, rfl, hfront⟩
  · exact hloop rfl
  · rw [spine_other hx] at hfront
    generalize hc : x :: spine pre = c at hfront
    cases hfront with
    | idle => cases hc
    | scan h =>
      rw [List.cons.injEq] at hc
      rw [← hc.1, hscans] at h
      cases h
    | switch j => exact hswtch j (List.cons.inj hc).1
    | back j => exact hclear j (List.cons.inj hc).1

theorem Shaped.swtch {j : Slot} (h : Shaped (swtch j :: rest)) : Shaped rest ∧ ¬Scanning rest := by
  rcases h.head with ⟨heq, -⟩ | ⟨pre, rfl, hfront⟩
  · cases heq
  · rw [spine_other rfl] at hfront
    generalize hc : Instr.swtch j :: spine pre = c at hfront
    cases hfront with
    | idle => cases hc
    | scan h =>
      rw [← (List.cons.inj hc).1] at h
      cases h
    | back k => cases (List.cons.inj hc).1
    | switch k =>
      have hpre := (List.cons.inj hc).2
      exact shaped_between hpre (.back k) (by simp [Instr.scans])

/-- A step of the machine takes the scheduler from one place of its code to the next. -/
theorem Shaped.step (h : Shaped (t.code (.scheduler 0))) (hI : Sys.Inv t) (hs : t.Step .fcfs e u) :
    Shaped (u.code (.scheduler 0)) ∧ (Scanning (u.code (.scheduler 0)) →
      Scanning (t.code (.scheduler 0)) ∧ (∀ j, e ≠ .dispatched 0 j) ∨
        u.cur 0 = .scheduler 0 ∧ u.code (.scheduler 0) = [Instr.scan 0 none intMax, schedLoop]) := by
  obtain ⟨k, hs⟩ := hs.stepOf
  obtain rfl : k = 0 := Subsingleton.elim ..
  cases hcur : t.cur 0 with
  | kernel p =>
    have hsame : u.code (.scheduler 0) = t.code (.scheduler 0) := by
      cases hs <;> simp [hcur]
    rw [hsame]
    refine ⟨h, fun hscan => ?_⟩
    have hback := (hI.back 0 p hcur).2.1
    rw [hscan.dispatching h] at hback
    cases hback
  | scheduler k =>
    obtain rfl : k = 0 := Subsingleton.elim ..
    have hrunning : t.running 0 = t.code (.scheduler 0) := by rw [Sys.running, hcur]
    have hself : ∀ c, Function.update t.code (t.cur 0) c (.scheduler 0) = c := by
      intro c
      rw [hcur, Function.update_self]
    cases hs with
    | acquire hcode hfree =>
      rw [← hrunning, hcode] at h ⊢
      obtain ⟨hshape, hscan⟩ := h.handler rfl
      dsimp only
      rw [hself]
      exact ⟨hshape, fun hs => .inl ⟨hscan hs, by simp⟩⟩
    | release hcode hi hown =>
      rw [← hrunning, hcode] at h ⊢
      dsimp only
      rw [hself]
      rcases hi with ⟨rfl, rfl⟩ | ⟨p, chan, rfl, rfl⟩
      · obtain ⟨hshape, hscan⟩ := h.handler rfl
        exact ⟨hshape, fun hs => .inl ⟨hscan hs, by simp⟩⟩
      · exact (h.not_head rfl rfl (by simp) (by simp) (by simp)).elim
    | sched hcode hstate =>
      rw [← hrunning, hcode] at h
      exact (h.not_head rfl rfl (by simp) (by simp) (by simp)).elim
    | forkret hcode =>
      rw [← hrunning, hcode] at h
      exact (h.not_head rfl rfl (by simp) (by simp) (by simp)).elim
    | swtch hcode =>
      rw [← hrunning, hcode] at h
      obtain ⟨hshape, hscan⟩ := h.swtch
      dsimp only
      rw [hself]
      exact ⟨hshape, fun hs => absurd hs hscan⟩
    | exec hcode hx =>
      have hcpu := hI.cpu 0
      rw [hcode, hcur] at hcpu
      rw [← hrunning, hcode] at h ⊢
      dsimp only
      rw [hself]
      obtain ⟨hshape, hscan⟩ := exec_shaped h hx (by rintro rfl; exact hcpu)
      refine ⟨hshape, fun hs => ?_⟩
      rcases hscan hs with hold | hnew
      · exact .inl hold
      · exact .inr ⟨hcur, hnew⟩
    | @interrupt k hnoff hiret =>
      have huser : decide ((t.running 0).head? = some .user) = false := by
        rw [decide_eq_false_iff_not]
        intro huser
        rw [← hrunning] at h
        cases hcode : t.running 0 with
        | nil =>
          rw [hcode] at huser
          cases huser
        | cons x rest =>
          rw [hcode] at huser h
          cases huser
          exact h.not_head rfl rfl (by simp) (by simp) (by simp)
      obtain ⟨-, htrap⟩ := @calm_trap .fcfs k
      rw [huser]
      dsimp only
      rw [hself, hrunning]
      obtain ⟨pre, hpre, hfront⟩ := h
      have hspine : ∀ c, spine (trap .fcfs 0 k false ++ c) = spine c := by
        intro c
        rw [spine_append, htrap, List.nil_append]
      constructor
      · refine ⟨trap .fcfs 0 k false ++ pre, by rw [hpre, List.append_assoc]; rfl, ?_⟩
        rw [hspine]
        exact hfront
      · intro hscan
        refine .inl ⟨?_, by simp⟩
        unfold Scanning at hscan ⊢
        rwa [← hspine]

end

/-!
## Whole runs
-/

section

variable {s t u : Sys 1} {es : List (Event 1)} {e : Event 1} {c₀ : Nat}

theorem Queue.scanStart (hQ : Queue c₀ s) (hI : Sys.Inv s)
    (hcode : s.running 0 = [scan 0 none intMax, schedLoop]) : ScanStart s := by
  have hheld : held (s.running 0) = ∅ := by
    rw [hcode]
    rfl
  have hcur : s.cur 0 = .scheduler 0 := by
    obtain ⟨k, hk⟩ := (hI.ok hcode).1
    rw [hk, Subsingleton.elim k 0]
  constructor
  · exact hcur
  · rw [← hcode, Sys.running, hcur]
  · intro lk
    rcases owner_one (s.owner lk) with hfree | hown
    · exact hfree
    · rw [hI.own, hheld] at hown
      cases hown
  · rw [hI.noff, hheld]
    rfl
  · have hcpu := hI.cpu 0
    rw [hcode, hcur] at hcpu
    exact hcpu
  · exact fun i _ => hQ.below i

theorem Since.refl (hI : Sys.Inv s) (hQ : Queue c₀ s) (hs : ScanStart s) : Since s [] s where
  inv := hI
  queue :=
    { pos := Nat.le_trans hQ.pos hQ.counter
      counter := Nat.le_refl _
      others := hQ.others
      stage := by
        rw [hs.running]
        exact .calm ⟨rfl, nofun, rfl, nofun, rfl⟩
      below := hQ.below
      apart := hQ.apart
      lives := hQ.lives }
  old i hi _ := by
    refine ⟨hi, rfl, ?_⟩
    rw [hs.running]
    nofun
  new i hi := .inl ⟨hi, nofun⟩

/-- The scan that the scheduler is in began in a state of the run, and nothing has been dispatched
since. -/
def Began (s : Sys 1) (es : List (Event 1)) (t : Sys 1) : Prop :=
  ∃ es₁ es₂ s', es = es₁ ++ es₂ ∧ Since s es₁ s' ∧ ScanStart s' ∧
    Lib.Run (Lib.Restrict (Sys.Step .fcfs) NoWrap) s' es₂ t ∧ NoDispatch es₂

theorem since_run (hI : Sys.Inv s) (hQ : Queue c₀ s) (hs : ScanStart s)
    (hrun : Lib.Run (Lib.Restrict (Sys.Step .fcfs) NoWrap) s es t) :
    Since s es t ∧ Shaped (t.code (.scheduler 0)) ∧
      (Scanning (t.code (.scheduler 0)) → Began s es t) := by
  apply hrun.history (I := fun es t => Since s es t ∧ Shaped (t.code (.scheduler 0)) ∧
    (Scanning (t.code (.scheduler 0)) → Began s es t))
  · rintro es t e u ⟨hsince, hshape, hbegan⟩ hstep
    have hsince' := hsince.step hstep.1 hstep.2
    obtain ⟨hshape', hscan⟩ := hshape.step hsince.inv hstep.1
    refine ⟨hsince', hshape', fun hscanning => ?_⟩
    rcases hscan hscanning with ⟨hold, he⟩ | ⟨hcur, hcode⟩
    · obtain ⟨es₁, es₂, s', rfl, hsince₁, hstart, hrun, hes⟩ := hbegan hold
      refine ⟨es₁, es₂ ++ [e], s', List.append_assoc .., hsince₁, hstart, hrun.tail hstep, ?_⟩
      intro j hj
      rcases List.mem_append.1 hj with hj | hj
      · exact hes j hj
      · exact he j (List.mem_singleton.1 hj).symm
    · have hstart : ScanStart u := by
        apply hsince'.queue.scanStart hsince'.inv
        rw [Sys.running, hcur]
        exact hcode
      exact ⟨es ++ [e], [], u, (List.append_nil _).symm, hsince', hstart, .refl u, noDispatch_nil⟩
  · refine ⟨.refl hI hQ hs, ?_, fun _ => ⟨[], [], s, rfl, .refl hI hQ hs, hs, .refl s, noDispatch_nil⟩⟩
    rw [hs.code]
    exact ⟨[scan 0 none intMax], rfl, .scan rfl⟩

/-- A process that was runnable when a scan began is not overtaken. -/
theorem not_overtaken (hI : Sys.Inv s) (hQ : Queue c₀ s) (hs : ScanStart s) {a b : Slot}
    (ha : (s.d.proc a).state = .runnable)
    (hrun : Lib.Run (Lib.Restrict (Sys.Step .fcfs) NoWrap) s es t) (hnot : .dispatched 0 a ∉ es)
    (hstep : t.Step .fcfs (.dispatched 0 b) u) :
    (s.d.proc b).state = .runnable ∧ .dispatched 0 b ∉ es := by
  obtain ⟨hsince, hshape, hbegan⟩ := since_run hI hQ hs hrun
  obtain ⟨⟨rest, hcode⟩, -⟩ := step_dispatched hstep
  have hcur : t.cur 0 = .scheduler 0 := by
    obtain ⟨k, hk⟩ := (hsince.inv.ok hcode).1
    rw [hk, Subsingleton.elim k 0]
  have hscanning : Scanning (t.code (.scheduler 0)) := by
    rw [Sys.running, hcur] at hcode
    rw [hcode]
    exact ⟨tryRun b, _, spine_other rfl _, rfl⟩
  obtain ⟨es₁, es₂, s', rfl, hsince₁, hstart, hrun₂, hes₂⟩ := hbegan hscanning
  rw [List.mem_append, not_or] at hnot
  obtain ⟨ha', hloc, -⟩ := hsince₁.old a ha hnot.1
  obtain ⟨hfirst, hchosen⟩ := hstart.dispatched (.inl rfl) ⟨a, ha'⟩ hrun₂ hes₂ hstep
  obtain ⟨hb', hlocb⟩ := hchosen rfl
  have hle := hfirst a ha'
  have hbelow := hs.below a ha
  unfold Policy.key at hle
  simp only [reduceCtorEq, if_false] at hle
  rcases hsince₁.new b hb' with ⟨hb, hb₁⟩ | hlate | hopen
  · refine ⟨hb, ?_⟩
    rw [List.mem_append, not_or]
    exact ⟨hb₁, hes₂ b⟩
  · omega
  · rw [hstart.running] at hopen
    cases hopen

/-- On one hart: a scan of FCFS or SRT that begins with some process runnable, over any table and
with any interrupts on the way, comes to dispatch a process, and the one it dispatches is first among
those that were runnable when it began.  In whole FCFS runs the locations of runnable processes
differ when a scan begins, and a process that is runnable then is dispatched before every process
that becomes runnable later. -/
theorem served_in_order :
    (∀ (pol : Policy) (s t : Sys 1) (es : List (Event 1)), pol = .fcfs ∨ pol = .srt → ScanStart s →
      (∃ i, (s.d.proc i).state = .runnable) →
      Lib.Run (Lib.Restrict (Sys.Step pol) NoWrap) s es t → NoDispatch es →
      (∃ es' u j v, Lib.Run (Sys.Step pol) t es' u ∧ NoDispatch es' ∧
        u.Step pol (.dispatched 0 j) v) ∧
      ∀ j u, t.Step pol (.dispatched 0 j) u →
        (pol = .fcfs → (s.d.proc j).state = .runnable ∧ ∀ i, (s.d.proc i).state = .runnable →
          (s.d.proc j).queueLocation ≤ (s.d.proc i).queueLocation) ∧
        (pol = .srt → ∀ i, (s.d.proc i).state = .runnable →
          (t.d.proc j).averageBursttime ≤ (s.d.proc i).averageBursttime)) ∧
    ∀ (s : Sys 1) (es₀ : List (Event 1)),
      Lib.Run (Lib.Restrict (Sys.Step .fcfs) NoWrap) (Sys.boot 1) es₀ s →
      s.running 0 = [scan 0 none intMax, schedLoop] →
      ScanStart s ∧
      (∀ i j, (s.d.proc i).state = .runnable →
        (s.d.proc i).queueLocation = (s.d.proc j).queueLocation → i = j) ∧
      ∀ a b es t u, (s.d.proc a).state = .runnable →
        Lib.Run (Lib.Restrict (Sys.Step .fcfs) NoWrap) s es t → .dispatched 0 a ∉ es →
        t.Step .fcfs (.dispatched 0 b) u →
        (s.d.proc b).state = .runnable ∧ .dispatched 0 b ∉ es := by
  constructor
  · intro pol s t es hpol hs hany hrun hes
    constructor
    · exact ((hs.inScan (Nat.zero_le _)).run hpol hany hrun hes).finishes hpol hany
    · intro j u hstep
      obtain ⟨hfirst, hchosen⟩ := hs.dispatched hpol hany hrun hes hstep
      constructor
      · rintro rfl
        obtain ⟨hj, hloc⟩ := hchosen rfl
        refine ⟨hj, fun i hi => ?_⟩
        have hle := hfirst i hi
        unfold Policy.key at hle
        simp only [reduceCtorEq, if_false] at hle
        omega
      · rintro rfl i hi
        exact hfirst i hi
  · intro s es₀ hrun₀ hcode
    obtain ⟨hI, hQ⟩ := queue_run hrun₀
    have hs := hQ.scanStart hI hcode
    refine ⟨hs, ?_, ?_⟩
    · intro i j hi hloc
      have hlives : (s.d.proc i).state.Lives := by
        rw [hi]
        exact ⟨nofun, nofun⟩
      exact (hQ.apart i j hloc).resolve_right (hQ.lives i hlives)
    · intro a b es t u ha hrun hnot hstep
      exact not_overtaken hI hQ hs ha hrun hnot hstep

theorem served_in_order_first : ScanStart firstScan ∧
    (∃ es u j v, Lib.Run (Sys.Step .fcfs) firstScan es u ∧ NoDispatch es ∧
      u.Step .fcfs (.dispatched 0 j) v) := by
  have hstep : Lib.Restrict (Sys.Step .fcfs) NoWrap (Sys.boot 1) .tau firstScan :=
    ⟨⟨0, .go, rfl⟩, Nat.le_refl _⟩
  have hs := (served_in_order.2 firstScan [.tau] (.single hstep) rfl).1
  exact ⟨hs, (served_in_order.1 .fcfs firstScan firstScan [] (.inl rfl) hs ⟨0, rfl⟩ (.refl _) nofun).1⟩

end

end Xv6.Sched
