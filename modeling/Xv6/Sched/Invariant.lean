import Xv6.Sched.Effect

/-!
# The dispatching invariant

Who holds which lock, which thread each hart is running and what that says about
the process states.  `Inv` holds in every reachable state, for every policy and
any number of harts.
-/

namespace Xv6.Sched

open Instr

variable {n : Nat}

variable {pol : Policy} {s s' : Sys n} {h k : Fin n} {e : Event n} {lk : Lock} {j i : Slot}
  {t : Thread n} {rest c' : Code} {st : Procstate}

namespace Sys

/-! ## What a step does -/

inductive StepOf (pol : Policy) (s : Sys n) (h : Fin n) : Event n → Sys n → Prop
  | acquire {lk : Lock} {rest : Code} (hcode : s.running h = .acquire lk :: rest)
      (hfree : s.owner lk = none) :
      StepOf pol s h (.acquired (s.cur h) lk)
        { s with
          owner := Function.update s.owner lk (some h)
          noff := Function.update s.noff h (s.noff h + 1)
          code := Function.update s.code (s.cur h) rest }
  | release {lk : Lock} {rest : Code} {i : Instr} {e : Event n}
      (hcode : s.running h = i :: rest)
      (hi : i = .release lk ∧ e = .released (s.cur h) lk ∨
        ∃ p chan, i = .releaseSleep p chan lk ∧ e = .slept p chan lk)
      (hown : s.owner lk = some h) :
      StepOf pol s h e
        { s with
          owner := Function.update s.owner lk none
          noff := Function.update s.noff h (s.noff h - 1)
          code := Function.update s.code (s.cur h) rest }
  | sched {p : Slot} {rest : Code} (hcode : s.running h = .sched p :: rest)
      (hstate : (s.d.proc p).state ≠ .running) :
      StepOf pol s h .tau
        { s with
          cur := Function.update s.cur h (.scheduler h)
          code := Function.update s.code (s.cur h) rest }
  | swtch {i : Slot} {rest : Code} (hcode : s.running h = .swtch i :: rest) :
      StepOf pol s h .tau
        { s with
          cur := Function.update s.cur h (.kernel i)
          code := Function.update s.code (s.cur h) rest }
  | forkret {i : Slot} {rest : Code} (hcode : s.running h = .forkret i :: rest) :
      StepOf pol s h .tau
        { s with
          code := Function.update (Function.update s.code (s.cur h) rest) (.kernel i)
            [.release (.proc i), .user] }
  | exec {c : Choice} {i : Instr} {rest exp : Code} {d' : Data n} {e : Event n}
      (hcode : s.running h = i :: rest)
      (hx : exec pol s.d h (s.cur h) c i = some (d', exp, e)) :
      StepOf pol s h e
        { s with d := d', code := Function.update s.code (s.cur h) (exp ++ rest) }
  | interrupt {k : Interrupt} (hnoff : s.noff h = 0) (hiret : iret ∉ s.running h) :
      StepOf pol s h .tau
        { s with
          code := Function.update s.code (s.cur h)
            (trap pol h k ((s.running h).head? = some .user) ++ s.running h) }

theorem fetch_stepOf {c : Choice} (hs : s.fetch pol h c = some (s', e)) : s.StepOf pol h e s' := by
  unfold fetch at hs
  split at hs
  case h_1 => cases hs
  case h_2 lk rest hc =>
    unfold Sys.acquire at hs
    split at hs <;> cases hs
    next hfree => exact .acquire hc hfree
  case h_3 lk rest hc =>
    unfold Sys.release at hs
    split at hs <;> cases hs
    next hown => exact .release hc (.inl ⟨rfl, rfl⟩) hown
  case h_4 p chan lk rest hc =>
    unfold Sys.release at hs
    split at hs <;> cases hs
    next hown => exact .release hc (.inr ⟨p, chan, rfl, rfl⟩) hown
  case h_5 p rest hc =>
    split at hs <;> cases hs
    next hg => exact .sched hc hg.2.2
  case h_6 i rest hc =>
    cases hs
    exact .swtch hc
  case h_7 i rest hc =>
    cases hs
    exact .forkret hc
  case h_8 | h_9 => cases hs
  case h_10 i rest _ _ _ _ _ _ _ _ hc =>
    simp only [Option.bind_eq_bind, Option.bind_eq_some_iff] at hs
    obtain ⟨⟨d', exp, e'⟩, hx, ⟨⟩⟩ := hs
    exact .exec hc hx

/-- A step of the machine is a step of some hart, of one of these kinds. -/
theorem Step.stepOf (hs : s.Step pol e s') : ∃ h, s.StepOf pol h e s' := by
  obtain ⟨h, c, hs⟩ := hs
  refine ⟨h, ?_⟩
  unfold step at hs
  split at hs
  · split at hs <;> cases hs
    next hg => exact .interrupt hg.1 hg.2
  · exact fetch_stepOf hs

/-! ## The invariant -/

def Resumable (st : Procstate) : Prop := st = .runnable ∨ st = .sleeping ∨ st = .running

def Parking (st : Procstate) : Prop := st = .runnable ∨ st = .sleeping ∨ st = .zombie

structure Inv (s : Sys n) : Prop where
  own : ∀ lk h, s.owner lk = some h ↔ lk ∈ held (s.running h)
  noff : ∀ h, s.noff h = (held (s.running h)).card
  wf : ∀ t, WF t (s.code t)
  curSched : ∀ h k, s.cur h = .scheduler k → k = h
  cpu : ∀ h, CpuOk s.d h (s.cur h) (s.running h)
  /-- The scheduler that dispatched `p` waits in `swtch`. -/
  back : ∀ h p, s.cur h = .kernel p →
    held (s.code (.scheduler h)) = {.proc p} ∧ dispatching (s.code (.scheduler h)) = some p ∧
      switching (s.code (.scheduler h)) = false
  /-- A process that no hart is running waits in `sched` or `forkret`. -/
  susp : ∀ i, (∀ h, s.cur h ≠ .kernel i) → Quiet (s.code (.kernel i)) ∧
    (Resumable (s.d.proc i).state → held (s.code (.kernel i)) = {.proc i})
  run : ∀ h p, s.cur h = .kernel p →
    if parked (s.running h) then Parking (s.d.proc p).state else (s.d.proc p).state = .running
  disp : ∀ h k i, s.cur h = .scheduler k → dispatching (s.running h) = some i →
    ((s.d.proc i).state = .running ↔ switching (s.running h) = true)
  uniq : ∀ h k i, s.d.cpuProc h = some i → s.d.cpuProc k = some i → h = k
  runCpu : ∀ i, (s.d.proc i).state = .running → ∃ h, s.d.cpuProc h = some i
  wake : ∀ h i, waking (s.running h) = some i → (s.d.proc i).state = .sleeping
  /-- A slot that `fork` is filling in is `USED`, or still `UNUSED` and locked. -/
  claim : ∀ t i, Claims (s.code t) i → (s.d.proc i).state = .used ∨
    (s.d.proc i).state = .unused ∧ allocating (s.code t) = some i
  claimUniq : ∀ t t' i, Claims (s.code t) i → Claims (s.code t') i → t = t'
  fresh : ∀ h i, allocating (s.running h) = some i → (s.d.proc i).state = .unused
  spawned : ∀ t i, forkRunnable i ∈ s.code t → forkret i ∉ s.code t →
    s.code (.kernel i) = [.release (.proc i), .user]

namespace Inv

variable {s : Sys n}

theorem cur_inj (hI : Inv s) (hcur : s.cur h = s.cur k) : h = k := by
  cases hh : s.cur h with
  | scheduler m => exact (hI.curSched h m hh).symm.trans (hI.curSched k m (hcur ▸ hh))
  | kernel p =>
    have hk : s.cur k = .kernel p := hcur ▸ hh
    have h₁ := hI.cpu h
    have h₂ := hI.cpu k
    rw [hh] at h₁
    rw [hk] at h₂
    exact hI.uniq h k p h₁ h₂

theorem exclusive (hI : Inv s) (hh : lk ∈ held (s.running h))
    (hk : lk ∈ held (s.running k)) : h = k := by
  rw [← hI.own] at hh hk
  exact Option.some.inj (hh.symm.trans hk)

theorem pinned_held (hI : Inv s)
    (hp : Pinned (s.cur h) (s.running h) j) : .proc j ∈ held (s.running h) :=
  hp.mem_held (hI.wf _)

theorem cur_ne_of_state (hI : Inv s)
    (hst : (s.d.proc i).state = .used ∨ (s.d.proc i).state = .unused) :
    s.cur h ≠ .kernel i := by
  intro hcur
  have hrun := hI.run h i hcur
  split at hrun
  · rcases hrun with hr | hr | hr <;> simp [hr] at hst
  · simp [hrun] at hst

theorem not_claims_cur (hI : Inv s) (hc : Claims (s.code t) i) : s.cur h ≠ .kernel i :=
  hI.cur_ne_of_state ((hI.claim t i hc).imp id And.left)

/-- A thread that is filling in a slot it has not yet marked is running. -/
theorem allocating_cur (hI : Inv s) (ha : allocating (s.code t) = some i) : ∃ h, s.cur h = t := by
  by_contra hne
  push Not at hne
  cases t with
  | scheduler k =>
    cases hk : s.cur k with
    | scheduler m => exact hne k (by rw [hk, hI.curSched k m hk])
    | kernel p =>
      have := (settled_of_dispatching (hI.back k p hk).2.1).2.2.1
      simp [ha] at this
  | kernel p =>
    have := (hI.susp p hne).1
    simp [Quiet, Still, Settled, ha] at this

end Inv

/-! ## Steps that keep the current threads -/

/-- Hart `h` goes on to the code `c'` of its thread and possibly moves the state
of slots whose lock it holds. -/
structure Acts (s s' : Sys n) (h : Fin n) (c' : Code) : Prop where
  cur : s'.cur = s.cur
  code : s'.code = Function.update s.code (s.cur h) c'
  own : ∀ lk k, s'.owner lk = some k ↔ lk ∈ held (if k = h then c' else s.running k)
  noff : ∀ k, s'.noff k = (held (if k = h then c' else s.running k)).card
  wf : WF (s.cur h) c'
  moved : ∀ j, (s'.d.proc j).state ≠ (s.d.proc j).state → .proc j ∈ held (s.running h) ∧
    ((s.d.proc j).state = .running → s.cur h = .kernel j) ∧
    (Resumable (s'.d.proc j).state → (∀ k, s.cur k ≠ .kernel j) →
      held (s.code (.kernel j)) = {.proc j}) ∧
    ((s.d.proc j).state = .used ∨ (s.d.proc j).state = .unused → Claims (s.running h) j)
  cpu : CpuOk s'.d h (s.cur h) c'
  cpuOther : ∀ k, k ≠ h → s'.d.cpuProc k = s.d.cpuProc k
  run : ∀ p, s.cur h = .kernel p →
    if parked c' then Parking (s'.d.proc p).state else (s'.d.proc p).state = .running
  disp : ∀ k i, s.cur h = .scheduler k → dispatching c' = some i →
    ((s'.d.proc i).state = .running ↔ switching c' = true)
  uniq : ∀ k i, s'.d.cpuProc h = some i → s'.d.cpuProc k = some i → h = k
  runCpu : ∀ i, (s'.d.proc i).state = .running → ∃ k, s'.d.cpuProc k = some i
  wake : ∀ i, waking c' = some i → (s'.d.proc i).state = .sleeping
  claim : ∀ i, Claims c' i → (s'.d.proc i).state = .used ∨
    (s'.d.proc i).state = .unused ∧ allocating c' = some i
  claimNew : ∀ i, Claims c' i → Claims (s.running h) i ∨
    (s.d.proc i).state = .unused ∧ .proc i ∈ held (s.running h)
  fresh : ∀ i, allocating c' = some i → (s'.d.proc i).state = .unused
  spawned : ∀ i, forkRunnable i ∈ c' → forkret i ∉ c' →
    forkRunnable i ∈ s.running h ∧ forkret i ∉ s.running h ∨
      s.code (.kernel i) = [.release (.proc i), .user]

namespace Acts

variable {s s' : Sys n} {h : Fin n} {c' : Code}

theorem running (ha : Acts s s' h c') (hI : Inv s) (k : Fin n) :
    s'.running k = if k = h then c' else s.running k := by
  unfold Sys.running
  rw [ha.cur, ha.code, Function.update_apply]
  by_cases hk : k = h
  · rw [hk, if_pos rfl, if_pos rfl]
  · rw [if_neg hk, if_neg fun hc => hk (hI.cur_inj hc)]

theorem code_other (ha : Acts s s' h c') (ht : t ≠ s.cur h) : s'.code t = s.code t := by
  rw [ha.code, Function.update_of_ne ht]

theorem code_self (ha : Acts s s' h c') : s'.code (s.cur h) = c' := by
  rw [ha.code, Function.update_self]

theorem still (ha : Acts s s' h c') (hI : Inv s) (hk : k ≠ h)
    (hj : .proc j ∈ held (s.running k)) : (s'.d.proc j).state = (s.d.proc j).state := by
  by_contra hne
  exact hk (hI.exclusive hj (ha.moved j hne).1)

theorem inv (ha : Acts s s' h c') (hI : Inv s) : Inv s' where
  own lk k := by rw [ha.running hI]; exact ha.own lk k
  noff k := by rw [ha.running hI]; exact ha.noff k
  wf t := by
    by_cases ht : t = s.cur h
    · rw [ht, ha.code_self]
      exact ha.wf
    · rw [ha.code_other ht]
      exact hI.wf t
  curSched k m hk := hI.curSched k m (ha.cur ▸ hk)
  cpu k := by
    rw [ha.running hI, ha.cur]
    by_cases hk : k = h
    · rw [hk, if_pos rfl]
      exact ha.cpu
    · rw [if_neg hk]
      have := hI.cpu k
      unfold CpuOk at this ⊢
      rw [ha.cpuOther k hk]
      exact this
  back k p hk := by
    rw [ha.cur] at hk
    have hne : Thread.scheduler k ≠ s.cur h := by
      intro hc
      obtain rfl := hI.curSched h k hc.symm
      simp [hk] at hc
    rw [ha.code_other hne]
    exact hI.back k p hk
  susp i hi := by
    rw [ha.cur] at hi
    rw [ha.code_other (hi h).symm]
    refine ⟨(hI.susp i hi).1, fun hr => ?_⟩
    by_cases hst : (s'.d.proc i).state = (s.d.proc i).state
    · exact (hI.susp i hi).2 (hst ▸ hr)
    · exact (ha.moved i hst).2.2.1 hr hi
  run k p hk := by
    rw [ha.cur] at hk
    rw [ha.running hI]
    by_cases hkh : k = h
    · rw [hkh, if_pos rfl]
      exact ha.run p (hkh ▸ hk)
    · rw [if_neg hkh]
      have hrun := hI.run k p hk
      have hst : (s'.d.proc p).state = (s.d.proc p).state := by
        by_contra hne
        split at hrun
        · next hpk =>
          exact hne (ha.still hI hkh (hI.pinned_held (.inr (.inr (.inr ⟨hk, hpk⟩)))))
        · exact hkh (hI.cur_inj (hk.trans ((ha.moved p hne).2.1 hrun).symm))
      rwa [hst]
  disp k m i hk hd := by
    rw [ha.cur] at hk
    rw [ha.running hI] at hd ⊢
    by_cases hkh : k = h
    · rw [hkh, if_pos rfl] at hd ⊢
      exact ha.disp m i (hkh ▸ hk) hd
    · rw [if_neg hkh] at hd ⊢
      rw [ha.still hI hkh (hI.pinned_held (.inl hd))]
      exact hI.disp k m i hk hd
  uniq k m i hk hm := by
    by_cases hkh : k = h
    · subst hkh
      exact ha.uniq m i hk hm
    by_cases hmh : m = h
    · subst hmh
      exact (ha.uniq k i hm hk).symm
    rw [ha.cpuOther k hkh] at hk
    rw [ha.cpuOther m hmh] at hm
    exact hI.uniq k m i hk hm
  runCpu := ha.runCpu
  wake k i hw := by
    rw [ha.running hI] at hw
    by_cases hkh : k = h
    · rw [hkh, if_pos rfl] at hw
      exact ha.wake i hw
    · rw [if_neg hkh] at hw
      rw [ha.still hI hkh (hI.pinned_held (.inr (.inl hw)))]
      exact hI.wake k i hw
  fresh k i hw := by
    rw [ha.running hI] at hw
    by_cases hkh : k = h
    · rw [hkh, if_pos rfl] at hw
      exact ha.fresh i hw
    · rw [if_neg hkh] at hw
      rw [ha.still hI hkh (hI.pinned_held (.inr (.inr (.inl hw))))]
      exact hI.fresh k i hw
  claim t i hc := by
    by_cases ht : t = s.cur h
    · subst ht
      rw [ha.code_self] at hc ⊢
      exact ha.claim i hc
    · rw [ha.code_other ht] at hc ⊢
      have hst := hI.claim t i hc
      have hsame : (s'.d.proc i).state = (s.d.proc i).state := by
        by_contra hne
        have := (ha.moved i hne).2.2.2 (hst.imp id And.left)
        exact ht (hI.claimUniq _ _ i hc this)
      rwa [hsame]
  claimUniq := by
    have key : ∀ t i, t ≠ s.cur h → Claims (s.code t) i → ¬Claims c' i := by
      intro t i ht hc hc'
      rcases ha.claimNew i hc' with hold | ⟨hun, hlk⟩
      · exact ht (hI.claimUniq _ _ i hc hold)
      · have hal : allocating (s.code t) = some i := by
          have := hI.claim t i hc
          simp_all
        obtain ⟨k, rfl⟩ := hI.allocating_cur hal
        have := hI.exclusive (hI.pinned_held (.inr (.inr (.inl hal)))) hlk
        exact ht (by rw [this])
    intro t t' i hc hc'
    by_cases ht : t = s.cur h <;> by_cases ht' : t' = s.cur h
    · rw [ht, ht']
    · rw [ht, ha.code_self] at hc
      rw [ha.code_other ht'] at hc'
      exact absurd hc (key t' i ht' hc')
    · rw [ht', ha.code_self] at hc'
      rw [ha.code_other ht] at hc
      exact absurd hc' (key t i ht hc)
    · rw [ha.code_other ht] at hc
      rw [ha.code_other ht'] at hc'
      exact hI.claimUniq t t' i hc hc'
  spawned t i hf hr := by
    by_cases ht : t = s.cur h
    · rw [ht, ha.code_self] at hf hr
      have hst : (s.d.proc i).state = .used ∨ (s.d.proc i).state = .unused := by
        rcases ha.claimNew i ⟨_, hf, rfl⟩ with hc | ⟨hu, -⟩
        · exact (hI.claim _ i hc).imp id And.left
        · exact .inr hu
      rw [ha.code_other (hI.cur_ne_of_state hst).symm]
      rcases ha.spawned i hf hr with ⟨hf', hr'⟩ | hcode
      · exact hI.spawned _ i hf' hr'
      · exact hcode
    · rw [ha.code_other ht] at hf hr
      rw [ha.code_other (hI.not_claims_cur (h := h) (t := t) ⟨_, hf, rfl⟩).symm]
      exact hI.spawned t i hf hr

end Acts

structure Goes (s s' : Sys n) (h : Fin n) (c' : Code) : Prop where
  cur : s'.cur = s.cur
  code : s'.code = Function.update s.code (s.cur h) c'
  own : ∀ lk k, s'.owner lk = some k ↔ lk ∈ held (if k = h then c' else s.running k)
  noff : ∀ k, s'.noff k = (held (if k = h then c' else s.running k)).card
  wf : WF (s.cur h) c'
  spawned : ∀ i, forkRunnable i ∈ c' → forkret i ∉ c' →
    forkRunnable i ∈ s.running h ∧ forkret i ∉ s.running h ∨
      s.code (.kernel i) = [.release (.proc i), .user]

/-! ## Acting without moving a state -/

section

variable {s : Sys n} {h : Fin n} {c' : Code}

/-- Locks of the acting hart after it has executed something that is no lock
operation. -/
theorem Inv.locks_same (hI : Inv s) (hheld : held c' = held (s.running h)) :
    (∀ lk k, s.owner lk = some k ↔ lk ∈ held (if k = h then c' else s.running k)) ∧
      ∀ k, s.noff k = (held (if k = h then c' else s.running k)).card := by
  constructor
  · intro lk k
    by_cases hk : k = h
    · rw [if_pos hk, hheld, ← hk, hI.own]
    · rw [if_neg hk, hI.own]
  · intro k
    by_cases hk : k = h
    · rw [if_pos hk, hheld, ← hk, hI.noff]
    · rw [if_neg hk, hI.noff]

theorem Inv.acts_of_still (hI : Inv s) (hg : Goes s s' h c') (hd : Unmoved s.d s'.d)
    (hparked : parked c' = parked (s.running h))
    (hdisp : dispatching c' = dispatching (s.running h))
    (hswitch : switching c' = switching (s.running h))
    (hwake : ∀ i, waking c' = some i → (s.d.proc i).state = .sleeping)
    (hclaim : ∀ i, Claims c' i → (s.d.proc i).state = .used ∨
      (s.d.proc i).state = .unused ∧ allocating c' = some i)
    (hclaimNew : ∀ i, Claims c' i → Claims (s.running h) i ∨
      (s.d.proc i).state = .unused ∧ .proc i ∈ held (s.running h))
    (hfresh : ∀ i, allocating c' = some i → (s.d.proc i).state = .unused) :
    Acts s s' h c' := by
  obtain ⟨hst, hcpu⟩ := hd
  exact {
    hg with
    moved := fun j hj => absurd (hst j) hj
    cpu := by
      have := hI.cpu h
      unfold CpuOk at this ⊢
      rwa [hcpu, hdisp]
    cpuOther := fun k _ => by rw [hcpu]
    run := fun p hp => by
      rw [hparked, hst]
      exact hI.run h p hp
    disp := fun k i hk hi => by
      rw [hswitch, hst]
      exact hI.disp h k i hk (hdisp ▸ hi)
    uniq := by
      rw [hcpu]
      exact hI.uniq h
    runCpu := fun i hi => by
      rw [hcpu]
      exact hI.runCpu i (hst i ▸ hi)
    wake := fun i hi => by
      rw [hst]
      exact hwake i hi
    claim := fun i hi => by
      rw [hst]
      exact hclaim i hi
    claimNew := hclaimNew
    fresh := fun i hi => by
      rw [hst]
      exact hfresh i hi }

/-- A step that moves no state and keeps the position of the thread. -/
theorem Inv.acts_of_pos (hI : Inv s) (hg : Goes s s' h c') (hd : Unmoved s.d s'.d)
    (hpos : { pos c' with filling := none } = { pos (s.running h) with filling := none })
    (hclaim : ∀ i, Claims c' i → Claims (s.running h) i) : Acts s s' h c' := by
  simp only [pos, Pos.mk.injEq, and_true] at hpos
  obtain ⟨hp₁, hp₂, hp₃, hp₄, hp₅⟩ := hpos
  refine hI.acts_of_still hg hd hp₁ hp₂ hp₃ ?_ ?_ (fun i hi => .inl (hclaim i hi)) ?_
  · intro i hi
    exact hI.wake h i (hp₄ ▸ hi)
  · intro i hi
    rw [hp₅]
    exact hI.claim _ i (hclaim i hi)
  · intro i hi
    exact hI.fresh h i (hp₅ ▸ hi)

theorem Inv.acquire (hI : Inv s) (hcode : s.running h = .acquire lk :: rest)
    (hfree : s.owner lk = none) :
    Inv { s with
      owner := Function.update s.owner lk (some h)
      noff := Function.update s.noff h (s.noff h + 1)
      code := Function.update s.code (s.cur h) rest } := by
  have hwf : WF (s.cur h) (.acquire lk :: rest) := hcode ▸ hI.wf (s.cur h)
  have hmem : lk ∈ held rest := hwf.1.1
  have hrest : held rest = insert lk (held (s.running h)) := by
    rw [hcode, held, Finset.insert_erase hmem]
  have hnot : ∀ k, lk ∉ held (s.running k) := by
    intro k hk
    rw [← hI.own, hfree] at hk
    simp at hk
  refine Acts.inv (hI.acts_of_pos (h := h) ⟨rfl, rfl, ?_, ?_, hwf.2, ?_⟩ (Unmoved.refl _) ?_ ?_) hI
  · intro lk' k
    simp only [Function.update_apply]
    by_cases hk : k = h
    · subst hk
      rw [if_pos rfl, hrest, Finset.mem_insert, ← hI.own]
      split <;> simp_all
    · rw [if_neg hk, ← hI.own]
      split
      · next hlk =>
        subst hlk
        simp [Ne.symm hk, hfree]
      · rfl
  · intro k
    simp only [Function.update_apply]
    by_cases hk : k = h
    · subst hk
      rw [if_pos rfl, if_pos rfl, hrest, Finset.card_insert_of_notMem (hnot k), hI.noff]
    · rw [if_neg hk, if_neg hk, hI.noff]
  · rw [hcode]
    simp +contextual
  · rw [hcode]
    rfl
  · rw [hcode]
    rintro i ⟨x, hx, hi⟩
    exact ⟨x, List.mem_cons_of_mem _ hx, hi⟩

theorem Inv.release (hI : Inv s) {i : Instr} (hcode : s.running h = i :: rest)
    (hi : i = .release lk ∨ ∃ p chan, i = .releaseSleep p chan lk) :
    Inv { s with
      owner := Function.update s.owner lk none
      noff := Function.update s.noff h (s.noff h - 1)
      code := Function.update s.code (s.cur h) rest } := by
  have hwf : WF (s.cur h) (i :: rest) := hcode ▸ hI.wf (s.cur h)
  have hnot : lk ∉ held rest := by
    rcases hi with rfl | ⟨p, chan, rfl⟩
    · exact hwf.1.1
    · have := hwf.1.2.2.1
      rw [hwf.1.2.1, Finset.mem_singleton]
      rintro rfl
      simp at this
  have hrest : held (s.running h) = insert lk (held rest) := by
    rcases hi with rfl | ⟨p, chan, rfl⟩ <;> rw [hcode] <;> rfl
  have hother : ∀ k, k ≠ h → lk ∉ held (s.running k) := by
    intro k hk hmem
    exact hk (hI.exclusive hmem (by simp [hrest]))
  refine Acts.inv (hI.acts_of_pos (h := h) ⟨rfl, rfl, ?_, ?_, hwf.2, ?_⟩ (Unmoved.refl _) ?_ ?_) hI
  · intro lk' k
    simp only [Function.update_apply]
    by_cases hk : k = h
    · subst hk
      have := hI.own lk' k
      rw [hrest, Finset.mem_insert] at this
      rw [if_pos rfl]
      split <;> simp_all
    · rw [if_neg hk, ← hI.own]
      split
      · next hlk =>
        subst hlk
        have := hother k hk
        rw [← hI.own] at this
        simp [this]
      · rfl
  · intro k
    simp only [Function.update_apply]
    by_cases hk : k = h
    · subst hk
      rw [if_pos rfl, if_pos rfl, hI.noff, hrest, Finset.card_insert_of_notMem hnot]
      rfl
    · rw [if_neg hk, if_neg hk, hI.noff]
  · rw [hcode]
    rcases hi with rfl | ⟨p, chan, rfl⟩ <;> simp +contextual
  · rw [hcode]
    rcases hi with rfl | ⟨p, chan, rfl⟩
    · rfl
    · obtain ⟨c', rfl⟩ := hwf.1.2.2.2
      rfl
  · rw [hcode]
    rintro i ⟨x, hx, hi⟩
    exact ⟨x, List.mem_cons_of_mem _ hx, hi⟩

theorem Inv.idle_of_noff (hI : Inv s) (hnoff : s.noff h = 0) : Idle (s.running h) := by
  have hheld : held (s.running h) = ∅ := by
    rw [← Finset.card_eq_zero, ← hI.noff, hnoff]
  exact ⟨(hI.wf (s.cur h)).quiet_of_held hheld, hheld⟩

/-- The handler of an interrupt finds the thread idle and leaves it idle. -/
theorem Inv.trap_wf (hI : Inv s) (pol : Policy) (k : Interrupt) (hnoff : s.noff h = 0) :
    WF (s.cur h) (trap pol h k ((s.running h).head? = some .user) ++ s.running h) ∧
      Idle (trap pol h k ((s.running h).head? = some .user) ++ s.running h) := by
  have hwf : WF (s.cur h) (s.running h) := hI.wf _
  refine wf_trap pol h k _ hwf (hI.idle_of_noff hnoff) fun hu => ?_
  cases hc : s.running h with
  | nil => simp [hc] at hu
  | cons i c =>
    obtain rfl : i = .user := by simpa [hc] using hu
    rw [hc] at hwf
    obtain ⟨hk, rfl⟩ := hwf.1
    exact ⟨hk, by simp [NoWait]⟩

theorem Inv.interrupt (hI : Inv s) (pol : Policy) (k : Interrupt) (hnoff : s.noff h = 0) :
    Inv { s with
      code := Function.update s.code (s.cur h)
        (trap pol h k ((s.running h).head? = some .user) ++ s.running h) } := by
  have hidle := hI.idle_of_noff hnoff
  obtain ⟨hwf', hidle'⟩ := hI.trap_wf pol k hnoff
  obtain ⟨hown, hnoff'⟩ := hI.locks_same (h := h) (hidle'.2.trans hidle.2.symm)
  have hclaims := claims_trap pol h k ((s.running h).head? = some .user)
  have hnew : ∀ x ∈ trap pol h k ((s.running h).head? = some .user), x.claim = none := by
    simpa using hclaims
  refine Acts.inv (hI.acts_of_pos (h := h) ⟨rfl, rfl, hown, hnoff', hwf', ?_⟩ (Unmoved.refl _)
    (by rw [pos_of_still hidle'.1.1 hidle.1.1]) ?_) hI
  · intro i hf hr
    simp only [List.mem_append, not_or] at hf hr
    refine .inl ⟨hf.resolve_left fun hf => ?_, hr.2⟩
    have := hnew _ hf
    simp [Instr.claim] at this
  · rintro i ⟨x, hx, hi⟩
    rcases List.mem_append.1 hx with hx | hx
    · simp [hnew x hx] at hi
    · exact ⟨x, hx, hi⟩

end

/-! ## Executing an instruction -/

section

variable {s : Sys n} {h : Fin n}

/-- A thread that is neither parked nor dispatching moves a slot which is not
running. -/
theorem Inv.acts_of_move (hI : Inv s) (hg : Goes s s' h c') (hm : Moved s.d s'.d j st)
    (hlk : .proc j ∈ held (s.running h)) (hold : (s.d.proc j).state ≠ .running)
    (hnew : st ≠ .running) (hsusp : Resumable st → (∀ k, s.cur k ≠ .kernel j) →
      held (s.code (.kernel j)) = {.proc j})
    (hclaimed : (s.d.proc j).state = .used ∨ (s.d.proc j).state = .unused →
      Claims (s.running h) j) (hq : parked (s.running h) = false ∧ dispatching (s.running h) = none)
    (hq' : parked c' = false ∧ dispatching c' = none) (hwake : waking c' = none)
    (hclaimNew : ∀ i, Claims c' i → Claims (s.running h) i)
    (hclaim : ∀ i, Claims c' i → (s'.d.proc i).state = .used ∨
      (s'.d.proc i).state = .unused ∧ allocating c' = some i)
    (hfresh : ∀ i, allocating c' = some i → (s'.d.proc i).state = .unused) :
    Acts s s' h c' := by
  obtain ⟨hst, hcpu⟩ := hm
  have hother : ∀ i, i ≠ j → (s'.d.proc i).state = (s.d.proc i).state := by
    intro i hi
    rw [hst, if_neg hi]
  exact {
    hg with
    moved := by
      intro i hi
      obtain rfl : i = j := by
        by_contra hne
        exact hi (hother i hne)
      refine ⟨hlk, fun hr => absurd hr hold, ?_, hclaimed⟩
      rw [hst, if_pos rfl]
      exact hsusp
    cpu := by
      have := hI.cpu h
      unfold CpuOk at this ⊢
      rwa [hcpu, hq'.2, ← hq.2]
    cpuOther := fun k _ => by rw [hcpu]
    run := by
      intro p hp
      have := hI.run h p hp
      rw [if_neg (by simp [hq.1])] at this
      rw [if_neg (by simp [hq'.1]), hother p (by rintro rfl; exact hold this), this]
    disp := by
      intro k i hk hi
      simp [hq'.2] at hi
    uniq := by
      rw [hcpu]
      exact hI.uniq h
    runCpu := by
      intro i hi
      rw [hst] at hi
      rw [hcpu]
      split at hi
      · exact absurd hi hnew
      · exact hI.runCpu i hi
    wake := fun i hi => by simp [hwake] at hi
    claim := hclaim
    claimNew := fun i hi => .inl (hclaimNew i hi)
    fresh := hfresh }

theorem Inv.acts_of_move' (hI : Inv s) (hg : Goes s s' h c') {x : Instr}
    (hcode : s.running h = x :: rest) (hm : Moved s.d s'.d j st)
    (hlk : .proc j ∈ held (s.running h)) (hold : (s.d.proc j).state = .sleeping ∧ st = .runnable ∨
      (s.d.proc j).state = .zombie ∧ st = .unused)
    (hq : parked (x :: rest) = false ∧ dispatching (x :: rest) = none)
    (hpos : pos c' = { pos (x :: rest) with waking := none })
    (hclaimNew : ∀ i, Claims c' i → Claims (s.running h) i) :
    Acts s s' h c' := by
  have hold' : (s.d.proc j).state ≠ .running ∧ (s.d.proc j).state ≠ .used ∧
      (s.d.proc j).state ≠ .unused := by
    rcases hold with ⟨hj, -⟩ | ⟨hj, -⟩ <;> simp [hj]
  have hother : ∀ i, i ≠ j → (s'.d.proc i).state = (s.d.proc i).state := by
    intro i hi
    rw [hm.1, if_neg hi]
  rw [← hcode] at hq hpos
  simp only [pos, Pos.mk.injEq] at hpos
  obtain ⟨hp₁, hp₂, -, hp₄, halloc, -⟩ := hpos
  refine hI.acts_of_move hg hm hlk hold'.1 ?_ ?_ ?_ hq ⟨hp₁.trans hq.1, hp₂.trans hq.2⟩ hp₄
    hclaimNew ?_ ?_
  · rcases hold with ⟨-, rfl⟩ | ⟨-, rfl⟩ <;> simp
  · intro hr hcur
    rcases hold with ⟨hj, rfl⟩ | ⟨-, rfl⟩
    · exact (hI.susp j hcur).2 (.inr (.inl hj))
    · simp [Resumable] at hr
  · rintro (hj | hj) <;> simp [hj] at hold'
  · intro i hi
    have := hI.claim _ i (hclaimNew i hi)
    have hne : i ≠ j := by
      rintro rfl
      rcases this with hj | ⟨hj, -⟩ <;> simp [hj] at hold'
    rw [hother i hne, halloc]
    exact this
  · intro i hi
    rw [halloc] at hi
    have := hI.fresh h i hi
    have hne : i ≠ j := by
      rintro rfl
      simp [this] at hold'
    rw [hother i hne, this]

end

section

variable {pol : Policy} {s : Sys n} {h : Fin n} {c : Choice} {i : Instr} {rest exp : Code}
  {d' : Data n} {e : Event n}

theorem Inv.ok (hI : Inv s) (hcode : s.running h = i :: rest) : Ok (s.cur h) i rest := by
  have : WF (s.cur h) (s.running h) := hI.wf _
  rw [hcode] at this
  exact this.1

theorem Inv.goes (hI : Inv s) (hcode : s.running h = i :: rest)
    (hx : Sched.exec pol s.d h (s.cur h) c i = some (d', exp, e)) :
    Goes s { s with d := d', code := Function.update s.code (s.cur h) (exp ++ rest) } h
      (exp ++ rest) := by
  have hwf : WF (s.cur h) (i :: rest) := hcode ▸ hI.wf (s.cur h)
  have hrun : ∀ p, s.cur h = .kernel p → parked (i :: rest) = false →
      (s.d.proc p).state = .running := by
    intro p hp hpk
    have := hI.run h p hp
    rwa [hcode, if_neg (by simp [hpk])] at this
  obtain ⟨hwf', hheld⟩ := exec_wf hx hwf.1 hwf.2 (hcode ▸ hI.cpu h) hrun
  obtain ⟨hown, hnoff⟩ := hI.locks_same (h := h) (hheld.trans (by rw [hcode]))
  refine ⟨rfl, rfl, hown, hnoff, hwf', ?_⟩
  intro j hf hr
  rw [List.mem_append] at hf
  rw [List.mem_append, not_or] at hr
  have hf' : forkRunnable j ∈ rest := hf.resolve_left fun hf => hr.1 (exec_forkRunnable hx hf).1
  rw [hcode]
  refine .inl ⟨List.mem_cons_of_mem _ hf', ?_⟩
  rw [List.mem_cons, not_or]
  refine ⟨?_, hr.2⟩
  rintro rfl
  simp [Sched.exec] at hx

theorem claims_of_exec (hx : exec pol s.d h (s.cur h) c i = some (d', exp, e))
    (hne : ∀ p j, i = allocCheck p j → (s.d.proc j).state ≠ .unused)
    (hj : Claims (exp ++ rest) j) : Claims (i :: rest) j := by
  rw [claims_iff, List.filterMap_append, List.mem_append] at hj
  rcases hj with hj | hj
  · rcases exec_claims hx hj with hi | ⟨p, rfl, hst⟩
    · exact ⟨i, List.mem_cons_self, hi⟩
    · exact absurd hst (hne p j rfl)
  · obtain ⟨x, hx, hxj⟩ := claims_iff.2 hj
    exact ⟨x, List.mem_cons_of_mem _ hx, hxj⟩

theorem Inv.acts_dispatch (hI : Inv s) (hg : Goes s s' h c')
    (hcode : s.running h = tryRun j :: rest) (hj : (s.d.proc j).state = .runnable)
    (hst : ∀ k, (s'.d.proc k).state = if k = j then .running else (s.d.proc k).state)
    (hcpu : s'.d.cpuProc = Function.update s.d.cpuProc h (some j))
    (hpos : pos c' = { pos (tryRun j :: rest) with dispatching := some j, switching := true })
    (hclaims : ∀ j, Claims c' j → Claims (s.running h) j) :
    Acts s s' h c' := by
  obtain ⟨⟨k, hk⟩, hheld, -⟩ := hI.ok hcode
  have hlk : .proc j ∈ held (s.running h) := by
    rw [hcode]
    exact held_subset_cons (by simp) (by simp [hheld])
  have hnone : s.d.cpuProc h = none := by
    have := hI.cpu h
    rwa [hk, hcode] at this
  have hfree : ∀ m, s.d.cpuProc m ≠ some j := by
    intro m hm
    have hpin : Pinned (s.cur m) (s.running m) j := by
      have hcm := hI.cpu m
      cases hc : s.cur m with
      | scheduler q =>
        rw [hc] at hcm
        exact .inl (hcm.symm.trans hm)
      | kernel q =>
        rw [hc] at hcm
        obtain rfl : q = j := Option.some.inj (hcm.symm.trans hm)
        have hr := hI.run m q hc
        have hp : parked (s.running m) = true := by
          by_contra hp
          simp [hp, hj] at hr
        exact .inr (.inr (.inr ⟨rfl, hp⟩))
    obtain rfl := hI.exclusive (hI.pinned_held hpin) hlk
    simp [hnone] at hm
  simp only [pos, Pos.mk.injEq] at hpos
  obtain ⟨hp₁, hp₂, hp₃, hp₄, hp₅, -⟩ := hpos
  have hother : ∀ i, i ≠ j → (s'.d.proc i).state = (s.d.proc i).state := by
    intro i hi
    rw [hst, if_neg hi]
  exact {
    hg with
    moved := by
      intro i hi
      obtain rfl : i = j := by
        by_contra hne
        exact hi (hother i hne)
      refine ⟨hlk, by simp [hj], ?_, by simp [hj]⟩
      intro _ hcur
      exact (hI.susp i hcur).2 (.inl hj)
    cpu := by
      rw [hk]
      simp [CpuOk, hcpu, hp₂]
    cpuOther := fun m hm => by rw [hcpu, Function.update_of_ne hm]
    run := fun p hp => by simp [hk] at hp
    disp := fun m i _ hi => by
      rw [hp₂, Option.some.injEq] at hi
      simp [hst, hi, hp₃]
    uniq := by
      intro m i h₁ h₂
      rw [hcpu, Function.update_self, Option.some.injEq] at h₁
      by_contra hne
      rw [hcpu, Function.update_of_ne (Ne.symm hne)] at h₂
      exact hfree m (h₁ ▸ h₂)
    runCpu := by
      intro i hi
      by_cases hij : i = j
      · exact ⟨h, by rw [hcpu, Function.update_self, hij]⟩
      · rw [hother i hij] at hi
        obtain ⟨m, hm⟩ := hI.runCpu i hi
        have hne : m ≠ h := by
          rintro rfl
          simp [hnone] at hm
        exact ⟨m, by rw [hcpu, Function.update_of_ne hne, hm]⟩
    wake := fun i hi => by simp [hp₄, waking] at hi
    claim := by
      intro i hi
      have := hI.claim _ i (hclaims i hi)
      have hne : i ≠ j := by
        rintro rfl
        simp [hj] at this
      rw [hother i hne, hp₅, ← hcode]
      exact this
    claimNew := fun i hi => .inl (hclaims i hi)
    fresh := fun i hi => by simp [hp₅, allocating] at hi }

theorem Inv.acts_clear (hI : Inv s) (hg : Goes s s' h c')
    (hcode : s.running h = clearProc j :: rest)
    (hst : ∀ k, (s'.d.proc k).state = (s.d.proc k).state)
    (hcpu : s'.d.cpuProc = Function.update s.d.cpuProc h none)
    (hpos : pos c' = { pos (clearProc j :: rest) with dispatching := none })
    (hclaims : ∀ j, Claims c' j → Claims (s.running h) j) :
    Acts s s' h c' := by
  obtain ⟨⟨k, hk⟩, -⟩ := hI.ok hcode
  have hold : s.d.cpuProc h = some j := by
    have := hI.cpu h
    rwa [hk, hcode] at this
  have hnot : (s.d.proc j).state ≠ .running := by
    have := hI.disp h k j hk (by rw [hcode]; rfl)
    intro hr
    rw [this, hcode] at hr
    simp [switching] at hr
  simp only [pos, Pos.mk.injEq] at hpos
  obtain ⟨hp₁, hp₂, hp₃, hp₄, hp₅, -⟩ := hpos
  exact {
    hg with
    moved := fun i hi => absurd (hst i) hi
    cpu := by
      rw [hk]
      simp [CpuOk, hcpu, hp₂]
    cpuOther := fun m hm => by rw [hcpu, Function.update_of_ne hm]
    run := fun p hp => by simp [hk] at hp
    disp := fun m i _ hi => by simp [hp₂] at hi
    uniq := by
      intro m i h₁
      simp [hcpu] at h₁
    runCpu := by
      intro i hi
      rw [hst] at hi
      obtain ⟨m, hm⟩ := hI.runCpu i hi
      have hne : m ≠ h := by
        rintro rfl
        rw [hold, Option.some.injEq] at hm
        exact hnot (hm ▸ hi)
      exact ⟨m, by rw [hcpu, Function.update_of_ne hne, hm]⟩
    wake := fun i hi => by simp [hp₄, waking] at hi
    claim := by
      intro i hi
      rw [hst, hp₅, ← hcode]
      exact hI.claim _ i (hclaims i hi)
    claimNew := fun i hi => .inl (hclaims i hi)
    fresh := fun i hi => by simp [hp₅, allocating] at hi }

theorem Inv.acts_park (hI : Inv s) (hg : Goes s s' h c') {p : Slot} (ht : s.cur h = .kernel p)
    (hst : st = .runnable ∨ st = .sleeping ∨ st = .zombie) (hm : Moved s.d s'.d p st)
    (hlk : .proc p ∈ held (s.running h)) (hq : parked (s.running h) = false)
    (hpos : pos c' = { pos (s.running h) with parked := true })
    (hclaims : ∀ j, Claims c' j → Claims (s.running h) j) :
    Acts s s' h c' := by
  obtain ⟨hmove, hcpu⟩ := hm
  have hrun : (s.d.proc p).state = .running := by
    have := hI.run h p ht
    rwa [if_neg (by simp [hq])] at this
  have hother : ∀ i, i ≠ p → (s'.d.proc i).state = (s.d.proc i).state := by
    intro i hi
    rw [hmove, if_neg hi]
  have hne : ∀ i, (s.d.proc i).state ≠ .running → (s'.d.proc i).state = (s.d.proc i).state := by
    intro i hi
    exact hother i (by rintro rfl; exact hi hrun)
  simp only [pos, Pos.mk.injEq] at hpos
  obtain ⟨hp₁, hp₂, hp₃, hp₄, hp₅, -⟩ := hpos
  exact {
    hg with
    moved := by
      intro i hi
      obtain rfl : i = p := by
        by_contra hne
        exact hi (hother i hne)
      exact ⟨hlk, fun _ => ht, fun _ hcur => absurd ht (hcur h), by simp [hrun]⟩
    cpu := by
      have := hI.cpu h
      rw [ht] at this ⊢
      simpa [CpuOk, hcpu] using this
    cpuOther := fun m _ => by rw [hcpu]
    run := by
      intro q hq
      obtain rfl : p = q := by simpa [ht] using hq
      rw [if_pos hp₁, hmove, if_pos rfl]
      exact hst
    disp := fun m i hm _ => by simp [ht] at hm
    uniq := by
      rw [hcpu]
      exact hI.uniq h
    runCpu := by
      intro i hi
      rw [hcpu]
      refine hI.runCpu i ?_
      by_cases hip : i = p
      · rw [hip]
        exact hrun
      · rwa [hother i hip] at hi
    wake := by
      intro i hi
      have := hI.wake h i (hp₄ ▸ hi)
      rwa [hne i (by simp [this])]
    claim := by
      intro i hi
      have := hI.claim _ i (hclaims i hi)
      rw [hne i (by rcases this with hi | ⟨hi, -⟩ <;> simp [hi]), hp₅]
      exact this
    claimNew := fun i hi => .inl (hclaims i hi)
    fresh := by
      intro i hi
      have := hI.fresh h i (hp₅ ▸ hi)
      rwa [hne i (by simp [this])] }

theorem Inv.exec (hI : Inv s) (hcode : s.running h = i :: rest)
    (hx : Sched.exec pol s.d h (s.cur h) c i = some (d', exp, e)) :
    Inv { s with d := d', code := Function.update s.code (s.cur h) (exp ++ rest) } := by
  have hg := hI.goes hcode hx
  have hok := hI.ok hcode
  have hlk : i.gives ⊆ held (s.running h) := by
    rw [hcode]
    exact gives_subset_held (by rintro lk rfl; simp [Sched.exec] at hx)
  have hrestlk : held rest ⊆ held (s.running h) := by
    rw [hcode]
    exact held_subset_cons (by rintro lk rfl; simp [Sched.exec] at hx)
  have hclaims : (∀ p j, i = allocCheck p j → (s.d.proc j).state ≠ .unused) →
      ∀ j, Claims (exp ++ rest) j → Claims (s.running h) j := by
    intro hne j hj
    rw [hcode]
    exact claims_of_exec hx hne hj
  suffices hact : Acts s _ h (exp ++ rest) from hact.inv hI
  cases exec_effect hx hok
  case plain hm hpos =>
    refine hI.acts_of_pos hg hm (by rw [hpos, hcode]) (hclaims ?_)
    rintro p j rfl hst
    simp only [Sched.exec, hst, Option.some.injEq, Prod.mk.injEq] at hx
    obtain ⟨rfl, rfl, rfl⟩ := hx
    simp [pos, allocFound, allocating] at hpos
  case dated j hi hm hpos | reset j hi hm hpos =>
    exact hI.acts_of_pos hg hm (by rw [hpos, hcode]) (hclaims (by simp [hi]))
  case found j hi hj hd hpos =>
    obtain ⟨chan, rfl⟩ := hi
    subst hd
    rw [← hcode] at hpos
    simp only [pos, Pos.mk.injEq] at hpos
    obtain ⟨hp₁, hp₂, hp₃, hp₄, hp₅, -⟩ := hpos
    refine hI.acts_of_still hg (Unmoved.refl _) hp₁ hp₂ hp₃ ?_ ?_
      (fun m hm => .inl (hclaims (by simp) m hm)) ?_
    · intro m hm
      rw [hp₄, Option.some.injEq] at hm
      exact hm ▸ hj
    · intro m hm
      rw [hp₅]
      exact hI.claim _ m (hclaims (by simp) m hm)
    · intro m hm
      exact hI.fresh h m (hp₅ ▸ hm)
  case claim p j hi hj hd hpos =>
    subst hi hd
    have hnone : ∀ m, ¬Claims rest m := hok.2.2
    have honly : ∀ m, Claims (exp ++ rest) m → m = j := by
      intro m hm
      rw [claims_iff, List.filterMap_append, List.mem_append, ← claims_iff (c := rest)] at hm
      have := exec_claims hx (hm.resolve_right (hnone m))
      simp [Instr.claim] at this
      exact this.1.symm
    rw [← hcode] at hpos
    simp only [pos, Pos.mk.injEq] at hpos
    obtain ⟨hp₁, hp₂, hp₃, hp₄, hp₅, -⟩ := hpos
    refine hI.acts_of_still hg (Unmoved.refl _) hp₁ hp₂ hp₃ ?_ ?_ ?_ ?_
    · intro m hm
      exact hI.wake h m (hp₄ ▸ hm)
    · intro m hm
      obtain rfl := honly m hm
      exact .inr ⟨hj, hp₅⟩
    · intro m hm
      obtain rfl := honly m hm
      exact .inr ⟨hj, hlk (by simp [Instr.gives])⟩
    · intro m hm
      rw [hp₅, Option.some.injEq] at hm
      exact hm ▸ hj
  case dispatch j hi hj hst hcpu hpos =>
    subst hi
    exact hI.acts_dispatch hg hcode hj hst hcpu hpos (hclaims (by simp))
  case clear j hi hst hcpu hpos =>
    subst hi
    exact hI.acts_clear hg hcode hst hcpu hpos (hclaims (by simp))
  case park p st ht hplk hi hz hs hr hst hm hq hpos =>
    exact hI.acts_park hg ht hst hm (hrestlk hplk) (hcode ▸ hq) (hcode ▸ hpos)
      (hclaims fun q j hq => absurd hq (hi q j))
  case wake j hi hm hpos =>
    obtain ⟨chan, rfl⟩ := hi
    have hj := hI.wake h j (by rw [hcode]; rfl)
    exact hI.acts_of_move' hg hcode hm (hrestlk hok.1) (.inl ⟨hj, rfl⟩) ⟨rfl, rfl⟩ hpos
      (hclaims (by simp))
  case kill j hi hj hm hpos =>
    obtain ⟨pid, rfl⟩ := hi
    exact hI.acts_of_move' hg hcode hm (hlk (by simp [Instr.gives])) (.inl ⟨hj, rfl⟩) ⟨rfl, rfl⟩
      hpos (hclaims (by simp))
  case used j hi hm hpos =>
    obtain ⟨pid, rfl⟩ := hi
    simp only [pos, Pos.mk.injEq] at hpos
    obtain ⟨hp₁, hp₂, hp₃, hp₄, hp₅, -⟩ := hpos
    have hal : allocating (s.running h) = some j := by
      rw [hcode]
      rfl
    have hj := hI.fresh h j hal
    refine hI.acts_of_move hg hm (hrestlk hok.1) (by simp [hj]) (by simp) (by simp [Resumable])
      (fun _ => hcode ▸ ⟨_, List.mem_cons_self, rfl⟩) (by rw [hcode]; exact ⟨rfl, rfl⟩)
      ⟨hp₁, hp₂⟩ hp₄ (hclaims (by simp)) ?_ (by simp [hp₅])
    intro m hm'
    rw [hm.1]
    split
    · exact .inl rfl
    · next hne =>
      rcases hI.claim _ m (hclaims (by simp) m hm') with hu | ⟨-, hu⟩
      · exact .inl hu
      · exact absurd (Option.some.inj (hu.symm.trans hal)) hne
  case unclaim j hi hm hpos hclaim =>
    obtain ⟨p, rfl⟩ := hi
    simp only [pos, Pos.mk.injEq] at hpos
    obtain ⟨hp₁, hp₂, hp₃, hp₄, hp₅, -⟩ := hpos
    have hcj : Claims (s.running h) j := hcode ▸ ⟨_, List.mem_cons_self, rfl⟩
    have hj : (s.d.proc j).state ≠ .running := by
      rcases hI.claim _ j hcj with hj | ⟨hj, -⟩ <;> simp [hj]
    exact hI.acts_of_move hg hm (hlk (by simp [Instr.gives])) hj (by simp) (by simp [Resumable])
      (fun _ => hcj) (by rw [hcode]; exact ⟨rfl, rfl⟩) ⟨hp₁, hp₂⟩ hp₄
      (fun m hm => absurd hm (hclaim m)) (fun m hm => absurd hm (hclaim m))
      (by simp [hp₅, allocating])
  case reap j hi hj hm hpos =>
    obtain ⟨p, a, rfl⟩ := hi
    exact hI.acts_of_move' hg hcode hm (hlk (by simp [Instr.gives])) (.inr ⟨hj, rfl⟩) ⟨rfl, rfl⟩
      hpos (hclaims (by simp))
  case born j hi hm hpos =>
    subst hi
    simp only [pos, Pos.mk.injEq] at hpos
    obtain ⟨hp₁, hp₂, hp₃, hp₄, hp₅, -⟩ := hpos
    have hcj : Claims (s.running h) j := hcode ▸ ⟨_, List.mem_cons_self, rfl⟩
    have hj : (s.d.proc j).state ≠ .running := by
      rcases hI.claim _ j hcj with hj | ⟨hj, -⟩ <;> simp [hj]
    have hnone : ∀ m, ¬Claims rest m := hok.2.2
    have hexp : exp = [] := by
      simp only [Sched.exec, Option.some.injEq, Prod.mk.injEq] at hx
      exact hx.2.1.symm
    subst hexp
    have hret : forkret j ∉ forkRunnable j :: rest := by
      simp only [List.mem_cons, reduceCtorEq, false_or]
      exact fun hr => hnone j ⟨_, hr, rfl⟩
    refine hI.acts_of_move hg hm (hrestlk hok.1) hj (by simp) ?_
      (fun _ => hcj) (by rw [hcode]; exact ⟨rfl, rfl⟩) ⟨hp₁, hp₂⟩ hp₄
      (fun m hm => absurd hm (hnone m)) (fun m hm => absurd hm (hnone m))
      (fun m hm => by rw [hp₅] at hm; simp [allocating] at hm)
    intro _ _
    rw [hI.spawned (s.cur h) j (by rw [← Sys.running, hcode]; simp) (by rwa [← Sys.running, hcode])]
    simp [held, Instr.gives]

end

/-! ## Context switches -/

section

attribute [local simp] Quiet Still Settled parked dispatching allocating waking filling napping
  stamping plain held
  Instr.gives

variable {s : Sys n} {h : Fin n}

/-- Hart `h` leaves its thread with the code `rest` and resumes thread `t'`. -/
theorem Inv.switch (hI : Inv s) {x : Instr} {t' : Thread n} (hcode : s.running h = x :: rest)
    (hx : x.claim = none) (halloc : allocating (x :: rest) = none) (ht' : t' ≠ s.cur h)
    (hheld : held (s.code t') = held (s.running h))
    (hidle : waking (s.code t') = none ∧ allocating (s.code t') = none)
    (hcurSched : ∀ k, t' = .scheduler k → k = h) (hcpu : CpuOk s.d h t' (s.code t'))
    (hback : ∀ p, t' = .kernel p → s.cur h = .scheduler h ∧ held rest = {.proc p} ∧
      dispatching rest = some p ∧ switching rest = false)
    (hsusp : ∀ p, s.cur h = .kernel p → Quiet rest ∧ held rest = {.proc p})
    (hrun : ∀ p, t' = .kernel p → parked (s.code t') = false ∧ (s.d.proc p).state = .running)
    (hdisp : ∀ k i, t' = .scheduler k → dispatching (s.code t') = some i →
      ((s.d.proc i).state = .running ↔ switching (s.code t') = true)) :
    Inv { s with
      cur := Function.update s.cur h t'
      code := Function.update s.code (s.cur h) rest } := by
  set s' : Sys n := { s with
    cur := Function.update s.cur h t'
    code := Function.update s.code (s.cur h) rest }
  have hwf : WF (s.cur h) (x :: rest) := hcode ▸ hI.wf (s.cur h)
  have hself : s'.cur h = t' := Function.update_self ..
  have hother : ∀ k, k ≠ h → s'.cur k = s.cur k := fun k hk => Function.update_of_ne hk ..
  have hcodeOther : ∀ t, t ≠ s.cur h → s'.code t = s.code t :=
    fun t ht => Function.update_of_ne ht ..
  have hcodeSelf : s'.code (s.cur h) = rest := Function.update_self ..
  have hrunH : s'.running h = s.code t' := by
    rw [Sys.running, hself, hcodeOther t' ht']
  have hrunK : ∀ k, k ≠ h → s'.running k = s.running k := by
    intro k hk
    rw [Sys.running, hother k hk, hcodeOther _ fun hc => hk (hI.cur_inj hc)]
    rfl
  have hheld' : ∀ k, held (s'.running k) = held (s.running k) := by
    intro k
    by_cases hk : k = h
    · rw [hk, hrunH, hheld]
    · rw [hrunK k hk]
  have hclaim : ∀ t i, Claims (s'.code t) i → Claims (s.code t) i := by
    intro t i hc
    by_cases ht : t = s.cur h
    · rw [ht, hcodeSelf] at hc
      obtain ⟨y, hy, hyi⟩ := hc
      rw [ht, ← Sys.running, hcode]
      exact ⟨y, List.mem_cons_of_mem _ hy, hyi⟩
    · rwa [hcodeOther t ht] at hc
  exact {
    own := fun lk k => by
      rw [hheld']
      exact hI.own lk k
    noff := fun k => by
      rw [hheld']
      exact hI.noff k
    wf := fun t => by
      by_cases ht : t = s.cur h
      · rw [ht, hcodeSelf]
        exact hwf.2
      · rw [hcodeOther t ht]
        exact hI.wf t
    curSched := fun k m hk => by
      by_cases hkh : k = h
      · rw [hkh, hself] at hk
        rw [hkh]
        exact hcurSched m hk
      · exact hI.curSched k m (hother k hkh ▸ hk)
    cpu := fun k => by
      by_cases hkh : k = h
      · rw [hkh, hself, hrunH]
        exact hcpu
      · rw [hother k hkh, hrunK k hkh]
        exact hI.cpu k
    back := fun k p hk => by
      by_cases hkh : k = h
      · rw [hkh, hself] at hk
        obtain ⟨hc, hb⟩ := hback p hk
        rw [hkh, ← hc, hcodeSelf]
        exact hb
      · rw [hother k hkh] at hk
        rw [hcodeOther _ fun hc => hkh (hI.curSched h k hc.symm)]
        exact hI.back k p hk
    susp := fun i hi => by
      by_cases hc : s.cur h = .kernel i
      · rw [← hc, hcodeSelf]
        exact ⟨(hsusp i hc).1, fun _ => (hsusp i hc).2⟩
      · rw [hcodeOther _ (Ne.symm hc)]
        refine hI.susp i fun k => ?_
        by_cases hkh : k = h
        · rwa [hkh]
        · rw [← hother k hkh]
          exact hi k
    run := fun k p hk => by
      by_cases hkh : k = h
      · rw [hkh, hself] at hk
        rw [hkh, hrunH, if_neg (by simp [(hrun p hk).1])]
        exact (hrun p hk).2
      · rw [hother k hkh] at hk
        rw [hrunK k hkh]
        exact hI.run k p hk
    disp := fun k m i hk hd => by
      by_cases hkh : k = h
      · rw [hkh, hself] at hk
        rw [hkh, hrunH] at hd ⊢
        exact hdisp m i hk hd
      · rw [hother k hkh] at hk
        rw [hrunK k hkh] at hd ⊢
        exact hI.disp k m i hk hd
    uniq := hI.uniq
    runCpu := hI.runCpu
    wake := fun k i hw => by
      by_cases hkh : k = h
      · rw [hkh, hrunH, hidle.1] at hw
        simp at hw
      · rw [hrunK k hkh] at hw
        exact hI.wake k i hw
    claim := fun t i hc => by
      have hst := hI.claim t i (hclaim t i hc)
      by_cases ht : t = s.cur h
      · rw [ht, ← Sys.running, hcode, halloc] at hst
        exact .inl (by simpa using hst)
      · rw [hcodeOther t ht]
        exact hst
    claimUniq := fun t₁ t₂ i h₁ h₂ => hI.claimUniq t₁ t₂ i (hclaim t₁ i h₁) (hclaim t₂ i h₂)
    fresh := fun k i hw => by
      by_cases hkh : k = h
      · rw [hkh, hrunH, hidle.2] at hw
        simp at hw
      · rw [hrunK k hkh] at hw
        exact hI.fresh k i hw
    spawned := fun t i hf hr => by
      have hold : forkRunnable i ∈ s.code t ∧ forkret i ∉ s.code t := by
        by_cases ht : t = s.cur h
        · rw [ht, hcodeSelf] at hf hr
          rw [ht, ← Sys.running, hcode]
          refine ⟨List.mem_cons_of_mem _ hf, ?_⟩
          rw [List.mem_cons, not_or]
          refine ⟨?_, hr⟩
          rintro rfl
          simp [Instr.claim] at hx
        · rw [hcodeOther t ht] at hf hr
          exact ⟨hf, hr⟩
      have hne := hI.not_claims_cur (h := h) (t := t) ⟨_, hold.1, rfl⟩
      rw [hcodeOther _ hne.symm]
      exact hI.spawned t i hold.1 hold.2 }

theorem Inv.sched (hI : Inv s) {p : Slot} (hcode : s.running h = .sched p :: rest) :
    Inv { s with
      cur := Function.update s.cur h (.scheduler h)
      code := Function.update s.code (s.cur h) rest } := by
  obtain ⟨hcur, hquiet, hheld⟩ := hI.ok hcode
  obtain ⟨hb, hp₂, hp₃⟩ := hI.back h p hcur
  obtain ⟨-, hp₄, hp₅, -⟩ := settled_of_dispatching hp₂
  refine hI.switch hcode rfl rfl (by simp [hcur]) ?_ ⟨hp₄, hp₅⟩ (by simp) ?_ (by simp) ?_
    (by simp) ?_
  · rw [hb, hcode]
    simp [held, Instr.gives, hheld]
  · have := hI.cpu h
    rw [hcur] at this
    exact this.trans hp₂.symm
  · intro q hq
    rw [hcur] at hq
    cases hq
    exact ⟨hquiet, hheld⟩
  · intro k i _ hi
    rw [hp₂, Option.some.injEq] at hi
    subst hi
    have hrun := hI.run h p hcur
    rw [hcode, if_pos (by rfl)] at hrun
    rw [hp₃]
    rcases hrun with hr | hr | hr <;> simp [hr]

/-- The process that a scheduler switches to is running and waits to be resumed. -/
theorem Inv.target (hI : Inv s) (hcode : s.running h = .swtch i :: rest) :
    (∀ k, s.cur k ≠ .kernel i) ∧ Quiet (s.code (.kernel i)) ∧
      held (s.code (.kernel i)) = {.proc i} ∧ (s.d.proc i).state = .running ∧
      s.d.cpuProc h = some i := by
  obtain ⟨⟨k, hk⟩, -⟩ := hI.ok hcode
  have hdi : dispatching (s.running h) = some i := by
    rw [hcode]
    rfl
  have hcpu : s.d.cpuProc h = some i := by
    have := hI.cpu h
    rw [hk] at this
    exact this.trans hdi
  have hst : (s.d.proc i).state = .running := by
    rw [hI.disp h k i hk hdi, hcode]
    rfl
  have hnot : ∀ m, s.cur m ≠ .kernel i := by
    intro m hm
    have := hI.cpu m
    rw [hm] at this
    rw [hI.uniq m h i this hcpu, hk] at hm
    simp at hm
  obtain ⟨hquiet, hres⟩ := hI.susp i hnot
  exact ⟨hnot, hquiet, hres (.inr (.inr hst)), hst, hcpu⟩

theorem Inv.swtch (hI : Inv s) (hcode : s.running h = .swtch i :: rest) :
    Inv { s with
      cur := Function.update s.cur h (.kernel i)
      code := Function.update s.code (s.cur h) rest } := by
  obtain ⟨⟨k, hk⟩, hheld, hdisp, hsw⟩ := hI.ok hcode
  obtain rfl := hI.curSched h k hk
  obtain ⟨hnot, hquiet, hres, hst, hcpu⟩ := hI.target hcode
  obtain ⟨⟨⟨hq₁, hq₂, hq₃, -⟩, hq₄⟩, -⟩ := hquiet
  refine hI.switch hcode rfl rfl (hnot k).symm ?_ ⟨hq₄, hq₃⟩ (by simp) hcpu ?_ (by simp [hk]) ?_
    (by simp)
  · rw [hres, hcode]
    simp [held, Instr.gives, hheld]
  · intro p hp
    cases hp
    exact ⟨hk, hheld, hdisp, hsw⟩
  · intro p hp
    cases hp
    exact ⟨hq₁, hst⟩

theorem Inv.spawn (hI : Inv s) (hst : (s.d.proc i).state = .used) :
    Inv { s with
      code := Function.update s.code (.kernel i) [.release (.proc i), .user] } := by
  set s' : Sys n := { s with
    code := Function.update s.code (.kernel i) [.release (.proc i), .user] }
  have hnot : ∀ k, s.cur k ≠ .kernel i := fun k => hI.cur_ne_of_state (.inl hst)
  have hself : s'.code (.kernel i) = [.release (.proc i), .user] := Function.update_self ..
  have hother : ∀ t, t ≠ .kernel i → s'.code t = s.code t := fun t ht =>
    Function.update_of_ne ht ..
  have hrun : ∀ k, s'.running k = s.running k := fun k => hother _ (hnot k)
  have hclaim : ∀ t j, Claims (s'.code t) j → t ≠ .kernel i ∧ Claims (s.code t) j := by
    intro t j hc
    by_cases ht : t = .kernel i
    · rw [ht, hself] at hc
      simp [Claims, Instr.claim] at hc
    · exact ⟨ht, hother t ht ▸ hc⟩
  exact {
    own := fun lk k => by rw [hrun]; exact hI.own lk k
    noff := fun k => by rw [hrun]; exact hI.noff k
    wf := fun t => by
      by_cases ht : t = .kernel i
      · rw [ht, hself]
        simp [WF, Ok]
      · rw [hother t ht]
        exact hI.wf t
    curSched := hI.curSched
    cpu := fun k => by rw [hrun]; exact hI.cpu k
    back := fun k p hk => by
      rw [hother _ (by simp)]
      exact hI.back k p hk
    susp := fun j hj => by
      by_cases hji : j = i
      · rw [hji, hself]
        simp
      · rw [hother _ (by simpa using hji)]
        exact hI.susp j hj
    run := fun k p hk => by rw [hrun]; exact hI.run k p hk
    disp := fun k m j hk hd => by rw [hrun] at hd ⊢; exact hI.disp k m j hk hd
    uniq := hI.uniq
    runCpu := hI.runCpu
    wake := fun k j hw => hI.wake k j (hrun k ▸ hw)
    claim := fun t j hc => by
      obtain ⟨ht, hc⟩ := hclaim t j hc
      rw [hother t ht]
      exact hI.claim t j hc
    claimUniq := fun t t' j hc hc' => hI.claimUniq t t' j (hclaim t j hc).2 (hclaim t' j hc').2
    fresh := fun k j hw => hI.fresh k j (hrun k ▸ hw)
    spawned := fun t j hf hr => by
      by_cases hji : j = i
      · rw [hji, hself]
      · obtain ⟨ht, -⟩ := hclaim t j ⟨_, hf, rfl⟩
        rw [hother t ht] at hf hr
        rw [hother _ (by simpa using hji)]
        exact hI.spawned t j hf hr }

theorem Inv.forkret (hI : Inv s) (hcode : s.running h = .forkret i :: rest) :
    Inv { s with
      code := Function.update (Function.update s.code (s.cur h) rest) (.kernel i)
        [.release (.proc i), .user] } := by
  have hwf : WF (s.cur h) (.forkret i :: rest) := hcode ▸ hI.wf (s.cur h)
  obtain ⟨-, hlk, hquiet, -⟩ := hwf.1
  have hst : (s.d.proc i).state = .used := by
    have hcl : Claims (s.running h) i := hcode ▸ ⟨_, List.mem_cons_self, rfl⟩
    have := hI.claim (s.cur h) i hcl
    rw [← Sys.running, hcode] at this
    simpa [allocating] using this
  have hnot : ∀ k, s.cur k ≠ .kernel i := fun k => hI.cur_ne_of_state (.inl hst)
  have hI' := hI.spawn hst
  rw [Function.update_comm (hnot h)]
  set s₁ : Sys n := { s with
    code := Function.update s.code (.kernel i) [.release (.proc i), .user] }
  have hcode₁ : s₁.running h = .forkret i :: rest := by
    rw [← hcode]
    exact Function.update_of_ne (hnot h) ..
  obtain ⟨hown, hnoff⟩ := hI'.locks_same (h := h) (show held rest = held (s₁.running h) by
    rw [hcode₁]
    simp)
  refine Acts.inv (s := s₁) (hI'.acts_of_pos (h := h) ⟨rfl, rfl, hown, hnoff, hwf.2, ?_⟩
    (Unmoved.refl _) ?_ ?_) hI'
  · intro j hf hr
    by_cases hji : j = i
    · rw [hji]
      exact .inr (Function.update_self ..)
    · rw [hcode₁]
      exact .inl ⟨List.mem_cons_of_mem _ hf, by simp [hji, hr]⟩
  · rw [hcode₁]
    rw [pos_of_still hquiet.1 (show Still (.forkret i :: rest) by simp)]
  · rw [hcode₁]
    rintro j ⟨x, hx, hj⟩
    exact ⟨x, List.mem_cons_of_mem _ hx, hj⟩

theorem boot_not_claims (t : Thread n) (i : Slot) : ¬Claims ((boot n).code t) i := by
  rintro ⟨x, hx, hi⟩
  cases t with
  | scheduler k =>
    obtain rfl : x = .schedLoop := by simpa [boot] using hx
    simp [Instr.claim] at hi
  | kernel j =>
    simp only [boot] at hx
    split at hx
    · simp at hx
      rcases hx with rfl | rfl | rfl <;> simp [Instr.claim] at hi
    · simp at hx

theorem Inv.boot : Inv (boot n) where
  own lk h := by simp [Sys.boot, Sys.running]
  noff h := by simp [Sys.boot, Sys.running]
  wf t := by
    cases t with
    | scheduler k => simp [Sys.boot, WF, Ok, Idle]
    | kernel i =>
      simp only [Sys.boot]
      split
      · next hi =>
        subst hi
        simp [WF, Ok, Idle, NoWait]
      · trivial
  curSched h k hk := by simpa [Sys.boot, eq_comm] using hk
  cpu h := rfl
  back h p hp := by simp [Sys.boot] at hp
  susp i hi := by
    simp only [Sys.boot]
    split
    · next hi =>
      subst hi
      simp
    · simp [Resumable]
  run h p hp := by simp [Sys.boot] at hp
  disp h k i hk hd := by simp [Sys.boot, Sys.running] at hd
  uniq h k i hh := by simp [Sys.boot] at hh
  runCpu i hi := by
    simp only [Sys.boot] at hi
    split at hi <;> simp at hi
  wake h i hw := by simp [Sys.boot, Sys.running] at hw
  claim t i hc := absurd hc (boot_not_claims t i)
  claimUniq t t' i hc := absurd hc (boot_not_claims t i)
  fresh h i hw := by simp [Sys.boot, Sys.running] at hw
  spawned t i hf := absurd ⟨_, hf, rfl⟩ (boot_not_claims t i)

end

theorem Inv.step (hI : Inv s) (hs : s.Step pol e s') : Inv s' := by
  obtain ⟨h, hs⟩ := hs.stepOf
  cases hs with
  | acquire hcode hfree => exact hI.acquire hcode hfree
  | release hcode hi hown =>
    refine hI.release hcode ?_
    rcases hi with ⟨rfl, -⟩ | ⟨p, chan, rfl, -⟩
    · exact .inl rfl
    · exact .inr ⟨p, chan, rfl⟩
  | sched hcode hstate => exact hI.sched hcode
  | swtch hcode => exact hI.swtch hcode
  | forkret hcode => exact hI.forkret hcode
  | exec hcode hx => exact hI.exec hcode hx
  | interrupt hnoff hiret => exact hI.interrupt pol _ hnoff

theorem Reachable.inv (hs : Reachable pol s) : Inv s := by
  obtain ⟨es, hrun⟩ := hs
  exact hrun.invariant (fun _ _ _ hI hstep => hI.step hstep) Inv.boot

end Sys

end Xv6.Sched
