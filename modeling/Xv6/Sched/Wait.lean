import Xv6.Sched.Family
import Xv6.Sched.Wakeup

/-!
# Waiting for children to exit

`wait` scans the table and goes to sleep, and `exit` wakes the parent and becomes a
zombie, each without letting go of `wait_lock`.  The invariant says how far either
has got: no child below the scan's position is a zombie, and a zombie whose parent
is still asleep has a `wakeup` on its way to the parent's slot.
-/

namespace Xv6.Sched

open Instr

variable {n : Nat}

variable {c : Code} {k : Fin n} {q p i : Slot} {st : Int} {d d' : Data n} {m : Nat}

theorem scanning_held {t : Thread n} {k : Nat} (hwf : WF t c)
    (hs : scanning c = some k) : Lock.waitLock ∈ held c := by
  unfold scanning at hs
  split at hs
  case h_1 p a m b hin => exact held_of_inner hwf hin (by simp) fun rest _ => by simp [held, Instr.gives]
  case h_2 p a j hin => exact held_of_inner hwf hin (by simp) fun rest _ => by simp [held, Instr.gives]
  case h_3 p q lk hin =>
    refine held_of_inner hwf hin (by simp) fun rest hwf => ?_
    simp [held, Instr.gives, hwf.1.2.2.1.2 q rfl]
  case h_4 => simp at hs

theorem rousing_held {t : Thread n} {k : Nat} (hwf : WF t c)
    (hr : rousing c = some (.proc q, k)) : Lock.waitLock ∈ held c := by
  have hloop : ∀ {c : Code} {m : Nat}, WF t c → inner c = some (wakeupLoop (.proc q) m) →
      Lock.waitLock ∈ held c := fun hwf hin =>
    held_of_inner hwf hin (by simp) fun rest hwf =>
      held_subset_cons (by simp) (hwf.1.1.2.2 q rfl)
  unfold rousing at hr
  split at hr
  case h_1 chan m hin =>
    simp only [Option.some.injEq, Prod.mk.injEq] at hr
    exact hloop hwf (hr.1 ▸ hin)
  case h_2 chan j hin =>
    simp only [Option.some.injEq, Prod.mk.injEq] at hr
    exact held_of_inner hwf hin (by simp) fun rest hwf =>
      held_subset_cons (by simp) (hwf.1.1.2.2 q hr.1)
  case h_3 chan j hin =>
    simp only [Option.some.injEq, Prod.mk.injEq] at hr
    exact held_of_inner hwf hin (by simp) fun rest hwf =>
      held_subset_cons (by simp) (hloop hwf.2 (hr.1 ▸ hwf.1.2.2))
  case h_4 => simp at hr

theorem adopting_of_setZombie (hb : beyond c = some (setZombie p st)) : adopting c = some NPROC := by
  simp [adopting, hb]

theorem scanning_of_section {h : Fin n} {i : Instr} {rest c' : Code} (hs : Section d h i rest d' c')
    (hok : Ok (.kernel p : Thread n) i rest) (hm : scanning c' = some m) :
    scanning (i :: rest) = some m ∧ ((∃ j, i = takeQueue j) ∨ ∃ j v, i = setQueue j v) ∨
    d' = d ∧ ∃ k, scanning (i :: rest) = some k ∧ ∀ j : Slot, j < m →
      j < k ∨ (d.proc j).parent ≠ some p ∨ (d.proc j).state ≠ .zombie := by
  cases hs
  case plain hp hr => simp [(none_of_plain hp).2.2.1] at hm
  case same hi hin hbe => exact .inl ⟨by rw [scanning, ← hin]; exact hm, hi⟩
  case scanSkip q a j b hi hj hd hin =>
    subst hi
    obtain rfl := Thread.kernel.inj hok.1
    simp only [scanning, hin, Option.some.injEq] at hm
    refine .inr ⟨hd, j, rfl, fun i hi => ?_⟩
    by_cases hij : i = j
    · exact .inr (.inl (hij ▸ hj))
    · have hne : i.val ≠ j.val := fun heq => hij (Fin.ext heq)
      exact .inl (by omega)
  case scanVisit q a j b hi hj hd hin =>
    subst hi
    simp only [scanning, hin, Option.some.injEq] at hm
    exact .inr ⟨hd, j, rfl, fun i hi => .inl (by omega)⟩
  case scanSleep q a k b hi hk hd hin =>
    subst hi
    simp only [scanning, hin, Option.some.injEq] at hm
    exact .inr ⟨hd, k, rfl, fun i hi => .inl (by omega)⟩
  case checkMiss q a j hi hj hd hin =>
    subst hi
    simp only [scanning, hin, Option.some.injEq] at hm
    refine .inr ⟨hd, j, rfl, fun i hi => ?_⟩
    by_cases hij : i = j
    · exact .inr (.inr (hij ▸ hj))
    · have hne : i.val ≠ j.val := fun heq => hij (Fin.ext heq)
      exact .inl (by omega)
  case sleepStart q chan lk hchan hd hr hin =>
    cases chan <;> simp_all [scanning]
  case wakeDone chan k hi hk hd hc =>
    subst hi hc
    rcases hok.2.2.2 with hp | ⟨q, j, hin⟩ | ⟨q, st, hin⟩
    · simp [(none_of_plain hp).2.2.1] at hm
    · simp [scanning, hin] at hm
    · simp [scanning, hin] at hm
  all_goals simp_all [scanning]

theorem setZombie_of_section {h : Fin n} {i : Instr} {rest c' : Code}
    (hs : Section d h i rest d' c') (hb : beyond c' = some (setZombie p st)) :
    (beyond (i :: rest) = some (setZombie p st) ∧ (∀ q j, i ≠ Instr.reparent q j) ∧
      i.claim = none ∧ ∀ q a j, i ≠ waitCheck q a j) ∨
    i = wakeupParent p ∧ d' = d ∧ ∀ q, (d.proc p).parent = some q →
      rousing c' = some (.proc q, 0) := by
  have ha : adopting c' = some NPROC := adopting_of_setZombie hb
  cases hs
  case plain hp hr => simp [(none_of_plain hp).2.2.2] at ha
  case same hi hin hbe =>
    refine .inl ⟨hbe ▸ hb, ?_⟩
    rcases hi with ⟨j, rfl⟩ | ⟨j, v, rfl⟩ <;> simp [Instr.claim]
  case clockDone hbe => simp [hbe] at ha
  case wakeStart hbe => simp [hbe] at ha
  case wakeVisit chan j hi hj hd hin hbe | wakeSkip chan j hi hj hd hin hbe
      | wakeFound chan j hi hj hd hin hbe | wakeMiss chan j hi hj hd hin hbe
      | woken chan j hi hd hin hbe =>
    subst hi
    exact .inl ⟨hbe ▸ hb, by simp [Instr.claim]⟩
  case wakeDone chan k hi hk hd hc =>
    subst hi hc
    exact .inl ⟨hb, by simp [Instr.claim]⟩
  case exitWake q st' hi hd hin hbe =>
    rw [hbe] at hb
    cases hb
    exact .inr ⟨hi, hd, fun q hq => by simp [rousing, hin, hq]⟩
  case scanSkip hin | scanVisit hin | scanSleep hin | checkMiss hin | sleepStart hin =>
    rw [beyond_of_inner hin (by simp)] at hb
    cases hb
  all_goals simp_all

/-- The writers of the fields that a parent reads when it reaps a child. -/
theorem Writes.exit_eq {i : Instr} (hw : Writes d i d') (j : Slot) :
    ((d'.proc j).pid = (d.proc j).pid ∧ (d'.proc j).xstate = (d.proc j).xstate) ∨
      (∃ pid, i = setUsed j pid) ∨ (∃ st, i = setZombie j st) ∨ (d'.proc j).state = .unused := by
  cases hw
  case none hsame => exact .inl ⟨(hsame j).pid, (hsame j).xstate⟩
  case used k pid hi hd =>
    by_cases hj : j = k
    · exact .inr (.inl ⟨pid, hj ▸ hi⟩)
    · exact .inl (by simp [hd, hj, Data.setState])
  case zombie k st hi hd =>
    by_cases hj : j = k
    · exact .inr (.inr (.inl ⟨st, hj ▸ hi⟩))
    · exact .inl (by simp [hd, hj, Data.setState])
  case freed k hi hd =>
    by_cases hj : j = k
    · exact .inr (.inr (.inr (by simp [hd, hj, Data.freeproc, Data.setState])))
    · exact .inl (by simp [hd, hj, Data.freeproc, Data.setState])
  case account k hi hd =>
    left
    rw [hd, Data.setProc_proc]
    split
    · next hj =>
      rw [hj]
      unfold Data.accountProc
      split <;> exact ⟨rfl, rfl⟩
    · exact ⟨rfl, rfl⟩
  all_goals
    rename_i hd
    left
    rw [hd]
    simp only [Data.setState, Data.setProc_proc]
    split <;> simp_all

namespace Sys

variable {pol : Policy} {s s' : Sys n} {h : Fin n} {e : Event n}

structure WaitInv (s : Sys n) : Prop where
  /-- The slots that `wait` has gone through hold no zombie child. -/
  scanned : ∀ h p k, s.cur h = .kernel p → scanning (s.running h) = some k →
    ∀ j : Slot, j < k → (s.d.proc j).parent = some p → (s.d.proc j).state ≠ .zombie
  /-- `wait` looks at children only. -/
  child : ∀ h p a j, inner (s.running h) = some (waitCheck p a j) → (s.d.proc j).parent = some p
  /-- A `wakeup` of the parent `q` that has got past its slot has woken it. -/
  passed : ∀ h q k, rousing (s.running h) = some (.proc q, k) → q < k → ¬s.Committed q (.proc q)
  /-- `exit` wakes the parent before it makes the process a zombie. -/
  told : ∀ h c st q, beyond (s.running h) = some (setZombie c st) →
    (s.d.proc c).parent = some q →
    (∃ k, rousing (s.running h) = some (.proc q, k)) ∨ ¬s.Committed q (.proc q)
  /-- A sleeping parent of a zombie is about to be woken. -/
  roused : ∀ i q, (s.d.proc i).state = .zombie → (s.d.proc i).parent = some q →
    s.Committed q (.proc q) → ∃ h k, rousing (s.running h) = some (.proc q, k) ∧ k ≤ q
  /-- A process that sleeps inside `wait` sleeps on itself. -/
  waits : ∀ p q a i b, (s.d.proc p).state = .sleeping → waitScan q a i b ∈ s.code (.kernel p) →
    (s.d.proc p).chan = .proc p

theorem StepOf.of_slept {chan : Chan} {lk : Lock} (hs : StepOf pol s h (.slept p chan lk) s') :
    ∃ rest, s.running h = releaseSleep p chan lk :: rest ∧ s'.running h = rest ∧ s'.d = s.d := by
  generalize he : Event.slept p chan lk = e at hs
  cases hs with
  | release hcode hi hown =>
    rcases hi with ⟨-, rfl⟩ | ⟨_, _, rfl, rfl⟩ <;> cases he
    exact ⟨_, hcode, by simp, rfl⟩
  | exec hcode hx =>
    subst he
    cases exec_emits hx
  | _ => cases he

theorem StepOf.zombie_new (hI : Inv s) (hs : StepOf pol s h e s')
    (hz : (s'.d.proc i).state = .zombie) :
    (s.d.proc i).state = .zombie ∨ ∃ st rest, s.running h = setZombie i st :: rest := by
  cases hs with
  | exec hcode hx =>
    rcases exec_zombie hI hcode hx hz with hold | ⟨-, -, st, rfl⟩
    · exact .inl hold
    · exact .inr ⟨st, _, hcode⟩
  | _ => exact .inl hz

/-- While a hart holds `wait_lock`, the others make no zombies. -/
theorem StepOf.zombie_of_locked (hI : Inv s) (hs : StepOf pol s h e s') (hk : k ≠ h)
    (hlk : .waitLock ∈ held (s.running k)) (hz : (s'.d.proc i).state = .zombie) :
    (s.d.proc i).state = .zombie := by
  rcases hs.zombie_new hI hz with hold | ⟨st, rest, hcode⟩
  · exact hold
  · refine absurd (hI.exclusive hlk ?_) hk
    rw [hcode]
    exact held_subset_cons (by simp) (hI.ok hcode).2.2.1

/-- While a hart holds `wait_lock`, the others do not go to sleep in `wait`. -/
theorem StepOf.committed_of_locked (hI : Inv s) (hs : StepOf pol s h e s') (hk : k ≠ h)
    (hlk : .waitLock ∈ held (s.running k)) (hc : s'.Committed q (.proc q)) :
    s.Committed q (.proc q) := by
  rcases hs.committed hI hc with hold | ⟨lk, rfl⟩
  · exact hold
  · obtain ⟨rest, hcode, -⟩ := hs.of_slept
    refine absurd (hI.exclusive hlk ?_) hk
    rw [hcode]
    simp [held, Instr.gives, (hI.ok hcode).2.2.1.2 q rfl]

namespace WaitInv

theorem scanned_step (hI : Inv s) (hF : Family s) (hW : WaitInv s) (hs : StepOf pol s h e s')
    (hcur : s'.cur k = .kernel p) (hm : scanning (s'.running k) = some m) {j : Slot} (hj : j < m)
    (hp : (s'.d.proc j).parent = some p) : (s'.d.proc j).state ≠ .zombie := by
  intro hz
  by_cases hk : k = h
  · subst hk
    cases hs.progress hI with
    | out hd hp hr => simp [(none_of_plain hp).2.2.1] at hm
    | lock hd hcur' hin hbe =>
      rw [hd] at hp hz
      rw [scanning, hin] at hm
      exact hW.scanned k p m (hcur' ▸ hcur) hm j hj hp hz
    | start hd hcur' hr hin =>
      rcases hin with ⟨q, a, b, hin⟩ | ⟨q, hin⟩
      · simp only [scanning, hin, Option.some.injEq] at hm
        omega
      · simp [scanning, hin] at hm
    | exec hcode hd hcur' hx hrun hsec =>
      rw [hcur'] at hcur
      rw [hrun] at hm
      have hok := hI.ok hcode
      rw [hcur] at hok
      rcases scanning_of_section hsec hok hm with ⟨hold, hi⟩ | ⟨hd', k₀, hold, hall⟩
      · have hne : ∀ st rest, s.running k ≠ setZombie j st :: rest := by
          rcases hi with ⟨i, rfl⟩ | ⟨i, v, rfl⟩ <;> simp [hcode]
        have hz' := (hs.zombie_new hI hz).resolve_right (by simpa using hne)
        have hp' : (s.d.proc j).parent = some p := by
          rw [← hp]
          symm
          apply (hs.kin hF j).same_of_head hcode
          all_goals rcases hi with ⟨i, rfl⟩ | ⟨i, v, rfl⟩ <;> simp [Instr.claim]
        exact hW.scanned k p m hcur (hcode ▸ hold) j hj hp' hz'
      · rw [hd, hd'] at hp hz
        rcases hall j hj with hlt | hne | hne
        · exact hW.scanned k p k₀ hcur (hcode ▸ hold) j hlt hp hz
        · exact hne hp
        · exact hne hz
  · rw [hs.cur_other hk] at hcur
    rw [hs.running_other hI hk] at hm
    have hlk := scanning_held (hI.wf _) hm
    rw [hs.parent_of_locked hI hF hk hlk] at hp
    exact hW.scanned k p m hcur hm j hj hp (hs.zombie_of_locked hI hk hlk hz)

theorem child_step (hI : Inv s) (hF : Family s) (hW : WaitInv s) (hs : StepOf pol s h e s')
    {a : WaitArgs} {j : Slot}
    (hin : inner (s'.running k) = some (waitCheck p a j)) : (s'.d.proc j).parent = some p := by
  have hscan : scanning (s'.running k) = some j.val := by simp [scanning, hin]
  by_cases hk : k = h
  · subst hk
    cases hs.progress hI with
    | out hd hp hr => simp [(none_of_plain hp).2.2.1] at hscan
    | lock hd hcur' hin' hbe =>
      rw [hd]
      exact hW.child k p a j (hin' ▸ hin)
    | start hd hcur' hr hin' =>
      rcases hin' with ⟨q, a, b, hin'⟩ | ⟨q, hin'⟩ <;> simp [hin'] at hin
    | exec hcode hd hcur' hx hrun hsec =>
      rw [hrun] at hin hscan
      cases hsec
      case plain hp hr => simp [(none_of_plain hp).2.2.1] at hscan
      case same hi hin' hbe =>
        have hsame : (s'.d.proc j).parent = (s.d.proc j).parent := by
          apply (hs.kin hF j).same_of_head hcode
          all_goals rcases hi with ⟨i, rfl⟩ | ⟨i, v, rfl⟩ <;> simp [Instr.claim]
        rw [hsame]
        exact hW.child k p a j (by rw [hcode, ← hin', hin])
      case scanVisit q a' i b hi hi' hd' hin' =>
        rw [hin'] at hin
        cases hin
        rw [hd, hd', hi']
      case wakeDone chan m hi hm hd' hc =>
        subst hi
        rw [hc] at hin hscan
        rcases (hI.ok hcode).2.2.2 with hp | ⟨q, i, hin'⟩ | ⟨q, st, hin'⟩
        · simp [(none_of_plain hp).2.2.1] at hscan
        · simp [hin'] at hin
        · simp [hin'] at hin
      all_goals simp_all
  · rw [hs.running_other hI hk] at hin hscan
    rw [hs.parent_of_locked hI hF hk (scanning_held (hI.wf _) hscan)]
    exact hW.child k p a j hin

theorem committed_of_rousing (hI : Inv s) (hs : StepOf pol s h e s') {x : Chan × Nat}
    (hr : rousing (s.running h) = some x) (hc : s'.Committed q (.proc q)) :
    s.Committed q (.proc q) := by
  rcases hs.committed hI hc with hold | ⟨lk, rfl⟩
  · exact hold
  · obtain ⟨rest, hcode, -⟩ := hs.of_slept
    simp [hcode, rousing, inner] at hr

theorem passed_step (hI : Inv s) (hW : WaitInv s) (hs : StepOf pol s h e s')
    (hr : rousing (s'.running k) = some (.proc q, m)) (hq : q < m) :
    ¬s'.Committed q (.proc q) := by
  intro hc
  by_cases hk : k = h
  · subst hk
    obtain ⟨-, ⟨m₀, hr₀, hq₀⟩ | hnot⟩ := (hs.rouse hI).past hr hq
    · exact hW.passed k q m₀ hr₀ hq₀ (committed_of_rousing hI hs hr₀ hc)
    · exact hnot hc
  · rw [hs.running_other hI hk] at hr
    exact hW.passed k q m hr hq (hs.committed_of_locked hI hk (rousing_held (hI.wf _) hr) hc)

theorem told_step (hI : Inv s) (hF : Family s) (hW : WaitInv s) (hs : StepOf pol s h e s')
    {c : Slot} (hb : beyond (s'.running k) = some (setZombie c st))
    (hp : (s'.d.proc c).parent = some q) :
    (∃ m, rousing (s'.running k) = some (.proc q, m)) ∨ ¬s'.Committed q (.proc q) := by
  have ha := adopting_of_setZombie hb
  by_cases hk : k = h
  · subst hk
    have hback : s'.Committed q (.proc q) → s.Committed q (.proc q) := by
      intro hc
      rcases hs.committed hI hc with hold | ⟨lk, rfl⟩
      · exact hold
      · obtain ⟨rest, hcode, hrun, -⟩ := hs.of_slept
        obtain ⟨c', rfl⟩ := (hI.ok hcode).2.2.2
        simp [hrun, beyond] at hb
    have hkeep : beyond (s.running k) = some (setZombie c st) → (s.d.proc c).parent = some q →
        (∃ m, rousing (s'.running k) = some (.proc q, m)) ∨ ¬s'.Committed q (.proc q) := by
      intro hb₀ hp₀
      rcases hW.told k c st q hb₀ hp₀ with ⟨m, hr⟩ | hnot
      · cases hs.rouse hI with
        | none hr' hall =>
          have := q.isLt
          have := hall _ _ hr
          exact .inr fun hc => hW.passed k q m hr (by omega) (hback hc)
        | start chan hcur hr' hr₀ => simp [hr₀] at hr
        | same hcur hr' => exact .inl ⟨m, hr'.trans hr⟩
        | pass chan j hcur hr' hr₀ hj =>
          rw [hr₀] at hr
          cases hr
          exact .inl ⟨_, hr'⟩
      · exact .inr fun hc => hnot (hback hc)
    cases hs.progress hI with
    | out hd hp hr => simp [(none_of_plain hp).2.2.2] at ha
    | lock hd hcur' hin hbe => exact hkeep (hbe ▸ hb) (hd ▸ hp)
    | start hd hcur' hr hin =>
      rcases hin with ⟨q, a, b, hin⟩ | ⟨q, hin⟩ <;> simp [beyond_of_inner hin (by simp)] at hb
    | exec hcode hd hcur' hx hrun hsec =>
      rw [hrun] at hb
      rcases setZombie_of_section hsec hb with ⟨hb₀, h₁, h₂, h₃⟩ | ⟨-, hd', hr⟩
      · rw [(hs.kin hF c).same_of_head hcode h₁ h₂ h₃] at hp
        exact hkeep (by rw [hcode, hb₀]) hp
      · rw [hd, hd'] at hp
        exact .inl ⟨0, by rw [hrun, hr q hp]⟩
  · rw [hs.running_other hI hk] at hb ha ⊢
    have hlk := (adopting_held (hI.wf _) ha).1
    rw [hs.parent_of_locked hI hF hk hlk] at hp
    rcases hW.told k c st q hb hp with hr | hnot
    · exact .inl hr
    · exact .inr fun hc => hnot (hs.committed_of_locked hI hk hlk hc)

theorem roused_step (hI : Inv s) (hF : Family s) (hW : WaitInv s) (hs : StepOf pol s h e s')
    (hz : (s'.d.proc i).state = .zombie) (hp : (s'.d.proc i).parent = some q)
    (hc : s'.Committed q (.proc q)) :
    ∃ k m, rousing (s'.running k) = some (.proc q, m) ∧ m ≤ q := by
  rcases hs.committed hI hc with hold | ⟨lk, rfl⟩
  · rcases hs.zombie_new hI hz with hz₀ | ⟨st, rest, hcode⟩
    · have hkeep : (s.d.proc i).parent = some q →
          ∃ k m, rousing (s'.running k) = some (.proc q, m) ∧ m ≤ q := by
        intro hp₀
        obtain ⟨k, m, hr, hm⟩ := hW.roused i q hz₀ hp₀ hold
        by_cases hk : k = h
        · subst hk
          exact ⟨k, (hs.rouse hI).stays hr hm hc⟩
        · exact ⟨k, m, by rw [hs.running_other hI hk, hr], hm⟩
      cases hs.kin hF i with
      | same hp' => exact hkeep (hp' ▸ hp)
      | fork p rest hcode hcode' hp' =>
        have := hI.used_of_claim hcode rfl rfl
        simp [this] at hz₀
      | adopt p rest hcode hcode' hold' hp' =>
        obtain rfl : s.d.initproc = q := Option.some.inj (hp'.symm.trans hp)
        obtain ⟨c, hcode'⟩ := hcode'
        exact ⟨h, 0, by rw [hcode']; rfl, Nat.zero_le _⟩
      | reap p a rest hcode hz' hp' hu => simp [hp'] at hp
    · have hp₀ : (s.d.proc i).parent = some q := by
        rw [← hp]
        symm
        exact (hs.kin hF i).same_of_head hcode (by simp) rfl (by simp)
      rcases hW.told h i st q (by rw [hcode]; rfl) hp₀ with ⟨m, hr⟩ | hnot
      · simp [hcode, rousing, inner] at hr
      · exact absurd hold hnot
  · obtain ⟨rest, hcode, hrun, hd⟩ := hs.of_slept
    rw [hd] at hz hp
    have hscan : scanning (s.running h) = some NPROC := by rw [hcode]; rfl
    exact absurd hz (hW.scanned h q NPROC (hI.ok hcode).1 hscan i i.isLt hp)

theorem waits_step (hI : Inv s) (hW : WaitInv s) (hs : StepOf pol s h e s') {a : WaitArgs} {i : Nat}
    {b : Bool} (hst : (s'.d.proc p).state = .sleeping)
    (hmem : waitScan q a i b ∈ s'.code (.kernel p)) : (s'.d.proc p).chan = .proc p := by
  by_cases hold : (s.d.proc p).state = .sleeping
  · have hchan : (s.d.proc p).chan = .proc p := by
      rcases hs.mem_code hI hmem with hmem | ⟨ht, c, x, rest, exp, d', hcode, hexec, -, hnew⟩ | ⟨-, -, hno⟩
      · exact hW.waits p q a i b hold hmem
      · have hrun := hI.run h p ht.symm
        split at hrun
        · next hp =>
          rw [hcode] at hp
          obtain ⟨r, rfl⟩ := exec_parked hexec hp
          simp only [Sched.exec, Option.some.injEq, Prod.mk.injEq] at hexec
          obtain ⟨-, rfl, -⟩ := hexec
          simp at hnew
        · simp [hold] at hrun
      · exact absurd rfl (hno q a i b)
    rw [hs.chan_of_sleeping hI hold hst, hchan]
  · obtain ⟨ch, rest, -, hcode, hcode', hch⟩ := hs.falls_asleep hI hold hst
    rw [hcode'] at hmem
    rcases (hI.ok hcode).2.2.2 with hno | rfl
    · exact absurd hmem (hno q a i b)
    · exact hch

protected theorem step (hI : Inv s) (hF : Family s) (hW : WaitInv s) (hs : StepOf pol s h e s') :
    WaitInv s' where
  scanned _ _ _ hcur hm _ hj hp := hW.scanned_step hI hF hs hcur hm hj hp
  child _ _ _ _ hin := hW.child_step hI hF hs hin
  passed _ _ _ hr hq := hW.passed_step hI hs hr hq
  told _ _ _ _ hb hp := hW.told_step hI hF hs hb hp
  roused _ _ hz hp hc := hW.roused_step hI hF hs hz hp hc
  waits _ _ _ _ _ hst hmem := hW.waits_step hI hs hst hmem

protected theorem boot : WaitInv (boot n) := by
  have hrun : ∀ h, (Sys.boot n).running h = [schedLoop] := fun h => rfl
  refine ⟨?_, ?_, ?_, ?_, ?_, ?_⟩
  · intro h p k hcur
    simp [Sys.boot] at hcur
  · intro h p a j hin
    simp [hrun, inner] at hin
  · intro h q k hr
    simp [hrun, rousing, inner] at hr
  · intro h c st q hb
    simp [hrun, beyond] at hb
  · intro i q hz
    simp only [Sys.boot] at hz
    split at hz <;> simp at hz
  · intro p q a i b hst
    simp only [Sys.boot] at hst
    split at hst <;> simp at hst

end WaitInv

theorem Reachable.waitInv (hs : Reachable pol s) : WaitInv s := by
  obtain ⟨es, hrun⟩ := hs
  suffices h : (Inv s ∧ Family s) ∧ WaitInv s from h.2
  refine hrun.invariant (I := fun s => (Inv s ∧ Family s) ∧ WaitInv s) ?_
    ⟨⟨Inv.boot, Family.boot⟩, WaitInv.boot⟩
  rintro s e s' ⟨⟨hI, hF⟩, hW⟩ hstep
  obtain ⟨h, hs⟩ := hstep.stepOf
  exact ⟨⟨hI.step hstep, hF.step hI hs⟩, hW.step hI hF hs⟩

/-! ## Exits and reaps -/

/-- The event ends or frees a process in slot `i`. -/
def Ends (i : Slot) : Event n → Prop
  | .exited j _ _ => j = i
  | .reaped _ j _ _ => j = i
  | _ => False

def LastExit (es : List (Event n)) (i : Slot) (pid status : Int) : Prop :=
  ∃ before after, es = before ++ .exited i pid status :: after ∧ ∀ e ∈ after, ¬Ends i e

theorem LastExit.snoc {es : List (Event n)} {pid status : Int} (hl : LastExit es i pid status)
    (he : ¬Ends i e) : LastExit (es ++ [e]) i pid status := by
  obtain ⟨before, after, rfl, hafter⟩ := hl
  refine ⟨before, after ++ [e], by simp, fun x hx => ?_⟩
  rcases List.mem_append.1 hx with hx | hx
  · exact hafter x hx
  · obtain rfl : x = e := by simpa using hx
    exact he

/-- A zombie keeps its `pid` and exit status, and nothing more happens to it. -/
theorem StepOf.zombie_kept (hI : Inv s) (hs : StepOf pol s h e s')
    (hz : (s.d.proc i).state = .zombie) (hz' : (s'.d.proc i).state = .zombie) :
    ((s'.d.proc i).pid = (s.d.proc i).pid ∧ (s'.d.proc i).xstate = (s.d.proc i).xstate) ∧
      ¬Ends i e := by
  have hset : ∀ {st : Int} {rest : Code}, s.running h ≠ setZombie i st :: rest := by
    intro st rest hcode
    have hrun := hI.run h i (hI.ok hcode).1
    simp [hcode, parked, hz] at hrun
  cases hs with
  | exec hcode hx =>
    have hz' : (_ : Procstate) = .zombie := hz'
    refine ⟨?_, ?_⟩
    · rcases (exec_writes hx).exit_eq i with hsame | ⟨pid, rfl⟩ | ⟨st, rfl⟩ | hfree
      · exact hsame
      · have hnew := hI.fresh h i (by rw [hcode]; rfl)
        simp [hnew] at hz
      · exact absurd hcode hset
      · simp [hfree] at hz'
    · intro he
      cases exec_emits hx with
      | exited p st hi =>
        obtain rfl : p = i := he
        exact hset (hi ▸ hcode)
      | reaped p a j hi hz hd =>
        obtain rfl : j = i := he
        simp [hd, Data.freeproc, Data.setState] at hz'
      | _ => exact he
  | release hcode hi hown =>
    refine ⟨⟨rfl, rfl⟩, ?_⟩
    rcases hi with ⟨-, rfl⟩ | ⟨p, chan, -, rfl⟩ <;> exact id
  | _ => exact ⟨⟨rfl, rfl⟩, id⟩

theorem lastExit_of_run {es : List (Event n)} (hrun : Lib.Run (Step pol) (boot n) es s)
    (hz : (s.d.proc i).state = .zombie) : LastExit es i (s.d.proc i).pid (s.d.proc i).xstate := by
  suffices h : Inv s ∧ ∀ i, (s.d.proc i).state = .zombie →
      LastExit es i (s.d.proc i).pid (s.d.proc i).xstate from h.2 i hz
  refine hrun.history (I := fun es s => Inv s ∧ ∀ i, (s.d.proc i).state = .zombie →
    LastExit es i (s.d.proc i).pid (s.d.proc i).xstate) ?_ ⟨Inv.boot, ?_⟩
  · rintro es s e s' ⟨hI, hL⟩ hstep
    refine ⟨hI.step hstep, fun i hz' => ?_⟩
    obtain ⟨h, hs⟩ := hstep.stepOf
    rcases hs.zombie_new hI hz' with hz | ⟨st, rest, hcode⟩
    · obtain ⟨⟨hpid, hxs⟩, he⟩ := hs.zombie_kept hI hz hz'
      rw [hpid, hxs]
      exact (hL i hz).snoc he
    · cases hs with
      | exec hcode' hx =>
        obtain ⟨rfl, rfl⟩ := List.cons.inj (hcode'.symm.trans hcode)
        simp only [Sched.exec, Option.some.injEq, Prod.mk.injEq] at hx
        obtain ⟨rfl, -, rfl⟩ := hx
        exact ⟨es, [], by simp [Data.setState], by simp⟩
      | release hcode' hi =>
        obtain ⟨rfl, rfl⟩ := List.cons.inj (hcode'.symm.trans hcode)
        simp at hi
      | acquire hcode' | sched hcode' | swtch hcode' | forkret hcode' =>
        cases hcode'.symm.trans hcode
      | interrupt hnoff =>
        have hidle := (hI.idle_of_noff hnoff).1.2
        simp [hcode, plain] at hidle
  · intro i hz
    simp only [Sys.boot] at hz
    split at hz <;> simp at hz

theorem StepOf.reaped {pid : Int} {status : Option Int}
    (hs : StepOf pol s h (.reaped p i pid status) s') :
    ∃ a rest, s.running h = waitCheck p a i :: rest ∧ (s.d.proc i).state = .zombie ∧
      pid = (s.d.proc i).pid ∧ status = if a.addr = 0 then none else some (s.d.proc i).xstate := by
  generalize he : Event.reaped p i pid status = e at hs
  cases hs with
  | exec hcode hx =>
    subst he
    cases exec_emits hx with
    | reaped _ a _ hi hz hd =>
      subst hi
      exact ⟨a, _, hcode, hz, rfl, rfl⟩
  | release hcode hi =>
    rcases hi with ⟨-, rfl⟩ | ⟨_, _, -, rfl⟩ <;> cases he
  | _ => cases he

/-- Every reap is by the parent of a zombie and returns the pid and the status of the
exit that made it, which no other reap has taken.  While `wait_lock` is free, no
process sleeps in `wait` beside a zombie child.  At any time, every process but
`initproc` whose `fork` is complete has a parent that is neither free nor a zombie. -/
theorem wait_exit_protocol (pol : Policy) (es : List (Event n)) (s : Sys n)
    (hrun : Lib.Run (Step pol) (boot n) es s) :
    (∀ p i pid status s', s.Step pol (.reaped p i pid status) s' →
      (s.d.proc i).state = .zombie ∧ (s.d.proc i).parent = some p ∧
      ∃ h a rest, s.running h = waitCheck p a i :: rest ∧
        ∃ before after st, es = before ++ .exited i pid st :: after ∧
          (∀ e ∈ after, ¬Ends i e) ∧ status = if a.addr = 0 then none else some st) ∧
    (s.owner .waitLock = none → ∀ p q a k b, (s.d.proc p).state = .sleeping →
      waitScan q a k b ∈ s.code (.kernel p) →
      ∀ i, (s.d.proc i).parent = some p → (s.d.proc i).state ≠ .zombie) ∧
    (∀ i, i ≠ s.d.initproc → (s.d.proc i).state ≠ .unused →
      (s.d.proc i).state ≠ .used → ∃ q, (s.d.proc i).parent = some q ∧
        (s.d.proc q).state ≠ .unused ∧ (s.d.proc q).state ≠ .zombie) ∧
    (s.d.proc s.d.initproc).state ≠ .zombie := by
  have hr : Reachable pol s := ⟨es, hrun⟩
  have hI := hr.inv
  have hF := hr.family
  have hW := hr.waitInv
  refine ⟨?_, ?_, ?_, ?_⟩
  · intro p i pid status s' hstep
    obtain ⟨h, hs⟩ := hstep.stepOf
    obtain ⟨a, rest, hcode, hz, rfl, hst⟩ := hs.reaped
    have hp := hW.child h p a i (by rw [hcode]; rfl)
    obtain ⟨before, after, hes, hafter⟩ := lastExit_of_run hrun hz
    exact ⟨hz, hp, h, a, rest, hcode, before, after, _, hes, hafter, hst⟩
  · intro hfree p q a k b hst hmem i hp hz
    have hc : s.Committed p (.proc p) := .inl ⟨hst, hW.waits p q a k b hst hmem⟩
    obtain ⟨h, m, hro, -⟩ := hW.roused i p hz hp hc
    have hlk := rousing_held (hI.wf _) hro
    rw [← Sys.running, ← hI.own, hfree] at hlk
    simp at hlk
  · intro i hi hu hu'
    obtain ⟨q, hq⟩ := Option.ne_none_iff_exists'.1 (hF.born i hi hu hu')
    refine ⟨q, hq, ?_⟩
    rcases hF.parent i q hq with hst | hst | hst <;> simp [hst]
  · rcases hF.init with hst | hst | hst <;> simp [hst]

/-- The first process forks a child on hart 0; the child runs on hart 1 and exits with
status 7; then its parent calls `wait`. -/
def forkExitWait : List (Fin 2 × Choice) :=
  [goes 0 6, [(0, .done), (0, .syscall .fork)], goes 0 15, [(0, .succeeds true)], goes 0 12,
    goes 1 10, [(1, .syscall (.exit 7)), (1, .done)], goes 1 330,
    [(0, .go), (0, .syscall (.wait ⟨false, 64⟩))], goes 0 4].flatten

theorem wait_exit_protocol_child :
    ∃ (es : List (Event 2)) (s s' : Sys 2), Lib.Run (Step .dflt) (boot 2) es s ∧
      s.Step .dflt (.reaped 0 1 2 (some 7)) s' ∧ (s.d.proc 1).parent = some 0 ∧
      ∃ before after st, es = before ++ .exited 1 2 st :: after ∧ ∀ e ∈ after, ¬Ends 1 e := by
  have hcheck : ((boot 2).trace .dflt forkExitWait).any (fun x =>
      (x.1.step .dflt 0 (.succeeds true)).any fun y => decide (y.2 = .reaped 0 1 2 (some 7))) = true := by
    decide +kernel
  obtain ⟨⟨s, es⟩, hs, hcheck⟩ := (Option.any_eq_true _ _).1 hcheck
  obtain ⟨⟨s', e⟩, hstep, he⟩ := (Option.any_eq_true _ _).1 hcheck
  obtain rfl : e = _ := of_decide_eq_true he
  have hrun := (trace_run hs).2
  have hstep' : s.Step .dflt (.reaped 0 1 2 (some 7)) s' := ⟨0, _, hstep⟩
  obtain ⟨-, hp, -, -, -, -, before, after, st, hes, hafter, -⟩ :=
    (wait_exit_protocol .dflt es s hrun).1 0 1 2 (some 7) s' hstep'
  exact ⟨es, s, s', hrun, hstep', hp, before, after, st, hes, hafter⟩

end Sys

end Xv6.Sched
