import Xv6.Log.Moves

/-!
# Operations and the process that works on the log

At most one process at a time runs a commit or a recovery.  While it does no
operation is open, and `log.outstanding` counts the open operations.
-/

namespace Xv6.Log

open Instr Lib

variable {m : Nat} {cl : Clients} {sb : Superblock}

structure Local (cl : Clients) (sb : Superblock) (q : Proc) : Prop where
  wf : Wf sb q.code
  begins : beginOp ∈ q.code → q.op = none
  ends : endOp ∈ q.code → q.op.isSome ∧ (cl = .logged → ∀ x ∈ q.held, x.dirty = false)
  dirty : cl = .logged → ∀ x ∈ q.held, x.dirty = true → q.op.isSome
  keeps : cl = .logged → ∀ b, keep b ∈ q.code → sb.home b
  home : cl = .logged → ∀ x ∈ q.held, sb.home x.block

structure Control (cl : Clients) (sb : Superblock) (w : Option (Fin (m + 1))) (s : Sys m) : Prop where
  locals : ∀ q, Local cl sb (s.procs q)
  worker : ∀ q, (phase (s.procs q).code).isSome ↔ w = some q
  flag : w.isSome ↔ s.committing = true ∨ s.up = false
  first : s.up = false → w = some 0
  early : s.up = false → s.committing = false
  commits : ∀ q, endCommit ∈ (s.procs q).code → s.up = true
  boots : ∀ q, initDone ∈ (s.procs q).code → q = 0 ∧ s.up = false
  quiet : w.isSome → ∀ q, (s.procs q).op = none
  count : s.outstanding = ∑ q, if (s.procs q).op.isSome then 1 else 0

/-- The worker after process `p` has gone on to code `c`. -/
def after (w : Option (Fin (m + 1))) (p : Fin (m + 1)) (c : Code) : Option (Fin (m + 1)) :=
  if (phase c).isSome then some p else if w = some p then none else w

namespace Local

variable {q q' : Proc} {i : Instr} {c : Code}

/-- Going on to code that begins and ends no further operation. -/
theorem goto (h : Local cl sb q) (hwf : Wf sb q'.code)
    (hcalls : ∀ i ∈ q'.code, i = beginOp ∨ i = endOp ∨ (∃ b, i = keep b) → i ∈ q.code)
    (hop : q'.op = q.op) (hheld : ∀ x ∈ q'.held, x ∈ q.held) : Local cl sb q' where
  wf := hwf
  begins hb := by rw [hop, h.begins (hcalls _ hb (.inl rfl))]
  ends he := by
    have hends := h.ends (hcalls _ he (.inr (.inl rfl)))
    rw [hop]
    exact ⟨hends.1, fun hcl x hx => hends.2 hcl x (hheld x hx)⟩
  dirty hcl x hx hd := by
    rw [hop]
    exact h.dirty hcl x (hheld x hx) hd
  keeps hcl b hb := h.keeps hcl b (hcalls _ hb (.inr (.inr ⟨b, rfl⟩)))
  home hcl x hx := h.home hcl x (hheld x hx)

theorem pop (h : Local cl sb q) (hcode : q.code = i :: c) (hc : q'.code = c) (hop : q'.op = q.op)
    (hheld : q'.held = q.held) : Local cl sb q' := by
  have hwf := h.wf
  rw [hcode] at hwf
  apply h.goto
  · rw [hc]
    exact hwf.tail
  · intro j hj _
    rw [hc] at hj
    simp [hcode, hj]
  · exact hop
  · simp [hheld]

end Local

variable {i : Instr} {c c' : Code}

section Codes

variable {t b : Nat} {c : Code} {f : Bool}

theorem phase_writeLogCode : phase (writeLogCode sb t b ++ c) = some (.writing t (some b)) := rfl

theorem phase_installCode : phase (installCode sb f t b ++ c) = some (.installing t (some b)) := rfl

theorem phase_commitCode : phase (commitCode sb ++ c) = some (.writing 0 none) := rfl

/-- Only the ends of a commit and of a recovery stop the work on the log. -/
theorem phase_tail (h : Wf sb (i :: c)) (hi : i ≠ endCommit ∧ i ≠ initDone) :
    (phase c).isSome = (phase (i :: c)).isSome := by
  have hok := h.ok
  cases i with
  | bwrite k =>
    cases k <;> simp only [Ok] at hok
    case slot => simp [phase, hok.2.1]
    case header => rcases hok.2.1 with hp | hp <;> simp [phase, hp]
    case home => simp [phase, hok.2.1]
  | bunpin k b => rfl
  | toLog k b =>
    obtain ⟨-, c', rfl⟩ := hok
    rfl
  | toHome k b =>
    obtain ⟨-, c', rfl⟩ := hok
    rfl
  | getHead | clearHead | writeLog | installTrans | commit => simp [phase, hok.2.1]
  | endCommit => exact absurd rfl hi.1
  | initDone => exact absurd rfl hi.2
  | beginOp | endOp =>
    obtain rfl : c = [client] := hok
    rfl
  | keep b =>
    obtain rfl : c = [client] := hok
    rfl
  | client =>
    obtain rfl : c = [] := hok
    rfl
  | bget | bread | releasesleep | brelse | setHead => rfl

end Codes

namespace Control

variable {w : Option (Fin (m + 1))} {s t : Sys m} {p : Fin (m + 1)}

theorem after_eq (h : Control cl sb w s)
    (hphase : (phase (t.procs p).code).isSome = (phase (s.procs p).code).isSome) :
    after w p (t.procs p).code = w := by
  have hw := h.worker p
  unfold after
  rw [hphase]
  by_cases hp : w = some p
  · rw [if_pos (hw.2 hp), hp]
  · rw [if_neg fun hs => hp (hw.1 hs), if_neg hp]

theorem worker_after (h : Control cl sb w s) (hother : s.Only t p)
    (hnew : (phase (t.procs p).code).isSome → w = none ∨ w = some p) (q : Fin (m + 1)) :
    (phase (t.procs q).code).isSome ↔ after w p (t.procs p).code = some q := by
  have hw := h.worker q
  unfold after
  by_cases hq : q = p
  · subst hq
    by_cases hs : (phase (t.procs q).code).isSome
    · simp [hs]
    · by_cases hwq : w = some q <;> simp [hs, hwq]
  · rw [hother q hq, hw]
    by_cases hs : (phase (t.procs p).code).isSome
    · rw [if_pos hs]
      rcases hnew hs with rfl | rfl <;> simp [Ne.symm hq]
    · rw [if_neg hs]
      by_cases hwp : w = some p
      · simp [hwp, Ne.symm hq]
      · rw [if_neg hwp]

theorem locals_after (h : Control cl sb w s) (hother : s.Only t p)
    (hlocal : Local cl sb (t.procs p)) (q : Fin (m + 1)) : Local cl sb (t.procs q) := by
  by_cases hq : q = p
  · rw [hq]
    exact hlocal
  · rw [hother q hq]
    exact h.locals q

theorem mem_after (hother : s.Only t p) (hself : i ∉ (t.procs p).code) {q : Fin (m + 1)}
    (hq : i ∈ (t.procs q).code) :
    q ≠ p ∧ i ∈ (s.procs q).code := by
  have hne : q ≠ p := by
    rintro rfl
    exact hself hq
  rw [hother q hne] at hq
  exact ⟨hne, hq⟩

/-- A move that leaves the operations and the work on the log as they are. -/
theorem plain (h : Control cl sb w s) (hother : s.Only t p) (hlocal : Local cl sb (t.procs p))
    (hphase : (phase (t.procs p).code).isSome = (phase (s.procs p).code).isSome)
    (hmark : ∀ i, i = endCommit ∨ i = initDone → i ∈ (t.procs p).code → i ∈ (s.procs p).code)
    (hop : (t.procs p).op = (s.procs p).op) (hcommit : t.committing = s.committing)
    (hup : t.up = s.up) (hout : t.outstanding = s.outstanding) :
    Control cl sb (after w p (t.procs p).code) t := by
  have hmarks : ∀ i, i = endCommit ∨ i = initDone → ∀ q, i ∈ (t.procs q).code →
      i ∈ (s.procs q).code := by
    intro i hi q hmem
    by_cases hq : q = p
    · subst hq
      exact hmark i hi hmem
    · rwa [hother q hq] at hmem
  have hops : ∀ q, (t.procs q).op = (s.procs q).op := by
    intro q
    by_cases hq : q = p
    · rw [hq, hop]
    · rw [hother q hq]
  have hnew : (phase (t.procs p).code).isSome → w = none ∨ w = some p := by
    intro hs
    rw [hphase] at hs
    exact .inr ((h.worker p).1 hs)
  have hworker := h.worker_after hother hnew
  rw [h.after_eq hphase] at hworker ⊢
  constructor
  case locals => exact h.locals_after hother hlocal
  case worker => exact hworker
  case flag => rw [hcommit, hup, h.flag]
  case first =>
    rw [hup]
    exact h.first
  case early =>
    rw [hup, hcommit]
    exact h.early
  case commits =>
    intro q hq
    rw [hup]
    exact h.commits q (hmarks _ (.inl rfl) q hq)
  case boots =>
    intro q hq
    rw [hup]
    exact h.boots q (hmarks _ (.inr rfl) q hq)
  case quiet =>
    intro hw q
    rw [hops]
    exact h.quiet hw q
  case count =>
    rw [hout, h.count]
    simp only [hops]

theorem local_code (h : Control cl sb w s)
    (hcode : (s.procs p).code = i :: c) : Wf sb (i :: c) := by
  rw [← hcode]
  exact (h.locals p).wf

/-- A move to the rest of the code that leaves the operations as they are. -/
theorem pop (h : Control cl sb w s) (hcode : (s.procs p).code = i :: c)
    (hi : i ≠ endCommit ∧ i ≠ initDone) (hother : s.Only t p) (hc : (t.procs p).code = c)
    (hop : (t.procs p).op = (s.procs p).op) (hheld : (t.procs p).held = (s.procs p).held)
    (hcommit : t.committing = s.committing) (hup : t.up = s.up)
    (hout : t.outstanding = s.outstanding) :
    Control cl sb (after w p (t.procs p).code) t := by
  apply h.plain hother _ _ _ hop hcommit hup hout
  · exact (h.locals p).pop hcode hc hop hheld
  · rw [hc, hcode]
    exact phase_tail (h.local_code hcode) hi
  · intro j _ hj
    rw [hc] at hj
    simp [hcode, hj]

theorem up_of_idle (h : Control cl sb none s) : s.up = true := by
  cases hup : s.up with
  | true => rfl
  | false => cases h.first hup

theorem idle_of_op (h : Control cl sb w s) (hop : (s.procs p).op.isSome) : w = none := by
  cases w with
  | none => rfl
  | some q =>
    rw [h.quiet rfl p] at hop
    cases hop

theorem outstanding_pos (h : Control cl sb w s) (hop : (s.procs p).op.isSome) :
    0 < s.outstanding := by
  rw [h.count]
  apply Finset.sum_pos' (fun _ _ => Nat.zero_le _)
  exact ⟨p, Finset.mem_univ p, by simp [hop]⟩

theorem idle_of_outstanding (h : Control cl sb w s) (hout : 0 < s.outstanding) : w = none := by
  cases w with
  | none => rfl
  | some q =>
    have hzero : s.outstanding = 0 := by
      rw [h.count]
      exact Finset.sum_eq_zero fun p _ => by simp [h.quiet rfl p]
    omega

theorem committing_of_op (h : Control cl sb w s) (hop : (s.procs p).op.isSome) :
    s.committing = false := by
  have hw := h.idle_of_op hop
  subst hw
  have hflag := h.flag
  simp only [Option.isSome_none, Bool.false_eq_true, false_iff, not_or] at hflag
  simpa using hflag.1

/-- The worker of a machine that commits nothing and has booted. -/
theorem idle (h : Control cl sb w s) (hc : s.committing = false) (hup : s.up = true) : w = none := by
  cases w with
  | none => rfl
  | some q =>
    have hflag := h.flag.1 rfl
    simp [hc, hup] at hflag

theorem count_after (h : Control cl sb w s) (hother : s.Only t p) :
    ∑ q, (if (t.procs q).op.isSome then 1 else 0) + (if (s.procs p).op.isSome then 1 else 0) =
      s.outstanding + if (t.procs p).op.isSome then 1 else 0 := by
  rw [h.count]
  exact sum_change (f := fun q => if (s.procs q).op.isSome then 1 else 0)
    (g := fun q => if (t.procs q).op.isSome then 1 else 0) p fun q hq => by rw [hother q hq]

theorem booted (h : Control cl sb w s) (hup : s.up = true ∨ p = 0)
    (hphase : phase (s.procs p).code = none) : s.up = true := by
  rcases hup with hu | rfl
  · exact hu
  · cases hu : s.up with
    | true => rfl
    | false =>
      have hsome := (h.worker 0).2 (h.first hu)
      simp [hphase] at hsome

theorem enter (h : Control cl sb w s) (hcode : (s.procs p).code = beginOp :: c)
    (hup : s.up = true ∨ p = 0) (hc : s.committing = false) :
    Control cl sb none (s.enter.setProc p fun q =>
      { q with op := some s.ops, logged := [], code := c }) := by
  have hlocal := h.locals p
  obtain rfl : c = [client] := (h.local_code hcode).ok
  have hphase : phase (s.procs p).code = none := by rw [hcode]; rfl
  have hop : (s.procs p).op = none := hlocal.begins (by simp [hcode])
  have hbooted := h.booted hup hphase
  obtain rfl := h.idle hc hbooted
  have hother := Sys.Only.proc (s := s) (p := p) (f := fun q =>
    { q with op := some s.ops, logged := [], code := [client] }) (X := s.enter) rfl
  constructor
  case locals =>
    apply h.locals_after hother
    rw [Sys.setProc_procs_self]
    exact ⟨wf_client, by simp, by simp, by simp, by simp, hlocal.home⟩
  case worker =>
    intro q
    by_cases hq : q = p
    · subst hq
      simp [phase]
    · rw [hother q hq]
      exact h.worker q
  case flag => exact h.flag
  case first => exact h.first
  case early => exact h.early
  case commits => exact fun _ _ => hbooted
  case boots =>
    intro q hq
    exact h.boots q (mem_after hother (by simp) hq).2
  case quiet => simp
  case count =>
    have hsum := h.count_after hother
    simp only [hop, Sys.setProc_procs_self, Option.isSome_none, Option.isSome_some] at hsum
    simpa [Sys.enter] using hsum.symm

theorem local_endOp (h : Control cl sb w s) (hcode : (s.procs p).code = endOp :: c) (hwf : Wf sb c')
    (hend : endOp ∉ c') (hkeep : ∀ b, keep b ∉ c') :
    Local cl sb { s.procs p with op := none, logged := [], code := c' } where
  wf := hwf
  begins _ := rfl
  ends he := absurd he hend
  dirty hcl x hx hd := by
    have hclean := ((h.locals p).ends (by simp [hcode])).2 hcl x hx
    simp [hclean] at hd
  keeps _ b hb := absurd hb (hkeep b)
  home := (h.locals p).home

theorem endLast (h : Control cl sb w s) (hcode : (s.procs p).code = endOp :: c)
    (hout : s.outstanding - 1 = 0) :
    Control cl sb (some p) ((s.retire.setCommitting true).setProc p fun q =>
      { q with op := none, logged := [], code := [commit, endCommit] ++ c }) := by
  obtain rfl : c = [client] := (h.local_code hcode).ok
  have hop := ((h.locals p).ends (by simp [hcode])).1
  obtain rfl := h.idle_of_op hop
  have hpos := h.outstanding_pos hop
  have hother := Sys.Only.proc (s := s) (p := p) (f := fun q =>
    { q with op := none, logged := [], code := [commit, endCommit, client] })
    (X := s.retire.setCommitting true) rfl
  show Control cl sb (some p) ((s.retire.setCommitting true).setProc p fun q =>
    { q with op := none, logged := [], code := [commit, endCommit, client] })
  have hsum := h.count_after hother
  simp only [hop, Sys.setProc_procs_self, Option.isSome_none, Bool.false_eq_true, if_true,
    if_false] at hsum
  constructor
  case locals =>
    apply h.locals_after hother
    rw [Sys.setProc_procs_self]
    exact h.local_endOp hcode (wf_call (b := 0)).2.2.1 (by simp) (by simp)
  case worker =>
    intro q
    by_cases hq : q = p
    · subst hq
      simp [phase]
    · rw [hother q hq, h.worker q]
      simp [Ne.symm hq]
  case flag => simp [Sys.setCommitting]
  case first =>
    intro hup
    exact absurd (h.up_of_idle.symm.trans hup) (by decide)
  case early =>
    intro hup
    exact absurd (h.up_of_idle.symm.trans hup) (by decide)
  case commits => exact fun _ _ => h.up_of_idle
  case boots =>
    intro q hq
    exact h.boots q (mem_after hother (by simp) hq).2
  case quiet =>
    intro _ q
    -- the last operation is the only one
    by_contra hne
    have hq : 0 < ∑ q, if ((((s.retire.setCommitting true).setProc p fun q =>
        { q with op := none, logged := [], code := [commit, endCommit, client] }).procs q).op.isSome)
        then 1 else 0 := by
      apply Finset.sum_pos' (fun _ _ => Nat.zero_le _)
      refine ⟨q, Finset.mem_univ q, ?_⟩
      rw [if_pos (Option.isSome_iff_ne_none.2 hne)]
      exact Nat.one_pos
    omega
  case count =>
    show s.outstanding - 1 = _
    omega

theorem endEarly (h : Control cl sb w s) (hcode : (s.procs p).code = endOp :: c) :
    Control cl sb none (s.retire.wakeup.setProc p fun q =>
      { q with op := none, logged := [], code := c }) := by
  obtain rfl : c = [client] := (h.local_code hcode).ok
  have hop := ((h.locals p).ends (by simp [hcode])).1
  obtain rfl := h.idle_of_op hop
  have hother := Sys.Only.proc (s := s) (p := p) (f := fun q =>
    { q with op := none, logged := [], code := [client] }) (X := s.retire.wakeup) rfl
  have hsum := h.count_after hother
  simp only [hop, Sys.setProc_procs_self, Option.isSome_none, Bool.false_eq_true, if_true,
    if_false] at hsum
  constructor
  case locals =>
    apply h.locals_after hother
    rw [Sys.setProc_procs_self]
    exact h.local_endOp hcode wf_client (by simp) (by simp)
  case worker =>
    intro q
    by_cases hq : q = p
    · subst hq
      simp [phase]
    · rw [hother q hq]
      exact h.worker q
  case flag => exact h.flag
  case first => exact h.first
  case early => exact h.early
  case commits => exact fun _ _ => h.up_of_idle
  case boots =>
    intro q hq
    exact h.boots q (mem_after hother (by simp) hq).2
  case quiet => simp
  case count =>
    show s.outstanding - 1 = _
    omega

theorem finish {X : Sys m} (h : Control cl sb w s) (hcode : (s.procs p).code = i :: c)
    (hi : i = endCommit ∨ i = initDone) (hX : X.procs = s.procs)
    (hout : X.outstanding = s.outstanding) (hcommit : X.committing = false) (hup : X.up = true) :
    Control cl sb none (X.goto p c) := by
  have hwf := h.local_code hcode
  have hphase : (phase (s.procs p).code).isSome := by
    rw [hcode]
    rcases hi with rfl | rfl <;> rfl
  obtain rfl : c = [client] := by
    rcases hi with rfl | rfl <;> exact hwf.ok
  obtain rfl := (h.worker p).1 hphase
  have hother := Sys.Only.proc (s := s) (p := p) (f := fun q => { q with code := [client] }) hX
  have hlocal : Local cl sb { s.procs p with code := [client] } :=
    (h.locals p).pop hcode rfl rfl rfl
  have hops : ∀ q, ((X.goto p [client]).procs q).op = none := by
    intro q
    by_cases hq : q = p
    · subst hq
      simp [hX, h.quiet rfl q]
    · rw [Sys.goto_eq, hother q hq, h.quiet rfl q]
  constructor
  case locals =>
    apply h.locals_after hother
    rw [Sys.setProc_procs_self, hX]
    exact hlocal
  case worker =>
    intro q
    by_cases hq : q = p
    · subst hq
      simp [phase]
    · rw [Sys.goto_eq, hother q hq, h.worker q]
      simp [Ne.symm hq]
  case flag => simp [hcommit, hup]
  case first => simp [hup]
  case early => simp [hup]
  case commits => simp [hup]
  case boots =>
    intro q hq
    obtain ⟨hqp, hold⟩ := mem_after hother (by simp) hq
    obtain ⟨hq0, hdown⟩ := h.boots q hold
    rcases hi with rfl | rfl
    · rw [h.commits p (by simp [hcode])] at hdown
      cases hdown
    · obtain ⟨hp0, -⟩ := h.boots p (by simp [hcode])
      exact absurd (hq0.trans hp0.symm) hqp
  case quiet => simp
  case count =>
    have hzero := h.count
    simp only [h.quiet rfl, Option.isSome_none] at hzero
    simp only [hops, Option.isSome_none]
    simpa [hout] using hzero

theorem expand (h : Control cl sb w s) (hcode : (s.procs p).code = i :: c) (hwf : Wf sb (c' ++ c))
    (hphase : (phase (c' ++ c)).isSome = (phase (i :: c)).isSome)
    (hnew : ∀ j ∈ [beginOp, endOp, endCommit, initDone], j ∉ c') (hkeep : ∀ b, keep b ∉ c') :
    Control cl sb (after w p ((s.goto p (c' ++ c)).procs p).code) (s.goto p (c' ++ c)) := by
  have hold : ∀ j, j ∉ c' → j ∈ c' ++ c → j ∈ (s.procs p).code := by
    intro j hj hmem
    rw [hcode]
    rcases List.mem_append.1 hmem with hc' | hc
    · exact absurd hc' hj
    · exact List.mem_cons_of_mem i hc
  apply h.plain (.proc rfl)
  · apply (h.locals p).goto
    · simpa using hwf
    · intro j hj hcall
      rw [Sys.setProc_procs_self] at hj
      apply hold j _ hj
      rcases hcall with rfl | rfl | ⟨b, rfl⟩
      · exact hnew _ (by simp)
      · exact hnew _ (by simp)
      · exact hkeep b
    · simp
    · simp
  · simp [hcode, hphase]
  · rintro j (rfl | rfl) hj
    · exact hold _ (hnew _ (by simp)) (by simpa using hj)
    · exact hold _ (hnew _ (by simp)) (by simpa using hj)
  · simp
  · rfl
  · rfl
  · rfl

theorem stay (h : Control cl sb w s) (hcode : (s.procs p).code = client :: c) (hother : s.Only t p)
    (hc : (t.procs p).code = (s.procs p).code) (hop : (t.procs p).op = (s.procs p).op)
    (hdirty : cl = .logged → ∀ x ∈ (t.procs p).held, x.dirty = true → (s.procs p).op.isSome)
    (hhome : cl = .logged → ∀ x ∈ (t.procs p).held, sb.home x.block) (hcommit : t.committing = s.committing)
    (hup : t.up = s.up) (hout : t.outstanding = s.outstanding) :
    Control cl sb (after w p (t.procs p).code) t := by
  obtain rfl : c = [] := (h.local_code hcode).ok
  apply h.plain hother _ (by rw [hc]) (by rw [hc]; exact fun _ _ hj => hj) hop hcommit hup hout
  constructor
  case wf =>
    rw [hc]
    exact (h.locals p).wf
  case begins => simp [hc, hcode]
  case ends => simp [hc, hcode]
  case dirty =>
    rw [hop]
    exact hdirty
  case keeps => simp [hc, hcode]
  case home => exact hhome

theorem mem_set_held {q : Proc} {k : Nat} {x y : Held} {f : Bool} (hx : q.held[k]? = some x)
    (hy : y ∈ q.held.set k { x with dirty := f }) :
    y ∈ q.held ∨ (y.block = x.block ∧ y.dirty = f ∧ x ∈ q.held) := by
  rcases List.mem_or_eq_of_mem_set hy with hy | rfl
  · exact .inl hy
  · exact .inr ⟨rfl, rfl, List.mem_of_getElem? hx⟩

theorem mark {k : Nat} {x : Held} {f : Bool} (h : Control cl sb w s)
    (hcode : (s.procs p).code = client :: c) (hx : (s.procs p).held[k]? = some x)
    (hop : cl = .logged → f = true → (s.procs p).op.isSome) (hother : s.Only t p)
    (hc : (t.procs p).code = (s.procs p).code) (hop' : (t.procs p).op = (s.procs p).op)
    (hheld : (t.procs p).held = (s.procs p).held.set k { x with dirty := f })
    (hcommit : t.committing = s.committing) (hup : t.up = s.up)
    (hout : t.outstanding = s.outstanding) : Control cl sb (after w p (t.procs p).code) t := by
  apply h.stay hcode hother hc hop' _ _ hcommit hup hout
  · intro hcl y hy hd
    rw [hheld] at hy
    rcases mem_set_held hx hy with hy | ⟨-, hf, -⟩
    · exact (h.locals p).dirty hcl y hy hd
    · exact hop hcl (hf ▸ hd)
  · intro hcl y hy
    rw [hheld] at hy
    rcases mem_set_held hx hy with hy | ⟨hb, -, hx⟩
    · exact (h.locals p).home hcl y hy
    · rw [hb]
      exact (h.locals p).home hcl x hx

theorem branch (h : Control cl sb w s) (hcode : (s.procs p).code = client :: c)
    (hother : s.Only t p) (hc : (t.procs p).code = c') (hlocal : Local cl sb (t.procs p))
    (hphase : phase c' = none) (hmark : endCommit ∉ c' ∧ initDone ∉ c')
    (hop : (t.procs p).op = (s.procs p).op) (hcommit : t.committing = s.committing)
    (hup : t.up = s.up)
    (hout : t.outstanding = s.outstanding) : Control cl sb (after w p (t.procs p).code) t := by
  apply h.plain hother hlocal _ _ hop hcommit hup hout
  · rw [hc, hphase, hcode]
    rfl
  · rw [hc]
    rintro j (rfl | rfl) hj
    · exact absurd hj hmark.1
    · exact absurd hj hmark.2

theorem step {e : Event} (h : Control cl sb w s) (hcode : (s.procs p).code = i :: c)
    (hup : s.up = true ∨ p = 0)
    (hm : Move cl sb s p c i t e) : Control cl sb (after w p (t.procs p).code) t := by
  have hwf := h.local_code hcode
  have hlocal := h.locals p
  have hlive : phase c = none → (w = none ∨ w = some p) → after w p c = none := by
    intro hphase hw
    rcases hw with rfl | rfl <;> simp [after, hphase]
  cases hm with
  | hit | recycle | bread | releasesleep | brelse | bwrite | bunpin | toLog | toHome | setHead
  | getHead | clearHead | writeLogDone | installDone | commitEmpty =>
    exact h.pop hcode ⟨by simp, by simp⟩ (.proc rfl) (by simp) (by simp) (by simp) rfl rfl rfl
  | writeLog hb =>
    exact h.expand hcode (wf_writeLogCode hwf) rfl
      (by simp [writeLogCode, breadCode, brelseCode]) (by simp [writeLogCode, breadCode, brelseCode])
  | @install f t b hb =>
    exact h.expand hcode (wf_installCode hwf) rfl
      (by cases f <;> simp [installCode, breadCode, brelseCode])
      (by cases f <;> simp [installCode, breadCode, brelseCode])
  | commit hlh =>
    exact h.expand hcode (wf_commitCode hwf) rfl
      (by simp [commitCode, writeHead, breadCode, brelseCode])
      (by simp [commitCode, writeHead, breadCode, brelseCode])
  | endCommit =>
    have hw : w = some p := (h.worker p).1 (by rw [hcode]; rfl)
    have hbooted := h.commits p (by simp [hcode])
    simp only [Sys.goto_eq, Sys.setProc_procs_self]
    rw [hlive (by rw [show c = [client] from hwf.ok]; rfl) (.inr hw)]
    exact h.finish hcode (.inl rfl) rfl rfl rfl hbooted
  | initDone =>
    have hw : w = some p := (h.worker p).1 (by rw [hcode]; rfl)
    have hdown := (h.boots p (by simp [hcode])).2
    simp only [Sys.goto_eq, Sys.setProc_procs_self]
    rw [hlive (by rw [show c = [client] from hwf.ok]; rfl) (.inr hw)]
    exact h.finish hcode (.inr rfl) rfl rfl (h.early hdown) rfl
  | sleep | panic =>
    exact h.plain (fun _ _ => rfl) hlocal rfl (fun _ _ hj => hj) rfl rfl rfl rfl
  | tooBig | outside =>
    refine h.plain (.proc rfl) ?_ (by simp) (by simp) (by simp) rfl rfl rfl
    simpa using ⟨hlocal.wf, hlocal.begins, hlocal.ends, hlocal.dirty, hlocal.keeps, hlocal.home⟩
  | enter hc hroom =>
    have hphase : phase (s.procs p).code = none := by rw [hcode]; rfl
    have hw := h.idle hc (h.booted hup hphase)
    simp only [Sys.setProc_procs_self]
    rw [hlive (by rw [show c = [client] from hwf.ok]; rfl) (.inl hw)]
    exact h.enter hcode hup hc
  | endLast hc hout he =>
    have hctl := h.endLast hcode hout
    simpa [after, phase] using hctl
  | endEarly hc hout he =>
    have hw := h.idle_of_op (hlocal.ends (by simp [hcode])).1
    simp only [Sys.setProc_procs_self]
    rw [hlive (by rw [show c = [client] from hwf.ok]; rfl) (.inl hw)]
    exact h.endEarly hcode
  | @keep b =>
    obtain rfl : c = [client] := hwf.ok
    apply h.plain (.proc rfl) _ (by simp [hcode, phase]) (by simp) (by simp) rfl rfl rfl
    rw [Sys.setProc_procs_self]
    constructor
    case wf => exact hwf.tail
    case begins => simp
    case ends => simp
    case dirty =>
      intro hcl y hy hd
      rcases List.mem_cons.1 hy with rfl | hy
      · cases hd
      · exact hlocal.dirty hcl y hy hd
    case keeps => simp
    case home =>
      intro hcl y hy
      rcases List.mem_cons.1 hy with rfl | hy
      · exact hlocal.keeps hcl b (by simp [hcode])
      · exact hlocal.home hcl y hy
  | start hop =>
    obtain rfl : c = [] := hwf.ok
    apply h.branch hcode (.proc rfl) (by simp; rfl) _ rfl (by simp) (by simp) rfl rfl rfl
    rw [Sys.setProc_procs_self]
    exact ⟨(wf_call (b := 0)).1, fun _ => hop, by simp, hlocal.dirty, by simp, hlocal.home⟩
  | read hb =>
    obtain rfl : c = [] := hwf.ok
    apply h.branch hcode (.proc rfl) (by simp; rfl) _ rfl (by simp [breadCode]) (by simp)
      rfl rfl rfl
    rw [Sys.setProc_procs_self]
    refine ⟨wf_call.2.2.2.2, by simp [breadCode], by simp [breadCode], hlocal.dirty, ?_, hlocal.home⟩
    intro hcl b' hb'
    simp [breadCode] at hb'
    exact hb' ▸ hb hcl
  | modify hx hop =>
    exact h.mark (f := true) hcode hx (fun hcl _ => hop hcl) (.proc rfl) (by simp) (by simp)
      (by simp) rfl rfl rfl
  | absorb hx | append hx | flush hx =>
    exact h.mark (f := false) hcode hx (by simp) (.proc rfl) (by simp) (by simp) (by simp)
      rfl rfl rfl
  | drop hx hclean =>
    obtain rfl : c = [] := hwf.ok
    apply h.branch hcode (.proc rfl) (by simp; rfl) _ rfl (by simp [brelseCode]) (by simp)
      rfl rfl rfl
    rw [Sys.setProc_procs_self]
    refine ⟨?_, by simp [brelseCode], by simp [brelseCode], ?_, by simp [brelseCode], ?_⟩
    · exact wf_call.2.2.2.1
    · exact fun hcl y hy => hlocal.dirty hcl y (List.mem_of_mem_eraseIdx hy)
    · exact fun hcl y hy => hlocal.home hcl y (List.mem_of_mem_eraseIdx hy)
  | finish hop hclean =>
    obtain rfl : c = [] := hwf.ok
    apply h.branch hcode (.proc rfl) (by simp; rfl) _ rfl (by simp) (by simp) rfl rfl rfl
    rw [Sys.setProc_procs_self]
    exact ⟨(wf_call (b := 0)).2.1, by simp, fun _ => ⟨hop, hclean⟩, hlocal.dirty, by simp, hlocal.home⟩
  | endPanic hc =>
    rw [h.committing_of_op (hlocal.ends (by simp [hcode])).1] at hc
    cases hc

theorem boot {d : Disk} {n : Nat} : Control cl sb (some 0) (Log.boot sb d n : Sys m) := by
  have hcode : ∀ q : Fin (m + 1), ((Log.boot sb d n : Sys m).procs q).code =
      if q = 0 then recoverFromLog sb ++ [initDone, client] else [client] := fun _ => rfl
  have hmem : ∀ j ∈ [beginOp, endOp, endCommit], j ∉ recoverFromLog sb ++ [initDone, client] := by
    simp [recoverFromLog, readHead, writeHead, breadCode, brelseCode]
  constructor
  case locals =>
    intro q
    by_cases hq : q = 0
    · subst hq
      constructor
      case wf => exact wf_recover
      case begins => exact fun hb => absurd hb (hmem _ (by simp))
      case ends => exact fun he => absurd he (hmem _ (by simp))
      case keeps =>
        intro _ b hb
        simp [hcode, recoverFromLog, readHead, writeHead, breadCode, brelseCode] at hb
      case dirty => simp [Log.boot]
      case home => simp [Log.boot]
    · constructor
      case wf =>
        rw [hcode, if_neg hq]
        exact wf_client
      case begins => simp [hcode, hq]
      case ends => simp [hcode, hq]
      case keeps => simp [hcode, hq]
      case dirty => simp [Log.boot]
      case home => simp [Log.boot]
  case worker =>
    intro q
    rw [hcode]
    by_cases hq : q = 0
    · simp [hq, recoverFromLog, readHead, breadCode, phase]
    · simp [hq, Ne.symm hq, phase]
  case flag => simp [Log.boot]
  case first => simp
  case early => simp [Log.boot]
  case commits =>
    intro q hq
    rw [hcode] at hq
    split at hq
    · exact absurd hq (hmem _ (by simp))
    · simp at hq
  case boots =>
    intro q hq
    rw [hcode] at hq
    split at hq
    next h0 => exact ⟨h0, rfl⟩
    next => simp at hq
  case quiet => exact fun _ _ => rfl
  case count => simp [Log.boot]

end Control

end Xv6.Log
