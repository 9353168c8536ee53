import Xv6.Log.Control

/-!
# Operations and commits

`begin_op`, `log_write` and `end_op` against the process that commits: what
`log.lh` is while a commit goes through its phases, and that no operation is
admitted into a commit, left in the log, or put to sleep with nobody to wake it.
-/

namespace Xv6.Log

open Instr Lib

variable {m : Nat} {cl : Clients} {sb : Superblock}

/-- What a phase says about the log: the block of the round under way is the one
at its position, and from `clearHead` on the log is empty. -/
def Phase.Fits (lh : List Nat) : Phase → Prop
  | writing t (some b) => lh[t]? = some b
  | installing t (some b) => lh[t]? = some b
  | clearing => lh = []
  | closing => lh = []
  | _ => True

structure Operations (s : Sys m) : Prop where
  fits : ∀ q k, phase (s.procs q).code = some k → k.Fits s.lh
  unpin : ∀ q n b c, (s.procs q).code = bunpin n b :: c → s.lh[n]? = some b
  drained : s.up = true → s.committing = false → s.outstanding = 0 → s.lh = []
  nodup : s.up = true → s.lh.Nodup
  asleep : ∀ q, s.asleep q = true → s.committing = true ∨ 1 ≤ s.outstanding

/-- Popping an instruction leaves the phase right about the log. -/
theorem fits_tail {i : Instr} {c : Code} {lh : List Nat} (h : Wf sb (i :: c))
    (hfits : ∀ k, phase (i :: c) = some k → k.Fits lh) (hcommit : i = commit → lh = [])
    (hclear : i ≠ clearHead) (k : Phase) (hk : phase c = some k) : k.Fits lh := by
  have hok := h.ok
  cases i with
  | bget | bread | releasesleep | brelse | bunpin | setHead => exact hfits k hk
  | bwrite n =>
    cases n with
    | slot n b =>
      rw [hok.2.1] at hk
      cases hk
      trivial
    | header =>
      rcases hok.2.1 with hphase | hphase <;> rw [hphase] at hk <;> cases hk
      · exact hfits .clearing (by simp [phase, hphase])
      · trivial
    | home n b =>
      rw [hok.2.1] at hk
      cases hk
      trivial
  | toLog n b =>
    obtain ⟨-, c', rfl⟩ := hok
    exact hfits k hk
  | toHome n b =>
    obtain ⟨-, c', rfl⟩ := hok
    exact hfits k hk
  | clearHead => exact absurd rfl hclear
  | getHead | writeLog | installTrans =>
    rw [hok.2.1] at hk
    cases hk
    trivial
  | commit =>
    rw [hok.2.1] at hk
    cases hk
    exact hcommit rfl
  | endCommit | initDone | beginOp | endOp | keep =>
    obtain rfl : c = [client] := hok
    cases hk
  | client =>
    obtain rfl : c = [] := hok
    cases hk

/-- Outside recovery a block of the log that is no longer pinned has been installed. -/
theorem installed_of_not_pinned {c : Code} {lh : List Nat} {k b : Nat} {f : Phase} (h : Wf sb c)
    (hinit : initDone ∉ c) (hphase : phase c = some f) (hfits : f.Fits lh) (hb : lh[k]? = some b)
    (hpin : b ∉ pins lh c) :
    (∃ n o, f = .installing n o ∧ k < n) ∨ f = .installed := by
  have hdrop : ∀ n, n ≤ k → b ∈ lh.drop n := by
    intro n hn
    refine List.mem_of_getElem? (i := k - n) ?_
    rw [List.getElem?_drop, ← hb]
    congr 1
    omega
  induction c with
  | nil => cases hphase
  | cons i c ih =>
    have hok := h.ok
    have hrest : initDone ∉ c := fun hmem => hinit (List.mem_cons_of_mem i hmem)
    cases i with
    | bget | bread | releasesleep | brelse => exact ih h.tail hrest hphase hpin
    | bunpin n b' =>
      rw [phase, hok.2.1] at hphase
      cases hphase
      refine .inl ⟨_, _, rfl, Nat.lt_of_not_le fun hle => hpin ?_⟩
      exact List.mem_cons_of_mem _ (hdrop _ hle)
    | bwrite x =>
      cases x with
      | slot | header => exact absurd (List.mem_of_getElem? hb) hpin
      | home n b' =>
        cases hphase
        obtain ⟨c', rfl⟩ := hok.2.2.1 hrest
        refine .inl ⟨_, _, rfl, Nat.lt_of_not_le fun hle => hpin ?_⟩
        rcases Nat.eq_or_lt_of_le hle with rfl | hlt
        · rw [show lh[n]? = some b' from hfits] at hb
          cases hb
          exact List.mem_cons_self
        · exact List.mem_cons_of_mem _ (hdrop _ hlt)
    | toHome n b' =>
      obtain ⟨-, c', rfl⟩ := hok
      exact ih h.tail hrest hphase hpin
    | installTrans g n =>
      cases hphase
      cases g with
      | true => exact absurd (hok.2.2.2.1 rfl) hrest
      | false => exact .inl ⟨_, _, rfl, Nat.lt_of_not_le fun hle => hpin (hdrop _ hle)⟩
    | clearHead =>
      cases hphase
      exact .inr rfl
    | getHead => exact absurd hok.2.2.2 hrest
    | _ => exact absurd (List.mem_of_getElem? hb) hpin

namespace Operations

variable {w : Option (Fin (m + 1))} {s t : Sys m} {p : Fin (m + 1)} {i : Instr} {c : Code}
  {e : Event}

theorem plain (h : Operations s) (hother : s.Only t p)
    (hfits : ∀ k, phase (t.procs p).code = some k → k.Fits s.lh)
    (hunpin : ∀ n b c, (t.procs p).code = bunpin n b :: c → s.lh[n]? = some b) (hlh : t.lh = s.lh)
    (hup : t.up = s.up) (hcommit : t.committing = s.committing)
    (hout : t.outstanding = s.outstanding) (hasleep : t.asleep = s.asleep) : Operations t where
  fits q k hk := by
    rw [hlh]
    by_cases hq : q = p
    · subst hq
      exact hfits k hk
    · rw [hother q hq] at hk
      exact h.fits q k hk
  unpin q n b c hc := by
    rw [hlh]
    by_cases hq : q = p
    · subst hq
      exact hunpin n b c hc
    · rw [hother q hq] at hc
      exact h.unpin q n b c hc
  drained := by
    rw [hup, hcommit, hout, hlh]
    exact h.drained
  nodup := by
    rw [hup, hlh]
    exact h.nodup
  asleep := by
    rw [hasleep, hcommit, hout]
    exact h.asleep

theorem pop (h : Operations s) (hctl : Control cl sb w s) (hcode : (s.procs p).code = i :: c)
    (hi : i ≠ commit ∧ i ≠ clearHead) (hother : s.Only t p) (hc : (t.procs p).code = c)
    (hlh : t.lh = s.lh) (hup : t.up = s.up) (hcommit : t.committing = s.committing)
    (hout : t.outstanding = s.outstanding) (hasleep : t.asleep = s.asleep) : Operations t := by
  have hwf := hctl.local_code hcode
  refine h.plain hother ?_ ?_ hlh hup hcommit hout hasleep
  · rw [hc]
    refine fits_tail hwf (fun k hk => h.fits p k (by rw [hcode, hk])) ?_ hi.2
    exact fun heq => absurd heq hi.1
  · intro n b c' heq
    rw [hc] at heq
    subst heq
    have hdue := hwf.due_tail
    simp only [due_cons, cause, reduceCtorEq, Option.some.injEq, false_or] at hdue
    subst hdue
    exact h.fits p (.installing n (some b)) (by rw [hcode]; rfl)

theorem alone (hctl : Control cl sb w s) (hw : w = none ∨ w = some p) (hother : s.Only t p)
    (hfits : ∀ k, phase (t.procs p).code = some k → k.Fits t.lh)
    (hunpin : ∀ n b c, (t.procs p).code ≠ bunpin n b :: c)
    (hdrained : t.up = true → t.committing = false → t.outstanding = 0 → t.lh = [])
    (hnodup : t.up = true → t.lh.Nodup)
    (hasleep : ∀ q, t.asleep q = true → t.committing = true ∨ 1 ≤ t.outstanding) :
    Operations t := by
  have hidle : ∀ q, q ≠ p → phase (s.procs q).code = none := by
    intro q hq
    cases hk : phase (s.procs q).code with
    | none => rfl
    | some k =>
      have hworker := (hctl.worker q).1 (by rw [hk]; rfl)
      rcases hw with rfl | rfl <;> cases hworker
      exact absurd rfl hq
  constructor
  case fits =>
    intro q k hk
    by_cases hq : q = p
    · subst hq
      exact hfits k hk
    · rw [hother q hq, hidle q hq] at hk
      cases hk
  case unpin =>
    intro q n b c hc
    by_cases hq : q = p
    · subst hq
      exact absurd hc (hunpin n b c)
    · have hnone := hidle q hq
      rw [hother q hq] at hc
      rw [hc, phase, (hctl.local_code hc).ok.2.1] at hnone
      cases hnone
  case drained => exact hdrained
  case nodup => exact hnodup
  case asleep => exact hasleep

theorem step (h : Operations s) (hctl : Control cl sb w s) (hcode : (s.procs p).code = i :: c)
    (hup : s.up = true ∨ p = 0) (hm : Move cl sb s p c i t e) : Operations t := by
  have hwf := hctl.local_code hcode
  have hworks : ∀ {k}, phase (i :: c) = some k → w = some p := fun hk =>
    (hctl.worker p).1 (by rw [hcode, hk]; rfl)
  have hnext : (∀ n b, i ≠ bwrite (.home n b)) → ∀ n b c', c ≠ bunpin n b :: c' := by
    rintro hi n b c' rfl
    have hdue := hwf.due_tail
    simp only [due_cons, cause, reduceCtorEq, Option.some.injEq, false_or] at hdue
    exact hi n b hdue.symm
  cases hm with
  | hit | recycle | bread | releasesleep | brelse | bwrite | bunpin | toLog | toHome | setHead
  | writeLogDone | installDone | keep =>
    exact h.pop hctl hcode (by simp) (.proc rfl) (by simp) rfl rfl rfl rfl rfl
  | commitEmpty hlh =>
    refine h.plain (.proc rfl) ?_ ?_ rfl rfl rfl rfl rfl
    · simp only [Sys.goto_eq, Sys.setProc_procs_self]
      exact fits_tail hwf (fun k hk => h.fits p k (by rw [hcode, hk])) (fun _ => hlh) (by simp)
    · intro n b c' heq
      rw [Sys.goto_eq, Sys.setProc_procs_self] at heq
      exact absurd heq (hnext (by simp) n b c')
  | writeLog hb | install hb =>
    refine h.plain (.proc rfl) ?_ ?_ rfl rfl rfl rfl rfl
    · simp only [Sys.goto_eq, Sys.setProc_procs_self, phase_writeLogCode, phase_installCode]
      rintro k ⟨⟩
      exact hb
    · simp [writeLogCode, installCode, breadCode]
  | commit =>
    refine h.plain (.proc rfl) ?_ ?_ rfl rfl rfl rfl rfl
    · simp only [Sys.goto_eq, Sys.setProc_procs_self, phase_commitCode]
      rintro k ⟨⟩
      trivial
    · simp [commitCode]
  | start | read | finish | drop =>
    refine h.plain (.proc rfl) ?_ ?_ rfl rfl rfl rfl rfl <;> simp [phase, breadCode, brelseCode]
  | modify | absorb | flush | tooBig | outside =>
    refine h.plain (.proc rfl) ?_ ?_ rfl rfl rfl rfl rfl <;> simp [phase, hcode]
  | panic =>
    exact h.plain (p := p) (fun _ _ => rfl) (fun k hk => h.fits p k hk)
      (fun n b c' hc => h.unpin p n b c' hc) rfl rfl rfl rfl rfl
  | append hx hop hout hroom hmem =>
    obtain rfl := hctl.idle_of_outstanding hout
    refine alone hctl (.inl rfl) (.proc rfl) ?_ ?_ ?_ ?_ ?_
    · simp [hcode, phase]
    · simp [hcode]
    · intro _ _ hzero
      rw [show s.outstanding = 0 from hzero] at hout
      omega
    · intro hu
      have hnodup := (h.nodup hu).concat hmem
      rwa [List.concat_eq_append] at hnodup
    · exact h.asleep
  | getHead =>
    obtain ⟨-, hphase, -, hinit⟩ := hwf.ok
    have hdown := (hctl.boots p (by rw [hcode]; exact List.mem_cons_of_mem _ hinit)).2
    have hup' : ∀ {q : Prop}, s.up = true → q := fun hu => by rw [hdown] at hu; cases hu
    refine alone hctl (.inr (hworks rfl)) (.proc rfl) ?_ ?_ hup' hup' h.asleep
    · simp only [Sys.goto_eq, Sys.setProc_procs_self, hphase]
      rintro k ⟨⟩
      trivial
    · simpa using hnext (by simp)
  | clearHead =>
    obtain ⟨-, hphase, -⟩ := hwf.ok
    refine alone hctl (.inr (hworks rfl)) (.proc rfl) ?_ ?_ (fun _ _ _ => rfl)
      (fun _ => List.nodup_nil) h.asleep
    · simp only [Sys.goto_eq, Sys.setProc_procs_self, hphase]
      rintro k ⟨⟩
      rfl
    · simpa using hnext (by simp)
  | endCommit =>
    have hlh : s.lh = [] := h.fits p .closing (by rw [hcode]; rfl)
    obtain rfl : c = [client] := hwf.ok
    refine alone hctl (.inr (hworks rfl)) (.proc rfl) ?_ (by simp) (fun _ _ _ => hlh)
      h.nodup (fun q hq => by cases hq)
    simp [phase]
  | initDone =>
    have hlh : s.lh = [] := h.fits p .closing (by rw [hcode]; rfl)
    obtain rfl : c = [client] := hwf.ok
    refine alone hctl (.inr (hworks rfl)) (.proc rfl) ?_ (by simp) (fun _ _ _ => hlh)
      (fun _ => ?_) h.asleep
    · simp [phase]
    · show s.lh.Nodup
      rw [hlh]
      exact List.nodup_nil
  | sleep hwait =>
    refine ⟨h.fits, h.unpin, h.drained, h.nodup, fun q hq => ?_⟩
    show s.committing = true ∨ 1 ≤ s.outstanding
    rcases hwait with hc | hfull
    · exact .inl hc
    · by_contra hno
      simp only [not_or, Bool.not_eq_true, not_le, Nat.lt_one_iff] at hno
      have hu := hctl.booted hup (by rw [hcode]; rfl)
      rw [h.drained hu hno.1 hno.2, hno.2] at hfull
      simp [LOGSIZE, MAXOPBLOCKS] at hfull
  | enter hc hroom =>
    have hu := hctl.booted hup (by rw [hcode]; rfl)
    obtain rfl : c = [client] := hwf.ok
    refine alone hctl (.inl (hctl.idle hc hu)) (.proc rfl) ?_ (by simp) ?_ h.nodup ?_
    · simp [phase]
    · intro _ _ hzero
      cases hzero
    · exact fun q _ => .inr (Nat.le_add_left 1 s.outstanding)
  | endLast hc hout he =>
    have hw := hctl.idle_of_op ((hctl.locals p).ends (by simp [hcode])).1
    refine alone hctl (.inl hw) (.proc rfl) ?_ (by simp) ?_ h.nodup (fun _ _ => .inl rfl)
    · simp only [Sys.setProc_procs_self]
      rintro k ⟨⟩
      trivial
    · intro _ hfalse
      cases hfalse
  | endEarly hc hout he =>
    have hw := hctl.idle_of_op ((hctl.locals p).ends (by simp [hcode])).1
    obtain rfl : c = [client] := hwf.ok
    refine alone hctl (.inl hw) (.proc rfl) ?_ (by simp) ?_ h.nodup (fun q hq => by cases hq)
    · simp [phase]
    · exact fun _ _ hzero => absurd hzero hout
  | endPanic hc =>
    rw [hctl.committing_of_op ((hctl.locals p).ends (by simp [hcode])).1] at hc
    cases hc

theorem boot {d : Disk} {n : Nat} : Operations (Log.boot sb d n : Sys m) where
  fits q k hk := by
    have hcode : ((Log.boot sb d n : Sys m).procs q).code =
        if q = 0 then recoverFromLog sb ++ [initDone, client] else [client] := rfl
    rw [hcode] at hk
    split at hk <;> cases hk
    trivial
  unpin q k b c hc := by
    have hcode : ((Log.boot sb d n : Sys m).procs q).code =
        if q = 0 then recoverFromLog sb ++ [initDone, client] else [client] := rfl
    rw [hcode] at hc
    split at hc <;> cases hc
  drained hu := by cases hu
  nodup hu := by cases hu
  asleep q hq := by cases hq

theorem reach {d : Disk} {n : Nat} {es : List Event}
    (h : Run (Step cl sb) (Log.boot sb d n) es s) : ∃ w, Control cl sb w s ∧ Operations s := by
  refine h.invariant (I := fun s => ∃ w, Control cl sb w s ∧ Operations s) ?_ ⟨_, .boot, boot⟩
  rintro s e t ⟨w, hctl, hop⟩ hstep
  cases hstep with
  | run p ch hs =>
    obtain ⟨i, c, hcode, hup, hm⟩ := step_move hs
    exact ⟨_, hctl.step hcode hup hm, hop.step hctl hcode hup hm⟩
  | crash => exact ⟨_, .boot, boot⟩

end Operations

/-- After `initlog` a commit excludes every operation, the log is empty between
operations, no block is in it twice, and who sleeps in `begin_op` waits for a commit
or for an operation that some process has still to end. -/
theorem operations_separate {d : Disk} {n : Nat} {es : List Event} {s : Sys m}
    (h : Run (Step cl sb) (boot sb d n) es s) (hup : s.up = true) :
    (s.committing = true → s.outstanding = 0) ∧
    (s.outstanding = 0 → s.committing = false → s.lh = []) ∧
    s.lh.Nodup ∧
    ∀ p, s.asleep p = true →
      (s.committing = true ∧ ∃ q, (phase (s.procs q).code).isSome) ∨
      (1 ≤ s.outstanding ∧ ∃ q, (s.procs q).op.isSome) := by
  obtain ⟨w, hctl, hop⟩ := Operations.reach h
  have hwork : s.committing = true → w.isSome := fun hc => hctl.flag.2 (.inl hc)
  refine ⟨fun hc => ?_, fun hout hc => hop.drained hup hc hout, hop.nodup hup, fun p hp => ?_⟩
  · rw [hctl.count]
    exact Finset.sum_eq_zero fun q _ => by simp [hctl.quiet (hwork hc) q]
  · rcases hop.asleep p hp with hc | hout
    · obtain ⟨q, hq⟩ := Option.isSome_iff_exists.1 (hwork hc)
      exact .inl ⟨hc, q, (hctl.worker q).2 hq⟩
    · refine .inr ⟨hout, ?_⟩
      by_contra hno
      simp only [not_exists, Bool.not_eq_true] at hno
      rw [hctl.count, Finset.sum_eq_zero fun q _ => by simp [hno q]] at hout
      omega

/-- Three operations fill the log's reservation, so a fourth process sleeps. -/
theorem operations_separate_full :
    ∃ (es : List Event) (s : Sys 3), Run (Step .logged mkfs) (boot mkfs (fun _ _ => 0) 0) es s ∧
      s.up = true ∧ s.asleep 3 = true ∧ 1 ≤ s.outstanding := by
  have hcheck : ((boot mkfs (fun _ _ => 0) 0 : Sys 3).trace .logged mkfs
      ([goes 0 14, [some (0, .start)], goes 0 1, [some (1, .start)], goes 1 1,
        [some (2, .start)], goes 2 1, [some (3, .start)], goes 3 1].flatten)).any
      (fun x => x.1.up && x.1.asleep 3 && !x.1.committing) = true := by
    decide +kernel
  obtain ⟨⟨s, es⟩, hs, hcheck⟩ := (Option.any_eq_true _ _).1 hcheck
  simp only [Bool.and_eq_true, Bool.not_eq_true'] at hcheck
  have hrun := Sys.trace_run hs
  have hwait := (operations_separate hrun hcheck.1.1).2.2.2 3 hcheck.1.2
  rw [hcheck.2] at hwait
  exact ⟨es, s, hrun, hcheck.1.1, hcheck.1.2, by simpa using hwait.resolve_left (by simp) |>.1⟩

end Xv6.Log
