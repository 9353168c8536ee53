import Xv6.Log.Operations

/-!
# The reservation of log space

`begin_op` reserves `MAXOPBLOCKS` blocks for each operation it admits, against
`LOGSIZE`; `log_write` wants one block less than `log.size - 1`, also for a block
that is in the log already.  So three operations of `MAXOPBLOCKS` blocks are
admitted together and do not fit.  Two blocks less in `begin_op` would be enough.
-/

namespace Xv6.Log

open Instr Lib

variable {m : Nat}

/-- No operation has passed more than `MAXOPBLOCKS` distinct blocks to `log_write`. -/
def Sys.Modest (s : Sys m) : Prop := ∀ p, (s.procs p).logged.length ≤ MAXOPBLOCKS

instance (s : Sys m) : Decidable s.Modest := inferInstanceAs (Decidable (∀ _, _))

def logBlocks (p : Fin (m + 1)) (b n : Nat) : List (Option (Fin (m + 1) × Choice)) :=
  ((List.range n).map fun i => [some (p, .read (b + i))] ++ goes p 3 ++ [some (p, .log 0)]).flatten

def threeOperations : List (Option (Fin 3 × Choice)) :=
  [goes 0 14, [some (0, .start)], goes 0 1, [some (1, .start)], goes 1 1, [some (2, .start)],
    goes 2 1, logBlocks 0 100 10, logBlocks 1 110 10, logBlocks 2 120 10].flatten

/-- `begin_op` admits three operations together, and the last `log_write` of the third
panics. -/
theorem reservation_overflows :
    ¬∀ (d : Disk) (n : Nat) (es : List Event) (s : Sys 2),
      Run (Restrict (Step .logged mkfs) fun _ _ t => t.Modest) (boot mkfs d n) es s →
      s.panicked ≠ some .tooBig := by
  intro hsound
  have hcheck : (Lib.trace (guarded (Sys.next .logged mkfs) fun _ _ t => decide t.Modest)
      (boot mkfs (fun _ _ => 0) 0) threeOperations).any
      (fun x => x.1.panicked == some .tooBig) = true := by
    decide +kernel
  obtain ⟨⟨s, es⟩, hs, hcheck⟩ := (Option.any_eq_true _ _).1 hcheck
  refine hsound (fun _ _ => 0) 0 es s ?_ (beq_iff_eq.1 hcheck)
  exact Lib.trace_run (guarded_restrict Sys.next_step) hs

def Proc.allowance (q : Proc) : Nat := if q.op.isSome then MAXOPBLOCKS - q.logged.length else 0

/-- A `begin_op` that admits an operation leaves two blocks of the log unreserved. -/
def Cautious (s : Sys m) (e : Event) : Prop :=
  ∀ o, e = .began o → s.lh.length + (s.outstanding + 1) * MAXOPBLOCKS ≤ LOGSIZE - 2

structure Budget (w : Option (Fin (m + 1))) (s : Sys m) : Prop where
  room : w = none → s.lh.length + ∑ q, (s.procs q).allowance ≤ LOGSIZE - 2
  logged : ∀ q, (s.procs q).op.isSome → ∀ b ∈ (s.procs q).logged, b ∈ s.lh
  fine : s.panicked ≠ some .tooBig

namespace Budget

variable {w : Option (Fin (m + 1))} {s t : Sys m} {p : Fin (m + 1)} {i : Instr} {c : Code}
  {e : Event}

theorem sum_allowance (hother : s.Only t p) :
    ∑ q, (t.procs q).allowance + (s.procs p).allowance =
      ∑ q, (s.procs q).allowance + (t.procs p).allowance :=
  sum_change (f := fun q => (s.procs q).allowance) (g := fun q => (t.procs q).allowance) p
    fun q hq => by rw [hother q hq]

theorem quiet {w' : Option (Fin (m + 1))} (h : Budget w s) (hother : s.Only t p)
    (hw : w' = none → w = none ∨ (t.lh = [] ∧ ∀ q, (t.procs q).op = none))
    (hop : ((t.procs p).op = (s.procs p).op ∧ (t.procs p).logged = (s.procs p).logged) ∨
      (t.procs p).op = none) (hlh : t.lh = s.lh ∨ ∀ q, (t.procs q).op = none)
    (hlen : w' = none → t.lh.length ≤ s.lh.length)
    (hpanic : t.panicked ≠ some .tooBig) : Budget w' t where
  room hnone := by
    rcases hw hnone with hidle | ⟨hnil, hops⟩
    · have hroom := h.room hidle
      have hsum := sum_allowance hother
      have hlen := hlen hnone
      have hle : (t.procs p).allowance ≤ (s.procs p).allowance := by
        rcases hop with ⟨ho, hl⟩ | ho
        · simp [Proc.allowance, ho, hl]
        · simp [Proc.allowance, ho]
      omega
    · simp [hnil, Proc.allowance, hops]
  logged q hq b hb := by
    rcases hlh with heq | hops
    · rw [heq]
      by_cases hqp : q = p
      · subst hqp
        rcases hop with ⟨ho, hl⟩ | ho
        · rw [ho] at hq
          rw [hl] at hb
          exact h.logged q hq b hb
        · rw [ho] at hq
          cases hq
      · rw [hother q hqp] at hq hb
        exact h.logged q hq b hb
    · rw [hops q] at hq
      cases hq
  fine := hpanic

theorem log {b : Nat} (h : Budget none s) (hop : (s.procs p).op.isSome)
    (hop' : (t.procs p).op = (s.procs p).op)
    (hlogged : (t.procs p).logged = (s.procs p).logged.insert b)
    (hmodest : (t.procs p).logged.length ≤ MAXOPBLOCKS) (hother : s.Only t p)
    (hlh : (b ∈ s.lh ∧ t.lh = s.lh) ∨ (b ∉ s.lh ∧ t.lh = s.lh ++ [b]))
    (hpanic : t.panicked = s.panicked) : Budget (after none p (t.procs p).code) t := by
  have hsub : ∀ b ∈ s.lh, b ∈ t.lh := by
    intro b hb
    rcases hlh with ⟨-, heq⟩ | ⟨-, heq⟩ <;> simp [heq, hb]
  constructor
  case room =>
    intro _
    have hroom := h.room rfl
    have hsum := sum_allowance hother
    simp only [Proc.allowance, hop', hop, if_true] at hsum
    rcases hlh with ⟨-, heq⟩ | ⟨hnew, heq⟩
    · have hlen : (s.procs p).logged.length ≤ (t.procs p).logged.length := by
        rw [hlogged]
        exact (List.sublist_insert ..).length_le
      simp only [Proc.allowance, heq] at hroom ⊢
      omega
    · have hnot : b ∉ (s.procs p).logged := fun hb => hnew (h.logged p hop b hb)
      rw [hlogged, List.length_insert_of_not_mem hnot] at hmodest hsum
      simp only [Proc.allowance, heq, List.length_append, List.length_singleton] at hroom ⊢
      omega
  case logged =>
    intro q hq b' hb'
    by_cases hqp : q = p
    · subst hqp
      rw [hlogged] at hb'
      rcases List.mem_insert_iff.1 hb' with rfl | hb'
      · rcases hlh with ⟨hin, heq⟩ | ⟨-, heq⟩ <;> simp [heq]
        exact hin
      · exact hsub b' (h.logged q hop b' hb')
    · rw [hother q hqp] at hq hb'
      exact hsub b' (h.logged q hq b' hb')
  case fine =>
    rw [hpanic]
    exact h.fine

theorem enter {cl : Clients} {sb : Superblock} (h : Budget none s) (hctl : Control cl sb none s)
    (hop : (s.procs p).op = none) (hlogged : (t.procs p).logged = [])
    (hroom : s.lh.length + (s.outstanding + 1) * MAXOPBLOCKS ≤ LOGSIZE - 2) (hother : s.Only t p)
    (hlh : t.lh = s.lh)
    (hpanic : t.panicked = s.panicked) : Budget (after none p (t.procs p).code) t := by
  have hle : ∑ q, (s.procs q).allowance ≤ s.outstanding * MAXOPBLOCKS := by
    rw [hctl.count, Finset.sum_mul]
    refine Finset.sum_le_sum fun q _ => ?_
    unfold Proc.allowance
    split <;> omega
  constructor
  case room =>
    intro _
    have hsum := sum_allowance hother
    have hold : (s.procs p).allowance = 0 := by simp [Proc.allowance, hop]
    have hnew : (t.procs p).allowance ≤ MAXOPBLOCKS := by
      unfold Proc.allowance
      split <;> omega
    rw [hlh]
    rw [Nat.add_mul] at hroom
    omega
  case logged =>
    intro q hq b hb
    rw [hlh]
    by_cases hqp : q = p
    · subst hqp
      rw [hlogged] at hb
      cases hb
    · rw [hother q hqp] at hq hb
      exact h.logged q hq b hb
  case fine =>
    rw [hpanic]
    exact h.fine

theorem idle_of_idle {cl : Clients} {sb : Superblock} {w' : Option (Fin (m + 1))}
    (hctl : Control cl sb w s) (hctl' : Control cl sb w' t) (hc : t.committing = s.committing)
    (hu : t.up = s.up) (h : w' = none) : w = none := by
  have hflag := hctl.flag
  rw [← hc, ← hu, ← hctl'.flag, h] at hflag
  simpa using hflag

theorem step (h : Budget w s) (hctl : Control .logged mkfs w s) (hops : Operations s)
    (hcode : (s.procs p).code = i :: c) (hup : s.up = true ∨ p = 0)
    (hm : Move .logged mkfs s p c i t e) (hcautious : Cautious s e) (hmodest : t.Modest) :
    Budget (after w p (t.procs p).code) t := by
  have hwf := hctl.local_code hcode
  have hctl' := hctl.step hcode hup hm
  have hworks : ∀ {k}, phase (i :: c) = some k → w = some p := fun hk =>
    (hctl.worker p).1 (by rw [hcode, hk]; rfl)
  cases hm with
  | hit | recycle | bread | releasesleep | brelse | bwrite | bunpin | toLog | toHome | setHead
  | writeLog | writeLogDone | install | installDone | commit | commitEmpty | keep | start | read
  | modify | flush | drop | finish =>
    exact h.quiet (.proc rfl) (fun hn => .inl (idle_of_idle hctl hctl' rfl rfl hn))
      (.inl (by simp)) (.inl rfl) (fun _ => Nat.le_refl _) h.fine
  | sleep =>
    exact h.quiet (p := p) (fun _ _ => rfl) (fun hn => .inl (idle_of_idle hctl hctl' rfl rfl hn))
      (.inl ⟨rfl, rfl⟩) (.inl rfl) (fun _ => Nat.le_refl _) h.fine
  | panic hk =>
    exact h.quiet (p := p) (fun _ _ => rfl) (fun hn => .inl (idle_of_idle hctl hctl' rfl rfl hn))
      (.inl ⟨rfl, rfl⟩) (.inl rfl) (fun _ => Nat.le_refl _) (by simpa [Sys.panic] using hk)
  | getHead | clearHead =>
    obtain rfl := hworks rfl
    have hbusy := idle_of_idle hctl hctl' rfl rfl
    refine h.quiet (.proc rfl) (fun hn => by cases hbusy hn) (.inl (by simp))
      (.inr fun q => ?_) (fun hn => by cases hbusy hn) h.fine
    exact hctl'.quiet (Option.isSome_iff_ne_none.2 fun hn => by cases hbusy hn) q
  | endCommit | initDone =>
    have hlh : s.lh = [] := hops.fits p .closing (by rw [hcode]; rfl)
    obtain rfl := hworks rfl
    have hnone : ∀ q, (s.procs q).op = none := hctl.quiet rfl
    have hnone' : ∀ {X : Sys m} {f : Proc → Proc}, X.procs = s.procs → (f (s.procs p)).op = none →
        ∀ q, ((X.setProc p f).procs q).op = none := by
      intro X f hX hf q
      by_cases hq : q = p
      · rw [hq, Sys.setProc_procs_self, hX, hf]
      · rw [Sys.Only.proc hX q hq, hnone]
    exact h.quiet (.proc rfl) (fun _ => .inr ⟨hlh, hnone' rfl (hnone p)⟩)
      (.inl (by simp)) (.inl rfl) (fun _ => Nat.le_refl _) h.fine
  | enter hc hroom =>
    obtain rfl := hctl.idle hc (hctl.booted hup (by rw [hcode]; rfl))
    obtain rfl : c = [client] := hwf.ok
    exact h.enter hctl ((hctl.locals p).begins (by simp [hcode])) (by simp) (hcautious _ rfl)
      (.proc rfl) rfl rfl
  | endLast hc hout he | endEarly hc hout he =>
    have hw := hctl.idle_of_op ((hctl.locals p).ends (by simp [hcode])).1
    exact h.quiet (.proc rfl) (fun _ => .inl hw) (.inr (by simp)) (.inl rfl)
      (fun _ => Nat.le_refl _) h.fine
  | absorb hx hop hout hroom hmem =>
    obtain rfl := hctl.idle_of_outstanding hout
    exact h.log (hop rfl) (by simp) (by simp) (hmodest p) (.proc rfl) (.inl ⟨hmem, rfl⟩) rfl
  | append hx hop hout hroom hmem =>
    obtain rfl := hctl.idle_of_outstanding hout
    exact h.log (hop rfl) (by simp) (by simp) (hmodest p) (.proc rfl) (.inr ⟨hmem, rfl⟩) rfl
  | tooBig hx hop hfull =>
    obtain rfl := hctl.idle_of_op (hop rfl)
    have hroom := h.room rfl
    simp only [LOGSIZE, MAXOPBLOCKS, mkfs] at hroom hfull
    omega
  | outside hx hop hout =>
    have hpos := hctl.outstanding_pos (hop rfl)
    omega
  | endPanic hc =>
    rw [hctl.committing_of_op ((hctl.locals p).ends (by simp [hcode])).1] at hc
    cases hc

theorem boot {d : Disk} {n : Nat} {sb : Superblock} : Budget (some 0) (boot sb d n : Sys m) where
  room hw := by cases hw
  logged q hq := by cases hq
  fine := by simp [Log.boot]

end Budget

/-- In a run whose `begin_op`s leave two blocks of the log unreserved no operation of
at most `MAXOPBLOCKS` blocks is too big. -/
theorem reservation_sound {d : Disk} {n : Nat} {es : List Event} {s : Sys m}
    (h : Run (Restrict (Step .logged mkfs) fun s e t => Cautious s e ∧ t.Modest)
      (boot mkfs d n) es s) : s.panicked ≠ some .tooBig := by
  have hinv : ∃ w, Control .logged mkfs w s ∧ Operations s ∧ Budget w s := by
    refine h.invariant (I := fun s => ∃ w, Control .logged mkfs w s ∧ Operations s ∧ Budget w s) ?_
      ⟨_, .boot, .boot, .boot⟩
    rintro s e t ⟨w, hctl, hop, hbudget⟩ ⟨hstep, hcautious, hmodest⟩
    cases hstep with
    | run p ch hs =>
      obtain ⟨i, c, hcode, hup, hm⟩ := step_move hs
      exact ⟨_, hctl.step hcode hup hm, hop.step hctl hcode hup hm,
        hbudget.step hctl hop hcode hup hm hcautious hmodest⟩
    | crash => exact ⟨_, .boot, .boot, .boot⟩
  obtain ⟨w, -, -, hbudget⟩ := hinv
  exact hbudget.fine

instance (s : Sys m) (e : Event) : Decidable (Cautious s e) :=
  match e with
  | .began o => decidable_of_iff (s.lh.length + (s.outstanding + 1) * MAXOPBLOCKS ≤ LOGSIZE - 2)
      ⟨fun h _ _ => h, fun h => h o rfl⟩
  | .tau | .changed .. | .returned .. | .wrote .. | .ended _ | .committed | .recovered | .crashed =>
    isTrue fun _ h => by cases h

/-- Two operations of ten blocks each. -/
theorem reservation_sound_two :
    ∃ (es : List Event) (s : Sys 1),
      Run (Restrict (Step .logged mkfs) fun s e t => Cautious s e ∧ t.Modest)
        (boot mkfs (fun _ _ => 0) 0) es s ∧
      s.lh.length = 20 ∧ s.outstanding = 2 ∧ s.panicked ≠ some .tooBig := by
  have hcheck : (Lib.trace (guarded (Sys.next .logged mkfs)
      fun s e t => decide (Cautious s e ∧ t.Modest)) (boot mkfs (fun _ _ => 0) 0 : Sys 1)
      ([goes 0 14, [some (0, .start)], goes 0 1, [some (1, .start)], goes 1 1,
        logBlocks 0 100 10, logBlocks 1 110 10].flatten)).any
      (fun x => x.1.lh.length == 20 && x.1.outstanding == 2) = true := by
    decide +kernel
  obtain ⟨⟨s, es⟩, hs, hcheck⟩ := (Option.any_eq_true _ _).1 hcheck
  simp only [Bool.and_eq_true, beq_iff_eq] at hcheck
  have hrun := Lib.trace_run (guarded_restrict Sys.next_step) hs
  exact ⟨es, s, hrun, hcheck.1, hcheck.2, reservation_sound hrun⟩

end Xv6.Log
