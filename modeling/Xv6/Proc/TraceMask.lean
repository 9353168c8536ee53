import Xv6.Proc.TraceTable

/-!
# Tracing follows the mask

The mask in the process table is the one that the history gives, for every run.  Whether a
trace line is printed agrees with its bits as long as no mask is negative: `syscall` takes a
negative mask for an absent one.
-/

namespace Xv6.Trace

open Lib

/-- A slot that `fork` has filled and `wait` has not freed. -/
def Proc.settled (x : Proc) : Prop := x.state = .used ∨ x.state = .live ∨ x.state = .zombie

theorem Proc.settled.ne_unused {x : Proc} (h : x.settled) : x.state ≠ .unused := by
  intro hx
  rw [settled, hx] at h
  simp at h

def Masks (es : List Event) (s : Sys) : Prop :=
  ∀ k, (s.proc k).settled → (s.proc k).maskid = given es (s.proc k).pid

variable {f : Proc → Proc} {mask : BitVec 32} {es : List Event}

namespace Masks

variable {es : List Event} {s t : Sys} {p k : Slot} {e : Event}

theorem congr (inv : Masks es s) (he : ∀ given, e.record given = given)
    (h : ∀ k, (t.proc k).settled → (s.proc k).settled ∧ (t.proc k).maskid = (s.proc k).maskid ∧
      (t.proc k).pid = (s.proc k).pid) : Masks (es ++ [e]) t := by
  intro k hk
  obtain ⟨hks, hm, hp⟩ := h k hk
  rw [given_append, he, hm, hp]
  exact inv k hks

theorem goto (inv : Masks es s) (pc : Pc) : Masks es (s.goto p pc) := by
  intro k hk
  rw [Proc.settled, Sys.goto_state] at hk
  rw [Sys.goto_maskid, Sys.goto_pid]
  exact inv k hk

/-- A step that changes one slot, to one that is not settled or that keeps its mask. -/
theorem setProc (inv : Masks es s) (he : ∀ given, e.record given = given)
    (hf : (f (s.proc k)).settled → (s.proc k).settled ∧
      (f (s.proc k)).maskid = (s.proc k).maskid ∧ (f (s.proc k)).pid = (s.proc k).pid) :
    Masks (es ++ [e]) (s.setProc k f) := by
  apply inv.congr he
  intro j hj
  by_cases hjk : j = k
  · subst hjk
    rw [Sys.setProc_self] at hj ⊢
    exact hf hj
  · rw [Sys.setProc_of_ne _ _ _ hjk] at hj ⊢
    exact ⟨hj, rfl, rfl⟩

theorem give (inv : Masks es s) (pids : Pids s)
    (he : e.record (given es) = upd (given es) (s.proc k).pid mask)
    (hmask : (f (s.proc k)).maskid = mask) (hpid : (f (s.proc k)).pid = (s.proc k).pid) :
    Masks (es ++ [e]) (s.setProc k f) := by
  intro j hj
  rw [given_append, he]
  by_cases hjk : j = k
  · rw [hjk, Sys.setProc_self, hmask, hpid, upd_self]
  · rw [Sys.setProc_of_ne _ _ _ hjk] at hj ⊢
    rw [upd_of_ne, inv j hj]
    intro h
    exact hjk (pids.eq_of_pid hj.ne_unused h)

theorem step (inv : Masks es s) (forks : Forks s) (pids : Pids s) (hlive : (s.proc p).state = .live)
    (h : Effect s p e t) : Masks (es ++ [e]) t := by
  have hp : (s.proc p).settled := .inr (.inl hlive)
  cases h with
  | move _ _ he _ =>
    apply Masks.goto
    exact inv.congr he.1 fun _ h => ⟨h, rfl, rfl⟩
  | ret =>
    apply Masks.goto
    exact inv.congr (fun _ => rfl) fun _ h => ⟨h, rfl, rfl⟩
  | stay he => exact inv.congr he.1 fun _ h => ⟨h, rfl, rfl⟩
  | @alloc k _ hk =>
    apply Masks.goto
    apply inv.congr fun _ => rfl
    intro j hj
    by_cases hjk : j = k
    · rw [hjk, Sys.alloc, Sys.setProc_self] at hj
      simp [Proc.settled] at hj
    · rw [Sys.alloc, Sys.setProc_of_ne _ _ _ hjk] at hj ⊢
      exact ⟨hj, rfl, rfl⟩
  | drop | reap =>
    apply Masks.goto
    apply inv.setProc fun _ => rfl
    intro hk
    simp [Proc.settled] at hk
  | @spawn k _ =>
    apply Masks.goto
    refine inv.give pids ?_ rfl rfl
    rw [inv p hp]
    rfl
  | @start k hpc =>
    have hk : (s.proc k).state = .used := forks.state (by rw [hpc]; rfl)
    apply Masks.goto
    apply inv.setProc fun _ => rfl
    exact fun _ => ⟨.inl hk, rfl, rfl⟩
  | exit =>
    apply inv.setProc fun _ => rfl
    exact fun _ => ⟨hp, rfl, rfl⟩
  | kill =>
    apply Masks.goto
    apply inv.setProc fun _ => rfl
    exact fun h => ⟨h, rfl, rfl⟩
  | trace =>
    apply Masks.goto
    exact inv.give pids rfl rfl rfl

end Masks

structure Inv (es : List Event) (s : Sys) : Prop where
  forks : Forks s
  pids : Pids s
  masks : Masks es s

theorem Inv.boot : Inv [] Sys.boot := by
  have hpc : ∀ k, (Sys.boot.proc k).pc = .user := by decide
  have hfills : ∀ k, (Sys.boot.proc k).pc.fills = none := by
    intro k
    rw [hpc]
    rfl
  refine ⟨⟨?_, ?_, ?_⟩, ⟨by decide, by decide, by decide, by decide⟩, ?_⟩
  · intro p x h
    rw [hfills] at h
    cases h
  · intro p k st h
    rw [hfills] at h
    cases h
  · intro p q k st st' h
    rw [hfills] at h
    cases h
  · intro k _
    have : ∀ k, (Sys.boot.proc k).maskid = 0 := by decide
    exact this k

theorem Inv.step {s t : Sys} {e : Event} (inv : Inv es s) (h : Step s e t) : Inv (es ++ [e]) t := by
  obtain ⟨p, ch, hact⟩ := h
  have hlive := live_of_act hact
  have heff := Effect.of_act hact
  exact ⟨inv.forks.step hlive heff, inv.pids.step inv.forks hlive heff,
    inv.masks.step inv.forks inv.pids hlive heff⟩

theorem Inv.run {s : Sys} (h : Run Step Sys.boot es s) : Inv es s :=
  h.history (fun _ _ _ _ inv hstep => inv.step hstep) Inv.boot

/-- No call of `trace` passes a negative mask. -/
def Event.Nonneg : Event → Prop
  | called _ (.trace mask _) => 0 ≤ mask.toInt
  | _ => True

instance (e : Event) : Decidable e.Nonneg := by
  unfold Event.Nonneg
  split <;> infer_instance

/-- The masks given and the masks about to be set are not negative. -/
structure Nonneg (es : List Event) (s : Sys) : Prop where
  given : ∀ pid, 0 ≤ (given es pid).toInt
  pending : ∀ p mask, (s.proc p).pc.mask = some mask → 0 ≤ mask.toInt

namespace Nonneg

variable {es : List Event} {s t : Sys} {p k : Slot} {e : Event}

/-- A mask is pending after a step if it was before, or if the step called `trace`. -/
theorem pending_of_goto {pc : Pc} {q : Slot} (h : (t.proc q).pc.mask = some mask)
    (ht : t.proc = ((s.setProc k f).goto p pc).proc) (hpc : pc.mask = none)
    (hf : ∀ x, (f x).pc.mask = some mask → x.pc.mask = some mask) :
    (s.proc q).pc.mask = some mask := by
  rw [ht] at h
  by_cases hqp : q = p
  · rw [hqp, Sys.goto_pc, hpc] at h
    cases h
  · rw [Sys.goto_of_ne _ _ _ hqp] at h
    by_cases hqk : q = k
    · rw [hqk, Sys.setProc_self] at h
      rw [hqk]
      exact hf _ h
    · rw [Sys.setProc_of_ne _ _ _ hqk] at h
      exact h

theorem pending_of_effect (h : Effect s p e t) {q : Slot} (hq : (t.proc q).pc.mask = some mask) :
    (s.proc q).pc.mask = some mask ∨ ∃ pid r, e = .called pid (.trace mask r) := by
  cases h with
  | move _ _ _ hmask =>
    by_cases hqp : q = p
    · rw [hqp, Sys.goto_pc] at hq
      rw [hqp]
      exact hmask mask hq
    · rw [Sys.goto_of_ne _ _ _ hqp] at hq
      exact .inl hq
  | ret =>
    by_cases hqp : q = p
    · rw [hqp, Sys.goto_pc] at hq
      cases hq
    · rw [Sys.goto_of_ne _ _ _ hqp] at hq
      exact .inl hq
  | stay => exact .inl hq
  | exit =>
    have hpc := Sys.setProc_field s p q (fun x => { x with state := .zombie }) Proc.pc fun _ => rfl
    exact .inl (hpc ▸ hq)
  | spawn => exact .inl (pending_of_goto hq rfl rfl fun _ h => nomatch h)
  | alloc =>
    exact .inl (pending_of_goto hq rfl rfl
      (f := fun x => { x with state := .embryo, pid := s.nextpid }) fun _ h => h)
  | drop | start | reap | kill | trace =>
    exact .inl (pending_of_goto hq rfl rfl fun _ h => h)

theorem record (inv : Nonneg es s) (h : Effect s p e t) (pid : Int) :
    0 ≤ (e.record (Trace.given es) pid).toInt := by
  have hold := inv.given
  cases h with
  | move _ _ he _ | stay he =>
    rw [he.1]
    exact hold pid
  | spawn =>
    rw [Event.record, upd_eq]
    split
    · exact hold _
    · exact hold pid
  | trace _ hmask _ =>
    rw [Event.record, upd_eq]
    split
    · exact inv.pending p _ hmask
    · exact hold pid
  | ret | alloc | drop | start | exit | reap | kill => exact hold pid

theorem step (inv : Nonneg es s) (h : Restrict Step (fun _ e _ => e.Nonneg) s e t) :
    Nonneg (es ++ [e]) t := by
  obtain ⟨⟨p, ch, hact⟩, hnn⟩ := h
  have heff := Effect.of_act hact
  constructor
  · intro pid
    rw [given_append]
    exact inv.record heff pid
  · intro q mask hq
    obtain hs | ⟨pid, r, rfl⟩ := pending_of_effect heff hq
    · exact inv.pending q mask hs
    · exact hnn

theorem run (h : Run (Restrict Step fun _ e _ => e.Nonneg) Sys.boot es s) : Nonneg es s := by
  apply h.history (I := Nonneg)
  · exact fun _ _ _ _ inv hstep => inv.step hstep
  · constructor
    · intro pid
      rw [given_nil]
      exact (by decide : 0 ≤ (0 : BitVec 32).toInt)
    · intro q mask hq
      have hpc : ∀ k, (Sys.boot.proc k).pc.mask = none := by decide
      rw [hpc] at hq
      cases hq

end Nonneg

theorem and_one_shift_eq_iff (mask : BitVec 32) {num : Nat} (h : num < 32) :
    (1 : BitVec 32) <<< num &&& mask = (1 : BitVec 32) <<< num ↔ mask.getLsbD num = true := by
  constructor
  · intro heq
    have hbit := congrArg (fun x => x.getLsbD num) heq
    simpa [h] using hbit
  · intro hbit
    ext i hi
    by_cases hin : i = num
    · subst hin
      rw [BitVec.getLsbD_eq_getElem h] at hbit
      simp [hbit]
    · have hother : ((1 : BitVec 32) <<< num)[i] = false := by
        simp only [BitVec.getElem_shiftLeft]
        grind
      simp only [BitVec.getElem_and, hother, Bool.false_and]

theorem eq_zero_of_not_slt (hmask : 0 ≤ mask.toInt)
    (h : (0 : BitVec 32).slt mask = false) : mask = 0 := by
  rw [BitVec.slt, decide_eq_false_iff_not] at h
  have hzero : (0 : BitVec 32).toInt = 0 := by decide
  apply BitVec.eq_of_toInt_eq
  omega

/-- For a mask that is not negative the test of `syscall` is a test of one bit. -/
theorem prints_eq {num : Nat} (hmask : 0 ≤ mask.toInt) (h : num < 32) :
    prints mask num = mask.getLsbD num := by
  rw [prints]
  cases hs : (0 : BitVec 32).slt mask with
  | false =>
    rw [eq_zero_of_not_slt hmask hs]
    simp
  | true =>
    rw [Bool.true_and, Bool.eq_iff_iff, beq_iff_eq]
    exact and_one_shift_eq_iff mask h

section Completeness

variable {s t : Sys} {p q k : Slot} {e : Event}

theorem Effect.frame (h : Effect s q e t) (forks : Forks s) (hpq : p ≠ q)
    (hp : (s.proc p).state = .live) :
    (t.proc p).pc = (s.proc p).pc ∧ (t.proc p).state = .live := by
  have hne : ∀ {k}, (s.proc k).state ≠ .live → p ≠ k := by
    intro k hk hpk
    exact hk (hpk ▸ hp)
  have hgoto : ∀ {u : Sys} {pc}, (u.proc p).pc = (s.proc p).pc ∧ (u.proc p).state = .live →
      ((u.goto q pc).proc p).pc = (s.proc p).pc ∧ ((u.goto q pc).proc p).state = .live := by
    intro u pc hu
    rw [Sys.goto_of_ne _ _ _ hpq]
    exact hu
  have hset : ∀ {k f}, p ≠ k → (((s.setProc k f).proc p).pc = (s.proc p).pc ∧
      ((s.setProc k f).proc p).state = .live) := by
    intro k f hpk
    rw [Sys.setProc_of_ne _ _ _ hpk]
    exact ⟨rfl, hp⟩
  have hfield : ∀ {k f}, (∀ x, (f x).pc = x.pc) → (∀ x, (f x).state = x.state) →
      (((s.setProc k f).proc p).pc = (s.proc p).pc ∧ ((s.setProc k f).proc p).state = .live) := by
    intro k f hpc hst
    rw [Sys.setProc_field s k p f Proc.pc hpc, Sys.setProc_field s k p f Proc.state hst]
    exact ⟨rfl, hp⟩
  cases h with
  | move | ret => exact hgoto ⟨rfl, hp⟩
  | stay => exact ⟨rfl, hp⟩
  | alloc _ hk =>
    apply hgoto
    rw [Sys.alloc_of_ne _ _ (hne (by rw [hk]; decide))]
    exact ⟨rfl, hp⟩
  | @drop k hq | @spawn k hq =>
    have hk : (s.proc k).state = .embryo := forks.state (by rw [hq]; rfl)
    exact hgoto (hset (hne (by rw [hk]; decide)))
  | @start k hq =>
    have hk : (s.proc k).state = .used := forks.state (by rw [hq]; rfl)
    exact hgoto (hset (hne (by rw [hk]; decide)))
  | exit => exact hset hpq
  | reap _ hk => exact hgoto (hset (hne (by rw [hk]; decide)))
  | kill | trace =>
    apply hgoto
    apply hfield
    · exact fun _ => rfl
    · exact fun _ => rfl

theorem Effect.settled (h : Effect s q e t) (forks : Forks s) (hk : (s.proc k).settled)
    (he : e ≠ .reaped (s.proc k).pid) :
    (t.proc k).settled ∧ (t.proc k).pid = (s.proc k).pid := by
  have hgoto : ∀ {u : Sys} {pc}, (u.proc k).settled ∧ (u.proc k).pid = (s.proc k).pid →
      ((u.goto q pc).proc k).settled ∧ ((u.goto q pc).proc k).pid = (s.proc k).pid := by
    intro u pc hu
    rw [Proc.settled, Sys.goto_state, Sys.goto_pid]
    exact hu
  -- a slot other than `k` is written, or `k` keeps its pid and stays settled
  have hset : ∀ {j f}, (k = j → (f (s.proc k)).settled ∧ (f (s.proc k)).pid = (s.proc k).pid) →
      ((s.setProc j f).proc k).settled ∧ ((s.setProc j f).proc k).pid = (s.proc k).pid := by
    intro j f hj
    by_cases hkj : k = j
    · subst hkj
      rw [Sys.setProc_self]
      exact hj rfl
    · rw [Sys.setProc_of_ne _ _ _ hkj]
      exact ⟨hk, rfl⟩
  cases h with
  | move | ret => exact hgoto ⟨hk, rfl⟩
  | stay => exact ⟨hk, rfl⟩
  | @alloc j _ hj =>
    have hkj : k ≠ j := by
      intro hkj
      exact hk.ne_unused (hkj ▸ hj)
    apply hgoto
    rw [Sys.alloc_of_ne _ _ hkj]
    exact ⟨hk, rfl⟩
  | @drop j hpc =>
    have hj : (s.proc j).state = .embryo := forks.state (by rw [hpc]; rfl)
    apply hgoto
    apply hset
    intro hkj
    rw [Proc.settled, hkj, hj] at hk
    simp at hk
  | spawn =>
    apply hgoto
    apply hset
    exact fun _ => ⟨.inl rfl, rfl⟩
  | start =>
    apply hgoto
    apply hset
    exact fun _ => ⟨.inr (.inl rfl), rfl⟩
  | exit =>
    apply hset
    exact fun _ => ⟨.inr (.inr rfl), rfl⟩
  | reap =>
    apply hgoto
    apply hset
    intro hkj
    exact absurd (by rw [hkj]) he
  | kill | trace =>
    apply hgoto
    apply hset
    exact fun _ => ⟨hk, rfl⟩

/-- The process `p` is in a call of `trace` that has not passed slot `k`. -/
def Pc.before (pc : Pc) (mask : BitVec 32) (pid : Int) (k : Slot) : Prop :=
  ∃ i, i ≤ k.val ∧ pc = .call (.trace mask pid) i

/-- One iteration of `trace` either comes closer to the slot or sets the mask. -/
theorem before_act {ch : Choice} (hpc : (s.proc p).pc.before mask (s.proc k).pid k)
    (h : s.act p ch = some (t, e)) :
    (t.proc p).state = .live ∧ (t.proc p).pc.before mask (s.proc k).pid k ∨
      e = .traced mask (s.proc k).pid := by
  obtain ⟨i, hi, hpc⟩ := hpc
  have hact := (Option.ite_none_right_eq_some.1 h).2
  rw [hpc] at hact
  cases ch with
  | go =>
    have hlt : i < NPROC := Nat.lt_of_le_of_lt hi k.isLt
    dsimp only at hact
    rw [Sys.inside, Sys.visit, dif_pos hlt] at hact
    split at hact
    next => cases hact
    next =>
      split at hact
      next =>
        cases hact
        exact .inr rfl
      next hpid =>
        cases hact
        refine .inl ⟨?_, i + 1, ?_, Sys.goto_pc ..⟩
        · rw [Sys.goto_state, live_of_act h]
        have hik : i ≠ k.val := by
          intro hik
          subst hik
          exact hpid rfl
        omega
  | call | unknown | slot | fail => cases hact

def Searching (s : Sys) (p k : Slot) (mask : BitVec 32) (es : List Event) (t : Sys) : Prop :=
  (t.proc k).settled ∧ (t.proc k).pid = (s.proc k).pid ∧
    ((t.proc p).state = .live ∧ (t.proc p).pc.before mask (s.proc k).pid k ∨
      .traced mask (s.proc k).pid ∈ es)

theorem Searching.step {u : Sys} {e : Event} (h : Searching s p k mask es t) (forks : Forks t)
    (hstep : Step t e u)
    (he : e ≠ .reaped (s.proc k).pid) : Searching s p k mask (es ++ [e]) u := by
  obtain ⟨hk, hpid, hdone⟩ := h
  obtain ⟨q, ch, hact⟩ := hstep
  have heff := Effect.of_act hact
  obtain ⟨hku, hpidu⟩ := heff.settled forks hk (hpid ▸ he)
  refine ⟨hku, hpidu.trans hpid, ?_⟩
  obtain ⟨hlive, hbefore⟩ | hmem := hdone
  · by_cases hpq : p = q
    · subst hpq
      rw [← hpid] at hbefore ⊢
      obtain hnext | rfl := before_act hbefore hact
      · exact .inl hnext
      · exact .inr (List.mem_append_right _ (List.mem_singleton_self _))
    · obtain ⟨hpc, hst⟩ := heff.frame forks hpq hlive
      rw [hpc]
      exact .inl ⟨hst, hbefore⟩
  · exact .inr (List.mem_append_left _ hmem)

theorem Searching.run (forks : Forks s) (h : Searching s p k mask [] s) (hrun : Run Step s es t)
    (hreap : .reaped (s.proc k).pid ∉ es) : Searching s p k mask es t := by
  induction hrun with
  | refl => exact h
  | tail hpre hlast ih =>
    rw [List.mem_append, List.mem_singleton, not_or] at hreap
    exact (ih hreap.1).step (forks.run hpre) hlast (Ne.symm hreap.2)

end Completeness

/-- With no negative mask, a call prints a trace line exactly when its bit is set in the mask
last given to the process; and a call of `trace` finds every process that stays in its slot. -/
theorem trace_follows {es : List Event} {s : Sys}
    (h : Run (Restrict Step fun _ e _ => e.Nonneg) Sys.boot es s) :
    (∀ t pid num printed, Step s (.returned pid num printed) t →
      (printed = true ↔ (given es pid).getLsbD num = true)) ∧
    ∀ p k mask, (s.proc p).state = .live → (s.proc k).settled →
      (s.proc p).pc = .call (.trace mask (s.proc k).pid) 0 →
      ∀ es' t, Run Step s es' t → .reaped (s.proc k).pid ∉ es' →
        (t.proc p).pc.before mask (s.proc k).pid k ∨ .traced mask (s.proc k).pid ∈ es' := by
  have inv := Inv.run h.of_restrict
  constructor
  · intro t pid num printed hstep
    obtain ⟨p, ch, hact⟩ := hstep
    obtain ⟨rfl, rfl, hnum⟩ := (Effect.of_act hact).returned
    have hsettled : (s.proc p).settled := .inr (.inl (live_of_act hact))
    rw [inv.masks p hsettled, prints_eq ((Nonneg.run h).given _) (by omega)]
  · intro p k mask hp hk hpc es' t hrun hreap
    have hstart : Searching s p k mask [] s := ⟨hk, rfl, .inl ⟨hp, 0, Nat.zero_le _, hpc⟩⟩
    exact ((hstart.run inv.forks hrun hreap).2.2).imp_left And.right

def getpid : Call := .other ⟨11, by decide⟩

/-- The first process sets the bit of `getpid` in its own mask and calls it. -/
theorem trace_follows_getpid :
    ∃ es s t, Run (Restrict Step fun _ e _ => e.Nonneg) Sys.boot es s ∧
      Step s (.returned 1 11 true) t ∧ (given es 1).getLsbD 11 = true := by
  have hcall : Restrict Step (fun _ e _ => e.Nonneg) Sys.boot (.called 1 (.trace 2048 1)) _ :=
    ⟨⟨0, .call (.trace 2048 1), rfl⟩, by decide⟩
  have hset := (Run.single hcall).tail ⟨⟨0, .go, rfl⟩, trivial⟩
  have hrun := ((hset.tail ⟨⟨0, .go, rfl⟩, trivial⟩).tail ⟨⟨0, .call getpid, rfl⟩, trivial⟩).tail
    ⟨⟨0, .go, rfl⟩, trivial⟩
  refine ⟨_, _, _, hrun, ⟨0, .go, rfl⟩, ?_⟩
  exact ((trace_follows hrun).1 _ _ _ _ ⟨0, .go, rfl⟩).1 rfl

/-- With the mask -1 every bit is set, but no line is printed. -/
theorem negative_mask_silent :
    ∃ es s t, Run Step Sys.boot es s ∧ Step s (.returned 1 22 false) t ∧
      (given es 1).getLsbD 22 = true :=
  ⟨_, _, _, ((Run.refl _).tail ⟨0, .call (.trace (-1) 1), rfl⟩).tail ⟨0, .go, rfl⟩,
    ⟨0, .go, rfl⟩, by decide⟩

end Xv6.Trace
