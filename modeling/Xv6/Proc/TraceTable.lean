import Xv6.Proc.Trace

/-!
# The process table of the tracing machine

Two invariants of every run: a `fork` under way owns the slot it fills, and the pids in use
are distinct.
-/

namespace Xv6.Trace

open Lib

structure Forks (s : Sys) : Prop where
  live : ∀ {p : Slot} {x : Slot × Procstate},
    (s.proc p).pc.fills = some x → (s.proc p).state = .live
  state : ∀ {p k : Slot} {st : Procstate},
    (s.proc p).pc.fills = some (k, st) → (s.proc k).state = st
  owner : ∀ {p q k : Slot} {st st' : Procstate},
    (s.proc p).pc.fills = some (k, st) → (s.proc q).pc.fills = some (k, st') → p = q

variable {pc : Pc} {f : Proc → Proc}

theorem Pc.fills_state {k : Slot} {st : Procstate} (h : pc.fills = some (k, st)) :
    st = .embryo ∨ st = .used := by
  cases pc with
  | copy => cases h; exact .inl rfl
  | start => cases h; exact .inr rfl
  | user | call | ret => cases h

namespace Forks

variable {s t : Sys} {p k : Slot}

theorem fills_of_not_live (inv : Forks s) (h : (s.proc k).state ≠ .live) :
    (s.proc k).pc.fills = none := by
  cases hf : (s.proc k).pc.fills with
  | none => rfl
  | some x => exact absurd (inv.live hf) h

theorem not_filled (inv : Forks s) (h : (s.proc k).state ≠ .embryo) (h' : (s.proc k).state ≠ .used)
    (q : Slot) (st : Procstate) :
    (s.proc q).pc.fills ≠ some (k, st) := by
  intro hq
  have hk := inv.state hq
  obtain rfl | rfl := Pc.fills_state hq
  · exact h hk
  · exact h' hk

/-- A step of `p` that changes the state of `k` alone, which no other `fork` fills. -/
theorem update (inv : Forks s) (hstate : ∀ j, j ≠ k → (t.proc j).state = (s.proc j).state)
    (hpc : ∀ q, q ≠ p → (t.proc q).pc.fills = (s.proc q).pc.fills)
    (hk : ∀ q st, q ≠ p → (s.proc q).pc.fills ≠ some (k, st))
    (hlk : k ≠ p → (s.proc k).pc.fills = none) (hp : (t.proc p).pc.fills = none ∨
      (t.proc p).pc.fills = some (k, (t.proc k).state) ∧ (t.proc p).state = .live) :
    Forks t where
  live {q x} hq := by
    by_cases hqp : q = p
    · subst hqp
      obtain hnone | ⟨_, hlive⟩ := hp
      · rw [hnone] at hq
        cases hq
      · exact hlive
    · rw [hpc q hqp] at hq
      by_cases hqk : q = k
      · subst hqk
        rw [hlk hqp] at hq
        cases hq
      · rw [hstate q hqk]
        exact inv.live hq
  state {q j st} hq := by
    by_cases hqp : q = p
    · subst hqp
      obtain hnone | ⟨hsome, _⟩ := hp
      · rw [hnone] at hq
        cases hq
      · rw [hsome] at hq
        cases hq
        rfl
    · rw [hpc q hqp] at hq
      have hjk : j ≠ k := by
        intro hjk
        subst hjk
        exact hk q st hqp hq
      rw [hstate j hjk]
      exact inv.state hq
  owner {q r j st st'} hq hr := by
    have hself : ∀ {st}, (t.proc p).pc.fills = some (j, st) → j = k := by
      intro st hj
      obtain hnone | ⟨hsome, _⟩ := hp
      · rw [hnone] at hj
        cases hj
      · rw [hsome] at hj
        cases hj
        rfl
    have hother : ∀ {u st}, u ≠ p → (t.proc u).pc.fills = some (j, st) → j ≠ k := by
      intro u st hu huj hjk
      subst hjk
      rw [hpc u hu] at huj
      exact hk u st hu huj
    by_cases hqp : q = p
    · by_cases hrp : r = p
      · rw [hqp, hrp]
      · exact absurd (hself (hqp ▸ hq)) (hother hrp hr)
    · by_cases hrp : r = p
      · exact absurd (hself (hrp ▸ hr)) (hother hqp hq)
      · rw [hpc q hqp] at hq
        rw [hpc r hrp] at hr
        exact inv.owner hq hr

theorem update_goto (inv : Forks s) (ht : t.proc = ((s.setProc k f).goto p pc).proc)
    (hf : (f (s.proc k)).pc.fills = (s.proc k).pc.fills)
    (hk : ∀ q st, q ≠ p → (s.proc q).pc.fills ≠ some (k, st))
    (hlk : k ≠ p → (s.proc k).pc.fills = none)
    (hp : pc.fills = none ∨ pc.fills = some (k, (f (s.proc k)).state) ∧
      (s.proc p).state = .live ∧ k ≠ p) : Forks t := by
  apply inv.update (k := k) (p := p)
  · intro j hj
    rw [ht, Sys.goto_state, Sys.setProc_of_ne _ _ _ hj]
  · intro q hq
    rw [ht, Sys.goto_of_ne _ _ _ hq]
    by_cases hqk : q = k
    · rw [hqk, Sys.setProc_self, hf]
    · rw [Sys.setProc_of_ne _ _ _ hqk]
  · exact hk
  · exact hlk
  · rw [ht, Sys.goto_pc, Sys.goto_state, Sys.goto_state, Sys.setProc_self]
    obtain hnone | ⟨hsome, hlive, hkp⟩ := hp
    · exact .inl hnone
    · rw [Sys.setProc_of_ne _ _ _ (Ne.symm hkp)]
      exact .inr ⟨hsome, hlive⟩

theorem update_quiet (inv : Forks s) (hlive : (s.proc p).state = .live)
    (hstate : ∀ j, j ≠ p → (t.proc j).state = (s.proc j).state)
    (hpc : ∀ q, q ≠ p → (t.proc q).pc = (s.proc q).pc) (hnew : (t.proc p).pc.fills = none) :
    Forks t := by
  apply inv.update (k := p) (p := p)
  · exact hstate
  · exact fun q hq => by rw [hpc q hq]
  · exact fun q st _ => inv.not_filled (by rw [hlive]; decide) (by rw [hlive]; decide) q st
  · exact fun h => absurd rfl h
  · exact .inl hnew

/-- The same for a step that writes another field of some slot. -/
theorem update_field (inv : Forks s) (hlive : (s.proc p).state = .live)
    (hst : ∀ x, (f x).state = x.state) (hf : ∀ x, (f x).pc = x.pc)
    (hnew : pc.fills = none) : Forks ((s.setProc k f).goto p pc) := by
  apply inv.update_quiet hlive
  · intro j _
    rw [Sys.goto_state, Sys.setProc_field s k j f Proc.state hst]
  · intro q hq
    rw [Sys.goto_of_ne _ _ _ hq, Sys.setProc_field s k q f Proc.pc hf]
  · rw [Sys.goto_pc]
    exact hnew

theorem step {e : Event} (inv : Forks s) (hlive : (s.proc p).state = .live)
    (h : Effect s p e t) : Forks t := by
  have hne : ∀ {k}, (s.proc k).state ≠ .live → k ≠ p := by
    intro k hk hkp
    exact hk (hkp ▸ hlive)
  cases h with
  | move _ hnew _ _ =>
    apply inv.update_quiet hlive
    · exact fun j _ => Sys.goto_state ..
    · exact fun q hq => by rw [Sys.goto_of_ne _ _ _ hq]
    · rw [Sys.goto_pc]
      exact hnew
  | ret =>
    apply inv.update_quiet hlive
    · exact fun j _ => Sys.goto_state ..
    · exact fun q hq => by rw [Sys.goto_of_ne _ _ _ hq]
    · rw [Sys.goto_pc]
      rfl
  | stay _ => exact inv
  | @alloc k _ hk =>
    have hkl : (s.proc k).state ≠ .live := by rw [hk]; decide
    exact inv.update_goto rfl rfl
      (fun q st _ => inv.not_filled (by rw [hk]; decide) (by rw [hk]; decide) q st)
      (fun _ => inv.fills_of_not_live hkl)
      (f := fun x => { x with state := .embryo, pid := s.nextpid })
      (.inr ⟨rfl, hlive, hne hkl⟩)
  | @drop k hp =>
    have hfill : (s.proc p).pc.fills = some (k, .embryo) := by rw [hp]; rfl
    have hkl : (s.proc k).state ≠ .live := by rw [inv.state hfill]; decide
    exact inv.update_goto rfl rfl (fun q st hq h => hq (inv.owner h hfill))
      (fun _ => inv.fills_of_not_live hkl) (.inl rfl)
  | @spawn k hp =>
    have hfill : (s.proc p).pc.fills = some (k, .embryo) := by rw [hp]; rfl
    have hkl : (s.proc k).state ≠ .live := by rw [inv.state hfill]; decide
    exact inv.update_goto rfl (inv.fills_of_not_live hkl).symm
      (fun q st hq h => hq (inv.owner h hfill)) (fun _ => inv.fills_of_not_live hkl)
      (.inr ⟨rfl, hlive, hne hkl⟩)
  | @start k hp =>
    have hfill : (s.proc p).pc.fills = some (k, .used) := by rw [hp]; rfl
    have hkl : (s.proc k).state ≠ .live := by rw [inv.state hfill]; decide
    exact inv.update_goto rfl rfl (fun q st hq h => hq (inv.owner h hfill))
      (fun _ => inv.fills_of_not_live hkl) (.inl rfl)
  | exit hold =>
    apply inv.update_quiet hlive
    · exact fun j hj => by rw [Sys.zombify, Sys.setProc_of_ne _ _ _ hj]
    · exact fun q hq => by rw [Sys.zombify, Sys.setProc_of_ne _ _ _ hq]
    · rw [Sys.zombify, Sys.setProc_self]
      exact hold
  | @reap k _ _ hk =>
    have hkl : (s.proc k).state ≠ .live := by rw [hk]; decide
    exact inv.update_goto rfl rfl
      (fun q st _ => inv.not_filled (by rw [hk]; decide) (by rw [hk]; decide) q st)
      (fun _ => inv.fills_of_not_live hkl) (.inl rfl)
  | kill _ => exact inv.update_field hlive (fun _ => rfl) (fun _ => rfl) rfl
  | trace => exact inv.update_field hlive (fun _ => rfl) (fun _ => rfl) rfl

theorem run {es : List Event} (h : Run Step s es t) (inv : Forks s) : Forks t := by
  apply h.invariant _ inv
  intro u e v hu hstep
  obtain ⟨p, ch, hact⟩ := hstep
  exact hu.step (live_of_act hact) (.of_act hact)

end Forks

structure Pids (s : Sys) : Prop where
  next : 0 < s.nextpid
  free : ∀ k, (s.proc k).state = .unused → (s.proc k).pid = 0
  bound : ∀ k, (s.proc k).state ≠ .unused → 0 < (s.proc k).pid ∧ (s.proc k).pid < s.nextpid
  distinct : ∀ j k, (s.proc j).state ≠ .unused → (s.proc k).state ≠ .unused →
    (s.proc j).pid = (s.proc k).pid → j = k

namespace Pids

variable {s t : Sys} {p k : Slot}

theorem eq_of_pid (inv : Pids s) {j : Slot} (hj : (s.proc j).state ≠ .unused)
    (h : (s.proc j).pid = (s.proc k).pid) : j = k := by
  apply inv.distinct j k hj _ h
  intro hk
  have hpos := (inv.bound j hj).1
  have hzero := inv.free k hk
  omega

theorem congr (inv : Pids s) (hnext : t.nextpid = s.nextpid)
    (hpid : ∀ k, (t.proc k).pid = (s.proc k).pid)
    (hstate : ∀ k, (t.proc k).state = .unused ↔ (s.proc k).state = .unused) : Pids t where
  next := by rw [hnext]; exact inv.next
  free k hk := by rw [hpid]; exact inv.free k ((hstate k).1 hk)
  bound k hk := by rw [hpid, hnext]; exact inv.bound k (mt (hstate k).2 hk)
  distinct j k hj hk h := by
    rw [hpid, hpid] at h
    exact inv.distinct j k (mt (hstate j).2 hj) (mt (hstate k).2 hk) h

theorem goto (inv : Pids s) (pc : Pc) : Pids (s.goto p pc) :=
  inv.congr rfl (fun _ => Sys.goto_pid ..) fun _ => by rw [Sys.goto_state]

theorem alloc (inv : Pids s) : Pids (s.alloc k) where
  next := by
    have := inv.next
    change 0 < s.nextpid + 1
    omega
  free j hj := by
    by_cases hjk : j = k
    · rw [hjk, Sys.alloc, Sys.setProc_self] at hj
      cases hj
    · rw [Sys.alloc, Sys.setProc_of_ne _ _ _ hjk] at hj ⊢
      exact inv.free j hj
  bound j hj := by
    change 0 < _ ∧ _ < s.nextpid + 1
    have := inv.next
    by_cases hjk : j = k
    · rw [hjk, Sys.alloc, Sys.setProc_self]
      dsimp only
      omega
    · rw [Sys.alloc, Sys.setProc_of_ne _ _ _ hjk] at hj ⊢
      have := inv.bound j hj
      omega
  distinct i j hi hj h := by
    have hfresh : ∀ {i}, i ≠ k → ((s.alloc k).proc i).state ≠ .unused →
        ((s.alloc k).proc i).pid < ((s.alloc k).proc k).pid := by
      intro i hik hi
      rw [Sys.alloc, Sys.setProc_of_ne _ _ _ hik] at hi ⊢
      rw [Sys.setProc_self]
      exact (inv.bound i hi).2
    by_cases hik : i = k
    · by_cases hjk : j = k
      · rw [hik, hjk]
      · have := hfresh hjk hj
        rw [hik] at h
        omega
    · by_cases hjk : j = k
      · have := hfresh hik hi
        rw [hjk] at h
        omega
      · rw [Sys.alloc, Sys.setProc_of_ne _ _ _ hik] at hi h
        rw [Sys.setProc_of_ne _ _ _ hjk] at h
        rw [Sys.alloc, Sys.setProc_of_ne _ _ _ hjk] at hj
        exact inv.distinct i j hi hj h

theorem freeproc (inv : Pids s) : Pids (s.freeproc k) where
  next := inv.next
  free j hj := by
    by_cases hjk : j = k
    · rw [hjk, Sys.freeproc, Sys.setProc_self]
    · rw [Sys.freeproc, Sys.setProc_of_ne _ _ _ hjk] at hj ⊢
      exact inv.free j hj
  bound j hj := by
    by_cases hjk : j = k
    · rw [hjk, Sys.freeproc, Sys.setProc_self] at hj
      exact absurd rfl hj
    · rw [Sys.freeproc, Sys.setProc_of_ne _ _ _ hjk] at hj ⊢
      exact inv.bound j hj
  distinct i j hi hj h := by
    have hne : ∀ {i}, ((s.freeproc k).proc i).state ≠ .unused → i ≠ k := by
      intro i hi hik
      rw [hik, Sys.freeproc, Sys.setProc_self] at hi
      exact hi rfl
    rw [Sys.freeproc, Sys.setProc_of_ne _ _ _ (hne hi), Sys.setProc_of_ne _ _ _ (hne hj)] at h
    rw [Sys.freeproc, Sys.setProc_of_ne _ _ _ (hne hi)] at hi
    rw [Sys.freeproc, Sys.setProc_of_ne _ _ _ (hne hj)] at hj
    exact inv.distinct i j hi hj h

theorem setState (inv : Pids s) (hpid : ∀ x, (f x).pid = x.pid) (hold : (s.proc k).state ≠ .unused)
    (hnew : (f (s.proc k)).state ≠ .unused) :
    Pids (s.setProc k f) := by
  apply inv.congr (t := s.setProc k f) rfl
  · exact fun j => Sys.setProc_field s k j f Proc.pid hpid
  · intro j
    by_cases hjk : j = k
    · rw [hjk, Sys.setProc_self]
      exact ⟨fun h => absurd h hnew, fun h => absurd h hold⟩
    · rw [Sys.setProc_of_ne _ _ _ hjk]

theorem setField (inv : Pids s) (hpid : ∀ x, (f x).pid = x.pid)
    (hstate : ∀ x, (f x).state = x.state) : Pids (s.setProc k f) := by
  apply inv.congr (t := s.setProc k f) rfl
  · exact fun j => Sys.setProc_field s k j f Proc.pid hpid
  · exact fun j => by rw [Sys.setProc_field s k j f Proc.state hstate]

theorem step {e : Event} (inv : Pids s) (forks : Forks s) (hlive : (s.proc p).state = .live)
    (h : Effect s p e t) : Pids t := by
  cases h with
  | move | ret => exact inv.goto _
  | stay => exact inv
  | alloc => exact inv.alloc.goto _
  | drop | reap => exact inv.freeproc.goto _
  | @spawn k hp =>
    have hk : (s.proc k).state = .embryo := forks.state (by rw [hp]; rfl)
    apply Pids.goto
    apply inv.setState
    · exact fun _ => rfl
    · rw [hk]; decide
    · nofun
  | @start k hp =>
    have hk : (s.proc k).state = .used := forks.state (by rw [hp]; rfl)
    apply Pids.goto
    apply inv.setState
    · exact fun _ => rfl
    · rw [hk]; decide
    · nofun
  | exit =>
    apply inv.setState
    · exact fun _ => rfl
    · rw [hlive]; decide
    · nofun
  | kill =>
    apply Pids.goto
    apply inv.setField
    · exact fun _ => rfl
    · exact fun _ => rfl
  | trace =>
    apply Pids.goto
    apply inv.setField
    · exact fun _ => rfl
    · exact fun _ => rfl

end Pids

end Xv6.Trace
