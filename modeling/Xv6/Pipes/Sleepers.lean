import Xv6.Pipes.Machine

/-!
# Who sleeps on a pipe has a reason to

A process may sleep in `piperead` only while the pipe is empty and open for writing,
and in `pipewrite` only while it is full and open for reading.  Where that stops
being so, the process that holds `pi->lock` is on its way to a `wakeup`, with one
exception: a writer that is killed between two bytes returns without it.
-/

namespace Xv6.Pipes

open Lib

variable {m : Nat}

def Pipe.Calm (pi : Pipe) : Chan → Prop
  | .nread => pi.nread = pi.nwrite ∧ pi.writeopen = true
  | .nwrite => pi.nwrite = pi.nread + 512 ∧ pi.readopen = true

def Pc.holds : Pc → Bool
  | user => false
  | writeAcquire .. => false
  | writeDoze .. => false
  | readAcquire .. => false
  | readDoze .. => false
  | closeAcquire _ => false
  | _ => true

/-- The channel a process is about to sleep on, or sleeps on. -/
def Pc.chan : Pc → Option Chan
  | writeDoze .. => some .nwrite
  | writeAcquire .. => some .nwrite
  | readDoze .. => some .nread
  | readAcquire .. => some .nread
  | _ => none

def Pc.tested : Pc → Option Chan
  | writeFull .. => some .nwrite
  | writeSleep .. => some .nwrite
  | readSleep .. => some .nread
  | _ => none

def Proc.Rests (q : Proc) (c : Chan) : Prop :=
  q.pc.chan = some c ∧ (q.chan = some c ∨ q.pc.dozing = true)

def Sys.Wakes (s : Sys m) (q : Proc) (k : Nat) : Chan → Prop
  | .nread =>
    match q.pc with
    | .writeLoop .. => q.killed = false ∧ s.pipe.readopen = true
    | .writeFull _ _ _ j => j ≤ k
    | .writeDone _ j => j ≤ k
    | .closeWake true j => j ≤ k
    | _ => False
  | .nwrite =>
    match q.pc with
    | .readLoop .. => True
    | .readDone _ j => j ≤ k
    | .closeWake false j => j ≤ k
    | _ => False

structure Attended (s : Sys m) : Prop where
  own : ∀ p, s.lock = some p ↔ (s.procs p).pc.holds = true
  chan : ∀ p c, (s.procs p).chan = some c → (s.procs p).pc.chan = some c ∧
    (s.procs p).pc.dozing = false
  tested : ∀ p c, (s.procs p).pc.tested = some c → s.pipe.Calm c
  rests : ∀ q c, (s.procs q).Rests c →
    s.pipe.Calm c ∨ ∃ p, s.lock = some p ∧ s.Wakes (s.procs p) q.val c

variable {a b : Pc} {c : Chan}

theorem Pc.holds_of_tested (h : a.tested = some c) : a.holds = true := by
  cases a <;> first | rfl | cases h

theorem Pc.chan_of_holds (h : a.holds = true) : a.chan = none := by
  cases a <;> first | rfl | cases h

namespace Attended

variable {s t : Sys m} {p : Fin m} {e : Event m}

/-- Who holds the lock is the only one who may be about to wake a sleeper. -/
theorem held (h : Attended s) (hp : (s.procs p).pc.holds = true) {q : Fin m}
    (hq : (s.procs q).Rests c) : s.pipe.Calm c ∨ s.Wakes (s.procs p) q.val c := by
  rcases h.rests q c hq with hcalm | ⟨r, hr, hwakes⟩
  · exact .inl hcalm
  · rw [(h.own p).2 hp] at hr
    cases hr
    exact .inr hwakes

theorem update (h : Attended s) (hother : ∀ q, q ≠ p → t.procs q = s.procs q)
    (hlock : ∀ q, q ≠ p → (t.lock = some q ↔ s.lock = some q))
    (hown : t.lock = some p ↔ (t.procs p).pc.holds = true)
    (hchan : ∀ c, (t.procs p).chan = some c → (t.procs p).pc.chan = some c ∧
      (t.procs p).pc.dozing = false) (htested : ∀ c, (t.procs p).pc.tested = some c → t.pipe.Calm c)
    (hpipe : t.pipe = s.pipe ∨ s.lock = some p) (hrests : ∀ q c, (t.procs q).Rests c →
      t.pipe.Calm c ∨ ∃ r, t.lock = some r ∧ t.Wakes (t.procs r) q.val c) : Attended t where
  own q := by
    by_cases hq : q = p
    · subst hq
      exact hown
    · rw [hlock q hq, hother q hq]
      exact h.own q
  chan q c hc := by
    by_cases hq : q = p
    · subst hq
      exact hchan c hc
    · rw [hother q hq] at hc ⊢
      exact h.chan q c hc
  tested q c hc := by
    by_cases hq : q = p
    · subst hq
      exact htested c hc
    · rw [hother q hq] at hc
      rcases hpipe with heq | hp
      · rw [heq]
        exact h.tested q c hc
      · have hlocked := (h.own q).2 (Pc.holds_of_tested hc)
        rw [hp] at hlocked
        exact absurd (Option.some.inj hlocked).symm hq
  rests := hrests

/-- A step of process `p` with the lock in its hands, before and after. -/
theorem inside (h : Attended s) (hp : (s.procs p).pc.holds = true)
    (hother : ∀ q, q ≠ p → t.procs q = s.procs q) (hlock : t.lock = s.lock)
    (hp' : (t.procs p).pc.holds = true) (hchan : (t.procs p).chan = none)
    (htested : ∀ c, (t.procs p).pc.tested = some c → t.pipe.Calm c)
    (hrests : ∀ q c, (s.procs q).Rests c → (s.pipe.Calm c ∨ s.Wakes (s.procs p) q.val c) →
      t.pipe.Calm c ∨ t.Wakes (t.procs p) q.val c) : Attended t := by
  have hlocked := (h.own p).2 hp
  refine h.update hother (fun q _ => by rw [hlock]) ?_ ?_ htested (.inr hlocked) ?_
  · rw [hlock, hlocked, hp']
    simp
  · intro c hc
    rw [hchan] at hc
    cases hc
  · intro q c hq
    by_cases hqp : q = p
    · subst hqp
      rw [Proc.Rests, Pc.chan_of_holds hp'] at hq
      cases hq.1
    · rw [hother q hqp] at hq
      rcases hrests q c hq (h.held hp hq) with hcalm | hwakes
      · exact .inl hcalm
      · exact .inr ⟨p, by rw [hlock, hlocked], hwakes⟩

/-- A step of process `p` that neither holds nor takes the lock, or gives nothing away. -/
theorem outside (h : Attended s) (hother : ∀ q, q ≠ p → t.procs q = s.procs q)
    (hlock : t.lock = s.lock) (hpipe : t.pipe = s.pipe)
    (hholds : (t.procs p).pc.holds = (s.procs p).pc.holds)
    (hchan : ∀ c, (t.procs p).chan = some c → (t.procs p).pc.chan = some c ∧
      (t.procs p).pc.dozing = false) (htested : (t.procs p).pc.tested = (s.procs p).pc.tested)
    (hrest : ∀ c, (t.procs p).Rests c → (s.procs p).Rests c)
    (hwakes : ∀ k c, s.Wakes (s.procs p) k c → t.Wakes (t.procs p) k c) : Attended t := by
  refine h.update hother (fun q _ => by rw [hlock]) ?_ hchan ?_ (.inl hpipe) ?_
  · rw [hlock, hholds]
    exact h.own p
  · intro c hc
    rw [htested] at hc
    rw [hpipe]
    exact h.tested p c hc
  · intro q c hq
    have hold : (s.procs q).Rests c := by
      by_cases hqp : q = p
      · subst hqp
        exact hrest c hq
      · rwa [hother q hqp] at hq
    rw [hpipe]
    rcases h.rests q c hold with hcalm | ⟨r, hr, hw⟩
    · exact .inl hcalm
    · refine .inr ⟨r, by rw [hlock, hr], ?_⟩
      by_cases hrp : r = p
      · subst hrp
        exact hwakes q.val c hw
      · rw [hother r hrp]
        cases c <;> simpa only [Sys.Wakes, hpipe] using hw

/-- A `wakeup` from process number `k` on still comes to those from `k` on. -/
theorem wakes_iff {d : Chan} {k n : Nat} {q : Proc} (hmove : Waking c k a b) :
    (q.pc = a → (s.Wakes q n d ↔ d = c ∧ k ≤ n)) ∧
      (q.pc = b → (s.Wakes q n d ↔ d = c ∧ k + 1 ≤ n)) := by
  cases hmove with
  | close => rename_i w; cases w <;> cases d <;> simp +contextual [Sys.Wakes, closeChan]
  | _ => cases d <;> simp +contextual [Sys.Wakes]

/-- Moving on inside the lock, the process does not forget whom to wake. -/
theorem wakes_pass (hpc : (s.procs p).pc = a) (hmove : Pass s p a b) {q : Fin m}
    (hw : s.Wakes (s.procs p) q.val c) :
    (s.goto p b).Wakes ((s.goto p b).procs p) q.val c := by
  rw [Sys.goto_eq, Sys.setProc_procs_self]
  have hq := q.isLt
  cases hmove with
  | abort hstop =>
    cases c <;> simp only [Sys.Wakes, hpc] at hw
    rcases hstop with hclosed | hkilled
    · simp [hclosed] at hw
    · simp [hkilled] at hw
  | full | written | emptied => cases c <;> simp_all [Sys.Wakes]
  | cancel | wait | start => cases c <;> simp [Sys.Wakes, hpc] at hw
  | rest hk | writeEnd hk | readEnd hk =>
    cases c <;> simp only [Sys.Wakes, hpc] at hw
    omega
  | @closed w k hk =>
    cases w <;> cases c <;> simp only [Sys.Wakes, hpc] at hw <;> omega

theorem wake {j : Fin m} (h : Attended s) (hpc : (s.procs p).pc = a)
    (hawake : (s.procs p).chan = none) (hmove : Waking c j.val a b)
    (hj : j = p ∨ (s.procs j).pc.dozing = false) : Attended ((s.rouse p c j).goto p b) := by
  have hholds : a.holds = true ∧ b.holds = true := by
    cases hmove <;> exact ⟨rfl, rfl⟩
  have hlocked : s.lock = some p := (h.own p).2 (by rw [hpc]; exact hholds.1)
  have hself : ((s.rouse p c j).goto p b).procs p =
      { pc := b, killed := (s.procs p).killed, chan := none } := by
    obtain ⟨-, hkilled, hchan⟩ := s.rouse_procs p c j p
    rw [Sys.goto_eq, Sys.setProc_procs_self]
    simp [hkilled, hchan, hawake]
  have hother : ∀ q, q ≠ p → (((s.rouse p c j).goto p b).procs q) = (s.rouse p c j).procs q :=
    fun q hq => by rw [Sys.goto_eq, Sys.setProc_procs_of_ne _ _ _ hq]
  have htested : a.tested = b.tested := by
    cases hmove <;> rfl
  constructor
  case own =>
    intro q
    by_cases hq : q = p
    · subst hq
      simp [hholds.2, hlocked]
    · rw [hother q hq, (s.rouse_procs p c j q).1, ← h.own q]
      simp
  case chan =>
    intro q d hd
    by_cases hq : q = p
    · subst hq
      rw [hself] at hd
      cases hd
    · rw [hother q hq] at hd ⊢
      obtain ⟨hpcq, -, hchanq⟩ := s.rouse_procs p c j q
      rw [hchanq] at hd
      split at hd
      · cases hd
      · rw [hpcq]
        exact h.chan q d hd
  case tested =>
    intro q d hd
    simp only [Sys.goto_eq, Sys.setProc_pipe, Sys.rouse_pipe]
    by_cases hq : q = p
    · subst hq
      rw [hself] at hd
      exact h.tested q d (by rw [hpc, htested]; exact hd)
    · rw [hother q hq, (s.rouse_procs p c j q).1] at hd
      exact h.tested q d hd
  case rests =>
    intro q d hd
    by_cases hq : q = p
    · subst hq
      rw [hself, Proc.Rests, Pc.chan_of_holds hholds.2] at hd
      cases hd.1
    · obtain ⟨hpcq, -, hchanq⟩ := s.rouse_procs p c j q
      rw [hother q hq, Proc.Rests, hpcq, hchanq] at hd
      have hold : (s.procs q).Rests d := by
        refine ⟨hd.1, hd.2.imp_left fun hc => ?_⟩
        split at hc
        · cases hc
        · exact hc
      simp only [Sys.goto_eq, Sys.setProc_pipe, Sys.rouse_pipe]
      rcases h.held (by rw [hpc]; exact hholds.1) hold with hcalm | hwakes
      · exact .inl hcalm
      · refine .inr ⟨p, by simpa using hlocked, ?_⟩
        obtain ⟨rfl, hle⟩ := ((wakes_iff hmove).1 hpc).1 hwakes
        refine ((wakes_iff hmove).2 (by rw [Sys.setProc_procs_self])).2 ⟨rfl, ?_⟩
        -- process `j` itself was asleep on the channel and has been woken
        have hne : j ≠ q := by
          rintro rfl
          have hdoze := hj.resolve_left hq
          rcases hold.2 with hc | hc
          · simp [hc, hq, hdoze] at hd
          · rw [hdoze] at hc
            cases hc
        have hval : j.val ≠ q.val := fun heq => hne (Fin.ext heq)
        omega

end Attended

/-- A `kill` does not hit a process that is in the loop of `pipewrite`, with the lock. -/
def Spared (s : Sys m) (e : Event m) : Prop :=
  ∀ p, e = .killed p → ∀ src i n, (s.procs p).pc ≠ .writeLoop src i n

namespace Attended

variable {s t : Sys m} {p : Fin m} {e : Event m}

theorem step (h : Attended s) (hm : Move s p t e)
    (hawake : (s.procs p).chan = none ∨ (∃ o, e = .called p o) ∨ e = .killed p)
    (hspared : Spared s e) : Attended t := by
  have hset : ∀ (u : Sys m) (f : Proc → Proc), u.procs = s.procs →
      ∀ q, q ≠ p → (u.setProc p f).procs q = s.procs q := by
    intro u f hu q hq
    rw [Sys.setProc_procs_of_ne _ _ _ hq, hu]
  cases hm with
  | @acquire a b hpc hmove hlock =>
    have hchan : (s.procs p).chan = none := by simpa using hawake
    refine h.update (hset _ _ rfl) ?_ ?_ ?_ ?_ (.inl rfl) ?_
    · intro q hq
      simp [hlock, Ne.symm hq]
    · simp only [Sys.goto_eq, Sys.setProc_procs_self, Sys.setProc_lock, Sys.setLock_lock]
      cases hmove <;> simp [Pc.holds]
    · simp [hchan]
    · simp only [Sys.goto_eq, Sys.setProc_procs_self]
      cases hmove <;> simp [Pc.tested]
    · intro q c hq
      by_cases hqp : q = p
      · subst hqp
        rw [Proc.Rests, Sys.goto_eq, Sys.setProc_procs_self] at hq
        cases hmove <;> cases hq.1
      · rw [Sys.goto_eq, Sys.setProc_procs_of_ne _ _ _ hqp] at hq
        rcases h.rests q c hq with hcalm | ⟨r, hr, -⟩
        · exact .inl hcalm
        · rw [hlock] at hr
          cases hr
  | @pass a b hpc hmove =>
    have hchan : (s.procs p).chan = none := by simpa using hawake
    have hholds : a.holds = true ∧ b.holds = true := by
      cases hmove <;> exact ⟨rfl, rfl⟩
    refine h.inside (p := p) (by rw [hpc]; exact hholds.1) (hset _ _ rfl) rfl ?_ ?_ ?_ ?_
    · simpa using hholds.2
    · simpa using hchan
    · simp only [Sys.goto_eq, Sys.setProc_procs_self]
      intro c hc
      cases hmove with
      | full hfull hopen => cases hc; exact ⟨by simpa [Pipe.full] using hfull, hopen⟩
      | wait hempty hopen => cases hc; exact ⟨by simpa [Pipe.empty] using hempty, hopen⟩
      | rest => exact h.tested p c (by rw [hpc]; exact hc)
      | _ => cases hc
    · rintro q c - (hcalm | hwakes)
      · exact .inl hcalm
      · exact .inr (wakes_pass hpc hmove hwakes)
  | wake hpc hmove hj => exact h.wake hpc (by simpa using hawake) hmove hj
  | @put src i n ch hpc hopen halive hroom hch =>
    have hchan : (s.procs p).chan = none := by simpa using hawake
    refine h.inside (p := p) (by rw [hpc]; rfl) (hset _ _ rfl) rfl ?_ ?_ ?_ ?_
    · simp [Pc.holds]
    · simpa using hchan
    · simp [Pc.tested]
    · rintro q (c | c) - hq
      · right
        simp [Sys.Wakes, halive, Pipe.put, hopen]
      · -- the pipe is not full, so nobody sleeps until there is room
        have hfull : s.pipe.nwrite ≠ s.pipe.nread + 512 := by simpa [Pipe.full] using hroom
        simp [Pipe.Calm, Sys.Wakes, hpc, hfull] at hq
  | take hpc hi hsome hdst | lose hpc hi hsome hdst =>
    have hchan : (s.procs p).chan = none := by simpa using hawake
    refine h.inside (p := p) (by rw [hpc]; rfl) (hset _ _ rfl) rfl ?_ ?_ ?_ ?_
    · simp [Pc.holds]
    · simpa using hchan
    · simp [Pc.tested]
    · rintro q (c | c) - hq
      · -- the pipe is not empty, so nobody sleeps until there is something to read
        have hempty : s.pipe.nread ≠ s.pipe.nwrite := by simpa [Pipe.empty] using hsome
        simp [Pipe.Calm, Sys.Wakes, hpc, hempty] at hq
      · right
        simp [Sys.Wakes]
  | @release a b e hpc hmove he =>
    have hchan : (s.procs p).chan = none := by
      rcases hawake with hnone | ⟨o, ho⟩ | hk
      · exact hnone
      · rcases he with he | he | ⟨r, he⟩ <;> rw [he] at ho <;> cases ho
      · rcases he with he | he | ⟨r, he⟩ <;> rw [he] at hk <;> cases hk
    have hholds : (s.procs p).pc.holds = true := by
      rw [hpc]
      cases hmove <;> rfl
    have hlocked := (h.own p).2 hholds
    refine h.update (p := p) (hset _ _ rfl) ?_ ?_ ?_ ?_ (.inl rfl) ?_
    · intro q hq
      simp [hlocked, Ne.symm hq]
    · simp only [Sys.goto_eq, Sys.setProc_procs_self, Sys.setProc_lock, Sys.setLock_lock]
      cases hmove <;> simp [Pc.holds]
    · simp [hchan]
    · simp only [Sys.goto_eq, Sys.setProc_procs_self]
      cases hmove <;> simp [Pc.tested]
    · intro q c hq
      left
      by_cases hqp : q = p
      · subst hqp
        rw [Proc.Rests, Sys.goto_eq, Sys.setProc_procs_self] at hq
        refine h.tested q c ?_
        rw [hpc]
        cases hmove <;> exact hq.1
      · rw [Sys.goto_eq, Sys.setProc_procs_of_ne _ _ _ hqp] at hq
        refine (h.held hholds hq).resolve_right fun hwakes => ?_
        cases hmove <;> cases c <;> simp [Sys.Wakes, hpc] at hwakes
  | @doze a b c hpc hmove =>
    refine h.outside (p := p) (hset _ _ rfl) rfl rfl ?_ ?_ ?_ ?_ ?_
    · rw [Sys.setProc_procs_self, hpc]
      cases hmove <;> rfl
    · rw [Sys.setProc_procs_self]
      intro d hd
      cases hd
      cases hmove <;> exact ⟨rfl, rfl⟩
    · rw [Sys.setProc_procs_self, hpc]
      cases hmove <;> rfl
    · intro d hd
      rw [Proc.Rests, Sys.setProc_procs_self] at hd
      rw [Proc.Rests, hpc]
      cases hmove <;> exact ⟨hd.1, .inr rfl⟩
    · intro k d hw
      cases hmove <;> cases d <;> simp [Sys.Wakes, hpc] at hw
  | @shut w hpc =>
    have hchan : (s.procs p).chan = none := by simpa using hawake
    refine h.inside (p := p) (by rw [hpc]; rfl) (hset _ _ rfl) rfl ?_ ?_ ?_ ?_
    · simp [Pc.holds]
    · simpa using hchan
    · simp [Pc.tested]
    · intro q c _ hq
      cases w <;> cases c <;> simp_all [Sys.Wakes, Pipe.Calm, Pipe.shut]
  | @call o hpc =>
    have hchan : (s.procs p).chan = none := by
      cases hc : (s.procs p).chan with
      | none => rfl
      | some c =>
        have hsleep := (h.chan p c hc).1
        rw [hpc] at hsleep
        cases hsleep
    refine h.outside (p := p) (hset _ _ rfl) rfl rfl ?_ ?_ ?_ ?_ ?_
    · rw [Sys.goto_eq, Sys.setProc_procs_self, hpc]
      cases o <;> rfl
    · simp [hchan]
    · rw [Sys.goto_eq, Sys.setProc_procs_self, hpc]
      cases o <;> rfl
    · intro d hd
      rw [Sys.goto_eq, Proc.Rests, Sys.setProc_procs_self] at hd
      cases o <;> simp [hchan, Op.start, Pc.dozing] at hd
    · intro k d hw
      cases d <;> simp [Sys.Wakes, hpc] at hw
  | kill hdoze =>
    refine h.outside (p := p) (hset _ _ rfl) rfl rfl ?_ ?_ ?_ ?_ ?_
    · rw [Sys.setProc_procs_self]
    · simp
    · rw [Sys.setProc_procs_self]
    · intro d hd
      rw [Proc.Rests, Sys.setProc_procs_self] at hd
      simp [hdoze] at hd
    · intro k d hw
      have hout := hspared p rfl
      cases d <;> simp only [Sys.Wakes, Sys.setProc_procs_self] at hw ⊢ <;> split at hw <;> simp_all

theorem boot (data : Fin PIPESIZE → UInt8) (c : UInt32) : Attended (fresh data c : Sys m) where
  own p := by simp [fresh, Pc.holds]
  chan p c hc := by simp [fresh] at hc
  tested p c hc := by simp [fresh, Pc.tested] at hc
  rests q c hq := by simp [fresh, Proc.Rests, Pc.chan] at hq

end Attended

/-- In every state in which `pi->lock` is free, who sleeps in `piperead` sleeps on an
empty pipe that is open for writing, and who sleeps in `pipewrite` on a full one that
is open for reading, as long as no writer is killed between two bytes. -/
theorem sleepers_attended {data : Fin PIPESIZE → UInt8} {c : UInt32} {es : List (Event m)}
    {s : Sys m} (h : Run (Restrict Step fun s e _ => Spared s e) (fresh data c) es s)
    (hfree : s.lock = none) (p : Fin m) :
    ((s.procs p).chan = some .nread → s.pipe.nread = s.pipe.nwrite ∧ s.pipe.writeopen = true) ∧
    ((s.procs p).chan = some .nwrite →
      s.pipe.nwrite = s.pipe.nread + 512 ∧ s.pipe.readopen = true) := by
  have hinv : Attended s := by
    refine h.invariant (I := Attended) ?_ (.boot data c)
    rintro s e t hs ⟨hstep, hspared⟩
    obtain ⟨q, hm, hawake⟩ := hstep.move
    exact hs.step hm hawake hspared
  have hcalm : ∀ c, (s.procs p).chan = some c → s.pipe.Calm c := by
    intro c hc
    refine (hinv.rests p c ⟨(hinv.chan p c hc).1, .inl hc⟩).resolve_right ?_
    rintro ⟨q, hq, -⟩
    rw [hfree] at hq
    cases hq
  exact ⟨hcalm .nread, hcalm .nwrite⟩

/-- A reader asleep on a new pipe. -/
theorem sleepers_attended_reader :
    ∃ (es : List (Event 1)) (s : Sys 1),
      Run (Restrict Step fun s e _ => Spared s e) (fresh (fun _ => 0) 0) es s ∧
      s.lock = none ∧ (s.procs 0).chan = some .nread ∧
      s.pipe.nread = s.pipe.nwrite ∧ s.pipe.writeopen = true := by
  have hcheck : (Lib.trace Sys.next (fresh (fun _ => 0) 0 : Sys 1)
      (.call 0 (.read (fun _ => true) 1) :: List.replicate 4 (.go 0))).any
      (fun x => x.1.lock == none && (x.1.procs 0).chan == some .nread &&
        x.2.all fun e => match e with
          | .killed _ => false
          | _ => true) = true := by
    decide +kernel
  obtain ⟨⟨s, es⟩, hs, hcheck⟩ := (Option.any_eq_true _ _).1 hcheck
  simp only [Bool.and_eq_true, beq_iff_eq, List.all_eq_true] at hcheck
  obtain ⟨⟨hlock, hchan⟩, hspared⟩ := hcheck
  have hrun : Run (Restrict Step fun s e _ => Spared s e) (fresh (fun _ => 0) 0 : Sys 1) es s := by
    refine ((Lib.trace_run Sys.next_step hs).restrict
      (C := fun e => ∀ p, e ≠ .killed p) fun e he p hp => ?_).mono ?_
    · have hok := hspared e he
      rw [hp] at hok
      cases hok
    · rintro s e t ⟨hstep, hnot⟩
      exact ⟨hstep, fun p hp => absurd hp (hnot p)⟩
  exact ⟨es, s, hrun, hlock, hchan, (sleepers_attended hrun hlock 0).1 hchan⟩

/-- A reader sleeps on the empty pipe; a writer stores a byte, is killed, and returns
at the next round without `wakeup(&pi->nread)`. -/
theorem reader_forgotten :
    ∃ (es : List (Event 2)) (s : Sys 2), Run Step (fresh (fun _ => 0) 0) es s ∧
      s.lock = none ∧ (s.procs 0).chan = some .nread ∧ s.pipe.nread ≠ s.pipe.nwrite := by
  have hcheck : (Lib.trace Sys.next (fresh (fun _ => 0) 0 : Sys 2)
      ([[.call 0 (.read (fun _ => true) 1)], List.replicate 4 (.go 0),
        [.call 1 (.write (fun i => [5, 6][i]?) 2), .go 1, .go 1, .kill 1, .go 1,
          .go 1]].flatten)).any
      (fun x => x.1.lock == none && (x.1.procs 0).chan == some .nread &&
        x.1.pipe.nread != x.1.pipe.nwrite) = true := by
    decide +kernel
  obtain ⟨⟨s, es⟩, hs, hcheck⟩ := (Option.any_eq_true _ _).1 hcheck
  simp only [Bool.and_eq_true, beq_iff_eq, bne_iff_ne] at hcheck
  exact ⟨es, s, Lib.trace_run Sys.next_step hs, hcheck.1.1, hcheck.1.2, hcheck.2⟩

end Xv6.Pipes
