import Xv6.Sleep.Machine

/-!
# Sleep locks exclude

What a lock and the processes that use it look like from one lock, and the invariant
that every move keeps: at most one process owns the lock, the lock's `pid` is the
owner's, and whoever sleeps on a lock that nobody owns is about to be woken.
-/

namespace Xv6.Sleep

open Lib

variable {L : Type} [DecidableEq L] {m : Nat}

structure Shot (m : Nat) where
  lock : Lock m
  pid : Fin m → Int
  pt : Fin m → Option Point
  chan : Fin m → Bool
  has : Fin m → Bool

def Proc.point (x : Proc L) (l : L) : Option Point :=
  match x.pc with
  | some (l', a) => if l' = l then some a else none
  | none => none

def Sys.shot (s : Sys L m) (l : L) : Shot m where
  lock := s.lock l
  pid := fun p => (s.proc p).pid
  pt := fun p => (s.proc p).point l
  chan := fun p => (s.proc p).chan = some l
  has := fun p => (s.proc p).has l

namespace Point

def owns : Point → Bool
  | setPid => true
  | acquired => true
  | release => true
  | clearLocked => true
  | _ => false

def named : Point → Bool
  | acquired => true
  | release => true
  | clearLocked => true
  | _ => false

/-- The process found the lock free or has freed it. -/
def free : Point → Bool
  | setLocked => true
  | clearPid => true
  | wakeup _ => true
  | released => true
  | _ => false

/-- The process found the lock taken. -/
def taken : Point → Bool
  | sleepAcquire => true
  | sleepRelease => true
  | _ => false

def wakes (q : Fin m) : Point → Bool
  | clearPid => true
  | wakeup k => k ≤ q.val
  | _ => false

theorem inside_of_free (a : Point) (h : a.free = true) : a.inside = true := by
  cases a <;> first | rfl | cases h

theorem inside_of_taken (a : Point) (h : a.taken = true) : a.inside = true := by
  cases a <;> first | rfl | cases h

theorem inside_of_wakes (q : Fin m) (a : Point) (h : a.wakes q = true) : a.inside = true := by
  cases a <;> first | rfl | cases h

theorem owns_of_named (a : Point) (h : a.named = true) : a.owns = true := by
  cases a <;> first | rfl | cases h

end Point

def Shot.owns (x : Shot m) (p : Fin m) : Bool := x.has p || (x.pt p).any Point.owns

theorem Shot.owns_of_named {x : Shot m} {p : Fin m}
    (h : (x.has p || (x.pt p).any Point.named) = true) : x.owns p = true := by
  simp only [Shot.owns, Bool.or_eq_true] at h ⊢
  refine h.imp_right fun hnamed => ?_
  cases hpt : x.pt p with
  | none => simp [hpt] at hnamed
  | some a =>
    rw [hpt] at hnamed
    exact Point.owns_of_named a hnamed

structure Inv (x : Shot m) : Prop where
  spin : ∀ p, x.lock.spin = some p ↔ (x.pt p).any Point.inside = true
  owned : ∀ p, x.owns p = true → x.lock.locked = true
  owner : x.lock.locked = true → ∃ p, x.owns p = true
  unique : ∀ p q, x.owns p = true → x.owns q = true → p = q
  once : ∀ p, (x.pt p).any Point.owns = true → x.has p = false
  pid : ∀ p, (x.has p || (x.pt p).any Point.named) = true → x.lock.pid = x.pid p
  free : ∀ p, (x.pt p).any Point.free = true → x.lock.locked = false
  taken : ∀ p, (x.pt p).any Point.taken = true → x.lock.locked = true
  chan : ∀ p, x.chan p = true → x.pt p = some .asleep
  waits : ∀ p, x.chan p = true ∨ x.pt p = some .doze →
    x.lock.locked = true ∨ ∃ q, (x.pt q).any (Point.wakes p) = true

namespace Inv

variable {x : Shot m} {p : Fin m} {b : Option Point}

theorem out (h : Inv x) (hp : (x.pt p).any Point.inside = true) {q : Fin m} (hq : q ≠ p) :
    (x.pt q).any Point.inside = false := by
  by_contra hin
  have hspin := (h.spin q).2 (by simpa using hin)
  rw [(h.spin p).2 hp] at hspin
  exact hq (Option.some.inj hspin).symm

/-- The process goes on: it may take or give up `lk->lk`, and `acquiresleep` may return. -/
theorem move (h : Inv x) {c : Bool} {n : Option (Fin m)}
    (hspin : ∀ q, n = some q ↔ (upd x.pt p b q).any Point.inside = true)
    (howns : (c || b.any Point.owns) = x.owns p) (honce : b.any Point.owns = true → c = false)
    (hnamed : (c || b.any Point.named) = (x.has p || (x.pt p).any Point.named))
    (hfree : b.any Point.free = true → x.lock.locked = false)
    (htaken : b.any Point.taken = true → x.lock.locked = true) (hchan : x.chan p = false)
    (hdoze : b = some .doze → x.lock.locked = true)
    (hwakes : ∀ q, x.chan q = true ∨ x.pt q = some .doze →
      (x.pt p).any (Point.wakes q) = true → b.any (Point.wakes q) = true) :
    Inv { x with lock := { x.lock with spin := n }, pt := upd x.pt p b, has := upd x.has p c } := by
  have hown : ∀ q, Shot.owns { x with
      lock := { x.lock with spin := n }, pt := upd x.pt p b, has := upd x.has p c } q =
      x.owns q := by
    intro q
    simp only [Shot.owns, upd_eq]
    split
    · rename_i hq
      rw [howns, hq]
      rfl
    · rfl
  constructor
  · exact hspin
  · simp only [hown]
    exact h.owned
  · simp only [hown]
    exact h.owner
  · simp only [hown]
    exact h.unique
  · intro q hq
    simp only [upd_eq] at hq ⊢
    split at hq
    · rename_i heq
      rw [if_pos heq]
      exact honce hq
    · rename_i hne
      rw [if_neg hne]
      exact h.once q hq
  · intro q hq
    apply h.pid q
    simp only [upd_eq] at hq
    split at hq
    · rename_i heq
      rw [heq, ← hnamed]
      exact hq
    · exact hq
  · intro q hq
    simp only [upd_eq] at hq
    split at hq
    · exact hfree hq
    · exact h.free q hq
  · intro q hq
    simp only [upd_eq] at hq
    split at hq
    · exact htaken hq
    · exact h.taken q hq
  · intro q hq
    have hqp : q ≠ p := by
      rintro rfl
      rw [hchan] at hq
      cases hq
    simp only [upd_of_ne _ _ _ hqp]
    exact h.chan q hq
  · intro q hq
    simp only at hq ⊢
    by_cases hdz : q = p ∧ b = some .doze
    · exact .inl (hdoze hdz.2)
    have hq' : x.chan q = true ∨ x.pt q = some .doze := by
      refine hq.imp_right fun hd => ?_
      rw [upd_eq] at hd
      split at hd
      · rename_i heq
        exact absurd ⟨heq, hd⟩ hdz
      · exact hd
    refine (h.waits q hq').imp_right ?_
    rintro ⟨r, hr⟩
    refine ⟨r, ?_⟩
    rw [upd_eq]
    split
    · rename_i heq
      rw [heq] at hr
      exact hwakes q hq' hr
    · exact hr

section Moves

variable {o : Option Point} (h : Inv x) (hp : x.pt p = o) (hchan : x.chan p = false)

include h hp hchan

/-- The same, when the process keeps `lk->lk` or stays without it. -/
theorem pass (hinside : b.any Point.inside = o.any Point.inside)
    (howns : b.any Point.owns = o.any Point.owns) (hnamed : b.any Point.named = o.any Point.named)
    (hfree : b.any Point.free = true → x.lock.locked = false)
    (htaken : b.any Point.taken = true → x.lock.locked = true) (hdoze : b ≠ some .doze)
    (hwakes : ∀ q, x.chan q = true ∨ x.pt q = some .doze →
      o.any (Point.wakes q) = true → b.any (Point.wakes q) = true) :
    Inv { x with pt := upd x.pt p b } := by
  subst hp
  have hmove := h.move (p := p) (b := b) (c := x.has p) (n := x.lock.spin) ?_ ?_ ?_ ?_ hfree htaken
    hchan (fun hb => absurd hb hdoze) hwakes
  · rwa [upd_eq_self] at hmove
  · intro q
    rw [h.spin q, upd_eq]
    split
    · rename_i heq
      rw [hinside, heq]
    · rfl
  · rw [howns]
    rfl
  · rw [howns]
    exact h.once p
  · rw [hnamed]

theorem acquire {a : Point} (hnone : x.lock.spin = none) (hb : a.inside = true)
    (howns : a.owns = o.any Point.owns) (hnamed : a.named = o.any Point.named)
    (hfree : a.free = false) (htaken : a.taken = false) (hdoze : a ≠ .doze) :
    Inv { x with lock := { x.lock with spin := some p }, pt := upd x.pt p (some a) } := by
  subst hp
  have hout : ∀ q, (x.pt q).any Point.inside = false := by
    intro q
    by_contra hin
    have := (h.spin q).2 (by simpa using hin)
    rw [hnone] at this
    cases this
  have hmove := h.move (p := p) (b := some a) (c := x.has p) (n := some p) ?_ ?_ ?_ ?_ ?_ ?_
    hchan ?_ ?_
  · rwa [upd_eq_self] at hmove
  · intro q
    rw [upd_eq]
    split
    · rename_i heq
      simp [heq, hb]
    · rename_i hne
      simp [hout q, Ne.symm hne]
  · simp [Shot.owns, howns]
  · intro ha
    apply h.once p
    simpa [howns] using ha
  · simp [hnamed]
  · simp [hfree]
  · simp [htaken]
  · intro ha
    exact absurd (Option.some.inj ha) hdoze
  · intro q _ hw
    have hin := hout p
    cases hp : x.pt p with
    | none => simp [hp] at hw
    | some a =>
      rw [hp] at hw hin
      cases a <;> simp_all [Point.wakes, Point.inside]

theorem leave {c : Bool} (hin : o.any Point.inside = true) (hb : b.any Point.inside = false)
    (howns : (c || b.any Point.owns) = (x.has p || o.any Point.owns))
    (honce : b.any Point.owns = true → c = false)
    (hnamed : (c || b.any Point.named) = (x.has p || o.any Point.named))
    (hfree : b.any Point.free = false) (htaken : b.any Point.taken = false)
    (hdoze : b = some .doze → x.lock.locked = true)
    (hwakes : ∀ q : Fin m, o.any (Point.wakes q) = false) :
    Inv { x with lock := { x.lock with spin := none }, pt := upd x.pt p b, has := upd x.has p c } := by
  subst hp
  apply h.move _ howns honce hnamed _ _ hchan hdoze
  · intro q _ hq
    rw [hwakes q] at hq
    cases hq
  · intro q
    rw [upd_eq]
    split
    · simp [hb]
    · rename_i hne
      simp [h.out hin hne]
  · simp [hfree]
  · simp [htaken]

theorem leave_same (hin : o.any Point.inside = true) (hb : b.any Point.inside = false)
    (howns : b.any Point.owns = o.any Point.owns) (hnamed : b.any Point.named = o.any Point.named)
    (hfree : b.any Point.free = false) (htaken : b.any Point.taken = false)
    (hdoze : b = some .doze → x.lock.locked = true)
    (hwakes : ∀ q : Fin m, o.any (Point.wakes q) = false) :
    Inv { x with lock := { x.lock with spin := none }, pt := upd x.pt p b } := by
  have hleave := h.leave hp hchan (c := x.has p) hin hb ?_ ?_ ?_ hfree htaken hdoze hwakes
  · rwa [upd_eq_self] at hleave
  · rw [howns]
  · rw [howns, ← hp]
    exact h.once p
  · rw [hnamed]

end Moves

theorem sleep (h : Inv x) (hp : x.pt p = some .doze) :
    Inv { x with pt := upd x.pt p (some .asleep), chan := upd x.chan p true } := by
  have hsame : ∀ f : Point → Bool, f .doze = false → f .asleep = false → ∀ q,
      (upd x.pt p (some .asleep) q).any f = (x.pt q).any f := by
    intro f hd ha q
    rw [upd_eq]
    split
    · rename_i heq
      simp [heq, hp, hd, ha]
    · rfl
  constructor
  · intro q
    rw [hsame _ rfl rfl]
    exact h.spin q
  · simp only [Shot.owns, hsame Point.owns rfl rfl]
    exact h.owned
  · simp only [Shot.owns, hsame Point.owns rfl rfl]
    exact h.owner
  · simp only [Shot.owns, hsame Point.owns rfl rfl]
    exact h.unique
  · simp only [hsame Point.owns rfl rfl]
    exact h.once
  · simp only [hsame Point.named rfl rfl]
    exact h.pid
  · simp only [hsame Point.free rfl rfl]
    exact h.free
  · simp only [hsame Point.taken rfl rfl]
    exact h.taken
  · intro q hq
    simp only [upd_eq] at hq ⊢
    split at hq
    · rename_i heq
      rw [if_pos heq]
    · rename_i hne
      rw [if_neg hne]
      exact h.chan q hq
  · intro q hq
    simp only [hsame (Point.wakes q) rfl rfl]
    apply h.waits q
    simp only [upd_eq] at hq
    split at hq
    · rename_i heq
      rw [heq]
      exact .inr hp
    · exact hq

/-- A process is woken: by `kill`, or because nobody will have to wake it any more. -/
theorem wake (h : Inv x) (q : Fin m) : Inv { x with chan := upd x.chan q false } := by
  have hchan : ∀ r, upd x.chan q false r = true → x.chan r = true := by
    intro r hr
    rw [upd_eq] at hr
    split at hr
    · cases hr
    · exact hr
  exact { h with
    chan := fun r hr => h.chan r (hchan r hr)
    waits := fun r hr => h.waits r (hr.imp_left (hchan r)) }

theorem unowned (h : Inv x) (hlocked : x.lock.locked = false) (q : Fin m) : x.owns q = false := by
  by_contra hq
  have := h.owned q (by simpa using hq)
  rw [hlocked] at this
  cases this

theorem has_unowned (h : Inv x) (hlocked : x.lock.locked = false) (q : Fin m) :
    x.has q = false ∧ (x.pt q).any Point.owns = false := by
  simpa [Shot.owns] using h.unowned hlocked q

/-- Only the process that holds `lk->lk` can be at a point where it is held. -/
theorem only (h : Inv x) (hp : (x.pt p).any Point.inside = true) {f : Point → Bool}
    (hf : ∀ a, f a = true → a.inside = true) {q : Fin m} (hq : (x.pt q).any f = true) : q = p := by
  by_contra hne
  have hout := h.out hp hne
  cases hpt : x.pt q with
  | none => simp [hpt] at hq
  | some a =>
    rw [hpt] at hq hout
    rw [Option.any_some] at hq hout
    rw [hf a hq] at hout
    cases hout

theorem awake (h : Inv x) (hp : (x.pt p).any Point.inside = true) : x.chan p = false := by
  by_contra hchan
  rw [h.chan p (by simpa using hchan)] at hp
  cases hp

theorem spin_upd (h : Inv x) (hp : (x.pt p).any Point.inside = true)
    (hb : b.any Point.inside = true) (q : Fin m) :
    x.lock.spin = some q ↔ (upd x.pt p b q).any Point.inside = true := by
  rw [upd_eq]
  split
  · rename_i heq
    subst heq
    exact ⟨fun _ => hb, fun _ => (h.spin q).2 hp⟩
  · exact h.spin q

theorem chan_upd (h : Inv x) (hp : (x.pt p).any Point.inside = true) (q : Fin m)
    (hq : x.chan q = true) : upd x.pt p b q = some .asleep := by
  have hne : q ≠ p := by
    rintro rfl
    rw [h.awake hp] at hq
    cases hq
  rw [upd_of_ne _ _ _ hne]
  exact h.chan q hq

theorem setLocked (h : Inv x) (hp : x.pt p = some .setLocked) :
    Inv { x with lock := { x.lock with locked := true }, pt := upd x.pt p (some .setPid) } := by
  have hin : (x.pt p).any Point.inside = true := by
    rw [hp]
    rfl
  have hlocked := h.free p (by rw [hp]; rfl)
  have hhas := h.has_unowned hlocked
  have hown : ∀ q, Shot.owns { x with
      lock := { x.lock with locked := true }, pt := upd x.pt p (some .setPid) } q = true → q = p := by
    intro q hq
    by_contra hne
    simp [Shot.owns, upd_of_ne _ _ _ hne, hhas q] at hq
  constructor
  · exact h.spin_upd hin rfl
  · intro _ _
    rfl
  · intro _
    exact ⟨p, by simp [Shot.owns, Point.owns]⟩
  · intro q r hq hr
    rw [hown q hq, hown r hr]
  · intro q _
    exact (hhas q).1
  · intro q hq
    apply h.pid q
    simp only [upd_eq] at hq
    split at hq
    · simp [(hhas q).1, Point.named] at hq
    · exact hq
  · intro q hq
    simp only [upd_eq] at hq
    split at hq
    · cases hq
    · rename_i hne
      exact absurd (h.only hin Point.inside_of_free hq) hne
  · intro _ _
    rfl
  · exact h.chan_upd hin
  · intro _ _
    exact .inl rfl

theorem setPid (h : Inv x) (hp : x.pt p = some .setPid) :
    Inv { x with lock := { x.lock with pid := x.pid p }, pt := upd x.pt p (some .acquired) } := by
  have hin : (x.pt p).any Point.inside = true := by
    rw [hp]
    rfl
  have hp' : (x.pt p).any Point.owns = true := by
    rw [hp]
    rfl
  have howns : ∀ q, (upd x.pt p (some .acquired) q).any Point.owns = (x.pt q).any Point.owns := by
    intro q
    rw [upd_eq]
    split
    · rename_i heq
      rw [heq, hp']
      rfl
    · rfl
  have hlocked := h.owned p (by simp [Shot.owns, hp'])
  constructor
  · exact h.spin_upd hin rfl
  · simp only [Shot.owns, howns]
    exact h.owned
  · simp only [Shot.owns, howns]
    exact h.owner
  · simp only [Shot.owns, howns]
    exact h.unique
  · simp only [howns]
    exact h.once
  · intro q hq
    have hq' := Shot.owns_of_named hq
    simp only [Shot.owns, howns] at hq'
    rw [h.unique q p hq' (by simp [Shot.owns, hp'])]
  · intro q hq
    simp only [upd_eq] at hq
    split at hq
    · cases hq
    · rename_i hne
      exact absurd (h.only hin Point.inside_of_free hq) hne
  · intro q hq
    exact hlocked
  · exact h.chan_upd hin
  · intro _ _
    exact .inl hlocked

theorem clearLocked (h : Inv x) (hp : x.pt p = some .clearLocked) :
    Inv { x with lock := { x.lock with locked := false }, pt := upd x.pt p (some .clearPid) } := by
  have hin : (x.pt p).any Point.inside = true := by
    rw [hp]
    rfl
  have hp' : (x.pt p).any Point.owns = true := by
    rw [hp]
    rfl
  have hno : ∀ q, x.has q = false ∧ (upd x.pt p (some .clearPid) q).any Point.owns = false := by
    intro q
    by_cases hq : q = p
    · subst hq
      exact ⟨h.once q hp', by simp [Point.owns]⟩
    · rw [upd_of_ne _ _ _ hq]
      have hnot : x.owns q = false := by
        by_contra hown
        exact hq (h.unique q p (by simpa using hown) (by simp [Shot.owns, hp']))
      simpa [Shot.owns] using hnot
  constructor
  · exact h.spin_upd hin rfl
  · intro q hq
    simp [Shot.owns, hno q] at hq
  · intro hlocked
    cases hlocked
  · intro q r hq
    simp [Shot.owns, hno q] at hq
  · intro q _
    exact (hno q).1
  · intro q hq
    apply h.pid q
    simp only [upd_eq] at hq
    split at hq
    · simp [(hno q).1, Point.named] at hq
    · exact hq
  · intro _ _
    rfl
  · intro q hq
    simp only [upd_eq] at hq
    split at hq
    · cases hq
    · rename_i hne
      exact absurd (h.only hin Point.inside_of_taken hq) hne
  · exact h.chan_upd hin
  · intro q _
    exact .inr ⟨p, by simp [Point.wakes]⟩

theorem clearPid (h : Inv x) (hp : x.pt p = some .clearPid) :
    Inv { x with lock := { x.lock with pid := 0 }, pt := upd x.pt p (some (.wakeup 0)) } := by
  have hlocked := h.free p (by rw [hp]; rfl)
  have hpass := h.pass hp (h.awake (by rw [hp]; rfl)) (b := some (.wakeup 0)) rfl rfl rfl
    (fun _ => hlocked) nofun nofun (fun q _ _ => by simp [Point.wakes])
  refine { hpass with pid := fun q hq => ?_ }
  have hq' := Shot.owns_of_named hq
  exact absurd (hq'.symm.trans (hpass.unowned hlocked q)) (by decide)

/-- The slot of a process that has nothing to do with the lock goes to another one. -/
theorem replace (h : Inv x) (n : Int) (hp : x.pt p = none) (hhas : x.has p = false) :
    Inv { x with pid := upd x.pid p n } := by
  refine { h with pid := fun q hq => ?_ }
  have hne : q ≠ p := by
    rintro rfl
    simp [hp, hhas] at hq
  simp only [upd_of_ne _ _ _ hne]
  exact h.pid q hq

end Inv

/-!
## One lock among the others
-/

namespace Sys

variable {s t : Sys L m} {p : Fin m} {l l' : L} {a : Point}

@[simp] theorem shot_setLock (f : Lock m → Lock m) :
    (s.setLock l f).shot l = { s.shot l with lock := f (s.lock l) } := by
  simp only [shot, setLock, upd_self]
  rfl

theorem shot_setLock_ne (h : l' ≠ l) (f : Lock m → Lock m) :
    (s.setLock l f).shot l' = s.shot l' := by
  simp only [shot, setLock, upd_of_ne _ _ _ h]
  rfl

theorem shot_setProc (f : Proc L → Proc L) :
    (s.setProc p f).shot l =
      { lock := s.lock l
        pid := upd (s.shot l).pid p (f (s.proc p)).pid
        pt := upd (s.shot l).pt p ((f (s.proc p)).point l)
        chan := upd (s.shot l).chan p ((f (s.proc p)).chan = some l)
        has := upd (s.shot l).has p ((f (s.proc p)).has l) } := by
  simp only [shot, setProc, Shot.mk.injEq, true_and]
  refine ⟨?_, ?_, ?_, ?_⟩ <;>
  · funext q
    simp only [upd_eq]
    split <;> rfl

theorem shot_setProc_chan {f : Proc L → Proc L} {c : Bool}
    (hpid : (f (s.proc p)).pid = (s.proc p).pid)
    (hpoint : (f (s.proc p)).point l = (s.proc p).point l)
    (hchan : decide ((f (s.proc p)).chan = some l) = c)
    (hhas : (f (s.proc p)).has l = (s.proc p).has l) :
    (s.setProc p f).shot l = { s.shot l with chan := upd (s.shot l).chan p c } := by
  rw [shot_setProc, hpid, hpoint, hhas, hchan]
  simp only [show (s.proc p).pid = (s.shot l).pid p from rfl,
    show (s.proc p).point l = (s.shot l).pt p from rfl,
    show (s.proc p).has l = (s.shot l).has p from rfl, upd_eq_self]
  rfl

theorem shot_setProc_same {f : Proc L → Proc L} (hpid : (f (s.proc p)).pid = (s.proc p).pid)
    (hpoint : (f (s.proc p)).point l = (s.proc p).point l)
    (hchan : (f (s.proc p)).chan = some l ↔ (s.proc p).chan = some l)
    (hhas : (f (s.proc p)).has l = (s.proc p).has l) : (s.setProc p f).shot l = s.shot l := by
  have hchan' : decide ((f (s.proc p)).chan = some l) = (s.shot l).chan p := decide_eq_decide.2 hchan
  rw [shot_setProc_chan hpid hpoint hchan' hhas, upd_eq_self]

@[simp] theorem shot_goto : (s.goto p l a).shot l =
    { s.shot l with pt := upd (s.shot l).pt p (some a) } := by
  unfold goto
  rw [shot_setProc]
  simp only [show (s.proc p).pid = (s.shot l).pid p from rfl,
    show decide ((s.proc p).chan = some l) = (s.shot l).chan p from rfl,
    show (s.proc p).has l = (s.shot l).has p from rfl, upd_eq_self, Proc.point, if_pos]
  rfl

theorem shot_return : (s.setProc p fun x => { x with pc := none }).shot l =
    { s.shot l with pt := upd (s.shot l).pt p none } := by
  rw [shot_setProc]
  simp only [show (s.proc p).pid = (s.shot l).pid p from rfl,
    show decide ((s.proc p).chan = some l) = (s.shot l).chan p from rfl,
    show (s.proc p).has l = (s.shot l).has p from rfl, upd_eq_self, Proc.point]
  rfl

theorem shot_has (x : Option (L × Point)) (c : Bool) :
    (s.setProc p fun y => { y with pc := x, has := upd y.has l c }).shot l =
      { s.shot l with
        pt := upd (s.shot l).pt p (Proc.point { s.proc p with pc := x } l)
        has := upd (s.shot l).has p c } := by
  rw [shot_setProc]
  simp only [show (s.proc p).pid = (s.shot l).pid p from rfl,
    show decide ((s.proc p).chan = some l) = (s.shot l).chan p from rfl, upd_eq_self, upd_self]
  rfl

theorem shot_wake (q : Fin m) :
    (s.wake l q).shot l = { s.shot l with chan := upd (s.shot l).chan q false } := by
  unfold wake
  by_cases hchan : (s.proc q).chan = some l
  · exact shot_setProc_chan (by simp [hchan]) (by simp [hchan, Proc.point]) (by simp [hchan])
      (by simp [hchan])
  · exact shot_setProc_chan (by simp [hchan]) (by simp [hchan]) (by simp [hchan]) (by simp [hchan])

theorem point_eq (h : (s.proc p).pc = some (l, a)) : (s.shot l).pt p = some a := by
  simp [shot, Proc.point, h]

theorem point_ne {x : Proc L} (h : x.pc = some (l, a)) (hl : l' ≠ l) : x.point l' = none := by
  simp [Proc.point, h, Ne.symm hl]

theorem point_none {x : Proc L} (h : x.pc = none) (l : L) : x.point l = none := by
  simp [Proc.point, h]

theorem dozing_of_point (h : (s.shot l).pt p = some .doze) : (s.proc p).dozing = true := by
  simp only [shot, Proc.point] at h
  unfold Proc.dozing
  split at h
  next l' a hpc =>
    split at h
    next =>
      cases h
      rw [hpc]
    next => cases h
  next => cases h

/-- A process that is not in a function on `l` does not sleep on it. -/
theorem chan_ne (h : Inv (s.shot l)) (hp : (s.shot l).pt p = none) : (s.proc p).chan ≠ some l := by
  intro hchan
  have := h.chan p (by simp [shot, hchan])
  rw [hp] at this
  cases this

theorem inv_go (h : Inv (s.shot l)) (hpc : (s.proc p).pc = some (l, a)) (hgo : s.go p l a = some t) :
    Inv (t.shot l) := by
  have hp := point_eq hpc
  have hawake : a ≠ .asleep → (s.shot l).chan p = false := by
    intro ha
    by_contra hchan
    have := h.chan p (by simpa using hchan)
    rw [hp] at this
    exact ha (Option.some.inj this)
  cases a with
  | acquire | release | holding =>
    simp only [go, Sys.acquire] at hgo
    split at hgo
    next hnone =>
      cases hgo
      rw [shot_goto, shot_setLock]
      exact h.acquire hp (hawake nofun) hnone rfl rfl rfl rfl rfl nofun
    next => cases hgo
  | test =>
    cases hgo
    rw [shot_goto]
    by_cases hlocked : (s.lock l).locked = true
    · rw [if_pos hlocked]
      exact h.pass hp (hawake nofun) rfl rfl rfl nofun (fun _ => hlocked) nofun nofun
    · rw [if_neg hlocked]
      exact h.pass hp (hawake nofun) rfl rfl rfl (fun _ => Bool.eq_false_iff.2 hlocked) nofun nofun
        nofun
  | sleepAcquire =>
    cases hgo
    rw [shot_goto]
    exact h.pass hp (hawake nofun) rfl rfl rfl nofun (fun _ => h.taken p (by rw [hp]; rfl)) nofun nofun
  | sleepRelease =>
    cases hgo
    rw [shot_goto, Sys.release, shot_setLock]
    exact h.leave_same hp (hawake nofun) rfl rfl rfl rfl rfl rfl
      (fun _ => h.taken p (by rw [hp]; rfl)) fun _ => rfl
  | doze =>
    cases hgo
    have hsleep := h.sleep hp
    rw [shot_setProc]
    simp only [show (s.proc p).pid = (s.shot l).pid p from rfl,
      show (s.proc p).has l = (s.shot l).has p from rfl, upd_eq_self, Proc.point, if_pos,
      decide_true]
    exact hsleep
  | asleep =>
    simp only [go] at hgo
    split at hgo
    next hnone =>
      cases hgo
      rw [shot_goto]
      have hchan : (s.shot l).chan p = false := by simp [shot, hnone]
      exact h.pass hp hchan rfl rfl rfl nofun nofun nofun nofun
    next => cases hgo
  | setLocked =>
    cases hgo
    rw [shot_goto, shot_setLock]
    exact h.setLocked hp
  | setPid =>
    cases hgo
    rw [shot_goto, shot_setLock]
    exact h.setPid hp
  | acquired =>
    cases hgo
    rw [shot_has, Sys.release, shot_setLock]
    exact h.leave hp (hawake nofun) rfl rfl (by simp [Point.owns]) nofun (by simp [Point.named]) rfl rfl
      nofun fun _ => rfl
  | clearLocked =>
    cases hgo
    rw [shot_goto, shot_setLock]
    exact h.clearLocked hp
  | clearPid =>
    cases hgo
    rw [shot_goto, shot_setLock]
    exact h.clearPid hp
  | wakeup k =>
    have hfree : (s.shot l).lock.locked = false := h.free p (by rw [hp]; rfl)
    simp only [go] at hgo
    split at hgo
    next hk =>
      split at hgo
      next hself =>
        cases hgo
        rw [shot_goto]
        refine h.pass hp (hawake nofun) rfl rfl rfl (fun _ => hfree) nofun nofun fun q hq hkq => ?_
        have hne : q ≠ p := by
          rintro rfl
          rw [hawake nofun, hp] at hq
          simp at hq
        have hval : q.val ≠ k := fun hv => hne (by rw [← hself]; exact Fin.ext hv)
        simp only [Option.any_some, Point.wakes, decide_eq_true_eq] at hkq ⊢
        omega
      next hother =>
        split at hgo
        next => cases hgo
        next hdoze =>
          cases hgo
          rw [shot_goto, shot_wake]
          refine (h.wake ⟨k, hk⟩).pass hp ?_ rfl rfl rfl (fun _ => hfree) nofun nofun fun q hq hkq => ?_
          · simp only [upd_of_ne _ _ _ (Ne.symm hother)]
            exact hawake nofun
          have hval : q.val ≠ k := by
            intro hv
            obtain rfl : q = ⟨k, hk⟩ := Fin.ext hv
            simp only [upd_self, Bool.false_eq_true, false_or] at hq
            exact hdoze (dozing_of_point hq)
          simp only [Option.any_some, Point.wakes, decide_eq_true_eq] at hkq ⊢
          omega
    next hk =>
      cases hgo
      rw [shot_goto]
      refine h.pass hp (hawake nofun) rfl rfl rfl (fun _ => hfree) nofun nofun fun q _ hkq => ?_
      simp only [Option.any_some, Point.wakes, decide_eq_true_eq] at hkq
      omega
  | released | held =>
    cases hgo
    rw [shot_return, Sys.release, shot_setLock]
    exact h.leave_same hp (hawake nofun) rfl rfl rfl rfl rfl rfl nofun fun _ => rfl
  | holdingTest =>
    cases hgo
    rw [shot_goto]
    exact h.pass hp (hawake nofun) rfl rfl rfl nofun nofun nofun nofun

theorem shot_go_ne (h : Inv (s.shot l')) (hpc : (s.proc p).pc = some (l, a)) (hl : l' ≠ l)
    (hgo : s.go p l a = some t) : t.shot l' = s.shot l' := by
  have hp : (s.shot l').pt p = none := point_ne hpc hl
  have hchan := chan_ne h hp
  have hgoto : ∀ (u : Sys L m) b, u.proc p = s.proc p → u.shot l' = s.shot l' →
      (u.goto p l b).shot l' = s.shot l' := by
    intro u b hproc hu
    rw [← hu]
    refine shot_setProc_same rfl ?_ Iff.rfl rfl
    rw [hproc]
    exact (point_ne rfl hl).trans hp.symm
  have hacquire : ∀ b, s.acquire p l b = some t → t.shot l' = s.shot l' := by
    intro b ht
    simp only [Sys.acquire] at ht
    split at ht
    · cases ht
      exact hgoto _ _ rfl (shot_setLock_ne hl _)
    · cases ht
  have hreturn : ∀ f : Proc L → Proc L, (f (s.proc p)).pid = (s.proc p).pid →
      (f (s.proc p)).pc = none → (f (s.proc p)).chan = (s.proc p).chan →
      (f (s.proc p)).has l' = (s.proc p).has l' → ((s.release l).setProc p f).shot l' = s.shot l' := by
    intro f hpid hpc hchan hhas
    have hpoint : (f (s.proc p)).point l' = (s.proc p).point l' := by
      exact (point_none hpc l').trans hp.symm
    have hsame : ((s.release l).setProc p f).shot l' = (s.release l).shot l' :=
      shot_setProc_same hpid hpoint (iff_of_eq (congrArg (· = some l') hchan)) hhas
    rw [hsame, Sys.release, shot_setLock_ne hl]
  cases a with
  | acquire | release | holding => exact hacquire _ hgo
  | test | sleepAcquire | holdingTest =>
    cases hgo
    exact hgoto s _ rfl rfl
  | sleepRelease | setLocked | setPid | clearLocked | clearPid =>
    cases hgo
    exact hgoto _ _ rfl (shot_setLock_ne hl _)
  | doze =>
    cases hgo
    refine shot_setProc_same rfl ?_ ?_ rfl
    · exact (point_ne rfl hl).trans hp.symm
    · simp [hchan, Ne.symm hl]
  | asleep =>
    simp only [go] at hgo
    split at hgo
    · cases hgo
      exact hgoto s _ rfl rfl
    · cases hgo
  | acquired =>
    cases hgo
    exact hreturn _ rfl rfl rfl (upd_of_ne _ _ _ hl)
  | wakeup k =>
    simp only [go] at hgo
    split at hgo
    next hk =>
      split at hgo
      next =>
        cases hgo
        exact hgoto s _ rfl rfl
      next hother =>
        split at hgo
        next => cases hgo
        next =>
          cases hgo
          refine hgoto _ _ (by simp [wake, setProc, upd_of_ne _ _ _ (Ne.symm hother)]) ?_
          unfold wake
          by_cases hq : (s.proc ⟨k, hk⟩).chan = some l
          · exact shot_setProc_same (by simp [hq]) (by simp [hq, Proc.point])
              (by simp [hq, Ne.symm hl]) (by simp [hq])
          · exact shot_setProc_same (by simp [hq]) (by simp [hq]) (by simp [hq]) (by simp [hq])
    next =>
      cases hgo
      exact hgoto s _ rfl rfl
  | released | held =>
    cases hgo
    exact hreturn _ rfl rfl rfl rfl

theorem inv_call (h : Inv (s.shot l')) (hpc : (s.proc p).pc = none)
    (ha : a = .acquire ∨ a = .holding) : Inv ((s.goto p l a).shot l') := by
  have hp : (s.shot l').pt p = none := point_none hpc l'
  by_cases hl : l' = l
  · subst hl
    rw [shot_goto]
    have hchan : (s.shot l').chan p = false := decide_eq_false (chan_ne h hp)
    rcases ha with rfl | rfl <;> exact h.pass hp hchan rfl rfl rfl nofun nofun nofun nofun
  · rw [goto, shot_setProc_same rfl ?_ Iff.rfl rfl]
    · exact h
    · exact (point_ne rfl hl).trans hp.symm

theorem inv_releasesleep (h : Inv (s.shot l')) (hpc : (s.proc p).pc = none)
    (hhas : (s.proc p).has l = true) :
    Inv ((s.setProc p fun x =>
      { x with pc := some (l, .release), has := upd x.has l false }).shot l') := by
  have hp : (s.shot l').pt p = none := point_none hpc l'
  by_cases hl : l' = l
  · subst hl
    rw [shot_has]
    have hchan : (s.shot l').chan p = false := decide_eq_false (chan_ne h hp)
    have hhas' : (s.shot l').has p = true := hhas
    have hmove := h.move (p := p) (b := some .release) (c := false) (n := (s.shot l').lock.spin) ?_
      (by simp [Shot.owns, hhas', Point.owns]) (fun _ => rfl) (by simp [hhas', Point.named])
      nofun nofun hchan nofun fun q _ hq => by rw [hp] at hq; cases hq
    · simpa [Proc.point] using hmove
    · intro q
      rw [h.spin q, upd_eq]
      split
      · rename_i heq
        rw [heq, hp]
        rfl
      · rfl
  · rw [shot_setProc_same rfl ?_ Iff.rfl (upd_of_ne _ _ _ hl)]
    · exact h
    · exact (point_ne rfl hl).trans hp.symm

theorem inv_step {e : Move L m} (h : ∀ l, Inv (s.shot l)) (hstep : s.Step e t) (l : L) :
    Inv (t.shot l) := by
  obtain ⟨hnext, hcan⟩ := hstep
  cases e with
  | acquiresleep p l' =>
    simp only [next] at hnext
    split at hnext
    next hpc =>
      cases hnext
      exact inv_call (h l) hpc (.inl rfl)
    next => cases hnext
  | releasesleep p l' =>
    simp only [next] at hnext
    split at hnext
    next hpc =>
      cases hnext
      exact inv_releasesleep (h l) hpc.1 hpc.2
    next => cases hnext
  | holdingsleep p l' =>
    simp only [next] at hnext
    split at hnext
    next hpc =>
      cases hnext
      exact inv_call (h l) hpc (.inr rfl)
    next => cases hnext
  | go p =>
    simp only [next] at hnext
    split at hnext
    next l' a hpc =>
      by_cases hl : l = l'
      · subst hl
        exact inv_go (h l) hpc hnext
      · rw [shot_go_ne (h l) hpc hl hnext]
        exact h l
    next => cases hnext
  | kill p =>
    simp only [next] at hnext
    split at hnext
    next => cases hnext
    next =>
      cases hnext
      rw [shot_setProc_chan rfl rfl rfl rfl]
      exact (h l).wake p
  | replace p pid =>
    cases hnext
    have hsame := (h l).replace pid (point_none hcan.1 l) (hcan.2 l)
    rw [shot_setProc]
    simp only [show decide ((s.proc p).chan = some l) = (s.shot l).chan p from rfl,
      show (s.proc p).has l = (s.shot l).has p from rfl, upd_eq_self]
    rw [show Proc.point { s.proc p with pid := pid } l = (s.shot l).pt p from rfl, upd_eq_self]
    exact hsame

end Sys

theorem inv_initial (pid : Fin m → Int) (l : L) : Inv ((initial pid : Sys L m).shot l) := by
  constructor <;> simp [initial, Sys.shot, Shot.owns, Proc.point]

theorem inv_run {pid : Fin m → Int} {es : List (Move L m)} {s : Sys L m}
    (h : Run Sys.Step (initial pid) es s) (l : L) : Inv (s.shot l) := by
  refine h.invariant (I := fun s => ∀ l, Inv (s.shot l)) ?_ (inv_initial pid) l
  intro s e t hs hstep
  exact Sys.inv_step hs hstep

/-- At most one process is between a returned `acquiresleep` and its `releasesleep`; the
lock is taken then and has its pid; and whoever is SLEEPING on a lock that nobody is
looking at sleeps on a lock that is taken. -/
theorem sleeplock_exclusive {pid : Fin m → Int} {es : List (Move L m)} {s : Sys L m}
    (h : Run Sys.Step (initial pid) es s) (l : L) :
    (∀ p q, (s.proc p).has l = true → (s.proc q).has l = true → p = q) ∧
    (∀ p, (s.proc p).has l = true → (s.lock l).locked = true ∧ (s.lock l).pid = (s.proc p).pid) ∧
    (∀ p, (s.lock l).spin = none → (s.proc p).chan = some l → (s.lock l).locked = true) := by
  have hinv := inv_run h l
  have howns : ∀ p, (s.proc p).has l = true → (s.shot l).owns p = true := by
    intro p hp
    simp [Shot.owns, Sys.shot, hp]
  refine ⟨?_, ?_, ?_⟩
  · intro p q hp hq
    exact hinv.unique p q (howns p hp) (howns q hq)
  · intro p hp
    refine ⟨hinv.owned p (howns p hp), hinv.pid p ?_⟩
    simp [Sys.shot, hp]
  · intro p hfree hchan
    refine (hinv.waits p (.inl (by simp [Sys.shot, hchan]))).resolve_right ?_
    rintro ⟨q, hq⟩
    cases hpt : (s.shot l).pt q with
    | none => simp [hpt] at hq
    | some a =>
      rw [hpt, Option.any_some] at hq
      have hspin := (hinv.spin q).2 (by rw [hpt]; exact Point.inside_of_wakes p a hq)
      rw [show (s.shot l).lock.spin = none from hfree] at hspin
      cases hspin

/-- One process has the lock, another sleeps on it, is killed and sleeps again. -/
theorem sleeplock_exclusive_killed :
    ∃ (es : List (Move Bool 3)) (s : Sys Bool 3), Run Sys.Step (initial fun p => p.val + 1) es s ∧
      (s.proc 1).killed = true ∧ (s.lock true).spin = none ∧ (s.proc 1).chan = some true ∧
      (s.lock true).locked = true ∧ (s.lock true).pid = 1 ∧ (s.proc 2).has true = false := by
  have hcheck : (trace Sys.play (initial fun p => p.val + 1 : Sys Bool 3)
      ([[.acquiresleep 0 true], List.replicate 5 (.go 0), [.acquiresleep 1 true],
        List.replicate 5 (.go 1), [.kill 1], List.replicate 6 (.go 1)].flatten)).any
      (fun x => decide ((x.1.proc 1).killed = true ∧ (x.1.lock true).spin = none ∧
        (x.1.proc 1).chan = some true ∧ (x.1.proc 0).has true = true ∧
        (x.1.proc 0).pid = 1)) = true := by
    decide +kernel
  obtain ⟨⟨s, es⟩, hs, hcheck⟩ := (Option.any_eq_true _ _).1 hcheck
  obtain ⟨hkilled, hspin, hchan, hhas, hpid⟩ := of_decide_eq_true hcheck
  have hrun := trace_run Sys.play_step hs
  obtain ⟨hunique, howner, hwait⟩ := sleeplock_exclusive hrun true
  refine ⟨es, s, hrun, hkilled, hspin, hchan, hwait 1 hspin hchan, ?_, ?_⟩
  · rw [(howner 0 hhas).2, hpid]
  · by_contra htwo
    exact absurd (hunique 0 2 hhas (by simpa using htwo)) (by decide)

/-- `holdingsleep` tells whether the caller has the lock, as long as no two processes
have the same pid. -/
theorem holdingsleep_exact {pid : Fin m → Int} {es : List (Move L m)} {s : Sys L m}
    (h : Run Sys.Step (initial pid) es s) {p : Fin m} {l : L}
    (hdistinct : ∀ p q, (s.proc p).pid = (s.proc q).pid → p = q)
    (hp : (s.proc p).pc = some (l, .holdingTest)) :
    ((s.lock l).locked && (s.lock l).pid == (s.proc p).pid) = (s.proc p).has l := by
  have hinv := inv_run h l
  have hpt := Sys.point_eq hp
  have hin : ((s.shot l).pt p).any Point.inside = true := by
    rw [hpt]
    rfl
  by_cases hhas : (s.proc p).has l = true
  · have howns : (s.shot l).owns p = true := by simp [Shot.owns, Sys.shot, hhas]
    have hlocked : (s.lock l).locked = true := hinv.owned p howns
    have hpid : (s.lock l).pid = (s.proc p).pid := hinv.pid p (by simp [Sys.shot, hhas])
    rw [hhas, hlocked, hpid]
    simp
  · rw [Bool.not_eq_true] at hhas
    rw [hhas]
    by_contra hyes
    simp only [Bool.not_eq_false, Bool.and_eq_true, beq_iff_eq] at hyes
    obtain ⟨q, hq⟩ := hinv.owner hyes.1
    -- the owner is not in `acquiresleep`, where the lock may have no pid yet
    have hname : ((s.shot l).has q || ((s.shot l).pt q).any Point.named) = true := by
      simp only [Shot.owns, Bool.or_eq_true] at hq ⊢
      refine hq.imp_right fun howns => ?_
      cases ha : (s.shot l).pt q with
      | none => simp [ha] at howns
      | some a =>
        rw [ha, Option.any_some] at howns
        by_cases hset : a = .setPid
        · subst hset
          have := hinv.only hin (f := Point.inside) (fun _ h => h) (q := q) (by rw [ha]; rfl)
          rw [this, hpt] at ha
          cases ha
        · cases a <;> simp_all [Point.owns, Point.named]
    have hqp : q = p := by
      apply hdistinct
      rw [← hyes.2]
      exact (hinv.pid q hname).symm
    rw [hqp, hpt, show (s.shot l).has p = false from hhas] at hname
    cases hname

/-- The process that has the lock asks for it. -/
theorem holdingsleep_exact_holder :
    ∃ (es : List (Move Unit 1)) (s : Sys Unit 1), Run Sys.Step (initial fun _ => 1) es s ∧
      (s.proc 0).has () = true := by
  obtain ⟨⟨s, es⟩, hs⟩ : ∃ x, trace Sys.play (initial fun _ => 1 : Sys Unit 1)
      (.acquiresleep 0 () :: List.replicate 5 (.go 0) ++ [.holdingsleep 0 (), .go 0]) = some x :=
    ⟨_, rfl⟩
  have hrun := trace_run Sys.play_step hs
  have htest := holdingsleep_exact hrun (p := 0) (l := ()) fun _ _ _ => Subsingleton.elim ..
  refine ⟨es, s, hrun, (htest ?_).symm.trans ?_⟩ <;> cases hs <;> rfl

end Xv6.Sleep
