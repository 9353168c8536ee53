import Xv6.Lib.Transition

/-!
# `sys_sleep`

The loop of `sys_sleep` beside the clock interrupt.  Everything from `acquire(&tickslock)` to
`sleep` or `release` is one step, since `clockintr` takes the lock too; between two tests of
the loop there may be any number of ticks, wakeups on `&ticks` and calls of `kill`.
-/

namespace Xv6.SleepCall

open Lib

inductive Place
  | asleep
  | awake
  | returned (r : Int)
  deriving DecidableEq, Repr

structure State where
  ticks : UInt32
  ticks0 : UInt32
  killed : Bool
  place : Place
  deriving DecidableEq, Repr

inductive Event
  | tick
  | wakeup
  | kill
  | check
  deriving DecidableEq, Repr

def Place.wake : Place → Place
  | asleep => awake
  | p => p

def State.test (n : Int32) (s : State) : State :=
  if s.ticks - s.ticks0 < n.toUInt32 then
    if s.killed then { s with place := .returned (-1) } else { s with place := .asleep }
  else { s with place := .returned 0 }

def enter (n : Int32) (ticks : UInt32) (killed : Bool) : State :=
  State.test n { ticks := ticks, ticks0 := ticks, killed := killed, place := .awake }

def State.clockintr (s : State) : State := { s with ticks := s.ticks + 1, place := s.place.wake }

def State.next (n : Int32) (s : State) : Event → Option State
  | .tick => some s.clockintr
  | .wakeup => some { s with place := s.place.wake }
  | .kill => some { s with killed := true, place := s.place.wake }
  | .check => if s.place = .awake then some (s.test n) else none

def Step (n : Int32) (s : State) (e : Event) (t : State) : Prop := s.next n e = some t

instance (n : Int32) (s : State) (e : Event) (t : State) : Decidable (Step n s e t) :=
  inferInstanceAs (Decidable (_ = _))

def elapsed (es : List Event) : Nat := es.count .tick

def State.Waiting (s : State) : Prop := s.place = .asleep ∨ s.place = .awake

/-- While the call waits, no tick brings the counter round to `ticks0`. -/
def InTime (s : State) (e : Event) (_ : State) : Prop :=
  e = .tick → s.Waiting → s.ticks + 1 ≠ s.ticks0

def Spared (_ : State) (e : Event) (_ : State) : Prop := e ≠ .kill

section Arithmetic

/-- A number that is not negative is the same as an unsigned one. -/
theorem toNat_toUInt32 {n : Int32} (h : 0 ≤ n) : (n.toUInt32.toNat : Int) = n.toInt := by
  have hle : 0 ≤ n.toBitVec.toInt := Int32.le_iff_toInt_le.1 h
  change (n.toBitVec.toNat : Int) = n.toBitVec.toInt
  have hlt := n.toBitVec.isLt
  rw [BitVec.toInt_eq_toNat_cond] at hle ⊢
  split at hle
  next hsmall => rw [if_pos hsmall]
  next => omega

theorem toNat_sub_tick {a b : UInt32} {d : Nat} (h : (a - b).toNat = d) (hne : a + 1 ≠ b) :
    (a + 1 - b).toNat = d + 1 := by
  have ha := a.toNat_lt
  have hb := b.toNat_lt
  have hne' : (a + 1).toNat ≠ b.toNat := fun heq => hne (UInt32.toNat_inj.1 heq)
  rw [UInt32.toNat_sub] at h
  rw [UInt32.toNat_add, UInt32.toNat_one] at hne'
  rw [UInt32.toNat_sub, UInt32.toNat_add, UInt32.toNat_one]
  omega

end Arithmetic

section Runs

variable {n : Int32} {ticks : UInt32} {s t : State} {e : Event} {es : List Event}

theorem test_place (hk : s.killed = false) :
    (s.test n).place = if (s.ticks - s.ticks0).toNat < n.toUInt32.toNat then .asleep
      else .returned 0 := by
  unfold State.test
  simp only [UInt32.lt_iff_toNat_lt, hk, Bool.false_eq_true, if_false]
  split
  · rfl
  · rfl

theorem test_same : (s.test n).ticks = s.ticks ∧ (s.test n).ticks0 = s.ticks0 ∧
    (s.test n).killed = s.killed := by
  unfold State.test
  split
  · split <;> exact ⟨rfl, rfl, rfl⟩
  · exact ⟨rfl, rfl, rfl⟩

theorem step_check (h : Step n s .check t) : s.place = .awake ∧ t = s.test n := by
  change (if s.place = .awake then some (s.test n) else none) = some t at h
  by_cases hawake : s.place = .awake
  · rw [if_pos hawake] at h
    exact ⟨hawake, (Option.some.inj h).symm⟩
  · rw [if_neg hawake] at h
    cases h

structure Counted (n : Int32) (es : List Event) (s : State) : Prop where
  killed : s.killed = false
  ticks : s.Waiting → (s.ticks - s.ticks0).toNat = elapsed es
  place : s.Waiting ∨ s.place = .returned 0

theorem Place.wake_waiting {p : Place} : p.wake = .asleep ∨ p.wake = .awake ↔ p = .asleep ∨ p = .awake := by
  cases p <;> simp [Place.wake]

theorem Place.wake_returned {p : Place} {r : Int} : p.wake = .returned r ↔ p = .returned r := by
  cases p <;> simp [Place.wake]

theorem elapsed_tick : elapsed (es ++ [.tick]) = elapsed es + 1 := by simp [elapsed]

theorem elapsed_other (he : e ≠ .tick) : elapsed (es ++ [e]) = elapsed es := by
  simp [elapsed, he]

theorem Counted.wake (h : Counted n es s) (ticks : UInt32)
    (hticks : s.Waiting → (ticks - s.ticks0).toNat = elapsed (es ++ [e])) :
    Counted n (es ++ [e]) { s with ticks := ticks, place := s.place.wake } where
  killed := h.killed
  ticks := fun hw => hticks (Place.wake_waiting.1 hw)
  place := by
    rcases h.place with hw | hr
    · exact .inl (Place.wake_waiting.2 hw)
    · exact .inr (Place.wake_returned.2 hr)

theorem Counted.step (h : Counted n es s) (hs : Step n s e t) (hin : InTime s e t)
    (hspared : Spared s e t) : Counted n (es ++ [e]) t := by
  cases e with
  | tick =>
    obtain rfl := Option.some.inj hs
    apply h.wake (s.ticks + 1)
    intro hw
    rw [elapsed_tick]
    exact toNat_sub_tick (h.ticks hw) (hin rfl hw)
  | wakeup =>
    obtain rfl := Option.some.inj hs
    apply h.wake s.ticks
    intro hw
    rw [elapsed_other (by decide)]
    exact h.ticks hw
  | kill => exact absurd rfl hspared
  | check =>
    obtain ⟨hawake, rfl⟩ := step_check hs
    obtain ⟨hticks, hticks0, hkilled⟩ := test_same (n := n) (s := s)
    refine ⟨hkilled.trans h.killed, fun _ => ?_, ?_⟩
    · rw [hticks, hticks0, elapsed_other (by decide)]
      exact h.ticks (.inr hawake)
    · have hplace := test_place (n := n) h.killed
      split at hplace
      · exact .inl (.inl hplace)
      · exact .inr hplace

theorem counted_enter : Counted n [] (enter n ticks false) := by
  obtain ⟨hticks, hticks0, hkilled⟩ :=
    test_same (n := n) (s := { ticks := ticks, ticks0 := ticks, killed := false, place := .awake })
  refine ⟨hkilled, fun _ => ?_, ?_⟩
  · rw [enter, hticks, hticks0, UInt32.sub_self]
    rfl
  · have hplace := test_place (n := n)
      (s := { ticks := ticks, ticks0 := ticks, killed := false, place := .awake }) rfl
    split at hplace
    · exact .inl (.inl hplace)
    · exact .inr hplace

theorem test_iff (hn : 0 ≤ n) (hk : s.killed = false) {d : Nat}
    (hd : (s.ticks - s.ticks0).toNat = d) :
    (s.test n).place = if max n.toInt 0 ≤ d then .returned 0 else .asleep := by
  have hnat := toNat_toUInt32 hn
  rw [test_place hk, hd]
  by_cases hle : max n.toInt 0 ≤ d
  · rw [if_pos hle, if_neg (by omega)]
  · rw [if_neg hle, if_pos (by omega)]

end Runs

/-- With `0 ≤ n` and fewer ticks than the counter has values, every test of the loop returns
0 exactly if enough ticks have come since the call. -/
theorem sleep_exact (n : Int32) (hn : 0 ≤ n) (ticks : UInt32) :
    (enter n ticks false).place = (if max n.toInt 0 ≤ 0 then .returned 0 else .asleep) ∧
    ∀ es s, Run (Restrict (Step n) fun s e t => InTime s e t ∧ Spared s e t)
        (enter n ticks false) es s →
      (s.Waiting ∨ s.place = .returned 0) ∧
      ∀ t, Step n s .check t →
        t.place = if max n.toInt 0 ≤ elapsed es then .returned 0 else .asleep := by
  constructor
  · exact test_iff hn rfl (UInt32.toNat_inj.2 (UInt32.sub_self (a := ticks)))
  · intro es s hrun
    have hcounted : Counted n es s :=
      hrun.history (fun es s e t h hs => h.step hs.1 hs.2.1 hs.2.2) counted_enter
    refine ⟨hcounted.place, ?_⟩
    intro t ht
    obtain ⟨hawake, rfl⟩ := step_check ht
    exact test_iff hn hcounted.killed (hcounted.ticks (.inr hawake))

/-- Two ticks across the end of the counter, with a wakeup in between, end a sleep of two. -/
theorem sleep_exact_wrap : (0 : Int32) ≤ 2 ∧ ∃ es s t,
    Run (Restrict (Step 2) fun s e t => InTime s e t ∧ Spared s e t) (enter 2 0xFFFFFFFF false) es s ∧
    Step 2 s .check t ∧ t.place = .returned 0 := by
  refine ⟨by decide, [.tick, .check, .wakeup, .check, .tick], ⟨1, 0xFFFFFFFF, false, .awake⟩,
    ⟨1, 0xFFFFFFFF, false, .returned 0⟩, ?_⟩
  have hrun : Run (Restrict (Step 2) fun s e t => InTime s e t ∧ Spared s e t)
      (enter 2 0xFFFFFFFF false) ([.tick, .check, .wakeup, .check, .tick])
      ⟨1, 0xFFFFFFFF, false, .awake⟩ := by
    have h0 : Run (Restrict (Step 2) fun s e t => InTime s e t ∧ Spared s e t)
        (enter 2 0xFFFFFFFF false) [] (enter 2 0xFFFFFFFF false) := .refl _
    have h1 := h0.tail (e := .tick) (u := ⟨0, 0xFFFFFFFF, false, .awake⟩)
      ⟨by decide, fun _ _ => by decide, nofun⟩
    have h2 := h1.tail (e := .check) (u := ⟨0, 0xFFFFFFFF, false, .asleep⟩)
      ⟨by decide, nofun, nofun⟩
    have h3 := h2.tail (e := .wakeup) (u := ⟨0, 0xFFFFFFFF, false, .awake⟩)
      ⟨by decide, nofun, nofun⟩
    have h4 := h3.tail (e := .check) (u := ⟨0, 0xFFFFFFFF, false, .asleep⟩)
      ⟨by decide, nofun, nofun⟩
    exact h4.tail (e := .tick) ⟨by decide, fun _ _ => by decide, nofun⟩
  have hcheck : Step 2 ⟨1, 0xFFFFFFFF, false, .awake⟩ .check ⟨1, 0xFFFFFFFF, false, .returned 0⟩ := by
    decide
  have hplace := ((sleep_exact 2 (by decide) 0xFFFFFFFF).2 _ _ hrun).2 _ hcheck
  rw [if_pos (by decide)] at hplace
  exact ⟨hrun, hcheck, hplace⟩

/-- A negative number is taken for a large one: the call does not return at once. -/
theorem negative_sleeps : ∃ (n : Int32) (ticks : UInt32), n ≤ 0 ∧
    (enter n ticks false).place ≠ .returned 0 := ⟨-1, 0, by decide, by decide⟩

end Xv6.SleepCall
