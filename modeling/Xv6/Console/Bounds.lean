import Xv6.Console.Machine

/-!
# The bytes of one `consoleread`

As for pipes, the steps of a run are labelled with whose they are.
-/

namespace Xv6.Console

open Lib

variable {m : Nat}

def Acts (s : Sys m) (x : Choice m × Event m) (t : Sys m) : Prop := s.next x.1 = some (t, x.2)

def Inside (p : Fin m) (_ : Sys m) (x : Choice m × Event m) (_ : Sys m) : Prop :=
  ∀ dst n, x.1 ≠ .call p dst n

def isCopy (p : Fin m) : Choice m × Event m → Bool
  | (.go q, .delivered _ _) => q == p
  | _ => false

def copied (p : Fin m) (es : List (Choice m × Event m)) : Nat := es.countP (isCopy p)

def Returns (p : Fin m) (r : Int) : Choice m × Event m → Prop
  | (.go q, .returned _ r') => q = p ∧ r' = r
  | (.go q, .eof _ i) => q = p ∧ (i : Int) = r
  | _ => False

def Pc.Copied (n : Int) (c : Nat) : Pc → Prop
  | acquire _ i n' => n' = n ∧ c = i ∧ (c : Int) ≤ max n 0
  | loop _ i n' => n' = n ∧ c = i ∧ (c : Int) ≤ max n 0
  | done r => r ≤ max n 0 ∧ (c : Int) ≤ max n 0
  | user => (c : Int) ≤ max n 0

section

variable {s t : Sys m} {p q : Fin m} {e : Event m} {n : Int} {es : List (Choice m × Event m)}

theorem setProc_pc_of_ne {f : Proc → Proc} (hq : p ≠ q) : ((s.setProc q f).procs p).pc = (s.procs p).pc := by
  change (upd s.procs q _ p).pc = _
  rw [upd_of_ne _ _ _ hq]

theorem setProc_pc_self {f : Proc → Proc} : ((s.setProc p f).procs p).pc = (f (s.procs p)).pc := by
  change (upd s.procs p _ p).pc = _
  rw [upd_self]

theorem copied_snoc (x : Choice m × Event m) :
    copied p (es ++ [x]) = copied p es + if isCopy p x then 1 else 0 := by
  simp [copied, List.countP_cons]

theorem Pc.Copied.le {c : Nat} {pc : Pc} (h : pc.Copied n c) : (c : Int) ≤ max n 0 := by
  cases pc <;> simp only [Pc.Copied] at h <;> omega

theorem Pc.Copied.loop {dst : Target} {i : Nat} (h : (Pc.loop dst i n).Copied n (copied p es)) :
    (((s.loop p dst i n).1.procs p).pc.Copied n
        (copied p (es ++ [(.go p, (s.loop p dst i n).2)]))) ∧
      ∀ r, Returns p r (.go p, (s.loop p dst i n).2) → r ≤ max n 0 := by
  obtain ⟨-, hc, hle⟩ := h
  have hsilent : ∀ e, isCopy p (.go p, e) = false → copied p (es ++ [(.go p, e)]) = copied p es := by
    intro e hno
    rw [copied_snoc, hno]
    rfl
  unfold Sys.loop
  split
  next hi =>
    split
    next =>
      split
      next =>
        rw [hsilent _ rfl, Sys.goto, setProc_pc_self]
        exact ⟨⟨by omega, hle⟩, fun _ hr => hr.elim⟩
      next =>
        rw [hsilent _ rfl, setProc_pc_self]
        exact ⟨⟨rfl, hc, hle⟩, fun _ hr => hr.elim⟩
    next =>
      simp only
      split
      next =>
        rw [hsilent _ rfl, Sys.goto, setProc_pc_self]
        refine ⟨hle, ?_⟩
        rintro r ⟨-, rfl⟩
        omega
      next =>
        split
        next =>
          rw [copied_snoc, show isCopy p (.go p, Event.delivered p (s.cons.char s.cons.r)) = true by
            simp [isCopy], Sys.goto, setProc_pc_self]
          refine ⟨?_, fun _ hr => hr.elim⟩
          simp only [if_true, hc]
          split
          · simp only [Pc.Copied]
            omega
          · exact ⟨rfl, rfl, by omega⟩
        next =>
          rw [hsilent _ rfl, Sys.goto, setProc_pc_self]
          exact ⟨⟨by omega, hle⟩, fun _ hr => hr.elim⟩
  next =>
    rw [hsilent _ rfl, Sys.goto, setProc_pc_self]
    exact ⟨⟨by omega, hle⟩, fun _ hr => hr.elim⟩

theorem Pc.Copied.exec {a : Pc} (hpc : (s.procs p).pc = a) (h : a.Copied n (copied p es))
    (hs : s.exec p a = some (t, e)) :
    (t.procs p).pc.Copied n (copied p (es ++ [(.go p, e)])) ∧
      ∀ r, Returns p r (.go p, e) → r ≤ max n 0 := by
  have hsilent : isCopy p (.go p, e) = false → copied p (es ++ [(.go p, e)]) = copied p es := by
    intro hno
    rw [copied_snoc, hno]
    rfl
  cases a with
  | user => cases hs
  | acquire dst i n' =>
    change (if s.lock = none then _ else _) = _ at hs
    split at hs
    next =>
      cases hs
      rw [hsilent rfl, Sys.goto, setProc_pc_self]
      exact ⟨h, fun _ hr => hr.elim⟩
    next => cases hs
  | loop dst i n' =>
    have hn : n' = n := h.1
    subst hn
    have hloop := Pc.Copied.loop (s := s) h
    change some (s.loop p dst i n') = some (t, e) at hs
    rwa [Option.some.inj hs] at hloop
  | done r =>
    cases hs
    rw [hsilent rfl, Sys.goto, setProc_pc_self]
    refine ⟨h.2, ?_⟩
    rintro r' ⟨-, rfl⟩
    exact h.1

structure ReadWithin (p : Fin m) (n : Int) (es : List (Choice m × Event m)) (s : Sys m) : Prop where
  place : (s.procs p).pc.Copied n (copied p es)
  value : ∀ r, ∀ x ∈ es, Returns p r x → r ≤ max n 0

theorem ReadWithin.snoc {x : Choice m × Event m} (h : ReadWithin p n es s)
    (hplace : (t.procs p).pc.Copied n (copied p (es ++ [x])))
    (hx : ∀ r, Returns p r x → r ≤ max n 0) : ReadWithin p n (es ++ [x]) t where
  place := hplace
  value := by
    intro r y hy
    rcases List.mem_append.1 hy with hy | hy
    · exact h.value r y hy
    · rw [List.mem_singleton.1 hy]
      exact hx r

/-- What leaves the place of `p` alone copies nothing to it and returns nothing. -/
theorem ReadWithin.other {x : Choice m × Event m} (h : ReadWithin p n es s)
    (hpc : (t.procs p).pc = (s.procs p).pc) (hcopy : isCopy p x = false)
    (hx : ∀ r, ¬Returns p r x) : ReadWithin p n (es ++ [x]) t := by
  apply h.snoc
  · rw [hpc, copied_snoc, hcopy]
    exact h.place
  · intro r hr
    exact absurd hr (hx r)

theorem loop_pc_of_ne (dst : Target) (i : Nat) (k : Int) (hq : p ≠ q) :
    ((s.loop q dst i k).1.procs p).pc = (s.procs p).pc := by
  unfold Sys.loop Sys.goto
  split
  · split
    · split
      · rw [setProc_pc_of_ne hq]
      · rw [setProc_pc_of_ne hq]
    · simp only
      split
      · rw [setProc_pc_of_ne hq]
        split <;> rfl
      · split
        · rw [setProc_pc_of_ne hq]
          rfl
        · rw [setProc_pc_of_ne hq]
          rfl
  · rw [setProc_pc_of_ne hq]

theorem exec_pc_of_ne {a : Pc} (hq : p ≠ q) (hs : s.exec q a = some (t, e)) :
    (t.procs p).pc = (s.procs p).pc := by
  cases a with
  | user => cases hs
  | acquire dst i n' =>
    change (if s.lock = none then _ else _) = _ at hs
    split at hs
    next =>
      cases hs
      exact setProc_pc_of_ne hq
    next => cases hs
  | loop dst i n' =>
    change some (s.loop q dst i n') = some (t, e) at hs
    have hpc := loop_pc_of_ne (s := s) dst i n' hq
    rwa [Option.some.inj hs] at hpc
  | done r =>
    cases hs
    exact setProc_pc_of_ne hq

theorem ReadWithin.step {x : Choice m × Event m} (h : ReadWithin p n es s) (hs : Acts s x t)
    (hin : Inside p s x t) : ReadWithin p n (es ++ [x]) t := by
  obtain ⟨k, e⟩ := x
  cases k with
  | intr c =>
    change s.intr c = some (t, e) at hs
    unfold Sys.intr at hs
    split at hs
    next =>
      cases hs
      refine h.other ?_ rfl fun _ hr => hr.elim
      simp only
      split <;> rfl
    next => cases hs
  | go q =>
    change s.step q = some (t, e) at hs
    unfold Sys.step at hs
    split at hs
    next => cases hs
    next =>
      by_cases hq : p = q
      · subst hq
        obtain ⟨hplace, hvalue⟩ := Pc.Copied.exec rfl h.place hs
        exact h.snoc hplace hvalue
      · apply h.other (exec_pc_of_ne hq hs)
        · cases e <;> simp [isCopy, Ne.symm hq]
        · intro r
          cases e <;> simp [Returns, Ne.symm hq]
  | call q dst k =>
    have hq : p ≠ q := by
      rintro rfl
      exact hin dst k rfl
    change s.call q dst k = some (t, e) at hs
    unfold Sys.call at hs
    split at hs
    next =>
      cases hs
      exact h.other (setProc_pc_of_ne hq) rfl fun _ hr => hr.elim
    next => cases hs
  | kill q =>
    change some (s.kill q) = some (t, e) at hs
    cases hs
    refine h.other ?_ rfl fun _ hr => hr.elim
    by_cases hq : p = q
    · subst hq
      exact setProc_pc_self
    · exact setProc_pc_of_ne hq

/-- A `consoleread` of `n` copies at most `n` bytes and returns at most that, whatever is typed
and whatever others do. -/
theorem consoleread_within {dst : Target} (hpc : (s.procs p).pc = .acquire dst 0 n)
    (hrun : Run (Restrict Acts (Inside p)) s es t) :
    (copied p es : Int) ≤ max n 0 ∧ ∀ r, ∀ x ∈ es, Returns p r x → r ≤ max n 0 := by
  have hstart : ReadWithin p n [] s := by
    constructor
    · rw [hpc]
      exact ⟨rfl, rfl, Int.le_max_right n 0⟩
    · nofun
  have hend := hrun.history (I := fun es s => ReadWithin p n es s)
    (fun es s x t h hs => h.step hs.1 hs.2) hstart
  exact ⟨hend.place.le, hend.value⟩

end

end Xv6.Console
