import Xv6.Pipes.Machine

/-!
# The bytes of one `piperead`

The steps of a run are labelled with whose they are, so that the bytes that go to one reader can
be counted.
-/

namespace Xv6.Pipes

open Lib

variable {m : Nat}

def Acts (s : Sys m) (x : Choice m × Event m) (t : Sys m) : Prop := s.next x.1 = some (t, x.2)

def Inside (p : Fin m) (_ : Sys m) (x : Choice m × Event m) (_ : Sys m) : Prop := ∀ o, x.1 ≠ .call p o

def Returns (p : Fin m) (r : Int) : Choice m × Event m → Prop
  | (.go q, .returned _ r') => q = p ∧ r' = r
  | _ => False

def isCopy (p : Fin m) : Choice m × Event m → Bool
  | (.go q, .delivered _) => q == p
  | _ => false

def copied (p : Fin m) (es : List (Choice m × Event m)) : Nat := es.countP (isCopy p)

def Pc.Copied (n : Int) (c : Nat) : Pc → Prop
  | readAcquire _ n' => n' = n ∧ c = 0
  | readWait _ n' => n' = n ∧ c = 0
  | readSleep _ n' => n' = n ∧ c = 0
  | readDoze _ n' => n' = n ∧ c = 0
  | readLoop _ i n' => n' = n ∧ c = i ∧ (c : Int) ≤ max n 0
  | readDone i _ => c = i ∧ (c : Int) ≤ max n 0
  | release r => r ≤ max n 0 ∧ (c : Int) ≤ max n 0
  | user => (c : Int) ≤ max n 0
  | _ => False

section

variable {s t : Sys m} {p q : Fin m} {e : Event m} {n : Int} {es : List (Choice m × Event m)}

theorem copied_snoc (x : Choice m × Event m) :
    copied p (es ++ [x]) = copied p es + if isCopy p x then 1 else 0 := by
  simp [copied, List.countP_cons]

theorem Pc.Copied.le {c : Nat} {pc : Pc} (h : pc.Copied n c) : (c : Int) ≤ max n 0 := by
  cases pc <;> simp only [Pc.Copied] at h <;> omega

theorem Move.pc_of_ne (h : Move s q t e) (hq : p ≠ q) : (t.procs p).pc = (s.procs p).pc := by
  cases h <;> simp only [Sys.goto_eq, Sys.setProc_procs_of_ne _ _ _ hq, Sys.setLock_procs,
    Sys.setPipe_procs, (Sys.rouse_procs _ _ _ _ _).1]

/-- One step of the reader itself: where it comes to, and what it returns. -/
theorem Pc.Copied.exec {a : Pc} (hpc : (s.procs p).pc = a) (h : a.Copied n (copied p es))
    (hs : s.exec p a = some (t, e)) :
    (t.procs p).pc.Copied n (copied p (es ++ [(.go p, e)])) ∧
      ∀ r, Returns p r (.go p, e) → r ≤ max n 0 := by
  have hsilent : isCopy p (.go p, e) = false → copied p (es ++ [(.go p, e)]) = copied p es := by
    intro hno
    rw [copied_snoc, hno]
    rfl
  cases a with
  | readAcquire dst n' =>
    simp only [Sys.exec, Option.map_eq_some_iff, Prod.mk.injEq, Sys.acquire] at hs
    obtain ⟨u, hu, rfl, rfl⟩ := hs
    split at hu
    next =>
      cases hu
      rw [hsilent rfl]
      exact ⟨by simpa [Pc.Copied] using h, fun _ hr => hr.elim⟩
    next => cases hu
  | readWait dst n' =>
    simp only [Sys.exec, Option.some.injEq, Prod.mk.injEq, Sys.readWait] at hs
    obtain ⟨hu, rfl⟩ := hs
    rw [hsilent rfl]
    refine ⟨?_, fun _ hr => hr.elim⟩
    obtain ⟨hn, hc⟩ := h
    split at hu
    · split at hu
      · rw [← hu]
        simp only [Sys.goto_eq, Sys.setProc_procs_self, Pc.Copied]
        omega
      · rw [← hu]
        simpa using ⟨hn, hc⟩
    · rw [← hu]
      simp only [Sys.goto_eq, Sys.setProc_procs_self, Pc.Copied]
      exact ⟨hn, hc, by omega⟩
  | readSleep dst n' =>
    cases hs
    rw [hsilent rfl]
    exact ⟨by simpa [Pc.Copied] using h, fun _ hr => hr.elim⟩
  | readDoze dst n' =>
    cases hs
    rw [hsilent rfl]
    exact ⟨by simpa [Pc.Copied] using h, fun _ hr => hr.elim⟩
  | readLoop dst i n' =>
    obtain ⟨rfl, hc, hle⟩ := h
    simp only [Sys.exec, Option.some.injEq, Sys.readLoop] at hs
    split at hs
    next hi =>
      split at hs
      next =>
        cases hs
        rw [copied_snoc, show isCopy p (.go p, Event.delivered s.pipe.front) = true by simp [isCopy]]
        simp only [Sys.goto_eq, Sys.setProc_procs_self, Pc.Copied, if_true, hc]
        exact ⟨⟨trivial, trivial, by omega⟩, fun _ hr => hr.elim⟩
      next =>
        cases hs
        rw [hsilent rfl]
        simp only [Sys.goto_eq, Sys.setProc_procs_self, Pc.Copied]
        exact ⟨⟨hc, hle⟩, fun _ hr => hr.elim⟩
    next =>
      cases hs
      rw [hsilent rfl]
      simp only [Sys.goto_eq, Sys.setProc_procs_self, Pc.Copied]
      exact ⟨⟨hc, hle⟩, fun _ hr => hr.elim⟩
  | readDone i k =>
    obtain ⟨hc, hle⟩ := h
    simp only [Sys.exec, Option.map_eq_some_iff, Prod.mk.injEq, Sys.wakeup] at hs
    obtain ⟨u, hu, rfl, rfl⟩ := hs
    rw [hsilent rfl]
    refine ⟨?_, fun _ hr => hr.elim⟩
    split at hu
    · split at hu
      · cases hu
      · cases hu
        simp only [Sys.goto_eq, Sys.setProc_procs_self, Pc.Copied]
        exact ⟨hc, hle⟩
    · cases hu
      simp only [Sys.goto_eq, Sys.setProc_procs_self, Pc.Copied]
      omega
  | release r =>
    cases hs
    rw [hsilent rfl]
    simp only [Sys.goto_eq, Sys.setProc_procs_self, Pc.Copied]
    refine ⟨h.2, ?_⟩
    rintro r' ⟨-, rfl⟩
    exact h.1
  | user => cases hs
  | _ => exact h.elim

structure ReadWithin (p : Fin m) (n : Int) (es : List (Choice m × Event m)) (s : Sys m) : Prop where
  place : (s.procs p).pc.Copied n (copied p es)
  value : ∀ r, ∀ x ∈ es, Returns p r x → r ≤ max n 0

theorem ReadWithin.snoc {x : Choice m × Event m} (h : ReadWithin p n es s)
    (hplace : (t.procs p).pc.Copied n (copied p (es ++ [x])))
    (hx : ∀ r, Returns p r x → r ≤ max n 0) : ReadWithin p n (es ++ [x]) t where
  place := hplace
  value := by
    intro r y hy
    rcases List.mem_append.1 hy with hy | hy
    · exact h.value r y hy
    · rw [List.mem_singleton.1 hy]
      exact hx r

/-- What leaves the place of `p` alone copies nothing to it and returns nothing. -/
theorem ReadWithin.other {x : Choice m × Event m} (h : ReadWithin p n es s)
    (hpc : (t.procs p).pc = (s.procs p).pc) (hcopy : isCopy p x = false)
    (hx : ∀ r, ¬Returns p r x) : ReadWithin p n (es ++ [x]) t := by
  apply h.snoc
  · rw [hpc, copied_snoc, hcopy]
    exact h.place
  · intro r hr
    exact absurd hr (hx r)

theorem ReadWithin.step {x : Choice m × Event m} (h : ReadWithin p n es s) (hs : Acts s x t)
    (hin : Inside p s x t) : ReadWithin p n (es ++ [x]) t := by
  obtain ⟨k, e⟩ := x
  cases k with
  | go q =>
    change s.step q = some (t, e) at hs
    unfold Sys.step at hs
    split at hs
    next =>
      by_cases hq : p = q
      · subst hq
        obtain ⟨hplace, hvalue⟩ := Pc.Copied.exec rfl h.place hs
        exact h.snoc hplace hvalue
      · apply h.other ((exec_move rfl hs).pc_of_ne hq)
        · cases e <;> simp [isCopy, Ne.symm hq]
        · intro r
          cases e <;> simp [Returns, Ne.symm hq]
    next => cases hs
  | call q o =>
    have hq : p ≠ q := by
      rintro rfl
      exact hin o rfl
    change s.call q o = some (t, e) at hs
    unfold Sys.call at hs
    split at hs
    next =>
      cases hs
      exact h.other (by simp [Sys.setProc_procs_of_ne _ _ _ hq]) rfl fun _ hr => hr.elim
    next => cases hs
  | kill q =>
    change s.kill q = some (t, e) at hs
    unfold Sys.kill at hs
    split at hs
    next => cases hs
    next =>
      cases hs
      refine h.other ?_ rfl fun _ hr => hr.elim
      by_cases hq : p = q
      · subst hq
        simp
      · simp [Sys.setProc_procs_of_ne _ _ _ hq]

/-- A `piperead` of `n` copies at most `n` bytes and returns at most that, whatever others do. -/
theorem piperead_within {dst : Target} (hpc : (s.procs p).pc = (Op.read dst n).start)
    (hrun : Run (Restrict Acts (Inside p)) s es t) :
    (copied p es : Int) ≤ max n 0 ∧ ∀ r, ∀ x ∈ es, Returns p r x → r ≤ max n 0 := by
  have hstart : ReadWithin p n [] s := by
    constructor
    · rw [hpc]
      exact ⟨rfl, rfl⟩
    · nofun
  have hend := hrun.history (I := fun es s => ReadWithin p n es s)
    (fun es s x t h hs => h.step hs.1 hs.2) hstart
  exact ⟨hend.place.le, hend.value⟩

end

end Xv6.Pipes
