import Mathlib

/-!
# Labelled runs

Runs of an arbitrary labelled step relation, together with the induction rules
that turn a fact about one step into a fact about a whole run.  A restricted run
(one whose steps all meet a side condition) is a run of the restricted relation.
-/

namespace Xv6.Lib

universe u v

variable {σ : Type u} {ε : Type v}

/-- `Run step s es t`: the steps labelled `es` lead from `s` to `t`. -/
inductive Run (step : σ → ε → σ → Prop) : σ → List ε → σ → Prop
  | refl (s : σ) : Run step s [] s
  | tail {s t u : σ} {es : List ε} {e : ε} :
      Run step s es t → step t e u → Run step s (es ++ [e]) u

/-- The restriction of a step relation to the steps that meet `C`. -/
def Restrict (step C : σ → ε → σ → Prop) : σ → ε → σ → Prop :=
  fun s e t => step s e t ∧ C s e t

namespace Run

variable {step : σ → ε → σ → Prop} {s t u : σ} {es es' : List ε}

theorem invariant {I : σ → Prop} (hstep : ∀ s e t, I s → step s e t → I t) (h : Run step s es t)
    (hs : I s) : I t := by
  induction h with
  | refl => exact hs
  | tail _ hlast ih => exact hstep _ _ _ ih hlast

/-- The same rule for an invariant that also speaks about the labels so far. -/
theorem history {I : List ε → σ → Prop} (hstep : ∀ es s e t, I es s → step s e t → I (es ++ [e]) t)
    (h : Run step s es t) (hs : I [] s) : I es t := by
  induction h with
  | refl => exact hs
  | tail _ hlast ih => exact hstep _ _ _ _ ih hlast

theorem single {e : ε} (h : step s e t) : Run step s [e] t := (refl s).tail h

theorem step_of_single {e : ε} (h : Run step s [e] t) : step s e t := by
  generalize hl : [e] = l at h
  cases h with
  | refl => cases hl
  | tail hpre hlast =>
    rw [← List.nil_append [e]] at hl
    obtain ⟨hnil, he⟩ := List.append_inj' hl rfl
    subst hnil
    obtain rfl : e = _ := by simpa using he
    generalize hl : [] = l at hpre
    cases hpre with
    | refl => exact hlast
    | tail => simp at hl

theorem append (h : Run step s es t) (h' : Run step t es' u) : Run step s (es ++ es') u := by
  induction h' with
  | refl => simpa using h
  | tail _ hlast ih =>
    rw [← List.append_assoc]
    exact ih.tail hlast

/-- A run may be restricted to the side condition its steps meet. -/
theorem mono {step' : σ → ε → σ → Prop} (hsub : ∀ s e t, step s e t → step' s e t)
    (h : Run step s es t) : Run step' s es t := by
  induction h with
  | refl => exact refl _
  | tail _ hlast ih => exact ih.tail (hsub _ _ _ hlast)

theorem of_restrict {C : σ → ε → σ → Prop} (h : Run (Restrict step C) s es t) : Run step s es t :=
  h.mono fun _ _ _ hs => hs.1

/-- A run whose labels all meet a condition is a run of the restricted relation. -/
theorem restrict {C : ε → Prop} (h : Run step s es t) (hC : ∀ e ∈ es, C e) :
    Run (Restrict step fun _ e _ => C e) s es t := by
  induction h with
  | refl => exact refl _
  | tail _ hlast ih =>
    simp only [List.mem_append, List.mem_singleton] at hC
    exact (ih fun e he => hC e (.inl he)).tail ⟨hlast, hC _ (.inr rfl)⟩

/-- Every prefix of a run is a run, so a run passes through a state before each
of its labels. -/
theorem split (h : Run step s (es ++ es') u) : ∃ t, Run step s es t ∧ Run step t es' u := by
  induction es' using List.reverseRecOn generalizing u with
  | nil => exact ⟨u, by simpa using h, refl u⟩
  | append_singleton es' e ih =>
    rw [← List.append_assoc] at h
    generalize hl : es ++ es' ++ [e] = l at h
    cases h with
    | refl => simp at hl
    | tail hpre hlast =>
      obtain ⟨hes, he⟩ := List.append_inj' hl rfl
      obtain rfl : e = _ := by simpa using he
      obtain ⟨t, ht, htu⟩ := ih (hes ▸ hpre)
      exact ⟨t, ht, htu.tail hlast⟩

end Run

section Trace

variable {κ : Type*}

/-- The run of a deterministic machine under a list of choices. -/
def trace (next : σ → κ → Option (σ × ε)) : σ → List κ → Option (σ × List ε)
  | s, [] => some (s, [])
  | s, k :: ks =>
    match next s k with
    | none => none
    | some (t, e) => (trace next t ks).map fun x => (x.1, e :: x.2)

theorem trace_run {next : σ → κ → Option (σ × ε)} {step : σ → ε → σ → Prop}
    (hstep : ∀ s k t e, next s k = some (t, e) → step s e t) {s t : σ} {ks : List κ} {es : List ε}
    (h : trace next s ks = some (t, es)) : Run step s es t := by
  induction ks generalizing s es with
  | nil =>
    simp only [trace, Option.some.injEq, Prod.mk.injEq] at h
    obtain ⟨rfl, rfl⟩ := h
    exact .refl s
  | cons k ks ih =>
    simp only [trace] at h
    split at h
    next => cases h
    next u e hnext =>
      simp only [Option.map_eq_some_iff, Prod.mk.injEq, Prod.exists] at h
      obtain ⟨u', es', hu, rfl, rfl⟩ := h
      exact (Run.single (hstep s k u e hnext)).append (ih hu)

def guarded (next : σ → κ → Option (σ × ε)) (C : σ → ε → σ → Bool) (s : σ) (k : κ) :
    Option (σ × ε) :=
  (next s k).filter fun x => C s x.2 x.1

theorem guarded_restrict {next : σ → κ → Option (σ × ε)} {step C : σ → ε → σ → Prop}
    [∀ s e t, Decidable (C s e t)] (hstep : ∀ s k t e, next s k = some (t, e) → step s e t) (s : σ)
    (k : κ) (t : σ) (e : ε)
    (h : guarded next (fun s e t => C s e t) s k = some (t, e)) : Restrict step C s e t := by
  obtain ⟨hnext, hC⟩ := Option.filter_eq_some_iff.1 h
  exact ⟨hstep s k t e hnext, of_decide_eq_true hC⟩

end Trace

end Xv6.Lib
