import Mathlib

/-!
# Commands that may stop

A command over a state `σ` returns a value and the state after it, or stops for a
reason `ε`.  `wp c Q E s` says that `c`, started in `s`, ends in a value and a state
with `Q` or stops for a reason with `E`.
-/

namespace Xv6.Lib

abbrev Cmd (ε σ : Type) := StateT σ (Except ε)

namespace Cmd

variable {ε σ α β : Type}

def wp (c : Cmd ε σ α) (Q : α → σ → Prop) (E : ε → Prop) (s : σ) : Prop :=
  match c s with
  | .ok (a, t) => Q a t
  | .error e => E e

variable {Q Q' : α → σ → Prop} {E E' : ε → Prop} {s t : σ} {a : α} {c : Cmd ε σ α}

theorem wp.ok (h : wp c Q E s) (hc : c s = .ok (a, t)) : Q a t := by
  rwa [wp, hc] at h

theorem wp.stop {e : ε} (h : wp c Q E s) (hc : c s = .error e) : E e := by
  rwa [wp, hc] at h

theorem wp.total (h : wp c Q E s) (hE : ∀ e, ¬E e) : ∃ a t, c s = .ok (a, t) ∧ Q a t := by
  cases hc : c s with
  | ok r => exact ⟨r.1, r.2, rfl, h.ok hc⟩
  | error e => exact absurd (h.stop hc) (hE e)

theorem wp_of_ok (hc : c s = .ok (a, t)) : wp c Q E s ↔ Q a t := by
  rw [wp, hc]

theorem wp_iff : wp c Q E s ↔ (∀ a t, c s = .ok (a, t) → Q a t) ∧ ∀ e, c s = .error e → E e := by
  unfold wp
  split
  next a t hc => simp [hc]
  next e hc => simp [hc]

theorem wp.mono (h : wp c Q E s) (hQ : ∀ a t, Q a t → Q' a t) (hE : ∀ e, E e → E' e) :
    wp c Q' E' s := by
  unfold wp at h ⊢
  split
  next a t hc =>
    rw [hc] at h
    exact hQ a t h
  next e hc =>
    rw [hc] at h
    exact hE e h

theorem wp.imp (h : wp c Q E s) (hQ : ∀ a t, Q a t → Q' a t) : wp c Q' E s :=
  h.mono hQ fun _ he => he

theorem wp.and (h : wp c Q E s) (h' : wp c Q' E' s) : wp c (fun a t => Q a t ∧ Q' a t) E s := by
  unfold wp at h h' ⊢
  split
  next a t hc =>
    rw [hc] at h h'
    exact ⟨h, h'⟩
  next e hc =>
    rw [hc] at h
    exact h

@[simp] theorem wp_pure : wp (pure a : Cmd ε σ α) Q E s ↔ Q a s := Iff.rfl

@[simp] theorem wp_bind {f : α → Cmd ε σ β} {Q : β → σ → Prop} :
    wp (c >>= f) Q E s ↔ wp c (fun a t => wp (f a) Q E t) E s := by
  unfold wp
  rw [show (c >>= f) s = (c s >>= fun p => f p.1 p.2) from rfl]
  cases c s with
  | ok p => rfl
  | error e => rfl

theorem wp.bind {P : α → σ → Prop} {f : α → Cmd ε σ β} {Q : β → σ → Prop} (h : wp c P E s)
    (hf : ∀ a t, P a t → wp (f a) Q E t) : wp (c >>= f) Q E s :=
  wp_bind.2 (h.imp hf)

@[simp] theorem wp_get {Q : σ → σ → Prop} : wp (get : Cmd ε σ σ) Q E s ↔ Q s s := Iff.rfl

@[simp] theorem wp_set {Q : PUnit → σ → Prop} : wp (set t : Cmd ε σ PUnit) Q E s ↔ Q ⟨⟩ t := Iff.rfl

theorem wp_ite {p : Prop} [Decidable p] {c' : Cmd ε σ α} :
    wp (if p then c else c') Q E s ↔ (p → wp c Q E s) ∧ (¬p → wp c' Q E s) := by
  by_cases h : p <;> simp [h]

theorem bind_ok {f : α → Cmd ε σ β} (h : c s = .ok (a, t)) : (c >>= f) s = f a t := by
  change (c s >>= fun p => f p.1 p.2) = f a t
  rw [h]
  rfl

/-- A loop over a list keeps an invariant about the rest of the list. -/
theorem wp_forM {f : β → Cmd ε σ PUnit} {I : List β → σ → Prop} {l : List β}
    (hstep : ∀ b bs s, I (b :: bs) s → wp (f b) (fun _ t => I bs t) E s) (h : I l s) :
    wp (forM l f) (fun _ t => I [] t) E s := by
  induction l generalizing s with
  | nil => exact h
  | cons b bs ih =>
    rw [List.forM_cons, wp_bind]
    exact (hstep b bs s h).imp fun _ t ht => ih ht

/-!
## Commands that keep a relation

For a reflexive and transitive relation between states, such as "this part of the
state is the same".
-/

/-- Every state that `c` ends in is related to the one it started in, and it stops only
for reasons with `E`. -/
def Keeps (R : σ → σ → Prop) (E : ε → Prop) (c : Cmd ε σ α) : Prop :=
  ∀ s, wp c (fun _ t => R s t) E s

namespace Keeps

variable {R : σ → σ → Prop}

theorem rel (h : Keeps R E c) (hc : c s = .ok (a, t)) : R s t := (h s).ok hc

theorem of_pure [Std.Refl R] (a : α) : Keeps R E (pure a : Cmd ε σ α) := fun s => Std.Refl.refl s

theorem of_get [Std.Refl R] : Keeps R E (get : Cmd ε σ σ) := fun s => Std.Refl.refl s

theorem of_throw {e : ε} (h : E e) : Keeps R E (throw e : Cmd ε σ α) := fun _ => h

theorem of_modify {f : σ → σ} (h : ∀ s, R s (f s)) : Keeps R E (modify f : Cmd ε σ PUnit) := h

theorem bind [IsTrans σ R] {f : α → Cmd ε σ β} (h : Keeps R E c) (hf : ∀ a, Keeps R E (f a)) :
    Keeps R E (c >>= f) := by
  intro s
  refine (h s).bind fun a t hst => (hf a t).imp fun _ u htu => ?_
  exact IsTrans.trans s t u hst htu

theorem ite {p : Prop} [Decidable p] {c' : Cmd ε σ α} (h : Keeps R E c) (h' : Keeps R E c') :
    Keeps R E (if p then c else c') := by
  split
  · exact h
  · exact h'

theorem of_forM [Std.Refl R] [IsTrans σ R] {f : β → Cmd ε σ PUnit} (h : ∀ b, Keeps R E (f b))
    (l : List β) : Keeps R E (forM l f) := by
  induction l with
  | nil => exact of_pure _
  | cons b bs ih =>
    rw [List.forM_cons]
    exact (h b).bind fun _ => ih

end Keeps

end Cmd

end Xv6.Lib
