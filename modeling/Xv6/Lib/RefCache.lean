import Mathlib

/-!
# Reference-counted caches

A cache has slots, each of which holds at most one key.  Clients hold references
to slots; a reference names the key it is for, and may own the slot's lock.  Keys
may be pinned besides.  A slot's counter is the number of references to it, plus
one if its key is pinned.

`Sound` is the invariant of such a cache, and one rule is given for each way a
client may change its references.
-/

namespace Xv6.Lib

universe u v w

/-- If only one term of a sum changes, so does the sum, by as much. -/
theorem sum_change {π : Type u} [Fintype π] [DecidableEq π] {f g : π → Nat} (p : π) (h : ∀ q, q ≠ p → g q = f q) :
    ∑ q, g q + f p = ∑ q, f q + g p := by
  have hrest : ∑ q ∈ Finset.univ.erase p, g q = ∑ q ∈ Finset.univ.erase p, f q :=
    Finset.sum_congr rfl fun q hq => h q (Finset.ne_of_mem_erase hq)
  rw [← Finset.add_sum_erase _ g (Finset.mem_univ p),
    ← Finset.add_sum_erase _ f (Finset.mem_univ p), hrest]
  omega

structure Ref (ι : Type v) (β : Type w) where
  slot : ι
  key : β
  locked : Bool
  deriving DecidableEq

structure RefCache (π : Type u) (ι : Type v) (β : Type w) where
  key : ι → Option β
  valid : ι → Bool
  refcnt : ι → Nat
  holder : ι → Option π
  refs : π → List (Ref ι β)
  pins : List β

namespace RefCache

variable {π : Type u} {ι : Type v} {β : Type w} [DecidableEq ι]

def uses (l : List (Ref ι β)) (i : ι) : Nat := l.countP fun x => x.slot = i

def locks (l : List (Ref ι β)) (i : ι) : Nat := l.countP fun x => x.slot = i ∧ x.locked

section

variable (x : Ref ι β) (l : List (Ref ι β)) (i : ι)

@[simp] theorem uses_cons : uses (x :: l) i = uses l i + if x.slot = i then 1 else 0 := by
  simp [uses, List.countP_cons]

@[simp] theorem locks_cons :
    locks (x :: l) i = locks l i + if x.slot = i ∧ x.locked then 1 else 0 := by
  simp [locks, List.countP_cons]

end

theorem uses_perm {l l' : List (Ref ι β)} (h : l.Perm l') (i : ι) : uses l i = uses l' i :=
  h.countP_eq _

theorem locks_perm {l l' : List (Ref ι β)} (h : l.Perm l') (i : ι) : locks l i = locks l' i :=
  h.countP_eq _

theorem uses_pos {l : List (Ref ι β)} {x : Ref ι β} (hx : x ∈ l) : 0 < uses l x.slot :=
  List.countP_pos_iff.2 ⟨x, hx, by simp⟩

theorem locks_pos {l : List (Ref ι β)} {x : Ref ι β} (hx : x ∈ l) (hl : x.locked) :
    0 < locks l x.slot :=
  List.countP_pos_iff.2 ⟨x, hx, by simp [hl]⟩

variable [DecidableEq π] [DecidableEq β]

def pinned (C : RefCache π ι β) (i : ι) : Nat :=
  if ∃ b ∈ C.pins, C.key i = some b then 1 else 0

variable [Fintype π]

structure Sound (C : RefCache π ι β) : Prop where
  key_injective : ∀ i j b, C.key i = some b → C.key j = some b → i = j
  refcnt : ∀ i, C.refcnt i = ∑ p, uses (C.refs p) i + C.pinned i
  key : ∀ p, ∀ x ∈ C.refs p, C.key x.slot = some x.key
  holder : ∀ p i, locks (C.refs p) i = if C.holder i = some p then 1 else 0
  valid : ∀ p, ∀ x ∈ C.refs p, x.locked → C.valid x.slot
  pins : ∀ b ∈ C.pins, ∃ i, C.key i = some b ∧ C.valid i
  pins_nodup : C.pins.Nodup

def Others (C C' : RefCache π ι β) (p : π) : Prop := ∀ q, q ≠ p → C'.refs q = C.refs q

namespace Sound

variable {C C' : RefCache π ι β} {p q : π} {i j : ι} {b : β} {x y : Ref ι β}
  {l : List (Ref ι β)}

omit [DecidableEq β] in
theorem sum_uses (ho : Others C C' p) (i : ι) :
    ∑ q, uses (C'.refs q) i + uses (C.refs p) i = ∑ q, uses (C.refs q) i + uses (C'.refs p) i :=
  sum_change (f := fun q => uses (C.refs q) i) (g := fun q => uses (C'.refs q) i) p
    fun q hq => by rw [ho q hq]

theorem holder_of_locked (h : C.Sound) (hx : x ∈ C.refs p) (hl : x.locked) :
    C.holder x.slot = some p := by
  have hpos := locks_pos hx hl
  have heq := h.holder p x.slot
  by_contra hne
  rw [if_neg hne] at heq
  omega

theorem locked_unique (h : C.Sound) (hx : x ∈ C.refs p) (hl : x.locked) (hy : y ∈ C.refs q)
    (hl' : y.locked) (hslot : x.slot = y.slot) : p = q := by
  have hp := h.holder_of_locked hx hl
  have hq := h.holder_of_locked hy hl'
  rw [hslot, hq] at hp
  exact (Option.some.inj hp).symm

theorem refcnt_pos (h : C.Sound) (hx : x ∈ C.refs p) : 0 < C.refcnt x.slot := by
  have huse := uses_pos hx
  have hle : uses (C.refs p) x.slot ≤ ∑ q, uses (C.refs q) x.slot :=
    Finset.single_le_sum (f := fun q => uses (C.refs q) x.slot) (fun _ _ => Nat.zero_le _)
      (Finset.mem_univ p)
  have hcnt := h.refcnt x.slot
  omega

theorem refcnt_pos_of_pinned (h : C.Sound) (hb : b ∈ C.pins) (hi : C.key i = some b) :
    0 < C.refcnt i := by
  have hpin : C.pinned i = 1 := if_pos ⟨b, hb, hi⟩
  have hcnt := h.refcnt i
  omega

omit [DecidableEq ι] [DecidableEq π] [Fintype π] in
theorem pinned_eq (h : (∃ b ∈ C'.pins, C'.key i = some b) ↔ ∃ b ∈ C.pins, C.key i = some b) :
    C'.pinned i = C.pinned i :=
  if_congr h rfl rfl

omit [DecidableEq ι] [DecidableEq π] [Fintype π] in
theorem pinned_congr (hkey : C'.key i = C.key i) (hpins : C'.pins = C.pins) :
    C'.pinned i = C.pinned i :=
  pinned_eq (by rw [hkey, hpins])

/-- The parts of the invariant that survive while slots keep their keys. -/
theorem key_injective_of_eq (h : C.Sound) (hkey : ∀ j, C'.key j = C.key j) :
    ∀ i j b, C'.key i = some b → C'.key j = some b → i = j := by
  intro i j b
  rw [hkey, hkey]
  exact h.key_injective i j b

theorem pins_of_eq (h : C.Sound) (hkey : ∀ j, C'.key j = C.key j)
    (hvalid : ∀ j, C.valid j → C'.valid j) (hb : b ∈ C.pins) :
    ∃ i, C'.key i = some b ∧ C'.valid i := by
  obtain ⟨i, hi, hv⟩ := h.pins b hb
  exact ⟨i, by rw [hkey, hi], hvalid i hv⟩

/-- Nothing changed but the order in which the references are listed. -/
theorem same (h : C.Sound) (hkey : ∀ j, C'.key j = C.key j) (hvalid : ∀ j, C'.valid j = C.valid j)
    (hcnt : ∀ j, C'.refcnt j = C.refcnt j) (hholder : ∀ j, C'.holder j = C.holder j)
    (hpins : C'.pins = C.pins) (hrefs : ∀ q, (C'.refs q).Perm (C.refs q)) : C'.Sound where
  key_injective := h.key_injective_of_eq hkey
  refcnt i := by
    rw [hcnt, h.refcnt i, pinned_congr (hkey i) hpins]
    simp only [uses_perm (hrefs _)]
  key q x hx := by
    rw [hkey]
    exact h.key q x ((hrefs q).mem_iff.1 hx)
  holder q i := by
    rw [locks_perm (hrefs q), hholder]
    exact h.holder q i
  valid q x hx hl := by
    rw [hvalid]
    exact h.valid q x ((hrefs q).mem_iff.1 hx) hl
  pins b hb := h.pins_of_eq hkey (fun j hj => by rw [hvalid, hj]) (hpins ▸ hb)
  pins_nodup := hpins ▸ h.pins_nodup

omit [DecidableEq ι] [DecidableEq β] [Fintype π] in
/-- The references to a slot that belong to another client, or that are old. -/
theorem mem_refs_cases (ho : Others C C' p) (hrefs : (C'.refs p).Perm (x :: l))
    (hy : y ∈ C'.refs q) : (q = p ∧ y = x) ∨ (q = p ∧ y ∈ l) ∨ (q ≠ p ∧ y ∈ C.refs q) := by
  by_cases hq : q = p
  · subst hq
    rcases List.mem_cons.1 (hrefs.mem_iff.1 hy) with rfl | hl
    · exact .inl ⟨rfl, rfl⟩
    · exact .inr (.inl ⟨rfl, hl⟩)
  · exact .inr (.inr ⟨hq, ho q hq ▸ hy⟩)

theorem take (h : C.Sound) (ho : Others C C' p) (hrefs : (C'.refs p).Perm (x :: C.refs p))
    (hx : x.locked = false) (hslot : C.key x.slot = some x.key)
    (hcnt : ∀ j, C'.refcnt j = C.refcnt j + if x.slot = j then 1 else 0)
    (hkey : ∀ j, C'.key j = C.key j) (hvalid : ∀ j, C'.valid j = C.valid j)
    (hholder : ∀ j, C'.holder j = C.holder j) (hpins : C'.pins = C.pins) : C'.Sound where
  key_injective := h.key_injective_of_eq hkey
  refcnt i := by
    have hsum := sum_uses ho i
    rw [uses_perm hrefs, uses_cons] at hsum
    have hold := h.refcnt i
    rw [hcnt, pinned_congr (hkey i) hpins]
    omega
  key q y hy := by
    rw [hkey]
    rcases mem_refs_cases ho hrefs hy with ⟨-, rfl⟩ | ⟨rfl, hl⟩ | ⟨-, hq⟩
    · exact hslot
    · exact h.key q y hl
    · exact h.key q y hq
  holder q i := by
    rw [hholder]
    by_cases hq : q = p
    · subst hq
      rw [locks_perm hrefs, locks_cons, if_neg (by simp [hx]), Nat.add_zero]
      exact h.holder q i
    · rw [ho q hq]
      exact h.holder q i
  valid q y hy hl := by
    rw [hvalid]
    rcases mem_refs_cases ho hrefs hy with ⟨-, rfl⟩ | ⟨rfl, hmem⟩ | ⟨-, hmem⟩
    · simp [hx] at hl
    · exact h.valid q y hmem hl
    · exact h.valid q y hmem hl
  pins b hb := h.pins_of_eq hkey (fun j hj => by rw [hvalid, hj]) (hpins ▸ hb)
  pins_nodup := hpins ▸ h.pins_nodup

/-- Giving a free slot to a key that no slot holds, and taking a reference to it. -/
theorem recycle (h : C.Sound) (ho : Others C C' p)
    (hrefs : (C'.refs p).Perm (⟨i, b, false⟩ :: C.refs p)) (hfree : C.refcnt i = 0)
    (hmiss : ∀ j, C.key j ≠ some b) (hcnt : ∀ j, C'.refcnt j = if i = j then 1 else C.refcnt j)
    (hkey : ∀ j, C'.key j = if i = j then some b else C.key j)
    (hvalid : ∀ j, C'.valid j = if i = j then false else C.valid j)
    (hholder : ∀ j, C'.holder j = C.holder j) (hpins : C'.pins = C.pins) : C'.Sound := by
  have hunused : ∀ q, ∀ y ∈ C.refs q, i ≠ y.slot := by
    rintro q y hy rfl
    have hpos := h.refcnt_pos hy
    omega
  have hunpinned : ∀ b' ∈ C.pins, C.key i ≠ some b' := by
    intro b' hb' hi
    have hpos := h.refcnt_pos_of_pinned hb' hi
    omega
  have hb : b ∉ C.pins := by
    intro hb
    obtain ⟨j, hj, -⟩ := h.pins b hb
    exact hmiss j hj
  have hpin : ∀ j, C'.pinned j = C.pinned j := by
    intro j
    by_cases hij : i = j
    · subst hij
      have hold : C.pinned i = 0 := if_neg fun ⟨b', hb', hi⟩ => hunpinned b' hb' hi
      rw [hold]
      refine if_neg ?_
      rintro ⟨b', hb', hi⟩
      rw [hkey, if_pos rfl, Option.some.injEq] at hi
      subst hi
      exact hb (hpins ▸ hb')
    · exact pinned_congr (by rw [hkey, if_neg hij]) hpins
  have hkeyOld : ∀ j b', C'.key j = some b' → (i = j ∧ b = b') ∨ (i ≠ j ∧ C.key j = some b') := by
    intro j b' hj
    rw [hkey] at hj
    by_cases hij : i = j
    · exact .inl ⟨hij, by simpa [hij] using hj⟩
    · exact .inr ⟨hij, by simpa [hij] using hj⟩
  constructor
  case key_injective =>
    intro j k b' hj hk
    rcases hkeyOld j b' hj with ⟨rfl, rfl⟩ | ⟨-, hj⟩ <;>
      rcases hkeyOld k _ hk with ⟨hik, hbk⟩ | ⟨-, hk⟩
    · exact hik
    · exact absurd hk (hmiss k)
    · exact absurd (hbk ▸ hj) (hmiss j)
    · exact h.key_injective j k b' hj hk
  case refcnt =>
    intro j
    have hsum := sum_uses ho j
    rw [uses_perm hrefs, uses_cons] at hsum
    have hold := h.refcnt j
    rw [hcnt, hpin]
    by_cases hij : i = j
    · subst hij
      simp only [if_true] at hsum ⊢
      omega
    · simp only [if_neg hij] at hsum ⊢
      omega
  case key =>
    intro q y hy
    rcases mem_refs_cases ho hrefs hy with ⟨-, rfl⟩ | ⟨rfl, hl⟩ | ⟨-, hq⟩
    · rw [hkey, if_pos rfl]
    · rw [hkey, if_neg (hunused q y hl)]
      exact h.key q y hl
    · rw [hkey, if_neg (hunused q y hq)]
      exact h.key q y hq
  case holder =>
    intro q j
    rw [hholder]
    by_cases hq : q = p
    · subst hq
      rw [locks_perm hrefs, locks_cons, if_neg (by simp), Nat.add_zero]
      exact h.holder q j
    · rw [ho q hq]
      exact h.holder q j
  case valid =>
    intro q y hy hl
    rcases mem_refs_cases ho hrefs hy with ⟨-, rfl⟩ | ⟨rfl, hmem⟩ | ⟨-, hmem⟩
    · simp at hl
    · rw [hvalid, if_neg (hunused q y hmem)]
      exact h.valid q y hmem hl
    · rw [hvalid, if_neg (hunused q y hmem)]
      exact h.valid q y hmem hl
  case pins =>
    intro b' hb'
    rw [hpins] at hb'
    obtain ⟨j, hj, hv⟩ := h.pins b' hb'
    have hij : i ≠ j := by
      rintro rfl
      exact hunpinned b' hb' hj
    exact ⟨j, by rw [hkey, if_neg hij, hj], by rw [hvalid, if_neg hij, hv]⟩
  case pins_nodup => exact hpins ▸ h.pins_nodup

theorem relock {f : Bool} (h : C.Sound) (ho : Others C C' p)
    (hold : (C.refs p).Perm (⟨i, b, !f⟩ :: l)) (hnew : (C'.refs p).Perm (⟨i, b, f⟩ :: l))
    (hbefore : C.holder i = if f then none else some p)
    (hholder : ∀ j, C'.holder j = if i = j then (if f then some p else none) else C.holder j)
    (hvalid : ∀ j, C.valid j → C'.valid j) (hread : f → C'.valid i) (hkey : ∀ j, C'.key j = C.key j)
    (hcnt : ∀ j, C'.refcnt j = C.refcnt j) (hpins : C'.pins = C.pins) : C'.Sound where
  key_injective := h.key_injective_of_eq hkey
  refcnt j := by
    have hsum := sum_uses ho j
    rw [uses_perm hnew, uses_perm hold, uses_cons, uses_cons] at hsum
    dsimp only at hsum
    have hcount := h.refcnt j
    rw [hcnt, pinned_congr (hkey j) hpins]
    omega
  key q y hy := by
    rw [hkey]
    rcases mem_refs_cases ho hnew hy with ⟨rfl, rfl⟩ | ⟨rfl, hl⟩ | ⟨-, hq⟩
    · exact h.key q ⟨i, b, !f⟩ (hold.mem_iff.2 List.mem_cons_self)
    · exact h.key q y (hold.mem_iff.2 (List.mem_cons_of_mem _ hl))
    · exact h.key q y hq
  holder q j := by
    have hq := h.holder q j
    rw [hholder]
    by_cases hqp : q = p
    · subst hqp
      rw [locks_perm hold, locks_cons] at hq
      rw [locks_perm hnew, locks_cons]
      by_cases hij : i = j
      · subst hij
        rw [hbefore] at hq
        cases f <;> simp_all
      · simpa [hij] using hq
    · rw [ho q hqp, hq]
      by_cases hij : i = j
      · subst hij
        rw [hbefore]
        cases f <;> simp [Ne.symm hqp]
      · simp [hij]
  valid q y hy hl := by
    rcases mem_refs_cases ho hnew hy with ⟨rfl, rfl⟩ | ⟨rfl, hmem⟩ | ⟨-, hmem⟩
    · exact hread hl
    · exact hvalid _ (h.valid q y (hold.mem_iff.2 (List.mem_cons_of_mem _ hmem)) hl)
    · exact hvalid _ (h.valid q y hmem hl)
  pins b hb := h.pins_of_eq hkey hvalid (hpins ▸ hb)
  pins_nodup := hpins ▸ h.pins_nodup

theorem release (h : C.Sound) (ho : Others C C' p)
    (hrefs : (C.refs p).Perm (⟨i, b, false⟩ :: C'.refs p))
    (hcnt : ∀ j, C'.refcnt j = C.refcnt j - if i = j then 1 else 0) (hkey : ∀ j, C'.key j = C.key j)
    (hvalid : ∀ j, C'.valid j = C.valid j) (hholder : ∀ j, C'.holder j = C.holder j)
    (hpins : C'.pins = C.pins) : C'.Sound := by
  have hmem : ∀ q, ∀ y ∈ C'.refs q, y ∈ C.refs q := by
    intro q y hy
    by_cases hq : q = p
    · subst hq
      exact hrefs.mem_iff.2 (List.mem_cons_of_mem _ hy)
    · exact ho q hq ▸ hy
  constructor
  case key_injective => exact h.key_injective_of_eq hkey
  case refcnt =>
    intro j
    have hsum := sum_uses ho j
    rw [uses_perm hrefs, uses_cons] at hsum
    dsimp only at hsum
    have hcount := h.refcnt j
    rw [hcnt, pinned_congr (hkey j) hpins]
    omega
  case key =>
    intro q y hy
    rw [hkey]
    exact h.key q y (hmem q y hy)
  case holder =>
    intro q j
    rw [hholder, ← h.holder q j]
    by_cases hq : q = p
    · subst hq
      rw [locks_perm hrefs, locks_cons, if_neg (by simp), Nat.add_zero]
    · rw [ho q hq]
  case valid =>
    intro q y hy hl
    rw [hvalid]
    exact h.valid q y (hmem q y hy) hl
  case pins =>
    intro b hb
    exact h.pins_of_eq hkey (fun j hj => by rw [hvalid, hj]) (hpins ▸ hb)
  case pins_nodup => exact hpins ▸ h.pins_nodup

section Pins

variable (hkey : ∀ j, C'.key j = C.key j) (hvalid : ∀ j, C'.valid j = C.valid j)
  (hholder : ∀ j, C'.holder j = C.holder j) (hrefs : ∀ q, (C'.refs q).Perm (C.refs q))

include hkey hvalid hholder hrefs

theorem repin (h : C.Sound) (hcnt : ∀ j, C'.refcnt j + C.pinned j = C.refcnt j + C'.pinned j)
    (hpins : ∀ b ∈ C'.pins, ∃ i, C.key i = some b ∧ C.valid i)
    (hnodup : C'.pins.Nodup) : C'.Sound where
  key_injective := h.key_injective_of_eq hkey
  refcnt j := by
    have hcount := h.refcnt j
    have hchange := hcnt j
    simp only [uses_perm (hrefs _)]
    omega
  key q x hx := by
    rw [hkey]
    exact h.key q x ((hrefs q).mem_iff.1 hx)
  holder q j := by
    rw [locks_perm (hrefs q), hholder]
    exact h.holder q j
  valid q x hx hl := by
    rw [hvalid]
    exact h.valid q x ((hrefs q).mem_iff.1 hx) hl
  pins b hb := by
    obtain ⟨i, hi, hv⟩ := hpins b hb
    exact ⟨i, by rw [hkey, hi], by rw [hvalid, hv]⟩
  pins_nodup := hnodup

theorem pin (h : C.Sound) (hi : C.key i = some b) (hv : C.valid i) (hb : b ∉ C.pins)
    (hcnt : ∀ j, C'.refcnt j = C.refcnt j + if i = j then 1 else 0)
    (hpins : C'.pins = C.pins ++ [b]) : C'.Sound := by
  refine h.repin hkey hvalid hholder hrefs ?_ ?_ ?_
  · intro j
    rw [hcnt]
    by_cases hij : i = j
    · subst hij
      have hold : C.pinned i = 0 := by
        refine if_neg ?_
        rintro ⟨b', hb', hi'⟩
        rw [hi, Option.some.injEq] at hi'
        exact hb (hi' ▸ hb')
      have hnew : C'.pinned i = 1 := if_pos ⟨b, by rw [hpins]; simp, by rw [hkey, hi]⟩
      simp [hold, hnew]
    · have hj : C.key j ≠ some b := fun hj => hij (h.key_injective i j b hi hj)
      have hpin : C'.pinned j = C.pinned j := by
        apply pinned_eq
        simp only [hpins, hkey, List.mem_append, List.mem_singleton]
        constructor
        · rintro ⟨b', hb' | rfl, hj'⟩
          · exact ⟨b', hb', hj'⟩
          · exact absurd hj' hj
        · rintro ⟨b', hb', hj'⟩
          exact ⟨b', .inl hb', hj'⟩
      simp [hij, hpin]
  · intro b' hb'
    rw [hpins, List.mem_append, List.mem_singleton] at hb'
    rcases hb' with hb' | rfl
    · exact h.pins b' hb'
    · exact ⟨i, hi, hv⟩
  · rw [hpins]
    exact List.nodup_append'.2 ⟨h.pins_nodup, List.nodup_singleton b, by simpa using hb⟩

theorem unpin (h : C.Sound) (hi : C.key i = some b) (hpins : C.pins = b :: C'.pins)
    (hcnt : ∀ j, C'.refcnt j = C.refcnt j - if i = j then 1 else 0) : C'.Sound := by
  have hnodup := h.pins_nodup
  rw [hpins, List.nodup_cons] at hnodup
  refine h.repin hkey hvalid hholder hrefs ?_ ?_ hnodup.2
  · intro j
    rw [hcnt]
    by_cases hij : i = j
    · subst hij
      have hold : C.pinned i = 1 := if_pos ⟨b, by rw [hpins]; simp, hi⟩
      have hnew : C'.pinned i = 0 := by
        refine if_neg ?_
        rintro ⟨b', hb', hi'⟩
        rw [hkey, hi, Option.some.injEq] at hi'
        exact hnodup.1 (hi' ▸ hb')
      have hcount := h.refcnt i
      simp only [if_true]
      omega
    · have hj : C.key j ≠ some b := fun hj => hij (h.key_injective i j b hi hj)
      have hpin : C'.pinned j = C.pinned j := by
        apply pinned_eq
        simp only [hpins, hkey, List.mem_cons]
        constructor
        · rintro ⟨b', hb', hj'⟩
          exact ⟨b', .inr hb', hj'⟩
        · rintro ⟨b', rfl | hb', hj'⟩
          · exact absurd hj' hj
          · exact ⟨b', hb', hj'⟩
      simp [hij, hpin]
  · intro b' hb'
    exact h.pins b' (by rw [hpins]; exact List.mem_cons_of_mem _ hb')

end Pins

end Sound

end RefCache

end Xv6.Lib
