import Mathlib

/-!
# Radix trees

A radix tree of a fixed depth: the nodes above level 0 have up to `m` kids, the nodes at level
0 have slots, and a key is a digit for every level.  What a node has is given by functions, so
that a tree can be one in a memory that changes.
-/

namespace Xv6.Lib

structure Radix (α β : Type) where
  kid : α → Nat → Option α
  slot : α → Nat → Option β

namespace Radix

variable {α β : Type}

def nodes (R : Radix α β) (m : Nat) : Nat → α → List α
  | 0, p => [p]
  | n + 1, p => p :: (List.range m).flatMap fun i =>
    match R.kid p i with
    | none => []
    | some c => nodes R m n c

def sub (R : Radix α β) (m n : Nat) (p : α) (i : Nat) : List α :=
  match R.kid p i with
  | none => []
  | some c => R.nodes m n c

def others (R : Radix α β) (m n : Nat) (p : α) (i : Nat) : List α :=
  ((List.range m).erase i).flatMap (R.sub m n p)

def find (R : Radix α β) (d : Nat → Nat) : Nat → α → Option β
  | 0, p => R.slot p (d 0)
  | n + 1, p =>
    match R.kid p (d (n + 1)) with
    | none => none
    | some c => find R d n c

def last (R : Radix α β) (d : Nat → Nat) : Nat → α → Option α
  | 0, p => some p
  | n + 1, p =>
    match R.kid p (d (n + 1)) with
    | none => none
    | some c => last R d n c

def All (R : Radix α β) (m : Nat) (P : Nat → α → Prop) : Nat → α → Prop
  | 0, p => P 0 p
  | n + 1, p => P (n + 1) p ∧ ∀ i, i < m → ∀ c, R.kid p i = some c → All R m P n c

def Same (R R' : Radix α β) (q : α) : Prop := R'.kid q = R.kid q ∧ R'.slot q = R.slot q

section Basic

variable {R R' : Radix α β} {m n i : Nat} {p c q : α} {d : Nat → Nat}

theorem self_mem_nodes : p ∈ R.nodes m n p := by
  cases n with
  | zero => exact List.mem_singleton_self p
  | succ n => exact List.mem_cons_self

theorem sub_of_kid (h : R.kid p i = some c) : R.sub m n p i = R.nodes m n c := by
  rw [sub, h]

theorem sub_of_none (h : R.kid p i = none) : R.sub m n p i = [] := by
  rw [sub, h]

theorem nodes_succ : R.nodes m (n + 1) p = p :: (List.range m).flatMap (R.sub m n p) := rfl

theorem mem_nodes_zero : q ∈ R.nodes m 0 p ↔ q = p := List.mem_singleton

theorem mem_nodes_succ : q ∈ R.nodes m (n + 1) p ↔
    q = p ∨ ∃ i, i < m ∧ ∃ c, R.kid p i = some c ∧ q ∈ R.nodes m n c := by
  rw [nodes_succ, List.mem_cons, List.mem_flatMap]
  apply or_congr_right
  constructor
  · rintro ⟨i, hi, hq⟩
    unfold sub at hq
    cases hk : R.kid p i with
    | none =>
      rw [hk] at hq
      cases hq
    | some c =>
      rw [hk] at hq
      exact ⟨i, List.mem_range.1 hi, c, hk, hq⟩
  · rintro ⟨i, hi, c, hk, hq⟩
    refine ⟨i, List.mem_range.2 hi, ?_⟩
    rw [sub_of_kid hk]
    exact hq

theorem nodes_perm (hi : i < m) :
    (R.nodes m (n + 1) p).Perm (p :: (R.sub m n p i ++ R.others m n p i)) := by
  rw [nodes_succ]
  apply List.Perm.cons
  have hperm := List.perm_cons_erase (List.mem_range.2 hi)
  exact (hperm.flatMap_right (R.sub m n p)).trans (by rw [List.flatMap_cons]; rfl)

theorem mem_nodes_of_sub (hi : i < m) (hq : q ∈ R.sub m n p i) : q ∈ R.nodes m (n + 1) p :=
  (nodes_perm hi).mem_iff.2 (List.mem_cons_of_mem p (List.mem_append_left _ hq))

theorem mem_nodes_of_kid (hi : i < m) (hk : R.kid p i = some c) (hq : q ∈ R.nodes m n c) :
    q ∈ R.nodes m (n + 1) p := by
  apply mem_nodes_of_sub hi
  rw [sub_of_kid hk]
  exact hq

theorem mem_others {j : Nat} (hj : j < m) (hji : j ≠ i) (hk : R.kid p j = some c)
    (hq : q ∈ R.nodes m n c) : q ∈ R.others m n p i := by
  rw [others, List.mem_flatMap]
  refine ⟨j, (List.mem_erase_of_ne hji).2 (List.mem_range.2 hj), ?_⟩
  rw [sub_of_kid hk]
  exact hq

theorem last_mem_nodes (hd : ∀ k, d k < m) (h : R.last d n p = some q) : q ∈ R.nodes m n p := by
  induction n generalizing p with
  | zero =>
    rw [last, Option.some.injEq] at h
    exact h ▸ List.mem_singleton_self p
  | succ n ih =>
    unfold last at h
    split at h
    next => cases h
    next c hk => exact mem_nodes_of_kid (hd _) hk (ih h)

theorem find_eq_last : R.find d n p = (R.last d n p).bind fun q => R.slot q (d 0) := by
  induction n generalizing p with
  | zero => rfl
  | succ n ih =>
    unfold find last
    cases R.kid p (d (n + 1)) with
    | none => rfl
    | some c => exact ih

theorem nodes_congr (h : ∀ q ∈ R.nodes m n p, Same R R' q) : R'.nodes m n p = R.nodes m n p := by
  induction n generalizing p with
  | zero => rfl
  | succ n ih =>
    have hp := (h p self_mem_nodes).1
    rw [nodes_succ, nodes_succ]
    congr 1
    apply List.flatMap_congr
    intro i hi
    unfold sub
    rw [hp]
    cases hk : R.kid p i with
    | none => rfl
    | some c =>
      apply ih
      intro q hq
      exact h q (mem_nodes_of_kid (List.mem_range.1 hi) hk hq)

theorem find_congr (hd : ∀ k, d k < m) (h : ∀ q ∈ R.nodes m n p, Same R R' q) :
    R'.find d n p = R.find d n p := by
  induction n generalizing p with
  | zero => rw [find, find, (h p self_mem_nodes).2]
  | succ n ih =>
    unfold find
    rw [(h p self_mem_nodes).1]
    cases hk : R.kid p (d (n + 1)) with
    | none => rfl
    | some c => exact ih fun q hq => h q (mem_nodes_of_kid (hd _) hk hq)

theorem last_congr (hd : ∀ k, d k < m) (h : ∀ q ∈ R.nodes m n p, Same R R' q) :
    R'.last d n p = R.last d n p := by
  induction n generalizing p with
  | zero => rfl
  | succ n ih =>
    unfold last
    rw [(h p self_mem_nodes).1]
    cases hk : R.kid p (d (n + 1)) with
    | none => rfl
    | some c => exact ih fun q hq => h q (mem_nodes_of_kid (hd _) hk hq)

theorem All.last {P : Nat → α → Prop} (ha : R.All m P n p) (hd : ∀ k, d k < m)
    (h : R.last d n p = some q) : P 0 q := by
  induction n generalizing p with
  | zero =>
    obtain rfl := Option.some.inj h
    exact ha
  | succ n ih =>
    unfold Radix.last at h
    cases hk : R.kid p (d (n + 1)) with
    | none =>
      rw [hk] at h
      cases h
    | some c =>
      rw [hk] at h
      exact ih (ha.2 _ (hd _) c hk) h

theorem All.congr {P P' : Nat → α → Prop} (ha : R.All m P n p)
    (h : ∀ q ∈ R.nodes m n p, Same R R' q ∧ ∀ k, P k q → P' k q) : R'.All m P' n p := by
  induction n generalizing p with
  | zero => exact (h p self_mem_nodes).2 0 ha
  | succ n ih =>
    obtain ⟨hp, hkids⟩ := ha
    refine ⟨(h p self_mem_nodes).2 _ hp, fun i hi c hk => ?_⟩
    rw [(h p self_mem_nodes).1.1] at hk
    apply ih (hkids i hi c hk)
    intro q hq
    exact h q (mem_nodes_of_kid hi hk hq)

end Basic

/-!
## A slot changes
-/

section Slot

variable {R R' : Radix α β} {m n : Nat} {p q : α} {d d' : Nat → Nat} {v : Option β}

def SameKey (n : Nat) (d d' : Nat → Nat) : Prop := ∀ k, k ≤ n → d' k = d k

instance : Decidable (SameKey n d d') :=
  decidable_of_iff (∀ k, k < n + 1 → d' k = d k) (by simp only [SameKey, Nat.lt_succ_iff])

structure SetSlot (R R' : Radix α β) (m : Nat) (d : Nat → Nat) (v : Option β) (n : Nat) (p q : α) :
    Prop where
  nodup : (R.nodes m n p).Nodup
  last : R.last d n p = some q
  same : ∀ x ∈ R.nodes m n p, x ≠ q → Same R R' x
  slot : ∀ i, R'.slot q i = if i = d 0 then v else R.slot q i

theorem SetSlot.kid (h : SetSlot R R' m d v (n + 1) p q) (hd : ∀ k, d k < m) :
    ∃ c, R.kid p (d (n + 1)) = some c ∧ SetSlot R R' m d v n c q ∧ p ≠ q ∧
      ∀ j, j < m → j ≠ d (n + 1) → q ∉ R.sub m n p j := by
  have hlast := h.last
  unfold Radix.last at hlast
  split at hlast
  next => cases hlast
  next c hk =>
    have hnodup := (nodes_perm (hd (n + 1))).nodup_iff.1 h.nodup
    rw [sub_of_kid hk, List.nodup_cons, List.nodup_append] at hnodup
    obtain ⟨hp, hc, -, hdis⟩ := hnodup
    have hq : q ∈ R.nodes m n c := last_mem_nodes hd hlast
    refine ⟨c, hk, ⟨hc, hlast, fun x hx hne => ?_, h.slot⟩, fun hpq => hp ?_, fun j hj hne hx => ?_⟩
    · exact h.same x (mem_nodes_of_kid (hd _) hk hx) hne
    · rw [hpq]
      exact List.mem_append_left _ hq
    · refine hdis q hq q ?_ rfl
      rw [others, List.mem_flatMap]
      exact ⟨j, (List.mem_erase_of_ne hne).2 (List.mem_range.2 hj), hx⟩

theorem SetSlot.same_sub (h : SetSlot R R' m d v (n + 1) p q) {j : Nat} (hj : j < m)
    (hq : q ∉ R.sub m n p j) : ∀ x ∈ R.sub m n p j, Same R R' x := by
  intro x hx
  apply h.same x (mem_nodes_of_sub hj hx)
  rintro rfl
  exact hq hx

theorem SetSlot.nodes_eq (h : SetSlot R R' m d v n p q) (hd : ∀ k, d k < m) :
    R'.nodes m n p = R.nodes m n p := by
  induction n generalizing p with
  | zero => rfl
  | succ n ih =>
    obtain ⟨c, hk, hc, hpq, hrest⟩ := h.kid hd
    have hp := (h.same p self_mem_nodes hpq).1
    rw [nodes_succ, nodes_succ]
    congr 1
    apply List.flatMap_congr
    intro j hj
    by_cases hjd : j = d (n + 1)
    · subst hjd
      rw [sub_of_kid hk, sub_of_kid (by rw [hp, hk]), ih hc]
    · have hsame := h.same_sub (List.mem_range.1 hj) (hrest j (List.mem_range.1 hj) hjd)
      unfold sub at hsame ⊢
      rw [hp]
      cases hkj : R.kid p j with
      | none => rfl
      | some x =>
        rw [hkj] at hsame
        exact nodes_congr hsame

theorem SetSlot.find_eq (h : SetSlot R R' m d v n p q) (hd : ∀ k, d k < m) (hd' : ∀ k, d' k < m) :
    R'.find d' n p = if SameKey n d d' then v else R.find d' n p := by
  induction n generalizing p with
  | zero =>
    have hlast := h.last
    rw [Radix.last, Option.some.injEq] at hlast
    rw [find, find, hlast, h.slot]
    have hiff : SameKey 0 d d' ↔ d' 0 = d 0 := by
      unfold SameKey
      constructor
      · intro hall
        exact hall 0 (Nat.le_refl 0)
      · intro h0 k hk
        rw [Nat.le_zero.1 hk]
        exact h0
    simp only [hiff]
  | succ n ih =>
    obtain ⟨c, hk, hc, hpq, hrest⟩ := h.kid hd
    unfold find
    rw [(h.same p self_mem_nodes hpq).1]
    by_cases hdn : d' (n + 1) = d (n + 1)
    · have hiff : SameKey (n + 1) d d' ↔ SameKey n d d' := by
        unfold SameKey
        constructor
        · intro hall k hle
          exact hall k (Nat.le_succ_of_le hle)
        · intro hall k hle
          rcases Nat.le_succ_iff.1 hle with hle | heq
          · exact hall k hle
          · rw [heq]
            exact hdn
      simp only [hdn, hk, hiff]
      exact ih hc
    · have hnot : ¬SameKey (n + 1) d d' := fun hall => hdn (hall (n + 1) (Nat.le_refl _))
      rw [if_neg hnot]
      have hsame := h.same_sub (hd' _) (hrest (d' (n + 1)) (hd' _) hdn)
      unfold sub at hsame
      cases hkj : R.kid p (d' (n + 1)) with
      | none => rfl
      | some x =>
        rw [hkj] at hsame
        exact find_congr hd' hsame

theorem SetSlot.all {P P' : Nat → α → Prop} (h : SetSlot R R' m d v n p q) (hd : ∀ k, d k < m)
    (ha : R.All m P n p) (hq : P 0 q → P' 0 q)
    (hP : ∀ x ∈ R.nodes m n p, x ≠ q → ∀ k, P k x → P' k x) : R'.All m P' n p := by
  induction n generalizing p with
  | zero =>
    have hlast := h.last
    rw [Radix.last, Option.some.injEq] at hlast
    subst hlast
    exact hq ha
  | succ n ih =>
    obtain ⟨c, hk, hc, hpq, hrest⟩ := h.kid hd
    obtain ⟨hp, hkids⟩ := ha
    refine ⟨hP p self_mem_nodes hpq _ hp, fun j hj x hkx => ?_⟩
    rw [(h.same p self_mem_nodes hpq).1] at hkx
    by_cases hjd : j = d (n + 1)
    · rw [hjd, hk, Option.some.injEq] at hkx
      subst hkx
      apply ih hc (hkids _ (hd _) c hk)
      intro y hy hne
      exact hP y (mem_nodes_of_kid (hd _) hk hy) hne
    · have hq' := hrest j hj hjd
      have hsame := h.same_sub hj hq'
      rw [sub_of_kid hkx] at hq' hsame
      apply (hkids j hj x hkx).congr
      intro y hy
      refine ⟨hsame y hy, hP y (mem_nodes_of_kid hj hkx hy) ?_⟩
      rintro rfl
      exact hq' hy

end Slot

/-!
## The tree grows

New nodes come from a list of free ones.
-/

section Grow

variable {R R' R'' : Radix α β} {m n i : Nat} {p c : α} {d : Nat → Nat}
  {free free' free'' : List α}

structure Grown (R R' : Radix α β) (m n : Nat) (p : α) (free free' : List α) : Prop where
  perm : (R'.nodes m n p ++ free').Perm (R.nodes m n p ++ free)
  frame : ∀ q, q ∉ R.nodes m n p ++ free → Same R R' q
  find : ∀ d, (∀ k, d k < m) → R'.find d n p = R.find d n p

theorem Grown.refl : Grown R R m n p free free := ⟨.refl _, fun _ _ => ⟨rfl, rfl⟩, fun _ _ => rfl⟩

theorem Grown.trans (h : Grown R R' m n p free free') (h' : Grown R' R'' m n p free' free'') :
    Grown R R'' m n p free free'' where
  perm := h'.perm.trans h.perm
  frame := by
    intro q hq
    have hq' : q ∉ R'.nodes m n p ++ free' := fun hmem => hq (h.perm.mem_iff.1 hmem)
    obtain ⟨hkid, hslot⟩ := h.frame q hq
    obtain ⟨hkid', hslot'⟩ := h'.frame q hq'
    exact ⟨hkid'.trans hkid, hslot'.trans hslot⟩
  find := fun d hd => (h'.find d hd).trans (h.find d hd)

theorem Grown.nodup (h : Grown R R' m n p free free') (hn : (R.nodes m n p ++ free).Nodup) :
    (R'.nodes m n p ++ free').Nodup := h.perm.nodup_iff.2 hn

theorem others_congr (hkid : ∀ j, j < m → j ≠ i → R'.kid p j = R.kid p j)
    (hsame : ∀ q ∈ R.others m n p i, Same R R' q) : R'.others m n p i = R.others m n p i := by
  unfold others
  apply List.flatMap_congr
  intro j hj
  have hjm : j < m := List.mem_range.1 (List.mem_of_mem_erase hj)
  have hji : j ≠ i := by
    rintro rfl
    exact List.Nodup.not_mem_erase List.nodup_range hj
  have hsub : ∀ q ∈ R.sub m n p j, Same R R' q := by
    intro q hq
    apply hsame q
    rw [others, List.mem_flatMap]
    exact ⟨j, hj, hq⟩
  unfold sub at hsub ⊢
  rw [hkid j hjm hji]
  cases hk : R.kid p j with
  | none => rfl
  | some x =>
    rw [hk] at hsub
    exact nodes_congr hsub

/-- The nodes under one kid, apart from the root and the other nodes. -/
theorem nodup_split (hi : i < m) (h : (R.nodes m (n + 1) p ++ free).Nodup) :
    p ∉ R.sub m n p i ++ free ∧ p ∉ R.others m n p i ∧ (R.sub m n p i ++ free).Nodup ∧
      ∀ q ∈ R.others m n p i, q ∉ R.sub m n p i ++ free := by
  have hperm := (nodes_perm (R := R) (n := n) (p := p) hi).append_right free
  have hnodup := hperm.nodup_iff.1 h
  have hreorder : (p :: (R.sub m n p i ++ R.others m n p i) ++ free).Perm
      (p :: ((R.sub m n p i ++ free) ++ R.others m n p i)) := by
    rw [List.cons_append, List.append_assoc, List.append_assoc]
    exact ((List.perm_append_comm).append_left _).cons p
  have hall := hreorder.nodup_iff.1 hnodup
  rw [List.nodup_cons, List.mem_append, not_or, List.nodup_append] at hall
  obtain ⟨⟨hp, hp'⟩, hsub, -, hdis⟩ := hall
  exact ⟨hp, hp', hsub, fun q hq hq' => hdis q hq' q hq rfl⟩

theorem Grown.lift (h : Grown R R' m n c free free') (hi : i < m) (hk : R.kid p i = some c)
    (hn : (R.nodes m (n + 1) p ++ free).Nodup) : Grown R R' m (n + 1) p free free' := by
  obtain ⟨hp, -, -, hothers⟩ := nodup_split hi hn
  rw [sub_of_kid hk] at hp hothers
  have hpsame := (h.frame p hp).1
  have hrest : R'.others m n p i = R.others m n p i := by
    apply others_congr
    · intro j _ _
      rw [hpsame]
    · exact fun q hq => h.frame q (hothers q hq)
  constructor
  · have hnew := (nodes_perm (R := R') (n := n) (p := p) hi).append_right free'
    have hold := (nodes_perm (R := R) (n := n) (p := p) hi).append_right free
    rw [sub_of_kid (by rw [hpsame, hk]), hrest] at hnew
    rw [sub_of_kid hk] at hold
    have hmove : ∀ a b f : List α, (p :: (a ++ b) ++ f).Perm (p :: b ++ (a ++ f)) := by
      intro a b f
      rw [List.cons_append, List.cons_append, ← List.append_assoc b]
      exact ((List.perm_append_comm).append_right f).cons p
    calc List.Perm (R'.nodes m (n + 1) p ++ free') (p :: R.others m n p i ++ (R'.nodes m n c ++ free')) :=
          hnew.trans (hmove _ _ _)
      List.Perm _ (p :: R.others m n p i ++ (R.nodes m n c ++ free)) := h.perm.append_left _
      List.Perm _ (R.nodes m (n + 1) p ++ free) := (hold.trans (hmove _ _ _)).symm
  · intro q hq
    apply h.frame q
    intro hmem
    apply hq
    rcases List.mem_append.1 hmem with hmem | hmem
    · exact List.mem_append_left _ (mem_nodes_of_kid hi hk hmem)
    · exact List.mem_append_right _ hmem
  · intro d hd
    unfold Radix.find
    rw [hpsame]
    by_cases hdi : d (n + 1) = i
    · simp only [hdi, hk]
      exact h.find d hd
    · cases hkj : R.kid p (d (n + 1)) with
      | none => rfl
      | some x =>
        apply find_congr hd
        intro q hq
        exact h.frame q (hothers q (mem_others (hd _) hdi hkj hq))

theorem Grown.all_lift {P P' : Nat → α → Prop} (h : Grown R R' m n c free free') (hi : i < m)
    (hk : R.kid p i = some c) (hn : (R.nodes m (n + 1) p ++ free).Nodup)
    (ha : R.All m P (n + 1) p) (hc : R'.All m P' n c)
    (hP : ∀ q, q ∉ R.nodes m n c ++ free → ∀ k, P k q → P' k q) : R'.All m P' (n + 1) p := by
  obtain ⟨hp, -, -, hothers⟩ := nodup_split hi hn
  rw [sub_of_kid hk] at hp hothers
  obtain ⟨hroot, hkids⟩ := ha
  refine ⟨hP p hp _ hroot, fun j hj x hkx => ?_⟩
  rw [(h.frame p hp).1] at hkx
  by_cases hji : j = i
  · rw [hji, hk, Option.some.injEq] at hkx
    exact hkx ▸ hc
  · apply (hkids j hj x hkx).congr
    intro q hq
    have hq' := hothers q (mem_others hj hji hkx hq)
    exact ⟨h.frame q hq', hP q hq'⟩

theorem nodes_empty (h : ∀ j, R.kid c j = none) : R.nodes m n c = [c] := by
  cases n with
  | zero => rfl
  | succ n =>
    have hsub : (List.range m).flatMap (R.sub m n c) = [] := by
      rw [List.flatMap_eq_nil_iff]
      intro j _
      exact sub_of_none (h j)
    rw [nodes_succ, hsub]

theorem find_empty (h : ∀ j, R.kid c j = none ∧ R.slot c j = none) : R.find d n c = none := by
  cases n with
  | zero => exact (h _).2
  | succ n =>
    unfold find
    rw [(h _).1]

structure Install (R R' : Radix α β) (i : Nat) (p c : α) : Prop where
  old : R.kid p i = none
  new : R'.kid p i = some c
  kids : ∀ j, j ≠ i → R'.kid p j = R.kid p j
  empty : ∀ j, R'.kid c j = none ∧ R'.slot c j = none
  same : ∀ q, q ≠ p → q ≠ c → Same R R' q

theorem Install.grown (h : Install R R' i p c) (hi : i < m)
    (hn : (R.nodes m (n + 1) p ++ c :: free).Nodup) :
    Grown R R' m (n + 1) p (c :: free) free := by
  obtain ⟨hp, hp', -, hothers⟩ := nodup_split hi hn
  rw [sub_of_none h.old, List.nil_append] at hp hothers
  have hsame : ∀ q ∈ R.others m n p i, Same R R' q := by
    intro q hq
    apply h.same q
    · rintro rfl
      exact hp' hq
    · rintro rfl
      exact hothers q hq List.mem_cons_self
  have hrest : R'.others m n p i = R.others m n p i := others_congr (fun j _ hj => h.kids j hj) hsame
  constructor
  · have hnew := (nodes_perm (R := R') (n := n) (p := p) hi).append_right free
    have hold := (nodes_perm (R := R) (n := n) (p := p) hi).append_right (c :: free)
    rw [sub_of_kid h.new, nodes_empty fun j => (h.empty j).1, hrest] at hnew
    rw [sub_of_none h.old, List.nil_append] at hold
    have hmove : (p :: ([c] ++ R.others m n p i) ++ free).Perm (p :: R.others m n p i ++ c :: free) := by
      rw [List.singleton_append, List.cons_append, List.cons_append, List.cons_append]
      exact (List.perm_middle.symm).cons p
    exact (hnew.trans hmove).trans hold.symm
  · intro q hq
    rw [List.mem_append, List.mem_cons, not_or, not_or] at hq
    apply h.same q
    · rintro rfl
      exact hq.1 self_mem_nodes
    · exact hq.2.1
  · intro d hd
    unfold Radix.find
    by_cases hdi : d (n + 1) = i
    · simp only [hdi, h.new, h.old]
      exact find_empty h.empty
    · rw [h.kids _ hdi]
      cases hkj : R.kid p (d (n + 1)) with
      | none => rfl
      | some x =>
        apply find_congr hd
        intro q hq
        exact hsame q (mem_others (hd _) hdi hkj hq)

theorem Install.all {P P' : Nat → α → Prop} (h : Install R R' i p c)
    (hn : (R.nodes m (n + 1) p ++ c :: free).Nodup) (ha : R.All m P (n + 1) p)
    (hp : P (n + 1) p → P' (n + 1) p) (hc : ∀ k, P' k c)
    (hP : ∀ q, q ≠ p → q ≠ c → ∀ k, P k q → P' k q) : R'.All m P' (n + 1) p := by
  obtain ⟨hroot, hkids⟩ := ha
  refine ⟨hp hroot, fun j hj x hkx => ?_⟩
  by_cases hji : j = i
  · rw [hji, h.new, Option.some.injEq] at hkx
    subst hkx
    cases n with
    | zero => exact hc 0
    | succ n =>
      refine ⟨hc _, fun k _ y hky => ?_⟩
      rw [(h.empty k).1] at hky
      cases hky
  · rw [h.kids j hji] at hkx
    obtain ⟨hnot, -, -, -⟩ := nodup_split hj hn
    rw [sub_of_kid hkx] at hnot
    have hdis := (List.nodup_append.1 hn).2.2
    apply (hkids j hj x hkx).congr
    intro q hq
    have hqp : q ≠ p := by
      rintro rfl
      exact hnot (List.mem_append_left _ hq)
    have hqc : q ≠ c := hdis q (mem_nodes_of_kid hj hkx hq) c List.mem_cons_self
    exact ⟨h.same q hqp hqc, hP q hqp hqc⟩

end Grow

attribute [irreducible] nodes

end Radix

end Xv6.Lib
