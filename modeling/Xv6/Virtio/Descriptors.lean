import Xv6.Virtio.Machine

/-!
# Who has a descriptor

The descriptors that are not free are those of the processes in `virtio_disk_rw`, and no
two of them have one in common.  The links of a chain stay as they are until `free_chain`
has passed them.
-/

namespace Xv6.Virtio

open Lib

variable {B P : Type} [DecidableEq P]

namespace Point

/-- The descriptors that a process has. -/
def held : Point B → List Nat
  | format _ c => c.list
  | ring _ c => c.list
  | bump _ c => c.list
  | check _ c => c.list
  | sleepBuf _ c => c.list
  | clear _ c => c.list
  | freeing _ c i => c.list.dropWhile (· != i)
  | _ => []

def formatted : Point B → Bool
  | ring _ _ => true
  | bump _ _ => true
  | check _ _ => true
  | sleepBuf _ _ => true
  | clear _ _ => true
  | freeing _ _ _ => true
  | _ => false

end Point

def Linked (d : Disk B) : List Nat → Prop
  | [] => True
  | [i] => (d.desc i).flags &&& VRING_DESC_F_NEXT = 0
  | i :: j :: l =>
    (d.desc i).flags &&& VRING_DESC_F_NEXT ≠ 0 ∧ (d.desc i).next = j ∧ Linked d (j :: l)

structure Descs (d : Disk B) (proc : P → Point B) : Prop where
  nodup : ∀ p, (proc p).held.Nodup
  lt : ∀ p, ∀ i ∈ (proc p).held, i < NUM
  disjoint : ∀ p q i, i ∈ (proc p).held → i ∈ (proc q).held → p = q
  free : ∀ i, i < NUM → (d.free i = false ↔ ∃ p, i ∈ (proc p).held)
  linked : ∀ p, (proc p).formatted = true → Linked d (proc p).held
  freeing : ∀ p b c i, proc p = .freeing b c i → i ∈ c.list ∧ c.list.Nodup

variable {l idx : List Nat} {c : Chain}

section

variable {d d' : Disk B} {proc : P → Point B} {p : P} {a : Point B} {i : Nat}

omit [DecidableEq P] in
theorem Linked.congr (h : Linked d l) (hdesc : ∀ i ∈ l, d'.desc i = d.desc i) : Linked d' l := by
  induction l with
  | nil => trivial
  | cons i l ih =>
    cases l with
    | nil =>
      change (d'.desc i).flags &&& _ = 0
      rw [hdesc i (List.mem_singleton_self i)]
      exact h
    | cons j l =>
      obtain ⟨hflags, hnext, hrest⟩ := h
      have hi := hdesc i List.mem_cons_self
      refine ⟨by rwa [hi], by rwa [hi], ih hrest ?_⟩
      intro k hk
      exact hdesc k (List.mem_cons_of_mem _ hk)

namespace Descs

theorem move (h : Descs d proc) (hnodup : a.held.Nodup) (hlt : ∀ i ∈ a.held, i < NUM)
    (hnew : ∀ i ∈ a.held, i ∈ (proc p).held ∨ d.free i = true)
    (hfree : ∀ i, i < NUM → (d'.free i = false ↔ i ∈ a.held ∨ d.free i = false ∧ i ∉ (proc p).held))
    (hdesc : ∀ i, i < NUM → d.free i = false → i ∉ (proc p).held → d'.desc i = d.desc i)
    (hlinked : a.formatted = true → Linked d' a.held)
    (hfreeing : ∀ b c i, a = .freeing b c i → i ∈ c.list ∧ c.list.Nodup) :
    Descs d' (upd proc p a) := by
  have hother : ∀ q, q ≠ p → ∀ i ∈ (proc q).held, i < NUM ∧ d.free i = false ∧ i ∉ (proc p).held := by
    intro q hq i hi
    have hlt := h.lt q i hi
    refine ⟨hlt, (h.free i hlt).2 ⟨q, hi⟩, ?_⟩
    intro hp
    exact hq (h.disjoint q p i hi hp)
  have hapart : ∀ q i, q ≠ p → i ∈ a.held → i ∈ (proc q).held → False := by
    intro q i hq hi hqi
    obtain ⟨-, hbusy, hnot⟩ := hother q hq i hqi
    rcases hnew i hi with hmem | hidle
    · exact hnot hmem
    · rw [hbusy] at hidle
      cases hidle
  constructor
  · intro q
    by_cases hq : q = p
    · rw [hq, upd_self]
      exact hnodup
    · rw [upd_of_ne _ _ _ hq]
      exact h.nodup q
  · intro q
    by_cases hq : q = p
    · rw [hq, upd_self]
      exact hlt
    · rw [upd_of_ne _ _ _ hq]
      exact h.lt q
  · intro q r i hi hi'
    by_cases hq : q = p
    · by_cases hr : r = p
      · rw [hq, hr]
      · rw [hq, upd_self] at hi
        rw [upd_of_ne _ _ _ hr] at hi'
        exact (hapart r i hr hi hi').elim
    · rw [upd_of_ne _ _ _ hq] at hi
      by_cases hr : r = p
      · rw [hr, upd_self] at hi'
        exact (hapart q i hq hi' hi).elim
      · rw [upd_of_ne _ _ _ hr] at hi'
        exact h.disjoint q r i hi hi'
  · intro i hi
    rw [hfree i hi]
    constructor
    · rintro (hmem | ⟨hbusy, hnot⟩)
      · exact ⟨p, by rwa [upd_self]⟩
      · obtain ⟨q, hq⟩ := (h.free i hi).1 hbusy
        have hne : q ≠ p := by
          rintro rfl
          exact hnot hq
        exact ⟨q, by rwa [upd_of_ne _ _ _ hne]⟩
    · rintro ⟨q, hq⟩
      by_cases hqp : q = p
      · rw [hqp, upd_self] at hq
        exact .inl hq
      · rw [upd_of_ne _ _ _ hqp] at hq
        exact .inr (hother q hqp i hq).2
  · intro q hq
    by_cases hqp : q = p
    · rw [hqp, upd_self] at hq ⊢
      exact hlinked hq
    · rw [upd_of_ne _ _ _ hqp] at hq ⊢
      apply (h.linked q hq).congr
      intro i hi
      obtain ⟨hlt, hbusy, hnot⟩ := hother q hqp i hi
      exact hdesc i hlt hbusy hnot
  · intro q b c i hq
    by_cases hqp : q = p
    · rw [hqp, upd_self] at hq
      exact hfreeing b c i hq
    · rw [upd_of_ne _ _ _ hqp] at hq
      exact h.freeing q b c i hq

theorem same (h : Descs d proc) (hheld : a.held = (proc p).held)
    (hformatted : a.formatted = true → (proc p).formatted = true)
    (hfreeing : ∀ b c i, a = .freeing b c i → i ∈ c.list ∧ c.list.Nodup) :
    Descs d (upd proc p a) := by
  apply h.move
  · rw [hheld]
    exact h.nodup p
  · rw [hheld]
    exact h.lt p
  · intro i hi
    rw [hheld] at hi
    exact .inl hi
  · intro i hi
    rw [hheld]
    constructor
    · intro hbusy
      by_cases hp : i ∈ (proc p).held
      · exact .inl hp
      · exact .inr ⟨hbusy, hp⟩
    · rintro (hp | ⟨hbusy, -⟩)
      · exact (h.free i hi).2 ⟨p, hp⟩
      · exact hbusy
  · intro i _ _ _
    rfl
  · intro ha
    rw [hheld]
    exact h.linked p (hformatted ha)
  · exact hfreeing

omit [DecidableEq P] in
theorem congr (h : Descs d proc) (hdesc : d'.desc = d.desc) (hfree : d'.free = d.free) :
    Descs d' proc := by
  constructor
  · exact h.nodup
  · exact h.lt
  · exact h.disjoint
  · rw [hfree]
    exact h.free
  · intro p hp
    apply (h.linked p hp).congr
    intro i _
    rw [hdesc]
  · exact h.freeing

end Descs

/-!
## Allocating
-/

omit [DecidableEq P] in
theorem allocDesc_some (h : d.allocDesc = some (i, d')) :
    i < NUM ∧ d.free i = true ∧ d' = { d with free := upd d.free i false } := by
  unfold Disk.allocDesc at h
  split at h
  next k hk =>
    simp only [Option.some.injEq, Prod.mk.injEq] at h
    obtain ⟨rfl, rfl⟩ := h
    exact ⟨List.mem_range.1 (List.mem_of_find?_eq_some hk), List.find?_some hk, rfl⟩
  next => cases h

theorem freeDesc_ok (hi : i < NUM) (hbusy : d.free i = false) :
    d.freeDesc i = .ok { d with
      desc := upd d.desc i { addr := .null, len := 0, flags := 0, next := 0 }
      free := upd d.free i true } := by
  unfold Disk.freeDesc
  rw [if_neg (by omega), hbusy]
  rfl

/-- Freeing descriptors that are not free marks them, and clears only them. -/
theorem freeDescs_ok (hlt : ∀ i ∈ idx, i < NUM) (hnodup : idx.Nodup)
    (hbusy : ∀ i ∈ idx, d.free i = false) :
    ∃ desc, d.freeDescs idx = .ok { d with
        desc := desc
        free := fun i => d.free i || decide (i ∈ idx) } ∧
      ∀ i, i ∉ idx → desc i = d.desc i := by
  induction idx generalizing d with
  | nil =>
    refine ⟨d.desc, ?_, fun _ _ => rfl⟩
    simp [Disk.freeDescs]
  | cons j idx ih =>
    obtain ⟨hj, hnodup⟩ := List.nodup_cons.1 hnodup
    have hfirst := freeDesc_ok (hlt j List.mem_cons_self) (hbusy j List.mem_cons_self)
    obtain ⟨desc, hrest, hdesc⟩ := ih (d := { d with
        desc := upd d.desc j { addr := .null, len := 0, flags := 0, next := 0 }
        free := upd d.free j true })
      (fun i hi => hlt i (List.mem_cons_of_mem _ hi)) hnodup (by
        intro i hi
        have hne : i ≠ j := by
          rintro rfl
          exact hj hi
        change upd d.free j true i = false
        rw [upd_of_ne _ _ _ hne]
        exact hbusy i (List.mem_cons_of_mem _ hi))
    refine ⟨desc, ?_, ?_⟩
    · unfold Disk.freeDescs
      rw [hfirst]
      change Disk.freeDescs idx _ = _
      rw [hrest]
      congr 2
      funext i
      by_cases hij : i = j
      · simp [hij]
      · simp [upd_of_ne _ _ _ hij, hij]
    · intro i hi
      rw [List.mem_cons, not_or] at hi
      rw [hdesc i hi.2]
      exact upd_of_ne _ _ _ hi.1

def Disk.take (d : Disk B) (idx : List Nat) : Disk B :=
  { d with free := fun i => d.free i && !decide (i ∈ idx) }

structure Takes (d : Disk B) (idx : List Nat) : Prop where
  nodup : idx.Nodup
  lt : ∀ i ∈ idx, i < NUM
  free : ∀ i ∈ idx, d.free i = true

theorem Takes.snoc (h : Takes d idx) (ha : (d.take idx).allocDesc = some (i, d')) :
    Takes d (idx ++ [i]) ∧ d' = d.take (idx ++ [i]) := by
  obtain ⟨hi, hfree, rfl⟩ := allocDesc_some ha
  simp only [Disk.take, Bool.and_eq_true, Bool.not_eq_true', decide_eq_false_iff_not] at hfree
  constructor
  · constructor
    · rw [List.nodup_append]
      refine ⟨h.nodup, List.nodup_singleton i, ?_⟩
      rintro j hj k hk rfl
      rw [List.mem_singleton] at hk
      exact hfree.2 (hk ▸ hj)
    · intro j hj
      rcases List.mem_append.1 hj with hj | hj
      · exact h.lt j hj
      · rw [List.mem_singleton] at hj
        rwa [hj]
    · intro j hj
      rcases List.mem_append.1 hj with hj | hj
      · exact h.free j hj
      · rw [List.mem_singleton] at hj
        rw [hj]
        exact hfree.1
  · unfold Disk.take
    congr 1
    funext j
    by_cases hji : j = i
    · simp [hji]
    · simp [upd_of_ne _ _ _ hji, hji]

/-- The loop takes `n` more descriptors, or gives back the ones it has. -/
theorem allocLoop_cases {n : Nat} (h : Takes d idx) :
    (∃ idx', Disk.allocLoop n idx (d.take idx) = .ok (some idx', d.take idx') ∧ Takes d idx' ∧
      idx'.length = idx.length + n) ∨
    ∃ desc, Disk.allocLoop n idx (d.take idx) = .ok (none, { d with desc := desc }) ∧
      ∀ i, d.free i = false → desc i = d.desc i := by
  induction n generalizing idx with
  | zero => exact .inl ⟨idx, rfl, h, rfl⟩
  | succ n ih =>
    unfold Disk.allocLoop
    cases ha : (d.take idx).allocDesc with
    | some r =>
      obtain ⟨i, d'⟩ := r
      obtain ⟨hnext, rfl⟩ := h.snoc ha
      rcases ih hnext with ⟨idx', heq, ht, hlen⟩ | hnone
      · refine .inl ⟨idx', heq, ht, ?_⟩
        rw [hlen, List.length_append, List.length_singleton]
        omega
      · exact .inr hnone
    | none =>
      obtain ⟨desc, heq, hdesc⟩ := freeDescs_ok (d := d.take idx) h.lt h.nodup (by
        intro i hi
        simp [Disk.take, hi])
      refine .inr ⟨desc, ?_, ?_⟩
      · dsimp only
        rw [heq]
        change Except.ok _ = _
        congr 2
        unfold Disk.take
        congr 1
        funext i
        by_cases hi : i ∈ idx
        · simp [hi, h.free i hi]
        · simp [hi]
      · intro i hi
        apply hdesc
        intro hmem
        rw [h.free i hmem] at hi
        cases hi

/-- `alloc3_desc` takes three free descriptors, or leaves the marks as they are. -/
theorem alloc3Desc_cases (d : Disk B) :
    (∃ c, d.alloc3Desc = .ok (some c, d.take c.list) ∧ Takes d c.list) ∨
    ∃ desc, d.alloc3Desc = .ok (none, { d with desc := desc }) ∧
      ∀ i, d.free i = false → desc i = d.desc i := by
  have hnil : Takes d [] := ⟨List.nodup_nil, by simp, by simp⟩
  have hd : d.take [] = d := by
    simp [Disk.take]
  have hloop := allocLoop_cases (n := 3) hnil
  rw [hd] at hloop
  unfold Disk.alloc3Desc
  rcases hloop with ⟨idx, heq, ht, hlen⟩ | ⟨desc, heq, hdesc⟩
  · match idx, hlen with
    | [a, b, c], _ =>
      refine .inl ⟨⟨a, b, c⟩, ?_, ht⟩
      rw [heq]
      rfl
  · refine .inr ⟨desc, ?_, hdesc⟩
    rw [heq]
    rfl

/-!
## Steps
-/

namespace Descs

/-- `alloc3_desc` has three descriptors for a process that had none. -/
theorem alloc (h : Descs d proc) (hp : (proc p).held = []) (ht : Takes d c.list)
    (r : Call B) : Descs (d.take c.list) (upd proc p (.format r c)) := by
  apply h.move
  · exact ht.nodup
  · exact ht.lt
  · intro i hi
    exact .inr (ht.free i hi)
  · intro i _
    rw [hp]
    simp only [Disk.take, Point.held, Bool.and_eq_false_iff, Bool.not_eq_false', decide_eq_true_eq,
      List.not_mem_nil, not_false_eq_true, and_true]
    exact Or.comm
  · intro i _ _ _
    rfl
  · intro hfalse
    cases hfalse
  · intro b c i hfalse
    cases hfalse

omit [DecidableEq P] in
theorem refill (h : Descs d proc) {desc : Nat → Desc B} (hdesc : ∀ i, d.free i = false → desc i = d.desc i) :
    Descs { d with desc := desc } proc := by
  constructor
  · exact h.nodup
  · exact h.lt
  · exact h.disjoint
  · exact h.free
  · intro p hp
    apply (h.linked p hp).congr
    intro i hi
    exact hdesc i ((h.free i (h.lt p i hi)).2 ⟨p, hi⟩)
  · exact h.freeing

omit [DecidableEq P] in
theorem linked_format (hnodup : c.list.Nodup) (r : Call B) : Linked (d.format r c) c.list := by
  simp only [Chain.list, List.nodup_cons, List.mem_cons, List.not_mem_nil, or_false, not_or]
    at hnodup
  obtain ⟨⟨h01, h02⟩, h12, -⟩ := hnodup
  simp only [Chain.list, Linked, Disk.format]
  rw [upd_of_ne _ _ _ h02, upd_of_ne _ _ _ h01, upd_self, upd_of_ne _ _ _ h12, upd_self, upd_self]
  dsimp only
  refine ⟨by decide, rfl, ?_, rfl, by decide⟩
  split <;> decide

theorem format {r : Call B} (h : Descs d proc) (hp : proc p = .format r c) :
    Descs (d.format r c) (upd proc p (.ring r.b c)) := by
  have hheld : (proc p).held = c.list := by rw [hp]; rfl
  have hnodup : c.list.Nodup := hheld ▸ h.nodup p
  apply h.move
  · exact hnodup
  · intro i hi
    exact h.lt p i (by rwa [hheld])
  · intro i hi
    exact .inl (by rwa [hheld])
  · intro i hi
    rw [hheld]
    constructor
    · intro hbusy
      by_cases hc : i ∈ c.list
      · exact .inl hc
      · exact .inr ⟨hbusy, hc⟩
    · rintro (hc | ⟨hbusy, -⟩)
      · exact (h.free i hi).2 ⟨p, by rw [hheld]; exact hc⟩
      · exact hbusy
  · intro i _ _ hc
    rw [hheld] at hc
    simp only [Chain.list, List.mem_cons, List.not_mem_nil, or_false, not_or] at hc
    simp only [Disk.format]
    rw [upd_of_ne _ _ _ hc.2.2, upd_of_ne _ _ _ hc.2.1, upd_of_ne _ _ _ hc.1]
  · intro _
    exact linked_format hnodup r
  · intro b c i hfalse
    cases hfalse

end Descs

omit [DecidableEq P] in
theorem dropWhile_next {r : List Nat} {i j : Nat} (hnodup : l.Nodup)
    (h : l.dropWhile (· != i) = i :: j :: r) : l.dropWhile (· != j) = j :: r := by
  induction l with
  | nil => cases h
  | cons a l ih =>
    obtain ⟨ha, hnodup⟩ := List.nodup_cons.1 hnodup
    by_cases hai : a = i
    · subst hai
      simp only [List.dropWhile_cons, bne_self_eq_false, Bool.false_eq_true, if_false,
        List.cons.injEq, true_and] at h
      subst h
      have haj : a ≠ j := by
        rintro rfl
        exact ha List.mem_cons_self
      simp [haj]
    · simp only [List.dropWhile_cons, bne_iff_ne, ne_eq, hai, not_false_eq_true, if_true] at h
      have hrest := ih hnodup h
      have haj : a ≠ j := by
        rintro rfl
        apply ha
        apply (List.dropWhile_sublist (· != i)).subset
        rw [h]
        simp
      simp [haj, hrest]

omit [DecidableEq P] in
theorem dropWhile_mem {i : Nat} (h : i ∈ l) : ∃ r, l.dropWhile (· != i) = i :: r := by
  induction l with
  | nil => cases h
  | cons a l ih =>
    by_cases hai : a = i
    · exact ⟨l, by simp [hai]⟩
    · have hmem : i ∈ l := by
        rcases List.mem_cons.1 h with rfl | hmem
        · exact absurd rfl hai
        · exact hmem
      obtain ⟨r, hr⟩ := ih hmem
      exact ⟨r, by simp [hai, hr]⟩

/-- `free_desc` on the next descriptor of the chain does not panic, and `free_chain` goes
on with the rest. -/
theorem Descs.freeNext {b : B} (h : Descs d proc) (hp : proc p = .freeing b c i) :
    ∃ d', d.freeDesc i = .ok d' ∧
      d' = { d with
        desc := upd d.desc i { addr := .null, len := 0, flags := 0, next := 0 }
        free := upd d.free i true } ∧
      i ∈ (proc p).held ∧
      Descs d' (upd proc p
        (if (d.desc i).flags &&& VRING_DESC_F_NEXT = 0 then .release b
          else .freeing b c (d.desc i).next)) := by
  obtain ⟨hmem, hnodup⟩ := h.freeing p b c i hp
  obtain ⟨r, hr⟩ := dropWhile_mem hmem
  have hheld : (proc p).held = i :: r := by rw [hp]; exact hr
  have hlt : i < NUM := h.lt p i (by simp [hheld])
  have hbusy : d.free i = false := (h.free i hlt).2 ⟨p, by simp [hheld]⟩
  have hlinked : Linked d (i :: r) := hheld ▸ h.linked p (by rw [hp]; rfl)
  have hrest : r.Nodup ∧ i ∉ r := by
    have := h.nodup p
    rw [hheld, List.nodup_cons] at this
    exact ⟨this.2, this.1⟩
  -- the process keeps the rest of the chain
  obtain ⟨a, ha, hrheld, hrlinked, hrfreeing⟩ : ∃ a, (if (d.desc i).flags &&& VRING_DESC_F_NEXT = 0
      then Point.release b else .freeing b c (d.desc i).next) = a ∧ a.held = r ∧ Linked d r ∧
      ∀ b c i, a = .freeing b c i → i ∈ c.list ∧ c.list.Nodup := by
    cases r with
    | nil =>
      have hend : (d.desc i).flags &&& VRING_DESC_F_NEXT = 0 := hlinked
      rw [if_pos hend]
      exact ⟨_, rfl, rfl, trivial, fun _ _ _ hfalse => by cases hfalse⟩
    | cons j r =>
      obtain ⟨hflags, hnext, htail⟩ := hlinked
      have hdrop := dropWhile_next hnodup hr
      rw [if_neg hflags, hnext]
      refine ⟨_, rfl, hdrop, htail, ?_⟩
      intro b' c' k hk
      cases hk
      refine ⟨?_, hnodup⟩
      apply (List.dropWhile_sublist (· != j)).subset
      rw [hdrop]
      exact List.mem_cons_self
  refine ⟨_, freeDesc_ok hlt hbusy, rfl, by simp [hheld], ?_⟩
  rw [ha]
  apply h.move
  · rw [hrheld]
    exact hrest.1
  · intro k hk
    rw [hrheld] at hk
    exact h.lt p k (by simp [hheld, hk])
  · intro k hk
    rw [hrheld] at hk
    exact .inl (by simp [hheld, hk])
  · intro k hk
    rw [hrheld, hheld]
    change upd d.free i true k = false ↔ _
    by_cases hki : k = i
    · subst hki
      simp [hrest.2]
    · rw [upd_of_ne _ _ _ hki, List.mem_cons, not_or]
      constructor
      · intro hfree
        by_cases hkr : k ∈ r
        · exact .inl hkr
        · exact .inr ⟨hfree, hki, hkr⟩
      · rintro (hkr | ⟨hfree, -⟩)
        · exact (h.free k hk).2 ⟨p, by simp [hheld, hkr]⟩
        · exact hfree
  · intro k _ _ hk
    rw [hheld, List.mem_cons, not_or] at hk
    exact upd_of_ne _ _ _ hk.1
  · intro _
    rw [hrheld]
    apply hrlinked.congr
    intro k hk
    have hki : k ≠ i := by
      rintro rfl
      exact hrest.2 hk
    exact upd_of_ne _ _ _ hki
  · exact hrfreeing

end

end Xv6.Virtio
