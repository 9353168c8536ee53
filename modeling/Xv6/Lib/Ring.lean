import Mathlib

/-!
# Circular doubly linked lists

The nodes of a circular list are its elements and one sentinel, `none`.
`Ring L l` says that the links `L`, followed from the sentinel, visit exactly the
elements `l` in that order and come back to it, and that the backward links are
the reverse of the forward ones.
-/

namespace Xv6.Lib

universe u

structure Links (ι : Type u) where
  next : Option ι → Option ι
  prev : Option ι → Option ι

variable {ι : Type u}

/-- The elements met by following `f` from a node, up to the sentinel. -/
def scan (f : Option ι → Option ι) : Nat → Option ι → List ι
  | 0, _ => []
  | _ + 1, none => []
  | n + 1, some i => i :: scan f n (f (some i))

namespace Links

def empty : Links ι := ⟨fun _ => none, fun _ => none⟩

def Linked (L : Links ι) : Option ι → List ι → Option ι → Prop
  | a, [], b => L.next a = b ∧ L.prev b = a
  | a, i :: l, b => L.next a = some i ∧ L.prev (some i) = a ∧ Linked L (some i) l b

structure Ring (L : Links ι) (l : List ι) : Prop where
  nodup : l.Nodup
  linked : L.Linked none l none

variable [DecidableEq ι]

def unlink (L : Links ι) (i : ι) : Links ι where
  next := Function.update L.next (L.prev (some i)) (L.next (some i))
  prev := Function.update L.prev (L.next (some i)) (L.prev (some i))

def pushFront (L : Links ι) (i : ι) : Links ι where
  next := Function.update (Function.update L.next (some i) (L.next none)) none (some i)
  prev := Function.update (Function.update L.prev (some i) none) (L.next none) (some i)

variable {L L' : Links ι} {l l₁ l₂ : List ι} {a b : Option ι} {i : ι} {n : Nat}

omit [DecidableEq ι] in
theorem Linked.congr (h : L.Linked a l b) (hnext : ∀ x, x = a ∨ (∃ j ∈ l, x = some j) → L'.next x = L.next x)
    (hprev : ∀ x, x = b ∨ (∃ j ∈ l, x = some j) → L'.prev x = L.prev x) : L'.Linked a l b := by
  induction l generalizing a with
  | nil =>
    obtain ⟨hn, hp⟩ := h
    refine ⟨?_, ?_⟩
    · rw [hnext a (.inl rfl), hn]
    · rw [hprev b (.inl rfl), hp]
  | cons j l ih =>
    obtain ⟨hn, hp, hrest⟩ := h
    refine ⟨?_, ?_, ?_⟩
    · rw [hnext a (.inl rfl), hn]
    · rw [hprev (some j) (.inr ⟨j, by simp, rfl⟩), hp]
    · apply ih hrest
      · rintro x (rfl | ⟨k, hk, rfl⟩)
        · exact hnext _ (.inr ⟨j, by simp, rfl⟩)
        · exact hnext _ (.inr ⟨k, by simp [hk], rfl⟩)
      · rintro x (rfl | ⟨k, hk, rfl⟩)
        · exact hprev _ (.inl rfl)
        · exact hprev _ (.inr ⟨k, by simp [hk], rfl⟩)

omit [DecidableEq ι] in
theorem linked_append :
    L.Linked a (l₁ ++ i :: l₂) b ↔ L.Linked a l₁ (some i) ∧ L.Linked (some i) l₂ b := by
  induction l₁ generalizing a with
  | nil => simp only [List.nil_append, Linked, and_assoc]
  | cons j l₁ ih => simp only [List.cons_append, Linked, ih, and_assoc]

omit [DecidableEq ι] in
theorem Linked.prev_end (h : L.Linked a l b) :
    (l = [] ∧ L.prev b = a) ∨ ∃ j ∈ l, L.prev b = some j := by
  induction l generalizing a with
  | nil => exact .inl ⟨rfl, h.2⟩
  | cons j l ih =>
    right
    rcases ih h.2.2 with ⟨-, hb⟩ | ⟨k, hk, hb⟩
    · exact ⟨j, by simp, hb⟩
    · exact ⟨k, by simp [hk], hb⟩

omit [DecidableEq ι] in
theorem Linked.next_start (h : L.Linked a l b) :
    (l = [] ∧ L.next a = b) ∨ ∃ j ∈ l, L.next a = some j := by
  cases l with
  | nil => exact .inl ⟨rfl, h.1⟩
  | cons j l => exact .inr ⟨j, by simp, h.1⟩

omit [DecidableEq ι] in
theorem scan_next (h : L.Linked a l none) (hn : l.length ≤ n) : scan L.next n (L.next a) = l := by
  induction l generalizing a n with
  | nil =>
    rw [h.1]
    cases n <;> rfl
  | cons j l ih =>
    obtain ⟨k, rfl⟩ : ∃ k, n = k + 1 := ⟨n - 1, by simp only [List.length_cons] at hn; omega⟩
    rw [h.1, scan, ih h.2.2 (by simpa using hn)]

omit [DecidableEq ι] in
theorem scan_prev (h : L.Linked none l b) (hn : l.length ≤ n) :
    scan L.prev n (L.prev b) = l.reverse := by
  induction l using List.reverseRecOn generalizing b n with
  | nil =>
    rw [h.2]
    cases n <;> rfl
  | append_singleton l j ih =>
    obtain ⟨k, rfl⟩ : ∃ k, n = k + 1 := ⟨n - 1, by simp only [List.length_append] at hn; simp at hn; omega⟩
    obtain ⟨hfront, -, hb⟩ := linked_append.1 h
    rw [hb, scan, ih hfront (by simpa using hn), List.reverse_append]
    rfl

theorem Ring.unlink (h : L.Ring (l₁ ++ i :: l₂)) : (L.unlink i).Ring (l₁ ++ l₂) := by
  obtain ⟨hnodup, hlinked⟩ := h
  refine ⟨(List.nodup_middle.1 hnodup).of_cons, ?_⟩
  obtain ⟨hfront, hback⟩ := linked_append.1 hlinked
  have hdis : ∀ j ∈ l₁, j ∉ l₂ := by
    intro j hj hj'
    exact (List.nodup_append.1 hnodup).2.2 j hj j (by simp [hj']) rfl
  have hnodup₁ := (List.nodup_append.1 hnodup).1
  have hnodup₂ := ((List.nodup_append.1 hnodup).2.1).of_cons
  -- the front part is walked with an arbitrary start that does not occur in it again
  suffices hgen : ∀ a, (∀ j, a = some j → j ∉ l₁ ∧ j ∉ l₂) → L.Linked a l₁ (some i) →
      (L.unlink i).Linked a (l₁ ++ l₂) none from hgen none (by simp) hfront
  clear hfront hlinked hnodup
  induction l₁ with
  | nil =>
    intro a ha hfront
    obtain ⟨-, hprev⟩ := hfront
    cases l₂ with
    | nil =>
      refine ⟨?_, ?_⟩
      · simp [Links.unlink, hprev, hback.1]
      · simp [Links.unlink, hprev, hback.1]
    | cons j l₂ =>
      obtain ⟨hj, hj', hrest⟩ := hback
      refine ⟨by simp [Links.unlink, hprev, hj], by simp [Links.unlink, hprev, hj], ?_⟩
      apply hrest.congr
      · rintro x hx
        have hxa : x ≠ a := by
          rintro rfl
          rcases hx with rfl | ⟨k, hk, rfl⟩
          · exact (ha j rfl).2 (by simp)
          · exact (ha k rfl).2 (by simp [hk])
        simp [Links.unlink, hprev, hxa]
      · rintro x hx
        have hxj : x ≠ some j := by
          rintro rfl
          rcases hx with hx | ⟨k, hk, hkx⟩
          · cases hx
          · cases hkx
            exact (List.nodup_cons.1 hnodup₂).1 hk
        simp [Links.unlink, hj, hxj]
  | cons k l₁ ih =>
    intro a ha hfront
    obtain ⟨hk, hk', hrest⟩ := hfront
    have hend : ∃ j ∈ k :: l₁, L.prev (some i) = some j := by
      rcases hrest.prev_end with ⟨-, hp⟩ | ⟨j, hj, hp⟩
      · exact ⟨k, by simp, hp⟩
      · exact ⟨j, by simp [hj], hp⟩
    obtain ⟨j, hj, hp⟩ := hend
    have haj : a ≠ some j := fun haj => (ha j haj).1 hj
    have hkn : some k ≠ L.next (some i) := by
      intro hkn
      rcases hback.next_start with ⟨-, hn⟩ | ⟨j', hj', hn⟩
      · rw [hn] at hkn
        cases hkn
      · rw [hn] at hkn
        cases hkn
        exact hdis k (by simp) hj'
    refine ⟨by simp [Links.unlink, hp, haj, hk], by simp [Links.unlink, hkn, hk'], ?_⟩
    apply ih (fun j hj => hdis j (by simp [hj])) (List.nodup_cons.1 hnodup₁).2
    · intro j hj
      cases hj
      exact ⟨(List.nodup_cons.1 hnodup₁).1, hdis k (by simp)⟩
    · exact hrest

theorem Ring.pushFront (h : L.Ring l) (hi : i ∉ l) : (L.pushFront i).Ring (i :: l) := by
  obtain ⟨hnodup, hlinked⟩ := h
  refine ⟨List.nodup_cons.2 ⟨hi, hnodup⟩, by simp [Links.pushFront], ?_, ?_⟩
  · have hne : some i ≠ L.next none := by
      rcases hlinked.next_start with ⟨-, hn⟩ | ⟨j, hj, hn⟩
      · simp [hn]
      · rw [hn]
        rintro ⟨⟩
        exact hi hj
    simp [Links.pushFront, hne]
  · cases l with
    | nil => exact ⟨by simp [Links.pushFront, hlinked.1], by simp [Links.pushFront, hlinked.1]⟩
    | cons j l =>
      obtain ⟨hj, hj', hrest⟩ := hlinked
      refine ⟨by simp [Links.pushFront, hj], by simp [Links.pushFront, hj], ?_⟩
      apply hrest.congr
      · rintro x hx
        have hxi : x ≠ some i ∧ x ≠ none := by
          rcases hx with rfl | ⟨k, hk, rfl⟩
          · refine ⟨?_, by simp⟩
            rintro ⟨⟩
            exact hi (by simp)
          · refine ⟨?_, by simp⟩
            rintro ⟨⟩
            exact hi (by simp [hk])
        simp [Links.pushFront, hxi.1, hxi.2]
      · rintro x hx
        have hxi : x ≠ some i ∧ x ≠ some j := by
          rcases hx with rfl | ⟨k, hk, rfl⟩
          · exact ⟨by simp, by simp⟩
          · refine ⟨?_, ?_⟩
            · rintro ⟨⟩
              exact hi (by simp [hk])
            · rintro ⟨⟩
              exact (List.nodup_cons.1 hnodup).1 hk
        simp [Links.pushFront, hj, hxi.1, hxi.2]

theorem Ring.foldl_pushFront (h : L.Ring l) (hnodup : l₁.Nodup) (hdis : ∀ j ∈ l₁, j ∉ l) :
    (l₁.foldl Links.pushFront L).Ring (l₁.reverse ++ l) := by
  induction l₁ generalizing L l with
  | nil => exact h
  | cons i l₁ ih =>
    obtain ⟨hi, hnodup⟩ := List.nodup_cons.1 hnodup
    rw [List.foldl_cons, List.reverse_cons, List.append_assoc]
    apply ih (h.pushFront (hdis i (by simp))) hnodup
    intro j hj
    rw [List.mem_cons, not_or]
    exact ⟨fun hji => hi (hji ▸ hj), hdis j (by simp [hj])⟩

omit [DecidableEq ι] in
theorem ring_empty : (empty : Links ι).Ring [] := ⟨List.nodup_nil, rfl, rfl⟩

omit [DecidableEq ι] in
/-- On the nodes of a ring the two directions are inverse to each other. -/
theorem Ring.inverse (h : L.Ring l) {x : Option ι} (hx : ∀ j, x = some j → j ∈ l) :
    L.prev (L.next x) = x ∧ L.next (L.prev x) = x := by
  cases x with
  | none =>
    refine ⟨?_, ?_⟩
    · cases l with
      | nil => rw [h.linked.1, h.linked.2]
      | cons j l => rw [h.linked.1, h.linked.2.1]
    · cases l using List.reverseRecOn with
      | nil => rw [h.linked.2, h.linked.1]
      | append_singleton l j =>
        obtain ⟨-, hn, hp⟩ := linked_append.1 h.linked
        rw [hp, hn]
  | some j =>
    obtain ⟨l₁, l₂, rfl⟩ := List.append_of_mem (hx j rfl)
    obtain ⟨hfront, hback⟩ := linked_append.1 h.linked
    refine ⟨?_, ?_⟩
    · cases l₂ with
      | nil => rw [hback.1, hback.2]
      | cons k l₂ => rw [hback.1, hback.2.1]
    · cases l₁ using List.reverseRecOn with
      | nil => rw [hfront.2, hfront.1]
      | append_singleton l₁ k =>
        obtain ⟨-, hn, hp⟩ := linked_append.1 hfront
        rw [hp, hn]

end Links

end Xv6.Lib
