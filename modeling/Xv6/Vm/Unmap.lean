import Xv6.Vm.Map

/-!
# `uvmunmap`

The bindings of a range of pages are removed.  With `do_free` the pages themselves go back to
the free list, so that they must be neither free nor pages of the table.
-/

namespace Xv6.Vm

open Lib Lib.Cmd

section Outside

variable {kend pt va : Nat} {s t : State}

theorem lookup_congr (h : ∀ q ∈ pages s.mem 2 pt, t.mem q = s.mem q) (va : Nat) :
    lookup t.mem pt va = lookup s.mem pt va :=
  Radix.find_congr (digits_lt va) fun q hq => tree_same (h q hq)

theorem pages_congr {n p : Nat} (h : ∀ q ∈ pages s.mem n p, t.mem q = s.mem q) :
    pages t.mem n p = pages s.mem n p :=
  Radix.nodes_congr fun q hq => tree_same (h q hq)

/-- A table that nothing was written to, with other free pages. -/
theorem Table.congr {n p : Nat} (ht : Table kend s n p)
    (h : ∀ q ∈ Vm.pages s.mem n p, t.mem q = s.mem q)
    (hnodup : (Vm.pages s.mem n p ++ t.freelist).Nodup) (hfree : ∀ q ∈ t.freelist, Page kend q) :
    Table kend t n p where
  shape := ht.shape.congr fun q hq => ⟨tree_same (h q hq), fun _ hshape => hshape.congr (h q hq)⟩
  nodup := by
    rw [pages_congr h]
    exact hnodup
  pages := by
    rw [pages_congr h]
    intro q hq
    rcases List.mem_append.1 hq with hq | hq
    · exact ht.pages q (List.mem_append_left _ hq)
    · exact hfree q hq

end Outside

def frame (mem : Nat → Bytes) (pt va : Nat) : Nat := ((lookup mem pt va).map PTE2PA).getD 0

def frames (mem : Nat → Bytes) (pt va k : Nat) : List Nat :=
  (List.range k).map fun i => frame mem pt (va + i * 4096)

def Unmapped (s t : State) (pt va k : Nat) : Prop :=
  ∀ va', va' < MAXVA → lookup t.mem pt va' =
    if va ≤ va' ∧ va' < va + k * 4096 then none else lookup s.mem pt va'

section Unmap

variable {kend pt va k n : Nat} {s t u : State} {doFree : Bool}

theorem frames_succ (mem : Nat → Bytes) (pt va k : Nat) :
    frames mem pt va (k + 1) = frame mem pt va :: frames mem pt (va + 4096) k := by
  unfold frames
  rw [List.range_succ_eq_map, List.map_cons, List.map_map, Nat.zero_mul, Nat.add_zero]
  congr 2
  funext i
  simp only [Function.comp, Nat.succ_eq_add_one]
  congr 1
  omega

theorem frames_congr {mem mem' : Nat → Bytes}
    (h : ∀ i, i < k → lookup mem' pt (va + i * 4096) = lookup mem pt (va + i * 4096)) :
    frames mem' pt va k = frames mem pt va k := by
  apply List.map_congr_left
  intro i hi
  rw [frame, frame, h i (List.mem_range.1 hi)]

/-- Pages that may be freed: each is of the memory, and none is free or of the table. -/
structure Held (kend : Nat) (s : State) (pt : Nat) (l : List Nat) : Prop where
  pages : ∀ q ∈ l, Page kend q
  nodup : (Vm.pages s.mem 2 pt ++ (l ++ s.freelist)).Nodup

theorem Held.nil (ht : Table kend s 2 pt) : Held kend s pt [] := ⟨nofun, ht.nodup⟩

/-- The state after `kfree` of a page that the table does not use. -/
theorem kfree_table {q : Nat} {l : List Nat} (ht : Table kend s 2 pt) (h : Held kend s pt (q :: l)) :
    let t : State := { mem := upd s.mem q fun _ => 1, freelist := q :: s.freelist }
    Table kend t 2 pt ∧ (∀ p ∈ pages s.mem 2 pt, t.mem p = s.mem p) := by
  have hsame : ∀ p ∈ pages s.mem 2 pt, upd s.mem q (fun _ => 1) p = s.mem p := by
    intro p hp
    apply upd_of_ne
    rintro rfl
    exact (List.nodup_append.1 h.nodup).2.2 p hp p List.mem_cons_self rfl
  refine ⟨ht.congr hsame (h.nodup.sublist ?_) ?_, hsame⟩
  · exact (List.Sublist.refl _).append (.cons_cons q (List.sublist_append_right l s.freelist))
  · intro p hp
    rcases List.mem_cons.1 hp with rfl | hp
    · exact h.pages p List.mem_cons_self
    · exact ht.pages p (List.mem_append_right _ hp)

theorem last_of_lookup (h : lookup s.mem pt va ≠ none) :
    ∃ page, (tree s.mem).last (digits va) 2 pt = some page := by
  cases hlast : (tree s.mem).last (digits va) 2 pt with
  | none => exact absurd (lookup_of_none hlast) h
  | some page => exact ⟨page, rfl⟩

theorem Table.leaf {e : Nat} (ht : Table kend s 2 pt) (h : lookup s.mem pt va = some e) : Leaf e := by
  obtain ⟨page, hlast⟩ := last_of_lookup (h ▸ Option.some_ne_none e)
  rw [lookup_of_last hlast] at h
  by_cases hvalid : Valid (pte s.mem page (PX 0 va))
  · rw [if_pos hvalid] at h
    obtain rfl := Option.some.inj h
    rcases ht.shape.last (digits_lt va) hlast _ (PX_lt 0 va) with hzero | hleaf
    · exact absurd (hzero ▸ hvalid) not_valid_zero
    · exact hleaf
  · rw [if_neg hvalid] at h
    cases h

theorem wp_unmapLoop {stop : Nat} {Q : PUnit → State → Prop} {E : Fail → Prop}
    (ht : Table kend s 2 pt) (hlt : va < stop) (hmax : va < MAXVA)
    (hmapped : lookup s.mem pt va ≠ none)
    (hnext : ∀ page, (tree s.mem).last (digits va) 2 pt = some page →
      wp (if doFree then kfree kend (frame s.mem pt va) else pure ⟨⟩) (fun _ t =>
        wp (unmapLoop kend pt stop doFree n ((va + PGSIZE) % 2 ^ 64)) Q E (t.setEntry page va 0)) E s) :
    wp (unmapLoop kend pt stop doFree (n + 1) va) Q E s := by
  obtain ⟨page, hlast⟩ := last_of_lookup hmapped
  have hlook := lookup_of_last hlast
  have hvalid : Valid (pte s.mem page (PX 0 va)) := by
    by_contra hvalid
    rw [if_neg hvalid] at hlook
    exact hmapped hlook
  rw [if_pos hvalid] at hlook
  have hframe : PTE2PA (pte s.mem page (PX 0 va)) = frame s.mem pt va := by
    rw [frame, hlook]
    rfl
  have hwalk : walk pt va false s = .ok (some (page, PX 0 va), s) := by
    rw [walk, if_neg (Nat.not_le.2 hmax), walkLoop_read, hlast]
    rfl
  have hnext := hnext page hlast
  rw [unmapLoop, if_pos hlt, wp_bind, wp_of_ok hwalk]
  change wp (get >>= _) _ _ _
  rw [wp_bind, wp_get, if_neg hvalid, if_neg (ht.leaf hlook).flags_ne, hframe]
  cases doFree with
  | false => exact hnext
  | true =>
    rw [if_pos rfl, wp_bind]
    exact hnext

def freed (doFree : Bool) (mem : Nat → Bytes) (pt va k : Nat) : List Nat :=
  if doFree then frames mem pt va k else []

structure Removed (kend : Nat) (s t : State) (pt va k : Nat) (l : List Nat) : Prop where
  table : Table kend t 2 pt
  lookup : Unmapped s t pt va k
  pages : Vm.pages t.mem 2 pt = Vm.pages s.mem 2 pt
  freelist : t.freelist = l.reverse ++ s.freelist
  mem : ∀ q, q ∉ Vm.pages s.mem 2 pt → q ∉ l → t.mem q = s.mem q

theorem Removed.zero (ht : Table kend s 2 pt) : Removed kend s s pt va 0 [] where
  table := ht
  lookup := by
    intro va' _
    rw [if_neg (by omega)]
  pages := rfl
  freelist := rfl
  mem := fun _ _ _ => rfl

theorem Removed.trans {l l' : List Nat} (h : Removed kend s t pt va 1 l)
    (h' : Removed kend t u pt (va + 4096) k l') : Removed kend s u pt va (k + 1) (l ++ l') where
  table := h'.table
  lookup := by
    intro va' hva'
    rw [h'.lookup va' hva', h.lookup va' hva', Nat.one_mul]
    clear hva'
    by_cases hlater : va + 4096 ≤ va' ∧ va' < va + 4096 + k * 4096
    · rw [if_pos hlater, if_pos (by omega)]
    · rw [if_neg hlater]
      by_cases hfirst : va ≤ va' ∧ va' < va + 4096
      · rw [if_pos hfirst, if_pos (by omega)]
      · rw [if_neg hfirst, if_neg (by omega)]
  pages := h'.pages.trans h.pages
  freelist := by
    rw [h'.freelist, h.freelist, List.reverse_append, List.append_assoc]
  mem := by
    intro q hq hl
    rw [List.mem_append, not_or] at hl
    rw [h'.mem q (h.pages ▸ hq) hl.2, h.mem q hq hl.1]

/-- An entry is cleared, and pages that the table does not use are freed before. -/
theorem removed_setEntry {page : Nat} {l : List Nat} (ht : Table kend t 2 pt)
    (hsame : ∀ p ∈ pages s.mem 2 pt, t.mem p = s.mem p)
    (hlast : (tree s.mem).last (digits va) 2 pt = some page) (hva : va % 4096 = 0)
    (hmax : va < MAXVA) (hfree : t.freelist = l.reverse ++ s.freelist)
    (hmem : ∀ q, q ∉ l → t.mem q = s.mem q) : Removed kend s (t.setEntry page va 0) pt va 1 l := by
  have hlast' : (tree t.mem).last (digits va) 2 pt = some page := by
    rw [Radix.last_congr (digits_lt va) fun q hq => tree_same (hsame q hq), hlast]
  refine ⟨setEntry_table ht hlast' (by decide) (.inl rfl), ?_, ?_, hfree, ?_⟩
  · intro va' hva'
    rw [lookup_setEntry ht hlast' (by decide) hmax hva', if_neg not_valid_zero, lookup_congr hsame]
    by_cases hpage : va' / 4096 = va / 4096
    · rw [if_pos hpage, if_pos (by omega)]
    · rw [if_neg hpage, if_neg (by omega)]
  · rw [setEntry_pages ht hlast' (by decide), pages_congr hsame]
  · intro q hq hl
    rw [← hmem q hl]
    apply upd_of_ne
    rintro rfl
    exact hq (Radix.last_mem_nodes (digits_lt va) hlast)

theorem removed_one {page : Nat} (ht : Table kend s 2 pt)
    (hlast : (tree s.mem).last (digits va) 2 pt = some page) (hva : va % 4096 = 0)
    (hmax : va < MAXVA) (hheld : Held kend s pt (freed doFree s.mem pt va (k + 1))) :
    wp (if doFree then kfree kend (frame s.mem pt va) else pure ⟨⟩)
      (fun _ t => Removed kend s (t.setEntry page va 0) pt va 1 (freed doFree s.mem pt va 1))
      (fun _ => False) s := by
  cases doFree with
  | false => exact removed_setEntry ht (fun _ _ => rfl) hlast hva hmax rfl fun _ _ => rfl
  | true =>
    rw [freed, if_pos rfl, frames_succ] at hheld
    obtain ⟨ht', hsame⟩ := kfree_table ht hheld
    apply wp_kfree (hheld.pages _ List.mem_cons_self)
    rw [freed, if_pos rfl, frames_succ]
    apply removed_setEntry ht' hsame hlast hva hmax rfl
    intro q hq
    exact upd_of_ne _ _ _ (List.ne_of_not_mem_cons hq)

theorem Removed.held (h : Removed kend s t pt va 1 (freed doFree s.mem pt va 1))
    (hend : va + (k + 1) * 4096 ≤ MAXVA)
    (hheld : Held kend s pt (freed doFree s.mem pt va (k + 1))) :
    freed doFree s.mem pt va 1 ++ freed doFree t.mem pt (va + 4096) k =
      freed doFree s.mem pt va (k + 1) ∧ Held kend t pt (freed doFree t.mem pt (va + 4096) k) := by
  cases doFree with
  | false => exact ⟨rfl, .nil h.table⟩
  | true =>
    have hframes : frames t.mem pt (va + 4096) k = frames s.mem pt (va + 4096) k := by
      apply frames_congr
      intro i hi
      rw [h.lookup _ (by omega), if_neg (by omega)]
    simp only [freed, if_true, frames_succ, hframes] at hheld ⊢
    refine ⟨rfl, fun q hq => hheld.pages q (List.mem_cons_of_mem _ hq), ?_⟩
    rw [h.pages, h.freelist, freed, if_pos rfl, frames_succ]
    refine (List.Perm.nodup_iff (.append_left _ ?_)).1 hheld.nodup
    exact List.perm_middle.symm

theorem unmapLoop_spec (ht : Table kend s 2 pt) (hva : va % 4096 = 0)
    (hend : va + k * 4096 ≤ MAXVA) (hmapped : ∀ i, i < k → lookup s.mem pt (va + i * 4096) ≠ none)
    (hheld : Held kend s pt (freed doFree s.mem pt va k)) (hn : k < n) :
    wp (unmapLoop kend pt (va + k * 4096) doFree n va)
      (fun _ t => Removed kend s t pt va k (freed doFree s.mem pt va k)) (fun _ => False) s := by
  induction k generalizing s va n with
  | zero =>
    obtain ⟨n, rfl⟩ := Nat.exists_eq_succ_of_ne_zero (Nat.ne_of_gt hn)
    rw [unmapLoop, if_neg (by omega)]
    cases doFree with
    | false => exact .zero ht
    | true => exact .zero ht
  | succ k ih =>
    obtain ⟨n, rfl⟩ := Nat.exists_eq_succ_of_ne_zero (Nat.ne_of_gt (Nat.zero_lt_of_lt hn))
    have hmax : va < MAXVA := by omega
    have hfirst : lookup s.mem pt va ≠ none := by
      have hzero := hmapped 0 (Nat.succ_pos k)
      rwa [Nat.zero_mul] at hzero
    apply wp_unmapLoop ht (by omega) hmax hfirst
    intro page hlast
    apply (removed_one ht hlast hva hmax hheld).imp
    intro _ t hone
    obtain ⟨hfreed, hheld'⟩ := hone.held hend hheld
    have hwrap : va + 4096 < 2 ^ 64 := by
      change va + (k + 1) * 4096 ≤ 2 ^ 38 at hend
      omega
    have hmapped' : ∀ i, i < k →
        lookup (t.setEntry page va 0).mem pt (va + 4096 + i * 4096) ≠ none := by
      intro i hi
      rw [hone.lookup _ (by omega), if_neg (by omega)]
      have hi' := hmapped (i + 1) (by omega)
      rwa [show va + (i + 1) * 4096 = va + 4096 + i * 4096 by omega] at hi'
    have hva4 : (va + 4096) % 4096 = 0 := by omega
    have hend' : va + 4096 + k * 4096 ≤ MAXVA := by omega
    rw [next_page hwrap, show va + (k + 1) * 4096 = va + 4096 + k * 4096 by omega]
    apply (ih hone.table hva4 hend' hmapped' hheld' (by omega)).imp
    intro _ u hu
    rw [← hfreed]
    exact hone.trans hu

theorem uvmunmap_spec (ht : Table kend s 2 pt) (hva : va % 4096 = 0)
    (hend : va + k * 4096 ≤ MAXVA) (hmapped : ∀ i, i < k → lookup s.mem pt (va + i * 4096) ≠ none)
    (hheld : Held kend s pt (freed doFree s.mem pt va k)) :
    wp (uvmunmap kend pt va k doFree)
      (fun _ t => Removed kend s t pt va k (freed doFree s.mem pt va k)) (fun _ => False) s := by
  have hstop : (va + k * PGSIZE) % 2 ^ 64 = va + k * 4096 := by
    change va + k * 4096 ≤ 2 ^ 38 at hend
    change (va + k * 4096) % 2 ^ 64 = _
    omega
  have hrounds : k < rounds := by
    change va + k * 4096 ≤ 2 ^ 38 at hend
    change k < 67108865
    omega
  rw [uvmunmap, if_neg (not_not_intro hva), hstop]
  exact unmapLoop_spec ht hva hend hmapped hheld hrounds

end Unmap

end Xv6.Vm
