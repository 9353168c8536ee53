import Xv6.Vm.Table

/-!
# `mappages` and `uvmunmap`

A page table is a finite map from pages to entries; `mappages` adds bindings and `uvmunmap`
removes them.
-/

namespace Xv6.Vm

open Lib Lib.Cmd

def lookup (mem : Nat → Bytes) (pagetable va : Nat) : Option Nat :=
  (tree mem).find (digits va) 2 pagetable

theorem PX_eq (level va : Nat) : PX level va = va / 4096 / 2 ^ (9 * level) % 512 := by
  rw [PX, Nat.div_div_eq_div_mul, Nat.pow_add]

theorem lookup_page {mem : Nat → Bytes} {pt va va' : Nat} (h : va' / 4096 = va / 4096) :
    lookup mem pt va' = lookup mem pt va := by
  have hdigits : digits va' = digits va := by
    funext level
    simp only [digits, PX_eq, h]
  rw [lookup, lookup, hdigits]

theorem lookup_zero {mem : Nat → Bytes} {pt : Nat} (h : mem pt = fun _ => 0) (va : Nat) :
    lookup mem pt va = none := Radix.find_empty (tree_zero h)

theorem sameKey_iff {va va' : Nat} (h : va < MAXVA) (h' : va' < MAXVA) :
    Radix.SameKey 2 (digits va) (digits va') ↔ va' / 4096 = va / 4096 := by
  constructor
  · intro hkey
    exact PX_inj h' h hkey
  · intro heq level _
    simp only [digits, PX_eq, heq]

section Entry

variable {kend pt va va' page v : Nat} {s : State}

def State.setEntry (s : State) (page va v : Nat) : State :=
  { s with mem := upd s.mem page (setWord (s.mem page) (8 * PX 0 va) 8 v) }

theorem pte_setEntry (hv : v < 256 ^ 8) (i : Nat) :
    pte (s.setEntry page va v).mem page i = if i = PX 0 va then v else pte s.mem page i :=
  pte_setPte hv

theorem setSlot_of_last (ht : Table kend s 2 pt)
    (hlast : (tree s.mem).last (digits va) 2 pt = some page) (hv : v < 256 ^ 8) :
    Radix.SetSlot (tree s.mem) (tree (s.setEntry page va v).mem) 512 (digits va)
      (if Valid v then some v else none) 2 pt page where
  nodup := (List.nodup_append.1 ht.nodup).1
  last := hlast
  same := fun q _ hq => tree_same (upd_of_ne _ _ _ hq)
  slot := by
    intro i
    simp only [tree, pte_setEntry hv]
    by_cases hi : i = PX 0 va
    · simp only [hi, if_true]
    · simp only [hi, if_false]

theorem setEntry_pages (ht : Table kend s 2 pt)
    (hlast : (tree s.mem).last (digits va) 2 pt = some page) (hv : v < 256 ^ 8) :
    pages (s.setEntry page va v).mem 2 pt = pages s.mem 2 pt :=
  (setSlot_of_last ht hlast hv).nodes_eq (digits_lt va)

theorem setEntry_table (ht : Table kend s 2 pt)
    (hlast : (tree s.mem).last (digits va) 2 pt = some page) (hv : v < 256 ^ 8)
    (hleaf : v = 0 ∨ Leaf v) : Table kend (s.setEntry page va v) 2 pt := by
  have hpages := setEntry_pages ht hlast hv
  constructor
  case nodup =>
    rw [hpages]
    exact ht.nodup
  case pages =>
    rw [hpages]
    exact ht.pages
  apply (setSlot_of_last ht hlast hv).all (digits_lt va) ht.shape
  · intro hshape i hi
    rw [pte_setEntry hv]
    by_cases hii : i = PX 0 va
    · rw [if_pos hii]
      exact hleaf
    · rw [if_neg hii]
      exact hshape i hi
  · intro q _ hq k hshape
    exact hshape.congr (upd_of_ne _ _ _ hq)

theorem lookup_setEntry (ht : Table kend s 2 pt)
    (hlast : (tree s.mem).last (digits va) 2 pt = some page) (hv : v < 256 ^ 8)
    (hva : va < MAXVA) (hva' : va' < MAXVA) :
    lookup (s.setEntry page va v).mem pt va' =
      if va' / 4096 = va / 4096 then if Valid v then some v else none else lookup s.mem pt va' := by
  unfold lookup
  rw [(setSlot_of_last ht hlast hv).find_eq (digits_lt va) (digits_lt va')]
  simp only [sameKey_iff hva hva']

theorem lookup_of_last (hlast : (tree s.mem).last (digits va) 2 pt = some page) :
    lookup s.mem pt va =
      if Valid (pte s.mem page (PX 0 va)) then some (pte s.mem page (PX 0 va)) else none := by
  rw [lookup, Radix.find_eq_last, hlast]
  rfl

theorem lookup_of_none (hlast : (tree s.mem).last (digits va) 2 pt = none) :
    lookup s.mem pt va = none := by
  rw [lookup, Radix.find_eq_last, hlast]
  rfl

end Entry

structure Reach (kend : Nat) (s t : State) (pt : Nat) : Prop where
  table : Table kend t 2 pt
  perm : (pages t.mem 2 pt ++ t.freelist).Perm (pages s.mem 2 pt ++ s.freelist)
  mem : ∀ q, q ∉ pages s.mem 2 pt ++ s.freelist → t.mem q = s.mem q

section Reach

variable {kend pt va page v : Nat} {s t u : State}

theorem Reach.trans (h : Reach kend s t pt) (h' : Reach kend t u pt) : Reach kend s u pt where
  table := h'.table
  perm := h'.perm.trans h.perm
  mem := by
    intro q hq
    have hq' : q ∉ pages t.mem 2 pt ++ t.freelist := fun hmem => hq (h.perm.mem_iff.1 hmem)
    rw [h'.mem q hq', h.mem q hq]

theorem Walked.reach (h : Walked s t 2 pt) (ht : Table kend s 2 pt) : Reach kend s t pt :=
  ⟨h.table ht, h.grown.perm, h.mem⟩

theorem Walked.lookup (h : Walked s t 2 pt) (va : Nat) : lookup t.mem pt va = lookup s.mem pt va :=
  h.grown.find _ (digits_lt va)

theorem setEntry_reach (ht : Table kend s 2 pt)
    (hlast : (tree s.mem).last (digits va) 2 pt = some page) (hv : v < 256 ^ 8)
    (hleaf : v = 0 ∨ Leaf v) : Reach kend s (s.setEntry page va v) pt where
  table := setEntry_table ht hlast hv hleaf
  perm := by
    rw [setEntry_pages ht hlast hv]
    exact .refl _
  mem := by
    intro q hq
    apply upd_of_ne
    rintro rfl
    exact hq (List.mem_append_left _ (Radix.last_mem_nodes (digits_lt va) hlast))

end Reach

/-- `j` pages from `va` on are mapped to those from `pa` on. -/
def Mapped (s t : State) (pt va pa perm j : Nat) : Prop :=
  ∀ va', va' < MAXVA → lookup t.mem pt va' =
    if va ≤ va' ∧ va' < va + j * 4096 then some (entry (pa + (va' / 4096 * 4096 - va)) perm)
    else lookup s.mem pt va'

section Mappages

variable {kend pt va pa perm k n : Nat} {s t u : State}

theorem Mapped.zero (h : ∀ va', lookup t.mem pt va' = lookup s.mem pt va') :
    Mapped s t pt va pa perm 0 := by
  intro va' _
  rw [if_neg (by omega), h]

theorem Mapped.cons {page j : Nat} (hw : ∀ va', lookup t.mem pt va' = lookup s.mem pt va')
    (ht : Table kend t 2 pt) (hlast : (tree t.mem).last (digits va) 2 pt = some page)
    (hva : va % 4096 = 0) (hlt : va < MAXVA) (hpa : pa < 2 ^ 64) (hperm : Perm perm)
    (hu : Mapped (t.setEntry page va (entry pa perm)) u pt (va + 4096) (pa + 4096) perm j) :
    Mapped s u pt va pa perm (j + 1) := by
  intro va' hva'
  rw [hu va' hva', lookup_setEntry ht hlast (entry_lt hperm hpa) hlt hva', hw,
    if_pos (entry_leaf hperm).1]
  by_cases hlater : va + 4096 ≤ va' ∧ va' < va + 4096 + j * 4096
  · have hpa : pa + 4096 + (va' / 4096 * 4096 - (va + 4096)) = pa + (va' / 4096 * 4096 - va) := by
      omega
    rw [if_pos hlater, if_pos (by omega), hpa]
  · rw [if_neg hlater]
    by_cases hpage : va' / 4096 = va / 4096
    · have hpa : pa + (va' / 4096 * 4096 - va) = pa := by omega
      rw [if_pos hpage, if_pos (by omega), hpa]
    · rw [if_neg hpage, if_neg (by omega)]

theorem wp_mapLoop {last : Nat} {Q : Bool → State → Prop} {E : Fail → Prop} (ht : Table kend s 2 pt)
    (hlt : va < MAXVA) (hfail : ∀ t, Walked s t 2 pt → Q false t)
    (hremap : lookup s.mem pt va ≠ none → E (.panic "remap"))
    (hnext : ∀ t page, Walked s t 2 pt → (tree t.mem).last (digits va) 2 pt = some page →
      wp (if va = last then pure true
        else mapLoop pt last perm n ((va + PGSIZE) % 2 ^ 64) ((pa + PGSIZE) % 2 ^ 64)) Q E
        (t.setEntry page va (entry pa perm))) :
    wp (mapLoop pt last perm (n + 1) va pa) Q E s := by
  rw [mapLoop, wp_bind, walk, if_neg (Nat.not_le.2 hlt)]
  apply wp.mono (walkLoop_alloc ht) _ nofun
  rintro (_ | ⟨page, i⟩) t ⟨hw, hfound⟩
  · exact hfail t hw
  · obtain ⟨rfl, hlast⟩ := hfound page i rfl
    change wp (if Valid (pte t.mem page (PX 0 va)) then _ else _) _ _ _
    by_cases hvalid : Valid (pte t.mem page (PX 0 va))
    · rw [if_pos hvalid]
      apply hremap
      rw [← hw.lookup, lookup_of_last hlast, if_pos hvalid]
      exact Option.some_ne_none _
    · rw [if_neg hvalid]
      exact hnext t page hw hlast

theorem next_page {a : Nat} (h : a + 4096 < 2 ^ 64) : (a + PGSIZE) % 2 ^ 64 = a + 4096 :=
  Nat.mod_eq_of_lt h

theorem mapLoop_spec (ht : Table kend s 2 pt) (hva : va % 4096 = 0)
    (hend : va + (k + 1) * 4096 ≤ MAXVA) (hlt : pa + (k + 1) * 4096 < 2 ^ 64) (hperm : Perm perm)
    (hnone : ∀ va', va ≤ va' → va' < va + (k + 1) * 4096 → lookup s.mem pt va' = none) (hn : k < n) :
    wp (mapLoop pt (va + k * 4096) perm n va pa)
      (fun r t => Reach kend s t pt ∧ ∃ j, Mapped s t pt va pa perm j ∧
        (r = true ∧ j = k + 1 ∨ r = false ∧ j < k + 1)) (fun _ => False) s := by
  induction n generalizing s va pa k with
  | zero => omega
  | succ n ih =>
    have hpa : pa < 2 ^ 64 := by omega
    have hva' : va < MAXVA := by omega
    apply wp_mapLoop ht hva'
    · intro t hw
      exact ⟨hw.reach ht, 0, .zero hw.lookup, .inr ⟨rfl, Nat.succ_pos k⟩⟩
    · intro hmapped
      exact hmapped (hnone va (Nat.le_refl _) (by omega))
    · intro t page hw hlast
      have hreach := hw.reach ht
      have hset := hreach.trans
        (setEntry_reach hreach.table hlast (entry_lt hperm hpa) (.inr (entry_leaf hperm)))
      cases k with
      | zero =>
        rw [if_pos (by omega)]
        refine ⟨hset, 1, ?_, .inl ⟨rfl, rfl⟩⟩
        exact .cons hw.lookup hreach.table hlast hva hva' hpa hperm (.zero fun _ => rfl)
      | succ k =>
        have hwrap : va + 4096 < 2 ^ 64 := by
          change va + (k + 1 + 1) * 4096 ≤ 2 ^ 38 at hend
          omega
        rw [if_neg (by omega), next_page (a := va) hwrap, next_page (a := pa) (by omega),
          show va + (k + 1) * 4096 = va + 4096 + k * 4096 by omega]
        have hnone' : ∀ va', va + 4096 ≤ va' → va' < va + 4096 + (k + 1) * 4096 →
            lookup (t.setEntry page va (entry pa perm)).mem pt va' = none := by
          intro va' hle hlt'
          rw [lookup_setEntry hreach.table hlast (entry_lt hperm hpa) hva' (by omega),
            if_neg (by omega), hw.lookup]
          exact hnone va' (by omega) (by omega)
        have hva4 : (va + 4096) % 4096 = 0 := by omega
        have hend' : va + 4096 + (k + 1) * 4096 ≤ MAXVA := by omega
        have hlt' : pa + 4096 + (k + 1) * 4096 < 2 ^ 64 := by omega
        apply (ih hset.table hva4 hend' hlt' hnone' (Nat.lt_of_succ_lt_succ hn)).imp
        rintro r u ⟨hu, j, hmapped, hres⟩
        refine ⟨hset.trans hu, j + 1, ?_, ?_⟩
        · exact .cons hw.lookup hreach.table hlast hva hva' hpa hperm hmapped
        · rcases hres with ⟨hr, hj⟩ | ⟨hr, hj⟩
          · exact .inl ⟨hr, by omega⟩
          · exact .inr ⟨hr, by omega⟩

theorem mappages_spec (ht : Table kend s 2 pt) (hva : va % 4096 = 0) (hk : 0 < k)
    (hend : va + k * 4096 ≤ MAXVA) (hpa : pa < 2 ^ 56) (hperm : Perm perm)
    (hnone : ∀ va', va ≤ va' → va' < va + k * 4096 → lookup s.mem pt va' = none) :
    wp (mappages pt va (k * 4096) pa perm)
      (fun r t => Reach kend s t pt ∧ ∃ j, Mapped s t pt va pa perm j ∧
        (r = true ∧ j = k ∨ r = false ∧ j < k)) (fun _ => False) s := by
  obtain ⟨k, rfl⟩ := Nat.exists_eq_succ_of_ne_zero (Nat.ne_of_gt hk)
  have hmax : MAXVA = 2 ^ 38 := rfl
  have hfirst : PGROUNDDOWN va = va := by
    unfold PGROUNDDOWN
    omega
  have hlast : PGROUNDDOWN ((va + (k + 1) * 4096 + (2 ^ 64 - 1)) % 2 ^ 64) = va + k * 4096 := by
    unfold PGROUNDDOWN
    omega
  have hrounds : k < rounds := by
    change k < 67108865
    omega
  rw [mappages, hfirst, hlast]
  exact mapLoop_spec ht hva hend (by omega) hperm hnone hrounds

end Mappages

end Xv6.Vm
