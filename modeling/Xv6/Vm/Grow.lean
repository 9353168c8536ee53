import Xv6.Vm.Unmap

/-!
# `uvmdealloc` and `uvmalloc`

Pages are taken from the free list and mapped one after another.  When there is none left,
the table is as it was, and the pages are free again.
-/

namespace Xv6.Vm

open Lib Lib.Cmd

theorem PGROUNDUP_aligned (sz : Nat) : PGROUNDUP sz % 4096 = 0 := Nat.mul_mod_left _ _

theorem PGROUNDUP_self {va : Nat} (h : va % 4096 = 0) (hmax : va ≤ MAXVA) : PGROUNDUP va = va := by
  change va ≤ 2 ^ 38 at hmax
  unfold PGROUNDUP
  omega

theorem in_pages {va va' k : Nat} (hva : va % 4096 = 0) :
    va ≤ va' ∧ va' < va + k * 4096 ↔ va / 4096 ≤ va' / 4096 ∧ va' / 4096 < va / 4096 + k := by
  omega

/-- The table is changed with its own pages and free ones, and the pages of `l` are taken from
the free ones. -/
structure Took (kend : Nat) (s t : State) (pt : Nat) (l : List Nat) : Prop where
  table : Table kend t 2 pt
  perm : (pages t.mem 2 pt ++ (l ++ t.freelist)).Perm (pages s.mem 2 pt ++ s.freelist)
  mem : ∀ q, q ∉ pages s.mem 2 pt ++ s.freelist → t.mem q = s.mem q

theorem Held.right {kend pt : Nat} {s : State} {l l' : List Nat} (h : Held kend s pt (l ++ l')) :
    Held kend s pt l' := by
  refine ⟨fun q hq => h.pages q (List.mem_append_right _ hq), List.Nodup.sublist ?_ h.nodup⟩
  rw [List.append_assoc]
  exact (List.Sublist.refl _).append (List.sublist_append_right _ _)

theorem Held.not_mem {kend pt q : Nat} {s : State} {l : List Nat} (h : Held kend s pt l)
    (hq : q ∈ l) : q ∉ Vm.pages s.mem 2 pt ++ s.freelist := by
  obtain ⟨-, hrest, hdisj⟩ := List.nodup_append.1 h.nodup
  intro hmem
  rcases List.mem_append.1 hmem with hmem | hmem
  · exact hdisj q hmem q (List.mem_append_left _ hq) rfl
  · exact (List.nodup_append.1 hrest).2.2 q hq q hmem rfl

namespace Took

variable {kend pt va k r : Nat} {s t u : State} {l l' : List Nat}

theorem refl (h : Table kend s 2 pt) : Took kend s s pt [] := ⟨h, .refl _, fun _ _ => rfl⟩

theorem of_perm (h : Took kend s t pt l) (hl : l'.Perm l) : Took kend s t pt l' :=
  ⟨h.table, ((hl.append_right _).append_left _).trans h.perm, h.mem⟩

theorem mem_of (h : Took kend s t pt l) {q : Nat} (hq : q ∈ pages t.mem 2 pt ++ (l ++ t.freelist)) :
    q ∈ pages s.mem 2 pt ++ s.freelist := h.perm.mem_iff.1 hq

theorem held (h : Took kend s t pt l) (hs : Table kend s 2 pt) : Held kend t pt l where
  pages := by
    intro q hq
    exact hs.pages q (h.mem_of (List.mem_append_right _ (List.mem_append_left _ hq)))
  nodup := h.perm.nodup_iff.2 hs.nodup

theorem not_mem (h : Took kend s t pt l) (hs : Table kend s 2 pt) {q : Nat} (hq : q ∈ l) :
    q ∉ pages t.mem 2 pt ++ t.freelist := (h.held hs).not_mem hq

theorem trans (h : Took kend s t pt l) (h' : Reach kend t u pt) : Took kend s u pt l where
  table := h'.table
  perm := by
    refine List.Perm.trans ?_ h.perm
    calc pages u.mem 2 pt ++ (l ++ u.freelist)
        _ |>.Perm (l ++ (pages u.mem 2 pt ++ u.freelist)) := List.perm_append_comm_assoc _ _ _
        _ |>.Perm (l ++ (pages t.mem 2 pt ++ t.freelist)) := h'.perm.append_left l
        _ |>.Perm (pages t.mem 2 pt ++ (l ++ t.freelist)) := List.perm_append_comm_assoc _ _ _
  mem := by
    intro q hq
    rw [h'.mem q, h.mem q hq]
    intro hmem
    apply hq
    apply h.mem_of
    rcases List.mem_append.1 hmem with hmem | hmem
    · exact List.mem_append_left _ hmem
    · exact List.mem_append_right _ (List.mem_append_right _ hmem)

theorem write (h : Took kend s t pt l) (hs : Table kend s 2 pt) {free : List Nat} {c : Bytes}
    (hl : (l' ++ free).Perm (l ++ t.freelist)) (hr : r ∈ l ++ t.freelist) :
    Took kend s { mem := upd t.mem r c, freelist := free } pt l' := by
  have hnodup := (h.held hs).nodup
  have hsame : ∀ q ∈ pages t.mem 2 pt, upd t.mem r c q = t.mem q := by
    intro q hq
    apply upd_of_ne
    rintro rfl
    exact (List.nodup_append.1 hnodup).2.2 q hq q hr rfl
  have hpages : pages (upd t.mem r c) 2 pt = pages t.mem 2 pt :=
    pages_congr (s := t) (t := { mem := upd t.mem r c, freelist := free }) hsame
  have hperm := (hl.append_left (pages t.mem 2 pt)).trans h.perm
  constructor
  · apply h.table.congr hsame
    · refine List.Nodup.sublist ?_ (hperm.nodup_iff.2 hs.nodup)
      exact (List.Sublist.refl _).append (List.sublist_append_right l' free)
    · intro q hq
      exact hs.pages q (hperm.mem_iff.1 (List.mem_append_right _ (List.mem_append_right _ hq)))
  · rw [hpages]
    exact hperm
  · intro q hq
    change upd t.mem r c q = _
    rw [upd_of_ne, h.mem q hq]
    rintro rfl
    exact hq (h.mem_of (List.mem_append_right _ hr))

theorem removed (h : Took kend s t pt (l ++ l')) (hr : Removed kend t u pt va k l') :
    Took kend s u pt l where
  table := hr.table
  perm := by
    rw [hr.pages, hr.freelist]
    refine List.Perm.trans (.append_left _ ?_) h.perm
    rw [List.append_assoc]
    exact ((List.reverse_perm l').append_right _).append_left l
  mem := by
    intro q hq
    rw [hr.mem q, h.mem q hq]
    · intro hmem
      exact hq (h.mem_of (List.mem_append_left _ hmem))
    · intro hmem
      apply hq
      apply h.mem_of
      exact List.mem_append_right _ (List.mem_append_left _ (List.mem_append_right _ hmem))

end Took

section Mappages

variable {kend pt va pa perm : Nat} {s : State}

theorem mappages_one (ht : Table kend s 2 pt) (hva : va % 4096 = 0) (hend : va + 4096 ≤ MAXVA)
    (hpa : pa < 2 ^ 56) (hperm : Perm perm)
    (hnone : ∀ va', va ≤ va' → va' < va + 4096 → lookup s.mem pt va' = none) :
    wp (mappages pt va PGSIZE pa perm) (fun r t => Reach kend s t pt ∧
      ∀ va', va' < MAXVA → lookup t.mem pt va' =
        if r = true ∧ va' / 4096 = va / 4096 then some (entry pa perm) else lookup s.mem pt va')
      (fun _ => False) s := by
  have hone : va + 1 * 4096 ≤ MAXVA := by omega
  have hnone' : ∀ va', va ≤ va' → va' < va + 1 * 4096 → lookup s.mem pt va' = none := by
    rw [Nat.one_mul]
    exact hnone
  apply (mappages_spec ht hva Nat.one_pos hone hpa hperm hnone').imp
  rintro r t ⟨hreach, j, hmapped, hr⟩
  refine ⟨hreach, fun va' hva' => ?_⟩
  rw [hmapped va' hva']
  rcases hr with ⟨rfl, rfl⟩ | ⟨rfl, hj⟩
  · by_cases hpage : va' / 4096 = va / 4096
    · have hsame : pa + (va' / 4096 * 4096 - va) = pa := by omega
      rw [if_pos (by omega), if_pos ⟨rfl, hpage⟩, hsame]
    · rw [if_neg (by omega), if_neg (fun h => hpage h.2)]
  · rw [if_neg (by omega), if_neg (fun h => nomatch h.1)]

end Mappages

section Dealloc

variable {kend pt va k oldsz newsz : Nat} {s : State}

theorem uvmdealloc_spec (ht : Table kend s 2 pt) (hle : newsz ≤ oldsz) (hnew : PGROUNDUP newsz = va)
    (hold : PGROUNDUP oldsz = va + k * 4096) (hend : va + k * 4096 ≤ MAXVA)
    (hmapped : ∀ i, i < k → lookup s.mem pt (va + i * 4096) ≠ none)
    (hheld : Held kend s pt (frames s.mem pt va k)) :
    wp (uvmdealloc kend pt oldsz newsz)
      (fun r t => r = newsz ∧ Removed kend s t pt va k (frames s.mem pt va k)) (fun _ => False) s := by
  have hsame : k = 0 → Removed kend s s pt va k (frames s.mem pt va k) := by
    rintro rfl
    exact .zero ht
  rw [uvmdealloc]
  by_cases hno : oldsz ≤ newsz
  · obtain rfl := Nat.le_antisymm hno hle
    rw [if_pos hno]
    exact ⟨rfl, hsame (by omega)⟩
  · rw [if_neg hno, hnew, hold]
    by_cases hpages : va < va + k * 4096
    · have hcount : (va + k * 4096 - va) / PGSIZE = k := by
        rw [Nat.add_sub_cancel_left, Nat.mul_div_cancel _ (by decide)]
      have hsext : sext32 k = k := by
        change va + k * 4096 ≤ 2 ^ 38 at hend
        unfold sext32
        rw [if_pos (by omega)]
        omega
      rw [if_pos hpages, hcount, hsext, wp_bind]
      have hunmap : wp (uvmunmap kend pt va k true)
          (fun _ t => Removed kend s t pt va k (frames s.mem pt va k)) (fun _ => False) s :=
        uvmunmap_spec ht (hnew ▸ PGROUNDUP_aligned newsz) hend hmapped hheld
      exact hunmap.imp fun _ t hremoved => ⟨rfl, hremoved⟩
    · rw [if_neg hpages]
      exact ⟨rfl, hsame (by omega)⟩

end Dealloc

/-- `k` pages from `va` on are mapped to the pages `f`, which were free and hold `c` now; the
pages of `x` are taken as well. -/
structure Extended (kend : Nat) (s t : State) (pt va k : Nat) (f perm : Nat → Nat) (c : Nat → Bytes)
    (x : List Nat) : Prop where
  took : Took kend s t pt (x ++ (List.range k).map f)
  lookup : ∀ va', va' < MAXVA → lookup t.mem pt va' =
    if va ≤ va' ∧ va' < va + k * 4096 then
      some (entry (f (va' / 4096 - va / 4096)) (perm (va' / 4096 - va / 4096)))
    else lookup s.mem pt va'
  content : ∀ i, i < k → t.mem (f i) = c i

structure Restored (kend : Nat) (s t : State) (pt : Nat) (x : List Nat) : Prop where
  took : Took kend s t pt x
  lookup : ∀ va, va < MAXVA → lookup t.mem pt va = lookup s.mem pt va

namespace Extended

variable {kend pt va k r : Nat} {s t u : State} {f perm : Nat → Nat} {c : Nat → Bytes}
  {x x' : List Nat}

theorem zero (h : Restored kend s t pt x) : Extended kend s t pt va 0 f perm c x where
  took := by
    rw [List.range_zero, List.map_nil, List.append_nil]
    exact h.took
  lookup := by
    intro va' hva'
    rw [if_neg (by omega), h.lookup va' hva']
  content := fun i hi => absurd hi (Nat.not_lt_zero i)

theorem mem_frames {i : Nat} (hi : i < k) : f i ∈ x ++ (List.range k).map f :=
  List.mem_append_right _ (List.mem_map_of_mem (List.mem_range.2 hi))

theorem page (h : Extended kend s t pt va k f perm c x) (hs : Table kend s 2 pt) {i : Nat}
    (hi : i < k) : Page kend (f i) :=
  (h.took.held hs).pages _ (mem_frames hi)

theorem frames_eq (h : Extended kend s t pt va k f perm c x) (hs : Table kend s 2 pt)
    (hend : va + k * 4096 ≤ MAXVA) (hperm : ∀ i, i < k → Perm (perm i)) :
    frames t.mem pt va k = (List.range k).map f := by
  apply List.map_congr_left
  intro i hi
  have hik := List.mem_range.1 hi
  have hpage := h.page hs hik
  have hindex : (va + i * 4096) / 4096 - va / 4096 = i := by omega
  rw [frame, h.lookup _ (by omega), if_pos (by omega), hindex]
  exact entry_page (hperm i hik) hpage.aligned hpage.lt

theorem reach (h : Extended kend s t pt va k f perm c x) (hs : Table kend s 2 pt)
    (hreach : Reach kend t u pt)
    (hlookup : ∀ va', va' < MAXVA → Vm.lookup u.mem pt va' = Vm.lookup t.mem pt va') :
    Extended kend s u pt va k f perm c x where
  took := h.took.trans hreach
  lookup := by
    intro va' hva'
    rw [hlookup va' hva', h.lookup va' hva']
  content := by
    intro i hi
    rw [hreach.mem _ (h.took.not_mem hs (mem_frames hi)), h.content i hi]

theorem write (h : Extended kend s t pt va k f perm c x) (hs : Table kend s 2 pt) {free : List Nat}
    (b : Bytes) (hx : (x' ++ free).Perm (x ++ t.freelist)) (hr : r ∈ x ++ t.freelist) :
    Extended kend s { mem := upd t.mem r b, freelist := free } pt va k f perm c x' := by
  have hr' : r ∈ x ++ (List.range k).map f ++ t.freelist := by
    rw [List.append_assoc]
    rcases List.mem_append.1 hr with hr | hr
    · exact List.mem_append_left _ hr
    · exact List.mem_append_right _ (List.mem_append_right _ hr)
  have hnodup := (h.took.held hs).nodup
  constructor
  · refine h.took.write hs ?_ hr'
    calc x' ++ (List.range k).map f ++ free
        _ |>.Perm ((List.range k).map f ++ (x' ++ free)) := by
          rw [List.append_assoc]
          exact List.perm_append_comm_assoc _ _ _
        _ |>.Perm ((List.range k).map f ++ (x ++ t.freelist)) := hx.append_left _
        _ |>.Perm (x ++ (List.range k).map f ++ t.freelist) := by
          rw [List.append_assoc]
          exact List.perm_append_comm_assoc _ _ _
  · intro va' hva'
    rw [← h.lookup va' hva']
    refine lookup_congr (s := t) (t := { mem := upd t.mem r b, freelist := free }) ?_ va'
    intro q hq
    apply upd_of_ne
    rintro rfl
    exact (List.nodup_append.1 hnodup).2.2 q hq q hr' rfl
  · intro i hi
    change upd t.mem r b (f i) = _
    rw [upd_of_ne, h.content i hi]
    rintro rfl
    have hrest := (List.nodup_append.1 hnodup).2.1
    rw [List.append_assoc] at hrest
    have hmid : f i ∈ (List.range k).map f := List.mem_map_of_mem (List.mem_range.2 hi)
    rcases List.mem_append.1 hr with hr | hr
    · exact (List.nodup_append.1 hrest).2.2 _ hr _ (List.mem_append_left _ hmid) rfl
    · exact (List.nodup_append.1 (List.nodup_append.1 hrest).2.1).2.2 _ hmid _ hr rfl

theorem kalloc (h : Extended kend s t pt va k f perm c x) (hs : Table kend s 2 pt)
    {next : List Nat} (b : Bytes) (hfree : t.freelist = r :: next) :
    Extended kend s { mem := upd t.mem r b, freelist := next } pt va k f perm c (r :: x) := by
  apply h.write hs
  · rw [hfree]
    exact List.perm_middle.symm
  · rw [hfree]
    exact List.mem_append_right _ List.mem_cons_self

theorem kfree (h : Extended kend s t pt va k f perm c (r :: x)) (hs : Table kend s 2 pt) :
    Extended kend s { mem := upd t.mem r fun _ => 1, freelist := r :: t.freelist } pt va k f perm c x :=
  h.write hs _ List.perm_middle List.mem_cons_self

theorem snoc (h : Extended kend s t pt va k f perm c (r :: x)) (hs : Table kend s 2 pt)
    (hva : va % 4096 = 0) (hreach : Reach kend t u pt)
    (hlookup : ∀ va', va' < MAXVA → Vm.lookup u.mem pt va' =
      if va' / 4096 = va / 4096 + k then some (entry r (perm k)) else Vm.lookup t.mem pt va')
    (hr : t.mem r = c k) : Extended kend s u pt va (k + 1) (upd f k r) perm c x := by
  have hold : (List.range k).map (upd f k r) = (List.range k).map f := by
    apply List.map_congr_left
    intro i hi
    exact upd_of_ne _ _ _ (Nat.ne_of_lt (List.mem_range.1 hi))
  constructor
  · rw [List.range_succ, List.map_append, List.map_singleton, upd_self, hold, ← List.append_assoc]
    exact (h.took.trans hreach).of_perm (List.perm_append_singleton _ _)
  · intro va' hva'
    rw [hlookup va' hva', h.lookup va' hva']
    simp only [in_pages hva]
    by_cases hlast : va' / 4096 = va / 4096 + k
    · have hindex : va' / 4096 - va / 4096 = k := by omega
      rw [if_pos hlast, if_pos (by omega), hindex, upd_self]
    · rw [if_neg hlast]
      by_cases hin : va / 4096 ≤ va' / 4096 ∧ va' / 4096 < va / 4096 + k
      · rw [if_pos hin, if_pos (by omega), upd_of_ne _ _ _ (by omega)]
      · rw [if_neg hin, if_neg (by omega)]
  · intro i hi
    by_cases hik : i = k
    · rw [hik, upd_self, hreach.mem _ (h.took.not_mem hs List.mem_cons_self), hr]
    · have hlt : i < k := by omega
      rw [upd_of_ne _ _ _ hik, hreach.mem _ (h.took.not_mem hs (mem_frames hlt)), h.content i hlt]

section Undo

variable (h : Extended kend s t pt va k f perm c x) (hs : Table kend s 2 pt)
  (hend : va + k * 4096 ≤ MAXVA) (hperm : ∀ i, i < k → Perm (perm i))

include h

theorem mapped (hend : va + k * 4096 ≤ MAXVA) : ∀ i, i < k → Vm.lookup t.mem pt (va + i * 4096) ≠ none := by
  intro i hi
  rw [h.lookup _ (by omega), if_pos (by omega)]
  exact Option.some_ne_none _

include hs hend hperm

theorem held : Held kend t pt (frames t.mem pt va k) := by
  rw [h.frames_eq hs hend hperm]
  exact (h.took.held hs).right

theorem removed (hnone : ∀ va', va ≤ va' → va' < va + k * 4096 → Vm.lookup s.mem pt va' = none)
    (hr : Removed kend t u pt va k (frames t.mem pt va k)) : Restored kend s u pt x := by
  rw [h.frames_eq hs hend hperm] at hr
  refine ⟨h.took.removed hr, fun va' hva' => ?_⟩
  rw [hr.lookup va' hva', h.lookup va' hva']
  by_cases hin : va ≤ va' ∧ va' < va + k * 4096
  · rw [if_pos hin, hnone va' hin.1 hin.2]
  · rw [if_neg hin, if_neg hin]

end Undo

end Extended

abbrev userPerm : Nat → Nat := fun _ => PTE_W ||| PTE_X ||| PTE_R ||| PTE_U

abbrev zeros : Nat → Bytes := fun _ _ => 0

theorem perm_userPerm (i : Nat) : Perm (userPerm i) := by
  change Perm (PTE_W ||| PTE_X ||| PTE_R ||| PTE_U)
  decide

section Alloc

variable {kend pt va k n K oldsz newsz : Nat} {s t : State} {f : Nat → Nat} {x : List Nat}

theorem Extended.dealloc (h : Extended kend s t pt va k f userPerm zeros x) (hs : Table kend s 2 pt)
    (hva : va % 4096 = 0) (hend : va + k * 4096 ≤ MAXVA)
    (hnone : ∀ va', va ≤ va' → va' < va + k * 4096 → Vm.lookup s.mem pt va' = none) :
    wp (uvmdealloc kend pt (va + k * 4096) va) (fun _ u => Restored kend s u pt x)
      (fun _ => False) t := by
  have hnew := PGROUNDUP_self hva (Nat.le_trans (Nat.le_add_right _ _) hend)
  have hold : PGROUNDUP (va + k * 4096) = va + k * 4096 := PGROUNDUP_self (by omega) hend
  have hheld := h.held hs hend fun i _ => perm_userPerm i
  have hle : va ≤ va + k * 4096 := Nat.le_add_right _ _
  apply (uvmdealloc_spec h.took.table hle hnew hold hend (h.mapped hend) hheld).imp
  rintro _ u ⟨-, hr⟩
  exact h.removed hs hend (fun i _ => perm_userPerm i) hnone hr

theorem growLoop_spec (hs : Table kend s 2 pt) (hva : va % 4096 = 0) (hend : va + K * 4096 ≤ MAXVA)
    (hK : ∀ k, va + k * 4096 < newsz ↔ k < K)
    (hnone : ∀ va', va ≤ va' → va' < va + K * 4096 → lookup s.mem pt va' = none)
    (h : Extended kend s t pt va k f userPerm zeros x) (hk : k ≤ K) (hn : K < n + k) :
    wp (growLoop kend pt va newsz n (va + k * 4096)) (fun r u =>
      r = newsz ∧ (∃ f, Extended kend s u pt va K f userPerm zeros x) ∨
      r = 0 ∧ Restored kend s u pt x) (fun _ => False) t := by
  induction n generalizing t k f with
  | zero => omega
  | succ n ih =>
    rw [growLoop]
    by_cases hmore : k < K
    · have hnext : va + k * 4096 + 4096 ≤ MAXVA := by omega
      have hwrap : va + k * 4096 + 4096 < 2 ^ 64 := Nat.lt_of_le_of_lt hnext (by decide)
      have hva' : (va + k * 4096) % 4096 = 0 := by omega
      have hpart : va + k * 4096 ≤ va + K * 4096 :=
        Nat.add_le_add_left (Nat.mul_le_mul_right 4096 hk) va
      -- the pages so far are given back
      have hback : ∀ {u}, Extended kend s u pt va k f userPerm zeros x →
          wp (uvmdealloc kend pt (va + k * 4096) va)
            (fun _ u => Restored kend s u pt x) (fun _ => False) u := by
        intro u hu
        apply hu.dealloc hs hva (Nat.le_trans hpart hend)
        intro va' hle hlt
        exact hnone va' hle (Nat.lt_of_lt_of_le hlt hpart)
      rw [if_pos ((hK k).2 hmore), wp_bind]
      apply wp_kalloc
      · intro _
        change wp (uvmdealloc _ _ _ _ >>= _) _ _ _
        rw [wp_bind]
        apply (hback h).imp
        intro _ u hu
        exact .inr ⟨rfl, hu⟩
      · intro r next hfree
        have hnew := h.kalloc hs (zeros k) hfree
        have hr : Page kend r := (hnew.took.held hs).pages r List.mem_cons_self
        have hpa : r < 2 ^ 56 := Nat.lt_trans hr.below (by decide)
        have hnone' : ∀ va', va + k * 4096 ≤ va' → va' < va + k * 4096 + 4096 →
            lookup (upd t.mem r (zeros k)) pt va' = none := by
          intro va' hle hlt'
          rw [hnew.lookup va' (by omega), if_neg (by omega)]
          exact hnone va' (by omega) (by omega)
        change wp (memset r 0 >>= _) _ _ _
        rw [wp_bind, wp_memset, wp_bind, upd_upd]
        apply (mappages_one hnew.took.table hva' hnext hpa (perm_userPerm k) hnone').imp
        rintro (_ | _) u ⟨hreach, hlookup⟩
        · have hsame := hnew.reach hs hreach fun va' hva' => by
            rw [hlookup va' hva', if_neg (fun h => nomatch h.1)]
          rw [if_neg Bool.false_ne_true, wp_bind]
          apply wp_kfree hr
          rw [wp_bind]
          apply (hback (hsame.kfree hs)).imp
          intro _ w hw
          exact .inr ⟨rfl, hw⟩
        · have hsnoc := hnew.snoc hs hva hreach (fun va' hva' => by
            rw [hlookup va' hva', Nat.add_mul_div_right _ _ (by decide)]
            simp only [true_and]) (upd_self _ _ _)
          rw [if_pos rfl, next_page hwrap, show va + k * 4096 + 4096 = va + (k + 1) * 4096 by omega]
          exact ih hsnoc hmore (by omega)
    · obtain rfl : k = K := by omega
      rw [if_neg (fun h => hmore ((hK k).1 h))]
      exact .inl ⟨rfl, f, h⟩

theorem uvmalloc_spec (hs : Table kend s 2 pt) (hle : oldsz ≤ newsz) (hold : PGROUNDUP oldsz = va)
    (hnew : PGROUNDUP newsz = va + K * 4096) (hend : va + K * 4096 ≤ MAXVA) (hmax : newsz ≤ MAXVA)
    (hnone : ∀ va', va ≤ va' → va' < va + K * 4096 → lookup s.mem pt va' = none) :
    wp (uvmalloc kend pt oldsz newsz) (fun r u =>
      r = newsz ∧ (∃ f, Extended kend s u pt va K f userPerm zeros []) ∨
      r = 0 ∧ Restored kend s u pt []) (fun _ => False) s := by
  have hfuel : K < rounds + 0 := by
    change va + K * 4096 ≤ 2 ^ 38 at hend
    change K < 67108865
    omega
  have hK : ∀ k, va + k * 4096 < newsz ↔ k < K := by
    change newsz ≤ 2 ^ 38 at hmax
    unfold PGROUNDUP at hold hnew
    intro k
    omega
  have hzero : Extended kend s s pt va 0 (fun _ => 0) userPerm zeros [] :=
    .zero ⟨.refl hs, fun _ _ => rfl⟩
  have hloop := growLoop_spec hs (hold ▸ PGROUNDUP_aligned oldsz) hend hK hnone hzero (Nat.zero_le K) hfuel
  rw [Nat.zero_mul, Nat.add_zero] at hloop
  rw [uvmalloc, if_neg (Nat.not_lt.2 hle), hold]
  exact hloop

end Alloc

end Xv6.Vm
