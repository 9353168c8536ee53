import Xv6.Vm.Grow

/-!
# The address space of a process

The pages below the size of a process are mapped, each to a page of its own, and nothing is
mapped between them and the trapframe.  `uvmalloc` and `uvmdealloc` move the size.
-/

namespace Xv6.Vm

open Lib Lib.Cmd

/-- The user part of an address space of `sz` bytes. -/
structure Space (kend : Nat) (s : State) (pt sz : Nat) : Prop where
  table : Table kend s 2 pt
  le : sz ≤ TRAPFRAME
  mapped : ∀ va, va < PGROUNDUP sz → lookup s.mem pt va ≠ none
  unmapped : ∀ va, PGROUNDUP sz ≤ va → va < TRAPFRAME → lookup s.mem pt va = none
  held : Held kend s pt (frames s.mem pt 0 (PGROUNDUP sz / 4096))

def Kept (s t : State) (pt top : Nat) : Prop :=
  ∀ va, va < top → lookup t.mem pt va = lookup s.mem pt va ∧
    t.mem (frame s.mem pt va) = s.mem (frame s.mem pt va)

def Zeroed (t : State) (pt bot top : Nat) : Prop :=
  ∀ va, bot ≤ va → va < top →
    ∃ pa, lookup t.mem pt va = some (entry pa (userPerm 0)) ∧ t.mem pa = fun _ => 0

section Frames

variable {mem : Nat → Bytes} {pt va m k : Nat}

theorem frames_add (mem : Nat → Bytes) (pt va m k : Nat) :
    frames mem pt va (m + k) = frames mem pt va m ++ frames mem pt (va + m * 4096) k := by
  unfold frames
  rw [List.range_add, List.map_append, List.map_map]
  congr 2
  funext i
  simp only [Function.comp]
  congr 1
  omega

theorem frame_mem (h : va / 4096 < k) : frame mem pt va ∈ frames mem pt 0 k := by
  apply List.mem_map.2
  have hpage : (0 + va / 4096 * 4096) / 4096 = va / 4096 := by omega
  exact ⟨va / 4096, List.mem_range.2 h, by rw [frame, frame, lookup_page hpage]⟩

end Frames

section Round

variable {sz : Nat}

theorem PGROUNDUP_div (sz : Nat) : PGROUNDUP sz / 4096 * 4096 = PGROUNDUP sz := by
  have haligned := PGROUNDUP_aligned sz
  omega

theorem PGROUNDUP_le (h : sz ≤ TRAPFRAME) : PGROUNDUP sz ≤ TRAPFRAME := by
  change sz ≤ 274877898752 at h
  change _ ≤ 274877898752
  unfold PGROUNDUP
  omega

theorem PGROUNDUP_mono {sz' : Nat} (hle : sz ≤ sz') (h : sz' ≤ TRAPFRAME) : PGROUNDUP sz ≤ PGROUNDUP sz' := by
  change sz' ≤ 274877898752 at h
  unfold PGROUNDUP
  omega

theorem TRAPFRAME_le : TRAPFRAME ≤ MAXVA := by decide

end Round

section Space

variable {kend pt sz oldsz newsz : Nat} {s t : State}

theorem Space.frame_not_mem (h : Space kend s pt sz) {va : Nat} (hva : va < PGROUNDUP sz) :
    frame s.mem pt va ∉ pages s.mem 2 pt ++ s.freelist := by
  apply h.held.not_mem
  apply frame_mem
  have hdiv := PGROUNDUP_div sz
  omega

theorem Held.append {l l' : List Nat} (h : Held kend s pt l) (ht : Took kend s t pt l')
    (hs : Table kend s 2 pt) : Held kend t pt (l ++ l') where
  pages := by
    intro q hq
    rcases List.mem_append.1 hq with hq | hq
    · exact h.pages q hq
    · exact (ht.held hs).pages q hq
  nodup := by
    refine List.Perm.nodup_iff ?_ |>.2 h.nodup
    calc Vm.pages t.mem 2 pt ++ (l ++ l' ++ t.freelist)
        _ |>.Perm (l ++ (Vm.pages t.mem 2 pt ++ (l' ++ t.freelist))) := by
          rw [List.append_assoc]
          exact List.perm_append_comm_assoc _ _ _
        _ |>.Perm (l ++ (Vm.pages s.mem 2 pt ++ s.freelist)) := ht.perm.append_left l
        _ |>.Perm (Vm.pages s.mem 2 pt ++ (l ++ s.freelist)) := List.perm_append_comm_assoc _ _ _

theorem Space.restored (h : Space kend s pt sz) (ht : Restored kend s t pt []) :
    Space kend t pt sz ∧ Kept s t pt (PGROUNDUP sz) := by
  have hmax := Nat.le_trans (PGROUNDUP_le h.le) TRAPFRAME_le
  have hframes : frames t.mem pt 0 (PGROUNDUP sz / 4096) = frames s.mem pt 0 (PGROUNDUP sz / 4096) := by
    apply frames_congr
    intro i hi
    apply ht.lookup
    have hdiv := PGROUNDUP_div sz
    omega
  refine ⟨⟨ht.took.table, h.le, ?_, ?_, ?_⟩, ?_⟩
  · intro va hva
    rw [ht.lookup va (Nat.lt_of_lt_of_le hva hmax)]
    exact h.mapped va hva
  · intro va hle hlt
    rw [ht.lookup va (Nat.lt_of_lt_of_le hlt TRAPFRAME_le)]
    exact h.unmapped va hle hlt
  · rw [hframes, ← List.append_nil (frames s.mem pt 0 _)]
    exact h.held.append ht.took h.table
  · intro va hva
    exact ⟨ht.lookup va (Nat.lt_of_lt_of_le hva hmax), ht.took.mem _ (h.frame_not_mem hva)⟩

theorem Space.extended {f : Nat → Nat} {k : Nat} (h : Space kend s pt oldsz) (hle : newsz ≤ TRAPFRAME)
    (hk : PGROUNDUP newsz = PGROUNDUP oldsz + k * 4096)
    (ht : Extended kend s t pt (PGROUNDUP oldsz) k f userPerm zeros []) :
    Space kend t pt newsz ∧ Kept s t pt (PGROUNDUP oldsz) ∧
      Zeroed t pt (PGROUNDUP oldsz) (PGROUNDUP newsz) := by
  have hnew := PGROUNDUP_le hle
  have hmax := Nat.le_trans hnew TRAPFRAME_le
  have hdiv := PGROUNDUP_div oldsz
  have hsame : ∀ va, va < PGROUNDUP oldsz → lookup t.mem pt va = lookup s.mem pt va := by
    intro va hva
    rw [ht.lookup va (by omega), if_neg (by omega)]
  have hcount : PGROUNDUP newsz / 4096 = PGROUNDUP oldsz / 4096 + k := by omega
  have hend : PGROUNDUP oldsz + k * 4096 ≤ MAXVA := hk ▸ hmax
  have hlow : frames t.mem pt 0 (PGROUNDUP oldsz / 4096) =
      frames s.mem pt 0 (PGROUNDUP oldsz / 4096) := by
    apply frames_congr
    intro i hi
    exact hsame _ (by omega)
  have hframes : frames t.mem pt 0 (PGROUNDUP newsz / 4096) =
      frames s.mem pt 0 (PGROUNDUP oldsz / 4096) ++ ([] ++ (List.range k).map f) := by
    rw [hcount, frames_add, Nat.zero_add, hdiv, List.nil_append, hlow,
      ht.frames_eq h.table hend (fun i _ => perm_userPerm i)]
  refine ⟨⟨ht.took.table, hle, ?_, ?_, ?_⟩, ?_, ?_⟩
  · intro va hva
    by_cases hold : va < PGROUNDUP oldsz
    · rw [hsame va hold]
      exact h.mapped va hold
    · rw [ht.lookup va (by omega), if_pos (by omega)]
      exact Option.some_ne_none _
  · intro va hle' hlt
    rw [ht.lookup va (Nat.lt_of_lt_of_le hlt TRAPFRAME_le), if_neg (by omega)]
    exact h.unmapped va (by omega) hlt
  · rw [hframes]
    exact h.held.append ht.took h.table
  · intro va hva
    exact ⟨hsame va hva, ht.took.mem _ (h.frame_not_mem hva)⟩
  · intro va hle' hlt
    refine ⟨f (va / 4096 - PGROUNDUP oldsz / 4096), ?_, ?_⟩
    · rw [ht.lookup va (by omega), if_pos (by omega)]
    · exact ht.content _ (by omega)

theorem uvmalloc_space (h : Space kend s pt oldsz) (hle : oldsz ≤ newsz) (hmax : newsz ≤ TRAPFRAME) :
    wp (uvmalloc kend pt oldsz newsz) (fun r t =>
      r = newsz ∧ Space kend t pt newsz ∧ Kept s t pt (PGROUNDUP oldsz) ∧
        Zeroed t pt (PGROUNDUP oldsz) (PGROUNDUP newsz) ∨
      r = 0 ∧ Space kend t pt oldsz ∧ Kept s t pt (PGROUNDUP oldsz)) (fun _ => False) s := by
  have hmono := PGROUNDUP_mono hle hmax
  have hnew := PGROUNDUP_le hmax
  have haligned := PGROUNDUP_aligned oldsz
  have haligned' := PGROUNDUP_aligned newsz
  obtain ⟨k, hk⟩ : ∃ k, PGROUNDUP newsz = PGROUNDUP oldsz + k * 4096 :=
    ⟨(PGROUNDUP newsz - PGROUNDUP oldsz) / 4096, by omega⟩
  have hend : PGROUNDUP oldsz + k * 4096 ≤ MAXVA := hk ▸ Nat.le_trans hnew TRAPFRAME_le
  have hnone : ∀ va, PGROUNDUP oldsz ≤ va → va < PGROUNDUP oldsz + k * 4096 →
      lookup s.mem pt va = none := by
    intro va hle hlt
    exact h.unmapped va hle (Nat.lt_of_lt_of_le hlt (hk ▸ hnew))
  apply (uvmalloc_spec h.table hle rfl hk hend (Nat.le_trans hmax TRAPFRAME_le) hnone).imp
  rintro r t (⟨hr, f, ht⟩ | ⟨hr, ht⟩)
  · exact .inl ⟨hr, h.extended hmax hk ht⟩
  · exact .inr ⟨hr, h.restored ht⟩

theorem Space.removed {k : Nat} (h : Space kend s pt oldsz) (hle : newsz ≤ oldsz)
    (hk : PGROUNDUP oldsz = PGROUNDUP newsz + k * 4096)
    (ht : Removed kend s t pt (PGROUNDUP newsz) k (frames s.mem pt (PGROUNDUP newsz) k)) :
    Space kend t pt newsz ∧ Kept s t pt (PGROUNDUP newsz) := by
  have hmax := Nat.le_trans (PGROUNDUP_le h.le) TRAPFRAME_le
  have hdiv := PGROUNDUP_div newsz
  have hcount : PGROUNDUP oldsz / 4096 = PGROUNDUP newsz / 4096 + k := by omega
  have hheld := h.held
  rw [hcount, frames_add, Nat.zero_add, hdiv] at hheld
  have hsame : ∀ va, va < PGROUNDUP newsz → lookup t.mem pt va = lookup s.mem pt va := by
    intro va hva
    rw [ht.lookup va (by omega), if_neg (by omega)]
  have hlow : frames t.mem pt 0 (PGROUNDUP newsz / 4096) =
      frames s.mem pt 0 (PGROUNDUP newsz / 4096) := by
    apply frames_congr
    intro i hi
    exact hsame _ (by omega)
  refine ⟨⟨ht.table, Nat.le_trans hle h.le, ?_, ?_, ?_⟩, ?_⟩
  · intro va hva
    rw [hsame va hva]
    exact h.mapped va (by omega)
  · intro va hle' hlt
    rw [ht.lookup va (Nat.lt_of_lt_of_le hlt TRAPFRAME_le)]
    by_cases hin : PGROUNDUP newsz ≤ va ∧ va < PGROUNDUP newsz + k * 4096
    · rw [if_pos hin]
    · rw [if_neg hin]
      exact h.unmapped va (by omega) hlt
  · rw [hlow]
    refine ⟨fun q hq => hheld.pages q (List.mem_append_left _ hq), ?_⟩
    rw [ht.pages, ht.freelist]
    refine (List.Perm.nodup_iff (.append_left _ ?_)).2 hheld.nodup
    rw [List.append_assoc]
    exact .append_left _ ((List.reverse_perm _).append_right _)
  · intro va hva
    have hmem : frame s.mem pt va ∈ frames s.mem pt 0 (PGROUNDUP newsz / 4096) :=
      frame_mem (by omega)
    refine ⟨hsame va hva, ht.mem _ ?_ ?_⟩
    · intro hin
      exact (List.nodup_append.1 hheld.nodup).2.2 _ hin _
        (List.mem_append_left _ (List.mem_append_left _ hmem)) rfl
    · intro hin
      have hrest := (List.nodup_append.1 (List.nodup_append.1 hheld.nodup).2.1).1
      exact (List.nodup_append.1 hrest).2.2 _ hmem _ hin rfl

theorem uvmdealloc_space (h : Space kend s pt oldsz) (hle : newsz ≤ oldsz) :
    wp (uvmdealloc kend pt oldsz newsz) (fun r t =>
      r = newsz ∧ Space kend t pt newsz ∧ Kept s t pt (PGROUNDUP newsz)) (fun _ => False) s := by
  have hmono := PGROUNDUP_mono hle h.le
  have haligned := PGROUNDUP_aligned oldsz
  have haligned' := PGROUNDUP_aligned newsz
  obtain ⟨k, hk⟩ : ∃ k, PGROUNDUP oldsz = PGROUNDUP newsz + k * 4096 :=
    ⟨(PGROUNDUP oldsz - PGROUNDUP newsz) / 4096, by omega⟩
  have hend : PGROUNDUP newsz + k * 4096 ≤ MAXVA :=
    hk ▸ Nat.le_trans (PGROUNDUP_le h.le) TRAPFRAME_le
  have hmapped : ∀ i, i < k → lookup s.mem pt (PGROUNDUP newsz + i * 4096) ≠ none := by
    intro i hi
    exact h.mapped _ (by omega)
  have hheld := h.held
  have hdiv := PGROUNDUP_div newsz
  have hcount : PGROUNDUP oldsz / 4096 = PGROUNDUP newsz / 4096 + k := by omega
  rw [hcount, frames_add, Nat.zero_add, hdiv] at hheld
  apply (uvmdealloc_spec h.table hle rfl hk hend hmapped hheld.right).imp
  rintro r t ⟨hr, ht⟩
  exact ⟨hr, h.removed hle hk ht⟩

end Space

end Xv6.Vm
