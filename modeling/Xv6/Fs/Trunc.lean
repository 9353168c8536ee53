import Xv6.Fs.Owned

/-!
# Giving blocks back

`itrunc` frees the blocks of a file one by one.  In between, the blocks at some places `P` are
free, though the indirect block may still name them.  A block is freed once because no two
places have the same one, so `bfree` never meets a block that is free.
-/

namespace Xv6.Fs

open Lib Lib.Cmd

def State.release (s : State) (b : Nat) : State :=
  s.put (s.sb.bblock b) (clearBit (s.bufs (s.sb.bblock b)) (b % 8192))

section

variable {s : State} {b x : Nat}

theorem bfree_ok (hout : 0 < s.outstanding) (h : s.used b = true) :
    bfree b s = .ok (⟨⟩, s.release b) := by
  have hbit : bit (s.bufs (s.sb.bblock b)) (b % 8192) = true := h
  unfold bfree
  rw [bind_ok (a := s) (t := s) rfl, bind_ok bread_ok, if_pos hbit]
  exact update_ok hout

theorem release_used : (s.release b).used x = (!decide (x = b) && s.used x) := by
  unfold State.release State.used
  rw [put_sb, put_bufs]
  by_cases hblock : s.sb.bblock x = s.sb.bblock b
  · have hiff : x % 8192 = b % 8192 ↔ x = b := by
      unfold Superblock.bblock at hblock
      omega
    rw [hblock, upd_self, bit_clearBit]
    simp only [hiff]
  · have hne : x ≠ b := by
      intro h
      exact hblock (by rw [h])
    rw [upd_of_ne _ _ _ hblock]
    simp [hne]

theorem release_bytes (hb : b < s.sb.size) (hx : x < s.sb.bmapstart ∨ s.sb.nmeta ≤ x) :
    (s.release b).bufs x = s.bufs x := by
  have hlow := s.sb.bmapstart_le_bblock b
  have hhigh := s.sb.bblock_lt hb
  unfold State.release
  rw [put_bufs, upd_of_ne]
  omega

end

structure Freed (k : Slot) (P : Nat → Prop) (s t : State) : Prop where
  lt : ∀ q, P q → q < 269
  sb : t.sb = s.sb
  outstanding : t.outstanding = s.outstanding
  others : ∀ k', k' ≠ k → t.inode k' = s.inode k'
  entry : t.inode k = { s.inode k with addrs := (t.inode k).addrs }
  bytes : ∀ x, x < s.sb.bmapstart ∨ s.sb.nmeta ≤ x → t.bufs x = s.bufs x
  used : ∀ x, t.used x = true ↔
    s.used x = true ∧ ∀ q, P q → (s.inode k).block s.bufs q = x → x = 0

namespace Freed

variable {s t : State} {k : Slot} {P P' : Nat → Prop} {q : Nat}

theorem refl (k : Slot) (s : State) : Freed k (fun _ => False) s s where
  lt _ h := h.elim
  sb := rfl
  outstanding := rfl
  others _ _ := rfl
  entry := rfl
  bytes _ _ := rfl
  used _ := ⟨fun h => ⟨h, fun _ hq => hq.elim⟩, fun h => h.1⟩

theorem congr (h : Freed k P s t) (hP : ∀ q, P' q ↔ P q) : Freed k P' s t := by
  have heq : P' = P := funext fun q => propext (hP q)
  rwa [heq]

theorem extend (h : Freed k P s t) (hlt : ∀ q, P' q → q < 269) (hmono : ∀ q, P q → P' q)
    (hzero : ∀ q, P' q → ¬P q → (s.inode k).block s.bufs q = 0) : Freed k P' s t where
  lt := hlt
  sb := h.sb
  outstanding := h.outstanding
  others := h.others
  entry := h.entry
  bytes := h.bytes
  used x := by
    rw [h.used x]
    constructor
    · intro hx
      refine ⟨hx.1, fun q hq heq => ?_⟩
      by_cases hold : P q
      · exact hx.2 q hold heq
      · rw [← heq, hzero q hq hold]
    · intro hx
      exact ⟨hx.1, fun q hq => hx.2 q (hmono q hq)⟩

theorem skip (h : Freed k P s t) (hq : q < 269) (hzero : (s.inode k).block s.bufs q = 0) :
    Freed k (fun q' => P q' ∨ q' = q) s t := by
  apply h.extend
  · rintro q' (hold | rfl)
    · exact h.lt q' hold
    · exact hq
  · exact fun q' hq' => .inl hq'
  · rintro q' (hold | rfl) hnot
    · exact absurd hold hnot
    · exact hzero

theorem free (h : Freed k P s t) (hs : Anchored k s) (hq : q < 269)
    (hne : (s.inode k).block s.bufs q ≠ 0) (hnot : ¬P q) (hout : 0 < s.outstanding) :
    bfree ((s.inode k).block s.bufs q) t = .ok (⟨⟩, t.release ((s.inode k).block s.bufs q)) ∧
      Freed k (fun q' => P q' ∨ q' = q) s (t.release ((s.inode k).block s.bufs q)) := by
  have hused : t.used ((s.inode k).block s.bufs q) = true := by
    rw [h.used]
    refine ⟨hs.used q hq hne, fun q' hq' heq => ?_⟩
    have hsame := hs.distinct q q' hq (h.lt q' hq') hne heq.symm
    exact absurd (hsame ▸ hq') hnot
  have hregion := hs.region q hq hne
  refine ⟨bfree_ok (h.outstanding ▸ hout) hused, ?_⟩
  constructor
  · intro q' hq'
    obtain hold | rfl := hq'
    · exact h.lt q' hold
    · exact hq
  · exact h.sb
  · exact h.outstanding
  · exact h.others
  · exact h.entry
  · intro x hx
    rw [release_bytes (by rw [h.sb]; exact hregion.2) (by rwa [h.sb]), h.bytes x hx]
  · intro x
    rw [release_used, Bool.and_eq_true, h.used x, Bool.not_eq_true', decide_eq_false_iff_not]
    constructor
    · intro hx
      refine ⟨hx.2.1, fun q' hq' heq => ?_⟩
      obtain hold | rfl := hq'
      · exact hx.2.2 q' hold heq
      · exact absurd heq.symm hx.1
    · intro hx
      refine ⟨fun heq => ?_, hx.1, fun q' hq' => hx.2 q' (.inl hq')⟩
      exact hne (heq ▸ hx.2 q (.inr rfl) heq.symm)

theorem withAddr (h : Freed k P s t) (p : Fin 13) : Freed k P s (t.withAddr k p 0) where
  lt := h.lt
  sb := h.sb
  outstanding := h.outstanding
  others k' hk' := by
    rw [← h.others k' hk']
    exact State.adjust_of_ne _ _ hk'
  entry := by
    rw [withAddr_inode, h.entry]
  bytes := h.bytes
  used := h.used

end Freed

/-!
## The loops
-/

section

variable {s t : State} {k : Slot}

theorem block_direct (d : Dinode) (bufs : Nat → Bytes) (i : Fin 12) :
    d.block bufs i = (getElem d.addrs i.castSucc i.castSucc.isLt).toNat := by
  have hi := i.isLt
  rw [Dinode.block, dif_pos (by omega)]
  rfl

theorem withAddr_addrs (s : State) (k : Slot) (p p' : Fin 13) (b : Nat) :
    getElem ((s.withAddr k p b).inode k).addrs p' p'.isLt =
      if p' = p then UInt32.ofNat b else getElem (s.inode k).addrs p' p'.isLt := by
  rw [withAddr_inode]
  by_cases hp : p' = p
  · rw [hp, if_pos rfl]
    exact Vector.getElem_set_self _
  · rw [if_neg hp]
    exact Vector.getElem_set_ne p.isLt p'.isLt fun heq => hp (Fin.ext heq.symm)

theorem setAddr_ok (s : State) (k : Slot) (p : Fin 13) (b : Nat) :
    setAddr k p b s = .ok (⟨⟩, s.withAddr k p b) := rfl

structure DirectLeft (k : Slot) (s : State) (l : List (Fin 12)) (t : State) : Prop where
  nodup : l.Nodup
  freed : Freed k (fun q => ∃ i : Fin 12, i ∉ l ∧ q = i) s t
  addrs : ∀ i : Fin 12, getElem (t.inode k).addrs i.castSucc i.castSucc.isLt =
    if i ∈ l then getElem (s.inode k).addrs i.castSucc i.castSucc.isLt else 0
  indirect : (t.inode k).indirect = (s.inode k).indirect

theorem DirectLeft.round (hs : Anchored k s) (hout : 0 < s.outstanding) {i : Fin 12}
    {l : List (Fin 12)} (h : DirectLeft k s (i :: l) t) :
    wp (do
      let ip ← entry k
      let a := ip.addrs[i.castSucc]
      if a = 0 then pure ⟨⟩
      else
        bfree a.toNat
        setAddr k i.castSucc 0) (fun _ u => DirectLeft k s l u) (fun _ => False) t := by
  have hnodup := List.nodup_cons.1 h.nodup
  have hthis := h.addrs i
  rw [if_pos (List.mem_cons_self ..)] at hthis
  have hlt : i.val < 269 := by omega
  have hplaces : ∀ q : Nat, (∃ i' : Fin 12, i' ∉ l ∧ q = i') ↔
      (∃ i' : Fin 12, i' ∉ i :: l ∧ q = i') ∨ q = i := by
    intro q
    constructor
    · rintro ⟨i', hi', rfl⟩
      by_cases heq : i' = i
      · exact .inr (by rw [heq])
      · exact .inl ⟨i', by simp [heq, hi'], rfl⟩
    · rintro (⟨i', hi', rfl⟩ | rfl)
      · exact ⟨i', fun hmem => hi' (List.mem_cons_of_mem _ hmem), rfl⟩
      · exact ⟨i, hnodup.1, rfl⟩
  rw [wp_bind, wp_of_ok (entry_ok k), hthis, wp_ite]
  constructor
  · intro hzero
    refine ⟨hnodup.2, ?_, ?_, h.indirect⟩
    · apply (h.freed.skip hlt _).congr hplaces
      rw [block_direct, hzero]
      rfl
    · intro i'
      rw [h.addrs i']
      by_cases heq : i' = i
      · rw [heq, if_pos (List.mem_cons_self ..), if_neg hnodup.1, hzero]
      · simp [heq]
  · intro hne
    have hblock : (s.inode k).block s.bufs i ≠ 0 := by
      rw [block_direct]
      intro hzero
      exact hne (UInt32.toNat_inj.1 hzero)
    have hnot : ¬∃ i' : Fin 12, i' ∉ i :: l ∧ i.val = i' := by
      rintro ⟨i', hi', heq⟩
      exact hi' (Fin.ext heq ▸ List.mem_cons_self ..)
    obtain ⟨hfree, hfreed⟩ := h.freed.free hs hlt hblock hnot hout
    rw [block_direct] at hfree hfreed
    rw [wp_bind, wp_of_ok hfree, wp_of_ok (setAddr_ok ..)]
    refine ⟨hnodup.2, (hfreed.congr hplaces).withAddr i.castSucc, ?_, ?_⟩
    · intro i'
      rw [withAddr_addrs]
      by_cases heq : i' = i
      · rw [heq, if_pos rfl, if_neg hnodup.1]
        rfl
      · rw [if_neg fun hcast => heq (Fin.castSucc_inj.1 hcast)]
        have hold := h.addrs i'
        simp only [List.mem_cons, heq, false_or] at hold
        exact hold
    · have hlast : (12 : Fin 13) ≠ i.castSucc := by
        intro heq
        have hval : 12 = i.val := congrArg Fin.val heq
        omega
      have hkept := withAddr_addrs (t.release (s.inode k).addrs[i.castSucc].toNat) k i.castSucc 12 0
      rw [if_neg hlast] at hkept
      exact hkept.trans h.indirect

theorem itruncDirect_left (hs : Anchored k s) (hout : 0 < s.outstanding) :
    wp (itruncDirect k) (fun _ t => DirectLeft k s [] t) (fun _ => False) s := by
  apply wp_forM (I := DirectLeft k s)
  · intro i l t ht
    exact ht.round hs hout
  · refine ⟨List.nodup_finRange 12, ?_, ?_, rfl⟩
    · apply (Freed.refl k s).congr
      intro q
      simp
    · intro i
      rw [if_pos (List.mem_finRange i)]

structure IndirectLeft (k : Slot) (s t : State) (l : List Nat) (u : State) : Prop where
  nodup : l.Nodup
  lt : ∀ j, j ∈ l → j < 256
  freed : Freed k (fun q => q < 12 ∨ ∃ j, j < 256 ∧ j ∉ l ∧ q = 13 + j) s u
  inode : u.inode = t.inode

theorem block_entry {d : Dinode} {bufs : Nat → Bytes} {j : Nat} (h : d.indirect ≠ 0) :
    d.block bufs (13 + j) = word (bufs d.indirect.toNat) (4 * j) 4 := by
  rw [Dinode.block, dif_neg (by omega), if_neg h, Nat.add_sub_cancel_left]

theorem IndirectLeft.round (hs : Anchored k s) (hout : 0 < s.outstanding)
    (hind : (s.inode k).indirect ≠ 0) {u : State} {j : Nat} {l : List Nat}
    (h : IndirectLeft k s t (j :: l) u) :
    wp (if word (s.bufs (s.inode k).indirect.toNat) (4 * j) 4 = 0 then pure ⟨⟩
      else bfree (word (s.bufs (s.inode k).indirect.toNat) (4 * j) 4))
      (fun _ v => IndirectLeft k s t l v) (fun _ => False) u := by
  have hnodup := List.nodup_cons.1 h.nodup
  have hj := h.lt j (List.mem_cons_self ..)
  have hlt : 13 + j < 269 := by omega
  have hrest : ∀ j', j' ∈ l → j' < 256 := fun j' hj' => h.lt j' (List.mem_cons_of_mem _ hj')
  have hplaces : ∀ q, (q < 12 ∨ ∃ j', j' < 256 ∧ j' ∉ l ∧ q = 13 + j') ↔
      (q < 12 ∨ ∃ j', j' < 256 ∧ j' ∉ j :: l ∧ q = 13 + j') ∨ q = 13 + j := by
    intro q
    constructor
    · rintro (hq | ⟨j', hj', hnot, rfl⟩)
      · exact .inl (.inl hq)
      · by_cases heq : j' = j
        · exact .inr (by rw [heq])
        · exact .inl (.inr ⟨j', hj', by simp [heq, hnot], rfl⟩)
    · rintro ((hq | ⟨j', hj', hnot, rfl⟩) | rfl)
      · exact .inl hq
      · exact .inr ⟨j', hj', fun hmem => hnot (List.mem_cons_of_mem _ hmem), rfl⟩
      · exact .inr ⟨j, hj, hnodup.1, rfl⟩
  rw [← block_entry hind, wp_ite]
  constructor
  · intro hzero
    exact ⟨hnodup.2, hrest, (h.freed.skip hlt hzero).congr hplaces, h.inode⟩
  · intro hne
    have hnot : ¬(13 + j < 12 ∨ ∃ j', j' < 256 ∧ j' ∉ j :: l ∧ 13 + j = 13 + j') := by
      rintro (hlow | ⟨j', -, hnot, heq⟩)
      · omega
      · obtain rfl : j' = j := by omega
        exact hnot (List.mem_cons_self ..)
    obtain ⟨hfree, hfreed⟩ := h.freed.free hs hlt hne hnot hout
    rw [wp_of_ok hfree]
    exact ⟨hnodup.2, hrest, hfreed.congr hplaces, h.inode⟩

structure Emptied (k : Slot) (s t : State) : Prop where
  freed : Freed k (fun q => q < 269) s t
  addrs : ∀ p : Fin 13, getElem (t.inode k).addrs p p.isLt = 0

theorem fin13_cases {motive : Fin 13 → Prop} (h : ∀ i : Fin 12, motive i.castSucc)
    (hlast : motive 12) (p : Fin 13) : motive p := by
  by_cases hp : p.val < 12
  · exact h ⟨p, hp⟩
  · have heq : p = 12 := Fin.ext (by change p.val = 12; omega)
    rw [heq]
    exact hlast

theorem itruncIndirect_emptied (hs : Anchored k s) (hout : 0 < s.outstanding)
    (h : DirectLeft k s [] t) :
    wp (itruncIndirect k) (fun _ u => Emptied k s u) (fun _ => False) t := by
  have hdirect : ∀ i : Fin 12, (t.inode k).addrs[i.castSucc] = 0 := by
    intro i
    rw [h.addrs i, if_neg (List.not_mem_nil)]
  have hlow : ∀ q : Nat, q < 12 ↔ ∃ i : Fin 12, i ∉ [] ∧ q = i := by
    intro q
    constructor
    · intro hq
      exact ⟨⟨q, hq⟩, List.not_mem_nil, rfl⟩
    · rintro ⟨i, -, rfl⟩
      exact i.isLt
  have hfreed := h.freed.congr hlow
  unfold itruncIndirect
  rw [wp_bind, wp_of_ok (entry_ok k), wp_ite, h.indirect]
  constructor
  · intro hzero
    constructor
    · apply hfreed.extend
      · exact fun q hq => hq
      · intro q hq
        omega
      · intro q hq hnot
        by_cases hlast : q < 13
        · obtain rfl : q = 12 := by omega
          rw [Dinode.block_indirect, hzero]
          rfl
        · rw [Dinode.block, dif_neg hlast, if_pos hzero]
    · exact fin13_cases (motive := fun p => (t.inode k).addrs[p] = 0) hdirect
        (h.indirect.trans hzero)
  · intro hne
    obtain ⟨hdata, hsize⟩ := hs.indirect hne
    rw [wp_bind, wp_of_ok bread_ok, hfreed.bytes _ (.inr hdata), wp_bind]
    have hstart : IndirectLeft k s t (List.range 256) t := by
      refine ⟨List.nodup_range, fun j hj => List.mem_range.1 hj, hfreed.congr ?_, rfl⟩
      intro q
      constructor
      · rintro (hq | ⟨j, hj, hnot, -⟩)
        · exact hq
        · exact absurd (List.mem_range.2 hj) hnot
      · exact .inl
    have hloop := wp_forM (E := fun _ => False) (I := IndirectLeft k s t)
      (fun j l u hu => hu.round hs hout hne) hstart
    apply hloop.imp
    intro _ u hu
    have hblock : (s.inode k).block s.bufs 12 ≠ 0 := by
      rw [Dinode.block_indirect]
      exact fun hzero => hne (UInt32.toNat_inj.1 hzero)
    have hnot : ¬(12 < 12 ∨ ∃ j, j < 256 ∧ j ∉ ([] : List Nat) ∧ 12 = 13 + j) := by
      rintro (hlow | ⟨j, -, -, heq⟩)
      · omega
      · omega
    obtain ⟨hfree, hall⟩ := hu.freed.free hs (show 12 < 269 by omega) hblock hnot hout
    rw [Dinode.block_indirect] at hfree hall
    rw [wp_bind, wp_of_ok hfree, wp_of_ok (setAddr_ok ..)]
    constructor
    · apply (hall.congr _).withAddr 12
      intro q
      constructor
      · intro hq
        by_cases hq12 : q < 12
        · exact .inl (.inl hq12)
        · by_cases heq : q = 12
          · exact .inr heq
          · exact .inl (.inr ⟨q - 13, by omega, List.not_mem_nil, by omega⟩)
      · rintro ((hq | ⟨j, hj, -, rfl⟩) | rfl)
        · omega
        · omega
        · omega
    · have hinode : (u.release (s.inode k).indirect.toNat).inode = t.inode := hu.inode
      apply fin13_cases
      · intro i
        rw [withAddr_addrs, if_neg, hinode]
        · exact hdirect i
        · intro heq
          have hval : i.val = 12 := congrArg Fin.val heq
          omega
      · rw [withAddr_addrs, if_pos rfl]
        rfl

theorem itrunc_emptied (hs : Anchored k s) (hout : 0 < s.outstanding) :
    wp (itrunc k) (fun _ t => ∃ u, Emptied k s u ∧ t = u.flush k fun ip => { ip with size := 0 })
      (fun _ => False) s := by
  unfold itrunc
  rw [wp_bind]
  apply (itruncDirect_left hs hout).imp
  intro _ t ht
  rw [wp_bind]
  apply (itruncIndirect_emptied hs hout ht).imp
  intro _ u hu
  have hout' : 0 < u.outstanding := hu.freed.outstanding ▸ hout
  have hset : setEntry k (fun ip => { ip with size := 0 }) u =
      .ok (⟨⟩, u.adjust k fun ip => { ip with size := 0 }) := rfl
  rw [wp_bind, wp_of_ok hset, wp_of_ok (iupdate_adjust hout')]
  exact ⟨u, hu, rfl⟩

end

end Xv6.Fs
