import Xv6.Fs.Owned

/-!
# Writing to a file

The loop of `writei` replaces a range of bytes, as long as the source is mapped and there are
free blocks.  A copy that fails before it has moved a byte ends the loop with nothing lost.
-/

namespace Xv6.Fs

open Lib Lib.Cmd

/-!
## The source
-/

/-- Byte `i` of the source, if it is mapped. -/
def Src.byte : Src → Nat → Option UInt8
  | user mem addr, i => mem.byte (addr + i)
  | kernel bytes, i => some (bytes i)

section

variable {src : Src} {d : Bytes} {o tot m : Nat}

theorem eitherCopyin_ok (h : ∀ i, i < m → (src.byte (tot + i)).isSome) :
    eitherCopyin d o src tot m = (blit d o m fun j => (src.byte (tot + j)).getD 0, true) := by
  cases src with
  | user mem addr =>
    have hmapped : ∀ i, i < m → (mem.byte (addr + tot + i)).isSome := by
      intro i hi
      rw [Nat.add_assoc]
      exact h i hi
    have hcopy := copyin_byte d o (Nat.lt_succ_self m) hmapped
    simp only [Nat.add_assoc] at hcopy
    exact hcopy
  | kernel bytes => rfl

theorem mapped_of_eitherCopyin (h : (eitherCopyin d o src tot m).2 = true) :
    ∀ i, i < m → (src.byte (tot + i)).isSome := by
  cases src with
  | user mem addr =>
    intro i hi
    have hmapped := mapped_of_copyin d o (Nat.lt_succ_self m) h i hi
    rwa [Nat.add_assoc] at hmapped
  | kernel bytes =>
    intro i _
    rfl

theorem eitherCopyin_none (hm : 0 < m) (h : src.byte tot = none) :
    eitherCopyin d o src tot m = (d, false) := by
  cases src with
  | user mem addr => exact copyin_none d o (Nat.succ_pos m) hm h
  | kernel bytes => cases h

end

/-!
## Pieces
-/

def State.piece (s : State) (k : Slot) (j : Nat) : Bytes :=
  s.bufs (ptr s.bufs (s.inode k).toDinode j)

section

variable {s t u : State} {k : Slot} {j j' p b : Nat}

theorem Grown.piece (hg : Grown k p b s t) (h : Anchored k s) (hj : j < 268)
    (hne : ptr s.bufs (s.inode k).toDinode j ≠ 0) :
    ptr t.bufs (t.inode k).toDinode j = ptr s.bufs (s.inode k).toDinode j ∧
    t.piece k j = s.piece k j := by
  have hlt := placeOf_lt hj
  rw [ptr_eq_block] at hne
  have hptr : ptr t.bufs (t.inode k).toDinode j = ptr s.bufs (s.inode k).toDinode j := by
    rw [ptr_eq_block, ptr_eq_block, hg.block _ hlt, if_neg]
    intro hp
    exact hne (hp ▸ hg.old)
  refine ⟨hptr, ?_⟩
  unfold State.piece
  rw [hptr, ptr_eq_block]
  apply hg.data _ (h.region _ hlt hne).1 (h.ne_of_free hg.fresh _ hlt)
  intro heq
  have hind : (s.inode k).block s.bufs 12 = (s.inode k).indirect.toNat := Dinode.block_indirect
  rw [← hind] at heq
  exact placeOf_ne j (h.distinct _ 12 hlt (by omega) hne heq)

theorem Mapped.piece (hm : Mapped k j s b t) (h : Anchored k s) (hj : j < 268) (hj' : j' < 268)
    (hne : ptr s.bufs (s.inode k).toDinode j' ≠ 0) :
    ptr t.bufs (t.inode k).toDinode j' = ptr s.bufs (s.inode k).toDinode j' ∧
    t.piece k j' = s.piece k j' := by
  obtain ⟨rfl, -, -⟩ | hg | ⟨a, u, hg, hg'⟩ := hm.grown h hj
  · exact ⟨rfl, rfl⟩
  · exact hg.piece h hj' hne
  · obtain ⟨hptr, hpiece⟩ := hg.piece h hj' hne
    obtain ⟨hptr', hpiece'⟩ := hg'.piece (h.grow hg) hj' (hptr ▸ hne)
    exact ⟨hptr'.trans hptr, hpiece'.trans hpiece⟩

theorem Mapped.clean (hm : Mapped k j s b t) (h : Anchored k s) (hj : j < 268)
    (hclean : s.bufs = s.disk) : t.bufs = t.disk := by
  obtain ⟨rfl, -, -⟩ | hg | ⟨a, u, hg, hg'⟩ := hm.grown h hj
  · exact hclean
  · exact hg.clean hclean
  · exact hg'.clean (hg.clean hclean)

theorem piece_write {d : Bytes} (h : Anchored k s) (hj : j < 268) (hj' : j' < 268)
    (hne : ptr s.bufs (s.inode k).toDinode j ≠ 0) (hsb : t.sb = s.sb) (hinode : t.inode = s.inode)
    (hbufs : t.bufs = upd s.bufs (ptr s.bufs (s.inode k).toDinode j) d) :
    ptr t.bufs (t.inode k).toDinode j' = ptr s.bufs (s.inode k).toDinode j' ∧
    (ptr s.bufs (s.inode k).toDinode j' ≠ 0 →
      t.piece k j' = if j' = j then d else s.piece k j') := by
  have hlt := placeOf_lt hj
  have hlt' := placeOf_lt hj'
  rw [ptr_eq_block] at hne hbufs
  have hblock := (h.write hlt (placeOf_ne j) hne hsb (by rw [hinode]) hbufs).2
  have hptr : ptr t.bufs (t.inode k).toDinode j' = ptr s.bufs (s.inode k).toDinode j' := by
    rw [ptr_eq_block, ptr_eq_block, hblock]
  refine ⟨hptr, fun hne' => ?_⟩
  unfold State.piece
  rw [hptr, hbufs, ptr_eq_block] at *
  by_cases hjj : j' = j
  · rw [if_pos hjj, hjj, upd_self]
  · rw [if_neg hjj, upd_of_ne]
    intro heq
    exact hjj (placeOf_inj (h.distinct _ _ hlt' hlt hne' heq))

end

structure Wrote (k : Slot) (off m : Nat) (f : Nat → UInt8) (s t : State) : Prop where
  touched : Touched k s t
  filled : ∀ o, off ≤ o → o < off + m → ptr t.bufs (t.inode k).toDinode (o / 1024) ≠ 0 ∧
    t.piece k (o / 1024) (o % 1024) = f (o - off)
  kept : ∀ o, o < off ∨ off + m ≤ o → o / 1024 < 268 →
    ptr s.bufs (s.inode k).toDinode (o / 1024) ≠ 0 →
    t.piece k (o / 1024) (o % 1024) = s.piece k (o / 1024) (o % 1024)
  clean : s.bufs = s.disk → t.bufs = t.disk

section

variable {s t u : State} {k : Slot} {off m m' j b : Nat} {f : Nat → UInt8}

theorem Touched.ptr (h : Touched k s t) (hj : j < 268)
    (hne : ptr s.bufs (s.inode k).toDinode j ≠ 0) :
    Fs.ptr t.bufs (t.inode k).toDinode j = Fs.ptr s.bufs (s.inode k).toDinode j := by
  rw [ptr_eq_block] at hne
  rw [ptr_eq_block, ptr_eq_block]
  exact h.own _ (placeOf_lt hj) hne

theorem Wrote.refl (h : Owned k s) : Wrote k off 0 f s s where
  touched := .refl h
  filled o ho ho' := by omega
  kept _ _ _ _ := rfl
  clean h := h

theorem Wrote.trans (h : Wrote k off m f s t) (h' : Wrote k (off + m) m' (fun i => f (m + i)) t u)
    (hmax : off + m + m' ≤ 268 * 1024) : Wrote k off (m + m') f s u where
  touched := h.touched.trans h'.touched
  filled o ho ho' := by
    by_cases hlast : off + m ≤ o
    · obtain ⟨hptr, hbyte⟩ := h'.filled o hlast (by omega)
      refine ⟨hptr, ?_⟩
      rw [hbyte, show m + (o - (off + m)) = o - off by omega]
    · obtain ⟨hptr, hbyte⟩ := h.filled o ho (by omega)
      have hj : o / 1024 < 268 := by omega
      refine ⟨?_, ?_⟩
      · rw [h'.touched.ptr hj hptr]
        exact hptr
      · rw [h'.kept o (by omega) hj hptr, hbyte]
  kept o ho hj hptr := by
    rw [h'.kept o (by omega) hj (by rw [h.touched.ptr hj hptr]; exact hptr),
      h.kept o (by omega) hj hptr]
  clean hs := h'.clean (h.clean hs)

theorem wrote_round (h : Owned k s) (hm : Mapped k (off / 1024) s b t) (hj : off / 1024 < 268)
    (hlen : off % 1024 + m ≤ 1024) :
    Wrote k off m f s (t.put b (blit (t.bufs b) (off % 1024) m f)) := by
  have hanchored := h.anchored
  have htouched := hm.touched h hj
  obtain ⟨ht, hblock, hne⟩ := hm.anchored hanchored hj
  have hb : ptr t.bufs (t.inode k).toDinode (off / 1024) = b := by rw [ptr_eq_block, hblock]
  have hwrite : ∀ {j'}, j' < 268 →
      ptr (t.put b (blit (t.bufs b) (off % 1024) m f)).bufs
        ((t.put b (blit (t.bufs b) (off % 1024) m f)).inode k).toDinode j' =
        ptr t.bufs (t.inode k).toDinode j' ∧
      (ptr t.bufs (t.inode k).toDinode j' ≠ 0 →
        (t.put b (blit (t.bufs b) (off % 1024) m f)).piece k j' =
          if j' = off / 1024 then blit (t.bufs b) (off % 1024) m f else t.piece k j') := by
    intro j' hj'
    exact piece_write ht hj hj' (hb ▸ hne) rfl rfl (by rw [hb, put_bufs])
  constructor
  · apply htouched.trans
    exact htouched.owned.write hj (hblock ▸ hne) rfl rfl rfl (by rw [hblock, put_bufs])
  · intro o ho ho'
    have hdiv : o / 1024 = off / 1024 := by omega
    have hmod : o % 1024 = off % 1024 + (o - off) := by omega
    obtain ⟨hptr, hpiece⟩ := hwrite hj
    rw [hdiv, hmod]
    refine ⟨?_, ?_⟩
    · rw [hptr, hb]
      exact hne
    · rw [hpiece (hb ▸ hne), if_pos rfl, blit_inside (by omega) (by omega)]
      congr 1
      omega
  · intro o ho hjo hptro
    obtain ⟨hptr', hpiece'⟩ := hm.piece hanchored hj hjo hptro
    rw [(hwrite hjo).2 (hptr' ▸ hptro)]
    by_cases hsame : o / 1024 = off / 1024
    · rw [if_pos hsame, blit_outside (by omega), ← hpiece', State.piece, hsame, hb]
    · rw [if_neg hsame, hpiece']
  · intro hclean
    rw [put_bufs, put_disk, hm.clean hanchored hj hclean]

end

/-!
## Free blocks
-/

/-- The blocks that pieces `lo` to `hi` still have to get. -/
def State.needs (s : State) (k : Slot) (lo hi : Nat) : Nat :=
  ((Finset.Ico lo hi).filter fun j => ptr s.bufs (s.inode k).toDinode j = 0).card +
    if (s.inode k).indirect = 0 ∧ 12 < hi ∧ lo < hi then 1 else 0

section

variable {s t : State} {k : Slot} {j b hi : Nat}

theorem needs_le (s : State) (k : Slot) (lo hi : Nat) : s.needs k lo hi ≤ hi - lo + 1 := by
  have hpieces := Finset.card_filter_le (Finset.Ico lo hi)
    fun j => ptr s.bufs (s.inode k).toDinode j = 0
  rw [Nat.card_Ico] at hpieces
  unfold State.needs
  split <;> omega

/-- A piece without a block needs one, and another for the indirect block. -/
theorem need_of_zero (h : ptr s.bufs (s.inode k).toDinode j = 0) :
    s.need k j = if 12 ≤ j ∧ (s.inode k).indirect = 0 then 2 else 1 := by
  rw [State.need, if_neg (not_not.2 h)]

theorem free_put {d : Bytes} (hb : s.sb.nmeta ≤ b) : (s.put b d).free = s.free := by
  ext x
  rw [mem_free, mem_free, put_sb]
  constructor
  · intro hx
    rwa [put_used hb hx.1] at hx
  · intro hx
    rwa [put_used hb hx.1]

theorem free_enter (h : s.sb.nmeta ≤ (s.inode k).indirect.toNat) :
    (s.enter k j b).free = s.free := free_put h

/-- What `bmap` takes of the free blocks, and what becomes of the indirect block. -/
theorem Mapped.card (hm : Mapped k j s b t) (h : Anchored k s) :
    t.free.card + s.need k j = s.free.card ∧
    ((t.inode k).indirect ≠ 0 ∧ s.need k j = 2 ∨
      (t.inode k).indirect = (s.inode k).indirect ∧ s.need k j < 2) := by
  cases hm with
  | present hptr =>
    have hneed : s.need k j = 0 := by rw [State.need, if_pos hptr]
    exact ⟨by omega, .inr ⟨rfl, by omega⟩⟩
  | direct hj hzero hb =>
    have hneed : s.need k j = 1 := by
      rw [need_of_zero (by rw [ptr_direct hj, hzero]; rfl), if_neg (by omega)]
    have hcard := card_free_alloc h.metaUsed hb
    refine ⟨?_, .inr ⟨?_, by omega⟩⟩
    · rw [hneed]
      exact hcard
    · rw [withAddr_inode]
      exact Vector.getElem_set_ne (by omega) (by omega) (by change j ≠ 12; omega)
  | entry hj hind hzero hb =>
    have hneed : s.need k j = 1 := by
      rw [need_of_zero (by rw [ptr_indirect hj hind, hzero]), if_neg (fun hn => hind hn.2)]
    have hcard := card_free_alloc h.metaUsed hb
    have hfree : ((s.alloc b).enter k j b).free = (s.alloc b).free := free_enter (h.indirect hind).1
    refine ⟨?_, .inr ⟨rfl, by omega⟩⟩
    rw [hneed, hfree]
    exact hcard
  | @indirect a _ hj hind ha hb =>
    have hneed : s.need k j = 2 := by
      rw [need_of_zero (ptr_no_indirect hj hind), if_pos ⟨hj, hind⟩]
    have hu := h.grow (h.grown_indirect hind ha)
    have hne : (((s.alloc a).withAddr k 12 a).inode k).indirect ≠ 0 := by
      rw [withAddr_indirect]
      exact ofNat_ne_zero (lt_of_free h.layout ha) (pos_of_free h.metaUsed ha)
    have hcard : (s.alloc a).free.card + 1 = s.free.card := card_free_alloc h.metaUsed ha
    have hcard' : (((s.alloc a).withAddr k 12 a).alloc b).free.card + 1 = (s.alloc a).free.card :=
      card_free_alloc hu.metaUsed hb
    have hfree : ((((s.alloc a).withAddr k 12 a).alloc b).enter k j b).free =
        (((s.alloc a).withAddr k 12 a).alloc b).free := free_enter (hu.indirect hne).1
    refine ⟨?_, .inl ⟨hne, hneed⟩⟩
    rw [hneed, hfree]
    omega

theorem Mapped.ptr (hm : Mapped k j s b t) (h : Anchored k s) (hj : j < 268) {j' : Nat}
    (hj' : j' < 268) (hne : j' ≠ j) :
    Fs.ptr t.bufs (t.inode k).toDinode j' = Fs.ptr s.bufs (s.inode k).toDinode j' := by
  have hlt := placeOf_lt hj'
  have hplace : placeOf j' ≠ placeOf j := fun heq => hne (placeOf_inj heq)
  rw [ptr_eq_block, ptr_eq_block]
  obtain ⟨rfl, -, -⟩ | hg | ⟨a, u, hg, hg'⟩ := hm.grown h hj
  · rfl
  · rw [hg.block _ hlt, if_neg hplace]
  · rw [hg'.block _ hlt, if_neg hplace, hg.block _ hlt, if_neg (placeOf_ne _)]

theorem Mapped.needs (hm : Mapped k j s b t) (h : Anchored k s) (hj : j < hi) (hhi : hi ≤ 268) :
    t.needs k (j + 1) hi + s.need k j ≤ s.needs k j hi := by
  have hsame : ((Finset.Ico (j + 1) hi).filter fun j' => Fs.ptr t.bufs (t.inode k).toDinode j' = 0) =
      (Finset.Ico (j + 1) hi).filter fun j' => Fs.ptr s.bufs (s.inode k).toDinode j' = 0 := by
    apply Finset.filter_congr
    intro j' hj'
    rw [Finset.mem_Ico] at hj'
    rw [hm.ptr h (by omega) (by omega) (by omega)]
  have hsplit : insert j (Finset.Ico (j + 1) hi) = Finset.Ico j hi := by
    ext x
    rw [Finset.mem_insert, Finset.mem_Ico, Finset.mem_Ico]
    omega
  have hnot : j ∉ (Finset.Ico (j + 1) hi).filter fun j' =>
      Fs.ptr s.bufs (s.inode k).toDinode j' = 0 := by
    rw [Finset.mem_filter, Finset.mem_Ico]
    omega
  obtain ⟨-, hind⟩ := hm.card h
  unfold State.needs
  rw [hsame, ← hsplit, Finset.filter_insert]
  by_cases hptr : Fs.ptr s.bufs (s.inode k).toDinode j = 0
  · rw [if_pos hptr, Finset.card_insert_of_notMem hnot]
    have hneed := need_of_zero hptr
    obtain ⟨hnew, htwo⟩ | ⟨hold, hone⟩ := hind
    · -- the indirect block is new, too
      rw [htwo] at hneed
      have hboth : 12 ≤ j ∧ (s.inode k).indirect = 0 := by
        by_contra hnot
        rw [if_neg hnot] at hneed
        cases hneed
      rw [htwo, if_neg (fun hn => hnew hn.1), if_pos ⟨hboth.2, by omega, hj⟩]
    · rw [hold]
      split
      · rename_i hlater
        rw [if_pos ⟨hlater.1, hlater.2.1, hj⟩]
        omega
      · omega
  · rw [if_neg hptr]
    obtain ⟨rfl, -⟩ := hm.of_ptr hptr
    have hneed : t.need k j = 0 := by rw [State.need, if_pos hptr]
    rw [hneed]
    split
    · rename_i hlater
      rw [if_pos ⟨hlater.1, hlater.2.1, hj⟩]
    · omega

end

/-!
## The loop
-/

/-- The end of the pieces that bytes up to `e` touch. -/
def pieceEnd (e : Nat) : Nat := (e + 1023) / 1024

/-- In every piece of the file the source is mapped from the first byte on, or not at all.
The bytes from `tot` on go to offset `off`. -/
def Src.InPieces (src : Src) (n tot off : Nat) : Prop :=
  ∀ c, tot ≤ c → c < n → c = tot ∨ (off + (c - tot)) % 1024 = 0 → (src.byte c).isSome →
    ∀ i, i < min (n - c) (1024 - (off + (c - tot)) % 1024) → (src.byte (c + i)).isSome

theorem Src.InPieces.next {src : Src} {n tot off m : Nat} (h : src.InPieces n tot off)
    (hm : m = min (n - tot) (1024 - off % 1024)) : src.InPieces n (tot + m) (off + m) := by
  intro c hc hcn hstart
  have hoff : off + m + (c - (tot + m)) = off + (c - tot) := by omega
  rw [hoff] at hstart ⊢
  apply h c (by omega) hcn
  by_cases hfirst : c = tot + m
  · right
    have hless : m = 1024 - off % 1024 := by omega
    have haligned : (off + m) % 1024 = 0 := by omega
    rw [hfirst, Nat.add_sub_cancel_left]
    exact haligned
  · exact .inr (hstart.resolve_left hfirst)

section

variable {s t : State} {k : Slot} {src : Src} {b j hi n fuel tot off : Nat} {f : Nat → UInt8}

theorem wrote_mapped (h : Owned k s) (hm : Mapped k j s b t) (hj : j < 268) :
    Wrote k off 0 f s t where
  touched := hm.touched h hj
  filled o ho ho' := by omega
  kept o _ hjo hptr := by rw [(hm.piece h.anchored hj hjo hptr).2]
  clean := hm.clean h.anchored hj

theorem needs_put (lo hi : Nat) (d : Bytes) (h : Anchored k t) (hj : j < 268)
    (hb : (t.inode k).block t.bufs (placeOf j) = b) (hne : b ≠ 0) :
    (t.put b d).free = t.free ∧ (t.put b d).needs k lo hi = t.needs k lo hi := by
  subst hb
  refine ⟨free_put (h.region _ (placeOf_lt hj) hne).1, ?_⟩
  have hsame : ((Finset.Ico lo hi).filter fun j' =>
      ptr (t.put ((t.inode k).block t.bufs (placeOf j)) d).bufs (t.inode k).toDinode j' = 0) =
      (Finset.Ico lo hi).filter fun j' => ptr t.bufs (t.inode k).toDinode j' = 0 := by
    apply Finset.filter_congr
    intro j' _
    have hwrite := (h.write (t := t.put _ d) (placeOf_lt hj) (placeOf_ne j) hne rfl rfl put_bufs).2
    rw [put_inode] at hwrite
    rw [ptr_eq_block, ptr_eq_block, hwrite]
  unfold State.needs
  rw [put_inode, hsame]

theorem need_le_needs (h : j < hi) : s.need k j ≤ s.needs k j hi := by
  by_cases hptr : ptr s.bufs (s.inode k).toDinode j = 0
  · have hmem : j ∈ (Finset.Ico j hi).filter fun j => ptr s.bufs (s.inode k).toDinode j = 0 := by
      rw [Finset.mem_filter, Finset.mem_Ico]
      exact ⟨⟨Nat.le_refl _, h⟩, hptr⟩
    have hpos := Finset.card_pos.2 ⟨j, hmem⟩
    rw [need_of_zero hptr, State.needs]
    split
    · rename_i hind
      rw [if_pos ⟨hind.2, by omega, h⟩]
      omega
    · omega
  · rw [State.need, if_pos hptr]
    exact Nat.zero_le _

theorem fill_self : fill b (t.bufs b) t = .ok (⟨⟩, t) := by
  change Except.ok ((⟨⟩ : PUnit), { t with bufs := upd t.bufs b (t.bufs b) }) = _
  rw [upd_eq_self]

/-- The loop writes all bytes up to the first that is not mapped. -/
theorem writeiLoop_wrote (h : Owned k s) (hout : 0 < s.outstanding) (htot : tot ≤ n)
    (hfuel : n ≤ fuel + tot) (hmax : off + (n - tot) ≤ 268 * 1024) (hsrc : src.InPieces n tot off) :
    wp (writeiLoop k src n fuel tot off)
      (fun r t => ∃ m, m ≤ n - tot ∧ r = (tot + m, off + m) ∧
        Wrote k off m (fun i => (src.byte (tot + i)).getD 0) s t ∧
        (∀ i, i < m → (src.byte (tot + i)).isSome) ∧
        (m < n - tot → src.byte (tot + m) = none))
      (fun e => e = .outOfBlocks ∧ tot < n ∧
        s.free.card < s.needs k (off / 1024) (pieceEnd (off + (n - tot)))) s := by
  induction fuel generalizing s tot off with
  | zero =>
    exact ⟨0, Nat.zero_le _, rfl, .refl h, fun _ hi => absurd hi (Nat.not_lt_zero _), by omega⟩
  | succ fuel ih =>
    unfold writeiLoop
    by_cases hlt : tot < n
    · rw [if_pos hlt, wp_bind]
      have hj : off / 1024 < 268 := by omega
      have hend : pieceEnd (off + (n - tot)) ≤ 268 := by
        unfold pieceEnd
        omega
      have hlast : off / 1024 < pieceEnd (off + (n - tot)) := by
        unfold pieceEnd
        omega
      generalize hm : min (n - tot) (1024 - off % 1024) = m
      apply (bmap_spec h.layout h.metaUsed hout hj).mono
      · intro b t hmap
        obtain ⟨ht, hblock, hne⟩ := hmap.anchored h.anchored hj
        have htouched := hmap.touched h hj
        have htout : 0 < t.outstanding := hmap.outstanding ▸ hout
        rw [wp_bind, wp_of_ok bread_ok, wp_ite]
        constructor
        · -- the copy succeeds, and the loop goes on
          intro hok
          have hmapped := mapped_of_eitherCopyin hok
          rw [eitherCopyin_ok hmapped, wp_bind, wp_of_ok (update_ok htout)]
          have hround := wrote_round (m := m) (f := fun i => (src.byte (tot + i)).getD 0) h hmap hj
            (by omega)
          apply (@ih _ (tot + m) (off + m) hround.touched.owned htout (by omega) (by omega)
            (by omega) (hsrc.next hm.symm)).mono
          · intro r u hu
            obtain ⟨m', hm', hr, hwrote, hsome, hnone⟩ := hu
            refine ⟨m + m', by omega, ?_, ?_, ?_, ?_⟩
            · rw [hr, Nat.add_assoc, Nat.add_assoc]
            · apply hround.trans _ (by omega)
              simp only [Nat.add_assoc] at hwrote ⊢
              exact hwrote
            · intro i hi
              by_cases hfirst : i < m
              · exact hmapped i hfirst
              · have := hsome (i - m) (by omega)
                rwa [show tot + m + (i - m) = tot + i by omega] at this
            · intro hless
              have := hnone (by omega)
              rwa [Nat.add_assoc] at this
          · intro e he
            obtain ⟨he, hrest, hcard⟩ := he
            have hfull : m = 1024 - off % 1024 := by omega
            have hnext : (off + m) / 1024 = off / 1024 + 1 := by omega
            have hsame : off + m + (n - (tot + m)) = off + (n - tot) := by omega
            obtain ⟨hfree, hneeds⟩ := needs_put (off / 1024 + 1) (pieceEnd (off + (n - tot)))
              (blit (t.bufs b) (off % 1024) m fun i => (src.byte (tot + i)).getD 0)
              ht hj hblock hne
            have htaken := (hmap.card h.anchored).1
            have hleft := hmap.needs h.anchored hlast hend
            rw [hfree, hnext, hsame, hneeds] at hcard
            exact ⟨he, hlt, by omega⟩
        · -- the copy fails at its first byte, and the loop ends
          intro hfail
          have hnone : src.byte tot = none := by
            by_contra hsome
            have hmapped := hsrc tot (Nat.le_refl _) hlt (.inl rfl) (Option.isSome_iff_ne_none.2 hsome)
            rw [Nat.sub_self, Nat.add_zero, hm] at hmapped
            rw [eitherCopyin_ok hmapped] at hfail
            exact hfail rfl
          rw [eitherCopyin_none (by omega) hnone, wp_bind, wp_of_ok fill_self]
          exact ⟨0, Nat.zero_le _, rfl, wrote_mapped h hmap hj,
            fun _ hi => absurd hi (Nat.not_lt_zero _), fun _ => hnone⟩
      · intro e he
        have hneed := need_le_needs (s := s) (k := k) hlast
        exact ⟨he.1, hlt, by omega⟩
    · rw [if_neg hlt]
      exact ⟨0, Nat.zero_le _, rfl, .refl h, fun _ hi => absurd hi (Nat.not_lt_zero _), by omega⟩

/-- Whatever the source, the pieces that the loop has passed have blocks. -/
theorem writeiLoop_touched (h : Owned k s) (hout : 0 < s.outstanding) (htot : tot ≤ n)
    (hmax : off + (n - tot) ≤ 268 * 1024) :
    wp (writeiLoop k src n fuel tot off)
      (fun r t => ∃ m, m ≤ n - tot ∧ r = (tot + m, off + m) ∧ Touched k s t ∧
        ∀ o, off ≤ o → o < off + m → ptr t.bufs (t.inode k).toDinode (o / 1024) ≠ 0)
      (fun e => e = .outOfBlocks) s := by
  induction fuel generalizing s tot off with
  | zero => exact ⟨0, Nat.zero_le _, rfl, .refl h, fun o ho ho' => by omega⟩
  | succ fuel ih =>
    unfold writeiLoop
    by_cases hlt : tot < n
    · rw [if_pos hlt, wp_bind]
      have hj : off / 1024 < 268 := by omega
      generalize hm : min (n - tot) (1024 - off % 1024) = m
      apply (bmap_spec h.layout h.metaUsed hout hj).mono
      · intro b t hmap
        obtain ⟨ht, hblock, hne⟩ := hmap.anchored h.anchored hj
        have htouched := hmap.touched h hj
        have htout : 0 < t.outstanding := hmap.outstanding ▸ hout
        rw [wp_bind, wp_of_ok bread_ok, wp_ite]
        generalize (eitherCopyin (t.bufs b) (off % 1024) src tot m).1 = d
        constructor
        · intro _
          rw [wp_bind, wp_of_ok (update_ok htout)]
          have hwrite : Touched k t (t.put b d) :=
            htouched.owned.write hj (hblock ▸ hne) rfl rfl rfl (by rw [hblock, put_bufs])
          apply (@ih (t.put b d) (tot + m) (off + m) hwrite.owned htout (by omega) (by omega)).imp
          intro r u hu
          obtain ⟨m', hm', hr, hrest, hfilled⟩ := hu
          refine ⟨m + m', by omega, ?_, (htouched.trans hwrite).trans hrest, ?_⟩
          · rw [hr, Nat.add_assoc, Nat.add_assoc]
          · intro o ho ho'
            by_cases hlast : off + m ≤ o
            · exact hfilled o hlast (by omega)
            · have hdiv : o / 1024 = off / 1024 := by omega
              have hptr : ptr t.bufs (t.inode k).toDinode (off / 1024) ≠ 0 := by
                rw [ptr_eq_block, hblock]
                exact hne
              rw [hdiv, (hwrite.trans hrest).ptr hj hptr]
              exact hptr
        · intro _
          have hwrite : Touched k t { t with bufs := upd t.bufs b d } :=
            htouched.owned.write hj (hblock ▸ hne) rfl rfl rfl (by rw [hblock])
          exact ⟨0, Nat.zero_le _, rfl, htouched.trans hwrite, fun o ho ho' => by omega⟩
      · exact fun e he => he.1
    · rw [if_neg hlt]
      exact ⟨0, Nat.zero_le _, rfl, .refl h, fun o ho ho' => by omega⟩

end

end Xv6.Fs
