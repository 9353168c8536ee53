import Xv6.Fs.Refine

/-!
# Writes that fail

`writei` stops at a block whose bytes it cannot all copy.  If the copy fails at the first byte
of the block, the file has what `writei` reports.  If it fails later, the bytes before stay in
the buffer, though `writei` neither reports nor logs them.
-/

namespace Xv6.Fs

open Lib Lib.Cmd

/-- The blocks in `gone` are read again from the disk. -/
def State.evict (s : State) (gone : Nat → Bool) : State :=
  { s with bufs := fun b => if gone b then s.disk b else s.bufs b }

section

variable {s t : State} {k : Slot} {src : Src} {off n : Nat}

theorem evict_clean (h : s.bufs = s.disk) (gone : Nat → Bool) : s.evict gone = s := by
  have hsame : (fun b => if gone b then s.disk b else s.bufs b) = s.bufs := by
    funext b
    rw [h]
    split <;> rfl
  unfold State.evict
  rw [hsame]

theorem splice_nil {l : List UInt8} : splice l off [] = l := by
  unfold splice
  rw [List.append_nil, List.length_nil, Nat.add_zero, List.take_append_drop]

theorem bytes_zero : src.bytes 0 = [] := rfl

end

/-- The first page of user memory is mapped. -/
def onePage : UserMem := fun p => if p = 0 then some fun _ => 9 else none

theorem onePage_byte (va : Nat) : onePage.byte va = if va < 4096 then some 9 else none := by
  unfold UserMem.byte onePage
  by_cases hva : va < 4096
  · rw [if_pos (by omega), if_pos hva]
    rfl
  · rw [if_neg (by omega), if_neg hva]
    rfl

def State.torn (s : State) (k : Slot) : State :=
  { s with
    bufs := upd s.bufs (ptr s.bufs (s.inode k).toDinode 0)
      (blit (s.piece k 0) 0 512 fun _ => 9) }

section

variable {s : State} {k : Slot}

theorem copyin_torn (d : Bytes) :
    eitherCopyin d 0 (.user onePage 3584) 0 1024 = (blit d 0 512 fun _ => 9, false) := rfl

theorem writei_torn (hptr : ptr s.bufs (s.inode k).toDinode 0 ≠ 0) (hout : 0 < s.outstanding) :
    writei k (.user onePage 3584) 0 1024 s = .ok (0, (s.torn k).flush k (sized 0)) := by
  have hloop : writeiLoop k (.user onePage 3584) 1024 1024 0 0 s = .ok ((0, 0), s.torn k) := by
    unfold writeiLoop
    rw [if_pos (by decide), bind_ok (bmap_mapped (by decide) hptr), bind_ok bread_ok]
    change (if (eitherCopyin _ 0 (.user onePage 3584) 0 1024).2 = true then _ else _ : Cmd _) s = _
    rw [copyin_torn]
    rfl
  have hset : setEntry k (sized 0) (s.torn k) = .ok (⟨⟩, (s.torn k).adjust k (sized 0)) := rfl
  unfold writei
  rw [bind_ok (entry_ok k), if_neg (by omega), if_neg (by omega), bind_ok hloop]
  change (setEntry k (sized 0) >>= fun _ => iupdate k >>= fun _ => pure 0 : Cmd Int) _ = _
  rw [bind_ok hset, bind_ok (iupdate_adjust (s := s.torn k) hout)]
  rfl

theorem torn_touched (h : Owned k s) (hptr : ptr s.bufs (s.inode k).toDinode 0 ≠ 0) :
    Touched k s (s.torn k) := by
  rw [ptr_eq_block] at hptr
  apply h.write (t := s.torn k) (j := 0) (by decide) hptr rfl rfl rfl
  unfold State.torn
  rw [ptr_eq_block]

theorem torn_ptr (h : Owned k s) (hptr : ptr s.bufs (s.inode k).toDinode 0 ≠ 0) (j : Nat) :
    ptr ((s.torn k).flush k (sized 0)).bufs (sized 0 (s.inode k)).toDinode j =
      ptr (s.torn k).bufs (s.inode k).toDinode j := by
  have hblock := flush_block (f := sized 0) rfl (torn_touched h hptr).owned rfl (placeOf j)
  rw [ptr_eq_block, ptr_eq_block]
  exact hblock

/-- The file still has no holes, and it begins with what was copied. -/
theorem torn_reads (h : Owned k s) (hfull : (s.inode k).Full s.bufs)
    (hpos : 0 < (s.inode k).size.toNat) (hsize : (s.inode k).size.toNat ≤ 268 * 1024) :
    ∃ c, Reads k ((s.torn k).flush k (sized 0)) c ∧ 0 < c.length ∧ c.getD 0 0 = 9 := by
  have hfirst := hfull 0 (by omega)
  have htouched := torn_touched h hfirst
  have hself : ((s.torn k).flush k (sized 0)).inode k = sized 0 (s.inode k) := flush_self
  have hlen : (sized 0 (s.inode k)).size.toNat = (s.inode k).size.toNat := by
    rw [sized_size _ (show 0 < 2 ^ 32 by decide)]
    omega
  have hthere : ∀ j, j < ((s.inode k).size.toNat + 1023) / 1024 →
      ptr (s.torn k).bufs (s.inode k).toDinode j ≠ 0 := by
    intro j hj
    have hptr := hfull j hj
    have hsame := htouched.ptr (by omega) hptr
    rw [show (s.torn k).inode k = s.inode k from rfl] at hsame
    rwa [hsame]
  refine ⟨_, Dinode.Full.reads (s := (s.torn k).flush k (sized 0)) ?_ ?_, ?_, ?_⟩
  · intro j hj
    rw [hself, hlen] at hj
    rw [hself, torn_ptr h hfirst]
    exact hthere j hj
  · rw [hself, hlen]
    exact hsize
  · rw [length_content, hself, hlen]
    exact hpos
  · have hzero : 0 < 268 := by decide
    have hbyte := (piece_write (t := s.torn k) h.anchored hzero hzero hfirst rfl rfl rfl).2 hfirst
    have hregion := (htouched.owned.anchored.region _ (placeOf_lt hzero)
      (by rw [← ptr_eq_block]; exact hthere 0 (by omega))).1
    rw [← ptr_eq_block] at hregion
    rw [List.getD_eq_getElem?_getD, getElem?_content, hself, hlen, if_pos hpos, Option.getD_some,
      torn_ptr h hfirst, flush_bytes rfl htouched.owned]
    · change (s.torn k).piece k 0 0 = 9
      rw [hbyte, if_pos rfl, blit_inside (by omega) (by omega)]
    · unfold Superblock.nmeta at hregion
      exact Nat.le_trans (by omega) hregion

theorem torn_dirty (h : Owned k s) (hptr : ptr s.bufs (s.inode k).toDinode 0 ≠ 0)
    (hclean : s.bufs = s.disk) (hbyte : s.piece k 0 0 ≠ 9) :
    ((s.torn k).flush k (sized 0)).bufs ≠ ((s.torn k).flush k (sized 0)).disk := by
  have howned := (torn_touched h hptr).owned
  have hregion : s.sb.bmapstart ≤ ptr s.bufs (s.inode k).toDinode 0 := by
    rw [ptr_eq_block] at hptr ⊢
    have hdata := (h.anchored.region _ (placeOf_lt (show 0 < 268 by decide)) hptr).1
    unfold Superblock.nmeta at hdata
    exact Nat.le_trans (by omega) hdata
  intro hsame
  have hblock := congrFun (congrFun hsame (ptr s.bufs (s.inode k).toDinode 0)) 0
  rw [flush_bytes rfl howned _ hregion, flush_disk rfl howned _ hregion] at hblock
  have hnine : (s.torn k).bufs (ptr s.bufs (s.inode k).toDinode 0) 0 = 9 := by
    unfold State.torn
    dsimp only
    rw [upd_self, blit_inside (by omega) (by omega)]
  rw [hnine, show (s.torn k).disk = s.disk from rfl, ← hclean] at hblock
  exact hbyte hblock.symm

end

theorem Reads.first {s : State} {k : Slot} {c c' : List UInt8} (h : Reads k s c) (h' : Reads k s c')
    (hc : 0 < c.length) (hc' : 0 < c'.length) : c.getD 0 0 = c'.getD 0 0 := by
  have hcount : ∀ {l}, 0 < l → readCount l (0 : UInt32).toNat (1 : UInt32).toNat = 1 := by
    intro l hl
    change (if l < 0 ∨ 2 ^ 32 ≤ 0 + 1 then 0 else min (0 + 1) l - 0) = 1
    rw [if_neg (by omega)]
    omega
  obtain ⟨dst, hread, hgot⟩ := h (.kernel fun _ => 0) 0 1 fun _ _ => rfl
  obtain ⟨dst', hread', hgot'⟩ := h' (.kernel fun _ => 0) 0 1 fun _ _ => rfl
  rw [hcount hc] at hread hgot
  rw [hcount hc', hread] at hread'
  rw [hcount hc'] at hgot'
  cases hread'
  have hsame := hgot.eq_blit.symm.trans hgot'.eq_blit
  have hbyte := congrFun (Dst.kernel.inj hsame) 0
  rwa [blit_inside (by omega) (by omega), blit_inside (by omega) (by omega)] at hbyte

end Xv6.Fs
