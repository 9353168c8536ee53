import Xv6.Fs.Chunk
import Xv6.Fs.Content

/-!
# Files as lists of bytes

`readi` and `writei` are those of a list of bytes: a read returns a range of the list, and a
write replaces one, or adds to the end.
-/

namespace Xv6.Fs

open Lib Lib.Cmd

abbrev MAXFILE : Nat := 268

def Dinode.content (d : Dinode) (bufs : Nat → Bytes) : List UInt8 :=
  (List.range d.size.toNat).map fun o => bufs (ptr bufs d (o / 1024)) (o % 1024)

/-- The first `n` bytes of the source. -/
def Src.bytes (src : Src) (n : Nat) : List UInt8 := (List.range n).map fun i => (src.byte i).getD 0

def readCount (size off n : Nat) : Nat :=
  if size < off ∨ 2 ^ 32 ≤ off + n then 0 else min (off + n) size - off

/-- `readi` returns what `content` has, whatever the range. -/
def Reads (k : Slot) (s : State) (content : List UInt8) : Prop :=
  ∀ (dst : Dst) (off n : UInt32),
    (∀ i, i < readCount content.length off.toNat n.toNat → (dst.byte i).isSome) →
    ∃ dst', readi k dst off.toNat n.toNat s =
        .ok ((readCount content.length off.toNat n.toNat, dst'), s) ∧
      dst.Got 0 (readCount content.length off.toNat n.toNat)
        (fun i => content.getD (off.toNat + i) 0) dst'

section

variable {s t : State} {k : Slot} {d d' : Dinode} {bufs bufs' : Nat → Bytes} {off m o : Nat}
  {w : List UInt8}

@[simp] theorem length_content : (d.content bufs).length = d.size.toNat := by
  rw [Dinode.content, List.length_map, List.length_range]

@[simp] theorem length_bytes (src : Src) (n : Nat) : (src.bytes n).length = n := by
  rw [Src.bytes, List.length_map, List.length_range]

theorem getElem?_content : (d.content bufs)[o]? =
    if o < d.size.toNat then some (bufs (ptr bufs d (o / 1024)) (o % 1024)) else none := by
  unfold Dinode.content
  rw [List.getElem?_map]
  by_cases ho : o < d.size.toNat
  · rw [if_pos ho, List.getElem?_range ho, Option.map_some]
  · rw [if_neg ho, List.getElem?_eq_none (by rw [List.length_range]; omega), Option.map_none]

theorem getElem?_bytes (src : Src) {n i : Nat} (h : i < n) :
    (src.bytes n)[i]? = some ((src.byte i).getD 0) := by
  rw [Src.bytes, List.getElem?_map, List.getElem?_range h, Option.map_some]

theorem Dinode.Full.readable (h : (s.inode k).Full s.bufs)
    (hsize : (s.inode k).size.toNat ≤ 268 * 1024) : Readable s k ((s.inode k).content s.bufs) := by
  intro o c hc
  rw [getElem?_content] at hc
  by_cases ho : o < (s.inode k).size.toNat
  · rw [if_pos ho] at hc
    exact ⟨by omega, h _ (by omega), Option.some.inj hc⟩
  · rw [if_neg ho] at hc
    cases hc

theorem Dinode.Full.reads (h : (s.inode k).Full s.bufs)
    (hsize : (s.inode k).size.toNat ≤ MAXFILE * BSIZE) : Reads k s ((s.inode k).content s.bufs) := by
  have hreadable := h.readable hsize
  intro dst off n hmapped
  unfold readCount at hmapped ⊢
  rw [length_content] at hmapped ⊢
  by_cases hout : (s.inode k).size.toNat < off.toNat ∨ 2 ^ 32 ≤ off.toNat + n.toNat
  · rw [if_pos hout]
    refine ⟨dst, ?_, .none⟩
    unfold readi
    rw [bind_ok (a := s.inode k) (t := s) rfl, if_pos hout]
    rfl
  · rw [if_neg hout] at hmapped ⊢
    have hcount : min (off.toNat + n.toNat) (s.inode k).size.toNat - off.toNat =
        min n.toNat ((s.inode k).size.toNat - off.toNat) := by omega
    rw [hcount] at hmapped ⊢
    have hread := @readi_got s k _ hreadable length_content.symm off.toNat n.toNat dst
    rw [length_content] at hread
    obtain ⟨dst', hgot, hok⟩ := hread (by omega) (by omega) hmapped
    exact ⟨dst', hok, hgot⟩

/-- The pieces that a call has filled make up for the new size. -/
theorem Dinode.Full.extend (h : (s.inode k).Full s.bufs) (ht : Touched k s t)
    (hoff : off ≤ (s.inode k).size.toNat) (hsize : (s.inode k).size.toNat ≤ 268 * 1024)
    (hfilled : ∀ o, off ≤ o → o < off + m → ptr t.bufs (t.inode k).toDinode (o / 1024) ≠ 0) {j : Nat}
    (hj : j < (max (s.inode k).size.toNat (off + m) + 1023) / 1024) :
    ptr t.bufs (t.inode k).toDinode j ≠ 0 := by
  by_cases hold : j < ((s.inode k).size.toNat + 1023) / 1024
  · have hptr := h j hold
    rw [ht.ptr (by omega) hptr]
    exact hptr
  · have hnew := hfilled (1024 * j) (by omega) (by omega)
    rwa [Nat.mul_div_cancel_left j (by decide)] at hnew

theorem content_congr (hsize : d'.size = d.size)
    (hptr : ∀ j, j < (d.size.toNat + 1023) / 1024 → ptr bufs' d' j = ptr bufs d j ∧
      bufs' (ptr bufs d j) = bufs (ptr bufs d j)) : d'.content bufs' = d.content bufs := by
  apply List.ext_getElem?
  intro o
  rw [getElem?_content, getElem?_content, hsize]
  by_cases ho : o < d.size.toNat
  · obtain ⟨hptr, hbytes⟩ := hptr (o / 1024) (by omega)
    rw [if_pos ho, if_pos ho, hptr, hbytes]
  · rw [if_neg ho, if_neg ho]

theorem Touched.content (h : Owned k s) (ht : Touched k s t) {i : Nat} (hi : i < s.sb.ninodes)
    (hne : i ≠ (s.inode k).inum) (hfull : (s.dinode i).Full s.bufs)
    (hsize : (s.dinode i).size.toNat ≤ 268 * 1024)
    (hbytes : ∀ x, s.sb.bmapstart ≤ x → bufs' x = t.bufs x) :
    (s.dinode i).content bufs' = (s.dinode i).content s.bufs := by
  have hregion : ∀ q, q < 269 → (s.dinode i).block s.bufs q ≠ 0 →
      bufs' ((s.dinode i).block s.bufs q) = s.bufs ((s.dinode i).block s.bufs q) := by
    intro q hq hblock
    have hdata := (h.other_region hi hne hq hblock).1
    unfold Superblock.nmeta at hdata
    rw [hbytes _ (by omega), ht.bytes i q hi hne hq hblock]
  apply content_congr rfl
  intro j hj
  have hptr := hfull j hj
  rw [ptr_eq_block] at hptr
  rw [ptr_eq_block, ptr_eq_block]
  exact ⟨Dinode.block_of_bytes hregion _, hregion _ (placeOf_lt (by omega)) hptr⟩

end

/-!
## `writei`
-/

def sized (e : Nat) (ip : Inode) : Inode :=
  { ip with size := if ip.size.toNat < e then UInt32.ofNat e else ip.size }

theorem sized_size {e : Nat} (ip : Inode) (h : e < 2 ^ 32) :
    (sized e ip).size.toNat = max ip.size.toNat e := by
  change (if ip.size.toNat < e then UInt32.ofNat e else ip.size).toNat = _
  split
  · rw [toNat_ofNat_block h]
    omega
  · omega

/-- The file of entry `k` has the bytes `w` at `off` now, and the other files are as before. -/
structure Written (k : Slot) (off : Nat) (w : List UInt8) (s t : State) : Prop where
  owned : Owned k t
  full : (t.inode k).Full t.bufs
  content : (t.inode k).content t.bufs = splice ((s.inode k).content s.bufs) off w
  stored : t.dinode (s.inode k).inum = (t.inode k).toDinode
  others : ∀ k', k' ≠ k → t.inode k' = s.inode k'
  dinode : ∀ i, i < s.sb.ninodes → i ≠ (s.inode k).inum → t.dinode i = s.dinode i
  files : ∀ i, i < s.sb.ninodes → i ≠ (s.inode k).inum → (s.dinode i).Full s.bufs →
    (s.dinode i).size.toNat ≤ MAXFILE * BSIZE →
    (s.dinode i).content t.bufs = (s.dinode i).content s.bufs
  sb : t.sb = s.sb
  outstanding : t.outstanding = s.outstanding
  clean : s.bufs = s.disk → t.bufs = t.disk

section

variable {s t : State} {k : Slot} {src : Src} {off n m : Nat}

theorem Written.size {w : List UInt8} (hw : Written k off w s t)
    (hoff : off ≤ (s.inode k).size.toNat) :
    (t.inode k).size.toNat = max (s.inode k).size.toNat (off + w.length) := by
  calc
    (t.inode k).size.toNat = ((t.inode k).content t.bufs).length := length_content.symm
    _ = (splice ((s.inode k).content s.bufs) off w).length := by rw [hw.content]
    _ = max (s.inode k).size.toNat (off + w.length) := by
      rw [length_splice (by rw [length_content]; exact hoff), length_content]

theorem Wrote.written (hw : Wrote k off m (fun i => (src.byte i).getD 0) s t) (h : Owned k s)
    (hfull : (s.inode k).Full s.bufs) (hsize : (s.inode k).size.toNat ≤ 268 * 1024)
    (hoff : off ≤ (s.inode k).size.toNat) (hmax : off + m ≤ 268 * 1024) :
    Written k off (src.bytes m) s (t.flush k (sized (off + m))) := by
  have ht := hw.touched.owned
  have hinum : (sized (off + m) (t.inode k)).inum = (t.inode k).inum := rfl
  have hself : (t.flush k (sized (off + m))).inode k = sized (off + m) (t.inode k) := flush_self
  have hold : (t.inode k).size = (s.inode k).size := by rw [hw.touched.entry]
  have hnew := sized_size (t.inode k) (show off + m < 2 ^ 32 by omega)
  rw [hold] at hnew
  have hptr : ∀ j, ptr (t.flush k (sized (off + m))).bufs (sized (off + m) (t.inode k)).toDinode j =
      ptr t.bufs (t.inode k).toDinode j := by
    intro j
    rw [ptr_eq_block, ptr_eq_block]
    exact flush_block hinum ht rfl _
  have hthere : ∀ j, j < (max (s.inode k).size.toNat (off + m) + 1023) / 1024 →
      ptr t.bufs (t.inode k).toDinode j ≠ 0 := by
    intro j hj
    exact hfull.extend hw.touched hoff hsize (fun o ho ho' => (hw.filled o ho ho').1) hj
  have hpiece : ∀ j, j < (max (s.inode k).size.toNat (off + m) + 1023) / 1024 →
      (t.flush k (sized (off + m))).bufs (ptr t.bufs (t.inode k).toDinode j) = t.piece k j := by
    intro j hj
    have hne := hthere j hj
    rw [State.piece, flush_bytes hinum ht]
    rw [ptr_eq_block] at hne ⊢
    have hregion := (ht.anchored.region _ (placeOf_lt (by omega)) hne).1
    unfold Superblock.nmeta at hregion
    omega
  constructor
  · exact ht.flush hinum rfl
  · intro j hj
    rw [hself, hnew] at hj
    rw [hself, hptr]
    exact hthere j hj
  · apply List.ext_getElem?
    intro o
    rw [getElem?_splice (by rw [length_content]; exact hoff), getElem?_content, hself, hnew,
      length_bytes, getElem?_content]
    by_cases hin : off ≤ o ∧ o < off + m
    · rw [if_pos (by omega), if_pos hin, getElem?_bytes src (by omega), hptr,
        hpiece _ (by omega), (hw.filled o hin.1 hin.2).2]
    · rw [if_neg hin]
      by_cases ho : o < (s.inode k).size.toNat
      · have hold := hfull (o / 1024) (by omega)
        rw [if_pos (by omega), if_pos ho, hptr, hpiece _ (by omega),
          hw.kept o (by omega) (by omega) hold]
        rfl
      · rw [if_neg (by omega), if_neg ho]
  · rw [hself, ← hw.touched.inum, flush_dinode_self hinum]
  · intro k' hk'
    rw [flush_of_ne hk', hw.touched.others k' hk']
  · intro i hi hne
    rw [flush_dinode hinum (by rwa [hw.touched.inum]), hw.touched.dinode i hi]
  · intro i hi hne hother hlen
    apply hw.touched.content h hi hne hother hlen
    intro x hx
    rw [← hw.touched.sb] at hx
    exact flush_bytes hinum ht x hx
  · exact hw.touched.sb
  · exact hw.touched.outstanding
  · intro hclean
    exact flush_clean (hw.clean hclean)

theorem writei_refused (h : (s.inode k).size.toNat < off ∨ 268 * 1024 < off + n) :
    writei k src off n s = .ok (-1, s) := by
  unfold writei
  rw [bind_ok (entry_ok k)]
  split
  · rfl
  · rw [if_pos (by omega)]
    rfl

theorem writei_loop {R : Nat × Nat → State → Prop} {E : Stop → Prop}
    (hoff : off ≤ (s.inode k).size.toNat) (hmax : off + n ≤ 268 * 1024)
    (hloop : wp (writeiLoop k src n n 0 off) R E s) (hout : ∀ r t, R r t → 0 < t.outstanding) :
    wp (writei k src off n)
      (fun v u => ∃ r t, R r t ∧ v = (r.1 : Int) ∧ u = t.flush k (sized r.2)) E s := by
  unfold writei
  rw [wp_bind, wp_of_ok (entry_ok k), if_neg (by omega), if_neg (by omega), wp_bind]
  apply hloop.imp
  intro r t ht
  have hset : setEntry k (sized r.2) t = .ok (⟨⟩, t.adjust k (sized r.2)) := rfl
  rw [wp_bind]
  change wp (setEntry k (sized r.2)) _ _ t
  rw [wp_of_ok hset, wp_bind, wp_of_ok (iupdate_adjust (hout r t ht)), wp_pure]
  exact ⟨r, t, ht, rfl, rfl⟩

/-- `writei` writes all bytes up to the first that is not mapped, if within a block it meets none
that is not mapped after one that is. -/
theorem writei_wrote (h : Owned k s) (hout : 0 < s.outstanding)
    (hoff : off ≤ (s.inode k).size.toNat) (hmax : off + n ≤ 268 * 1024) (hsrc : src.InPieces n 0 off) :
    wp (writei k src off n)
      (fun r u => ∃ m t, m ≤ n ∧ r = m ∧ u = t.flush k (sized (off + m)) ∧
        Wrote k off m (fun i => (src.byte i).getD 0) s t ∧
        (∀ i, i < m → (src.byte i).isSome) ∧ (m < n → src.byte m = none))
      (fun e => e = .outOfBlocks ∧ s.free.card < s.needs k (off / 1024) (pieceEnd (off + n))) s := by
  apply (writei_loop hoff hmax (writeiLoop_wrote h hout (Nat.zero_le n) (Nat.le_refl _) hmax hsrc)
    fun r t hr => ?_).mono
  · rintro v u ⟨r, t, ⟨m, hm, rfl, hwrote, hsome, hnone⟩, rfl, rfl⟩
    simp only [Nat.zero_add, Nat.sub_zero] at hm hwrote hsome hnone ⊢
    exact ⟨m, t, hm, rfl, rfl, hwrote, hsome, hnone⟩
  · intro e he
    exact ⟨he.1, he.2.2⟩
  · obtain ⟨m, -, -, hwrote, -⟩ := hr
    exact hwrote.touched.outstanding ▸ hout

theorem writei_written (h : Owned k s) (hfull : (s.inode k).Full s.bufs)
    (hsize : (s.inode k).size.toNat ≤ 268 * 1024) (hout : 0 < s.outstanding)
    (hoff : off ≤ (s.inode k).size.toNat) (hmax : off + n ≤ 268 * 1024)
    (hsrc : src.InPieces n 0 off) :
    wp (writei k src off n)
      (fun r t => ∃ m, m ≤ n ∧ r = m ∧ Written k off (src.bytes m) s t ∧
        (∀ i, i < m → (src.byte i).isSome) ∧ (m < n → src.byte m = none))
      (fun e => e = .outOfBlocks ∧ s.free.card < s.needs k (off / 1024) (pieceEnd (off + n))) s := by
  apply (writei_wrote h hout hoff hmax hsrc).imp
  rintro r u ⟨m, t, hm, hr, rfl, hwrote, hmapped⟩
  exact ⟨m, hm, hr, hwrote.written h hfull hsize hoff (by omega), hmapped⟩

/-- `writei` from a source that is all mapped writes all of it. -/
theorem writei_whole (h : Owned k s) (hout : 0 < s.outstanding)
    (hoff : off ≤ (s.inode k).size.toNat) (hmax : off + n ≤ 268 * 1024)
    (hmapped : ∀ i, i < n → (src.byte i).isSome) :
    wp (writei k src off n)
      (fun r u => r = n ∧ ∃ t, u = t.flush k (sized (off + n)) ∧
        Wrote k off n (fun i => (src.byte i).getD 0) s t)
      (fun e => e = .outOfBlocks ∧ s.free.card < s.needs k (off / 1024) (pieceEnd (off + n))) s := by
  apply (writei_wrote h hout hoff hmax fun c _ hc _ _ i hi => hmapped (c + i) (by omega)).imp
  rintro r u ⟨m, t, hm, rfl, rfl, hwrote, -, hnone⟩
  obtain rfl : m = n := by
    by_contra hne
    have hlast := hmapped m (by omega)
    rw [hnone (by omega)] at hlast
    cases hlast
  exact ⟨rfl, t, rfl, hwrote⟩

/-- `writei` from a source that is all mapped, with blocks enough. -/
theorem writei_all (h : Owned k s) (hfull : (s.inode k).Full s.bufs)
    (hsize : (s.inode k).size.toNat ≤ 268 * 1024) (hout : 0 < s.outstanding)
    (hoff : off ≤ (s.inode k).size.toNat) (hmax : off + n ≤ 268 * 1024)
    (hmapped : ∀ i, i < n → (src.byte i).isSome)
    (hfree : s.needs k (off / 1024) (pieceEnd (off + n)) ≤ s.free.card) :
    ∃ t, writei k src off n s = .ok ((n : Int), t) ∧ Written k off (src.bytes n) s t := by
  obtain ⟨r, u, hrun, rfl, t, rfl, hwrote⟩ :=
    (writei_whole h hout hoff hmax hmapped).total fun _ he => Nat.not_lt.2 hfree he.2
  exact ⟨_, hrun, hwrote.written h hfull hsize hoff hmax⟩

end

/-- The file of an entry is a list of bytes to `readi` and `writei`. -/
theorem refines_bytes {s : State} {k : Slot} (h : Owned k s) (hfull : (s.inode k).Full s.bufs)
    (hsize : (s.inode k).size.toNat ≤ MAXFILE * BSIZE) :
    Reads k s ((s.inode k).content s.bufs) ∧
    ∀ (src : Src) (off n : Nat), 0 < s.outstanding → off ≤ (s.inode k).size.toNat →
      off + n ≤ MAXFILE * BSIZE → (∀ i, i < n → (src.byte i).isSome) →
      s.needs k (off / BSIZE) (pieceEnd (off + n)) ≤ s.free.card →
      ∃ t, writei k src off n s = .ok ((n : Int), t) ∧
        Reads k t (splice ((s.inode k).content s.bufs) off (src.bytes n)) ∧
        (t.inode k).size.toNat = max (s.inode k).size.toNat (off + n) ∧
        (∀ k', k' ≠ k → t.inode k' = s.inode k') ∧
        (∀ i, i < s.sb.ninodes → i ≠ (s.inode k).inum → t.dinode i = s.dinode i ∧
          ((s.dinode i).Full s.bufs → (s.dinode i).size.toNat ≤ MAXFILE * BSIZE →
            (s.dinode i).content t.bufs = (s.dinode i).content s.bufs)) ∧
        Owned k t ∧ (t.inode k).Full t.bufs := by
  refine ⟨hfull.reads hsize, ?_⟩
  intro src off n hout hoff hmax hmapped hfree
  obtain ⟨t, hrun, hw⟩ := writei_all h hfull hsize hout hoff hmax hmapped hfree
  have hlen := hw.size hoff
  rw [length_bytes] at hlen
  refine ⟨t, hrun, ?_, hlen, hw.others, ?_, hw.owned, hw.full⟩
  · rw [← hw.content]
    exact hw.full.reads (by rw [hlen]; exact Nat.max_le.2 ⟨hsize, hmax⟩)
  · intro i hi hne
    exact ⟨hw.dinode i hi hne, hw.files i hi hne⟩

/-- Three blocks into an empty file. -/
theorem refines_bytes_oneFile :
    ∃ t, writei 0 (.kernel fun _ => 7) 0 3072 oneFile = .ok ((3072 : Nat), t) ∧
      Reads 0 t (splice ((oneFile.inode 0).content oneFile.bufs) 0
        (Src.bytes (.kernel fun _ => 7) 3072)) := by
  have hsize : (oneFile.inode 0).size.toNat = 0 := by
    rw [oneFile_entry]
    rfl
  have hneeds : oneFile.needs 0 (0 / BSIZE) (pieceEnd (0 + 3072)) ≤ oneFile.free.card := by
    rw [card_free_oneFile]
    exact Nat.le_trans (needs_le ..) (by decide)
  obtain ⟨-, hwrite⟩ := refines_bytes owned_oneFile full_oneFile (by rw [hsize]; decide)
  obtain ⟨t, hok, hreads, -⟩ := hwrite (.kernel fun _ => 7) 0 3072 oneFile_outstanding
    (Nat.zero_le _) (by decide) (fun _ _ => rfl) hneeds
  exact ⟨t, hok, hreads⟩

end Xv6.Fs
