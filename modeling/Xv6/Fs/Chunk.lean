import Xv6.Fs.Places

/-!
# The blocks that one write logs

`filewrite` passes at most three blocks of bytes to one call of `writei`.  The bound on the
blocks that the call logs is a potential: the length of the log, and what the indirect block
may still add to it.  A piece that has a block adds one to it, and a piece that needs one two.
-/

namespace Xv6.Fs

open Lib Lib.Cmd

abbrev MAXOPBLOCKS : Nat := 10
abbrev BSIZE : Nat := 1024

/-- No piece below the size is missing. -/
def Dinode.Full (d : Dinode) (bufs : Nat → Bytes) : Prop :=
  ∀ j, j < (d.size.toNat + 1023) / 1024 → ptr bufs d j ≠ 0

section

variable {s t : State} {k : Slot} {b x j q : Nat} {d : Bytes}

theorem mem_put_lh : b ∈ (s.put b d).lh := by
  unfold State.put
  dsimp only
  split
  · assumption
  · simp

theorem put_lh_mono (h : x ∈ s.lh) : x ∈ (s.put b d).lh := by
  unfold State.put
  dsimp only
  split
  · exact h
  · exact List.mem_append_left _ h

theorem put_lh_of_mem (h : b ∈ s.lh) : (s.put b d).lh = s.lh := if_pos h

theorem length_put_lh : (s.put b d).lh.length ≤ s.lh.length + 1 := by
  unfold State.put
  dsimp only
  split
  · omega
  · simp

theorem nodup_put_lh (h : s.lh.Nodup) : (s.put b d).lh.Nodup := by
  unfold State.put
  dsimp only
  split
  · exact h
  · rename_i hnot
    rw [List.nodup_append]
    refine ⟨h, List.nodup_singleton _, ?_⟩
    intro y hy z hz hyz
    rw [List.mem_singleton] at hz
    rw [hyz, hz] at hy
    exact hnot hy

theorem mem_alloc_lh : b ∈ (s.alloc b).lh := mem_put_lh

theorem alloc_lh_mono (h : x ∈ s.lh) : x ∈ (s.alloc b).lh := put_lh_mono (put_lh_mono h)

theorem length_alloc_lh : (s.alloc b).lh.length ≤ s.lh.length + 2 := by
  have hbitmap := length_put_lh (s := s) (b := s.sb.bblock b)
    (d := setBit (s.bufs (s.sb.bblock b)) (b % 8192))
  have hblock := length_put_lh
    (s := s.put (s.sb.bblock b) (setBit (s.bufs (s.sb.bblock b)) (b % 8192))) (b := b)
    (d := fun _ => 0)
  unfold State.alloc
  omega

theorem nodup_alloc_lh (h : s.lh.Nodup) : (s.alloc b).lh.Nodup := nodup_put_lh (nodup_put_lh h)

def State.weight (s : State) (k : Slot) : Nat :=
  s.lh.length +
    if (s.inode k).indirect = 0 then 2
    else if (s.inode k).indirect.toNat ∈ s.lh then 0 else 1

theorem weight_le {c : Nat} (hind : (t.inode k).indirect = (s.inode k).indirect)
    (hmono : ∀ x, x ∈ s.lh → x ∈ t.lh) (hlen : t.lh.length ≤ s.lh.length + c) :
    t.weight k ≤ s.weight k + c := by
  unfold State.weight
  rw [hind]
  by_cases hzero : (s.inode k).indirect = 0
  · rw [if_pos hzero, if_pos hzero]
    omega
  · rw [if_neg hzero, if_neg hzero]
    by_cases hmem : (s.inode k).indirect.toNat ∈ s.lh
    · rw [if_pos hmem, if_pos (hmono _ hmem)]
      omega
    · rw [if_neg hmem]
      split <;> omega

theorem weight_put : (s.put b d).weight k ≤ s.weight k + 1 :=
  weight_le rfl (fun _ => put_lh_mono) length_put_lh

theorem weight_alloc : (s.alloc b).weight k ≤ s.weight k + 2 :=
  weight_le rfl (fun _ => alloc_lh_mono) length_alloc_lh

theorem weight_enter (hind : (s.inode k).indirect ≠ 0) : (s.enter k j b).weight k ≤ s.weight k := by
  have hmem : (s.inode k).indirect.toNat ∈ (s.enter k j b).lh := mem_put_lh
  have hlen : (s.enter k j b).lh.length ≤ s.lh.length + 1 := length_put_lh
  have hsame : (s.inode k).indirect.toNat ∈ s.lh → (s.enter k j b).lh = s.lh := put_lh_of_mem
  have hinode : (s.enter k j b).inode = s.inode := rfl
  unfold State.weight
  rw [hinode, if_neg hind, if_neg hind, if_pos hmem]
  by_cases hold : (s.inode k).indirect.toNat ∈ s.lh
  · rw [if_pos hold, hsame hold]
  · rw [if_neg hold]
    omega

theorem weight_withAddr {p : Fin 13} (hp : p.val < 12) :
    ((s.alloc b).withAddr k p b).weight k ≤ s.weight k + 2 := by
  apply weight_le
  · rw [withAddr_inode]
    exact Vector.getElem_set_ne (by omega) (by omega) (by omega)
  · exact fun _ => alloc_lh_mono
  · exact length_alloc_lh

theorem weight_indirect (hlt : b < 2 ^ 32) (hne : b ≠ 0) (hind : (s.inode k).indirect = 0) :
    ((s.alloc b).withAddr k 12 b).weight k ≤ s.weight k := by
  have hmem : ((((s.alloc b).withAddr k 12 b).inode k).indirect).toNat ∈
      ((s.alloc b).withAddr k 12 b).lh := by
    rw [withAddr_indirect, toNat_ofNat_block hlt]
    exact mem_alloc_lh
  have hlen : ((s.alloc b).withAddr k 12 b).lh.length ≤ s.lh.length + 2 := length_alloc_lh
  have hind' : (((s.alloc b).withAddr k 12 b).inode k).indirect ≠ 0 := by
    rw [withAddr_indirect]
    exact ofNat_ne_zero hlt hne
  unfold State.weight
  rw [if_pos hind, if_neg hind', if_pos hmem]
  omega

theorem Mapped.weight (hm : Mapped k j s b t) (h : Anchored k s) :
    t = s ∨ t.weight k ≤ s.weight k + 2 ∧ b ∈ t.lh := by
  cases hm with
  | present => exact .inl rfl
  | direct hj _ _ => exact .inr ⟨weight_withAddr hj, mem_alloc_lh⟩
  | entry _ hind _ _ =>
    have henter := weight_enter (s := s.alloc b) (j := j) (b := b) hind
    have halloc := weight_alloc (s := s) (k := k) (b := b)
    exact .inr ⟨by omega, put_lh_mono mem_alloc_lh⟩
  | @indirect a _ _ hind ha _ =>
    have hlt := lt_of_free h.layout ha
    have hne := pos_of_free h.metaUsed ha
    have hind' : (((s.alloc a).withAddr k 12 a).inode k).indirect ≠ 0 := by
      rw [withAddr_indirect]
      exact ofNat_ne_zero hlt hne
    have hfirst := weight_indirect (s := s) (k := k) hlt hne hind
    have halloc := weight_alloc (s := (s.alloc a).withAddr k 12 a) (k := k) (b := b)
    have henter := weight_enter (s := ((s.alloc a).withAddr k 12 a).alloc b) (j := j) (b := b) hind'
    exact .inr ⟨by omega, put_lh_mono mem_alloc_lh⟩

theorem Mapped.weight_put (hm : Mapped k j s b t) (h : Anchored k s) :
    (t.put b d).weight k ≤ s.weight k + 2 ∧
    (ptr s.bufs (s.inode k).toDinode j ≠ 0 → (t.put b d).weight k ≤ s.weight k + 1) := by
  constructor
  · obtain rfl | ⟨hweight, hmem⟩ := hm.weight h
    · have := Fs.weight_put (s := t) (k := k) (b := b) (d := d)
      omega
    · have hsame : (t.put b d).weight k ≤ t.weight k + 0 :=
        weight_le rfl (fun _ => put_lh_mono) (by rw [put_lh_of_mem hmem]; omega)
      omega
  · intro hptr
    obtain ⟨rfl, -⟩ := hm.of_ptr hptr
    exact Fs.weight_put

theorem Mapped.nodup (hm : Mapped k j s b t) (h : s.lh.Nodup) : t.lh.Nodup := by
  cases hm with
  | present => exact h
  | direct => exact nodup_alloc_lh h
  | entry => exact nodup_put_lh (nodup_alloc_lh h)
  | indirect => exact nodup_put_lh (nodup_alloc_lh (nodup_alloc_lh h))

def pieces (off r : Nat) : Nat := if r = 0 then 0 else (off % 1024 + r + 1023) / 1024

theorem pieces_pos (off : Nat) {r : Nat} (hr : 0 < r) : 0 < pieces off r := by
  rw [pieces, if_neg (by omega)]
  omega

theorem pieces_next (off : Nat) {r m : Nat} (hr : 0 < r) (hm : m = min r (1024 - off % 1024)) :
    pieces (off + m) (r - m) + 1 = pieces off r := by
  unfold pieces
  rw [if_neg (show ¬r = 0 by omega)]
  split <;> omega

/-- The loop of `writei` adds at most two for each piece, and one for the first if it has a
block. -/
theorem writeiLoop_weight {src : Src} {n fuel tot off : Nat} (h : Anchored k s)
    (hout : 0 < s.outstanding) (hnodup : s.lh.Nodup) (hmax : off + (n - tot) ≤ 268 * 1024) :
    wp (writeiLoop k src n fuel tot off)
      (fun _ t => t.weight k + (if tot < n ∧ ptr s.bufs (s.inode k).toDinode (off / 1024) ≠ 0
          then 1 else 0) ≤ s.weight k + 2 * pieces off (n - tot) ∧
        t.lh.Nodup ∧ 0 < t.outstanding)
      (fun e => e = .outOfBlocks) s := by
  induction fuel generalizing s tot off with
  | zero =>
    refine ⟨?_, hnodup, hout⟩
    split
    · rename_i hlt
      have := pieces_pos off (r := n - tot) (by omega)
      omega
    · omega
  | succ fuel ih =>
    unfold writeiLoop
    by_cases hlt : tot < n
    · have hpos := pieces_pos off (r := n - tot) (by omega)
      have hnext := pieces_next off (r := n - tot)
        (m := min (n - tot) (1024 - off % 1024)) (by omega) rfl
      have hj : off / 1024 < 268 := by omega
      rw [if_pos hlt, wp_bind]
      apply (bmap_spec h.layout h.metaUsed hout hj).mono
      · intro b t hm
        obtain ⟨ht, hblock, hne⟩ := hm.anchored h hj
        have htout : 0 < t.outstanding := hm.outstanding ▸ hout
        rw [wp_bind, wp_of_ok bread_ok, wp_ite]
        constructor
        · -- the copy succeeds, and the loop goes on
          intro _
          rw [wp_bind, wp_of_ok (update_ok htout)]
          generalize (eitherCopyin (t.bufs b) (off % 1024) src tot
            (min (n - tot) (1024 - off % 1024))).1 = d
          obtain ⟨htwo, hone⟩ := hm.weight_put (d := d) h
          have hrest := @ih (t.put b d) (tot + min (n - tot) (1024 - off % 1024))
            (off + min (n - tot) (1024 - off % 1024)) (ht.put hj hblock hne d) htout
            (nodup_put_lh (hm.nodup hnodup)) (by omega)
          apply hrest.imp
          intro r u hu
          refine ⟨?_, hu.2⟩
          have hbound := hu.1
          rw [Nat.sub_add_eq] at hbound
          split
          · rename_i hfirst
            have := hone hfirst.2
            omega
          · omega
        · -- the copy fails, and the loop ends
          intro _
          refine ⟨?_, hm.nodup hnodup, htout⟩
          change t.weight k + _ ≤ _
          split
          · rename_i hfirst
            obtain ⟨rfl, -⟩ := hm.of_ptr hfirst.2
            omega
          · obtain rfl | ⟨hweight, -⟩ := hm.weight h
            · omega
            · omega
      · exact fun e he => he.1
    · rw [if_neg hlt]
      refine ⟨?_, hnodup, hout⟩
      rw [if_neg (fun hn => hlt hn.1)]
      omega

/-- The potential bounds what the whole call logs: the inode's block comes last. -/
theorem writei_weight {src : Src} {off n c : Nat} (hlen : s.lh.length ≤ c) (hnodup : s.lh.Nodup)
    (hloop : off + n ≤ 268 * 1024 → wp (writeiLoop k src n n 0 off)
      (fun _ t => t.weight k < c ∧ t.lh.Nodup ∧ 0 < t.outstanding) (fun e => e = .outOfBlocks) s) :
    wp (writei k src off n) (fun _ t => t.lh.Nodup ∧ t.lh.length ≤ c)
      (fun e => e = .outOfBlocks) s := by
  unfold writei
  rw [wp_bind, wp_of_ok (entry_ok k), wp_ite]
  refine ⟨fun _ => ⟨hnodup, hlen⟩, fun _ => ?_⟩
  rw [wp_ite]
  refine ⟨fun _ => ⟨hnodup, hlen⟩, fun hmax => ?_⟩
  rw [wp_bind]
  apply (hloop (by omega)).imp
  intro r t ht
  obtain ⟨hweight, htnodup, htout⟩ := ht
  have hset : setEntry k (fun ip => { ip with
      size := if ip.size.toNat < r.2 then UInt32.ofNat r.2 else ip.size }) t = .ok (⟨⟩, _) := rfl
  have hlt : t.lh.length < c := Nat.lt_of_le_of_lt (Nat.le_add_right _ _) hweight
  rw [wp_bind, wp_of_ok hset, wp_bind, wp_of_ok (iupdate_ok (s := t.adjust k _) htout k), wp_pure]
  refine ⟨nodup_put_lh htnodup, ?_⟩
  exact Nat.le_trans length_put_lh hlt

end

/-- The state with an empty log, in which the log then has the blocks that a call passes to
`log_write`. -/
def State.emptyLog (s : State) : State := { s with lh := [] }

/-- One call of `writei` from `filewrite` logs at most as many blocks as its operation has
reserved. -/
theorem chunk_fits {s : State} {k : Slot} {src : Src} {off n : Nat} (h : Anchored k s)
    (hfull : (s.inode k).Full s.bufs) (hout : 0 < s.outstanding)
    (hoff : off ≤ (s.inode k).size.toNat) (hn : n ≤ (MAXOPBLOCKS - 1 - 1 - 2) / 2 * BSIZE) :
    wp (writei k src off n) (fun _ t => t.lh.Nodup ∧ t.lh.length ≤ MAXOPBLOCKS)
      (fun e => e = .outOfBlocks) s.emptyLog := by
  have hn' : n ≤ 3072 := hn
  have hstart : Anchored k s.emptyLog := ⟨h.layout, h.metaUsed, h.region, h.used, h.distinct⟩
  have hweight : s.emptyLog.weight k ≤ 2 := by
    have hnone : s.emptyLog.lh.length = 0 := rfl
    unfold State.weight
    rw [hnone]
    split
    · exact Nat.le_refl _
    · split <;> omega
  apply writei_weight (s := s.emptyLog) (Nat.zero_le _) List.nodup_nil
  intro hmax
  apply (writeiLoop_weight hstart hout List.nodup_nil (by omega)).imp
  intro r t ht
  refine ⟨?_, ht.2⟩
  have hbound := ht.1
  rw [Nat.sub_zero, pieces] at hbound
  change t.weight k < 10
  -- either the first piece has a block, or the bytes start at a piece and touch three
  by_cases hzero : n = 0
  · rw [if_pos hzero] at hbound
    omega
  · rw [if_neg hzero] at hbound
    by_cases haligned : off % 1024 = 0
    · omega
    · have hptr := hfull (off / 1024) (by omega)
      rw [if_pos ⟨by omega, hptr⟩] at hbound
      omega

theorem full_oneFile : (oneFile.inode 0).Full oneFile.bufs := by
  intro j hj
  have hsize : emptyFile.size.toNat = 0 := rfl
  rw [oneFile_entry, hsize] at hj
  omega

/-- Three blocks into an empty file. -/
theorem chunk_fits_oneFile :
    wp (writei 0 (.kernel fun _ => 7) 0 3072) (fun _ t => t.lh.Nodup ∧ t.lh.length ≤ MAXOPBLOCKS)
      (fun e => e = .outOfBlocks) oneFile.emptyLog :=
  chunk_fits anchored_oneFile full_oneFile oneFile_outstanding (Nat.zero_le _) (by decide)

end Xv6.Fs
