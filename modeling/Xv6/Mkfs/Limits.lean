import Xv6.Mkfs.WellFormed

/-!
# What does not fit

`mkfs` does not compare its counters with `FSSIZE` and `NINODES`.  A block past the end of
the image file is read before it is written, so that the read fails; an inode past the last
one is written to the inode blocks, which have room for a few more.
-/

namespace Xv6.Mkfs

open Lib Lib.Cmd Fs

/-- The blocks that were allocated: `freeblock` counts from `nmeta` on. -/
def State.blocks (s : State) : List Nat := List.range' nmeta (s.freeblock - nmeta)

/-- The inodes that were allocated: `freeinode` counts from 1 on. -/
def State.inodes (s : State) : List Nat := List.range' 1 (s.freeinode - 1)

/-- The image file has its size, and no block past its end was allocated. -/
structure Within (n : Nat) (s : State) : Prop where
  length : s.length = FSSIZE
  inode : s.freeinode = n
  block : s.freeblock ≤ FSSIZE

structure Pending (n x : Nat) (s : State) : Prop where
  length : s.length = FSSIZE
  inode : s.freeinode = n
  block : x < FSSIZE → s.freeblock ≤ FSSIZE

section

variable {n x : Nat} {s : State} {din : Dinode}

theorem Within.pending (h : Within n s) : Pending n x s := ⟨h.length, h.inode, fun _ => h.block⟩

theorem Pending.within (h : Pending n x s) (hx : x < FSSIZE) : Within n s :=
  ⟨h.length, h.inode, h.block hx⟩

theorem wp_rsect_inside {Q : Bytes → State → Prop} (h : s.length = FSSIZE)
    (hQ : x < FSSIZE → Q (s.img x) s) : wp (rsect x) Q (fun _ => True) s := by
  unfold rsect
  rw [wp_bind, wp_get, wp_ite]
  constructor
  · intro hx
    exact hQ (h ▸ hx)
  · intro _
    trivial

theorem wp_wsect_inside {buf : Bytes} {E : Fail → Prop} (h : Within n s) (hx : x < FSSIZE) :
    wp (wsect x buf) (fun _ t => Within n t) E s := by
  have hlength := h.length
  refine ⟨?_, h.inode, h.block⟩
  change max s.length (x + 1) = FSSIZE
  omega

theorem winode_within {i : Nat} {d : Dinode} (h : Within n s) :
    wp (winode i d) (fun _ t => Within n t) (fun _ => True) s := by
  unfold winode
  rw [wp_bind]
  apply wp_rsect_inside h.length
  intro hx
  exact wp_wsect_inside h hx

theorem rinode_within {i : Nat} (h : Within n s) :
    wp (rinode i) (fun _ t => Within n t) (fun _ => True) s := by
  unfold rinode
  rw [wp_bind]
  apply wp_rsect_inside h.length
  intro _
  exact h

theorem nextBlock_pending (h : Within n s) {E : Fail → Prop} :
    wp nextBlock (fun b t => Pending n b t) E s := by
  refine ⟨h.length, h.inode, ?_⟩
  intro hlt
  exact hlt

theorem ownBlock_pending {i : Fin 13} (h : Within n s) :
    wp (ownBlock din i) (fun r t => Pending n r.2 t) (fun _ => True) s := by
  unfold ownBlock
  rw [wp_ite]
  constructor
  · intro _
    rw [wp_bind]
    exact nextBlock_pending h
  · intro _
    exact h.pending

theorem fileBlock_pending {fbn : Nat} (h : Within n s) :
    wp (fileBlock din fbn) (fun r t => Pending n r.2 t) (fun _ => True) s := by
  unfold fileBlock
  by_cases hdirect : fbn < 12
  · rw [dif_pos hdirect]
    exact ownBlock_pending h
  rw [dif_neg hdirect, wp_bind]
  apply (ownBlock_pending h).imp
  rintro ⟨din', a⟩ t ht
  change wp (rsect a >>= _) _ _ _
  rw [wp_bind]
  apply wp_rsect_inside ht.length
  intro ha
  have hw := ht.within ha
  rw [wp_ite]
  constructor
  · intro _
    rw [wp_bind]
    apply (nextBlock_pending hw).imp
    intro b u hu
    -- the indirect block is in the image file, so that writing it leaves the length alone
    have hlength := hu.length
    refine ⟨?_, hu.inode, hu.block⟩
    change max u.length (a + 1) = FSSIZE
    omega
  · intro _
    exact hw.pending

theorem iappendLoop_within {fuel off : Nat} {p : List UInt8} (h : Within n s) :
    wp (iappendLoop fuel din off p) (fun _ t => Within n t) (fun _ => True) s := by
  induction fuel generalizing s din off p with
  | zero => exact h
  | succ fuel ih =>
    unfold iappendLoop
    by_cases hp : p = []
    · rw [if_pos hp]
      exact h
    rw [if_neg hp]
    by_cases hbig : MAXFILE ≤ off / 1024
    · rw [if_pos hbig]
      trivial
    rw [if_neg hbig, wp_bind]
    apply (fileBlock_pending h).imp
    rintro ⟨din', x⟩ t ht
    change wp (rsect x >>= _) _ _ _
    rw [wp_bind]
    apply wp_rsect_inside ht.length
    intro hx
    rw [wp_bind]
    apply (wp_wsect_inside (ht.within hx) hx).imp
    intro _ u hu
    exact ih hu

theorem iappend_within {i : Nat} {p : List UInt8} (h : Within n s) :
    wp (iappend i p) (fun _ t => Within n t) (fun _ => True) s := by
  unfold iappend
  rw [wp_bind]
  apply (rinode_within h).imp
  intro din t ht
  rw [wp_bind]
  apply (iappendLoop_within ht).imp
  intro r u hu
  exact winode_within hu

theorem ialloc_within {type : Int16} (h : Within n s) :
    wp (ialloc type) (fun _ t => Within (n + 1) t) (fun _ => True) s := by
  have hnext : Within (n + 1) { s with freeinode := s.freeinode + 1 } :=
    ⟨h.length, congrArg (· + 1) h.inode, h.block⟩
  unfold ialloc
  rw [wp_bind, wp_get, wp_bind, wp_set, wp_bind]
  apply (winode_within hnext).imp
  intro _ t ht
  exact ht

theorem addFile_within {rootino : Nat} {x : HostFile} (h : Within n s) :
    wp (addFile rootino x) (fun _ t => Within (n + 1) t) (fun _ => True) s := by
  unfold addFile
  rw [wp_ite]
  constructor
  · intro _
    trivial
  intro _
  rw [wp_bind]
  apply (ialloc_within h).imp
  intro inum t ht
  rw [wp_bind]
  apply (iappend_within ht).imp
  intro _ u hu
  exact wp_forM (I := fun _ v => Within (n + 1) v) (fun p _ v hv => iappend_within hv) hu

theorem files_within {rootino : Nat} {files : List HostFile} (h : Within n s) :
    wp (forM files (addFile rootino)) (fun _ t => Within (n + files.length) t) (fun _ => True) s := by
  induction files generalizing n s with
  | nil => exact h
  | cons x rest ih =>
    rw [List.forM_cons, wp_bind]
    apply (addFile_within h).imp
    intro _ t ht
    apply (ih ht).imp
    intro _ u hu
    rw [List.length_cons, Nat.add_comm rest.length, ← Nat.add_assoc]
    exact hu

/-- Whatever the files are, no block past the end of the image file is allocated. -/
theorem main_within (files : List HostFile) :
    wp (main files) (fun _ t => Within (files.length + 2) t) (fun _ => True) start := by
  have hstart : Within 1 start := ⟨rfl, rfl, by decide⟩
  unfold main
  rw [wp_bind]
  apply (wp_wsect_inside hstart (by decide)).imp
  intro _ s hs
  rw [wp_bind]
  apply (ialloc_within hs).imp
  intro rootino t ht
  rw [wp_ite]
  constructor
  · intro _
    trivial
  intro _
  rw [wp_bind]
  apply (iappend_within ht).imp
  intro _ t ht
  rw [wp_bind]
  apply (iappend_within ht).imp
  intro _ t ht
  rw [wp_bind]
  apply (files_within ht).imp
  intro _ t ht
  rw [Nat.add_comm] at ht
  unfold fixRoot
  rw [wp_bind, wp_bind]
  apply (rinode_within ht).imp
  intro _ t ht
  apply (winode_within ht).imp
  intro _ t ht
  rw [wp_bind, wp_get]
  unfold balloc
  rw [wp_ite]
  constructor
  · intro _
    trivial
  · intro _
    exact wp_wsect_inside ht (by decide)

end

/-- Files that have their places are written, with an inode for each. -/
theorem main_ok {files : List HostFile} (hplaced : Placed files) (hnot : ∀ x ∈ files, ¬Refused x) :
    ∃ t, main files start = .ok (⟨⟩, t) ∧ t.freeinode = files.length + 2 := by
  obtain ⟨r, t, hmain, hfree, -⟩ := (wp_main hplaced).total fun _ ⟨x, hx, hrefused⟩ =>
    hnot x hx hrefused
  exact ⟨t, hmain, hfree⟩

def manyFiles : List HostFile :=
  (List.range 199).map fun k =>
    { name := [UInt8.ofNat (97 + k / 26), UInt8.ofNat (97 + k % 26)], pieces := [] }

theorem manyFiles_placed : Placed manyFiles := by
  have hblocks : blocksOf manyFiles = blocksFor (16 * 201) := by
    have hzero : (manyFiles.map fun x => blocksFor x.bytes.length).sum = 0 := by
      rw [manyFiles, List.map_map]
      change ((List.range 199).map fun _ => 0).sum = 0
      rw [List.map_const', List.sum_replicate_nat, Nat.mul_zero]
    rw [blocksOf, hzero]
    simp [manyFiles]
  constructor
  · simp [manyFiles]
  · rw [hblocks]
    decide

theorem manyFiles_not_refused : ∀ x ∈ manyFiles, ¬Refused x := by
  intro x hx
  obtain ⟨k, hk, rfl⟩ := List.mem_map.1 hx
  rw [List.mem_range] at hk
  have hletter : ∀ m, m < 150 → slash ≠ UInt8.ofNat (97 + m) := by decide
  rintro (hslash | hbig)
  · have hname : slash ∈ [UInt8.ofNat (97 + k / 26), UInt8.ofNat (97 + k % 26)] := by
      simpa [shortname, userDir, List.isPrefixOf] using hslash
    rw [List.mem_cons, List.mem_singleton] at hname
    rcases hname with hname | hname
    · exact hletter _ (by omega) hname
    · exact hletter _ (by omega) hname
  · change 268 * 1024 < 0 at hbig
    omega

end Xv6.Mkfs
