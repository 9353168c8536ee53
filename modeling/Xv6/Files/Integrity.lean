import Xv6.Files.Upkeep
import Xv6.Lib.Transition

/-!
# Runs of file-system calls

Every call on the file system, taken in any order from any intact state, leaves it intact.  What
follows for readers: no file has a hole, so reading allocates no block and needs no transaction.
What follows for the bitmap: a block has one owner, and `bfree` never meets a free one.
-/

namespace Xv6.Files

open Lib Lib.Cmd Fs

/-- The calls on inodes.  `begin_op` and `end_op` are calls of their own, but for those that the
system calls `link` and `unlink` make themselves. -/
inductive Op
  | writei (ip : Slot) (src : Src) (off n : Nat)
  | itrunc (ip : Slot)
  | dirlink (dp : Slot) (name : Str) (inum : Nat)
  | unlink (cwd : Slot) (path : Str)
  | link (cwd : Slot) (old new : Str)
  | create (cwd : Slot) (path : Str) (type major minor : Int16)
  | ialloc (type : Int16)
  | iget (inum : Nat)
  | idup (ip : Slot)
  | ilock (ip : Slot)
  | iunlock (ip : Slot)
  | iput (ip : Slot)
  | beginOp
  | endOp

def Op.run : Op → Fs.Cmd PUnit
  | writei ip src off n => do let _ ← Fs.writei ip src off n
  | itrunc ip => Fs.itrunc ip
  | dirlink dp name inum => do let _ ← Fs.dirlink dp name inum
  | unlink cwd path => do let _ ← Files.unlink cwd path
  | link cwd old new => do let _ ← Files.link cwd old new
  | create cwd path type major minor => do let _ ← Files.create cwd path type major minor
  | ialloc type => do let _ ← Fs.ialloc ROOTDEV type
  | iget inum => do let _ ← Fs.iget ROOTDEV inum
  | idup ip => do let _ ← Fs.idup ip
  | ilock ip => Fs.ilock ip
  | iunlock ip => Fs.iunlock ip
  | iput ip => Fs.iput ip
  | beginOp => Fs.beginOp
  | endOp => Fs.endOp

/-- What the callers see to.  Blocks change only in a transaction, and an inode's content only after
`ilock` has read it; `open` never makes a directory writable, so that `writei` is for other files. -/
def Op.Ready (s : Fs.State) : Op → Prop
  | writei ip _ _ _ => Held s ip ∧ (s.inode ip).type ≠ T_DIR ∧ 0 < s.outstanding
  | itrunc ip => Held s ip ∧ 0 < s.outstanding
  | dirlink dp _ inum => Held s dp ∧ inum < s.sb.ninodes ∧ 0 < s.outstanding
  | unlink cwd _ => 0 < (s.inode cwd).ref
  | link cwd _ _ => 0 < (s.inode cwd).ref
  | create cwd _ _ _ _ => 0 < (s.inode cwd).ref ∧ 0 < s.outstanding
  | ialloc _ => 0 < s.outstanding
  | iget inum => inum < s.sb.ninodes
  | idup ip => 0 < (s.inode ip).ref
  | iput _ => 0 < s.outstanding
  | ilock _ => True
  | iunlock _ => True
  | beginOp => True
  | endOp => True

def OpStep (s : Fs.State) (op : Op) (t : Fs.State) : Prop := op.Ready s ∧ op.run s = .ok (⟨⟩, t)

section

variable {s t : Fs.State} {k : Slot}

theorem op_settled (h : Intact s) (op : Op) (hop : op.Ready s) :
    wp op.run (fun _ t => Settled s t) (fun e => e.excluded = false) s := by
  cases op with
  | writei ip src off n =>
    unfold Op.run
    exact (writei_evolves h hop.1 hop.2.1 hop.2.2).bind fun _ _ ht => settled ht
  | itrunc ip =>
    exact (itrunc_evolves h hop.1 hop.2).mono (fun _ _ ht => settled ht.1) fun _ he => he.elim
  | dirlink dp name inum =>
    unfold Op.run
    exact (dirlink_evolves h hop.1 hop.2.2 name hop.2.1).bind fun _ _ ht => settled ht
  | unlink cwd path =>
    unfold Op.run
    rw [wp_bind]
    exact unlink_settled h hop path
  | link cwd old new =>
    unfold Op.run
    rw [wp_bind]
    exact link_settled h hop old new
  | create cwd path type major minor =>
    unfold Op.run
    exact (create_evolves h hop.1 hop.2 path type major minor).bind fun _ _ ht => settled ht
  | ialloc type =>
    unfold Op.run
    rw [wp_bind]
    apply (ialloc_evolves type h hop).imp
    rintro _ t ⟨u, hu, -, ht⟩
    exact settled (hu.trans ht.evolves)
  | iget inum =>
    unfold Op.run
    exact (iget_evolves h hop).bind fun _ _ ht => settled ht.evolves
  | idup ip =>
    unfold Op.run
    exact (idup_evolves h hop).bind fun _ _ ht => settled ht.evolves
  | ilock ip => exact (ilock_evolves h).imp fun _ _ ht => settled ht.1
  | iunlock ip =>
    exact (iunlock_evolves (P := fun _ => True) h).imp fun _ _ ht => settled ht.1
  | iput ip => exact (iput_evolves h hop).imp fun _ _ ht => settled ht.1
  | beginOp => exact (intact_beginOp h).imp fun _ _ ht => ht.1
  | endOp => exact settled_endOp (settled (Evolves.refl (P := fun _ => True) h))

theorem run_settled {ops : List Op} (hrun : Run OpStep s ops t) (h : Intact s) : Settled s t := by
  apply hrun.invariant (I := fun t => Settled s t)
  · intro t op u ht hstep
    exact ht.trans ((op_settled ht.intact op hstep.1).ok hstep.2)
  · exact settled (Evolves.refl (P := fun _ => True) h)

/-!
## Readers
-/

/-- `fileread` of an inode from offset `off` on, up to the new offset. -/
def fileread (ip : Slot) (dst : Dst) (off n : Nat) : Fs.Cmd (Int × Dst) := do
  ilock ip
  let r ← readi ip dst off n
  iunlock ip
  return r

/-- `filestat`, up to the copy of the result. -/
def filestat (ip : Slot) : Fs.Cmd Inode := do
  ilock ip
  let st ← entry ip
  iunlock ip
  return st

/-- The call changes no block, and stops for no reason that has to do with blocks. -/
def OnlyReads {α : Type} (c : Fs.Cmd α) (s : Fs.State) : Prop :=
  wp c (fun _ t => SameDisk s t) (fun e => e.excluded = false) s

theorem fileread_onlyReads (h : Intact s) (ip : Slot) (dst : Dst) (off n : Nat) :
    OnlyReads (fileread ip dst off n) s := by
  unfold OnlyReads fileread
  rw [wp_bind]
  apply (ilock_evolves h).imp
  rintro _ t ⟨ht, hsame, hk, -⟩
  obtain ⟨r, hr⟩ := readi_still ht.intact hk dst off n
  rw [wp_bind, wp_of_ok hr, wp_bind]
  apply (iunlock_evolves (P := fun _ => True) ht.intact).imp
  rintro _ u ⟨-, hsame', -⟩
  exact hsame.trans hsame'

theorem filestat_onlyReads (h : Intact s) (ip : Slot) : OnlyReads (filestat ip) s := by
  unfold OnlyReads filestat
  rw [wp_bind]
  apply (ilock_evolves h).imp
  rintro _ t ⟨ht, hsame, -⟩
  rw [wp_bind, wp_of_ok (entry_ok ip), wp_bind]
  apply (iunlock_evolves (P := fun _ => True) ht.intact).imp
  rintro _ u ⟨-, hsame', -⟩
  exact hsame.trans hsame'

theorem dirlookup_onlyReads (h : Intact s) (hk : Held s k) (name : Str) :
    OnlyReads (dirlookup k name) s := by
  apply (dirlookup_looked h hk name).imp
  intro r t ht
  cases ht with
  | none => exact ⟨rfl, rfl, rfl⟩
  | found e href => exact href.sameDisk

theorem oneFile_step : ∃ t, OpStep oneFile (.writei 0 (.kernel fun _ => 7) 0 3072) t ∧
    Evolves (fun _ => True) oneFile t ∧ Still oneFile t ∧ (t.inode 0).size.toNat = 3072 := by
  have hneeds : oneFile.needs 0 (0 / 1024) (pieceEnd (0 + 3072)) ≤ oneFile.free.card := by
    rw [card_free_oneFile]
    exact Nat.le_trans (needs_le ..) (by decide)
  have hfile : (oneFile.inode 0).type ≠ T_DIR := by
    have htype : (oneFile.inode 0).type = T_FILE := congrArg Dinode.type oneFile_entry
    rw [htype]
    decide
  have hempty : (oneFile.inode 0).size.toNat = 0 := by
    rw [oneFile_entry]
    rfl
  obtain ⟨t, hrun, hw⟩ := @writei_all oneFile 0 (.kernel fun _ => 7) 0 3072 owned_oneFile
    full_oneFile (intact_oneFile.sizeAt oneFile_held) oneFile_outstanding (Nat.zero_le _)
    (by decide) (fun _ _ => rfl) hneeds
  refine ⟨t, ⟨⟨oneFile_held, hfile, oneFile_outstanding⟩, ?_⟩, ?_, ?_, ?_⟩
  · change (Fs.writei 0 (.kernel fun _ => 7) 0 3072 >>= fun _ => pure PUnit.unit) oneFile = _
    rw [bind_ok hrun]
    rfl
  · exact (writei_evolves intact_oneFile oneFile_held hfile oneFile_outstanding).ok hrun
  · exact (quiet_writei 0 0 3072 (.kernel fun _ => 7)).rel hrun
  · have hsize := hw.size (Nat.zero_le _)
    rw [hempty, length_bytes] at hsize
    exact hsize

theorem oneFile_run :
    ∃ t, Run OpStep oneFile [.writei 0 (.kernel fun _ => 7) 0 3072, .endOp] t := by
  obtain ⟨t, hstep, -⟩ := oneFile_step
  exact ⟨_, (Run.single hstep).tail ⟨trivial, rfl⟩⟩

/-- A data block that an inode refers to, directly, through its indirect block or as its indirect
block, is in the data region and in use, and there is one reference to it; a block in use is one of
the first, or has a reference. -/
structure OneOwner (s : Fs.State) : Prop where
  region : ∀ i q, i < s.sb.ninodes → q < 269 → (s.dinode i).block s.bufs q ≠ 0 →
    s.sb.nmeta ≤ (s.dinode i).block s.bufs q ∧ (s.dinode i).block s.bufs q < s.sb.size
  used : ∀ i q, i < s.sb.ninodes → q < 269 → (s.dinode i).block s.bufs q ≠ 0 →
    s.used ((s.dinode i).block s.bufs q) = true
  distinct : ∀ i q i' q', i < s.sb.ninodes → q < 269 → i' < s.sb.ninodes → q' < 269 →
    (s.dinode i).block s.bufs q ≠ 0 →
    (s.dinode i).block s.bufs q = (s.dinode i').block s.bufs q' → i = i' ∧ q = q'
  noLost : NoLost s

theorem oneOwner_of_intact (h : Intact s) (hlost : NoLost s) : OneOwner s :=
  ⟨h.region, h.used, h.distinct, hlost⟩

theorem balloc_fresh (h : Intact s) (hout : 0 < s.outstanding) :
    wp balloc (fun b _ => s.sb.nmeta ≤ b ∧ b < s.sb.size ∧ s.used b = false ∧
      ∀ i q, i < s.sb.ninodes → q < 269 → (s.dinode i).block s.bufs q ≠ b)
      (fun e => e = .outOfBlocks) s := by
  apply (balloc_spec hout).mono
  · rintro b t ⟨hb, -⟩
    obtain ⟨hsize, hunused⟩ := mem_free.1 hb
    have hmeta : s.sb.nmeta ≤ b := by
      by_contra hlt
      rw [h.metaUsed b (by omega)] at hunused
      cases hunused
    refine ⟨hmeta, hsize, hunused, fun i q hi hq heq => ?_⟩
    unfold Superblock.nmeta at hmeta
    have hused := h.used i q hi hq (by omega)
    rw [heq, hunused] at hused
    cases hused
  · exact fun e he => he.1

/-- `ialloc` takes an inode without a type as it is, and loses the blocks that it has. -/
theorem ialloc_loses (h : Intact s) (hout : 0 < s.outstanding) (hfree : (s.dinode 1).type = 0)
    (hk : 0 < (s.inode k).ref) (hinum : (s.inode k).inum = 1)
    (hblock : (s.dinode 1).block s.bufs 0 ≠ 0) (type : Int16) :
    ∃ t, OpStep s (.ialloc type) t ∧ ¬NoLost t := by
  have hroot : 1 < s.sb.ninodes := h.root
  have hfind : (List.range' 1 (s.sb.ninodes - 1)).find? (fun i => (s.dinode i).type == 0) = some 1 := by
    obtain ⟨n, hn⟩ := Nat.exists_eq_add_of_lt hroot
    rw [hn, show 1 + n + 1 - 1 = n + 1 by omega, List.range'_succ, List.find?_cons_of_pos]
    rw [hfree]
    rfl
  obtain ⟨k', hk'⟩ : ∃ k', (s.created 1 type).find ROOTDEV 1 = some k' := by
    cases hnone : (s.created 1 type).find ROOTDEV 1 with
    | some k' => exact ⟨k', rfl⟩
    | none => exact absurd ⟨h.dev k hk, hinum⟩ (State.find_none hnone k hk)
  refine ⟨(s.created 1 type).adjust k' fun ip => { ip with ref := ip.ref + 1 }, ⟨hout, ?_⟩, ?_⟩
  · have higet : iget ROOTDEV 1 (s.created 1 type) =
        .ok (k', (s.created 1 type).adjust k' fun ip => { ip with ref := ip.ref + 1 }) := by
      unfold iget
      rw [bind_ok (show (get : Fs.Cmd Fs.State) _ = _ from rfl), hk']
      rfl
    have hialloc : ialloc ROOTDEV type s =
        .ok (k', (s.created 1 type).adjust k' fun ip => { ip with ref := ip.ref + 1 }) := by
      unfold ialloc
      rw [bind_ok (show (get : Fs.Cmd Fs.State) _ = _ from rfl), hfind]
      dsimp only
      rw [bind_ok (update_ok hout)]
      exact higet
    change (ialloc ROOTDEV type >>= fun _ => pure PUnit.unit) s = _
    rw [bind_ok hialloc]
    rfl
  · intro hnot
    obtain ⟨hmeta, hsize⟩ := h.region 1 0 hroot (by decide) hblock
    have hused : (s.created 1 type).used ((s.dinode 1).block s.bufs 0) = true := by
      rw [created_used type h hroot]
      exact h.used 1 0 hroot (by decide) hblock
    obtain ⟨i, q, hi, hq, heq⟩ := hnot _ hmeta hsize hused
    change ((s.created 1 type).dinode i).block (s.created 1 type).bufs q = _ at heq
    rw [created_block type h hroot hi] at heq
    by_cases hself : i = 1
    · rw [if_pos hself] at heq
      exact hblock heq.symm
    · rw [if_neg hself] at heq
      exact hself (h.distinct 1 0 i q hroot (by decide) hi hq hblock heq.symm).1.symm

end

end Xv6.Files
