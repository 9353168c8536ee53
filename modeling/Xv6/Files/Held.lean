import Xv6.Fs.Refs
import Xv6.Lib.Tally
import Xv6.Files.Code

/-!
# The calls on paths drop what they take

On every path through `link`, `unlink`, `create` and the rest, the references to
inodes that the call has taken are dropped or handed to its caller.
-/

namespace Xv6.Files

open Lib Lib.Cmd Fs

theorem quiet_addLink (k : Slot) (n : Int16) : Quiet (addLink k n) :=
  .bind (quiet_setEntry k (fun _ => rfl) (fun _ => rfl) fun _ => rfl) fun _ => quiet_iupdate k

theorem quiet_isdiremptyLoop (k : Slot) (fuel off : Nat) : Quiet (isdiremptyLoop k fuel off) := by
  induction fuel generalizing off with
  | zero => exact .of_pure _
  | succ fuel ih =>
    refine (quiet_entry k).bind fun _ => .ite ?_ (.of_pure _)
    exact (quiet_readDirent k _ rfl).bind fun _ => .ite (.of_pure _) (ih _)

theorem quiet_inUse (k : Slot) : Quiet (inUse k) := by
  refine (quiet_entry k).bind fun _ => .ite ?_ (.of_pure _)
  refine Keeps.bind ?_ fun _ => .of_pure _
  exact (quiet_entry k).bind fun _ => quiet_isdiremptyLoop k _ _

section

variable {c ip dp : Slot} {s t : Fs.State} {l : List Slot}

theorem held_endOp {α : Type} {a : α} (h : Holds c s t l) :
    wp (do endOp; return a) (fun _ u => Holds c s u l) (fun e => e.ofFs = true) t := by
  rw [wp_bind]
  exact h.quiet quiet_endOp

theorem held_linkBad (h : Holds c s t (ip :: l)) :
    wp (linkBad ip) (fun _ u => Holds c s u l) (fun e => e.ofFs = true) t := by
  unfold linkBad
  refine (h.quiet (quiet_ilock ip)).bind fun _ u hu => ?_
  refine (hu.quiet (quiet_addLink ip _)).bind fun _ v hv => ?_
  exact hv.iunlockput.bind fun _ w hw => held_endOp hw

theorem held_linkIn (h : Holds c s t (dp :: ip :: l)) (name : Str) :
    wp (linkIn ip dp name) (fun _ u => Holds c s u l) (fun e => e.ofFs = true) t := by
  unfold linkIn
  refine (h.quiet (quiet_entry dp)).bind fun d u hu => ?_
  refine (hu.quiet (quiet_entry ip)).bind fun x v hv => ?_
  have hbad : ∀ w, Holds c s w (dp :: ip :: l) →
      wp (do iunlockput dp; linkBad ip) (fun _ u => Holds c s u l) (fun e => e.ofFs = true) w := by
    intro w hw
    exact hw.iunlockput.bind fun _ x hx => held_linkBad hx
  rw [wp_ite]
  refine ⟨fun _ => hbad v hv, fun _ => ?_⟩
  refine (hv.dirlink dp name _).bind fun r w hw => ?_
  rw [wp_ite]
  refine ⟨fun _ => hbad w hw, fun _ => ?_⟩
  refine hw.iunlockput.bind fun _ x hx => ?_
  exact hx.iput.bind fun _ y hy => held_endOp hy

theorem held_link (c : Slot) (s : Fs.State) (old new : Str) :
    wp (link c old new) (fun _ u => Holds c s u []) (fun e => e.ofFs = true) s := by
  unfold link
  refine ((Holds.refl c s).quiet quiet_beginOp).bind fun _ t ht => ?_
  refine (ht.namei old).bind fun r u hu => ?_
  split
  next => exact held_endOp hu
  next ip =>
    refine (hu.quiet (quiet_ilock ip)).bind fun _ v hv => ?_
    refine (hv.quiet (quiet_entry ip)).bind fun x w hw => ?_
    rw [wp_ite]
    refine ⟨fun _ => ?_, fun _ => ?_⟩
    · exact hw.iunlockput.bind fun _ y hy => held_endOp hy
    · refine (hw.quiet (quiet_addLink ip 1)).bind fun _ y hy => ?_
      refine (hy.quiet (quiet_iunlock ip)).bind fun _ z hz => ?_
      refine (hz.namex new true).bind fun r a ha => ?_
      split
      next => exact held_linkBad ha
      next dp name =>
        exact (ha.quiet (quiet_ilock dp)).bind fun _ b hb => held_linkIn hb name

theorem held_unlinkBad (h : Holds c s t (dp :: l)) :
    wp (unlinkBad dp) (fun _ u => Holds c s u l) (fun e => e.ofFs = true) t := by
  unfold unlinkBad
  exact h.iunlockput.bind fun _ u hu => held_endOp hu

theorem held_unlinkAt (h : Holds c s t (ip :: dp :: l)) (off : Nat) :
    wp (unlinkAt dp ip off) (fun _ u => Holds c s u l) (fun e => e.ofFs = true) t := by
  unfold unlinkAt
  refine (h.quiet (quiet_entry ip)).bind fun x u hu => ?_
  refine (hu.quiet (quiet_writeDirent dp off _ rfl)).bind fun _ v hv => ?_
  rw [wp_bind]
  have hquiet : Quiet (if x.type = T_DIR then addLink dp (-1) else pure ⟨⟩) :=
    .ite (quiet_addLink dp _) (.of_pure _)
  refine (hv.quiet hquiet).imp fun _ w hw => ?_
  refine (hw.perm (List.Perm.swap dp ip l)).iunlockput.bind fun _ y hy => ?_
  refine (hy.quiet (quiet_addLink ip _)).bind fun _ z hz => ?_
  exact hz.iunlockput.bind fun _ a ha => held_endOp ha

theorem held_unlink (c : Slot) (s : Fs.State) (path : Str) :
    wp (unlink c path) (fun _ u => Holds c s u []) (fun e => e.ofFs = true) s := by
  unfold unlink
  refine ((Holds.refl c s).quiet quiet_beginOp).bind fun _ t ht => ?_
  refine (ht.namex path true).bind fun r u hu => ?_
  split
  next => exact held_endOp hu
  next dp name =>
    refine (hu.quiet (quiet_ilock dp)).bind fun _ v hv => ?_
    rw [wp_ite]
    refine ⟨fun _ => held_unlinkBad hv, fun _ => ?_⟩
    refine (hv.dirlookup dp name).bind fun r w hw => ?_
    split
    next => exact held_unlinkBad hw
    next ip off =>
      refine (hw.quiet (quiet_ilock ip)).bind fun _ x hx => ?_
      refine (hx.quiet (quiet_entry ip)).bind fun n y hy => ?_
      rw [wp_ite]
      refine ⟨fun _ => rfl, fun _ => ?_⟩
      refine (hy.quiet (quiet_inUse ip)).bind fun busy z hz => ?_
      rw [wp_ite]
      refine ⟨fun _ => ?_, fun _ => held_unlinkAt hz off⟩
      exact hz.iunlockput.bind fun _ a ha => held_unlinkBad ha

theorem held_createDots (h : Holds c s t l) (dp ip : Slot) :
    wp (createDots dp ip) (fun _ u => Holds c s u l) (fun e => e.ofFs = true) t := by
  unfold createDots
  refine (h.quiet (quiet_addLink dp 1)).bind fun _ u hu => ?_
  refine (hu.quiet (quiet_entry ip)).bind fun x v hv => ?_
  refine (hv.dirlink ip dot _).bind fun r w hw => ?_
  rw [wp_ite]
  refine ⟨fun _ => rfl, fun _ => ?_⟩
  refine (hw.quiet (quiet_entry dp)).bind fun d y hy => ?_
  refine (hy.dirlink ip dotdot _).bind fun r z hz => ?_
  rw [wp_ite]
  exact ⟨fun _ => rfl, fun _ => hz⟩

theorem held_createNew (h : Holds c s t (dp :: l)) (name : Str) (type major minor : Int16) :
    wp (createNew dp name type major minor) (fun ip u => Holds c s u (ip :: l))
      (fun e => e.ofFs = true) t := by
  unfold createNew
  refine (h.quiet (quiet_entry dp)).bind fun d u hu => ?_
  refine (hu.ialloc _ type).bind fun ip v hv => ?_
  refine (hv.quiet (quiet_ilock ip)).bind fun _ w hw => ?_
  rw [wp_bind]
  have hset : Quiet (setEntry ip fun x =>
      { x with major := major, minor := minor, nlink := 1 }) :=
    quiet_setEntry ip (fun _ => rfl) (fun _ => rfl) fun _ => rfl
  refine (hw.quiet hset).imp fun _ x hx => ?_
  refine (hx.quiet (quiet_iupdate ip)).bind fun _ y hy => ?_
  rw [wp_bind]
  have hdots : wp (if type = T_DIR then createDots dp ip else pure ⟨⟩)
      (fun _ u => Holds c s u (ip :: dp :: l)) (fun e => e.ofFs = true) y := by
    rw [wp_ite]
    exact ⟨fun _ => held_createDots hy dp ip, fun _ => hy⟩
  refine hdots.imp fun _ z hz => ?_
  refine (hz.quiet (quiet_entry ip)).bind fun n a ha => ?_
  refine (ha.dirlink dp name _).bind fun r b hb => ?_
  rw [wp_ite]
  refine ⟨fun _ => rfl, fun _ => ?_⟩
  rw [wp_bind]
  exact (hb.perm (List.Perm.swap dp ip l)).iunlockput

theorem held_create (h : Holds c s t l) (path : Str) (type major minor : Int16) :
    wp (create c path type major minor) (fun r u => Holds c s u (r.toList ++ l))
      (fun e => e.ofFs = true) t := by
  unfold create
  refine (h.namex path true).bind fun r u hu => ?_
  split
  next => exact hu
  next dp name =>
    refine (hu.quiet (quiet_ilock dp)).bind fun _ v hv => ?_
    refine (hv.dirlookup dp name).bind fun r w hw => ?_
    split
    next ip off =>
      refine (hw.perm (List.Perm.swap dp ip l)).iunlockput.bind fun _ x hx => ?_
      refine (hx.quiet (quiet_ilock ip)).bind fun _ y hy => ?_
      refine (hy.quiet (quiet_entry ip)).bind fun n z hz => ?_
      rw [wp_ite]
      refine ⟨fun _ => hz, fun _ => ?_⟩
      rw [wp_bind]
      exact hz.iunlockput
    next =>
      rw [wp_bind]
      exact held_createNew hw name type major minor

theorem held_openInode (h : Holds c s t l) (path : Str) (omode : UInt32) :
    wp (openInode c path omode) (fun r u => Holds c s u (r.toList ++ l))
      (fun e => e.ofFs = true) t := by
  unfold openInode
  rw [wp_ite]
  refine ⟨fun _ => held_create h path _ _ _, fun _ => ?_⟩
  refine (h.namei path).bind fun r u hu => ?_
  split
  next => exact hu
  next ip =>
    refine (hu.quiet (quiet_ilock ip)).bind fun _ v hv => ?_
    refine (hv.quiet (quiet_entry ip)).bind fun x w hw => ?_
    rw [wp_ite]
    refine ⟨fun _ => ?_, fun _ => hw⟩
    rw [wp_bind]
    exact hw.iunlockput

theorem held_make (c : Slot) (s : Fs.State) (path : Str) (type major minor : Int16) :
    wp (make c path type major minor) (fun _ u => Holds c s u []) (fun e => e.ofFs = true) s := by
  unfold make
  refine ((Holds.refl c s).quiet quiet_beginOp).bind fun _ t ht => ?_
  refine (held_create ht path type major minor).bind fun r u hu => ?_
  split
  next => exact held_endOp hu
  next ip =>
    exact hu.iunlockput.bind fun _ v hv => held_endOp hv

theorem held_execFile (c : Slot) (s : Fs.State) (path : Str) (reads : List (Nat × Nat)) :
    wp (execFile c path reads) (fun _ u => Holds c s u []) (fun e => e.ofFs = true) s := by
  unfold execFile
  refine ((Holds.refl c s).quiet quiet_beginOp).bind fun _ t ht => ?_
  refine (ht.namei path).bind fun r u hu => ?_
  split
  next => exact hu.quiet quiet_endOp
  next ip =>
    refine (hu.quiet (quiet_ilock ip)).bind fun _ v hv => ?_
    rw [wp_bind]
    have hreads : Quiet (forM reads fun r => do
        let _ ← readi ip (.kernel fun _ => 0) r.1 r.2) :=
      .of_forM (fun r => (quiet_readi ip _ _ _).bind fun _ => .of_pure _) reads
    refine (hv.quiet hreads).imp fun _ w hw => ?_
    exact hw.iunlockput.bind fun _ x hx => hx.quiet quiet_endOp

/-- `chdir` takes a reference to the new directory and drops the one to the old. -/
theorem held_chdir (c : Slot) (s : Fs.State) (path : Str) :
    wp (chdir c path)
      (fun r u => (∀ k, (u.inode k).ref = (s.inode k).ref +
          if r = none then 0 else points r k - points (some c) k) ∧
        (0 < (s.inode c).ref → s.Unique → u.Unique))
      (fun e => e.ofFs = true) s := by
  have hnone : ∀ u, Holds c s u [] → (∀ k, (u.inode k).ref = (s.inode k).ref + 0) ∧
      (0 < (s.inode c).ref → s.Unique → u.Unique) :=
    fun u hu => ⟨fun k => by simpa using hu.ref k, hu.unique⟩
  unfold chdir
  refine ((Holds.refl c s).quiet quiet_beginOp).bind fun _ t ht => ?_
  refine (ht.namei path).bind fun r u hu => ?_
  split
  next =>
    exact (hu.quiet quiet_endOp).bind fun _ v hv => hnone v hv
  next ip =>
    refine (hu.quiet (quiet_ilock ip)).bind fun _ v hv => ?_
    refine (hv.quiet (quiet_entry ip)).bind fun x w hw => ?_
    rw [wp_ite]
    refine ⟨fun _ => ?_, fun _ => ?_⟩
    · refine hw.iunlockput.bind fun _ y hy => ?_
      exact (hy.quiet quiet_endOp).bind fun _ z hz => hnone z hz
    · refine (hw.quiet (quiet_iunlock ip)).bind fun _ y hy => ?_
      refine (ref_iput c y).bind fun _ z hz => ?_
      refine (quiet_endOp z).bind fun _ a ha => ⟨fun k => ?_, fun hc hs => ?_⟩
      · have hk : ((Option.toList (some ip) ++ []).count k : Int) = points (some ip) k := by
          by_cases hik : ip = k <;> simp [points, hik]
        have hck : (if k = c then (1 : Int) else 0) = points (some c) k := by
          simp [points, eq_comm]
        rw [ha.ref, hz.1, hy.ref, hk, hck, if_neg (by simp)]
        omega
      · exact (hz.2 (hy.unique hc hs)).still ha

end

end Xv6.Files
