import Xv6.Fs.Code

/-!
# The references that a call holds

Most of `fs.c` leaves the identities and the reference counts of the inode table
alone.  `iget` and `idup` add a reference and `iput` drops one; `Holds` follows the
list of references a call has taken and not yet dropped.
-/

namespace Xv6.Fs

open Lib Lib.Cmd

@[simp] theorem State.adjust_self (s : State) (k : Slot) (f : Inode → Inode) :
    (s.adjust k f).inode k = f (s.inode k) := by
  simp [State.adjust]

variable {k : Slot} {s : State} {dev inum : Nat}

theorem State.adjust_of_ne (s : State) {j : Slot} (f : Inode → Inode) (h : j ≠ k) :
    (s.adjust k f).inode j = s.inode j := by
  simp [State.adjust, upd_of_ne _ _ _ h]

structure Still (s t : State) : Prop where
  dev : ∀ k, (t.inode k).dev = (s.inode k).dev
  inum : ∀ k, (t.inode k).inum = (s.inode k).inum
  ref : ∀ k, (t.inode k).ref = (s.inode k).ref

instance : Std.Refl Still where
  refl _ := ⟨fun _ => rfl, fun _ => rfl, fun _ => rfl⟩

instance : IsTrans State Still where
  trans _ _ _ h h' :=
    ⟨fun k => (h'.dev k).trans (h.dev k), fun k => (h'.inum k).trans (h.inum k),
      fun k => (h'.ref k).trans (h.ref k)⟩

abbrev Quiet {α : Type} (c : Cmd α) : Prop := Keeps Still (fun e => e.ofFs = true) c

section

variable (k : Slot) (b off n : Nat) (d : Bytes)

theorem quiet_bread : Quiet (bread b) := Keeps.of_get.bind fun _ => .of_pure _

theorem quiet_entry : Quiet (entry k) := Keeps.of_get.bind fun _ => .of_pure _

theorem quiet_fill : Quiet (fill b d) :=
  .of_modify fun _ => ⟨fun _ => rfl, fun _ => rfl, fun _ => rfl⟩

theorem quiet_logWrite : Quiet (logWrite b) := by
  intro s
  unfold logWrite
  rw [wp_bind, wp_get, wp_ite]
  exact ⟨fun _ => rfl, fun _ => ⟨fun _ => rfl, fun _ => rfl, fun _ => rfl⟩⟩

theorem quiet_update : Quiet (update b d) := (quiet_fill b d).bind fun _ => quiet_logWrite b

theorem quiet_beginOp : Quiet beginOp :=
  .of_modify fun _ => ⟨fun _ => rfl, fun _ => rfl, fun _ => rfl⟩

theorem quiet_endOp : Quiet endOp := .of_modify fun _ => ⟨fun _ => rfl, fun _ => rfl, fun _ => rfl⟩

theorem quiet_setEntry {f : Inode → Inode} (hdev : ∀ x, (f x).dev = x.dev)
    (hinum : ∀ x, (f x).inum = x.inum) (href : ∀ x, (f x).ref = x.ref) :
    Quiet (setEntry k f) := by
  refine .of_modify fun s => ⟨fun j => ?_, fun j => ?_, fun j => ?_⟩ <;>
    simp only [State.adjust, upd_eq] <;> split <;> simp_all

theorem quiet_setAddr (i : Fin 13) : Quiet (setAddr k i b) :=
  quiet_setEntry k (fun _ => rfl) (fun _ => rfl) fun _ => rfl

theorem quiet_ballocFrom (sb : Superblock) : Quiet (ballocFrom sb n b) := by
  induction n generalizing b with
  | zero => exact .of_throw rfl
  | succ n ih =>
    refine .ite ((quiet_bread _).bind fun d => ?_) (.of_throw rfl)
    split
    · exact (quiet_update _ _).bind fun _ => (quiet_update _ _).bind fun _ => .of_pure _
    · exact ih _

theorem quiet_balloc : Quiet balloc := Keeps.of_get.bind fun _ => quiet_ballocFrom _ _ _

theorem quiet_bfree : Quiet (bfree b) :=
  Keeps.of_get.bind fun _ => (quiet_bread _).bind fun _ => .ite (quiet_update _ _) (.of_throw rfl)

theorem quiet_iupdate : Quiet (iupdate k) := Keeps.of_get.bind fun _ => quiet_update _ _

theorem quiet_acquiresleep : Quiet (acquiresleep k) :=
  (quiet_entry k).bind fun _ =>
    .ite (.of_throw rfl) (quiet_setEntry k (fun _ => rfl) (fun _ => rfl) fun _ => rfl)

theorem quiet_releasesleep : Quiet (releasesleep k) :=
  quiet_setEntry k (fun _ => rfl) (fun _ => rfl) fun _ => rfl

theorem quiet_iload : Quiet (iload k) :=
  Keeps.of_get.bind fun _ => quiet_setEntry k (fun _ => rfl) (fun _ => rfl) fun _ => rfl

theorem quiet_ilock : Quiet (ilock k) := by
  refine (quiet_entry k).bind fun ip => .ite (.of_throw rfl) ?_
  refine (quiet_acquiresleep k).bind fun _ => .ite (.of_pure _) ?_
  exact (quiet_iload k).bind fun _ =>
    (quiet_entry k).bind fun _ => .ite (.of_throw rfl) (.of_pure _)

theorem quiet_iunlock : Quiet (iunlock k) :=
  (quiet_entry k).bind fun _ => .ite (.of_throw rfl) (quiet_releasesleep k)

theorem quiet_itruncDirect : Quiet (itruncDirect k) :=
  .of_forM (fun _ => (quiet_entry k).bind fun _ => .ite (.of_pure _)
    ((quiet_bfree _).bind fun _ => quiet_setAddr k _ _)) _

theorem quiet_itruncIndirect : Quiet (itruncIndirect k) := by
  refine (quiet_entry k).bind fun ip => .ite (.of_pure _) ((quiet_bread _).bind fun d => ?_)
  refine (Keeps.of_forM (fun j => ?_) _).bind fun _ =>
    (quiet_bfree _).bind fun _ => quiet_setAddr k _ _
  exact .ite (.of_pure _) (quiet_bfree _)

theorem quiet_itrunc : Quiet (itrunc k) :=
  (quiet_itruncDirect k).bind fun _ => (quiet_itruncIndirect k).bind fun _ =>
    .bind (quiet_setEntry k (fun _ => rfl) (fun _ => rfl) fun _ => rfl) fun _ => quiet_iupdate k

theorem quiet_bmapOwn (i : Fin 13) : Quiet (bmapOwn k i) :=
  (quiet_entry k).bind fun _ => .ite
    (quiet_balloc.bind fun _ => (quiet_setAddr k _ _).bind fun _ => .of_pure _) (.of_pure _)

theorem quiet_bmap : Quiet (bmap k n) := by
  unfold bmap
  split
  · exact quiet_bmapOwn k _
  · refine .ite ?_ (.of_throw rfl)
    refine (quiet_bmapOwn k 12).bind fun t => (quiet_bread t).bind fun d => .ite ?_ (.of_pure _)
    exact quiet_balloc.bind fun _ => (quiet_bread _).bind fun _ =>
      (quiet_update _ _).bind fun _ => .of_pure _

theorem quiet_readiLoop (fuel tot off : Nat) (dst : Dst) :
    Quiet (readiLoop k n fuel tot off dst) := by
  induction fuel generalizing tot off dst with
  | zero => exact .of_pure _
  | succ fuel ih =>
    refine .ite ?_ (.of_pure _)
    exact (quiet_bmap k _).bind fun _ => (quiet_bread _).bind fun _ =>
      .ite (ih _ _ _) (.of_pure _)

theorem quiet_readi (dst : Dst) : Quiet (readi k dst off n) :=
  (quiet_entry k).bind fun _ => .ite (.of_pure _) (quiet_readiLoop k _ _ _ _ _)

theorem quiet_writeiLoop (src : Src) (fuel tot off : Nat) :
    Quiet (writeiLoop k src n fuel tot off) := by
  induction fuel generalizing tot off with
  | zero => exact .of_pure _
  | succ fuel ih =>
    refine .ite ?_ (.of_pure _)
    refine (quiet_bmap k _).bind fun _ => (quiet_bread _).bind fun _ => .ite ?_ ?_
    · exact (quiet_update _ _).bind fun _ => ih _ _
    · exact (quiet_fill _ _).bind fun _ => .of_pure _

theorem quiet_writei (src : Src) : Quiet (writei k src off n) := by
  refine (quiet_entry k).bind fun _ => .ite (.of_pure _) (.ite (.of_pure _) ?_)
  exact (quiet_writeiLoop k _ _ _ _ _).bind fun _ =>
    .bind (quiet_setEntry k (fun _ => rfl) (fun _ => rfl) fun _ => rfl) fun _ =>
      (quiet_iupdate k).bind fun _ => .of_pure _

theorem quiet_readDirent {panic : Stop} (h : panic.ofFs = true) : Quiet (readDirent k off panic) := by
  refine (quiet_readi k off 16 _).bind fun r => ?_
  split
  · exact .of_pure _
  · exact .of_throw h

theorem quiet_writeDirent (de : Dirent) {panic : Stop} (h : panic.ofFs = true) : Quiet (writeDirent k off de panic) :=
  (quiet_writei k _ _ _).bind fun _ => .ite (.of_pure _) (.of_throw h)

theorem quiet_dirlinkLoop (fuel : Nat) : Quiet (dirlinkLoop k fuel off) := by
  induction fuel generalizing off with
  | zero => exact .of_pure _
  | succ fuel ih =>
    refine (quiet_entry k).bind fun _ => .ite ?_ (.of_pure _)
    exact (quiet_readDirent k _ rfl).bind fun _ => .ite (.of_pure _) (ih _)

theorem quiet_ifree : Quiet (ifree k) :=
  (quiet_acquiresleep k).bind fun _ => (quiet_itrunc k).bind fun _ =>
    .bind (quiet_setEntry k (fun _ => rfl) (fun _ => rfl) fun _ => rfl) fun _ =>
      (quiet_iupdate k).bind fun _ =>
        .bind (quiet_setEntry k (fun _ => rfl) (fun _ => rfl) fun _ => rfl) fun _ =>
          quiet_releasesleep k

end

def State.Unique (s : State) : Prop :=
  ∀ j k, 0 < (s.inode j).ref → 0 < (s.inode k).ref →
    (s.inode j).dev = (s.inode k).dev → (s.inode j).inum = (s.inode k).inum → j = k

structure Holds (c : Slot) (s t : State) (l : List Slot) : Prop where
  ref : ∀ k, (t.inode k).ref = (s.inode k).ref + l.count k
  unique : 0 < (s.inode c).ref → s.Unique → t.Unique

theorem State.find_some (h : s.find dev inum = some k) :
    0 < (s.inode k).ref ∧ (s.inode k).dev = dev ∧ (s.inode k).inum = inum := by
  have hk := List.find?_some h
  simp only [Bool.and_eq_true, decide_eq_true_eq, beq_iff_eq] at hk
  exact ⟨hk.1.1, hk.1.2, hk.2⟩

theorem State.find_none (h : s.find dev inum = none) (k : Slot)
    (hk : 0 < (s.inode k).ref) : ¬((s.inode k).dev = dev ∧ (s.inode k).inum = inum) := by
  have hall := List.find?_eq_none.1 h k (List.mem_finRange k)
  simp only [Bool.and_eq_true, decide_eq_true_eq, beq_iff_eq] at hall
  exact fun heq => hall ⟨⟨hk, heq.1⟩, heq.2⟩

theorem State.empty_some (h : s.empty = some k) : (s.inode k).ref = 0 := by
  simpa using List.find?_some h

section

variable {c k : Slot} {s t u : State} {l l' : List Slot}

theorem State.Unique.still (h : s.Unique) (hst : Still s t) : t.Unique := by
  intro i j
  rw [hst.ref, hst.ref, hst.dev, hst.dev, hst.inum, hst.inum]
  exact h i j

theorem State.Unique.adjust (h : t.Unique) (k : Slot) (f : Inode → Inode) (hdev : ∀ x, (f x).dev = x.dev)
    (hinum : ∀ x, (f x).inum = x.inum)
    (href : 0 < (f (t.inode k)).ref → 0 < (t.inode k).ref) : (t.adjust k f).Unique := by
  have hpos : ∀ j, 0 < ((t.adjust k f).inode j).ref → 0 < (t.inode j).ref := by
    intro j hj
    by_cases hjk : j = k
    · subst hjk
      exact href (by simpa using hj)
    · rwa [State.adjust_of_ne _ _ hjk] at hj
  have hid : ∀ j, ((t.adjust k f).inode j).dev = (t.inode j).dev ∧
      ((t.adjust k f).inode j).inum = (t.inode j).inum := by
    intro j
    by_cases hjk : j = k
    · subst hjk
      simp [hdev, hinum]
    · simp [State.adjust_of_ne _ _ hjk]
  intro i j hi hj hd hn
  rw [(hid i).1, (hid j).1] at hd
  rw [(hid i).2, (hid j).2] at hn
  exact h i j (hpos i hi) (hpos j hj) hd hn

theorem State.Unique.fresh (h : t.Unique) (hfind : t.find dev inum = none) (k : Slot) :
    (t.adjust k fun ip => { ip with dev := dev, inum := inum, ref := 1, valid := false }).Unique := by
  intro i j hi hj hd hn
  by_cases hik : i = k <;> by_cases hjk : j = k
  · rw [hik, hjk]
  · subst hik
    simp only [State.adjust_self, State.adjust_of_ne _ _ hjk] at hj hd hn
    exact absurd ⟨hd.symm, hn.symm⟩ (State.find_none hfind j hj)
  · subst hjk
    simp only [State.adjust_self, State.adjust_of_ne _ _ hik] at hi hd hn
    exact absurd ⟨hd, hn⟩ (State.find_none hfind i hi)
  · simp only [State.adjust_of_ne _ _ hik, State.adjust_of_ne _ _ hjk] at hi hj hd hn
    exact h i j hi hj hd hn

theorem ref_iput (k : Slot) (t : State) :
    wp (iput k) (fun _ u => (∀ j, (u.inode j).ref = (t.inode j).ref - if j = k then 1 else 0) ∧
      (t.Unique → u.Unique)) (fun e => e.ofFs = true) t := by
  unfold Fs.iput
  refine (quiet_entry k t).bind fun ip u hu => ?_
  rw [wp_bind]
  have hquiet : Quiet (if ip.ref = 1 ∧ ip.valid ∧ ip.nlink = 0 then ifree k else pure ⟨⟩) :=
    .ite (quiet_ifree k) (.of_pure _)
  refine (hquiet u).imp fun _ v hv => ?_
  have htv : Still t v := IsTrans.trans t u v hu hv
  refine ⟨fun j => ?_, fun ht => ?_⟩
  · by_cases hj : j = k
    · subst hj
      rw [State.adjust_self, if_pos rfl, ← htv.ref]
    · rw [State.adjust_of_ne _ _ hj, if_neg hj, htv.ref]
      omega
  · refine (ht.still htv).adjust k _ (fun _ => rfl) (fun _ => rfl) fun hpos => ?_
    simp only at hpos
    omega

namespace Holds

theorem refl (c : Slot) (s : State) : Holds c s s [] := ⟨by simp, fun _ h => h⟩

theorem perm (h : Holds c s t l) (hl : l.Perm l') : Holds c s t l' :=
  ⟨fun k => by rw [h.ref k, hl.count_eq], h.unique⟩

theorem still (h : Holds c s t l) (htu : Still t u) : Holds c s u l :=
  ⟨fun k => by rw [htu.ref, h.ref], fun hc hs => (h.unique hc hs).still htu⟩

theorem quiet {α : Type} {cmd : Cmd α} (h : Holds c s t l) (hc : Quiet cmd) :
    wp cmd (fun _ u => Holds c s u l) (fun e => e.ofFs = true) t :=
  (hc t).imp fun _ _ htu => h.still htu

theorem cwd (h : Holds c s t l) (hc : 0 < (s.inode c).ref) : 0 < (t.inode c).ref := by
  rw [h.ref c]
  omega

theorem take (h : Holds c s t l) (k : Slot) (f : Inode → Inode)
    (href : (f (t.inode k)).ref = (t.inode k).ref + 1)
    (hunique : 0 < (s.inode c).ref → t.Unique → (t.adjust k f).Unique) :
    Holds c s (t.adjust k f) (k :: l) := by
  refine ⟨fun j => ?_, fun hc hs => hunique hc (h.unique hc hs)⟩
  by_cases hj : j = k
  · subst hj
    rw [State.adjust_self, href, h.ref j, List.count_cons_self]
    omega
  · rw [State.adjust_of_ne _ _ hj, h.ref j, List.count_cons_of_ne (Ne.symm hj)]

theorem iget (h : Holds c s t l) (dev inum : Nat) :
    wp (iget dev inum) (fun k u => Holds c s u (k :: l)) (fun e => e.ofFs = true) t := by
  unfold Fs.iget
  rw [wp_bind, wp_get]
  split
  next k hfind =>
    refine h.take k _ rfl fun _ ht => ht.adjust k _ (fun _ => rfl) (fun _ => rfl) ?_
    exact fun _ => (State.find_some hfind).1
  next hfind =>
    split
    next k hempty =>
      have href := State.empty_some hempty
      exact h.take k _ (by simp [href]) fun _ ht => ht.fresh hfind k
    next => rfl

theorem idup (h : Holds c s t l) :
    wp (idup c) (fun k u => k = c ∧ Holds c s u (c :: l)) (fun e => e.ofFs = true) t := by
  refine ⟨rfl, h.take c _ rfl fun hc ht => ?_⟩
  exact ht.adjust c _ (fun _ => rfl) (fun _ => rfl) fun _ => h.cwd hc

theorem iput (h : Holds c s t (k :: l)) :
    wp (iput k) (fun _ u => Holds c s u l) (fun e => e.ofFs = true) t := by
  refine (ref_iput k t).imp fun _ u hu => ⟨fun j => ?_, fun hc hs => hu.2 (h.unique hc hs)⟩
  rw [hu.1 j, h.ref j, List.count_cons]
  by_cases hj : j = k
  · simp only [hj, if_pos, beq_self_eq_true]
    omega
  · simp [hj, Ne.symm hj]

theorem iunlockput (h : Holds c s t (k :: l)) :
    wp (iunlockput k) (fun _ u => Holds c s u l) (fun e => e.ofFs = true) t := by
  unfold Fs.iunlockput
  exact (h.quiet (quiet_iunlock k)).bind fun _ u hu => hu.iput

theorem ialloc (h : Holds c s t l) (dev : Nat) (type : Int16) :
    wp (ialloc dev type) (fun k u => Holds c s u (k :: l)) (fun e => e.ofFs = true) t := by
  unfold Fs.ialloc
  rw [wp_bind, wp_get]
  split
  · exact (h.quiet (quiet_update _ _)).bind fun _ u hu => hu.iget _ _
  · rfl

end Holds

theorem length_of_skipelem {path name rest : Str} (h : skipelem path = some (name, rest)) :
    rest.length < path.length := by
  unfold skipelem at h
  split at h
  next => cases h
  next c tl heq =>
    simp only [Option.some.injEq, Prod.mk.injEq] at h
    obtain ⟨-, rfl⟩ := h
    have hpath : (c :: tl).length ≤ path.length := by
      rw [← heq]
      exact (List.dropWhile_sublist _).length_le
    have hc : c ≠ slash := by
      have hnot := List.head_dropWhile_not (· == slash) (l := path) (by rw [heq]; simp)
      simpa [heq] using hnot
    have hdrop : (c :: tl).dropWhile (· != slash) = tl.dropWhile (· != slash) := by
      simp [hc]
    rw [hdrop]
    have hle := ((List.dropWhile_sublist (l := tl.dropWhile (· != slash)) (· == slash)).trans
      (List.dropWhile_sublist (l := tl) (· != slash))).length_le
    simp only [List.length_cons] at hpath
    omega

def got {α : Type} (r : Option (Slot × α)) (l : List Slot) : List Slot :=
  match r with
  | some (k, _) => k :: l
  | none => l

namespace Holds

theorem dirlookupLoop (name : Str) (fuel off : Nat) (h : Holds c s t l) (dp : Slot) :
    wp (dirlookupLoop dp name fuel off) (fun r u => Holds c s u (got r l)) (fun e => e.ofFs = true) t := by
  induction fuel generalizing t off with
  | zero => exact h
  | succ fuel ih =>
    unfold Fs.dirlookupLoop
    refine (h.quiet (quiet_entry dp)).bind fun d u hu => ?_
    rw [wp_ite]
    refine ⟨fun _ => ?_, fun _ => hu⟩
    refine (hu.quiet (quiet_readDirent dp off rfl)).bind fun de v hv => ?_
    rw [wp_ite]
    refine ⟨fun _ => ih _ hv, fun _ => ?_⟩
    rw [wp_ite]
    refine ⟨fun _ => ?_, fun _ => ih _ hv⟩
    exact (hv.iget _ _).bind fun k w hw => hw

theorem dirlookup (h : Holds c s t l) (dp : Slot) (name : Str) :
    wp (dirlookup dp name) (fun r u => Holds c s u (got r l)) (fun e => e.ofFs = true) t := by
  unfold Fs.dirlookup
  refine (h.quiet (quiet_entry dp)).bind fun d u hu => ?_
  rw [wp_ite]
  exact ⟨fun _ => hu.dirlookupLoop _ _ _ _, fun _ => rfl⟩

theorem dirlink (h : Holds c s t l) (dp : Slot) (name : Str) (inum : Nat) :
    wp (dirlink dp name inum) (fun _ u => Holds c s u l) (fun e => e.ofFs = true) t := by
  unfold Fs.dirlink
  refine (h.dirlookup dp name).bind fun r u hu => ?_
  split
  next ip off =>
    exact hu.iput.bind fun _ v hv => hv
  next =>
    refine (hu.quiet (quiet_entry dp)).bind fun d v hv => ?_
    refine (hv.quiet (quiet_dirlinkLoop dp _ _)).bind fun o w hw => ?_
    exact (hw.quiet (quiet_writeDirent dp _ _ rfl)).bind fun _ x hx => hx

theorem namexLoop (parent : Bool) {fuel : Nat} {ip : Slot} {path : Str}
    (hfuel : path.length < fuel) (h : Holds c s t (ip :: l)) :
    wp (namexLoop parent fuel ip path) (fun r u => Holds c s u (got r l)) (fun e => e.ofFs = true) t := by
  induction fuel generalizing t ip path with
  | zero => omega
  | succ fuel ih =>
    unfold Fs.namexLoop
    split
    next =>
      rw [wp_ite]
      refine ⟨fun _ => ?_, fun _ => h⟩
      exact h.iput.bind fun _ u hu => hu
    next name rest hskip =>
      have hrest := length_of_skipelem hskip
      refine (h.quiet (quiet_ilock ip)).bind fun _ u hu => ?_
      refine (hu.quiet (quiet_entry ip)).bind fun d v hv => ?_
      rw [wp_ite]
      refine ⟨fun _ => ?_, fun _ => ?_⟩
      · exact hv.iunlockput.bind fun _ w hw => hw
      · rw [wp_ite]
        refine ⟨fun _ => ?_, fun _ => ?_⟩
        · exact (hv.quiet (quiet_iunlock ip)).bind fun _ w hw => hw
        · refine (hv.dirlookup ip name).bind fun r w hw => ?_
          split
          next =>
            exact hw.iunlockput.bind fun _ x hx => hx
          next next off =>
            rw [wp_bind]
            have hswap : Holds c s w (ip :: next :: l) := hw.perm (List.Perm.swap ip next l)
            exact hswap.iunlockput.imp fun _ x hx => ih (by omega) hx

theorem namex (h : Holds c s t l) (path : Str) (parent : Bool) :
    wp (namex c path parent) (fun r u => Holds c s u (got r l)) (fun e => e.ofFs = true) t := by
  unfold Fs.namex
  rw [wp_bind, wp_ite]
  refine ⟨fun _ => ?_, fun _ => ?_⟩
  · exact (h.iget _ _).imp fun ip u hu => hu.namexLoop parent (Nat.lt_succ_self _)
  · refine h.idup.imp fun ip u hu => ?_
    obtain ⟨rfl, hu⟩ := hu
    exact hu.namexLoop parent (Nat.lt_succ_self _)

theorem namei (h : Holds c s t l) (path : Str) :
    wp (namei c path) (fun r u => Holds c s u (r.toList ++ l)) (fun e => e.ofFs = true) t := by
  unfold Fs.namei
  refine (h.namex path false).bind fun r u hu => ?_
  cases r with
  | none => exact hu
  | some r => exact hu

end Holds

end

end Xv6.Fs
