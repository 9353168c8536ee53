import Xv6.Files.Count

/-!
# References to inodes

An inode of the table is held by the files that stand for it and by the processes that
are in it.  A call changes the reference count by as much as it changes the number of
these holders; while it runs, the difference is what the call itself holds.
-/

namespace Xv6.Files

open Lib Lib.Cmd Fs

def File.holds (x : File) : Option Slot :=
  if 0 < x.ref ∧ (x.type = .inode ∨ x.type = .device) then some x.ip else none

/-- The files and current directories that hold the inode. -/
def holders (s : Kern) (k : Slot) : Int :=
  tally (fun f => (s.file f).holds) k + tally (fun p => (s.proc p).cwd) k

/-- A call that started in `s` is now in `t`, where it holds `δ k` references to the
inode `k`. -/
structure Even (s t : Kern) (δ : Slot → Int) : Prop where
  ref : ∀ k, (t.fs.inode k).ref - holders t k = (s.fs.inode k).ref - holders s k + δ k
  unique : (∀ p k, (s.proc p).cwd = some k → 0 < (s.fs.inode k).ref) → s.fs.Unique → t.fs.Unique

structure Flat (s t : Kern) : Prop where
  fs : t.fs = s.fs
  holds : ∀ f, (t.file f).holds = (s.file f).holds
  cwd : ∀ p, (t.proc p).cwd = (s.proc p).cwd

instance : Std.Refl Flat where
  refl _ := ⟨rfl, fun _ => rfl, fun _ => rfl⟩

instance : IsTrans Kern Flat where
  trans _ _ _ h h' :=
    ⟨h'.fs.trans h.fs, fun f => (h'.holds f).trans (h.holds f), fun p => (h'.cwd p).trans (h.cwd p)⟩

abbrev Level {α : Type} (c : Cmd α) : Prop := Keeps Flat (fun _ => True) c

theorem Flat.setFile (s : Kern) (f : Fin NFILE) (g : File → File)
    (h : (g (s.file f)).holds = (s.file f).holds) : Flat s (s.adjustFile f g) := by
  constructor
  · rfl
  · intro f'
    simp only [Kern.adjustFile]
    by_cases hf : f' = f
    · subst hf
      rw [upd_self, h]
    · rw [upd_of_ne _ _ _ hf]
  · intro p
    rfl

theorem Flat.setProc (s : Kern) (p : Fin NPROC) (g : Proc → Proc)
    (h : (g (s.proc p)).cwd = (s.proc p).cwd) : Flat s (s.adjustProc p g) := by
  constructor
  · rfl
  · intro f
    rfl
  · intro q
    simp only [Kern.adjustProc]
    by_cases hq : q = p
    · subst hq
      rw [upd_self, h]
    · rw [upd_of_ne _ _ _ hq]

theorem level_setFd (p : Fin NPROC) (fd : Fin NOFILE) (x : Option (Fin NFILE)) :
    Level (setFd p fd x) :=
  .of_modify fun s => .setProc s p _ rfl

theorem level_fdalloc (p : Fin NPROC) (f : Fin NFILE) : Level (fdalloc p f) := by
  refine Keeps.of_get.bind fun s => ?_
  split
  · exact (level_setFd p _ _).bind fun _ => .of_pure _
  · exact .of_pure _

theorem fdalloc_file (p : Fin NPROC) (f : Fin NFILE) (s : Kern) :
    wp (fdalloc p f) (fun _ t => t.file = s.file) (fun _ => True) s := by
  unfold fdalloc
  rw [wp_bind, wp_get]
  split <;> rfl

theorem level_argfd (p : Fin NPROC) (fd : Int) : Level (argfd p fd) := by
  refine Keeps.of_get.bind fun s => ?_
  split
  · exact .of_pure _
  · exact .of_pure _

theorem level_filedup (f : Fin NFILE) : Level (filedup f) := by
  intro s
  unfold filedup
  rw [wp_bind, wp_get, wp_ite]
  constructor
  · intro _
    trivial
  · intro href
    apply Flat.setFile
    have hpos : 0 < (s.file f).ref + 1 ↔ 0 < (s.file f).ref := by omega
    simp only [File.holds, hpos]

theorem level_setPipe (pi : Nat) (e : Option Ends) : Level (setPipe pi e) :=
  .of_modify fun _ => ⟨rfl, fun _ => rfl, fun _ => rfl⟩

theorem level_pipeclose (pi : Nat) (w : Bool) : Level (pipeclose pi w) := by
  refine Keeps.of_get.bind fun s => ?_
  split
  · exact .of_throw trivial
  · refine .ite ?_ (level_setPipe pi _)
    exact (level_setPipe pi _).bind fun _ => .of_modify fun _ => ⟨rfl, fun _ => rfl, fun _ => rfl⟩

theorem pipeclose_proc (pi : Nat) (w : Bool) (s : Kern) :
    wp (pipeclose pi w) (fun _ t => t.proc = s.proc) (fun _ => True) s := by
  unfold pipeclose
  rw [wp_bind, wp_get]
  split
  · trivial
  · rw [wp_ite]
    exact ⟨fun _ => rfl, fun _ => rfl⟩

theorem level_kalloc (page : Option Nat) : Level (kalloc page) := by
  unfold kalloc
  split
  · exact .of_pure _
  · exact .bind (.of_modify fun _ => ⟨rfl, fun _ => rfl, fun _ => rfl⟩) fun _ => .of_pure _

section

variable {s t u : Kern} {δ : Slot → Int} {p : Fin NPROC} {f : Fin NFILE} {k : Slot}

namespace Even

theorem refl (s : Kern) : Even s s 0 := by
  constructor
  · intro k
    simp
  · intro _ h
    exact h

theorem congr {δ' : Slot → Int} (h : Even s t δ) (hδ : ∀ k, δ k = δ' k) : Even s t δ' := by
  rwa [← funext hδ]

theorem flat (h : Even s t δ) (htu : Flat t u) : Even s u δ := by
  constructor
  · intro k
    have hholders : holders u k = holders t k := by
      simp only [holders, htu.holds, htu.cwd]
    rw [hholders, htu.fs]
    exact h.ref k
  · intro hcwd hs
    rw [htu.fs]
    exact h.unique hcwd hs

theorem level {α : Type} {c : Cmd α} (h : Even s t δ) (hc : Level c) :
    wp c (fun _ u => Even s u δ) (fun _ => True) t :=
  (hc t).imp fun _ _ htu => h.flat htu

theorem setFile (h : Even s t δ) (f : Fin NFILE) (g : File → File) :
    Even s (t.adjustFile f g) (δ + points (t.file f).holds - points (g (t.file f)).holds) := by
  constructor
  · intro k
    have hfiles : (fun f' => ((t.adjustFile f g).file f').holds) =
        upd (fun f' => (t.file f').holds) f (g (t.file f)).holds := by
      funext f'
      simp only [Kern.adjustFile, upd_eq]
      split <;> rfl
    have hholders : holders (t.adjustFile f g) k =
        holders t k - points (t.file f).holds k + points (g (t.file f)).holds k := by
      unfold holders
      rw [hfiles, tally_upd]
      change _ + tally (fun p => (t.proc p).cwd) k = _
      omega
    have href := h.ref k
    rw [hholders]
    simp only [Pi.add_apply, Pi.sub_apply]
    change (t.fs.inode k).ref - _ = _
    omega
  · exact h.unique

theorem setProc (h : Even s t δ) (p : Fin NPROC) (g : Proc → Proc) :
    Even s (t.adjustProc p g) (δ + points (t.proc p).cwd - points (g (t.proc p)).cwd) := by
  constructor
  · intro k
    have hprocs : (fun q => ((t.adjustProc p g).proc q).cwd) =
        upd (fun q => (t.proc q).cwd) p (g (t.proc p)).cwd := by
      funext q
      simp only [Kern.adjustProc, upd_eq]
      split <;> rfl
    have hholders : holders (t.adjustProc p g) k =
        holders t k - points (t.proc p).cwd k + points (g (t.proc p)).cwd k := by
      unfold holders
      rw [hprocs, tally_upd]
      change tally (fun f => (t.file f).holds) k + _ = _
      omega
    have href := h.ref k
    rw [hholders]
    simp only [Pi.add_apply, Pi.sub_apply]
    change (t.fs.inode k).ref - _ = _
    omega
  · exact h.unique

theorem onFs (h : Even s t δ) {η : Slot → Int} {v : Fs.State}
    (href : ∀ k, (v.inode k).ref = (t.fs.inode k).ref + η k)
    (hunique : (∀ p k, (s.proc p).cwd = some k → 0 < (s.fs.inode k).ref) → s.fs.Unique →
      v.Unique) : Even s { t with fs := v } (δ + η) := by
  constructor
  · intro k
    have := h.ref k
    change (v.inode k).ref - holders t k = _
    rw [href k, Pi.add_apply]
    omega
  · exact hunique

theorem quiet {α : Type} {c : Fs.Cmd α} (h : Even s t δ) (hc : Quiet c) :
    wp (Files.onFs c) (fun _ u => Even s u δ ∧ u.file = t.file ∧ u.proc = t.proc)
      (fun _ => True) t := by
  rw [wp_onFs]
  refine (hc t.fs).mono ?_ fun _ _ => trivial
  intro _ v hv
  refine ⟨?_, rfl, rfl⟩
  have heven := h.onFs (η := 0) (v := v) (by simpa using hv.ref)
    fun hcwd hs => (h.unique hcwd hs).still hv
  rwa [add_zero] at heven

theorem put (h : Even s t δ) (k : Slot) {v : Fs.State}
    (hv : (∀ j, (v.inode j).ref = (t.fs.inode j).ref - if j = k then 1 else 0) ∧
      (t.fs.Unique → v.Unique)) : Even s { t with fs := v } (δ - points (some k)) := by
  rw [sub_eq_add_neg]
  apply h.onFs
  · intro j
    rw [hv.1 j, Pi.neg_apply, points_some, sub_eq_add_neg]
  · intro hcwd hs
    exact hv.2 (h.unique hcwd hs)

/-- The references of a call that has only looked at the file system. -/
theorem of_holds {c : Slot} {v : Fs.State} {l : List Slot} (hc : (s.proc p).cwd = some c)
    (h : Holds c s.fs v l) : Even s { s with fs := v } (fun k => l.count k) := by
  have heven := (Even.refl s).onFs (η := fun k => l.count k) h.ref
    fun hcwd hs => h.unique (hcwd p c hc) hs
  rwa [zero_add] at heven

theorem iputOp (h : Even s t δ) (k : Slot) :
    wp (iputOp k) (fun _ u => Even s u (δ - points (some k)) ∧ u.file = t.file ∧ u.proc = t.proc)
      (fun _ => True) t := by
  unfold Files.iputOp
  rw [wp_onFs, wp_bind]
  refine (quiet_beginOp t.fs).mono ?_ fun _ _ => trivial
  intro _ v hv
  rw [wp_bind]
  refine (ref_iput k v).mono ?_ fun _ _ => trivial
  intro _ w hw
  refine (quiet_endOp w).mono ?_ fun _ _ => trivial
  intro _ x hx
  refine ⟨h.put k ⟨fun j => ?_, fun ht => ?_⟩, rfl, rfl⟩
  · rw [hx.ref, hw.1, hv.ref]
  · exact (hw.2 (ht.still hv)).still hx

theorem openBad (h : Even s t δ) (k : Slot) :
    wp (openBad k) (fun _ u => Even s u (δ - points (some k))) (fun _ => True) t := by
  unfold Files.openBad iunlockput
  rw [wp_onFs, wp_bind, wp_bind]
  refine (quiet_iunlock k t.fs).mono ?_ fun _ _ => trivial
  intro _ v hv
  refine (ref_iput k v).mono ?_ fun _ _ => trivial
  intro _ w hw
  rw [wp_bind]
  refine (quiet_endOp w).mono ?_ fun _ _ => trivial
  intro _ x hx
  refine h.put k ⟨fun j => ?_, fun ht => ?_⟩
  · rw [hx.ref, hw.1, hv.ref]
  · exact (hw.2 (ht.still hv)).still hx

/-- The last descriptor of a file takes the file's reference with it. -/
theorem fileclose (h : Even s t δ) (f : Fin NFILE) :
    wp (fileclose f) (fun _ u => Even s u δ ∧ u.proc = t.proc) (fun _ => True) t := by
  unfold Files.fileclose
  rw [wp_bind, wp_get, wp_ite]
  refine ⟨fun _ => trivial, fun hone => ?_⟩
  rw [wp_ite]
  constructor
  · intro hmore
    refine ⟨h.flat (.setFile t f _ ?_), rfl⟩
    have hpos : 0 < (t.file f).ref - 1 ↔ 0 < (t.file f).ref := by omega
    simp only [File.holds, hpos]
  · intro hlast
    have hpos : 0 < (t.file f).ref := by omega
    rw [wp_bind]
    have hset := h.setFile f fun x => { x with ref := 0, type := .none }
    have hnone : ({ t.file f with ref := 0, type := .none } : File).holds = none := by
      simp [File.holds]
    rw [hnone, points_none_eq, sub_zero] at hset
    -- the file no longer holds its inode, and `iput` follows for the types that had one
    have hput : (t.file f).type = .inode ∨ (t.file f).type = .device →
        wp (Files.iputOp (t.file f).ip) (fun _ u => Even s u δ ∧ u.proc = t.proc) (fun _ => True)
          (t.adjustFile f fun x => { x with ref := 0, type := .none }) := by
      intro htype
      have hsome : (t.file f).holds = some (t.file f).ip := by
        simp [File.holds, hpos, htype]
      refine (hset.iputOp (t.file f).ip).imp fun _ u hu => ⟨?_, hu.2.2⟩
      have := hu.1
      rwa [hsome, add_sub_cancel_right] at this
    have hheld : (t.file f).type ≠ .inode → (t.file f).type ≠ .device →
        Even s (t.adjustFile f fun x => { x with ref := 0, type := .none }) δ := by
      intro hinode hdevice
      have : (t.file f).holds = none := by simp [File.holds, hinode, hdevice]
      rwa [this, points_none_eq, add_zero] at hset
    split
    next htype =>
      have heven := hheld (by simp [htype]) (by simp [htype])
      refine (((level_pipeclose _ _) _).and (pipeclose_proc _ _ _)).imp fun _ u hu => ?_
      exact ⟨heven.flat hu.1, hu.2⟩
    next htype => exact hput (.inl htype)
    next htype => exact hput (.inr htype)
    next htype => exact ⟨hheld (by simp [htype]) (by simp [htype]), rfl⟩

end Even

def Kern.Cleared (s : Kern) : Prop := ∀ f, (s.file f).ref = 0 → (s.file f).type = .none

theorem flat_filealloc (hclear : t.Cleared) :
    wp filealloc (fun r u => Flat t u ∧ u.Cleared ∧
      ∀ f, r = some f → 0 < (u.file f).ref ∧ (u.file f).holds = none) (fun _ => True) t := by
  unfold filealloc
  rw [wp_bind, wp_get]
  split
  next f hfind =>
    have hzero : (t.file f).ref = 0 := by simpa using List.find?_some hfind
    have htype := hclear f hzero
    refine ⟨.setFile t f _ (by simp [File.holds, htype]), ?_, ?_⟩
    · intro g hg
      simp only [Kern.adjustFile, upd_eq] at hg ⊢
      split at hg
      · cases hg
      · rename_i hne
        rw [if_neg hne]
        exact hclear g hg
    · intro f' hf'
      cases hf'
      simp [Kern.adjustFile, File.holds, htype]
  next =>
    refine ⟨Std.Refl.refl t, hclear, fun f hf => by cases hf⟩

theorem even_closeBoth (h : Even s t 0) (f g : Fin NFILE) {α : Type} (a : α) :
    wp (do fileclose f; fileclose g; return a) (fun _ u => Even s u 0) (fun _ => True) t := by
  refine (h.fileclose f).bind fun _ u hu => ?_
  exact (hu.1.fileclose g).bind fun _ v hv => hv.1

theorem even_pipealloc (hclear : s.Cleared) (page : Option Nat) :
    wp (pipealloc page) (fun _ t => Even s t 0) (fun _ => True) s := by
  unfold pipealloc
  refine (flat_filealloc hclear).bind fun r t ht => ?_
  obtain ⟨hflat, hclear, hr⟩ := ht
  have heven := (Even.refl s).flat hflat
  split
  next => exact heven
  next f0 =>
    refine (flat_filealloc hclear).bind fun r' u hu => ?_
    obtain ⟨hflat', -, hr'⟩ := hu
    have heven' := heven.flat hflat'
    split
    next =>
      exact (heven'.fileclose f0).bind fun _ v hv => hv.1
    next f1 =>
      refine (level_kalloc page u).bind fun r'' v hv => ?_
      have heven'' := heven'.flat hv
      split
      next => exact even_closeBoth heven'' f0 f1 none
      next pi =>
        have h0 : (v.file f0).holds = none := by
          rw [hv.holds, hflat'.holds]
          exact (hr f0 rfl).2
        have h1 : (v.file f1).holds = none := by
          rw [hv.holds]
          exact (hr' f1 rfl).2
        rw [wp_bind]
        have hset := Flat.setFile v f0
          (fun x => { x with type := .pipe, readable := true, writable := false, pipe := pi })
          (by rw [h0]; simp [File.holds])
        refine (heven''.flat hset).flat (.setFile _ f1 _ ?_)
        rw [hset.holds, h1]
        simp [File.holds]

theorem even_sysPipe (hclear : s.Cleared) (page : Option Nat) (out0 out1 : Bool) :
    wp (sysPipe p page out0 out1) (fun _ t => Even s t 0) (fun _ => True) s := by
  unfold sysPipe
  refine (even_pipealloc hclear page).bind fun r t ht => ?_
  split
  next => exact ht
  next rf wf =>
    refine (ht.level (level_fdalloc p rf)).bind fun r u hu => ?_
    split
    next => exact even_closeBoth hu rf wf _
    next fd0 =>
      refine (hu.level (level_fdalloc p wf)).bind fun r v hv => ?_
      split
      next =>
        exact (hv.level (level_setFd p fd0 none)).bind fun _ w hw => even_closeBoth hw rf wf _
      next fd1 =>
        rw [wp_ite]
        refine ⟨fun _ => hv, fun _ => ?_⟩
        refine (hv.level (level_setFd p fd0 none)).bind fun _ w hw => ?_
        exact (hw.level (level_setFd p fd1 none)).bind fun _ x hx => even_closeBoth hx rf wf _

theorem even_sysDup (fd : Int) : wp (sysDup p fd) (fun _ t => Even s t 0) (fun _ => True) s := by
  refine (Even.refl s).level ?_
  refine (level_argfd p fd).bind fun r => ?_
  split
  · exact .of_pure _
  · refine (level_fdalloc p _).bind fun r => ?_
    split
    · exact .of_pure _
    · exact (level_filedup _).bind fun _ => .of_pure _

theorem even_sysClose (fd : Int) : wp (sysClose p fd) (fun _ t => Even s t 0) (fun _ => True) s := by
  unfold sysClose
  refine ((Even.refl s).level (level_argfd p fd)).bind fun r t ht => ?_
  split
  next => exact ht
  next fd f =>
    refine (ht.level (level_setFd p fd none)).bind fun _ u hu => ?_
    exact (hu.fileclose f).bind fun _ v hv => hv.1

theorem wp_cwdOf {Q : Slot → Kern → Prop} (hQ : ∀ k, (s.proc p).cwd = some k → Q k s) :
    wp (cwdOf p) Q (fun _ => True) s := by
  unfold cwdOf
  rw [wp_bind, wp_get]
  cases hk : (s.proc p).cwd with
  | none => trivial
  | some k => exact hQ k hk

theorem even_withCwd {α : Type} {c : Slot → Fs.Cmd α}
    (hc : ∀ cwd, wp (c cwd) (fun _ u => Holds cwd s.fs u []) (fun e => e.ofFs = true) s.fs) :
    wp (do let cwd ← cwdOf p; onFs (c cwd)) (fun _ t => Even s t 0) (fun _ => True) s := by
  rw [wp_bind]
  refine wp_cwdOf fun cwd hcwd => ?_
  rw [wp_onFs]
  refine (hc cwd).mono ?_ fun _ _ => trivial
  intro _ v hv
  exact Even.of_holds hcwd hv

theorem even_openFile (h : Even s t (points (some k))) (hclear : t.Cleared) (omode : UInt32) :
    wp (openFile p k omode) (fun _ u => Even s u 0) (fun _ => True) t := by
  have hbad : ∀ v, Even s v (points (some k)) →
      wp (openBad k) (fun _ u => Even s u 0) (fun _ => True) v := by
    intro v hv
    have := hv.openBad k
    rwa [sub_self] at this
  unfold openFile
  refine (h.quiet (quiet_entry k)).bind fun x u hu => ?_
  rw [wp_ite]
  refine ⟨fun _ => hbad u hu.1, fun _ => ?_⟩
  rw [wp_bind]
  have hclear' : u.Cleared := by
    unfold Kern.Cleared
    rw [hu.2.1]
    exact hclear
  refine (flat_filealloc hclear').imp fun r v hv => ?_
  obtain ⟨hflat, -, hr⟩ := hv
  have heven := hu.1.flat hflat
  split
  next => exact hbad v heven
  next f =>
    refine ((level_fdalloc p f v).and (fdalloc_file p f v)).bind fun r w hw => ?_
    have heven' := heven.flat hw.1
    split
    next =>
      exact (heven'.fileclose f).bind fun _ y hy => hbad y hy.1
    next fd =>
      obtain ⟨hpos, hnone⟩ := hr f rfl
      rw [wp_bind]
      have hset := heven'.setFile f (opened k x omode)
      have hsome : (opened k x omode (w.file f)).holds = some k := by
        rw [hw.2]
        unfold opened File.holds
        by_cases htype : x.type = T_DEVICE <;> simp [htype, hpos]
      rw [hw.1.holds, hnone, hsome, points_none_eq, add_zero, sub_self] at hset
      change wp _ _ _ (w.adjustFile f (opened k x omode))
      rw [wp_bind]
      have hfs : Quiet (do
          (if omode &&& O_TRUNC ≠ 0 ∧ x.type = T_FILE then itrunc k else pure ⟨⟩)
          iunlock k
          endOp) :=
        .bind (.ite (quiet_itrunc k) (.of_pure _)) fun _ =>
          (quiet_iunlock k).bind fun _ => quiet_endOp
      exact (hset.quiet hfs).imp fun _ y hy => hy.1

theorem even_sysOpen (hclear : s.Cleared) (path : Str) (omode : UInt32) :
    wp (sysOpen p path omode) (fun _ t => Even s t 0) (fun _ => True) s := by
  unfold sysOpen
  rw [wp_bind]
  refine wp_cwdOf fun cwd hcwd => ?_
  rw [wp_bind, wp_onFs]
  refine ((Holds.refl cwd s.fs).quiet quiet_beginOp).mono ?_ fun _ _ => trivial
  intro _ v hv
  rw [wp_bind, wp_onFs]
  refine (held_openInode hv path omode).mono ?_ fun _ _ => trivial
  intro r w hw
  have heven : Even s { s with fs := w } (points r) := by
    apply (Even.of_holds hcwd hw).congr
    intro j
    cases r with
    | none => simp
    | some k =>
      by_cases hj : k = j <;> simp [points, hj]
  split
  next =>
    rw [points_none_eq] at heven
    exact (heven.quiet quiet_endOp).bind fun _ y hy => hy.1
  next k => exact even_openFile heven hclear omode

theorem even_sysChdir (path : Str) :
    wp (sysChdir p path) (fun _ t => Even s t 0) (fun _ => True) s := by
  unfold sysChdir
  rw [wp_bind]
  refine wp_cwdOf fun cwd hcwd => ?_
  rw [wp_bind, wp_onFs]
  refine (held_chdir cwd s.fs path).mono ?_ fun _ _ => trivial
  intro r v hv
  have heven := (Even.refl s).onFs hv.1 fun hall hs => hv.2 (hall p cwd hcwd) hs
  split
  next =>
    apply heven.congr
    intro j
    simp
  next k =>
    rw [wp_bind]
    apply (heven.setProc p fun x => { x with cwd := some k }).congr
    intro j
    simp [hcwd]

theorem level_forkFiles (p q : Fin NPROC) :
    Level (forM (List.finRange NOFILE) fun fd => do
      let s ← get
      match (s.proc p).ofile fd with
      | none => pure ⟨⟩
      | some f =>
        filedup f
        setFd q fd (some f)) := by
  refine .of_forM (fun fd => Keeps.of_get.bind fun s => ?_) _
  split
  · exact .of_pure _
  · exact (level_filedup _).bind fun _ => level_setFd q fd _

theorem even_fork (hidle : ∀ q, (s.proc q).state ≠ .live → (s.proc q).cwd = none) (mem : Bool) :
    wp (fork p mem) (fun _ t => Even s t 0) (fun _ => True) s := by
  unfold fork
  rw [wp_bind, wp_get]
  split
  next => exact .refl s
  next q hfind =>
    have hunused : (s.proc q).state = .unused := by simpa using List.find?_some hfind
    rw [wp_ite]
    refine ⟨fun _ => .refl s, fun _ => ?_⟩
    refine (level_forkFiles p q s).bind fun _ t ht => ?_
    rw [wp_bind]
    refine wp_cwdOf fun cwd hcwd => ?_
    rw [ht.cwd] at hcwd
    rw [wp_bind, wp_onFs]
    -- the caller's reference makes the entry one in use
    refine (Holds.refl cwd t.fs).idup.mono ?_ fun _ _ => trivial
    intro _ v hv
    have heven := ((Even.refl s).flat ht).onFs hv.2.ref fun hall hs => by
      apply hv.2.unique
      · rw [ht.fs]
        exact hall p cwd hcwd
      · rw [ht.fs]
        exact hs
    rw [wp_bind]
    apply (heven.setProc q fun x => { x with cwd := some cwd, state := .live }).congr
    intro k
    have hnone : (t.proc q).cwd = none := by
      rw [ht.cwd]
      exact hidle q (by simp [hunused])
    by_cases hk : cwd = k <;> simp [hnone, points, hk]

theorem even_exitFiles (h : Even s t 0) (l : List (Fin NOFILE)) :
    wp (forM l fun fd => do
        let s ← get
        match (s.proc p).ofile fd with
        | none => pure ⟨⟩
        | some f =>
          fileclose f
          setFd p fd none)
      (fun _ u => Even s u 0) (fun _ => True) t := by
  refine wp_forM (I := fun _ u => Even s u 0) (fun fd rest u hu => ?_) h
  rw [wp_bind, wp_get]
  split
  next => exact hu
  next f _ =>
    exact (hu.fileclose f).bind fun _ v hv => hv.1.level (level_setFd p fd none)

theorem even_exit : wp (exit p) (fun _ t => Even s t 0) (fun _ => True) s := by
  unfold exit
  rw [wp_ite]
  refine ⟨fun _ => trivial, fun _ => ?_⟩
  refine (even_exitFiles (.refl s) _).bind fun _ t ht => ?_
  rw [wp_bind]
  refine wp_cwdOf fun cwd hcwd => ?_
  refine (ht.iputOp cwd).bind fun _ u hu => ?_
  obtain ⟨hu, -, hproc⟩ := hu
  apply (hu.setProc p fun x => { x with cwd := none, state := .zombie }).congr
  intro k
  simp [hproc, hcwd]

theorem level_reap (q : Fin NPROC) : Level (reap q) := by
  refine Keeps.of_get.bind fun s => .ite ?_ (.of_pure _)
  exact .of_modify fun s => .setProc s q _ rfl

theorem even_withPath {path : Option Str} {c : Str → Cmd PUnit}
    (hc : ∀ path, wp (c path) (fun _ t => Even s t 0) (fun _ => True) s) :
    wp (withPath path c) (fun _ t => Even s t 0) (fun _ => True) s := by
  cases path with
  | none => exact .refl s
  | some path => exact hc path

theorem even_drop {c : Cmd Int} (hc : wp c (fun _ t => Even s t 0) (fun _ => True) s) :
    wp (drop c) (fun _ t => Even s t 0) (fun _ => True) s := by
  unfold drop
  rw [wp_bind]
  exact hc

theorem even_call (hclear : s.Cleared)
    (hidle : ∀ q, (s.proc q).state ≠ .live → (s.proc q).cwd = none) (p : Fin NPROC) (c : Call) :
    wp (call p c) (fun _ t => Even s t 0) (fun _ => True) s := by
  cases c with
  | «open» path omode =>
    exact even_withPath fun path => even_drop (even_sysOpen hclear path omode)
  | link old new =>
    refine even_withPath fun old => even_withPath fun new => even_drop ?_
    exact even_withCwd fun cwd => held_link cwd s.fs old new
  | unlink path =>
    exact even_withPath fun path => even_drop (even_withCwd fun cwd => held_unlink cwd s.fs path)
  | mkdir path =>
    refine even_withPath fun path => even_drop ?_
    exact even_withCwd fun cwd => held_make cwd s.fs path T_DIR 0 0
  | mknod path major minor =>
    refine even_withPath fun path => even_drop ?_
    exact even_withCwd fun cwd => held_make cwd s.fs path T_DEVICE major minor
  | chdir path => exact even_withPath fun path => even_drop (even_sysChdir path)
  | exec path reads =>
    exact even_withPath fun path => even_withCwd fun cwd => held_execFile cwd s.fs path reads
  | dup fd => exact even_drop (even_sysDup fd)
  | close fd => exact even_drop (even_sysClose fd)
  | pipe page out0 out1 => exact even_drop (even_sysPipe hclear page out0 out1)
  | fork mem => exact even_drop (even_fork hidle mem)
  | exit => exact even_exit
  | wait q => exact (Even.refl s).level (level_reap q)

/-- What the reference counts are when no call is in progress. -/
structure Exact (s : Kern) : Prop where
  ref : ∀ k, (s.fs.inode k).ref = holders s k
  unique : s.fs.Unique

theorem Exact.cwd (h : Exact s) (hk : (s.proc p).cwd = some k) : 0 < (s.fs.inode k).ref := by
  have hfiles := tally_nonneg (g := fun f => (s.file f).holds) (b := k)
  have hprocs : 0 < tally (fun p => (s.proc p).cwd) k := tally_pos.2 ⟨p, hk⟩
  have href := h.ref k
  unfold holders at href
  omega

theorem Exact.even (h : Exact s) (hst : Even s t 0) : Exact t := by
  constructor
  · intro k
    have hk := hst.ref k
    have hs := h.ref k
    simp only [Pi.zero_apply] at hk
    omega
  · exact hst.unique (fun _ _ hk => h.cwd hk) h.unique

end

/-- Whatever calls were made before, and whatever the file system is like now: a call
changes the reference count of each inode by the change in the number of its holders.
If the counts were right when the first process started, no inode is in two entries of
the table. -/
theorem inode_refs_balance {s t : Kern} {es : List (Fin NPROC × Call)} (hs : Booted s)
    (h : Run Step s es t) :
    (∀ (fs : Fs.State) (p : Fin NPROC) (c : Call) (u : Kern),
      call p c { t with fs := fs } = .ok (⟨⟩, u) → ∀ k,
        (u.fs.inode k).ref - (fs.inode k).ref = holders u k - holders t k) ∧
    ((∀ k, (s.fs.inode k).ref = holders s k) → s.fs.Unique →
      ∀ j k, 0 < (t.fs.inode j).ref → 0 < (t.fs.inode k).ref →
        (t.fs.inode j).dev = (t.fs.inode k).dev → (t.fs.inode j).inum = (t.fs.inode k).inum →
        j = k) := by
  have hsound : ∀ {t es}, Run Step s es t → Sound t 0 := fun h => .run h (.boot hs)
  constructor
  · intro fs p c u hcall k
    have ht := hsound h
    have heven := (even_call (s := { t with fs := fs }) ht.free (fun q hq => (ht.idle q hq).2) p
      c).ok hcall
    have hk := heven.ref k
    change _ - _ = (fs.inode k).ref - holders t k + 0 at hk
    omega
  · intro href hunique
    suffices hexact : Sound t 0 ∧ Exact t from hexact.2.unique
    refine h.invariant (I := fun t => Sound t 0 ∧ Exact t) ?_ ⟨.boot hs, href, hunique⟩
    intro s e t hs hstep
    cases hstep with
    | call hlive hfresh hcall =>
      refine ⟨(sound_call hs.1 hlive hfresh).ok hcall, hs.2.even ?_⟩
      exact (even_call hs.1.free (fun q hq => (hs.1.idle q hq).2) _ _).ok hcall

theorem exact_boot : Exact boot := by
  have hzero : ∀ k, 0 < (boot.fs.inode k).ref → k = 0 := by
    intro k
    by_cases hk : k = 0
    · exact fun _ => hk
    · simp [boot, hk, unusedInode]
  constructor
  · decide +kernel
  · intro j k hj hk _ _
    rw [hzero j hj, hzero k hk]

/-- A file is made and a child started; the child, in the same directory and with the
same file, exits. -/
theorem inode_refs_balance_exit :
    ∃ (es : List (Fin NPROC × Call)) (t u : Kern), Booted boot ∧ Run Step boot es t ∧
      call 1 .exit t = .ok (⟨⟩, u) ∧ (t.fs.inode 0).ref = 2 ∧ (u.fs.inode 0).ref = 1 ∧
      holders u 0 - holders t 0 = -1 ∧ (t.fs.inode 1).ref = 1 ∧
      ((t.fs.inode 0).dev = (t.fs.inode 1).dev → (t.fs.inode 0).inum ≠ (t.fs.inode 1).inum) := by
  have hcheck : (Lib.trace Kern.next boot
      [(0, .open (some [slash, 120]) (O_CREATE ||| O_RDWR)), (0, .fork true)]).any
      (fun (x : Kern × List (Fin NPROC × Call)) =>
        decide ((x.1.fs.inode 0).ref = 2 ∧ (x.1.fs.inode 1).ref = 1) &&
        (call 1 .exit x.1).toOption.any fun r => decide ((r.2.fs.inode 0).ref = 1)) = true := by
    decide +kernel
  obtain ⟨⟨t, es⟩, ht, hcheck⟩ := (Option.any_eq_true _ _).1 hcheck
  rw [Bool.and_eq_true, decide_eq_true_eq] at hcheck
  obtain ⟨⟨hroot, hfile⟩, hexit⟩ := hcheck
  dsimp only at hroot hfile
  have hrun := Lib.trace_run Kern.next_step ht
  obtain ⟨hbalance, hunique⟩ := inode_refs_balance booted_boot hrun
  cases hcall : call 1 .exit t with rw [hcall] at hexit
  | ok r =>
    have hu := of_decide_eq_true hexit
    have hdiff := hbalance t.fs 1 .exit r.2 hcall 0
    refine ⟨es, t, r.2, booted_boot, hrun, hcall, hroot, hu, by omega, hfile, ?_⟩
    intro hdev hinum
    have := hunique exact_boot.ref exact_boot.unique 0 1 (by omega) (by omega) hdev hinum
    cases this
  | error e => cases hexit

end Xv6.Files
