import Xv6.Fs.Ialloc
import Xv6.Fs.Lookup
import Xv6.Files.Held

/-!
# The calls on paths keep the file system intact

`link`, `unlink` and `create` work on two inodes at a time.  The sleep locks keep the two entries
of the table apart: a call that meets its own lock does not go on.
-/

namespace Xv6.Files

open Lib.Cmd Fs

structure Settled (s t : Fs.State) : Prop where
  intact : Intact t
  tight : Tight s → Tight t
  sb : t.sb = s.sb

section

variable {s t u : Fs.State} {k dp ip : Slot} {P : Slot → Prop}

theorem Settled.trans (h : Settled s t) (h' : Settled t u) : Settled s u :=
  ⟨h'.intact, fun ht => h'.tight (h.tight ht), h'.sb.trans h.sb⟩

theorem settled (h : Evolves P s t) : Settled s t := ⟨h.intact, h.tight, h.sb⟩

theorem intact_beginOp (h : Intact s) :
    wp beginOp (fun _ t => Settled s t ∧ t.outstanding = s.outstanding + 1 ∧ t.inode = s.inode)
      (fun e => e.excluded = false) s :=
  ⟨⟨⟨h.layout, h.root, h.metaUsed, h.region, h.used, h.distinct, h.full, h.size, h.names, h.dev,
    h.inum, h.coherent, h.typed, h.unique⟩, fun ht => ⟨ht.back, ht.empty⟩, rfl⟩, rfl, rfl⟩

theorem settled_endOp (h : Settled s t) :
    wp endOp (fun _ u => Settled s u) (fun e => e.excluded = false) t :=
  ⟨⟨h.intact.layout, h.intact.root, h.intact.metaUsed, h.intact.region, h.intact.used,
    h.intact.distinct, h.intact.full, h.intact.size, h.intact.names, h.intact.dev, h.intact.inum,
    h.intact.coherent, h.intact.typed, h.intact.unique⟩,
    fun ht => ⟨(h.tight ht).back, (h.tight ht).empty⟩, h.sb⟩

theorem addLink_evolves (h : Intact s) (hk : Held s k) (hout : 0 < s.outstanding) (n : Int16) :
    wp (addLink k n) (fun _ t => Evolves (fun _ => True) s t ∧
      ∀ k', (t.inode k').locked = (s.inode k').locked) (fun e => e.excluded = false) s := by
  have hset : setEntry k (fun x => { x with nlink := x.nlink + n }) s =
      .ok (⟨⟩, s.adjust k fun x => { x with nlink := x.nlink + n }) := rfl
  have hrelabels : Relabels fun x => { x with nlink := x.nlink + n } :=
    ⟨⟨fun _ => rfl, fun _ => rfl, fun _ => rfl, fun _ => rfl⟩, fun _ => rfl, fun _ => rfl,
      fun _ => rfl⟩
  unfold addLink
  rw [wp_bind, wp_of_ok hset, wp_of_ok (iupdate_adjust hout)]
  refine ⟨h.relabel hk hrelabels, fun k' => ?_⟩
  rw [flush_inode]
  by_cases hk' : k' = k
  · rw [if_pos hk', hk']
  · rw [if_neg hk']

theorem drop_settled (h : Settled s t) (hout : 0 < t.outstanding) :
    wp (iunlockput k) (fun _ u => Settled s u ∧ u.outstanding = t.outstanding ∧
      ∀ k', k' ≠ k → Held t k' → Held u k') (fun e => e.excluded = false) t := by
  apply (iunlockput_evolves h.intact hout).imp
  rintro _ u ⟨hu, -⟩
  exact ⟨h.trans (settled hu), hu.outstanding, hu.held⟩

/-!
## `unlink`
-/

theorem isdiremptyLoop_still (h : Intact s) (hk : Held s k) (fuel e : Nat) :
    wp (isdiremptyLoop k fuel (16 * e)) (fun _ t => t = s) (fun e => e.excluded = false) s := by
  induction fuel generalizing e with
  | zero => rfl
  | succ fuel ih =>
    unfold isdiremptyLoop
    rw [wp_bind, wp_of_ok (entry_ok k), wp_ite]
    refine ⟨fun _ => ?_, fun _ => rfl⟩
    rw [wp_bind]
    apply (readDirent_inum h hk e .isdirempty).mono
    · rintro de t ⟨rfl, -, -⟩
      have hnext := ih (e + 1)
      rw [show 16 * (e + 1) = 16 * e + 16 by omega] at hnext
      rw [wp_ite]
      exact ⟨fun _ => rfl, fun _ => hnext⟩
    · rintro e' rfl
      rfl

theorem inUse_still (h : Intact s) (hk : Held s k) :
    wp (inUse k) (fun _ t => t = s) (fun e => e.excluded = false) s := by
  unfold inUse
  rw [wp_bind, wp_of_ok (entry_ok k), wp_ite]
  refine ⟨fun _ => ?_, fun _ => rfl⟩
  rw [wp_bind]
  unfold isdirempty
  rw [wp_bind, wp_of_ok (entry_ok k)]
  exact isdiremptyLoop_still h hk _ 2

theorem unlinkBad_settled (h : Settled s t) (hout : 0 < t.outstanding) :
    wp (unlinkBad dp) (fun _ u => Settled s u) (fun e => e.excluded = false) t := by
  unfold unlinkBad
  rw [wp_bind]
  apply (drop_settled h hout).imp
  rintro _ u ⟨hu, -⟩
  rw [wp_bind]
  exact settled_endOp hu

theorem unlinkAt_settled (h : Settled s t) (hdp : Held t dp) (hip : Held t ip) (hne : ip ≠ dp)
    (hout : 0 < t.outstanding) (e : Nat) :
    wp (unlinkAt dp ip (16 * e)) (fun _ u => Settled s u) (fun e => e.excluded = false) t := by
  -- from where the directory entry is gone and the directory itself is up to date
  have hrest : ∀ {u : Fs.State}, Evolves (fun _ => True) t u →
      wp (do iunlockput dp; addLink ip (-1); iunlockput ip; endOp; return 0 : Fs.Cmd Int)
        (fun _ v => Settled s v) (fun e => e.excluded = false) u := by
    intro u hu
    have huout : 0 < u.outstanding := hu.outstanding ▸ hout
    rw [wp_bind]
    apply (drop_settled (h.trans (settled hu)) huout).imp
    rintro _ v ⟨hv, hvout, hkept⟩
    rw [wp_bind]
    apply (addLink_evolves hv.intact (hkept ip hne (hu.held ip trivial hip)) (hvout ▸ huout) _).imp
    rintro _ w ⟨hw, -⟩
    rw [wp_bind]
    apply (drop_settled (hv.trans (settled hw)) (hw.outstanding ▸ hvout ▸ huout)).imp
    rintro _ x ⟨hx, -⟩
    rw [wp_bind]
    exact settled_endOp hx
  unfold unlinkAt
  rw [wp_bind, wp_of_ok (entry_ok ip), wp_bind]
  apply (writeDirent_evolves h.intact hdp hout (Nat.lt_of_le_of_lt (Nat.zero_le _) h.intact.root)
    rfl).imp
  intro _ u hu
  rw [wp_bind, wp_ite]
  constructor
  · intro _
    apply (addLink_evolves hu.intact (hu.held dp trivial hdp) (hu.outstanding ▸ hout) _).imp
    rintro _ v ⟨hv, -⟩
    exact hrest (hu.trans hv)
  · intro _
    exact hrest hu

theorem unlink_settled (h : Intact s) {cwd : Slot} (hcwd : 0 < (s.inode cwd).ref) (path : Str) :
    wp (unlink cwd path) (fun _ t => Settled s t) (fun e => e.excluded = false) s := by
  unfold unlink
  rw [wp_bind]
  apply (intact_beginOp h).imp
  rintro _ t₀ ⟨h₀, hout₀, hinode₀⟩
  rw [wp_bind]
  unfold nameiparent
  apply (namex_evolves h₀.intact (by omega) (hinode₀ ▸ hcwd) path true).imp
  intro r t₁ h₁
  have h₁' := h₀.trans (settled h₁)
  have hout₁ : 0 < t₁.outstanding := by
    rw [h₁.outstanding]
    omega
  cases r with
  | none =>
    rw [wp_bind]
    exact settled_endOp h₁'
  | some r =>
    obtain ⟨dp, name⟩ := r
    rw [wp_bind]
    apply (ilock_evolves h₁.intact).imp
    rintro _ t₂ ⟨h₂, -, hdp, -, hlocked, -⟩
    have h₂' := h₁'.trans (settled h₂)
    have hout₂ : 0 < t₂.outstanding := h₂.outstanding ▸ hout₁
    rw [wp_ite]
    refine ⟨fun _ => unlinkBad_settled h₂' hout₂, fun _ => ?_⟩
    rw [wp_bind]
    apply (dirlookup_looked h₂.intact hdp name).imp
    intro r t₃ h₃
    have hevolves := h₃.evolves h₂.intact
    have h₃' := h₂'.trans (settled hevolves)
    have hout₃ : 0 < t₃.outstanding := hevolves.outstanding ▸ hout₂
    have hlock := h₃.locked hdp
    cases h₃ with
    | none => exact unlinkBad_settled h₃' hout₃
    | @found ip _ e href =>
      rw [wp_bind]
      apply (ilock_evolves h₃'.intact).imp
      rintro _ t₄ ⟨h₄, -, hip, hfree, -, -⟩
      have h₄' := h₃'.trans (settled h₄)
      have hout₄ : 0 < t₄.outstanding := h₄.outstanding ▸ hout₃
      have hdp₄ := h₄.held dp trivial (hevolves.held dp trivial hdp)
      have hne : ip ≠ dp := by
        intro heq
        rw [heq, hlock, hlocked] at hfree
        cases hfree
      rw [wp_bind, wp_of_ok (entry_ok ip), wp_ite]
      refine ⟨fun _ => rfl, fun _ => ?_⟩
      rw [wp_bind]
      apply (inUse_still h₄.intact hip).imp
      rintro busy _ rfl
      rw [wp_ite]
      constructor
      · intro _
        rw [wp_bind]
        apply (drop_settled h₄' hout₄).imp
        rintro _ t₅ ⟨h₅, hout₅, -⟩
        exact unlinkBad_settled h₅ (hout₅ ▸ hout₄)
      · intro _
        exact unlinkAt_settled h₄' hdp₄ hip hne hout₄ e

/-!
## `link`
-/

theorem linkBad_settled (h : Settled s t) (hout : 0 < t.outstanding) :
    wp (linkBad ip) (fun _ u => Settled s u) (fun e => e.excluded = false) t := by
  unfold linkBad
  rw [wp_bind]
  apply (ilock_evolves h.intact).imp
  rintro _ u ⟨hu, -, hip, -⟩
  have huout : 0 < u.outstanding := hu.outstanding ▸ hout
  rw [wp_bind]
  apply (addLink_evolves hu.intact hip huout _).imp
  rintro _ v ⟨hv, -⟩
  rw [wp_bind]
  apply (drop_settled (h.trans (settled (hu.trans hv))) (hv.outstanding ▸ huout)).imp
  rintro _ w ⟨hw, -⟩
  rw [wp_bind]
  exact settled_endOp hw

theorem linkIn_settled (h : Settled s t) (hdp : Held t dp) (hout : 0 < t.outstanding) (name : Str) :
    wp (linkIn ip dp name) (fun _ u => Settled s u) (fun e => e.excluded = false) t := by
  have hbad : ∀ {u : Fs.State}, Settled s u → 0 < u.outstanding →
      wp (do iunlockput dp; linkBad ip) (fun _ v => Settled s v) (fun e => e.excluded = false) u := by
    intro u hu huout
    rw [wp_bind]
    apply (drop_settled hu huout).imp
    rintro _ v ⟨hv, hvout, -⟩
    exact linkBad_settled hv (hvout ▸ huout)
  unfold linkIn
  rw [wp_bind, wp_of_ok (entry_ok dp), wp_bind, wp_of_ok (entry_ok ip), wp_ite]
  refine ⟨fun _ => hbad h hout, fun _ => ?_⟩
  rw [wp_bind]
  apply (dirlink_evolves h.intact hdp hout name (h.intact.inum ip)).imp
  intro r u hu
  have hu' := h.trans (settled hu)
  have huout : 0 < u.outstanding := hu.outstanding ▸ hout
  rw [wp_ite]
  refine ⟨fun _ => hbad hu' huout, fun _ => ?_⟩
  rw [wp_bind]
  apply (drop_settled hu' huout).imp
  rintro _ v ⟨hv, hvout, -⟩
  rw [wp_bind]
  apply (iput_evolves hv.intact (hvout ▸ huout)).imp
  rintro _ w ⟨hw, -⟩
  rw [wp_bind]
  exact settled_endOp (hv.trans (settled hw))

theorem link_settled (h : Intact s) {cwd : Slot} (hcwd : 0 < (s.inode cwd).ref) (old new : Str) :
    wp (link cwd old new) (fun _ t => Settled s t) (fun e => e.excluded = false) s := by
  unfold link
  rw [wp_bind]
  apply (intact_beginOp h).imp
  rintro _ t₀ ⟨h₀, hout₀, hinode₀⟩
  have hcwd₀ : 0 < (t₀.inode cwd).ref := hinode₀ ▸ hcwd
  rw [wp_bind]
  unfold namei
  rw [wp_bind]
  apply ((namex_evolves h₀.intact (by omega) hcwd₀ old false).and
    ((Holds.refl cwd t₀).namex old false)).imp
  rintro r t₁ ⟨h₁, hrefs⟩
  have h₁' := h₀.trans (settled h₁)
  have hout₁ : 0 < t₁.outstanding := by
    rw [h₁.outstanding]
    omega
  have hcwd₁ := hrefs.cwd hcwd₀
  cases r with
  | none => exact settled_endOp h₁'
  | some r =>
    obtain ⟨ip, -⟩ := r
    change wp (ilock ip >>= _) _ _ t₁
    rw [wp_bind]
    apply ((ilock_evolves h₁.intact).and (quiet_ilock ip t₁)).imp
    rintro _ t₂ ⟨⟨h₂, -, hip, -⟩, hstill₂⟩
    have h₂' := h₁'.trans (settled h₂)
    have hout₂ : 0 < t₂.outstanding := h₂.outstanding ▸ hout₁
    rw [wp_bind, wp_of_ok (entry_ok ip), wp_ite]
    constructor
    · intro _
      rw [wp_bind]
      apply (drop_settled h₂' hout₂).imp
      rintro _ t₃ ⟨h₃, -⟩
      rw [wp_bind]
      exact settled_endOp h₃
    · intro _
      rw [wp_bind]
      apply ((addLink_evolves h₂.intact hip hout₂ 1).and (quiet_addLink ip 1 t₂)).imp
      rintro _ t₃ ⟨⟨h₃, -⟩, hstill₃⟩
      have h₃' := h₂'.trans (settled h₃)
      rw [wp_bind]
      apply ((iunlock_evolves (P := fun _ => True) h₃.intact).and (quiet_iunlock ip t₃)).imp
      rintro _ t₄ ⟨⟨h₄, -⟩, hstill₄⟩
      have h₄' := h₃'.trans (settled h₄)
      have hout₄ : 0 < t₄.outstanding := by
        rw [h₄.outstanding, h₃.outstanding]
        exact hout₂
      have hcwd₄ : 0 < (t₄.inode cwd).ref := by
        rw [hstill₄.ref, hstill₃.ref, hstill₂.ref]
        exact hcwd₁
      rw [wp_bind]
      unfold nameiparent
      apply (namex_evolves h₄.intact hout₄ hcwd₄ new true).imp
      intro r t₅ h₅
      have h₅' := h₄'.trans (settled h₅)
      have hout₅ : 0 < t₅.outstanding := h₅.outstanding ▸ hout₄
      cases r with
      | none => exact linkBad_settled h₅' hout₅
      | some r =>
        obtain ⟨dp, name⟩ := r
        rw [wp_bind]
        apply (ilock_evolves h₅.intact).imp
        rintro _ t₆ ⟨h₆, -, hdp, -⟩
        exact linkIn_settled (h₅'.trans (settled h₆)) hdp (h₆.outstanding ▸ hout₅) name

/-!
## `create`
-/

theorem createDots_evolves (h : Intact s) (hdp : Held s dp) (hip : Held s ip)
    (hout : 0 < s.outstanding) :
    wp (createDots dp ip) (fun _ t => Evolves (fun _ => True) s t) (fun e => e.excluded = false) s := by
  unfold createDots
  rw [wp_bind]
  apply (addLink_evolves h hdp hout 1).imp
  rintro _ t ⟨ht, -⟩
  have htout : 0 < t.outstanding := ht.outstanding ▸ hout
  rw [wp_bind, wp_of_ok (entry_ok ip), wp_bind]
  apply (dirlink_evolves ht.intact (ht.held ip trivial hip) htout dot (ht.intact.inum ip)).imp
  intro r u hu
  have hu' := ht.trans hu
  rw [wp_ite]
  refine ⟨fun _ => rfl, fun _ => ?_⟩
  rw [wp_bind, wp_of_ok (entry_ok dp), wp_bind]
  apply (dirlink_evolves hu.intact (hu'.held ip trivial hip) (hu.outstanding ▸ htout) dotdot
    (hu.intact.inum dp)).imp
  intro r v hv
  rw [wp_ite]
  exact ⟨fun _ => rfl, fun _ => hu'.trans hv⟩

theorem createNew_evolves (h : Intact s) (hdp : Held s dp) (hout : 0 < s.outstanding) (name : Str)
    (type major minor : Int16) :
    wp (createNew dp name type major minor) (fun _ t => Evolves (fun _ => False) s t)
      (fun e => e.excluded = false) s := by
  unfold createNew
  rw [wp_bind, wp_of_ok (entry_ok dp), h.dev dp hdp.1, wp_bind]
  apply (ialloc_evolves type h hout).imp
  rintro ip t₁ ⟨u, hu, -, href⟩
  have h₁ := hu.trans href.evolves
  rw [wp_bind]
  apply (ilock_evolves h₁.intact).imp
  rintro _ t₂ ⟨h₂, -, hip, -⟩
  have h₂' := h₁.trans h₂
  have hout₂ : 0 < t₂.outstanding := h₂'.outstanding ▸ hout
  have hset : setEntry ip (fun x => { x with major := major, minor := minor, nlink := 1 }) t₂ =
      .ok (⟨⟩, t₂.adjust ip fun x => { x with major := major, minor := minor, nlink := 1 }) := rfl
  have hrelabels : Relabels fun x => { x with major := major, minor := minor, nlink := 1 } :=
    ⟨⟨fun _ => rfl, fun _ => rfl, fun _ => rfl, fun _ => rfl⟩, fun _ => rfl, fun _ => rfl,
      fun _ => rfl⟩
  have h₃ := h₂.intact.relabel hip hrelabels
  have hip₃ := h₃.held ip trivial hip
  have h₃' := h₂'.trans h₃
  rw [wp_bind, wp_of_ok hset, wp_bind, wp_of_ok (iupdate_adjust hout₂), wp_bind]
  generalize t₂.flush ip _ = t₃ at *
  have hout₃ : 0 < t₃.outstanding := h₃'.outstanding ▸ hout
  have hrest : ∀ {v : Fs.State}, Evolves (fun _ => True) s v →
      wp (do
        let x ← entry ip
        let r ← dirlink dp name x.inum
        if r < 0 then throw .createDirlink
        else
          iunlockput dp
          return ip : Fs.Cmd Slot) (fun _ t => Evolves (fun _ => False) s t)
        (fun e => e.excluded = false) v := by
    intro v hv
    have hvout : 0 < v.outstanding := hv.outstanding ▸ hout
    rw [wp_bind, wp_of_ok (entry_ok ip), wp_bind]
    apply (dirlink_evolves hv.intact (hv.held dp trivial hdp) hvout name (hv.intact.inum ip)).imp
    intro r w hw
    rw [wp_ite]
    refine ⟨fun _ => rfl, fun _ => ?_⟩
    rw [wp_bind]
    apply (iunlockput_evolves hw.intact (hw.outstanding ▸ hvout)).imp
    rintro _ x ⟨hx, -⟩
    exact ((hv.trans hw).mono fun _ hk => hk.elim).trans (hx.mono fun _ hk => hk.elim)
  rw [wp_ite]
  constructor
  · intro _
    apply (createDots_evolves h₃.intact (h₃'.held dp trivial hdp) hip₃ hout₃).imp
    intro _ v hv
    exact hrest (h₃'.trans hv)
  · intro _
    exact hrest h₃'

theorem create_evolves (h : Intact s) {cwd : Slot} (hcwd : 0 < (s.inode cwd).ref)
    (hout : 0 < s.outstanding) (path : Str) (type major minor : Int16) :
    wp (create cwd path type major minor) (fun _ t => Evolves (fun _ => False) s t)
      (fun e => e.excluded = false) s := by
  unfold create
  rw [wp_bind]
  unfold nameiparent
  apply (namex_evolves h hout hcwd path true).imp
  intro r t₁ h₁
  have hout₁ : 0 < t₁.outstanding := h₁.outstanding ▸ hout
  cases r with
  | none => exact h₁
  | some r =>
    obtain ⟨dp, name⟩ := r
    rw [wp_bind]
    apply (ilock_evolves h₁.intact).imp
    rintro _ t₂ ⟨h₂, -, hdp, -⟩
    have h₂' := h₁.trans (h₂.mono fun _ hk => hk.elim)
    rw [wp_bind]
    apply (dirlookup_looked h₂.intact hdp name).imp
    intro r t₃ h₃
    have hevolves := h₃.evolves h₂.intact
    have h₃' := h₂'.trans (hevolves.mono fun _ hk => hk.elim)
    have hout₃ : 0 < t₃.outstanding := by
      rw [hevolves.outstanding, h₂.outstanding]
      exact hout₁
    cases h₃ with
    | none =>
      rw [wp_bind]
      apply (createNew_evolves h₃'.intact hdp hout₃ name type major minor).imp
      intro ip t₄ h₄
      exact h₃'.trans h₄
    | @found ip _ e href =>
      rw [wp_bind]
      apply (iunlockput_evolves h₃'.intact hout₃).imp
      rintro _ t₄ ⟨h₄, -⟩
      have h₄' := h₃'.trans (h₄.mono fun _ hk => hk.elim)
      rw [wp_bind]
      apply (ilock_evolves h₄.intact).imp
      rintro _ t₅ ⟨h₅, -⟩
      have h₅' := h₄'.trans (h₅.mono fun _ hk => hk.elim)
      rw [wp_bind, wp_of_ok (entry_ok ip), wp_ite]
      refine ⟨fun _ => h₅', fun _ => ?_⟩
      rw [wp_bind]
      apply (iunlockput_evolves h₅.intact (by rw [h₅'.outstanding]; exact hout)).imp
      rintro _ t₆ ⟨h₆, -⟩
      exact h₅'.trans (h₆.mono fun _ hk => hk.elim)

end

end Xv6.Files
