import Xv6.Fs.Upkeep

/-!
# Reading, looking up and linking

Reading a file without holes changes nothing, whatever the destination is, so it needs no
operation.  The functions on directories and paths keep the file system intact.
-/

namespace Xv6.Fs

open Lib Lib.Cmd

section

variable {s t : State} {k : Slot}

theorem readiLoop_still {size : Nat}
    (h : ∀ j, j < (size + 1023) / 1024 → ptr s.bufs (s.inode k).toDinode j ≠ 0)
    (hsize : size ≤ 268 * 1024) {n fuel tot off : Nat} (hlen : off + (n - tot) ≤ size) (dst : Dst) :
    ∃ r, readiLoop k n fuel tot off dst s = .ok (r, s) := by
  induction fuel generalizing tot off dst with
  | zero => exact ⟨_, rfl⟩
  | succ fuel ih =>
    unfold readiLoop
    by_cases hlt : tot < n
    · rw [if_pos hlt, bind_ok (bmap_mapped (by omega) (h _ (by omega))), bind_ok bread_ok]
      split
      · exact ih (by omega) _
      · exact ⟨_, rfl⟩
    · rw [if_neg hlt]
      exact ⟨_, rfl⟩

theorem readi_still (h : Intact s) (hk : Held s k) (dst : Dst) (off n : Nat) :
    ∃ r, readi k dst off n s = .ok (r, s) := by
  unfold readi
  rw [bind_ok (entry_ok k)]
  by_cases hout : (s.inode k).size.toNat < off ∨ 2 ^ 32 ≤ off + n
  · rw [if_pos hout]
    exact ⟨_, rfl⟩
  · rw [if_neg hout]
    apply readiLoop_still (h.fullAt hk) (h.sizeAt hk)
    split <;> omega

theorem word_two (d : Bytes) : word d 0 2 = (d 0).toNat + 256 * (d 1).toNat := by
  simp [word]

/-- `readDirent` returns the entry, if the directory has all of it. -/
theorem readDirent_inum (h : Intact s) (hk : Held s k) (e : Nat) (panic : Stop) :
    wp (readDirent k (16 * e) panic)
      (fun de t => t = s ∧ 16 * e + 16 ≤ (s.inode k).size.toNat ∧
        de.inum = inumAt ((s.inode k).content s.bufs) e) (fun e => e = panic) s := by
  have hsize : (s.inode k).size.toNat ≤ 268 * 1024 := h.sizeAt hk
  unfold readDirent
  rw [wp_bind]
  by_cases hout : (s.inode k).size.toNat < 16 * e
  · have hread : readi k (.kernel fun _ => 0) (16 * e) 16 s = .ok ((0, .kernel fun _ => 0), s) := by
      unfold readi
      rw [bind_ok (entry_ok k), if_pos (.inl hout)]
      rfl
    rw [wp_of_ok hread]
    rfl
  · have hread := readi_end (b := fun _ => 0) ((h.fullAt hk).readable hsize) length_content.symm
      (show 16 * e ≤ _ by rw [length_content]; omega) (show 16 * e + 16 < 2 ^ 32 by omega)
    rw [wp_of_ok hread, length_content]
    by_cases hwhole : 16 * e + 16 ≤ (s.inode k).size.toNat
    · have hcount : min 16 ((s.inode k).size.toNat - 16 * e) = 16 := by omega
      rw [hcount]
      refine ⟨rfl, hwhole, ?_⟩
      unfold inumAt
      change word _ 0 2 = _
      rw [word_two, blit_inside (by omega) (by omega), blit_inside (by omega) (by omega)]
      rfl
    · split
      next bytes heq =>
        have hcount := congrArg Prod.fst heq
        dsimp only at hcount
        omega
      next => rfl

inductive Looked (s : State) : Option (Slot × Nat) → State → Prop
  | none : Looked s none s
  | found {ip : Slot} {t : State} (e : Nat) (h : Referred ip s t) : Looked s (some (ip, 16 * e)) t

theorem Looked.evolves {r : Option (Slot × Nat)} (hl : Looked s r t) (h : Intact s) :
    Evolves (fun _ => True) s t := by
  cases hl with
  | none => exact .refl h
  | found e href => exact href.evolves

theorem Looked.locked {r : Option (Slot × Nat)} (hl : Looked s r t) {k : Slot} (hk : Held s k) :
    (t.inode k).locked = (s.inode k).locked := by
  cases hl with
  | none => rfl
  | found e href => exact href.locked k hk

theorem dirlookupLoop_looked (h : Intact s) (hk : Held s k) (htype : (s.inode k).type = T_DIR)
    (name : Str) (fuel e : Nat) :
    wp (dirlookupLoop k name fuel (16 * e)) (fun r t => Looked s r t)
      (fun e => e.excluded = false) s := by
  induction fuel generalizing e with
  | zero => exact .none
  | succ fuel ih =>
    unfold dirlookupLoop
    rw [wp_bind, wp_of_ok (entry_ok k), wp_ite]
    refine ⟨fun _ => ?_, fun _ => .none⟩
    rw [wp_bind]
    apply (readDirent_inum h hk e .dirlookupRead).mono
    · rintro de t ⟨rfl, hwhole, hinum⟩
      have hnext := ih (e + 1)
      rw [show 16 * (e + 1) = 16 * e + 16 by omega] at hnext
      rw [wp_ite]
      refine ⟨fun _ => hnext, fun _ => ?_⟩
      rw [wp_ite]
      refine ⟨fun _ => ?_, fun _ => hnext⟩
      have hnames := h.names _ (h.inum k)
      rw [← h.coherent k hk] at hnames
      rw [wp_bind, h.dev k hk.1]
      apply (iget_evolves h (hinum ▸ hnames htype e hwhole)).imp
      intro ip u hu
      exact .found e hu
    · rintro e' rfl
      rfl

theorem dirlookup_looked (h : Intact s) (hk : Held s k) (name : Str) :
    wp (dirlookup k name) (fun r t => Looked s r t) (fun e => e.excluded = false) s := by
  unfold dirlookup
  rw [wp_bind, wp_of_ok (entry_ok k), wp_ite]
  refine ⟨fun htype => ?_, fun _ => rfl⟩
  have hloop := dirlookupLoop_looked h hk htype name ((s.inode k).size.toNat / 16 + 1) 0
  rwa [Nat.mul_zero] at hloop

theorem dirlinkLoop_still (h : Intact s) (hk : Held s k) (fuel e : Nat) :
    wp (dirlinkLoop k fuel (16 * e)) (fun off t => t = s ∧ ∃ e', off = 16 * e')
      (fun e => e.excluded = false) s := by
  induction fuel generalizing e with
  | zero => exact ⟨rfl, e, rfl⟩
  | succ fuel ih =>
    unfold dirlinkLoop
    rw [wp_bind, wp_of_ok (entry_ok k), wp_ite]
    refine ⟨fun _ => ?_, fun _ => ⟨rfl, e, rfl⟩⟩
    rw [wp_bind]
    apply (readDirent_inum h hk e .dirlinkRead).mono
    · rintro de t ⟨rfl, -, -⟩
      have hnext := ih (e + 1)
      rw [show 16 * (e + 1) = 16 * e + 16 by omega] at hnext
      rw [wp_ite]
      exact ⟨fun _ => ⟨rfl, e, rfl⟩, fun _ => hnext⟩
    · rintro e' rfl
      rfl

theorem Referred.iput {ip : Slot} (hr : Referred ip s t) (hout : 0 < s.outstanding) :
    wp (iput ip) (fun _ u => Evolves (fun _ => True) s u) (fun e => e.excluded = false) t := by
  apply (iput_evolves hr.evolves.intact (hr.evolves.outstanding ▸ hout)).imp
  rintro _ u ⟨hu, -⟩
  have hwide : Evolves (fun k' => k' ≠ ip ∨ 1 < (t.inode ip).ref) s t :=
    hr.evolves.mono fun _ _ => trivial
  have hboth := hwide.trans hu
  refine ⟨hboth.intact, hboth.tight, hboth.sb, hboth.outstanding, fun k' _ hk' => ?_⟩
  apply hboth.held k' _ hk'
  by_cases heq : k' = ip
  · right
    have hpos := hk'.1
    rw [heq] at hpos
    rw [hr.ref]
    omega
  · exact .inl heq

theorem dirlink_evolves (h : Intact s) (hk : Held s k) (hout : 0 < s.outstanding) (name : Str)
    {inum : Nat} (hinum : inum < s.sb.ninodes) :
    wp (dirlink k name inum) (fun _ t => Evolves (fun _ => True) s t)
      (fun e => e.excluded = false) s := by
  unfold dirlink
  rw [wp_bind]
  apply (dirlookup_looked h hk name).imp
  intro r t ht
  cases ht with
  | found e href =>
    rw [wp_bind]
    exact href.iput hout
  | none =>
    have hloop := dirlinkLoop_still h hk ((s.inode k).size.toNat / 16 + 1) 0
    rw [Nat.mul_zero] at hloop
    rw [wp_bind, wp_of_ok (entry_ok k), wp_bind]
    apply hloop.imp
    rintro off t ⟨rfl, e, rfl⟩
    rw [wp_bind]
    have hsmall : inum % 65536 < t.sb.ninodes := Nat.lt_of_le_of_lt (Nat.mod_le _ _) hinum
    exact writeDirent_evolves h hk hout hsmall rfl

/-!
## Paths
-/

theorem namexLoop_evolves (h : Intact s) (hout : 0 < s.outstanding) (parent : Bool) (fuel : Nat)
    (ip : Slot) (path : Str) :
    wp (namexLoop parent fuel ip path) (fun _ t => Evolves (fun _ => False) s t)
      (fun e => e.excluded = false) s := by
  induction fuel generalizing s ip path with
  | zero => exact .refl h
  | succ fuel ih =>
    have hdrop : ∀ {t : State}, Evolves (fun _ => False) s t →
        wp (iunlockput ip) (fun _ u => Evolves (fun _ => False) s u)
          (fun e => e.excluded = false) t := by
      intro t ht
      apply (iunlockput_evolves ht.intact (ht.outstanding ▸ hout)).imp
      rintro _ u ⟨hu, -⟩
      exact ht.trans (hu.mono fun _ hk => hk.elim)
    unfold namexLoop
    split
    next =>
      rw [wp_ite]
      refine ⟨fun _ => ?_, fun _ => .refl h⟩
      rw [wp_bind]
      apply (iput_evolves h hout).imp
      rintro _ t ⟨ht, -⟩
      exact ht.mono fun _ hk => hk.elim
    next name rest _ =>
      rw [wp_bind]
      apply (ilock_evolves h).imp
      rintro _ t ⟨ht, -, hip, -⟩
      have ht' : Evolves (fun _ => False) s t := ht.mono fun _ hk => hk.elim
      rw [wp_bind, wp_of_ok (entry_ok ip), wp_ite]
      refine ⟨fun _ => ?_, fun _ => ?_⟩
      · rw [wp_bind]
        exact hdrop ht'
      · rw [wp_ite]
        refine ⟨fun _ => ?_, fun _ => ?_⟩
        · rw [wp_bind]
          apply (iunlock_evolves ht.intact).imp
          rintro _ u ⟨hu, -⟩
          exact ht'.trans hu
        · rw [wp_bind]
          apply (dirlookup_looked ht.intact hip name).imp
          intro r u hu
          have hu' := ht'.trans ((hu.evolves ht.intact).mono fun _ hk => hk.elim)
          cases hu with
          | none =>
            rw [wp_bind]
            exact hdrop hu'
          | found e href =>
            rw [wp_bind]
            apply (hdrop hu').imp
            intro _ v hv
            apply (ih hv.intact (hv.outstanding ▸ hout) _ _).imp
            intro _ w hw
            exact hv.trans hw

theorem namex_evolves (h : Intact s) (hout : 0 < s.outstanding) {cwd : Slot}
    (hcwd : 0 < (s.inode cwd).ref) (path : Str) (parent : Bool) :
    wp (namex cwd path parent) (fun _ t => Evolves (fun _ => False) s t)
      (fun e => e.excluded = false) s := by
  have hrest : ∀ {ip : Slot} {t : State}, Referred ip s t →
      wp (namexLoop parent (path.length + 1) ip path) (fun _ u => Evolves (fun _ => False) s u)
        (fun e => e.excluded = false) t := by
    intro ip t ht
    apply (namexLoop_evolves ht.evolves.intact (ht.evolves.outstanding ▸ hout) parent _ ip path).imp
    intro _ u hu
    exact (ht.evolves.mono fun _ hk => hk.elim).trans hu
  unfold namex
  rw [wp_bind, wp_ite]
  refine ⟨fun _ => ?_, fun _ => ?_⟩
  · exact (iget_evolves h h.root).imp fun ip t ht => hrest ht
  · exact (idup_evolves h hcwd).imp fun ip t ht => hrest ht

end

end Xv6.Fs
