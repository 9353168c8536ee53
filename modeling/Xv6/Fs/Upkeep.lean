import Xv6.Fs.Intact

/-!
# The calls of `fs.c` keep the file system intact

One lemma for each function on an entry of the table.  A function may be called in any intact
state; what it needs beyond that, such as an operation in progress, is a hypothesis.
-/

namespace Xv6.Fs

open Lib Lib.Cmd

def Stop.excluded : Stop → Bool
  | freeingFreeBlock => true
  | outsideOfTrans => true
  | outOfRange => true
  | _ => false

structure Evolves (P : Slot → Prop) (s t : State) : Prop where
  intact : Intact t
  tight : Tight s → Tight t
  sb : t.sb = s.sb
  outstanding : t.outstanding = s.outstanding
  held : ∀ k, P k → Held s k → Held t k

variable {f : Inode → Inode}

section

variable {s t u : State} {k : Slot} {P P' : Slot → Prop}

namespace Evolves

theorem refl (h : Intact s) : Evolves P s s := ⟨h, id, rfl, rfl, fun _ _ hk => hk⟩

theorem trans (h : Evolves P s t) (h' : Evolves P t u) : Evolves P s u where
  intact := h'.intact
  tight ht := h'.tight (h.tight ht)
  sb := h'.sb.trans h.sb
  outstanding := h'.outstanding.trans h.outstanding
  held k hP hk := h'.held k hP (h.held k hP hk)

theorem mono (h : Evolves P s t) (hP : ∀ k, P' k → P k) : Evolves P' s t :=
  ⟨h.intact, h.tight, h.sb, h.outstanding, fun k hk => h.held k (hP k hk)⟩

end Evolves

/-!
## Changes of the table only
-/

theorem Tight.adjust (h : Tight s) : Tight (s.adjust k f) := ⟨h.back, h.empty⟩

theorem Intact.adjust (h : Intact s)
    (hdev : 0 < (f (s.inode k)).ref → (f (s.inode k)).dev = ROOTDEV)
    (hinum : (f (s.inode k)).inum < s.sb.ninodes)
    (hvalid : 0 < (f (s.inode k)).ref → (f (s.inode k)).valid = true →
      (f (s.inode k)).toDinode = s.dinode (f (s.inode k)).inum ∧ (f (s.inode k)).type ≠ 0)
    (hunique : (s.adjust k f).Unique) : Intact (s.adjust k f) where
  layout := h.layout
  root := h.root
  metaUsed := h.metaUsed
  region := h.region
  used := h.used
  distinct := h.distinct
  full := h.full
  size := h.size
  names := h.names
  dev k' href := by
    by_cases hk' : k' = k
    · subst hk'
      rw [State.adjust_self] at href ⊢
      exact hdev href
    · rw [State.adjust_of_ne _ _ hk'] at href ⊢
      exact h.dev k' href
  inum k' := by
    by_cases hk' : k' = k
    · rw [hk', State.adjust_self]
      exact hinum
    · rw [State.adjust_of_ne _ _ hk']
      exact h.inum k'
  coherent k' hheld := by
    unfold Held at hheld
    by_cases hk' : k' = k
    · subst hk'
      rw [State.adjust_self] at hheld ⊢
      exact (hvalid hheld.1 hheld.2).1
    · rw [State.adjust_of_ne _ _ hk'] at hheld ⊢
      exact h.coherent k' hheld
  typed k' hheld := by
    unfold Held at hheld
    by_cases hk' : k' = k
    · subst hk'
      rw [State.adjust_self] at hheld ⊢
      exact (hvalid hheld.1 hheld.2).2
    · rw [State.adjust_of_ne _ _ hk'] at hheld ⊢
      exact h.typed k' hheld
  unique := hunique

structure Flags (f : Inode → Inode) : Prop where
  toDinode : ∀ ip, (f ip).toDinode = ip.toDinode
  dev : ∀ ip, (f ip).dev = ip.dev
  inum : ∀ ip, (f ip).inum = ip.inum
  valid : ∀ ip, (f ip).valid = true → ip.valid = true

theorem Intact.flags (h : Intact s) (hf : Flags f)
    (href : 0 < (f (s.inode k)).ref → 0 < (s.inode k).ref) : Intact (s.adjust k f) := by
  apply h.adjust
  · intro hpos
    rw [hf.dev]
    exact h.dev k (href hpos)
  · rw [hf.inum]
    exact h.inum k
  · intro hpos hvalid
    have hheld : Held s k := ⟨href hpos, hf.valid _ hvalid⟩
    rw [hf.inum, hf.toDinode]
    exact ⟨h.coherent k hheld, h.typed k hheld⟩
  · exact h.unique.adjust k f hf.dev hf.inum href

theorem Intact.flags_evolves (h : Intact s) (hf : Flags f)
    (href : 0 < (f (s.inode k)).ref → 0 < (s.inode k).ref)
    (hkept : P k → Held s k → 0 < (f (s.inode k)).ref ∧ (f (s.inode k)).valid = true) :
    Evolves P s (s.adjust k f) where
  intact := h.flags hf href
  tight := Tight.adjust
  sb := rfl
  outstanding := rfl
  held k' hP hk' := by
    unfold Held at hk' ⊢
    by_cases heq : k' = k
    · subst heq
      rw [State.adjust_self]
      exact hkept hP hk'
    · rwa [State.adjust_of_ne _ _ heq]

theorem flags_addRef : Flags fun ip => { ip with ref := ip.ref + 1 } :=
  ⟨fun _ => rfl, fun _ => rfl, fun _ => rfl, fun _ hv => hv⟩

theorem flags_drop : Flags fun ip => { ip with ref := ip.ref - 1 } :=
  ⟨fun _ => rfl, fun _ => rfl, fun _ => rfl, fun _ hv => hv⟩

theorem flags_locked (b : Bool) : Flags fun ip => { ip with locked := b } :=
  ⟨fun _ => rfl, fun _ => rfl, fun _ => rfl, fun _ hv => hv⟩

structure SameDisk (s t : State) : Prop where
  bufs : t.bufs = s.bufs
  disk : t.disk = s.disk
  lh : t.lh = s.lh

theorem SameDisk.adjust (s : State) (k : Slot) (f : Inode → Inode) : SameDisk s (s.adjust k f) :=
  ⟨rfl, rfl, rfl⟩

theorem SameDisk.trans (h : SameDisk s t) (h' : SameDisk t u) : SameDisk s u :=
  ⟨h'.bufs.trans h.bufs, h'.disk.trans h.disk, h'.lh.trans h.lh⟩

structure Referred (k : Slot) (s t : State) : Prop where
  evolves : Evolves (fun _ => True) s t
  sameDisk : SameDisk s t
  ref : (t.inode k).ref = (s.inode k).ref + 1
  locked : ∀ k', Held s k' → (t.inode k').locked = (s.inode k').locked

theorem Intact.addRef (h : Intact s) (href : 0 < (s.inode k).ref) :
    Referred k s (s.adjust k fun ip => { ip with ref := ip.ref + 1 }) where
  evolves := by
    apply h.flags_evolves flags_addRef (fun _ => href)
    intro _ hk
    refine ⟨?_, hk.2⟩
    change 0 < (s.inode k).ref + 1
    omega
  sameDisk := .adjust ..
  ref := by rw [State.adjust_self]
  locked k' _ := by
    by_cases hk' : k' = k
    · rw [hk', State.adjust_self]
    · rw [State.adjust_of_ne _ _ hk']

theorem iget_evolves (h : Intact s) {inum : Nat} (hinum : inum < s.sb.ninodes) :
    wp (iget ROOTDEV inum) (fun k t => Referred k s t) (fun e => e.excluded = false) s := by
  unfold iget
  rw [wp_bind, wp_get]
  split
  next k hfind =>
    exact h.addRef (State.find_some hfind).1
  next hfind =>
    split
    next k hempty =>
      have href := State.empty_some hempty
      have hne : ∀ k', Held s k' → k' ≠ k := by
        intro k' hk' heq
        have hpos := hk'.1
        rw [heq, href] at hpos
        omega
      refine ⟨⟨?_, Tight.adjust, rfl, rfl, ?_⟩, .adjust .., ?_, ?_⟩
      · apply h.adjust
        · exact fun _ => rfl
        · exact hinum
        · intro _ hvalid
          cases hvalid
        · exact h.unique.fresh hfind k
      · intro k' _ hk'
        have hother := hne k' hk'
        unfold Held at hk' ⊢
        rwa [State.adjust_of_ne _ _ hother]
      · rw [State.adjust_self, href]
        rfl
      · intro k' hk'
        rw [State.adjust_of_ne _ _ (hne k' hk')]
    next => rfl

theorem idup_evolves (h : Intact s) (href : 0 < (s.inode k).ref) :
    wp (idup k) (fun k' t => Referred k' s t) (fun e => e.excluded = false) s :=
  h.addRef href

theorem acquiresleep_evolves (h : Intact s) :
    wp (acquiresleep k)
      (fun _ t => Evolves P s t ∧ SameDisk s t ∧ (s.inode k).locked = false ∧
        t = s.adjust k fun ip => { ip with locked := true })
      (fun e => e.excluded = false) s := by
  unfold acquiresleep
  rw [wp_bind, wp_of_ok (entry_ok k), wp_ite]
  constructor
  · intro _
    rfl
  · intro hfree
    refine ⟨?_, .adjust .., by simpa using hfree, rfl⟩
    exact h.flags_evolves (flags_locked true) (fun hpos => hpos) fun _ hk => hk

theorem ilock_evolves (h : Intact s) :
    wp (ilock k)
      (fun _ t => Evolves (fun _ => True) s t ∧ SameDisk s t ∧ Held t k ∧
        (s.inode k).locked = false ∧ (t.inode k).locked = true ∧
        ∀ k', k' ≠ k → t.inode k' = s.inode k')
      (fun e => e.excluded = false) s := by
  unfold ilock
  rw [wp_bind, wp_of_ok (entry_ok k), wp_ite]
  refine ⟨fun _ => rfl, fun href => ?_⟩
  rw [wp_bind]
  apply (acquiresleep_evolves (P := fun _ => True) h).imp
  intro _ t ht
  obtain ⟨hevolves, hdisk, hfree, rfl⟩ := ht
  have hothers : ∀ k', k' ≠ k →
      (s.adjust k fun ip => { ip with locked := true }).inode k' = s.inode k' :=
    fun k' hk' => State.adjust_of_ne _ _ hk'
  rw [wp_ite]
  constructor
  · intro hvalid
    refine ⟨hevolves, hdisk, ?_, hfree, ?_, hothers⟩
    · unfold Held
      rw [State.adjust_self]
      exact ⟨by change 0 < (s.inode k).ref; omega, hvalid⟩
    · rw [State.adjust_self]
  · intro hvalid
    have hload : iload k (s.adjust k fun ip => { ip with locked := true }) =
        .ok (⟨⟩, (s.adjust k fun ip => { ip with locked := true }).adjust k fun ip =>
          { ip with toDinode := s.dinode ip.inum, valid := true }) := rfl
    rw [wp_bind, wp_of_ok hload, wp_bind, wp_of_ok (entry_ok k), wp_ite, State.adjust_self,
      State.adjust_self]
    refine ⟨fun _ => rfl, fun htype => ?_⟩
    have hpos : 0 < (s.inode k).ref := by omega
    have hself : ∀ f g, ((s.adjust k f).adjust k g).inode k = g (f (s.inode k)) := by
      intro f g
      rw [State.adjust_self, State.adjust_self]
    have hintact := hevolves.intact
    refine ⟨⟨?_, fun ht => (hevolves.tight ht).adjust, rfl, rfl, ?_⟩,
      hdisk.trans (.adjust ..), ?_, hfree, ?_, ?_⟩
    · apply hintact.adjust
      · intro _
        rw [State.adjust_self]
        exact h.dev k hpos
      · rw [State.adjust_self]
        exact h.inum k
      · intro _ _
        rw [State.adjust_self]
        exact ⟨rfl, htype⟩
      · exact hintact.unique.adjust k _ (fun _ => rfl) (fun _ => rfl) fun hpos => hpos
    · intro k' _ hk'
      unfold Held at hk' ⊢
      by_cases heq : k' = k
      · rw [heq, hself]
        exact ⟨hpos, rfl⟩
      · rw [State.adjust_of_ne _ _ heq, hothers k' heq]
        exact hk'
    · unfold Held
      rw [hself]
      exact ⟨hpos, rfl⟩
    · rw [hself]
    · intro k' hk'
      rw [State.adjust_of_ne _ _ hk', hothers k' hk']

theorem releasesleep_evolves (h : Intact s) :
    Evolves P s (s.adjust k fun ip => { ip with locked := false }) :=
  h.flags_evolves (flags_locked false) (fun hpos => hpos) fun _ hk => hk

theorem iunlock_evolves (h : Intact s) :
    wp (iunlock k) (fun _ t => Evolves P s t ∧ SameDisk s t ∧ ∀ k', k' ≠ k → t.inode k' = s.inode k')
      (fun e => e.excluded = false) s := by
  unfold iunlock
  rw [wp_bind, wp_of_ok (entry_ok k), wp_ite]
  refine ⟨fun _ => rfl, fun _ => ⟨releasesleep_evolves h, .adjust .., ?_⟩⟩
  exact fun k' hk' => State.adjust_of_ne _ _ hk'

/-!
## Changes of a file
-/

theorem Intact.evolves (h : Intact s) (hk : Held s k) (ha : Apart k s t) (howned : Owned k t)
    (hstored : t.dinode (s.inode k).inum = (t.inode k).toDinode)
    (hfull : (t.inode k).Full t.bufs) (hsize : (t.inode k).size.toNat ≤ MAXFILE * BSIZE)
    (hnames : (t.inode k).type = T_DIR → (t.inode k).Names t.bufs t.sb.ninodes)
    (htype : (t.inode k).type = (s.inode k).type) (hvalid : (t.inode k).valid = (s.inode k).valid) :
    Evolves (fun _ => True) s t := by
  have htyped : (t.inode k).type ≠ 0 := by
    rw [htype]
    exact h.typed k hk
  refine ⟨h.step hk ha howned hstored hfull hsize hnames fun _ => htyped, ?_, ha.sb, ha.outstanding,
    ?_⟩
  · intro ht
    exact ht.step h hk ha hstored fun hzero => absurd hzero htyped
  · intro k' _ hk'
    unfold Held at hk' ⊢
    by_cases heq : k' = k
    · subst heq
      rw [ha.ref, hvalid]
      exact hk'
    · rwa [ha.others k' heq]

theorem itrunc_evolves (h : Intact s) (hk : Held s k) (hout : 0 < s.outstanding) :
    wp (itrunc k) (fun _ t => Evolves (fun _ => True) s t ∧ Apart k s t ∧ (t.inode k).size = 0 ∧
      ∀ bufs q, (t.inode k).block bufs q = 0) (fun _ => False) s := by
  have howned := h.owned hk
  apply (itrunc_emptied howned.anchored hout).imp
  rintro _ t ⟨u, hu, rfl⟩
  have hu' := hu.owned howned
  have hharmless : Harmless fun ip => { ip with size := 0 } :=
    ⟨fun _ => rfl, fun _ => rfl, fun _ => rfl, fun _ => rfl⟩
  have hself : (u.flush k fun ip => { ip with size := 0 }).inode k = { u.inode k with size := 0 } :=
    flush_self
  have hentry := hu.freed.entry
  have ha := (hu.apart howned).trans (hu'.flush_apart hharmless)
  refine ⟨?_, ha, ?_, ?_⟩
  · apply h.evolves hk ha (hu'.flush rfl rfl)
    · have hstored := flush_dinode_self (s := u) (k := k) (f := fun ip => { ip with size := 0 }) rfl
      rw [(hu.apart howned).inum] at hstored
      rw [hstored, hself]
    · intro j hj
      rw [hself] at hj
      change j < (0 + 1023) / 1024 at hj
      omega
    · rw [hself]
      exact Nat.zero_le _
    · intro _ e he
      rw [hself] at he
      change 16 * e + 16 ≤ 0 at he
      omega
    · rw [hself]
      change (u.inode k).type = (s.inode k).type
      rw [hentry]
    · rw [hself]
      change (u.inode k).valid = (s.inode k).valid
      rw [hentry]
  · rw [hself]
  · intro bufs q
    rw [hself]
    exact hu.block bufs q

theorem flush_adjust {g : Inode → Inode} (hdinode : ∀ ip, (g ip).toDinode = ip.toDinode)
    (hinum : ∀ ip, (g ip).inum = ip.inum) :
    (s.flush k f).adjust k g = s.flush k fun ip => g (f ip) := by
  unfold State.flush State.adjust State.put
  dsimp only
  rw [hdinode, hinum, upd_self, upd_upd]

def State.forget (s : State) (k : Slot) : State :=
  s.flush k fun ip => { ip with type := 0, valid := false }

theorem forget_self : (s.forget k).inode k = { s.inode k with type := 0, valid := false } := flush_self

theorem forget_apart (h : Owned k s) : Apart k s (s.forget k) := by
  have hharmless : Harmless fun ip => { ip with type := 0, valid := false } :=
    ⟨fun _ => rfl, fun _ => rfl, fun _ => rfl, fun _ => rfl⟩
  exact h.flush_apart hharmless

theorem forget_stored : (s.forget k).dinode (s.inode k).inum = ((s.forget k).inode k).toDinode := by
  rw [forget_self]
  exact flush_dinode_self rfl

theorem Intact.forgotten (h : Intact s) (hk : Held s k) : Intact (s.forget k) := by
  have howned := h.owned hk
  apply h.step hk (forget_apart howned) (howned.flush rfl rfl) forget_stored
  · rw [forget_self]
    intro j hj
    have hthere := h.fullAt hk j hj
    rw [ptr_eq_block] at hthere ⊢
    have hblock := flush_block (f := fun ip => { ip with type := 0, valid := false }) rfl howned rfl
      (placeOf j)
    exact hblock ▸ hthere
  · rw [forget_self]
    exact h.sizeAt hk
  · rw [forget_self]
    intro htype
    change (0 : Int16) = T_DIR at htype
    exact absurd htype (by decide)
  · rw [forget_self]
    intro hvalid
    cases hvalid

theorem Intact.forget (h : Intact s) (hk : Held s k)
    (hblock : ∀ bufs q, (s.inode k).block bufs q = 0) :
    Evolves (fun k' => k' ≠ k) s (s.forget k) := by
  have ha := forget_apart (h.owned hk)
  refine ⟨h.forgotten hk, ?_, rfl, rfl, ?_⟩
  · intro ht
    apply ht.step h hk ha forget_stored
    intro _ q _
    rw [forget_self]
    exact hblock _ q
  · intro k' hk' hheld
    unfold Held at hheld ⊢
    rwa [ha.others k' hk']

theorem ifree_evolves (h : Intact s) (hk : Held s k) (hout : 0 < s.outstanding) :
    wp (ifree k) (fun _ t => Evolves (fun k' => k' ≠ k) s t ∧
      ∀ k', k' ≠ k → t.inode k' = s.inode k') (fun e => e.excluded = false) s := by
  unfold ifree
  rw [wp_bind]
  apply (acquiresleep_evolves (P := fun _ => True) h).imp
  rintro _ s' ⟨hlock, -, -, rfl⟩
  rw [wp_bind]
  apply (itrunc_evolves hlock.intact (hlock.held k trivial hk) hout).mono
  · rintro _ t ⟨ht, ha, -, hblock⟩
    have htk := ht.held k trivial (hlock.held k trivial hk)
    have htout : 0 < t.outstanding := ht.outstanding ▸ hout
    have hset : setEntry k (fun ip => { ip with type := 0 }) t =
        .ok (⟨⟩, t.adjust k fun ip => { ip with type := 0 }) := rfl
    have hinvalid : setEntry k (fun ip => { ip with valid := false })
        (t.flush k fun ip => { ip with type := 0 }) =
        .ok (⟨⟩, (t.flush k fun ip => { ip with type := 0 }).adjust k fun ip =>
          { ip with valid := false }) := rfl
    have hboth := flush_adjust (s := t) (k := k) (f := fun ip => { ip with type := 0 })
      (g := fun ip => { ip with valid := false }) (fun _ => rfl) fun _ => rfl
    rw [wp_bind, wp_of_ok hset, wp_bind, wp_of_ok (iupdate_adjust htout), wp_bind,
      wp_of_ok hinvalid, hboth]
    have hgone := ht.intact.forget htk hblock
    refine ⟨?_, ?_⟩
    · exact ((hlock.trans ht).mono fun _ _ => trivial).trans
        (hgone.trans (releasesleep_evolves hgone.intact))
    · intro k' hk'
      change ((t.flush k _).adjust k _).inode k' = _
      rw [State.adjust_of_ne _ _ hk', flush_of_ne hk', ha.others k' hk', State.adjust_of_ne _ _ hk']
  · exact fun e he => he.elim

theorem iput_evolves (h : Intact s) (hout : 0 < s.outstanding) :
    wp (iput k) (fun _ t => Evolves (fun k' => k' ≠ k ∨ 1 < (s.inode k).ref) s t ∧
      ∀ k', k' ≠ k → t.inode k' = s.inode k') (fun e => e.excluded = false) s := by
  have hdrop : ∀ {t : State}, Intact t → Evolves (fun k' => k' ≠ k ∨ 1 < (t.inode k).ref) t
      (t.adjust k fun ip => { ip with ref := ip.ref - 1 }) := by
    intro t ht
    apply ht.flags_evolves flags_drop
    · intro hpos
      change 0 < (t.inode k).ref - 1 at hpos
      omega
    · rintro (hne | hmore) hk
      · exact absurd rfl hne
      · refine ⟨?_, hk.2⟩
        change 0 < (t.inode k).ref - 1
        omega
  unfold iput
  rw [wp_bind, wp_of_ok (entry_ok k), wp_bind, wp_ite]
  constructor
  · intro hlast
    have hk : Held s k := ⟨by omega, hlast.2.1⟩
    apply (ifree_evolves h hk hout).imp
    rintro _ t ⟨ht, hothers⟩
    refine ⟨(ht.trans ((hdrop ht.intact).mono fun _ hk' => .inl hk')).mono ?_, fun k' hk' => ?_⟩
    · rintro k' (hne | hmore)
      · exact hne
      · omega
    · change (t.adjust k _).inode k' = _
      rw [State.adjust_of_ne _ _ hk', hothers k' hk']
  · intro _
    exact ⟨hdrop h, fun k' hk' => State.adjust_of_ne _ _ hk'⟩

theorem iunlockput_evolves (h : Intact s) (hout : 0 < s.outstanding) :
    wp (iunlockput k) (fun _ t => Evolves (fun k' => k' ≠ k) s t ∧
      ∀ k', k' ≠ k → t.inode k' = s.inode k') (fun e => e.excluded = false) s := by
  unfold iunlockput
  rw [wp_bind]
  apply (iunlock_evolves (P := fun k' => k' ≠ k) h).imp
  rintro _ t ⟨ht, -, hothers⟩
  apply (iput_evolves ht.intact (ht.outstanding ▸ hout)).imp
  rintro _ u ⟨hu, hothers'⟩
  refine ⟨ht.trans (hu.mono fun _ hk' => .inl hk'), fun k' hk' => ?_⟩
  exact (hothers' k' hk').trans (hothers k' hk')

theorem Touched.sized_evolves {off m : Nat} (ht : Touched k s t) (h : Intact s) (hk : Held s k)
    (hoff : off ≤ (s.inode k).size.toNat) (hmax : off + m ≤ 268 * 1024)
    (hfilled : ∀ o, off ≤ o → o < off + m → Fs.ptr t.bufs (t.inode k).toDinode (o / 1024) ≠ 0)
    (hnames : (s.inode k).type = T_DIR → ((t.flush k (sized (off + m))).inode k).Names
      (t.flush k (sized (off + m))).bufs s.sb.ninodes) :
    Evolves (fun _ => True) s (t.flush k (sized (off + m))) := by
  have hsize : (s.inode k).size.toNat ≤ 268 * 1024 := h.sizeAt hk
  have hharmless : Harmless (sized (off + m)) :=
    ⟨fun _ => rfl, fun _ => rfl, fun _ => rfl, fun _ => rfl⟩
  have hself : (t.flush k (sized (off + m))).inode k = sized (off + m) (t.inode k) := flush_self
  have hlen := sized_size (t.inode k) (show off + m < 2 ^ 32 by omega)
  have hold : (t.inode k).size = (s.inode k).size := by rw [ht.entry]
  rw [hold] at hlen
  apply h.evolves hk (ht.apart.trans (ht.owned.flush_apart hharmless)) (ht.owned.flush rfl rfl)
  · have hstored := flush_dinode_self (s := t) (k := k) (f := sized (off + m)) rfl
    rw [ht.inum] at hstored
    rw [hstored, hself]
  · intro j hj
    rw [hself, hlen] at hj
    rw [hself, ptr_eq_block, flush_block rfl ht.owned rfl, ← ptr_eq_block]
    exact (h.fullAt hk).extend ht hoff hsize hfilled hj
  · rw [hself, hlen]
    exact Nat.max_le.2 ⟨hsize, hmax⟩
  · intro htype
    have hsb : (t.flush k (sized (off + m))).sb = s.sb := ht.sb
    rw [hsb]
    apply hnames
    rw [hself] at htype
    change (t.inode k).type = T_DIR at htype
    rwa [ht.entry] at htype
  · rw [hself]
    change (t.inode k).type = _
    rw [ht.entry]
  · rw [hself]
    change (t.inode k).valid = _
    rw [ht.entry]

/-- `writei` to a file that is not a directory, from any source. -/
theorem writei_evolves {src : Src} {off n : Nat} (h : Intact s) (hk : Held s k)
    (hdir : (s.inode k).type ≠ T_DIR) (hout : 0 < s.outstanding) :
    wp (writei k src off n) (fun _ t => Evolves (fun _ => True) s t)
      (fun e => e.excluded = false) s := by
  by_cases hrefused : (s.inode k).size.toNat < off ∨ 268 * 1024 < off + n
  · rw [wp_of_ok (writei_refused hrefused)]
    exact .refl h
  · apply (writei_loop (by omega) (by omega) (writeiLoop_touched (h.owned hk) hout (Nat.zero_le n)
      (by omega)) fun r t hr => ?_).mono
    · rintro v u ⟨r, t, ⟨m, hm, rfl, ht, hfilled⟩, -, rfl⟩
      exact ht.sized_evolves h hk (by omega) (by omega) hfilled fun htype => absurd htype hdir
    · rintro e rfl
      rfl
    · obtain ⟨m, -, -, ht, -⟩ := hr
      exact ht.outstanding ▸ hout

structure Relabels (f : Inode → Inode) : Prop extends Harmless f where
  size : ∀ ip, (f ip).size = ip.size
  type : ∀ ip, (f ip).type = ip.type
  valid : ∀ ip, (f ip).valid = ip.valid

theorem Intact.relabel (h : Intact s) (hk : Held s k) (hf : Relabels f) :
    Evolves (fun _ => True) s (s.flush k f) := by
  have howned := h.owned hk
  have hinum := hf.inum (s.inode k)
  have haddrs := hf.addrs (s.inode k)
  have hself : (s.flush k f).inode k = f (s.inode k) := flush_self
  have hptr : ∀ j, ptr (s.flush k f).bufs (f (s.inode k)).toDinode j =
      ptr s.bufs (s.inode k).toDinode j := by
    intro j
    rw [ptr_eq_block, flush_block hinum howned haddrs, ptr_eq_block]
  apply h.evolves hk (howned.flush_apart hf.toHarmless) (howned.flush hinum haddrs)
  · rw [hself]
    exact flush_dinode_self hinum
  · intro j hj
    rw [hself, hf.size] at hj
    rw [hself, hptr]
    exact h.fullAt hk j hj
  · rw [hself, hf.size]
    exact h.sizeAt hk
  · intro htype e he
    rw [hself, hf.size] at he
    rw [hself, hf.type] at htype
    have hcontent : (f (s.inode k)).content (s.flush k f).bufs = (s.inode k).content s.bufs := by
      apply content_congr (hf.size _)
      intro j hj
      refine ⟨hptr j, flush_bytes hinum howned _ ?_⟩
      have hne := h.fullAt hk j hj
      have hmax : (s.inode k).size.toNat ≤ 268 * 1024 := h.sizeAt hk
      rw [ptr_eq_block] at hne ⊢
      have hregion := (howned.anchored.region _ (placeOf_lt (by omega)) hne).1
      unfold Superblock.nmeta at hregion
      omega
    rw [hself, hcontent]
    have hnames := h.names _ (h.inum k)
    rw [← h.coherent k hk] at hnames
    exact hnames htype e he
  · rw [hself, hf.type]
  · rw [hself, hf.valid]

/-!
## Directories
-/

theorem inumAt_splice {l w : List UInt8} {e : Nat} (hlen : 16 * e ≤ l.length) (hw : w.length = 16)
    (e' : Nat) :
    inumAt (splice l (16 * e) w) e' = if e' = e then inumAt w 0 else inumAt l e' := by
  unfold inumAt
  simp only [List.getD_eq_getElem?_getD]
  rw [getElem?_splice hlen, getElem?_splice hlen, hw]
  by_cases he : e' = e
  · subst he
    rw [if_pos (by omega), if_pos (by omega), if_pos rfl, Nat.sub_self, Nat.add_sub_cancel_left]
  · rw [if_neg (by omega), if_neg (by omega), if_neg he]

theorem inumAt_bytes (de : Dirent) : inumAt (Src.bytes (.kernel de.bytes) 16) 0 = de.inum % 65536 := by
  have hfirst : (Src.bytes (.kernel de.bytes) 16).getD 0 0 = byteOf de.inum 0 := rfl
  have hsecond : (Src.bytes (.kernel de.bytes) 16).getD 1 0 = byteOf de.inum 1 := rfl
  unfold inumAt
  rw [Nat.mul_zero, Nat.zero_add, hfirst, hsecond]
  simp only [byteOf, UInt8.toNat_ofNat']
  omega

theorem writeDirent_evolves {e : Nat} {de : Dirent} {panic : Stop} (h : Intact s) (hk : Held s k)
    (hout : 0 < s.outstanding) (hde : de.inum < s.sb.ninodes) (hpanic : panic.excluded = false) :
    wp (writeDirent k (16 * e) de panic) (fun _ t => Evolves (fun _ => True) s t)
      (fun e => e.excluded = false) s := by
  have hsize : (s.inode k).size.toNat ≤ 268 * 1024 := h.sizeAt hk
  unfold writeDirent
  rw [wp_bind]
  by_cases hrefused : (s.inode k).size.toNat < 16 * e ∨ 268 * 1024 < 16 * e + 16
  · rw [wp_of_ok (writei_refused hrefused), if_neg (by decide)]
    exact hpanic
  · have howned := h.owned hk
    have hsrc : ∀ i, i < 16 → ((Src.kernel de.bytes).byte i).isSome := fun _ _ => rfl
    apply (writei_whole howned hout (by omega) (by omega) hsrc).mono
    · rintro v u ⟨rfl, t, rfl, hwrote⟩
      rw [if_pos (by decide)]
      have hwritten := hwrote.written howned (h.fullAt hk) hsize (by omega) (by omega)
      apply hwrote.touched.sized_evolves h hk (by omega) (by omega)
        fun o ho ho' => (hwrote.filled o ho ho').1
      intro htype e' he'
      rw [hwritten.size (by omega), length_bytes] at he'
      rw [hwritten.content, inumAt_splice (by rw [length_content]; omega) (length_bytes ..)]
      by_cases hee : e' = e
      · rw [if_pos hee, inumAt_bytes]
        exact Nat.lt_of_le_of_lt (Nat.mod_le _ _) hde
      · rw [if_neg hee]
        have hnames := h.names _ (h.inum k)
        rw [← h.coherent k hk] at hnames
        exact hnames htype e' (by omega)
    · rintro e' ⟨rfl, -⟩
      rfl

end

end Xv6.Fs
