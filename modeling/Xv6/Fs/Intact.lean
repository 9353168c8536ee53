import Xv6.Fs.Refine
import Xv6.Fs.Trunc

/-!
# The file system between calls

`Intact` is what holds of the disk and the inode table when no call is at work.  A call works on
one entry of the table at a time: `Apart` says that it leaves the other files alone, and
`Intact.step` puts the two together.
-/

namespace Xv6.Fs

open Lib

structure Apart (k : Slot) (s t : State) : Prop where
  sb : t.sb = s.sb
  outstanding : t.outstanding = s.outstanding
  others : ∀ k', k' ≠ k → t.inode k' = s.inode k'
  inum : (t.inode k).inum = (s.inode k).inum
  dev : (t.inode k).dev = (s.inode k).dev
  ref : (t.inode k).ref = (s.inode k).ref
  dinode : ∀ i, i < s.sb.ninodes → i ≠ (s.inode k).inum → t.dinode i = s.dinode i
  bytes : ∀ i q, i < s.sb.ninodes → i ≠ (s.inode k).inum → q < 269 →
    (s.dinode i).block s.bufs q ≠ 0 →
    t.bufs ((s.dinode i).block s.bufs q) = s.bufs ((s.dinode i).block s.bufs q)
  noLeak : NoLeak k s t

section

variable {s t u : State} {k : Slot} {i q : Nat}

namespace Apart

theorem block (h : Apart k s t) (hi : i < s.sb.ninodes) (hne : i ≠ (s.inode k).inum) (q : Nat) :
    (s.dinode i).block t.bufs q = (s.dinode i).block s.bufs q :=
  Dinode.block_of_bytes (fun q' => h.bytes i q' hi hne) q

theorem trans (h : Apart k s t) (h' : Apart k t u) : Apart k s u where
  sb := h'.sb.trans h.sb
  outstanding := h'.outstanding.trans h.outstanding
  others k' hk' := (h'.others k' hk').trans (h.others k' hk')
  inum := h'.inum.trans h.inum
  dev := h'.dev.trans h.dev
  ref := h'.ref.trans h.ref
  dinode i hi hne := (h'.dinode i (h.sb ▸ hi) (h.inum ▸ hne)).trans (h.dinode i hi hne)
  bytes i q hi hne hq hblock := by
    have hnext := h'.bytes i q (h.sb ▸ hi) (h.inum ▸ hne) hq
    rw [h.dinode i hi hne, h.block hi hne] at hnext
    rw [hnext hblock, h.bytes i q hi hne hq hblock]
  noLeak := h.noLeak.trans h'.noLeak h.sb

end Apart

theorem Touched.apart (h : Touched k s t) : Apart k s t where
  sb := h.sb
  outstanding := h.outstanding
  others := h.others
  inum := h.inum
  dev := by rw [h.entry]
  ref := by rw [h.entry]
  dinode i hi _ := h.dinode i hi
  bytes := h.bytes
  noLeak := h.noLeak

structure Harmless (f : Inode → Inode) : Prop where
  inum : ∀ ip, (f ip).inum = ip.inum
  dev : ∀ ip, (f ip).dev = ip.dev
  ref : ∀ ip, (f ip).ref = ip.ref
  addrs : ∀ ip, (f ip).addrs = ip.addrs

theorem Owned.flush_apart {f : Inode → Inode} (h : Owned k s) (hf : Harmless f) :
    Apart k s (s.flush k f) := by
  have hinum := hf.inum (s.inode k)
  have hbytes := flush_bytes hinum h
  constructor
  · rfl
  · rfl
  · exact fun k' hk' => flush_of_ne hk'
  · rw [flush_self, hinum]
  · rw [flush_self, hf.dev]
  · rw [flush_self, hf.ref]
  · exact fun i _ hne => flush_dinode hinum hne
  · intro i q hi hne hq hblock
    have hregion := (h.other_region hi hne hq hblock).1
    unfold Superblock.nmeta at hregion
    exact hbytes _ (by omega)
  · apply noLeak_of_own
    · intro q hq _
      rw [flush_self]
      exact flush_block hinum h (hf.addrs _) q
    · intro x hx hused
      left
      have hblock := hbytes _ (s.sb.bmapstart_le_bblock x)
      unfold State.used at hused ⊢
      rw [← hblock]
      exact hused

theorem Emptied.block (h : Emptied k s t) (bufs : Nat → Bytes) (q : Nat) :
    (t.inode k).block bufs q = 0 := by
  unfold Dinode.block
  by_cases hq : q < 13
  · have hzero : (t.inode k).addrs[q] = 0 := h.addrs ⟨q, hq⟩
    rw [dif_pos hq, hzero]
    rfl
  · have hzero : (t.inode k).indirect = 0 := h.addrs 12
    rw [dif_neg hq, if_pos hzero]

theorem Emptied.apart (he : Emptied k s t) (h : Owned k s) : Apart k s t where
  sb := he.freed.sb
  outstanding := he.freed.outstanding
  others := he.freed.others
  inum := by rw [he.freed.entry]
  dev := by rw [he.freed.entry]
  ref := by rw [he.freed.entry]
  dinode i hi _ := dinode_congr he.freed.sb (he.freed.bytes _ (.inl (h.layout.inodes i hi)))
  bytes i q hi hne hq hblock := he.freed.bytes _ (.inr (h.other_region hi hne hq hblock).1)
  noLeak x hmeta _ hused := by
    obtain ⟨hold, hnot⟩ := (he.freed.used x).1 hused
    refine .inr ⟨hold, fun q hq heq => ?_⟩
    have hzero := hnot q hq heq
    unfold Superblock.nmeta at hmeta
    omega

theorem Emptied.owned (he : Emptied k s t) (h : Owned k s) : Owned k t := by
  have ha := he.apart h
  have hsb := he.freed.sb
  have hanchored : Anchored k t := by
    refine ⟨by rw [hsb]; exact h.layout, ?_, ?_, ?_, ?_⟩
    · intro x hx
      rw [hsb] at hx
      refine (he.freed.used x).2 ⟨h.metaUsed x hx, fun q hq heq => ?_⟩
      by_contra hne
      have hregion := (h.anchored.region q hq (heq ▸ hne)).1
      omega
    · exact fun q _ hne => absurd (he.block _ q) hne
    · exact fun q _ hne => absurd (he.block _ q) hne
    · exact fun q _ _ _ hne => absurd (he.block _ q) hne
  apply h.of_anchored hanchored hsb ha.inum ha.dinode ha.bytes
  · intro i q hi hne hq hblock
    have hregion := h.other_region hi hne hq hblock
    refine (he.freed.used _).2 ⟨hregion.2.2, fun q' hq' heq => ?_⟩
    exact absurd heq.symm (h.ne_of_other hi hne hq hq' hblock)
  · exact fun q _ hne => absurd (he.block _ q) hne

end

/-!
## The invariant
-/

def inumAt (content : List UInt8) (e : Nat) : Nat :=
  (content.getD (16 * e) 0).toNat + 256 * (content.getD (16 * e + 1) 0).toNat

def Dinode.Names (d : Dinode) (bufs : Nat → Bytes) (ninodes : Nat) : Prop :=
  ∀ e, 16 * e + 16 ≤ d.size.toNat → inumAt (d.content bufs) e < ninodes

/-- The entry is in use, and the inode has been read. -/
def Held (s : State) (k : Slot) : Prop := 0 < (s.inode k).ref ∧ (s.inode k).valid = true

/-- The blocks of all inodes are distinct data blocks in use, and no file has holes.  The table has
one entry for an inode, and what has been read of it is what its block has. -/
structure Intact (s : State) : Prop where
  layout : s.sb.Layout
  root : ROOTINO < s.sb.ninodes
  metaUsed : s.MetaUsed
  region : ∀ i q, i < s.sb.ninodes → q < 269 → (s.dinode i).block s.bufs q ≠ 0 →
    s.sb.nmeta ≤ (s.dinode i).block s.bufs q ∧ (s.dinode i).block s.bufs q < s.sb.size
  used : ∀ i q, i < s.sb.ninodes → q < 269 → (s.dinode i).block s.bufs q ≠ 0 →
    s.used ((s.dinode i).block s.bufs q) = true
  distinct : ∀ i q i' q', i < s.sb.ninodes → q < 269 → i' < s.sb.ninodes → q' < 269 →
    (s.dinode i).block s.bufs q ≠ 0 →
    (s.dinode i).block s.bufs q = (s.dinode i').block s.bufs q' → i = i' ∧ q = q'
  full : ∀ i, i < s.sb.ninodes → (s.dinode i).Full s.bufs
  size : ∀ i, i < s.sb.ninodes → (s.dinode i).size.toNat ≤ MAXFILE * BSIZE
  names : ∀ i, i < s.sb.ninodes → (s.dinode i).type = T_DIR →
    (s.dinode i).Names s.bufs s.sb.ninodes
  dev : ∀ k, 0 < (s.inode k).ref → (s.inode k).dev = ROOTDEV
  inum : ∀ k, (s.inode k).inum < s.sb.ninodes
  coherent : ∀ k, Held s k → (s.inode k).toDinode = s.dinode (s.inode k).inum
  typed : ∀ k, Held s k → (s.inode k).type ≠ 0
  unique : s.Unique

def NoLost (s : State) : Prop :=
  ∀ x, s.sb.nmeta ≤ x → x < s.sb.size → s.used x = true →
    ∃ i q, i < s.sb.ninodes ∧ q < 269 ∧ (s.dinode i).block s.bufs q = x

/-- No block is lost, and an inode that is not in use has no blocks. -/
structure Tight (s : State) : Prop where
  back : NoLost s
  empty : ∀ i q, i < s.sb.ninodes → q < 269 → (s.dinode i).type = 0 →
    (s.dinode i).block s.bufs q = 0

section

variable {s t u : State} {k : Slot} {i q : Nat}

theorem Intact.node (h : Intact s) (hk : Held s k) (i : Nat) : s.node k i = s.dinode i := by
  unfold State.node
  by_cases hi : i = (s.inode k).inum
  · rw [if_pos hi, hi, h.coherent k hk]
  · rw [if_neg hi]

theorem Intact.owned (h : Intact s) (hk : Held s k) : Owned k s where
  layout := h.layout
  metaUsed := h.metaUsed
  inum := h.inum k
  region i q := by
    rw [h.node hk]
    exact h.region i q
  used i q := by
    rw [h.node hk]
    exact h.used i q
  distinct i q i' q' := by
    rw [h.node hk, h.node hk]
    exact h.distinct i q i' q'

theorem Intact.fullAt (h : Intact s) (hk : Held s k) : (s.inode k).Full s.bufs := by
  rw [h.coherent k hk]
  exact h.full _ (h.inum k)

theorem Intact.sizeAt (h : Intact s) (hk : Held s k) : (s.inode k).size.toNat ≤ MAXFILE * BSIZE := by
  rw [h.coherent k hk]
  exact h.size _ (h.inum k)

theorem Apart.file (ha : Apart k s t) (h : Intact s) (hi : i < s.sb.ninodes)
    (hne : i ≠ (s.inode k).inum) :
    (∀ j, ptr t.bufs (s.dinode i) j = ptr s.bufs (s.dinode i) j) ∧
      (s.dinode i).content t.bufs = (s.dinode i).content s.bufs := by
  have hptr : ∀ j, ptr t.bufs (s.dinode i) j = ptr s.bufs (s.dinode i) j := by
    intro j
    rw [ptr_eq_block, ptr_eq_block, ha.block hi hne]
  refine ⟨hptr, content_congr rfl ?_⟩
  intro j hj
  have hmax : (s.dinode i).size.toNat ≤ 268 * 1024 := h.size i hi
  have hthere := h.full i hi j hj
  refine ⟨hptr j, ?_⟩
  rw [ptr_eq_block] at hthere ⊢
  exact ha.bytes i _ hi hne (placeOf_lt (by omega)) hthere

theorem Intact.step (h : Intact s) (hk : Held s k) (ha : Apart k s t) (howned : Owned k t)
    (hstored : t.dinode (s.inode k).inum = (t.inode k).toDinode)
    (hfull : (t.inode k).Full t.bufs) (hsize : (t.inode k).size.toNat ≤ MAXFILE * BSIZE)
    (hnames : (t.inode k).type = T_DIR → (t.inode k).Names t.bufs t.sb.ninodes)
    (htyped : (t.inode k).valid = true → (t.inode k).type ≠ 0) : Intact t := by
  have hsb := ha.sb
  have hnode : ∀ i, t.node k i = t.dinode i := by
    intro i
    unfold State.node
    by_cases hi : i = (t.inode k).inum
    · rw [if_pos hi, hi, ha.inum, hstored]
    · rw [if_neg hi]
  have hentry : ∀ k', k' ≠ k → 0 < (s.inode k').ref → (s.inode k').inum ≠ (s.inode k).inum := by
    intro k' hk' href heq
    exact hk' (h.unique k' k href hk.1 ((h.dev k' href).trans (h.dev k hk.1).symm) heq)
  have hheld : ∀ k', k' ≠ k → Held t k' → Held s k' := by
    intro k' hk' hheld
    unfold Held at hheld ⊢
    rwa [ha.others k' hk'] at hheld
  constructor
  · exact howned.layout
  · rw [hsb]
    exact h.root
  · exact howned.metaUsed
  · intro i q
    rw [← hnode]
    exact howned.region i q
  · intro i q
    rw [← hnode]
    exact howned.used i q
  · intro i q i' q'
    rw [← hnode, ← hnode]
    exact howned.distinct i q i' q'
  · intro i hi
    rw [hsb] at hi
    by_cases hself : i = (s.inode k).inum
    · rw [hself, hstored]
      exact hfull
    · rw [ha.dinode i hi hself]
      intro j hj
      rw [(ha.file h hi hself).1]
      exact h.full i hi j hj
  · intro i hi
    rw [hsb] at hi
    by_cases hself : i = (s.inode k).inum
    · rw [hself, hstored]
      exact hsize
    · rw [ha.dinode i hi hself]
      exact h.size i hi
  · intro i hi
    rw [hsb] at hi
    by_cases hself : i = (s.inode k).inum
    · rw [hself, hstored]
      exact hnames
    · rw [ha.dinode i hi hself]
      intro htype e he
      rw [(ha.file h hi hself).2, hsb]
      exact h.names i hi htype e he
  · intro k' href
    by_cases hk' : k' = k
    · subst hk'
      rw [ha.dev]
      exact h.dev _ hk.1
    · rw [ha.others k' hk'] at href ⊢
      exact h.dev k' href
  · intro k'
    rw [hsb]
    by_cases hk' : k' = k
    · rw [hk', ha.inum]
      exact h.inum k
    · rw [ha.others k' hk']
      exact h.inum k'
  · intro k' hh
    by_cases hk' : k' = k
    · subst hk'
      rw [ha.inum, hstored]
    · have hold := hheld k' hk' hh
      rw [ha.others k' hk', ha.dinode _ (h.inum k') (hentry k' hk' hold.1)]
      exact h.coherent k' hold
  · intro k' hh
    by_cases hk' : k' = k
    · subst hk'
      exact htyped hh.2
    · rw [ha.others k' hk']
      exact h.typed k' (hheld k' hk' hh)
  · apply h.unique.still
    constructor
    · intro k'
      by_cases hk' : k' = k
      · rw [hk', ha.dev]
      · rw [ha.others k' hk']
    · intro k'
      by_cases hk' : k' = k
      · rw [hk', ha.inum]
      · rw [ha.others k' hk']
    · intro k'
      by_cases hk' : k' = k
      · rw [hk', ha.ref]
      · rw [ha.others k' hk']

theorem Apart.noLost (ha : Apart k s t) (h : NoLost s) (hs : Intact s) (hk : Held s k)
    (hstored : t.dinode (s.inode k).inum = (t.inode k).toDinode) : NoLost t := by
  have hsb := ha.sb
  have hinum := hs.inum k
  intro x hmeta hsize hx
  rw [hsb] at hmeta hsize
  obtain ⟨q, hq, heq⟩ | ⟨hold, hnot⟩ := ha.noLeak x hmeta hsize hx
  · exact ⟨(s.inode k).inum, q, by rwa [hsb], hq, by rw [hstored, heq]⟩
  · obtain ⟨i, q, hi, hq, heq⟩ := h x hmeta hsize hold
    have hself : i ≠ (s.inode k).inum := by
      intro hself
      rw [hself, ← hs.coherent k hk] at heq
      exact hnot q hq heq
    exact ⟨i, q, by rwa [hsb], hq, by rw [ha.dinode i hi hself, ha.block hi hself, heq]⟩

theorem Tight.step (h : Tight s) (hs : Intact s) (hk : Held s k) (ha : Apart k s t)
    (hstored : t.dinode (s.inode k).inum = (t.inode k).toDinode)
    (hempty : (t.inode k).type = 0 → ∀ q, q < 269 → (t.inode k).block t.bufs q = 0) : Tight t := by
  refine ⟨ha.noLost h.back hs hk hstored, ?_⟩
  intro i q hi hq htype
  rw [ha.sb] at hi
  by_cases hself : i = (s.inode k).inum
  · rw [hself, hstored] at htype ⊢
    exact hempty htype q hq
  · rw [ha.dinode i hi hself] at htype ⊢
    rw [ha.block hi hself]
    exact h.empty i q hi hq htype

end

/-!
## One empty file
-/

theorem oneFile_held : Held oneFile 0 := by
  obtain ⟨-, -, href, hvalid⟩ := oneFile_table 0
  refine ⟨?_, hvalid⟩
  rw [href]
  decide

theorem oneFile_ref {k : Slot} (h : 0 < (oneFile.inode k).ref) : k = 0 := by
  by_contra hne
  rw [(oneFile_table k).2.2.1, if_neg hne] at h
  exact absurd h (by decide)

theorem oneFile_small {i : Nat} (hi : i < 16) :
    (oneFile.dinode i).size.toNat = 0 ∧ (oneFile.dinode i).type ≠ T_DIR := by
  rw [oneFile_dinode hi]
  by_cases hself : i = 1
  · rw [if_pos hself]
    exact ⟨rfl, by decide⟩
  · rw [if_neg hself, (zero_load _).1, (zero_load _).2.1]
    exact ⟨rfl, by decide⟩

theorem intact_oneFile : Intact oneFile where
  layout := layout_oneFile
  root := by
    rw [oneFile_ninodes]
    decide
  metaUsed := metaUsed_oneFile
  region i q hi _ hne := absurd (oneFile_block (oneFile_ninodes ▸ hi) q) hne
  used i q hi _ hne := absurd (oneFile_block (oneFile_ninodes ▸ hi) q) hne
  distinct i q _ _ hi _ _ _ hne _ := absurd (oneFile_block (oneFile_ninodes ▸ hi) q) hne
  full i hi j hj := by
    rw [(oneFile_small (oneFile_ninodes ▸ hi)).1] at hj
    omega
  size i hi := by
    rw [(oneFile_small (oneFile_ninodes ▸ hi)).1]
    exact Nat.zero_le _
  names i hi htype := absurd htype (oneFile_small (oneFile_ninodes ▸ hi)).2
  dev k _ := (oneFile_table k).1
  inum k := by
    rw [(oneFile_table k).2.1, oneFile_ninodes]
    split <;> decide
  coherent k hk := by
    rw [oneFile_ref hk.1, oneFile_entry, oneFile_inum, oneFile_dinode (by decide), if_pos rfl]
  typed k hk := by
    have htype : (oneFile.inode 0).type = T_FILE := congrArg Dinode.type oneFile_entry
    rw [oneFile_ref hk.1, htype]
    decide
  unique j k hj hk _ _ := (oneFile_ref hj).trans (oneFile_ref hk).symm

theorem tight_oneFile : Tight oneFile where
  back x hmeta hsize hx := by
    rw [oneFile_unused] at hx
    · cases hx
    · exact Nat.le_trans oneFile_nmeta hmeta
    · exact Nat.lt_of_lt_of_le hsize oneFile_size
  empty i q hi _ _ := oneFile_block (oneFile_ninodes ▸ hi) q

end Xv6.Fs
