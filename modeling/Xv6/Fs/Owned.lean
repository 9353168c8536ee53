import Xv6.Fs.Places

/-!
# One owner for each block

Every block number of an inode or of an indirect block stands in one place.  While a call
works on an inode, entry `k` of the table has it, and the blocks of the disk have the others.
`Touched` is what a call that writes to entry `k` may do: other inodes keep their numbers and
their bytes, and the entry's own numbers stay.
-/

namespace Xv6.Fs

open Lib

def State.node (s : State) (k : Slot) (i : Nat) : Dinode :=
  if i = (s.inode k).inum then (s.inode k).toDinode else s.dinode i

/-- The metadata is in use, and the blocks of all inodes are distinct data blocks in use. -/
structure Owned (k : Slot) (s : State) : Prop where
  layout : s.sb.Layout
  metaUsed : s.MetaUsed
  inum : (s.inode k).inum < s.sb.ninodes
  region : ∀ i q, i < s.sb.ninodes → q < 269 → (s.node k i).block s.bufs q ≠ 0 →
    s.sb.nmeta ≤ (s.node k i).block s.bufs q ∧ (s.node k i).block s.bufs q < s.sb.size
  used : ∀ i q, i < s.sb.ninodes → q < 269 → (s.node k i).block s.bufs q ≠ 0 →
    s.used ((s.node k i).block s.bufs q) = true
  distinct : ∀ i q i' q', i < s.sb.ninodes → q < 269 → i' < s.sb.ninodes → q' < 269 →
    (s.node k i).block s.bufs q ≠ 0 →
    (s.node k i).block s.bufs q = (s.node k i').block s.bufs q' → i = i' ∧ q = q'

section

variable {s t u : State} {k : Slot} {i j p q b : Nat}

theorem node_self : s.node k (s.inode k).inum = (s.inode k).toDinode := if_pos rfl

theorem node_of_ne (h : i ≠ (s.inode k).inum) : s.node k i = s.dinode i := if_neg h

theorem dinode_congr (hsb : t.sb = s.sb)
    (hbufs : t.bufs (s.sb.iblock i) = s.bufs (s.sb.iblock i)) : t.dinode i = s.dinode i := by
  unfold State.dinode
  rw [hsb, hbufs]

namespace Owned

theorem anchored (h : Owned k s) : Anchored k s where
  layout := h.layout
  metaUsed := h.metaUsed
  region q hq := by
    have hregion := h.region _ q h.inum hq
    rwa [node_self] at hregion
  used q hq := by
    have hused := h.used _ q h.inum hq
    rwa [node_self] at hused
  distinct q q' hq hq' := by
    have hdistinct := h.distinct _ q _ q' h.inum hq h.inum hq'
    rw [node_self] at hdistinct
    exact fun hne heq => (hdistinct hne heq).2

end Owned

/-- Block numbers depend on the addresses and on the indirect block. -/
theorem Owned.block_eq {d : Dinode} {bufs' : Nat → Bytes} (h : Owned k s) (hi : i < s.sb.ninodes)
    (haddrs : d.addrs = (s.node k i).addrs)
    (hbytes : ∀ x, s.sb.bmapstart ≤ x → bufs' x = s.bufs x) (q : Nat) :
    d.block bufs' q = (s.node k i).block s.bufs q := by
  calc
    d.block bufs' q = (s.node k i).block bufs' q := by
      unfold Dinode.block Dinode.indirect
      rw [haddrs]
    _ = (s.node k i).block s.bufs q := by
      apply Dinode.block_of_bytes
      intro q' hq' hne
      have hregion := h.region i q' hi hq' hne
      apply hbytes
      unfold Superblock.nmeta at hregion
      omega

/-- Ownership is a matter of the block numbers, the bitmap and the indirect blocks.  The call may
now work on another entry. -/
theorem Owned.congr {k' : Slot} (h : Owned k s) (hsb : t.sb = s.sb)
    (hinum : (t.inode k').inum < s.sb.ninodes)
    (haddrs : ∀ i, i < s.sb.ninodes → (t.node k' i).addrs = (s.node k i).addrs)
    (hbytes : ∀ x, s.sb.bmapstart ≤ x → t.bufs x = s.bufs x) : Owned k' t := by
  have hused : ∀ x, t.used x = s.used x := by
    intro x
    unfold State.used
    rw [hsb, hbytes _ (s.sb.bmapstart_le_bblock x)]
  have hblock : ∀ i q, i < s.sb.ninodes →
      (t.node k' i).block t.bufs q = (s.node k i).block s.bufs q := by
    intro i q hi
    exact h.block_eq hi (haddrs i hi) hbytes q
  constructor
  · rw [hsb]
    exact h.layout
  · intro x hx
    rw [hsb] at hx
    rw [hused]
    exact h.metaUsed x hx
  · rw [hsb]
    exact hinum
  · intro i q hi hq
    rw [hsb] at hi ⊢
    rw [hblock i q hi]
    exact h.region i q hi hq
  · intro i q hi hq
    rw [hsb] at hi
    rw [hblock i q hi, hused]
    exact h.used i q hi hq
  · intro i q i' q' hi hq hi' hq'
    rw [hsb] at hi hi'
    rw [hblock i q hi, hblock i' q' hi']
    exact h.distinct i q i' q' hi hq hi' hq'

def NoLeak (k : Slot) (s t : State) : Prop :=
  ∀ x, s.sb.nmeta ≤ x → x < s.sb.size → t.used x = true →
    (∃ q, q < 269 ∧ (t.inode k).block t.bufs q = x) ∨
      (s.used x = true ∧ ∀ q, q < 269 → (s.inode k).block s.bufs q ≠ x)

theorem noLeak_of_own (hown : ∀ q, q < 269 → (s.inode k).block s.bufs q ≠ 0 →
      (t.inode k).block t.bufs q = (s.inode k).block s.bufs q)
    (hused : ∀ x, x < s.sb.size → t.used x = true →
      s.used x = true ∨ ∃ q, q < 269 ∧ (t.inode k).block t.bufs q = x) : NoLeak k s t := by
  intro x hmeta hsize hx
  by_cases hentry : ∃ q, q < 269 ∧ (s.inode k).block s.bufs q = x
  · obtain ⟨q, hq, heq⟩ := hentry
    have hne : (s.inode k).block s.bufs q ≠ 0 := by
      unfold Superblock.nmeta at hmeta
      omega
    exact .inl ⟨q, hq, (hown q hq hne).trans heq⟩
  · obtain hold | hnew := hused x hsize hx
    · exact .inr ⟨hold, fun q hq heq => hentry ⟨q, hq, heq⟩⟩
    · exact .inl hnew

theorem NoLeak.trans (h : NoLeak k s t) (h' : NoLeak k t u) (hsb : t.sb = s.sb) : NoLeak k s u := by
  intro x hmeta hsize hx
  obtain hnew | ⟨hx, hnot⟩ := h' x (by rwa [hsb]) (by rwa [hsb]) hx
  · exact .inl hnew
  · obtain ⟨q, hq, heq⟩ | hold := h x hmeta hsize hx
    · exact absurd heq (hnot q hq)
    · exact .inr hold

structure Touched (k : Slot) (s t : State) : Prop where
  owned : Owned k t
  sb : t.sb = s.sb
  outstanding : t.outstanding = s.outstanding
  others : ∀ k', k' ≠ k → t.inode k' = s.inode k'
  entry : t.inode k = { s.inode k with addrs := (t.inode k).addrs }
  dinode : ∀ i, i < s.sb.ninodes → t.dinode i = s.dinode i
  block : ∀ i q, i < s.sb.ninodes → i ≠ (s.inode k).inum → q < 269 →
    (s.dinode i).block t.bufs q = (s.dinode i).block s.bufs q
  bytes : ∀ i q, i < s.sb.ninodes → i ≠ (s.inode k).inum → q < 269 →
    (s.dinode i).block s.bufs q ≠ 0 →
    t.bufs ((s.dinode i).block s.bufs q) = s.bufs ((s.dinode i).block s.bufs q)
  own : ∀ q, q < 269 → (s.inode k).block s.bufs q ≠ 0 →
    (t.inode k).block t.bufs q = (s.inode k).block s.bufs q
  noLeak : NoLeak k s t

namespace Touched

theorem inum (h : Touched k s t) : (t.inode k).inum = (s.inode k).inum := by rw [h.entry]

theorem refl (h : Owned k s) : Touched k s s where
  owned := h
  sb := rfl
  outstanding := rfl
  others _ _ := rfl
  entry := rfl
  dinode _ _ := rfl
  block _ _ _ _ _ := rfl
  bytes _ _ _ _ _ _ := rfl
  own _ _ _ := rfl
  noLeak := noLeak_of_own (fun _ _ _ => rfl) fun _ _ hx => .inl hx

theorem trans (h : Touched k s t) (h' : Touched k t u) : Touched k s u where
  owned := h'.owned
  sb := h'.sb.trans h.sb
  outstanding := h'.outstanding.trans h.outstanding
  others k' hk' := (h'.others k' hk').trans (h.others k' hk')
  entry := by rw [h'.entry, h.entry]
  dinode i hi := (h'.dinode i (h.sb ▸ hi)).trans (h.dinode i hi)
  block i q hi hne hq := by
    have hnext := h'.block i q (h.sb ▸ hi) (h.inum ▸ hne) hq
    rw [h.dinode i hi] at hnext
    rw [hnext, h.block i q hi hne hq]
  bytes i q hi hne hq hblock := by
    have hnext := h'.bytes i q (h.sb ▸ hi) (h.inum ▸ hne) hq
    rw [h.dinode i hi, h.block i q hi hne hq] at hnext
    rw [hnext hblock, h.bytes i q hi hne hq hblock]
  own q hq hblock := by
    have hnow := h.own q hq hblock
    have hnext := h'.own q hq (hnow ▸ hblock)
    rw [hnext, hnow]
  noLeak := h.noLeak.trans h'.noLeak h.sb

end Touched

namespace Owned

theorem ne_of_other (h : Owned k s) (hi : i < s.sb.ninodes) (hne : i ≠ (s.inode k).inum)
    (hp : p < 269) (hq : q < 269) (hblock : (s.dinode i).block s.bufs p ≠ 0) :
    (s.dinode i).block s.bufs p ≠ (s.inode k).block s.bufs q := by
  intro heq
  rw [← node_of_ne (k := k) hne] at hblock heq
  rw [← node_self] at heq
  exact hne (h.distinct i p _ q hi hp h.inum hq hblock heq).1

theorem other_region (h : Owned k s) (hi : i < s.sb.ninodes) (hne : i ≠ (s.inode k).inum)
    (hq : q < 269) (hblock : (s.dinode i).block s.bufs q ≠ 0) :
    s.sb.nmeta ≤ (s.dinode i).block s.bufs q ∧ (s.dinode i).block s.bufs q < s.sb.size ∧
      s.used ((s.dinode i).block s.bufs q) = true := by
  rw [← node_of_ne (k := k) hne] at hblock ⊢
  have hregion := h.region i q hi hq hblock
  exact ⟨hregion.1, hregion.2, h.used i q hi hq hblock⟩

/-- The new state is owned if the entry's blocks are, and the other inodes are as before. -/
theorem of_anchored (h : Owned k s) (ht : Anchored k t) (hsb : t.sb = s.sb)
    (hinum : (t.inode k).inum = (s.inode k).inum)
    (hdinode : ∀ i, i < s.sb.ninodes → i ≠ (s.inode k).inum → t.dinode i = s.dinode i)
    (hbytes : ∀ i q, i < s.sb.ninodes → i ≠ (s.inode k).inum → q < 269 →
      (s.dinode i).block s.bufs q ≠ 0 →
      t.bufs ((s.dinode i).block s.bufs q) = s.bufs ((s.dinode i).block s.bufs q))
    (hused : ∀ i q, i < s.sb.ninodes → i ≠ (s.inode k).inum → q < 269 →
      (s.dinode i).block s.bufs q ≠ 0 → t.used ((s.dinode i).block s.bufs q) = true)
    (hapart : ∀ q, q < 269 → (t.inode k).block t.bufs q ≠ 0 → ∀ i q', i < s.sb.ninodes →
      i ≠ (s.inode k).inum → q' < 269 →
      (t.inode k).block t.bufs q ≠ (s.dinode i).block s.bufs q') : Owned k t := by
  have hself : t.node k (s.inode k).inum = (t.inode k).toDinode := by
    rw [← hinum, node_self]
  have hblock : ∀ i q, i < s.sb.ninodes → i ≠ (s.inode k).inum →
      (t.node k i).block t.bufs q = (s.dinode i).block s.bufs q := by
    intro i q hi hne
    rw [node_of_ne (by rwa [hinum]), hdinode i hi hne]
    exact Dinode.block_of_bytes (fun q' => hbytes i q' hi hne) q
  constructor
  · exact ht.layout
  · exact ht.metaUsed
  · rw [hinum, hsb]
    exact h.inum
  · intro i q hi hq
    rw [hsb] at hi
    by_cases hne : i = (s.inode k).inum
    · rw [hne, hself]
      exact ht.region q hq
    · rw [hblock i q hi hne, hsb]
      intro hzero
      have hregion := h.other_region hi hne hq hzero
      exact ⟨hregion.1, hregion.2.1⟩
  · intro i q hi hq
    rw [hsb] at hi
    by_cases hne : i = (s.inode k).inum
    · rw [hne, hself]
      exact ht.used q hq
    · rw [hblock i q hi hne]
      exact hused i q hi hne hq
  · intro i q i' q' hi hq hi' hq'
    rw [hsb] at hi hi'
    by_cases hne : i = (s.inode k).inum
    · by_cases hne' : i' = (s.inode k).inum
      · rw [hne, hne', hself]
        intro hzero heq
        exact ⟨rfl, ht.distinct q q' hq hq' hzero heq⟩
      · rw [hne, hself, hblock i' q' hi' hne']
        intro hzero heq
        exact absurd heq (hapart q hq hzero i' q' hi' hne' hq')
    · by_cases hne' : i' = (s.inode k).inum
      · rw [hne', hself, hblock i q hi hne]
        intro hzero heq
        exact absurd heq.symm (hapart q' hq' (heq ▸ hzero) i q hi hne hq)
      · rw [hblock i q hi hne, hblock i' q' hi' hne']
        have hdistinct := h.distinct i q i' q' hi hq hi' hq'
        rwa [node_of_ne hne, node_of_ne hne'] at hdistinct

/-- The new state, when in addition nothing that the entry had is lost. -/
theorem touched (h : Owned k s) (ht : Anchored k t) (hsb : t.sb = s.sb)
    (hout : t.outstanding = s.outstanding) (hothers : ∀ k', k' ≠ k → t.inode k' = s.inode k')
    (hentry : t.inode k = { s.inode k with addrs := (t.inode k).addrs })
    (hlow : ∀ x, x < s.sb.bmapstart → t.bufs x = s.bufs x)
    (hbytes : ∀ i q, i < s.sb.ninodes → i ≠ (s.inode k).inum → q < 269 →
      (s.dinode i).block s.bufs q ≠ 0 →
      t.bufs ((s.dinode i).block s.bufs q) = s.bufs ((s.dinode i).block s.bufs q))
    (hused : ∀ x, x < s.sb.size → s.used x = true → t.used x = true)
    (hown : ∀ q, q < 269 → (s.inode k).block s.bufs q ≠ 0 →
      (t.inode k).block t.bufs q = (s.inode k).block s.bufs q)
    (hnew : ∀ q, q < 269 → (s.inode k).block s.bufs q = 0 → (t.inode k).block t.bufs q ≠ 0 →
      ∀ x, s.used x = true → (t.inode k).block t.bufs q ≠ x)
    (hback : ∀ x, x < s.sb.size → t.used x = true →
      s.used x = true ∨ ∃ q, q < 269 ∧ (t.inode k).block t.bufs q = x) : Touched k s t := by
  have hinum : (t.inode k).inum = (s.inode k).inum := by rw [hentry]
  have hdinode : ∀ i, i < s.sb.ninodes → t.dinode i = s.dinode i := by
    intro i hi
    exact dinode_congr hsb (hlow _ (h.layout.inodes i hi))
  refine ⟨?_, hsb, hout, hothers, hentry, hdinode, ?_, hbytes, hown, noLeak_of_own hown hback⟩
  · apply h.of_anchored ht hsb hinum (fun i hi _ => hdinode i hi) hbytes
    · intro i q hi hne hq hblock
      have hregion := h.other_region hi hne hq hblock
      exact hused _ hregion.2.1 hregion.2.2
    intro q hq hne i q' hi hi' hq' heq
    by_cases hold : (s.inode k).block s.bufs q = 0
    · have hregion := h.other_region hi hi' hq' (heq ▸ hne)
      exact hnew q hq hold hne _ hregion.2.2 heq
    · rw [hown q hq hold] at heq
      exact h.ne_of_other hi hi' hq' hq (heq ▸ hold) heq.symm
  · intro i q hi hne _
    exact Dinode.block_of_bytes (fun q' => hbytes i q' hi hne) q

theorem grow (h : Owned k s) (hp : p < 269) (hg : Grown k p b s t) : Touched k s t := by
  apply h.touched (h.anchored.grow hg) hg.sb hg.outstanding hg.others hg.entry hg.low
  · intro i q hi hne hq hblock
    have hregion := h.other_region hi hne hq hblock
    apply hg.data _ hregion.1
    · intro heq
      have hused := hregion.2.2
      rw [heq, (mem_free.1 hg.fresh).2] at hused
      cases hused
    · have hind := h.ne_of_other hi hne hq (q := 12) (by omega) hblock
      rwa [Dinode.block_indirect] at hind
  · intro x hx hused
    rw [hg.used x hx, hused, Bool.or_true]
  · intro q hq hblock
    rw [hg.block q hq, if_neg]
    intro hqp
    exact hblock (hqp ▸ hg.old)
  · intro q hq hold hne x hused heq
    rw [hg.block q hq] at hne heq
    by_cases hqp : q = p
    · rw [if_pos hqp] at heq
      rw [← heq, (mem_free.1 hg.fresh).2] at hused
      cases hused
    · rw [if_neg hqp] at hne
      exact hne hold
  · intro x hx hused
    rw [hg.used x hx, Bool.or_eq_true, decide_eq_true_eq] at hused
    obtain rfl | hold := hused
    · exact .inr ⟨p, hp, by rw [hg.block p hp, if_pos rfl]⟩
    · exact .inl hold

theorem write (h : Owned k s) (hj : j < 268)
    (hblock : (s.inode k).block s.bufs (placeOf j) ≠ 0) {d : Bytes} (hsb : t.sb = s.sb)
    (hout : t.outstanding = s.outstanding) (hinode : t.inode = s.inode)
    (hbufs : t.bufs = upd s.bufs ((s.inode k).block s.bufs (placeOf j)) d) : Touched k s t := by
  obtain ⟨ht, hsame⟩ := h.anchored.write (placeOf_lt hj) (placeOf_ne j) hblock hsb
    (by rw [hinode]) hbufs
  have hregion := h.anchored.region _ (placeOf_lt hj) hblock
  have hmeta : s.sb.bmapstart ≤ s.sb.nmeta := by
    unfold Superblock.nmeta
    omega
  apply h.touched ht hsb hout (fun k' _ => by rw [hinode]) (by rw [hinode])
  · intro x hx
    rw [hbufs, upd_of_ne _ _ _ (by omega)]
  · intro i q hi hne hq hother
    rw [hbufs, upd_of_ne]
    exact h.ne_of_other hi hne hq (placeOf_lt hj) hother
  · intro x hx hused
    have hbit := s.sb.bblock_lt hx
    unfold State.used at hused ⊢
    rwa [hsb, hbufs, upd_of_ne _ _ _ (by omega)]
  · exact fun q _ _ => hsame q
  · intro q _ hold hne
    rw [hsame] at hne
    exact absurd hold hne
  · intro x hx hused
    have hbit := s.sb.bblock_lt hx
    unfold State.used at hused ⊢
    rw [hsb, hbufs, upd_of_ne _ _ _ (by omega)] at hused
    exact .inl hused

end Owned

theorem Mapped.touched (hm : Mapped k j s b t) (h : Owned k s) (hj : j < 268) : Touched k s t := by
  obtain ⟨rfl, -, -⟩ | hg | ⟨a, u, hg, hg'⟩ := hm.grown h.anchored hj
  · exact .refl h
  · exact h.grow (placeOf_lt hj) hg
  · have hu := h.grow (by omega) hg
    exact hu.trans (hu.owned.grow (placeOf_lt hj) hg')

/-!
## Storing the inode
-/

def State.flush (s : State) (k : Slot) (f : Inode → Inode) : State :=
  (s.adjust k f).put (s.sb.iblock (f (s.inode k)).inum)
    ((f (s.inode k)).toDinode.store (s.bufs (s.sb.iblock (f (s.inode k)).inum))
      ((f (s.inode k)).inum % 16 * 64))

section

variable {f : Inode → Inode}

theorem flush_inode (k' : Slot) :
    (s.flush k f).inode k' = if k' = k then f (s.inode k) else s.inode k' := rfl

theorem flush_self : (s.flush k f).inode k = f (s.inode k) := if_pos rfl

theorem flush_of_ne {k' : Slot} (h : k' ≠ k) : (s.flush k f).inode k' = s.inode k' := if_neg h

theorem iupdate_adjust (h : 0 < s.outstanding) :
    iupdate k (s.adjust k f) = .ok (⟨⟩, s.flush k f) := by
  have hself : (s.adjust k f).inode k = f (s.inode k) := if_pos rfl
  have hstored := iupdate_ok (s := s.adjust k f) h k
  rwa [hself] at hstored

variable (hinum : (f (s.inode k)).inum = (s.inode k).inum)

include hinum

theorem flush_bytes (h : Owned k s) (b : Nat) (hb : s.sb.bmapstart ≤ b) :
    (s.flush k f).bufs b = s.bufs b := by
  have hblock := h.layout.inodes _ h.inum
  unfold State.flush
  rw [put_bufs, hinum, upd_of_ne]
  · rfl
  · omega

theorem flush_disk (h : Owned k s) (b : Nat) (hb : s.sb.bmapstart ≤ b) :
    (s.flush k f).disk b = s.disk b := by
  have hblock := h.layout.inodes _ h.inum
  unfold State.flush
  rw [put_disk, hinum, upd_of_ne]
  · rfl
  · omega

theorem flush_dinode_self : (s.flush k f).dinode (s.inode k).inum = (f (s.inode k)).toDinode := by
  unfold State.flush State.dinode
  rw [put_bufs, put_sb, hinum]
  change Dinode.load (upd s.bufs (s.sb.iblock (s.inode k).inum) _ (s.sb.iblock (s.inode k).inum)) _ = _
  rw [upd_self]
  exact load_store ..

theorem flush_dinode (h : i ≠ (s.inode k).inum) : (s.flush k f).dinode i = s.dinode i := by
  unfold State.flush State.dinode
  rw [put_bufs, put_sb, hinum]
  change Dinode.load (upd s.bufs (s.sb.iblock (s.inode k).inum) _ (s.sb.iblock i)) _ = _
  by_cases hblock : s.sb.iblock i = s.sb.iblock (s.inode k).inum
  · rw [hblock, upd_self]
    unfold Superblock.iblock at hblock
    exact load_store_of_ne (by omega)
  · rw [upd_of_ne _ _ _ hblock]

theorem flush_block (h : Owned k s) (haddrs : (f (s.inode k)).addrs = (s.inode k).addrs) (q : Nat) :
    (f (s.inode k)).block (s.flush k f).bufs q = (s.inode k).block s.bufs q := by
  have hblock := h.block_eq h.inum (d := (f (s.inode k)).toDinode) (by rw [node_self, haddrs])
    (flush_bytes hinum h) q
  rwa [node_self] at hblock

theorem Owned.flush (h : Owned k s) (haddrs : (f (s.inode k)).addrs = (s.inode k).addrs) :
    Owned k (s.flush k f) := by
  apply h.congr (t := s.flush k f) rfl
  · rw [flush_self, hinum]
    exact h.inum
  · intro i hi
    by_cases hself : i = (s.inode k).inum
    · have hnode : (s.flush k f).node k i = (f (s.inode k)).toDinode := by
        rw [State.node, flush_self, if_pos (by rw [hself, hinum])]
      rw [hnode, hself, node_self, haddrs]
    · have hnode : (s.flush k f).node k i = s.dinode i := by
        rw [State.node, flush_self, if_neg (by rwa [hinum]), flush_dinode hinum hself]
      rw [hnode, node_of_ne hself]
  · exact flush_bytes hinum h

end

theorem flush_clean {f : Inode → Inode} (h : s.bufs = s.disk) :
    (s.flush k f).bufs = (s.flush k f).disk := by
  unfold State.flush
  rw [put_bufs, put_disk]
  change upd s.bufs _ _ = upd s.disk _ _
  rw [h]

end

theorem oneFile_node {i : Nat} (hi : i < 16) (q : Nat) :
    (oneFile.node 0 i).block oneFile.bufs q = 0 := by
  by_cases hself : i = 1
  · rw [hself, ← oneFile_inum, node_self, oneFile_entry]
    exact emptyFile_block _ q
  · rw [node_of_ne (by rwa [oneFile_inum])]
    exact oneFile_block hi q

theorem owned_oneFile : Owned 0 oneFile where
  layout := layout_oneFile
  metaUsed := metaUsed_oneFile
  inum := by
    rw [oneFile_inum, oneFile_ninodes]
    decide
  region i q hi _ hne := absurd (oneFile_node (oneFile_ninodes ▸ hi) q) hne
  used i q hi _ hne := absurd (oneFile_node (oneFile_ninodes ▸ hi) q) hne
  distinct i q _ _ hi _ _ _ hne _ := absurd (oneFile_node (oneFile_ninodes ▸ hi) q) hne

end Xv6.Fs
