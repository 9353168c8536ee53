import Xv6.Fs.Blocks

/-!
# The block numbers of an inode

An inode has 269 places for block numbers: its own 13, of which the last is for the indirect
block, and the 256 in the indirect block.  `bmap` fills at most two of them.
-/

namespace Xv6.Fs

open Lib Lib.Cmd

/-- The block number at place `p`, or zero. -/
def Dinode.block (d : Dinode) (bufs : Nat → Bytes) (p : Nat) : Nat :=
  if h : p < 13 then d.addrs[p].toNat
  else if d.indirect = 0 then 0
  else word (bufs d.indirect.toNat) (4 * (p - 13)) 4

def placeOf (j : Nat) : Nat := if j < 12 then j else j + 1

theorem ptr_eq_block (bufs : Nat → Bytes) (d : Dinode) (j : Nat) :
    ptr bufs d j = d.block bufs (placeOf j) := by
  unfold ptr Dinode.block placeOf
  by_cases hj : j < 12
  · rw [dif_pos hj]
    simp only [if_pos hj]
    rw [dif_pos (by omega)]
  · rw [dif_neg hj]
    simp only [if_neg hj]
    rw [dif_neg (by omega), show j + 1 - 13 = j - 12 by omega]

theorem placeOf_inj {i j : Nat} (h : placeOf i = placeOf j) : i = j := by
  unfold placeOf at h
  split at h <;> split at h <;> omega

theorem placeOf_ne (j : Nat) : placeOf j ≠ 12 := by
  unfold placeOf
  split <;> omega

theorem placeOf_lt {j : Nat} (h : j < 268) : placeOf j < 269 := by
  unfold placeOf
  split <;> omega

def State.withAddr (s : State) (k : Slot) (p : Fin 13) (b : Nat) : State :=
  s.adjust k fun ip => { ip with addrs := ip.addrs.set p (UInt32.ofNat b) (place_lt p) }

/-- The state after `bmap` has entered block `b` for piece `j` in the indirect block. -/
def State.enter (s : State) (k : Slot) (j b : Nat) : State :=
  s.put (s.inode k).indirect.toNat
    (setWord (s.bufs (s.inode k).indirect.toNat) (4 * (j - 12)) 4 b)

/-- What `bmap` does for piece `j`: from a state to the block number and the next state. -/
inductive Mapped (k : Slot) (j : Nat) : State → Nat → State → Prop
  | present {s : State} (h : ptr s.bufs (s.inode k).toDinode j ≠ 0) :
      Mapped k j s (ptr s.bufs (s.inode k).toDinode j) s
  | direct {s : State} {b : Nat} (hj : j < 12)
      (hzero : getElem (s.inode k).addrs j (direct_lt hj) = 0) (hb : b ∈ s.free) :
      Mapped k j s b ((s.alloc b).withAddr k ⟨j, direct_lt hj⟩ b)
  | entry {s : State} {b : Nat} (hj : 12 ≤ j) (hind : (s.inode k).indirect ≠ 0)
      (hzero : word (s.bufs (s.inode k).indirect.toNat) (4 * (j - 12)) 4 = 0)
      (hb : b ∈ s.free) : Mapped k j s b ((s.alloc b).enter k j b)
  | indirect {s : State} {a b : Nat} (hj : 12 ≤ j) (hind : (s.inode k).indirect = 0)
      (ha : a ∈ s.free) (hb : b ∈ (s.alloc a).free) :
      Mapped k j s b ((((s.alloc a).withAddr k 12 a).alloc b).enter k j b)

def State.need (s : State) (k : Slot) (j : Nat) : Nat :=
  if ptr s.bufs (s.inode k).toDinode j ≠ 0 then 0
  else if 12 ≤ j ∧ (s.inode k).indirect = 0 then 2
  else 1

section

variable {s : State} {k : Slot} {j a b : Nat}

theorem ptr_direct (hj : j < 12) :
    ptr s.bufs (s.inode k).toDinode j = (getElem (s.inode k).addrs j (direct_lt hj)).toNat := by
  rw [ptr, dif_pos hj]

theorem ptr_no_indirect (hj : 12 ≤ j) (h : (s.inode k).indirect = 0) :
    ptr s.bufs (s.inode k).toDinode j = 0 := by
  rw [ptr, dif_neg (by omega), if_pos h]

theorem ptr_indirect (hj : 12 ≤ j) (h : (s.inode k).indirect ≠ 0) :
    ptr s.bufs (s.inode k).toDinode j =
      word (s.bufs (s.inode k).indirect.toNat) (4 * (j - 12)) 4 := by
  rw [ptr, dif_neg (by omega), if_neg h]

theorem toNat_ofNat_block (h : b < 2 ^ 32) : (UInt32.ofNat b).toNat = b :=
  UInt32.toNat_ofNat_of_lt h

theorem bmapOwn_zero (hout : 0 < s.outstanding) {p : Fin 13} (h : (s.inode k).addrs[p] = 0) :
    wp (bmapOwn k p) (fun b t => b ∈ s.free ∧ t = (s.alloc b).withAddr k p b)
      (fun e => e = .outOfBlocks ∧ s.free = ∅) s := by
  unfold bmapOwn
  rw [wp_bind, wp_of_ok (entry_ok k), if_pos h, wp_bind]
  apply (balloc_spec hout).imp
  intro b t ht
  obtain ⟨hb, rfl⟩ := ht
  exact ⟨hb, rfl⟩

def bmapEntry (j a : Nat) : Cmd Nat := do
  let d ← bread a
  if word d (4 * (j - 12)) 4 = 0 then
    let b ← balloc
    let d ← bread a
    update a (setWord d (4 * (j - 12)) 4 b)
    return b
  else return word d (4 * (j - 12)) 4

theorem bmap_eq_entry (hj : 12 ≤ j) (hj' : j < 268) : bmap k j = bmapOwn k 12 >>= bmapEntry j := by
  unfold bmap
  rw [dif_neg (by omega), if_pos (by omega)]
  rfl

theorem bmapEntry_zero (hout : 0 < s.outstanding) (hzero : word (s.bufs a) (4 * (j - 12)) 4 = 0) :
    wp (bmapEntry j a) (fun b t => b ∈ s.free ∧ t = (s.alloc b).put a
        (setWord ((s.alloc b).bufs a) (4 * (j - 12)) 4 b))
      (fun e => e = .outOfBlocks ∧ s.free = ∅) s := by
  unfold bmapEntry
  rw [wp_bind, wp_of_ok bread_ok, if_pos hzero, wp_bind]
  apply (balloc_spec hout).imp
  intro b t ht
  obtain ⟨hb, rfl⟩ := ht
  rw [wp_bind, wp_of_ok bread_ok, wp_bind, wp_of_ok (update_ok (s := s.alloc b) hout)]
  exact ⟨hb, rfl⟩

theorem withAddr_inode (p : Fin 13) :
    (s.withAddr k p b).inode k =
      { s.inode k with addrs := (s.inode k).addrs.set p (UInt32.ofNat b) p.isLt } :=
  State.adjust_self ..

theorem withAddr_indirect : ((s.withAddr k 12 b).inode k).indirect = UInt32.ofNat b := by
  rw [withAddr_inode]
  exact Vector.getElem_set_self _

theorem pos_of_free (hmeta : s.MetaUsed) (hb : b ∈ s.free) : b ≠ 0 := by
  have hle := nmeta_le_of_free hmeta hb
  unfold Superblock.nmeta at hle
  omega

theorem lt_of_free (hlayout : s.sb.Layout) (hb : b ∈ s.free) : b < 2 ^ 32 := by
  have hsize := hlayout.size
  have hlt := (mem_free.1 hb).1
  omega

theorem ofNat_ne_zero (hlt : b < 2 ^ 32) (hne : b ≠ 0) : UInt32.ofNat b ≠ 0 := by
  intro h
  apply hne
  rw [← toNat_ofNat_block hlt, h]
  rfl

theorem bmap_spec (hlayout : s.sb.Layout) (hmeta : s.MetaUsed) (hout : 0 < s.outstanding)
    (hj : j < 268) :
    wp (bmap k j) (fun b t => Mapped k j s b t)
      (fun e => e = .outOfBlocks ∧ s.free.card < s.need k j) s := by
  by_cases hptr : ptr s.bufs (s.inode k).toDinode j ≠ 0
  · rw [wp_of_ok (bmap_mapped hj hptr)]
    exact .present hptr
  have hzero : ptr s.bufs (s.inode k).toDinode j = 0 := not_not.1 hptr
  by_cases hlt : j < 12
  · -- a direct block
    have haddr : (s.inode k).addrs[j] = 0 := by
      rw [ptr_direct hlt] at hzero
      exact UInt32.toNat_inj.1 hzero
    have hneed : s.need k j = 1 := by
      rw [State.need, if_neg hptr, if_neg (by omega)]
    unfold bmap
    rw [dif_pos hlt]
    apply (bmapOwn_zero (p := ⟨j, by omega⟩) hout haddr).mono
    · intro b t ht
      obtain ⟨hb, rfl⟩ := ht
      exact .direct hlt haddr hb
    · intro e he
      rw [hneed, he.2]
      exact ⟨he.1, by decide⟩
  · have hge : 12 ≤ j := by omega
    rw [bmap_eq_entry hge hj, wp_bind]
    by_cases hind : (s.inode k).indirect = 0
    · -- the indirect block comes first
      have hneed : s.need k j = 2 := by
        rw [State.need, if_neg hptr, if_pos ⟨hge, hind⟩]
      apply (bmapOwn_zero (p := 12) hout hind).mono
      · intro a u hu
        obtain ⟨ha, rfl⟩ := hu
        have hlt32 := lt_of_free hlayout ha
        have hword : word (((s.alloc a).withAddr k 12 a).bufs a) (4 * (j - 12)) 4 = 0 := by
          change word ((s.alloc a).bufs a) (4 * (j - 12)) 4 = 0
          rw [alloc_self, word_zero]
        have hcard := card_free_alloc hmeta ha
        apply (bmapEntry_zero (s := (s.alloc a).withAddr k 12 a) hout hword).mono
        · intro b t ht
          obtain ⟨hb, rfl⟩ := ht
          have haddr : (((s.alloc a).withAddr k 12 a).inode k).indirect.toNat = a := by
            rw [withAddr_indirect, toNat_ofNat_block hlt32]
          have hmapped := Mapped.indirect (k := k) hge hind ha hb
          rw [State.enter, alloc_inode, haddr] at hmapped
          exact hmapped
        · intro e he
          have hempty : (s.alloc a).free = ∅ := he.2
          rw [hempty, Finset.card_empty] at hcard
          exact ⟨he.1, by omega⟩
      · intro e he
        rw [hneed, he.2]
        exact ⟨he.1, by decide⟩
    · have hneed : s.need k j = 1 := by
        rw [State.need, if_neg hptr, if_neg (fun h => hind h.2)]
      have hword := hzero
      rw [ptr_indirect hge hind] at hword
      rw [wp_of_ok (bmapOwn_mapped (i := 12) hind)]
      apply (bmapEntry_zero hout hword).mono
      · intro b t ht
        obtain ⟨hb, rfl⟩ := ht
        exact .entry hge hind hword hb
      · intro e he
        rw [hneed, he.2]
        exact ⟨he.1, by decide⟩

end

/-!
## One place gets a block
-/

section

variable {d : Dinode} {bufs bufs' : Nat → Bytes} {b q : Nat}

theorem Dinode.block_congr (h : d.indirect ≠ 0 → bufs' d.indirect.toNat = bufs d.indirect.toNat)
    (q : Nat) : d.block bufs' q = d.block bufs q := by
  unfold Dinode.block
  by_cases hq : q < 13
  · rw [dif_pos hq, dif_pos hq]
  · rw [dif_neg hq, dif_neg hq]
    by_cases hind : d.indirect = 0
    · rw [if_pos hind, if_pos hind]
    · rw [if_neg hind, if_neg hind, h hind]

theorem Dinode.block_indirect : d.block bufs 12 = d.indirect.toNat := by
  rw [Dinode.block, dif_pos (by omega)]

theorem Dinode.block_of_bytes (h : ∀ q, q < 269 → d.block bufs q ≠ 0 →
    bufs' (d.block bufs q) = bufs (d.block bufs q)) (q : Nat) :
    d.block bufs' q = d.block bufs q := by
  apply Dinode.block_congr
  intro hind
  have hsame := h 12 (by omega)
  rw [Dinode.block_indirect] at hsame
  apply hsame
  intro hzero
  exact hind (UInt32.toNat_inj.1 hzero)

theorem Dinode.block_set_direct {p : Fin 13} (hp : p.val < 12) (hb : b < 2 ^ 32) :
    ({ d with addrs := d.addrs.set p (UInt32.ofNat b) } : Dinode).block bufs q =
      if q = p then b else d.block bufs q := by
  have hind : (d.addrs.set p (UInt32.ofNat b))[12] = d.addrs[12] :=
    Vector.getElem_set_ne (by omega) (by omega) (by omega)
  unfold Dinode.block Dinode.indirect
  dsimp only
  rw [hind]
  by_cases hq : q < 13
  · rw [dif_pos hq, dif_pos hq]
    by_cases hqp : q = p
    · subst hqp
      rw [if_pos rfl, Vector.getElem_set_self, toNat_ofNat_block hb]
    · rw [if_neg hqp, Vector.getElem_set_ne (by omega) hq (Ne.symm hqp)]
  · rw [dif_neg hq, dif_neg hq, if_neg (show ¬q = p.val by omega)]

theorem Dinode.block_set_indirect (hold : d.indirect = 0) (hzero : bufs b = fun _ => 0)
    (hb : b < 2 ^ 32) :
    ({ d with addrs := d.addrs.set (12 : Fin 13) (UInt32.ofNat b) } : Dinode).block bufs q =
      if q = 12 then b else d.block bufs q := by
  have hind : (d.addrs.set (12 : Fin 13) (UInt32.ofNat b))[12] = UInt32.ofNat b :=
    Vector.getElem_set_self _
  unfold Dinode.block Dinode.indirect
  dsimp only
  by_cases hq : q < 13
  · rw [dif_pos hq, dif_pos hq]
    by_cases hqp : q = 12
    · subst hqp
      rw [if_pos rfl, hind, toNat_ofNat_block hb]
    · rw [if_neg hqp, Vector.getElem_set_ne _ hq (by change 12 ≠ q; omega)]
  · rw [dif_neg hq, dif_neg hq, if_neg (show ¬q = 12 by omega), if_pos hold, hind,
      toNat_ofNat_block hb, hzero, word_zero, ite_self]

theorem Dinode.block_enter {j : Nat} (hj : 12 ≤ j) (hind : d.indirect ≠ 0) (hb : b < 2 ^ 32) :
    d.block (upd bufs d.indirect.toNat
      (setWord (bufs d.indirect.toNat) (4 * (j - 12)) 4 b)) q =
      if q = j + 1 then b else d.block bufs q := by
  unfold Dinode.block
  by_cases hq : q < 13
  · rw [dif_pos hq, dif_pos hq, if_neg (by omega)]
  · rw [dif_neg hq, dif_neg hq, if_neg hind, if_neg hind, upd_self]
    by_cases hqj : q = j + 1
    · subst hqj
      rw [if_pos rfl, show j + 1 - 13 = j - 12 by omega, word_setWord_of_lt (by omega)]
    · rw [if_neg hqj, word_setWord_outside (by omega)]

end

/-- The metadata is in use, and the blocks of entry `k` are distinct data blocks in use. -/
structure Anchored (k : Slot) (s : State) : Prop where
  layout : s.sb.Layout
  metaUsed : s.MetaUsed
  region : ∀ q, q < 269 → (s.inode k).block s.bufs q ≠ 0 →
    s.sb.nmeta ≤ (s.inode k).block s.bufs q ∧ (s.inode k).block s.bufs q < s.sb.size
  used : ∀ q, q < 269 → (s.inode k).block s.bufs q ≠ 0 →
    s.used ((s.inode k).block s.bufs q) = true
  distinct : ∀ q q', q < 269 → q' < 269 → (s.inode k).block s.bufs q ≠ 0 →
    (s.inode k).block s.bufs q = (s.inode k).block s.bufs q' → q = q'

structure Grown (k : Slot) (p b : Nat) (s t : State) : Prop where
  old : (s.inode k).block s.bufs p = 0
  fresh : b ∈ s.free
  sb : t.sb = s.sb
  outstanding : t.outstanding = s.outstanding
  others : ∀ k', k' ≠ k → t.inode k' = s.inode k'
  entry : t.inode k = { s.inode k with addrs := (t.inode k).addrs }
  block : ∀ q, q < 269 →
    (t.inode k).block t.bufs q = if q = p then b else (s.inode k).block s.bufs q
  new : t.bufs b = fun _ => 0
  used : ∀ x, x < s.sb.size → t.used x = (decide (x = b) || s.used x)
  data : ∀ x, s.sb.nmeta ≤ x → x ≠ b → x ≠ (s.inode k).indirect.toNat → t.bufs x = s.bufs x
  low : ∀ x, x < s.sb.bmapstart → t.bufs x = s.bufs x
  clean : s.bufs = s.disk → t.bufs = t.disk

section

variable {s t : State} {k : Slot} {j b p : Nat}

theorem alloc_clean (h : s.bufs = s.disk) : (s.alloc b).bufs = (s.alloc b).disk := by
  unfold State.alloc
  rw [put_bufs, put_disk, put_bufs, put_disk, h]

theorem grown_withAddr (hmeta : s.MetaUsed) (hb : b ∈ s.free) {p : Fin 13}
    (hold : (s.inode k).block s.bufs p = 0)
    (hblock : ∀ q, q < 269 → ((s.withAddr k p b).inode k).block (s.alloc b).bufs q =
      if q = p then b else (s.inode k).block s.bufs q) :
    Grown k p b s ((s.alloc b).withAddr k p b) where
  old := hold
  fresh := hb
  sb := rfl
  outstanding := rfl
  others k' hk' := State.adjust_of_ne _ _ hk'
  entry := by rw [withAddr_inode]; rfl
  block q := hblock q
  new := alloc_self
  used x hx := alloc_used (nmeta_le_of_free hmeta hb) hx
  data x hx hxb _ := alloc_data (mem_free.1 hb).1 hx hxb
  low x hx := alloc_low (nmeta_le_of_free hmeta hb) hx
  clean h := alloc_clean h

namespace Anchored

theorem ne_of_free (h : Anchored k s) (hb : b ∈ s.free) (q : Nat) (hq : q < 269) :
    (s.inode k).block s.bufs q ≠ b := by
  intro heq
  have hused := h.used q hq (heq ▸ pos_of_free h.metaUsed hb)
  rw [heq, (mem_free.1 hb).2] at hused
  cases hused

theorem indirect (h : Anchored k s) (hind : (s.inode k).indirect ≠ 0) :
    s.sb.nmeta ≤ (s.inode k).indirect.toNat ∧ (s.inode k).indirect.toNat < s.sb.size := by
  have hne : (s.inode k).block s.bufs 12 ≠ 0 := by
    rw [Dinode.block_indirect]
    exact fun h => hind (UInt32.toNat_inj.1 h)
  have hregion := h.region 12 (by omega) hne
  rwa [Dinode.block_indirect] at hregion

theorem block_alloc (h : Anchored k s) (hb : b ∈ s.free) (q : Nat) :
    (s.inode k).block (s.alloc b).bufs q = (s.inode k).block s.bufs q := by
  apply Dinode.block_congr
  intro hind
  apply alloc_data (mem_free.1 hb).1 (h.indirect hind).1
  have hne := h.ne_of_free hb 12 (by omega)
  rwa [Dinode.block_indirect] at hne

theorem grown_direct (h : Anchored k s) (hj : j < 12)
    (hzero : getElem (s.inode k).addrs j (direct_lt hj) = 0) (hb : b ∈ s.free) :
    Grown k j b s ((s.alloc b).withAddr k ⟨j, direct_lt hj⟩ b) := by
  have hold : (s.inode k).block s.bufs j = 0 := by
    rw [Dinode.block, dif_pos (by omega), hzero]
    rfl
  apply grown_withAddr (p := ⟨j, by omega⟩) h.metaUsed hb hold
  intro q _
  rw [withAddr_inode, ← h.block_alloc hb]
  exact Dinode.block_set_direct hj (lt_of_free h.layout hb)

theorem grown_indirect (h : Anchored k s) (hind : (s.inode k).indirect = 0) (hb : b ∈ s.free) :
    Grown k 12 b s ((s.alloc b).withAddr k 12 b) := by
  have hold : (s.inode k).block s.bufs 12 = 0 := by
    rw [Dinode.block_indirect, hind]
    rfl
  apply grown_withAddr (p := 12) h.metaUsed hb hold
  intro q _
  rw [withAddr_inode, ← h.block_alloc hb]
  exact Dinode.block_set_indirect hind alloc_self (lt_of_free h.layout hb)

theorem grown_enter (h : Anchored k s) (hj : 12 ≤ j) (hind : (s.inode k).indirect ≠ 0)
    (hold : (s.inode k).block s.bufs (j + 1) = 0) (hb : b ∈ s.free) :
    Grown k (j + 1) b s ((s.alloc b).enter k j b) := by
  have hregion := h.indirect hind
  have hmeta := nmeta_le_of_free h.metaUsed hb
  have hne : b ≠ (s.inode k).indirect.toNat := by
    have hne := h.ne_of_free hb 12 (by omega)
    rw [Dinode.block_indirect] at hne
    exact Ne.symm hne
  constructor
  · exact hold
  · exact hb
  · rfl
  · rfl
  · intro k' _
    rfl
  · rfl
  · intro q _
    rw [← h.block_alloc hb]
    exact Dinode.block_enter hj hind (lt_of_free h.layout hb)
  · change upd (s.alloc b).bufs _ _ b = _
    rw [alloc_inode, upd_of_ne _ _ _ hne, alloc_self]
  · intro x hx
    rw [← alloc_used hmeta hx]
    exact put_used (s := s.alloc b) hregion.1 hx
  · intro x hx hxb hxi
    change upd (s.alloc b).bufs _ _ x = _
    rw [alloc_inode, upd_of_ne _ _ _ hxi, alloc_data (mem_free.1 hb).1 hx hxb]
  · intro x hx
    have hlow : s.sb.bmapstart ≤ s.sb.nmeta := by
      unfold Superblock.nmeta
      omega
    change upd (s.alloc b).bufs _ _ x = _
    rw [alloc_inode, upd_of_ne _ _ _ (by omega), alloc_low hmeta hx]
  · intro hclean
    change upd (s.alloc b).bufs _ _ = upd (s.alloc b).disk _ _
    rw [alloc_clean hclean]

/-- The new block keeps the entry's blocks distinct and in use. -/
theorem grow (h : Anchored k s) (hg : Grown k p b s t) : Anchored k t := by
  have hold : ∀ q, q < 269 → q ≠ p → (t.inode k).block t.bufs q = (s.inode k).block s.bufs q := by
    intro q hq hqp
    rw [hg.block q hq, if_neg hqp]
  have hfresh := h.ne_of_free hg.fresh
  constructor
  · rw [hg.sb]
    exact h.layout
  · intro x hx
    rw [hg.sb] at hx
    rw [hg.used x (Nat.lt_of_lt_of_le hx h.layout.data), h.metaUsed x hx, Bool.or_true]
  · intro q hq
    rw [hg.block q hq, hg.sb]
    split
    · intro _
      exact ⟨nmeta_le_of_free h.metaUsed hg.fresh, (mem_free.1 hg.fresh).1⟩
    · exact h.region q hq
  · intro q hq
    rw [hg.block q hq]
    split
    · intro _
      rw [hg.used b (mem_free.1 hg.fresh).1]
      simp
    · intro hne
      rw [hg.used _ (h.region q hq hne).2, h.used q hq hne, Bool.or_true]
  · intro q q' hq hq' hne heq
    rw [hg.block q hq] at hne heq
    rw [hg.block q' hq'] at heq
    by_cases hqp : q = p
    · by_cases hqp' : q' = p
      · rw [hqp, hqp']
      · rw [if_pos hqp, if_neg hqp'] at heq
        exact absurd heq.symm (hfresh q' hq')
    · by_cases hqp' : q' = p
      · rw [if_neg hqp, if_pos hqp'] at heq
        exact absurd heq (hfresh q hq)
      · rw [if_neg hqp] at hne heq
        rw [if_neg hqp'] at heq
        exact h.distinct q q' hq hq' hne heq

theorem write (h : Anchored k s) {q : Nat} (hq : q < 269) (hq' : q ≠ 12)
    (hne : (s.inode k).block s.bufs q ≠ 0) {d : Bytes} (hsb : t.sb = s.sb)
    (hinode : t.inode k = s.inode k) (hbufs : t.bufs = upd s.bufs ((s.inode k).block s.bufs q) d) :
    Anchored k t ∧ ∀ p, (t.inode k).block t.bufs p = (s.inode k).block s.bufs p := by
  have hblock : ∀ p, (t.inode k).block t.bufs p = (s.inode k).block s.bufs p := by
    intro p
    rw [hinode, hbufs]
    apply Dinode.block_congr
    intro _
    apply upd_of_ne
    intro heq
    have hind : (s.inode k).block s.bufs 12 = (s.inode k).indirect.toNat := Dinode.block_indirect
    rw [← hind] at heq
    exact hq' (h.distinct q 12 hq (by omega) hne heq.symm)
  have hregion := h.region q hq hne
  have hused : ∀ x, x < s.sb.size → t.used x = s.used x := by
    intro x hx
    have hbit := s.sb.bblock_lt hx
    unfold State.used
    rw [hsb, hbufs, upd_of_ne _ _ _ (by omega)]
  refine ⟨⟨?_, ?_, ?_, ?_, ?_⟩, hblock⟩
  · rw [hsb]
    exact h.layout
  · intro x hx
    rw [hsb] at hx
    rw [hused x (Nat.lt_of_lt_of_le hx h.layout.data)]
    exact h.metaUsed x hx
  · intro p hp
    rw [hblock, hsb]
    exact h.region p hp
  · intro p hp
    rw [hblock]
    intro hpne
    rw [hused _ (h.region p hp hpne).2]
    exact h.used p hp hpne
  · intro p p' hp hp'
    rw [hblock, hblock]
    exact h.distinct p p' hp hp'

theorem put (h : Anchored k s) (hj : j < 268) (hblock : (s.inode k).block s.bufs (placeOf j) = b)
    (hne : b ≠ 0) (d : Bytes) : Anchored k (s.put b d) := by
  subst hblock
  exact (h.write (t := s.put _ d) (placeOf_lt hj) (placeOf_ne j) hne rfl rfl put_bufs).1

end Anchored

/-- `bmap` fills the place for the piece, and the one for the indirect block if need be. -/
theorem Mapped.grown (hm : Mapped k j s b t) (h : Anchored k s) (hj : j < 268) :
    (t = s ∧ b = ptr s.bufs (s.inode k).toDinode j ∧ b ≠ 0) ∨
    Grown k (placeOf j) b s t ∨
    ∃ a u, Grown k 12 a s u ∧ Grown k (placeOf j) b u t := by
  have hplace : 12 ≤ j → placeOf j = j + 1 := by
    intro hj
    rw [placeOf, if_neg (by omega)]
  have hentry : 12 ≤ j → (s.inode k).block s.bufs (j + 1) = ptr s.bufs (s.inode k).toDinode j := by
    intro hj
    rw [ptr_eq_block, hplace hj]
  cases hm with
  | present hptr => exact .inl ⟨rfl, rfl, hptr⟩
  | direct hlt hzero hb =>
    rw [placeOf, if_pos hlt]
    exact .inr (.inl (h.grown_direct hlt hzero hb))
  | entry hge hind hzero hb =>
    rw [hplace hge]
    have hold := hentry hge
    rw [ptr_indirect hge hind, hzero] at hold
    exact .inr (.inl (h.grown_enter hge hind hold hb))
  | @indirect a _ hge hind ha hb =>
    have hg := h.grown_indirect hind ha
    have hne : (((s.alloc a).withAddr k 12 a).inode k).indirect ≠ 0 := by
      rw [withAddr_indirect]
      exact ofNat_ne_zero (lt_of_free h.layout ha) (pos_of_free h.metaUsed ha)
    have hold := hentry hge
    rw [ptr_no_indirect hge hind] at hold
    rw [hplace hge]
    refine .inr (.inr ⟨a, _, hg, (h.grow hg).grown_enter hge hne ?_ hb⟩)
    rw [hg.block _ (by omega), if_neg (by omega), hold]

theorem Mapped.of_ptr (hm : Mapped k j s b t) (h : ptr s.bufs (s.inode k).toDinode j ≠ 0) :
    t = s ∧ b = ptr s.bufs (s.inode k).toDinode j := by
  cases hm with
  | present => exact ⟨rfl, rfl⟩
  | direct hj hzero _ =>
    rw [ptr_direct hj, hzero] at h
    exact absurd rfl h
  | entry hj hind hzero _ =>
    rw [ptr_indirect hj hind] at h
    exact absurd hzero h
  | indirect hj hind _ _ =>
    rw [ptr_no_indirect hj hind] at h
    exact absurd rfl h

theorem Mapped.outstanding (hm : Mapped k j s b t) : t.outstanding = s.outstanding := by
  cases hm <;> rfl

theorem Mapped.anchored (hm : Mapped k j s b t) (h : Anchored k s) (hj : j < 268) :
    Anchored k t ∧ (t.inode k).block t.bufs (placeOf j) = b ∧ b ≠ 0 := by
  have hlt := placeOf_lt hj
  obtain ⟨rfl, rfl, hne⟩ | hg | ⟨a, u, hg, hg'⟩ := hm.grown h hj
  · exact ⟨h, (ptr_eq_block _ _ _).symm, hne⟩
  · refine ⟨h.grow hg, ?_, pos_of_free h.metaUsed hg.fresh⟩
    rw [hg.block _ hlt, if_pos rfl]
  · have hu := h.grow hg
    refine ⟨hu.grow hg', ?_, pos_of_free hu.metaUsed hg'.fresh⟩
    rw [hg'.block _ hlt, if_pos rfl]

end

/-!
## A small disk
-/

def emptyFile : Dinode where
  type := T_FILE
  major := 0
  minor := 0
  nlink := 1
  size := 0
  addrs := .replicate 13 0

/-- 64 blocks: block 2 has the inodes, of which number 1 is an empty file, and block 3 is the
bitmap.  Entry 0 of the table is the file, locked, in an operation. -/
def oneFile : State where
  sb := { size := 64, ninodes := 16, inodestart := 2, bmapstart := 3 }
  bufs := fun b =>
    if b = 2 then emptyFile.store (fun _ => 0) 64
    else if b = 3 then fun i => if i = 0 then 15 else 0
    else fun _ => 0
  disk := fun b =>
    if b = 2 then emptyFile.store (fun _ => 0) 64
    else if b = 3 then fun i => if i = 0 then 15 else 0
    else fun _ => 0
  outstanding := 1
  lh := []
  inode := fun k =>
    { emptyFile with
      dev := ROOTDEV
      inum := if k = 0 then 1 else 0
      ref := if k = 0 then 1 else 0
      locked := k = 0
      valid := k = 0 }

theorem emptyFile_block (bufs : Nat → Bytes) (q : Nat) : emptyFile.block bufs q = 0 := by
  unfold Dinode.block
  split
  · simp [emptyFile]
  · rw [if_pos (by simp [emptyFile, Dinode.indirect])]

theorem layout_oneFile : oneFile.sb.Layout where
  inodes := by decide
  data := by decide
  size := by decide

theorem metaUsed_oneFile : oneFile.MetaUsed := by
  change ∀ b, b < 4 → oneFile.used b = true
  decide

theorem anchored_oneFile : Anchored 0 oneFile where
  layout := layout_oneFile
  metaUsed := metaUsed_oneFile
  region q _ hne := absurd (emptyFile_block _ q) hne
  used q _ hne := absurd (emptyFile_block _ q) hne
  distinct q _ _ _ hne _ := absurd (emptyFile_block _ q) hne

theorem oneFile_entry : (oneFile.inode 0).toDinode = emptyFile := rfl

theorem oneFile_outstanding : 0 < oneFile.outstanding := by decide

theorem oneFile_clean : oneFile.bufs = oneFile.disk := rfl

theorem oneFile_inum : (oneFile.inode 0).inum = 1 := rfl

theorem oneFile_table (k : Slot) : (oneFile.inode k).dev = ROOTDEV ∧
    (oneFile.inode k).inum = (if k = 0 then 1 else 0) ∧
    (oneFile.inode k).ref = (if k = 0 then 1 else 0) ∧
    (oneFile.inode k).valid = decide (k = 0) := ⟨rfl, rfl, rfl, rfl⟩

theorem oneFile_unused {x : Nat} (h : 4 ≤ x) (hx : x < 64) : oneFile.used x = false := by
  revert x
  decide

theorem oneFile_ninodes : oneFile.sb.ninodes = 16 := rfl

theorem oneFile_nmeta : 4 ≤ oneFile.sb.nmeta := by decide

theorem oneFile_size : oneFile.sb.size ≤ 64 := by decide

theorem card_free_oneFile : oneFile.free.card = 60 := by decide

theorem oneFile_dinode {i : Nat} (hi : i < 16) :
    oneFile.dinode i = if i = 1 then emptyFile else Dinode.load (fun _ => 0) (i * 64) := by
  have hblock : oneFile.sb.iblock i = 2 := by
    change i / 16 + 2 = 2
    omega
  unfold State.dinode
  rw [hblock, Nat.mod_eq_of_lt hi]
  by_cases hself : i = 1
  · rw [if_pos hself, hself]
    exact load_store ..
  · rw [if_neg hself]
    exact load_store_of_ne (by omega)

theorem zero_load (o : Nat) : (Dinode.load (fun _ => 0) o).type = 0 ∧
    (Dinode.load (fun _ => 0) o).size = 0 ∧
    (Dinode.load (fun _ => 0) o).addrs = .replicate 13 0 := by
  unfold Dinode.load
  refine ⟨?_, ?_, ?_⟩
  · rw [word_zero]
    rfl
  · rw [word_zero]
    rfl
  · apply Vector.ext
    intro j hj
    simp [word_zero]

theorem oneFile_block {i : Nat} (hi : i < 16) (q : Nat) :
    (oneFile.dinode i).block oneFile.bufs q = 0 := by
  rw [oneFile_dinode hi]
  by_cases hself : i = 1
  · rw [if_pos hself]
    exact emptyFile_block _ q
  · rw [if_neg hself]
    unfold Dinode.block Dinode.indirect
    rw [(zero_load _).2.2]
    split <;> simp

-- statements about runs from this state are not to be evaluated
attribute [irreducible] oneFile

end Xv6.Fs
