import Xv6.Fs.Reading

/-!
# The bitmap

`balloc` returns a block that was free, marks it and clears it, or panics if no block is
free.  What it does to the state is written out, so that its callers can compute with it.
-/

namespace Xv6.Fs

open Lib Lib.Cmd

/-- The number of the first data block: the bitmap stands right before it. -/
def Superblock.nmeta (sb : Superblock) : Nat := sb.bmapstart + sb.size / 8192 + 1

/-- The inodes stand before the bitmap, the bitmap before the data, and block numbers fit in
32 bits. -/
structure Superblock.Layout (sb : Superblock) : Prop where
  inodes : ∀ i, i < sb.ninodes → sb.iblock i < sb.bmapstart
  data : sb.nmeta ≤ sb.size
  size : sb.size < 2 ^ 32

def State.used (s : State) (b : Nat) : Bool := bit (s.bufs (s.sb.bblock b)) (b % 8192)

def State.put (s : State) (b : Nat) (d : Bytes) : State :=
  { s with
    bufs := upd s.bufs b d
    disk := upd s.disk b d
    lh := if b ∈ s.lh then s.lh else s.lh ++ [b] }

def State.alloc (s : State) (b : Nat) : State :=
  (s.put (s.sb.bblock b) (setBit (s.bufs (s.sb.bblock b)) (b % 8192))).put b fun _ => 0

section

variable {s : State} {b x : Nat} {d : Bytes}

@[simp] theorem put_sb : (s.put b d).sb = s.sb := rfl
@[simp] theorem put_inode : (s.put b d).inode = s.inode := rfl
@[simp] theorem put_bufs : (s.put b d).bufs = upd s.bufs b d := rfl
@[simp] theorem put_disk : (s.put b d).disk = upd s.disk b d := rfl

@[simp] theorem alloc_sb : (s.alloc b).sb = s.sb := rfl
@[simp] theorem alloc_inode : (s.alloc b).inode = s.inode := rfl
theorem bread_ok : bread b s = .ok (s.bufs b, s) := rfl

theorem entry_ok (k : Slot) : entry k s = .ok (s.inode k, s) := rfl

theorem update_ok (h : 0 < s.outstanding) : update b d s = .ok (⟨⟩, s.put b d) := by
  have hfill : fill b d s = .ok (⟨⟩, { s with bufs := upd s.bufs b d }) := rfl
  unfold update
  rw [bind_ok hfill]
  unfold logWrite
  rw [bind_ok (a := { s with bufs := upd s.bufs b d }) rfl]
  have hlog : ¬s.outstanding < 1 := by omega
  dsimp only
  rw [if_neg hlog, upd_self]
  rfl

theorem iupdate_ok (h : 0 < s.outstanding) (k : Slot) :
    iupdate k s = .ok (⟨⟩, s.put (s.sb.iblock (s.inode k).inum)
      ((s.inode k).toDinode.store (s.bufs (s.sb.iblock (s.inode k).inum))
        ((s.inode k).inum % 16 * 64))) := by
  unfold iupdate
  rw [bind_ok (a := s) (t := s) rfl]
  exact update_ok h

theorem Superblock.bblock_lt (sb : Superblock) (h : b < sb.size) : sb.bblock b < sb.nmeta := by
  unfold bblock nmeta
  omega

theorem Superblock.bmapstart_le_bblock (sb : Superblock) (b : Nat) : sb.bmapstart ≤ sb.bblock b :=
  Nat.le_add_left _ _

theorem alloc_self : (s.alloc b).bufs b = fun _ => 0 := upd_self ..

theorem alloc_data (hb : b < s.sb.size) (hx : s.sb.nmeta ≤ x) (hne : x ≠ b) :
    (s.alloc b).bufs x = s.bufs x := by
  have hbit := s.sb.bblock_lt hb
  rw [State.alloc, put_bufs, upd_of_ne _ _ _ hne, put_bufs, upd_of_ne]
  omega

theorem alloc_low (hb : s.sb.nmeta ≤ b) (hx : x < s.sb.bmapstart) :
    (s.alloc b).bufs x = s.bufs x := by
  have hbit := s.sb.bmapstart_le_bblock b
  have hlow : s.sb.bmapstart ≤ s.sb.nmeta := by
    unfold Superblock.nmeta
    omega
  rw [State.alloc, put_bufs, upd_of_ne _ _ _ (by omega), put_bufs, upd_of_ne]
  omega

theorem put_used (hb : s.sb.nmeta ≤ b) (hx : x < s.sb.size) : (s.put b d).used x = s.used x := by
  have hbit := s.sb.bblock_lt hx
  unfold State.used
  rw [put_sb, put_bufs, upd_of_ne]
  omega

theorem alloc_used (hb : s.sb.nmeta ≤ b) (hx : x < s.sb.size) :
    (s.alloc b).used x = (decide (x = b) || s.used x) := by
  have hput := put_used (s := s.put (s.sb.bblock b) (setBit (s.bufs (s.sb.bblock b)) (b % 8192)))
    (d := fun _ => 0) hb hx
  rw [State.alloc, hput]
  unfold State.used
  rw [put_sb, put_bufs]
  by_cases hblock : s.sb.bblock x = s.sb.bblock b
  · have hiff : x % 8192 = b % 8192 ↔ x = b := by
      unfold Superblock.bblock at hblock
      omega
    rw [hblock, upd_self, bit_setBit]
    simp only [hiff]
  · have hne : x ≠ b := by
      intro h
      exact hblock (by rw [h])
    rw [upd_of_ne _ _ _ hblock]
    simp [hne]

end

def State.MetaUsed (s : State) : Prop := ∀ b, b < s.sb.nmeta → s.used b = true

/-- The blocks that `balloc` may return. -/
def State.free (s : State) : Finset Nat := (Finset.range s.sb.size).filter fun b => s.used b = false

section

variable {s : State} {b : Nat}

theorem mem_free : b ∈ s.free ↔ b < s.sb.size ∧ s.used b = false := by
  rw [State.free, Finset.mem_filter, Finset.mem_range]

theorem free_eq_empty (h : ∀ x, x < s.sb.size → s.used x = true) : s.free = ∅ := by
  apply Finset.eq_empty_of_forall_notMem
  intro x hx
  obtain ⟨hsize, hunused⟩ := mem_free.1 hx
  rw [h x hsize] at hunused
  cases hunused

theorem nmeta_le_of_free (hmeta : s.MetaUsed) (h : b ∈ s.free) : s.sb.nmeta ≤ b := by
  by_contra hlt
  have hused := hmeta b (by omega)
  rw [(mem_free.1 h).2] at hused
  cases hused

theorem free_alloc (hmeta : s.MetaUsed) (h : b ∈ s.free) : (s.alloc b).free = s.free.erase b := by
  ext x
  rw [Finset.mem_erase, mem_free, mem_free, alloc_sb]
  constructor
  · intro hx
    rw [alloc_used (nmeta_le_of_free hmeta h) hx.1] at hx
    simpa [and_comm, and_assoc, and_left_comm] using hx
  · intro hx
    rw [alloc_used (nmeta_le_of_free hmeta h) hx.2.1]
    simpa [and_comm, and_assoc, and_left_comm] using hx

theorem card_free_alloc (hmeta : s.MetaUsed) (h : b ∈ s.free) :
    (s.alloc b).free.card + 1 = s.free.card := by
  rw [free_alloc hmeta h]
  exact Finset.card_erase_add_one h

/-- The rounds of `balloc` from the `c`-th block of the bitmap on. -/
theorem ballocFrom_spec (hout : 0 < s.outstanding) {fuel c : Nat}
    (hfuel : s.sb.size / 8192 + 1 ≤ fuel + c)
    (hbefore : ∀ x, x < s.sb.size → x < c * 8192 → s.used x = true) :
    wp (ballocFrom s.sb fuel (c * 8192)) (fun b t => b ∈ s.free ∧ t = s.alloc b)
      (fun e => e = .outOfBlocks ∧ s.free = ∅) s := by
  induction fuel generalizing c with
  | zero => exact ⟨rfl, free_eq_empty fun x hx => hbefore x hx (by omega)⟩
  | succ fuel ih =>
    unfold ballocFrom
    by_cases hlt : c * 8192 < s.sb.size
    · rw [if_pos hlt, wp_bind, wp_of_ok bread_ok]
      have hbit : ∀ bi, bi < 8192 →
          bit (s.bufs (s.sb.bblock (c * 8192))) bi = s.used (c * 8192 + bi) := by
        intro bi hbi
        have hblock : s.sb.bblock (c * 8192 + bi) = s.sb.bblock (c * 8192) := by
          unfold Superblock.bblock
          omega
        have hmod : (c * 8192 + bi) % 8192 = bi := by omega
        rw [State.used, hblock, hmod]
      split
      next bi hfind =>
        have hmem := List.mem_of_find?_eq_some hfind
        have hfree := List.find?_some hfind
        rw [List.mem_range'_1, Nat.zero_add, Nat.lt_min] at hmem
        obtain ⟨-, hbi, hsize⟩ := hmem
        have hblock : s.sb.bblock (c * 8192) = s.sb.bblock (c * 8192 + bi) := by
          unfold Superblock.bblock
          omega
        have hmod : bi = (c * 8192 + bi) % 8192 := by omega
        have hupdate := update_ok (s := s) (b := s.sb.bblock (c * 8192))
          (d := setBit (s.bufs (s.sb.bblock (c * 8192))) bi) hout
        have hzero : bzero (c * 8192 + bi) (s.put (s.sb.bblock (c * 8192))
            (setBit (s.bufs (s.sb.bblock (c * 8192))) bi)) =
            .ok (⟨⟩, s.alloc (c * 8192 + bi)) := by
          unfold bzero
          rw [update_ok (s := s.put _ _) hout, State.alloc, ← hblock, ← hmod]
        rw [wp_bind, wp_of_ok hupdate, wp_bind, wp_of_ok hzero, wp_pure]
        refine ⟨mem_free.2 ⟨Nat.add_lt_of_lt_sub' hsize, ?_⟩, rfl⟩
        rw [← hbit bi hbi]
        simpa using hfree
      next hfind =>
        have hfull : ∀ bi, bi < 8192 → c * 8192 + bi < s.sb.size →
            s.used (c * 8192 + bi) = true := by
          intro bi hbi hsize
          have hmem : bi ∈ List.range' 0 (min 8192 (s.sb.size - c * 8192)) := by
            rw [List.mem_range'_1, Nat.zero_add, Nat.lt_min]
            exact ⟨Nat.zero_le _, hbi, Nat.lt_sub_of_add_lt (Nat.add_comm _ _ ▸ hsize)⟩
          have hnot := List.find?_eq_none.1 hfind bi hmem
          rw [← hbit bi hbi]
          simpa using hnot
        have hnext : ∀ x, x < s.sb.size → x < (c + 1) * 8192 → s.used x = true := by
          intro x hx hxc
          by_cases hold : x < c * 8192
          · exact hbefore x hx hold
          · obtain ⟨r, rfl⟩ := Nat.exists_eq_add_of_le (Nat.le_of_not_lt hold)
            rw [Nat.succ_mul] at hxc
            exact hfull r (Nat.lt_of_add_lt_add_left hxc) hx
        rw [show c * 8192 + 8192 = (c + 1) * 8192 by omega]
        exact ih (by omega) hnext
    · rw [if_neg hlt]
      exact ⟨rfl, free_eq_empty fun x hx => hbefore x hx (by omega)⟩

theorem balloc_spec (hout : 0 < s.outstanding) :
    wp balloc (fun b t => b ∈ s.free ∧ t = s.alloc b)
      (fun e => e = .outOfBlocks ∧ s.free = ∅) s := by
  have h := ballocFrom_spec (s := s) (c := 0) hout (Nat.le_refl _) fun x _ hx => by omega
  rw [Nat.zero_mul] at h
  exact h

end

end Xv6.Fs
