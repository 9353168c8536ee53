import Xv6.Fs.Dinode
import Xv6.Mkfs.Code

/-!
# Who uses a block

Every block behind the metadata is a piece of a file or holds the block numbers of one.
`Laid` says that the inodes point to the blocks in use one to one; a new block, and new
bytes in a piece of a file, keep it.
-/

namespace Xv6.Mkfs

open Lib Fs

inductive Use
  | data (i j : Nat)
  | indirect (i : Nat)
  deriving DecidableEq

namespace Use

def block (img : Nat → Bytes) (node : Nat → Dinode) : Use → Nat
  | data i j => ptr img (node i) j
  | indirect i => (node i).indirect.toNat

def InRange : Use → Prop
  | data _ j => j < MAXFILE
  | indirect _ => True

end Use

/-- The uses `L` are those that have a block, and they have the blocks from `nmeta` up to
`free`, one each. -/
structure Laid (node : Nat → Dinode) (img : Nat → Bytes) (L : Use → Prop) (free : Nat) : Prop where
  inRange : ∀ o, L o → o.InRange
  pos : ∀ o, o.InRange → (o.block img node ≠ 0 ↔ L o)
  inj : ∀ o o', L o → L o' → o.block img node = o'.block img node → o = o'
  range : ∀ o, L o → nmeta ≤ o.block img node ∧ o.block img node < free
  onto : ∀ b, nmeta ≤ b → b < free → ∃ o, L o ∧ o.block img node = b
  zero : ∀ b, free ≤ b → img b = fun _ => 0
  low : nmeta ≤ free

namespace Laid

variable {node node' : Nat → Dinode} {img img' : Nat → Bytes} {L L' : Use → Prop} {free : Nat}

theorem add (h : Laid node img L free) (o : Use) (ho : o.InRange) (hnot : ¬L o)
    (hL : ∀ u, L' u ↔ L u ∨ u = o)
    (hsame : ∀ u : Use, u.InRange → u ≠ o → u.block img' node' = u.block img node)
    (hnew : o.block img' node' = free) (hzero : ∀ b, free < b → img' b = img b) :
    Laid node' img' L' (free + 1) := by
  have hlow := h.low
  change 46 ≤ free at hlow
  have hne : ∀ u, L u → u ≠ o := by
    rintro u hu rfl
    exact hnot hu
  have hold : ∀ u, L u → u.block img' node' = u.block img node := fun u hu =>
    hsame u (h.inRange u hu) (hne u hu)
  constructor
  · intro u hu
    rcases (hL u).1 hu with hu | rfl
    · exact h.inRange u hu
    · exact ho
  · intro u hu
    by_cases huo : u = o
    · subst huo
      rw [hnew, hL]
      exact ⟨fun _ => .inr rfl, fun _ => by omega⟩
    · rw [hsame u hu huo, h.pos u hu, hL]
      simp [huo]
  · intro u v hu hv heq
    rcases (hL u).1 hu with hu | rfl
    · rcases (hL v).1 hv with hv | rfl
      · rw [hold u hu, hold v hv] at heq
        exact h.inj u v hu hv heq
      · have := (h.range u hu).2
        rw [hold u hu, hnew] at heq
        omega
    · rcases (hL v).1 hv with hv | rfl
      · have := (h.range v hv).2
        rw [hold v hv, hnew] at heq
        omega
      · rfl
  · intro u hu
    rcases (hL u).1 hu with hu | rfl
    · rw [hold u hu]
      have := h.range u hu
      exact ⟨this.1, by omega⟩
    · rw [hnew]
      exact ⟨hlow, by omega⟩
  · intro b hlo hhi
    by_cases hb : b = free
    · exact ⟨o, (hL o).2 (.inr rfl), by rw [hnew, hb]⟩
    · obtain ⟨u, hu, hub⟩ := h.onto b hlo (by omega)
      exact ⟨u, (hL u).2 (.inl hu), by rw [hold u hu, hub]⟩
  · intro b hb
    rw [hzero b (by omega)]
    exact h.zero b (by omega)
  · change 46 ≤ free + 1
    omega

theorem congr (h : Laid node img L free)
    (hsame : ∀ u : Use, u.InRange → u.block img' node' = u.block img node)
    (hzero : ∀ b, free ≤ b → img' b = img b) : Laid node' img' L free := by
  constructor
  · exact h.inRange
  · intro u hu
    rw [hsame u hu]
    exact h.pos u hu
  · intro u v hu hv
    rw [hsame u (h.inRange u hu), hsame v (h.inRange v hv)]
    exact h.inj u v hu hv
  · intro u hu
    rw [hsame u (h.inRange u hu)]
    exact h.range u hu
  · intro b hlo hhi
    obtain ⟨u, hu, hub⟩ := h.onto b hlo hhi
    exact ⟨u, hu, by rw [hsame u (h.inRange u hu), hub]⟩
  · intro b hb
    rw [hzero b hb]
    exact h.zero b hb
  · exact h.low

theorem congr_uses (h : Laid node img L free) (hL : ∀ u, L u ↔ L' u) : Laid node img L' free := by
  rwa [← funext fun u => propext (hL u)]

theorem indirect_ne_zero (h : Laid node img L free) {i : Nat} : (node i).indirect ≠ 0 ↔ L (.indirect i) := by
  rw [← h.pos (.indirect i) trivial]
  simp [Use.block, ← UInt32.toNat_inj]

/-- A block that holds no block numbers says nothing about where the pieces are. -/
theorem ptr_write (h : Laid node img L free) {x : Nat}
    (hdata : ∀ i, L (.indirect i) → (node i).indirect.toNat ≠ x) (d : Bytes) (i j : Nat) :
    ptr (upd img x d) (node i) j = ptr img (node i) j := by
  unfold ptr
  split
  · rfl
  · split
    · rfl
    · rename_i hnz
      rw [upd_of_ne _ _ _ (hdata i (h.indirect_ne_zero.1 hnz))]

theorem write (h : Laid node img L free) {x : Nat} (hx : x < free)
    (hdata : ∀ i, L (.indirect i) → (node i).indirect.toNat ≠ x) (d : Bytes) :
    Laid node (upd img x d) L free := by
  apply h.congr
  · intro u hu
    cases u with
    | indirect i => rfl
    | data i j => exact h.ptr_write hdata d i j
  · intro b hb
    exact upd_of_ne _ _ _ (by omega)

theorem indirect_ne_meta (h : Laid node img L free) {x : Nat} (hx : x < nmeta) (i : Nat)
    (hi : L (.indirect i)) : (node i).indirect.toNat ≠ x := by
  intro heq
  have := (h.range (.indirect i) hi).1
  change nmeta ≤ (node i).indirect.toNat at this
  omega

/-- A block of the metadata says nothing about the other blocks. -/
theorem write_meta (h : Laid node img L free) {x : Nat} (hx : x < nmeta) (d : Bytes) :
    Laid node (upd img x d) L free := by
  have hlow := h.low
  exact h.write (by omega) (h.indirect_ne_meta hx) d

end Laid

/-!
## New blocks
-/

section

variable {img : Nat → Bytes} {d : Dinode} {b j : Nat}

theorem ptr_setAddr {k : Fin 13} (hk : k.val < 12) (hb : b < 2 ^ 32) :
    ptr img (setAddr d k b) j = if j = k.val then b else ptr img d j := by
  unfold ptr setAddr Dinode.indirect
  by_cases hj : j = k.val
  · subst hj
    rw [dif_pos hk, if_pos rfl]
    simp [UInt32.toNat_ofNat_of_lt' hb]
  · rw [if_neg hj]
    have h12 : (d.addrs.set k (UInt32.ofNat b))[12] = d.indirect :=
      Vector.getElem_set_ne (by omega) (by omega) (by omega)
    simp only [h12]
    split
    · rw [Vector.getElem_set_ne (by omega) (by omega) (by omega)]
    · rfl

theorem addrs_setAddr_indirect : (setAddr d 12 b).indirect = UInt32.ofNat b :=
  Vector.getElem_set_self _

theorem ptr_setAddr_indirect (hzero : img b = fun _ => 0) (hb : b < 2 ^ 32)
    (hold : d.indirect = 0) : ptr img (setAddr d 12 b) j = ptr img d j := by
  unfold ptr
  split
  · rename_i hj
    unfold setAddr
    rw [Vector.getElem_set_ne (by omega) (by omega) (by change 12 ≠ j; omega)]
  · rw [addrs_setAddr_indirect]
    split
    · rfl
    · rw [UInt32.toNat_ofNat_of_lt' hb, hzero, word_zero]

theorem ptr_setWord (img : Nat → Bytes) (h12 : d.indirect ≠ 0) {n : Nat} (hn : 12 ≤ n) (hb : b < 2 ^ 32) :
    ptr (upd img d.indirect.toNat (setWord (img d.indirect.toNat) (4 * (n - 12)) 4 b)) d j =
      if j = n then b else ptr img d j := by
  unfold ptr
  by_cases hlt : j < 12
  · rw [dif_pos hlt, dif_pos hlt, if_neg (by omega)]
  · rw [dif_neg hlt, dif_neg hlt, if_neg h12, if_neg h12, upd_self]
    by_cases hjn : j = n
    · rw [if_pos hjn, hjn, word_setWord_of_lt (by omega)]
    · rw [if_neg hjn, word_setWord_outside (by omega)]

end

namespace Laid

variable {node : Nat → Dinode} {img : Nat → Bytes} {L L' : Use → Prop} {free i : Nat}

/-- A new block for one of the first pieces: the other uses keep theirs. -/
theorem block_direct {k : Fin 13} (hk : k.val < 12) (hb : free < 2 ^ 32) (u : Use)
    (hu : u ≠ .data i k) :
    u.block img (upd node i (setAddr (node i) k free)) = u.block img node := by
  cases u with
  | data i' j =>
    simp only [Use.block]
    by_cases hi : i' = i
    · subst hi
      rw [upd_self, ptr_setAddr hk hb, if_neg (by rintro rfl; exact hu rfl)]
    · rw [upd_of_ne _ _ _ hi]
  | indirect i' =>
    simp only [Use.block]
    by_cases hi : i' = i
    · subst hi
      rw [upd_self]
      unfold setAddr Dinode.indirect
      rw [Vector.getElem_set_ne (by omega) (by omega) (by omega)]
    · rw [upd_of_ne _ _ _ hi]

theorem add_direct (h : Laid node img L free) {k : Fin 13} (hk : k.val < 12) (hb : free < 2 ^ 32)
    (hnot : ¬L (.data i k)) (hL : ∀ u, L' u ↔ L u ∨ u = .data i k) :
    Laid (upd node i (setAddr (node i) k free)) img L' (free + 1) := by
  apply h.add (.data i k) (by change _ < 268; omega) hnot hL
  · intro u _ hu
    exact block_direct hk hb u hu
  · simp only [Use.block, upd_self]
    rw [ptr_setAddr hk hb, if_pos rfl]
  · intro b _
    rfl

theorem block_indirect (h : Laid node img L free) (hb : free < 2 ^ 32) (hnot : ¬L (.indirect i))
    (u : Use) (hu : u ≠ .indirect i) :
    u.block img (upd node i (setAddr (node i) 12 free)) = u.block img node := by
  have hzero : (node i).indirect = 0 := by
    by_contra hne
    exact hnot (h.indirect_ne_zero.1 hne)
  cases u with
  | data i' j =>
    simp only [Use.block]
    by_cases hi : i' = i
    · subst hi
      rw [upd_self, ptr_setAddr_indirect (h.zero free (Nat.le_refl _)) hb hzero]
    · rw [upd_of_ne _ _ _ hi]
  | indirect i' =>
    have hi : i' ≠ i := by
      rintro rfl
      exact hu rfl
    simp only [Use.block, upd_of_ne _ _ _ hi]

theorem add_indirect (h : Laid node img L free) (hb : free < 2 ^ 32) (hnot : ¬L (.indirect i))
    (hL : ∀ u, L' u ↔ L u ∨ u = .indirect i) :
    Laid (upd node i (setAddr (node i) 12 free)) img L' (free + 1) := by
  apply h.add (.indirect i) trivial hnot hL
  · intro u _ hu
    exact h.block_indirect hb hnot u hu
  · simp only [Use.block, upd_self, addrs_setAddr_indirect]
    exact UInt32.toNat_ofNat_of_lt' hb
  · intro b _
    rfl

theorem block_piece (h : Laid node img L free) {j : Nat} (hlo : 12 ≤ j) (hb : free < 2 ^ 32)
    (hind : L (.indirect i)) (u : Use) (hu : u ≠ .data i j) :
    u.block (upd img (node i).indirect.toNat
      (setWord (img (node i).indirect.toNat) (4 * (j - 12)) 4 free)) node = u.block img node := by
  have hne := h.indirect_ne_zero.2 hind
  cases u with
  | indirect i' => rfl
  | data i' j' =>
    simp only [Use.block]
    by_cases hi : i' = i
    · subst hi
      rw [ptr_setWord _ hne hlo hb, if_neg (by rintro rfl; exact hu rfl)]
    · unfold ptr
      split
      · rfl
      · split
        · rfl
        · rename_i hnz
          rw [upd_of_ne]
          intro heq
          have := h.inj (.indirect i') (.indirect i) (h.indirect_ne_zero.1 hnz) hind heq
          cases this
          exact hi rfl

theorem add_piece (h : Laid node img L free) {j : Nat} (hlo : 12 ≤ j) (hj : j < MAXFILE)
    (hb : free < 2 ^ 32) (hind : L (.indirect i)) (hnot : ¬L (.data i j))
    (hL : ∀ u, L' u ↔ L u ∨ u = .data i j) :
    Laid node (upd img (node i).indirect.toNat
      (setWord (img (node i).indirect.toNat) (4 * (j - 12)) 4 free)) L' (free + 1) := by
  have hlt := (h.range (.indirect i) hind).2
  apply h.add (.data i j) hj hnot hL
  · intro u _ hu
    exact h.block_piece hlo hb hind u hu
  · simp only [Use.block]
    rw [ptr_setWord _ (h.indirect_ne_zero.2 hind) hlo hb, if_pos rfl]
  · intro b hb
    change (node i).indirect.toNat < free at hlt
    exact upd_of_ne _ _ _ (by omega)

end Laid

end Xv6.Mkfs
