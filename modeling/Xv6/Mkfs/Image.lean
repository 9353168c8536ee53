import Xv6.Mkfs.Append

/-!
# The image

What each call of `mkfs` writes, up to the whole image: the inodes in their blocks, the
files in theirs, and the bitmap.
-/

namespace Xv6.Mkfs

open Lib Lib.Cmd Fs

def inodeAt (img : Nat → Bytes) (i : Nat) : Dinode := Dinode.load (img (sb.iblock i)) (i % 16 * 64)

def putInode (img : Nat → Bytes) (i : Nat) (d : Dinode) : Nat → Bytes :=
  upd img (sb.iblock i) (d.store (img (sb.iblock i)) (i % 16 * 64))

section

variable {s : State} {node : Nat → Dinode} {content : Nat → List UInt8} {i : Nat} {d : Dinode}

theorem iblock_lt (hi : i < 208) : sb.iblock i < 45 := by
  change i / 16 + 32 < 45
  omega

theorem inodeAt_putInode {img : Nat → Bytes} (k : Nat) :
    inodeAt (putInode img i d) k = if k = i then d else inodeAt img k := by
  unfold inodeAt putInode
  by_cases hk : k = i
  · subst hk
    rw [if_pos rfl, upd_self, load_store]
  · rw [if_neg hk]
    by_cases hblock : sb.iblock k = sb.iblock i
    · rw [hblock, upd_self]
      apply load_store_of_ne
      change k / 16 + 32 = i / 16 + 32 at hblock
      omega
    · rw [upd_of_ne _ _ _ hblock]

theorem wp_winode {Q : PUnit → State → Prop} {E : Fail → Prop} (hlen : s.length = FSSIZE)
    (hi : i < 208) (hQ : Q ⟨⟩ { s with img := putInode s.img i d }) : wp (winode i d) Q E s := by
  have hblock := iblock_lt hi
  unfold winode
  rw [wp_bind]
  apply wp_rsect
  · rw [hlen]
    change _ < 1000
    omega
  · have hmax : max s.length (sb.iblock i + 1) = s.length := by
      rw [hlen]
      change max 1000 _ = 1000
      omega
    change Q ⟨⟩ { s with img := putInode s.img i d, length := max s.length (sb.iblock i + 1) }
    rw [hmax]
    exact hQ

theorem wp_rinode {Q : Dinode → State → Prop} {E : Fail → Prop} (hlen : s.length = FSSIZE)
    (hi : i < 208) (hQ : Q (inodeAt s.img i) s) : wp (rinode i) Q E s := by
  have hblock := iblock_lt hi
  unfold rinode
  rw [wp_bind]
  apply wp_rsect
  · rw [hlen]
    change _ < 1000
    omega
  · exact hQ

theorem block_inode (img : Nat → Bytes) (h : d.addrs = (node i).addrs) (u : Use) :
    u.block img (upd node i d) = u.block img node := by
  have hnode : ∀ k, (upd node i d k).addrs = (node k).addrs := by
    intro k
    by_cases hk : k = i
    · rw [hk, upd_self, h]
    · rw [upd_of_ne _ _ _ hk]
  cases u with
  | data k j => exact ptr_congr (hnode k) j
  | indirect k => simp only [Use.block, Dinode.indirect, hnode]

theorem Files.inode (h : Files s node content) (hi : i < 208) (haddrs : d.addrs = (node i).addrs) :
    Files { s with img := putInode s.img i d } (upd node i d) content := by
  have hblock := iblock_lt hi
  have hmeta : sb.iblock i < nmeta := by
    change _ < 46
    omega
  constructor
  · exact h.length
  · exact h.room
  · apply (h.laid.write_meta hmeta _).congr
    · intro u _
      exact block_inode _ haddrs u
    · intro b _
      rfl
  · apply (h.filled.write_meta h.laid hmeta _).congr
    · intro k j _
      exact block_inode _ haddrs (.data k j)
    · intro k j _
      rfl

theorem Files.length_le (h : Files s node content) (i : Nat) : (content i).length ≤ MAXFILE * 1024 := by
  by_contra hlt
  have := h.laid.inRange (.data i MAXFILE) (by
    change 1024 * 268 < _
    change ¬_ ≤ 268 * 1024 at hlt
    omega)
  exact Nat.lt_irrefl _ this

theorem Files.addrs_nil (h : Files s node content) (hnil : content i = []) :
    (node i).addrs = .replicate 13 0 := by
  apply Vector.ext
  intro j hj
  rw [Vector.getElem_replicate]
  by_contra hne
  by_cases hlast : j = 12
  · subst hlast
    have hneed : needs content (.indirect i) := h.laid.indirect_ne_zero.1 hne
    change 12288 < (content i).length at hneed
    rw [hnil] at hneed
    exact absurd hneed (Nat.not_lt_zero _)
  · have hneed := (h.laid.pos (.data i j) (by change _ < 268; omega)).1 (by
      simp only [Use.block, ptr]
      rw [dif_pos (by omega)]
      simpa [← UInt32.toNat_inj] using hne)
    change 1024 * j < (content i).length at hneed
    rw [hnil] at hneed
    exact absurd hneed (Nat.not_lt_zero _)

end

/-!
## Inodes in their blocks
-/

structure Written (s : State) (node : Nat → Dinode) (content : Nat → List UInt8) (kind : Nat → Int16) :
    Prop where
  files : Files s node content
  synced : ∀ i, i < 208 → inodeAt s.img i = node i
  size : ∀ i, (node i).size.toNat = (content i).length
  type : ∀ i, (node i).type = kind i
  super : s.img 1 = superBytes

def Holds (s : State) (content : Nat → List UInt8) (kind : Nat → Int16) : Prop :=
  ∃ node, Written s node content kind

section

variable {s : State} {node : Nat → Dinode} {content : Nat → List UInt8} {kind : Nat → Int16} {i : Nat}

theorem putInode_super (img : Nat → Bytes) (i : Nat) (d : Dinode) : putInode img i d 1 = img 1 := by
  apply upd_of_ne
  change 1 ≠ i / 16 + 32
  omega

theorem wp_ialloc {type : Int16} (h : Holds s content kind) (hfree : s.freeinode < 208)
    (hnil : content s.freeinode = []) :
    wp (ialloc type)
      (fun r t => r = s.freeinode ∧ Holds t content (upd kind s.freeinode type) ∧
        t.freeinode = s.freeinode + 1 ∧ t.freeblock = s.freeblock)
      (fun _ => False) s := by
  obtain ⟨node, hw⟩ := h
  unfold ialloc
  rw [wp_bind, wp_get, wp_bind, wp_set, wp_bind]
  apply wp_winode (s := { s with freeinode := s.freeinode + 1 }) hw.files.length hfree
  refine ⟨rfl, ⟨upd node s.freeinode (newNode type), ?_⟩, rfl, rfl⟩
  have hfiles := hw.files.inode (d := newNode type) hfree (hw.files.addrs_nil hnil).symm
  constructor
  · exact ⟨hfiles.length, hfiles.room, hfiles.laid, hfiles.filled⟩
  · intro k hk
    change inodeAt (putInode s.img s.freeinode (newNode type)) k = _
    rw [inodeAt_putInode, hw.synced k hk, upd_eq]
  · intro k
    rw [upd_eq]
    split
    · rename_i hk
      rw [hk, hnil]
      rfl
    · exact hw.size k
  · intro k
    rw [upd_eq, upd_eq]
    split
    · rfl
    · exact hw.type k
  · exact (putInode_super s.img s.freeinode (newNode type)).trans hw.super

theorem wp_iappend {p : List UInt8} (h : Holds s content kind) (hi : i < 208)
    (hroom : s.freeblock + blocksFor ((content i).length + p.length) ≤
      FSSIZE + blocksFor (content i).length) :
    wp (iappend i p)
      (fun _ t => Holds t (upd content i (content i ++ p)) kind ∧ t.freeinode = s.freeinode ∧
        t.freeblock + blocksFor (content i).length =
          s.freeblock + blocksFor ((content i).length + p.length))
      (fun _ => MAXFILE * 1024 < (content i).length + p.length) s := by
  obtain ⟨node, hw⟩ := h
  unfold iappend
  rw [wp_bind]
  apply wp_rinode hw.files.length hi
  rw [hw.synced i hi, hw.size i, wp_bind]
  apply (wp_iappendLoop hw.files (Nat.le_refl _) hroom).imp
  rintro ⟨din, off⟩ t ⟨hoff, node', hdin, happ⟩
  dsimp only at hoff hdin ⊢
  subst hoff hdin
  obtain ⟨addrs, hsame⟩ := happ.same
  have hlen := happ.files.length_le i
  rw [upd_self, List.length_append] at hlen
  change _ ≤ 268 * 1024 at hlen
  apply wp_winode happ.files.length hi
  refine ⟨⟨upd node' i { node' i with size := UInt32.ofNat ((content i).length + p.length) }, ?_⟩,
    happ.inode, happ.count⟩
  have hfiles := happ.files.inode
    (d := { node' i with size := UInt32.ofNat ((content i).length + p.length) }) hi rfl
  constructor
  · exact hfiles
  · intro k hk
    change inodeAt (putInode t.img i _) k = _
    rw [inodeAt_putInode, upd_eq]
    split
    · rfl
    · rename_i hne
      have hblock := iblock_lt hk
      rw [happ.other k hne, ← hw.synced k hk, inodeAt, happ.low _ (by change _ < 46; omega)]
      rfl
  · intro k
    by_cases hk : k = i
    · subst hk
      rw [upd_self, upd_self, List.length_append]
      exact UInt32.toNat_ofNat_of_lt' (by change _ < 4294967296; omega)
    · rw [upd_of_ne _ _ _ hk, upd_of_ne _ _ _ hk, happ.other k hk]
      exact hw.size k
  · intro k
    by_cases hk : k = i
    · subst hk
      rw [upd_self, hsame]
      exact hw.type k
    · rw [upd_of_ne _ _ _ hk, happ.other k hk]
      exact hw.type k
  · dsimp only
    rw [putInode_super, happ.low 1 (by decide)]
    exact hw.super

end

end Xv6.Mkfs
