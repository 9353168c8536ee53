import Xv6.Mkfs.Image

/-!
# The files of the image

The root directory has an entry for each file on the command line, and inode `k + 2` has
the bytes of file `k`.
-/

namespace Xv6.Mkfs

open Lib Lib.Cmd Fs

def rootBytes (files : List HostFile) : List UInt8 :=
  entryOf ROOTINO dot ++ entryOf ROOTINO dotdot ++
    (files.mapIdx fun k x => entryOf (k + 2) (fsName x.name)).flatten

def contentOf (files : List HostFile) : Nat → List UInt8
  | 0 => []
  | 1 => rootBytes files
  | k + 2 => (files[k]?.map HostFile.bytes).getD []

def kindOf (n i : Nat) : Int16 := if i = 1 then T_DIR else if 1 < i ∧ i < n then T_FILE else 0

def blocksOf (files : List HostFile) : Nat :=
  blocksFor (16 * (files.length + 2)) + (files.map fun x => blocksFor x.bytes.length).sum

/-- The files fit: there are inodes and blocks for them. -/
def Fits (files : List HostFile) : Prop :=
  files.length ≤ NINODES - 2 ∧ nmeta + blocksOf files ≤ FSSIZE

instance (files : List HostFile) : Decidable (Fits files) := inferInstanceAs (Decidable (_ ∧ _))

/-- There are blocks for the files, and places for their inodes: the inode blocks have a few
more than `NINODES`. -/
def Placed (files : List HostFile) : Prop :=
  files.length ≤ 206 ∧ nmeta + blocksOf files ≤ FSSIZE

instance (files : List HostFile) : Decidable (Placed files) := inferInstanceAs (Decidable (_ ∧ _))

theorem Fits.placed {files : List HostFile} (h : Fits files) : Placed files :=
  ⟨Nat.le_trans h.1 (by decide), h.2⟩

def Refused (x : HostFile) : Prop := slash ∈ shortname x.name ∨ MAXFILE * 1024 < x.bytes.length

instance (x : HostFile) : Decidable (Refused x) := inferInstanceAs (Decidable (_ ∨ _))

section

variable {files done : List HostFile} {x : HostFile} {s : State}

@[simp] theorem length_entryOf (inum : Nat) (name : Str) : (entryOf inum name).length = 16 := by
  simp [entryOf]

theorem rootBytes_append : rootBytes (done ++ [x]) =
    rootBytes done ++ entryOf (done.length + 2) (fsName x.name) := by
  simp [rootBytes, List.mapIdx_append]

@[simp] theorem length_rootBytes (files : List HostFile) :
    (rootBytes files).length = 16 * (files.length + 2) := by
  induction files using List.reverseRecOn with
  | nil => simp [rootBytes]
  | append_singleton files x ih =>
    rw [rootBytes_append, List.length_append, ih, length_entryOf, List.length_append,
      List.length_singleton]
    omega

theorem contentOf_append : contentOf (done ++ [x]) =
    upd (upd (contentOf done) 1 (rootBytes done ++ entryOf (done.length + 2) (fsName x.name)))
      (done.length + 2) x.bytes := by
  funext i
  match i with
  | 0 => rfl
  | 1 =>
    rw [upd_of_ne _ _ _ (by omega), upd_self]
    exact rootBytes_append
  | k + 2 =>
    rw [upd_eq]
    by_cases hk : k = done.length
    · subst hk
      simp [contentOf]
    · rw [if_neg (by omega), upd_of_ne _ _ _ (by omega)]
      simp only [contentOf]
      by_cases hlt : k < done.length
      · rw [List.getElem?_append_left hlt]
      · rw [List.getElem?_append_right (by omega), List.getElem?_eq_none (by simp; omega),
          List.getElem?_eq_none (by omega)]

theorem kindOf_succ {n : Nat} (hn : 1 < n) : kindOf (n + 1) = upd (kindOf n) n T_FILE := by
  funext i
  rw [upd_eq]
  unfold kindOf
  by_cases hi : i = n
  · rw [if_neg (by omega), if_pos (by omega), if_pos hi]
  · rw [if_neg hi]
    have hiff : 1 < i ∧ i < n + 1 ↔ 1 < i ∧ i < n := by omega
    simp only [hiff]

theorem blocksOf_append (done : List HostFile) (x : HostFile) :
    blocksOf (done ++ [x]) + blocksFor (16 * (done.length + 2)) =
    blocksOf done + blocksFor (16 * (done.length + 2) + 16) + blocksFor x.bytes.length := by
  unfold blocksOf
  simp only [List.map_append, List.sum_append, List.length_append, List.map_cons, List.map_nil,
    List.sum_cons, List.sum_nil, List.length_singleton]
  rw [show 16 * (done.length + 1 + 2) = 16 * (done.length + 2) + 16 by omega]
  omega

theorem blocksOf_mono (done rest : List HostFile) : blocksOf done ≤ blocksOf (done ++ rest) := by
  have hroot := blocksFor_mono (show 16 * (done.length + 2) ≤ 16 * ((done ++ rest).length + 2) by
    rw [List.length_append]
    omega)
  unfold blocksOf
  rw [List.map_append, List.sum_append]
  omega

structure Inv (done : List HostFile) (s : State) : Prop where
  holds : Holds s (contentOf done) (kindOf (done.length + 2))
  inode : s.freeinode = done.length + 2
  block : s.freeblock = nmeta + blocksOf done

theorem wp_pieces {content : Nat → List UInt8} {kind : Nat → Int16} {i : Nat}
    (pieces : List (List UInt8)) (h : Holds s content kind) (hi : i < 208) (hnil : content i = [])
    (hroom : s.freeblock + blocksFor pieces.flatten.length ≤ FSSIZE) :
    wp (forM pieces fun p => iappend i p)
      (fun _ t => Holds t (upd content i pieces.flatten) kind ∧ t.freeinode = s.freeinode ∧
        t.freeblock = s.freeblock + blocksFor pieces.flatten.length)
      (fun _ => MAXFILE * 1024 < pieces.flatten.length) s := by
  have hloop := wp_forM (f := fun p => iappend i p) (E := fun _ => MAXFILE * 1024 < pieces.flatten.length)
    (I := fun rest t => ∃ pre, pieces = pre ++ rest ∧ Holds t (upd content i pre.flatten) kind ∧
      t.freeinode = s.freeinode ∧ t.freeblock = s.freeblock + blocksFor pre.flatten.length)
    (l := pieces) (s := s) (by
      rintro p rest t ⟨pre, hsplit, hholds, hinode, hblock⟩
      have hlen : pieces.flatten.length = pre.flatten.length + p.length + rest.flatten.length := by
        rw [hsplit]
        simp only [List.flatten_append, List.flatten_cons, List.length_append]
        omega
      have hmono := blocksFor_mono (show pre.flatten.length + p.length ≤ pieces.flatten.length by omega)
      have happ := wp_iappend (p := p) hholds hi (by
        rw [upd_self]
        omega)
      rw [upd_self, upd_upd] at happ
      apply happ.mono
      · rintro _ u ⟨hu, hui, hub⟩
        refine ⟨pre ++ [p], by simp [hsplit], ?_, hui.trans hinode, ?_⟩
        · rw [List.flatten_append, List.flatten_singleton]
          exact hu
        · rw [List.flatten_append, List.flatten_singleton, List.length_append]
          omega
      · intro _ hbig
        omega)
    ⟨[], rfl, by
      rw [List.flatten_nil, ← hnil, upd_eq_self]
      exact h, rfl, rfl⟩
  apply hloop.imp
  rintro _ t ⟨pre, hsplit, ht⟩
  rw [List.append_nil] at hsplit
  rw [hsplit]
  exact ht

theorem wp_addFile {rest : List HostFile} (h : Inv done s) (hplaced : Placed (done ++ x :: rest)) :
    wp (addFile ROOTINO x) (fun _ t => Inv (done ++ [x]) t) (fun _ => Refused x) s := by
  obtain ⟨hnum, hroom⟩ := hplaced
  have hmono := blocksOf_mono (done ++ [x]) rest
  rw [List.append_assoc, List.singleton_append] at hmono
  have hcount := blocksOf_append done x
  have hroot := blocksFor_mono (show 16 * (done.length + 2) ≤ 16 * (done.length + 2) + 16 by omega)
  have hblock := h.block
  have hinode := h.inode
  rw [List.length_append, List.length_cons] at hnum
  have hnil : contentOf done s.freeinode = [] := by
    rw [hinode]
    simp [contentOf]
  unfold addFile
  rw [wp_ite]
  constructor
  · intro hslash
    exact .inl hslash
  intro _
  rw [wp_bind]
  apply (wp_ialloc h.holds (by omega) hnil).mono
  · rintro inum t ⟨rfl, hholds, htinode, htblock⟩
    rw [hinode, ← kindOf_succ (by omega)] at hholds
    rw [wp_bind]
    have hentry := wp_iappend (p := entryOf s.freeinode (fsName x.name)) (i := ROOTINO) hholds
      (by decide) (by
        change t.freeblock + blocksFor ((rootBytes done).length + _) ≤
          FSSIZE + blocksFor (rootBytes done).length
        rw [length_rootBytes, length_entryOf]
        omega)
    apply hentry.mono
    · rintro _ u ⟨hu, huinode, hublock⟩
      change u.freeblock + blocksFor (rootBytes done).length =
        t.freeblock + blocksFor ((rootBytes done).length + _) at hublock
      rw [length_rootBytes, length_entryOf] at hublock
      have hpieces := wp_pieces (i := s.freeinode) x.pieces hu (by omega) (by
        rw [upd_of_ne _ _ _ (by change s.freeinode ≠ 1; omega)]
        exact hnil) (by
        change _ + blocksFor x.bytes.length ≤ _
        omega)
      apply hpieces.mono
      · rintro _ v ⟨hv, hvinode, hvblock⟩
        change v.freeblock = u.freeblock + blocksFor x.bytes.length at hvblock
        constructor
        · rw [contentOf_append, List.length_append, List.length_singleton, ← hinode]
          exact hv
        · rw [List.length_append, List.length_singleton]
          omega
        · omega
      · intro _ hbig
        exact .inr hbig
    · intro _ hbig
      change 268 * 1024 < (rootBytes done).length + _ at hbig
      rw [length_rootBytes, length_entryOf] at hbig
      omega
  · intro _ hfalse
    exact hfalse.elim

/-!
## The whole program
-/

/-- The image has these files, and a bitmap with the blocks below `free`.  The size of the
root directory is rounded. -/
structure Made (files : List HostFile) (img : Nat → Bytes) (node : Nat → Dinode) (free : Nat) :
    Prop where
  inode : ∀ i, i < 208 → inodeAt img i = node i
  laid : Laid node img (needs (contentOf files)) free
  filled : Filled img node (contentOf files)
  type : ∀ i, (node i).type = kindOf (files.length + 2) i
  size : ∀ i, i ≠ ROOTINO → (node i).size.toNat = (contentOf files i).length
  root : (node ROOTINO).size.toNat = ((rootBytes files).length / 1024 + 1) * 1024
  super : img 1 = superBytes
  bitmap : ∀ b, bit (img sb.bmapstart) b = true ↔ b < free
  room : free ≤ FSSIZE

theorem bit_foldl (l : List Nat) (d : Bytes) (b : Nat) :
    bit (l.foldl setBit d) b = true ↔ b ∈ l ∨ bit d b = true := by
  induction l generalizing d with
  | nil => simp
  | cons a l ih =>
    rw [List.foldl_cons, ih, bit_setBit, List.mem_cons]
    simp only [Bool.or_eq_true, decide_eq_true_eq]
    constructor
    · rintro (h | h | h)
      · exact .inl (.inr h)
      · exact .inl (.inl h)
      · exact .inr h
    · rintro ((h | h) | h)
      · exact .inr (.inl h)
      · exact .inl h
      · exact .inr (.inr h)

def blank : State := { start with img := upd start.img 1 superBytes }

theorem holds_blank : Holds blank (fun _ => []) fun _ => 0 := by
  have hload : ∀ o, Dinode.load (fun _ => 0) o = Dinode.load (fun _ => 0) 0 := by
    intro o
    simp only [Dinode.load, word_zero]
  have haddr : ∀ j (hj : j < 13), (Dinode.load (fun _ => 0) 0).addrs[j] = 0 := by
    intro j hj
    simp only [Dinode.load, word_zero, Vector.getElem_ofFn]
    rfl
  have hblock : ∀ u : Use, u.block blank.img (fun _ => Dinode.load (fun _ => 0) 0) = 0 := by
    intro u
    cases u with
    | indirect k =>
      simp only [Use.block, haddr]
      rfl
    | data k j =>
      simp only [Use.block, ptr, haddr]
      split <;> rfl
  have hneeds : ∀ u, ¬needs (fun _ => []) u := by
    intro u
    cases u <;> simp [needs]
  refine ⟨fun _ => Dinode.load (fun _ => 0) 0, ⟨rfl, by decide, ?_, ?_⟩, ?_, ?_, ?_, ?_⟩
  · constructor
    · intro u hu
      exact absurd hu (hneeds u)
    · intro u _
      simp only [hblock u, hneeds u]
      decide
    · intro u v hu
      exact absurd hu (hneeds u)
    · intro u hu
      exact absurd hu (hneeds u)
    · intro b hlo hhi
      exact absurd hhi (Nat.not_lt.2 hlo)
    · intro b hb
      change 46 ≤ b at hb
      change upd start.img 1 superBytes b = _
      rw [upd_of_ne _ _ _ (by omega)]
      rfl
    · exact Nat.le_refl _
  · intro i off c hc
    simp at hc
  · intro i hi
    change Dinode.load (upd start.img 1 superBytes (i / 16 + 32)) _ = _
    rw [upd_of_ne _ _ _ (by omega)]
    exact hload _
  · intro i
    simp only [Dinode.load, word_zero]
    rfl
  · intro i
    simp only [Dinode.load, word_zero]
    rfl
  · exact upd_self start.img 1 superBytes

theorem Inv.root {t : State}
    (h : Holds t (upd (upd (fun _ => []) ROOTINO (entryOf ROOTINO dot)) ROOTINO
      (entryOf ROOTINO dot ++ entryOf ROOTINO dotdot)) (upd (fun _ => 0) ROOTINO T_DIR))
    (hinode : t.freeinode = 2) (hblock : t.freeblock = nmeta + blocksFor 32) : Inv [] t := by
  have hcontent : contentOf [] = upd (upd (fun _ => []) ROOTINO (entryOf ROOTINO dot)) ROOTINO
      (entryOf ROOTINO dot ++ entryOf ROOTINO dotdot) := by
    funext i
    match i with
    | 0 => rfl
    | 1 => simp [contentOf, rootBytes]
    | k + 2 =>
      rw [upd_upd, upd_of_ne _ _ _ (by change k + 2 ≠ 1; omega)]
      rfl
  have hkind : kindOf 2 = upd (fun _ => 0) ROOTINO T_DIR := by
    funext i
    rw [upd_eq, kindOf]
    by_cases hi : i = 1
    · rw [if_pos hi, if_pos hi]
    · rw [if_neg hi, if_neg hi, if_neg (by omega)]
  constructor
  · rw [hcontent, List.length_nil, hkind]
    exact h
  · exact hinode
  · exact hblock

theorem wp_files (h : Inv [] s) (hplaced : Placed files) :
    wp (forM files (addFile ROOTINO)) (fun _ t => Inv files t) (fun _ => ∃ x ∈ files, Refused x) s := by
  have hloop := wp_forM (f := addFile ROOTINO) (E := fun _ => ∃ x ∈ files, Refused x)
    (I := fun rest t => ∃ done, files = done ++ rest ∧ Inv done t) (l := files) (s := s) (by
      rintro x rest t ⟨done, hsplit, hinv⟩
      apply (wp_addFile hinv (hsplit ▸ hplaced)).mono
      · intro _ u hu
        exact ⟨done ++ [x], by simp [hsplit], hu⟩
      · intro _ hx
        exact ⟨x, by simp [hsplit], hx⟩)
    ⟨[], rfl, h⟩
  apply hloop.imp
  rintro _ t ⟨done, hsplit, ht⟩
  rw [List.append_nil] at hsplit
  rw [hsplit]
  exact ht

def rounded (d : Dinode) : Dinode :=
  { d with size := UInt32.ofNat ((d.size.toNat / 1024 + 1) * 1024) }

theorem wp_finish {E : Fail → Prop} (h : Inv files s) (hplaced : Placed files) :
    wp (do
      fixRoot ROOTINO
      let s ← get
      balloc s.freeblock) (fun _ t => t.freeinode = files.length + 2 ∧
        ∃ node, Made files t.img node (nmeta + blocksOf files)) E s := by
  obtain ⟨node, hw⟩ := h.holds
  have hlen : (rootBytes files).length ≤ 3328 := by
    have := hplaced.1
    rw [length_rootBytes]
    omega
  have hsize : (node ROOTINO).size.toNat = (rootBytes files).length := hw.size ROOTINO
  unfold fixRoot
  rw [wp_bind, wp_bind]
  apply wp_rinode hw.files.length (by decide)
  rw [hw.synced ROOTINO (by decide)]
  apply wp_winode (d := rounded (node ROOTINO)) hw.files.length (by decide)
  rw [wp_bind, wp_get]
  unfold balloc
  rw [wp_ite]
  have hroom := hw.files.room
  constructor
  · intro hbig
    change s.freeblock ≤ 1000 at hroom
    change 8192 ≤ s.freeblock at hbig
    omega
  intro _
  have hfiles := hw.files.inode (i := ROOTINO) (d := rounded (node ROOTINO)) (by decide) rfl
  refine ⟨h.inode, upd node ROOTINO (rounded (node ROOTINO)), ?_⟩
  have hblock := h.block
  constructor
  · intro i hi
    have hne := iblock_lt hi
    change Dinode.load (upd _ 45 _ (sb.iblock i)) _ = _
    rw [upd_of_ne _ _ _ (by omega)]
    change inodeAt (putInode s.img ROOTINO _) i = _
    rw [inodeAt_putInode, hw.synced i hi, upd_eq]
  · rw [← hblock]
    exact hfiles.laid.write_meta (by decide) _
  · exact hfiles.filled.write_meta hfiles.laid (by decide) _
  · intro i
    rw [upd_eq]
    split
    · rename_i hi
      rw [hi]
      exact hw.type ROOTINO
    · exact hw.type i
  · intro i hi
    rw [upd_of_ne _ _ _ hi]
    exact hw.size i
  · rw [upd_self, rounded, hsize]
    exact UInt32.toNat_ofNat_of_lt' (by change _ < 4294967296; omega)
  · exact (putInode_super s.img ROOTINO (rounded (node ROOTINO))).trans hw.super
  · intro b
    change bit (upd _ 45 _ 45) b = true ↔ _
    rw [upd_self, bit_foldl, List.mem_range, ← hblock]
    have hzero : bit (fun _ => 0) b = false := by simp [bit]
    rw [hzero]
    simp
  · rw [← hblock]
    exact hroom

/-- The image that `mkfs` writes; it refuses only files with a slash in the name and files
that are too long. -/
theorem wp_main (hplaced : Placed files) :
    wp (main files) (fun _ t => t.freeinode = files.length + 2 ∧
        ∃ node, Made files t.img node (nmeta + blocksOf files))
      (fun _ => ∃ x ∈ files, Refused x) start := by
  have hroom : nmeta + blocksFor 32 ≤ FSSIZE := by decide
  unfold main
  rw [wp_bind]
  change wp _ _ _ blank
  rw [wp_bind]
  apply (wp_ialloc holds_blank (by decide) rfl).mono
  · rintro rootino t ⟨rfl, hroot, htinode, htblock⟩
    change t.freeblock = nmeta at htblock
    change wp (do
      iappend ROOTINO (entryOf ROOTINO dot)
      iappend ROOTINO (entryOf ROOTINO dotdot)
      forM files (addFile ROOTINO)
      fixRoot ROOTINO
      let s ← get
      balloc s.freeblock) _ _ t
    rw [wp_bind]
    apply (wp_iappend hroot (by decide) (by
      rw [length_entryOf, htblock]
      decide)).mono
    · rintro _ u ⟨hu, huinode, hublock⟩
      change u.freeblock + 0 = t.freeblock + 1 at hublock
      rw [wp_bind]
      apply (wp_iappend hu (by decide) (by
        rw [upd_self]
        change t.freeblock = 46 at htblock
        change _ + 1 ≤ 1000 + 1
        omega)).mono
      · rintro _ v ⟨hv, hvinode, hvblock⟩
        rw [upd_self] at hv hvblock
        change v.freeblock + 1 = u.freeblock + 1 at hvblock
        have hinv : Inv [] v := by
          apply Inv.root hv
          · rw [hvinode, huinode, htinode]
            rfl
          · change _ = nmeta + 1
            omega
        rw [wp_bind]
        apply (wp_files hinv hplaced).imp
        intro _ w hw
        exact wp_finish hw hplaced
      · intro _ hbig
        exact absurd hbig (by rw [upd_self]; decide)
    · intro _ hbig
      exact absurd hbig (by decide)
  · intro _ hfalse
    exact hfalse.elim

end

end Xv6.Mkfs
