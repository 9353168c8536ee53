import Xv6.Mkfs.Layout

/-!
# `iappend`

Appending to a file gives it the blocks it needs, and only those, and the blocks hold the
bytes of the file.
-/

namespace Xv6.Mkfs

open Lib Lib.Cmd Fs

/-- The blocks that files with these bytes need. -/
def needs (content : Nat → List UInt8) : Use → Prop
  | .data i j => 1024 * j < (content i).length
  | .indirect i => 12288 < (content i).length

def blocksFor (n : Nat) : Nat := (n + 1023) / 1024 + if 12288 < n then 1 else 0

theorem blocksFor_old {n : Nat} (h : n % 1024 ≠ 0) : blocksFor (n + 1) = blocksFor n := by
  have hiff : 12288 < n + 1 ↔ 12288 < n := by omega
  simp only [blocksFor, hiff]
  omega

theorem blocksFor_new {n : Nat} (h : n % 1024 = 0) (hne : n ≠ 12288) :
    blocksFor (n + 1) = blocksFor n + 1 := by
  have hiff : 12288 < n + 1 ↔ 12288 < n := by omega
  simp only [blocksFor, hiff]
  omega

theorem blocksFor_within {n m : Nat} (hpos : 0 < m) (h : n % 1024 + m ≤ 1024) :
    blocksFor (n + m) = blocksFor (n + 1) := by
  have hiff : 12288 < n + m ↔ 12288 < n + 1 := by omega
  simp only [blocksFor, hiff]
  omega

theorem blocksFor_mono {n m : Nat} (h : n ≤ m) : blocksFor n ≤ blocksFor m := by
  unfold blocksFor
  split <;> split <;> omega

def Filled (img : Nat → Bytes) (node : Nat → Dinode) (content : Nat → List UInt8) : Prop :=
  ∀ i off c, (content i)[off]? = some c → img (ptr img (node i) (off / 1024)) (off % 1024) = c

structure Files (s : State) (node : Nat → Dinode) (content : Nat → List UInt8) : Prop where
  length : s.length = FSSIZE
  room : s.freeblock ≤ FSSIZE
  laid : Laid node s.img (needs content) s.freeblock
  filled : Filled s.img node content

/-- File `i` has a block `x` for its next byte. -/
structure Ready (s t : State) (node node' : Nat → Dinode) (content : Nat → List UInt8)
    (i x : Nat) : Prop where
  other : ∀ k, k ≠ i → node' k = node k
  same : ∃ addrs, node' i = { node i with addrs := addrs }
  laid : Laid node' t.img (fun u => needs content u ∨ u = .data i ((content i).length / 1024) ∨
    12 ≤ (content i).length / 1024 ∧ u = .indirect i) t.freeblock
  filled : Filled t.img node' content
  block : ptr t.img (node' i) ((content i).length / 1024) = x
  length : t.length = s.length
  inode : t.freeinode = s.freeinode
  low : ∀ b, b < nmeta → t.img b = s.img b
  count : t.freeblock + blocksFor (content i).length = s.freeblock + blocksFor ((content i).length + 1)

section

variable {s t : State} {node : Nat → Dinode} {content : Nat → List UInt8} {i : Nat}

theorem Filled.congr {img img' : Nat → Bytes} {node' : Nat → Dinode} (h : Filled img node content)
    (hblock : ∀ k j, needs content (.data k j) → ptr img' (node' k) j = ptr img (node k) j)
    (himg : ∀ k j, needs content (.data k j) → img' (ptr img (node k) j) = img (ptr img (node k) j)) :
    Filled img' node' content := by
  intro k off c hc
  have hneed : needs content (.data k (off / 1024)) := by
    have := (List.getElem?_eq_some_iff.1 hc).1
    change 1024 * (off / 1024) < _
    omega
  rw [hblock k _ hneed, himg k _ hneed]
  exact h k off c hc

theorem Filled.write_meta {img : Nat → Bytes} {free x : Nat} (h : Filled img node content)
    (hlaid : Laid node img (needs content) free) (hx : x < nmeta) (d : Bytes) :
    Filled (upd img x d) node content := by
  apply h.congr
  · intro k j _
    exact hlaid.ptr_write (hlaid.indirect_ne_meta hx) d k j
  · intro k j hneed
    have := (hlaid.range (.data k j) hneed).1
    change nmeta ≤ ptr img (node k) j at this
    exact upd_of_ne _ _ _ (by omega)

theorem wp_rsect {sec : Nat} {Q : Bytes → State → Prop} {E : Fail → Prop} (hsec : sec < s.length)
    (hQ : Q (s.img sec) s) : wp (rsect sec) Q E s := by
  unfold rsect
  rw [wp_bind, wp_get, wp_ite]
  exact ⟨fun _ => hQ, fun h => absurd hsec h⟩

theorem Ready.old (h : Files s node content) (hmod : (content i).length % 1024 ≠ 0) :
    Ready s s node node content i (ptr s.img (node i) ((content i).length / 1024)) := by
  constructor
  · intro k _
    rfl
  · exact ⟨_, rfl⟩
  · apply h.laid.congr_uses
    intro u
    constructor
    · exact .inl
    · rintro (hu | rfl | ⟨hlen, rfl⟩)
      · exact hu
      · change 1024 * _ < _
        omega
      · change 12288 < _
        omega
  · exact h.filled
  · rfl
  · rfl
  · rfl
  · intro b _
    rfl
  · rw [blocksFor_old hmod]

theorem Ready.direct (h : Files s node content) (hmod : (content i).length % 1024 = 0)
    (hlt : (content i).length / 1024 < 12) (hroom : s.freeblock < FSSIZE) :
    Ready s { s with freeblock := s.freeblock + 1 } node
      (upd node i (setAddr (node i) ⟨(content i).length / 1024, by omega⟩ s.freeblock)) content i
      s.freeblock := by
  have hfree : s.freeblock < 2 ^ 32 := by
    change _ < 1000 at hroom
    omega
  have hnot : ¬needs content (.data i ((content i).length / 1024)) := by
    change ¬1024 * _ < _
    omega
  have hblock : ∀ u : Use, u ≠ .data i ((content i).length / 1024) →
      u.block s.img (upd node i (setAddr (node i) ⟨(content i).length / 1024, by omega⟩ s.freeblock)) =
        u.block s.img node :=
    fun u hu => Laid.block_direct (k := ⟨(content i).length / 1024, by omega⟩) hlt hfree u hu
  constructor
  · intro k hk
    exact upd_of_ne _ _ _ hk
  · exact ⟨_, by rw [upd_self]; rfl⟩
  · refine h.laid.add_direct hlt hfree hnot fun u => ?_
    constructor
    · rintro (hu | hu | ⟨hlen, -⟩)
      · exact .inl hu
      · exact .inr hu
      · omega
    · rintro (hu | hu)
      · exact .inl hu
      · exact .inr (.inl hu)
  · refine h.filled.congr (fun k j hneed => hblock (.data k j) ?_) fun _ _ _ => rfl
    rintro heq
    rw [heq] at hneed
    exact hnot hneed
  · rw [upd_self, ptr_setAddr hlt hfree, if_pos rfl]
  · rfl
  · rfl
  · intro b _
    rfl
  · dsimp only
    rw [blocksFor_new hmod (by omega)]
    omega

/-- A new block for a later piece leaves the bytes of the files alone. -/
theorem Filled.piece {img : Nat → Bytes} {L : Use → Prop} {free j : Nat}
    (h : Filled img node content) (hlaid : Laid node img L free) (hL : ∀ u, needs content u → L u)
    (hlo : 12 ≤ j) (hfree : free < 2 ^ 32) (hind : L (.indirect i)) (hnot : ¬L (.data i j)) :
    Filled (upd img (node i).indirect.toNat
      (setWord (img (node i).indirect.toNat) (4 * (j - 12)) 4 free)) node content := by
  apply h.congr
  · intro k j' hneed
    apply hlaid.block_piece hlo hfree hind (.data k j')
    intro heq
    rw [heq] at hneed
    exact hnot (hL _ hneed)
  · intro k j' hneed
    apply upd_of_ne
    intro heq
    have := hlaid.inj (.data k j') (.indirect i) (hL _ hneed) hind heq
    cases this

theorem Ready.piece (h : Files s node content) (hmod : (content i).length % 1024 = 0)
    (hlo : 12 < (content i).length / 1024) (hhi : (content i).length / 1024 < MAXFILE)
    (hroom : s.freeblock < FSSIZE) :
    Ready s
      { s with
        freeblock := s.freeblock + 1
        img := upd s.img (node i).indirect.toNat
          (setWord (s.img (node i).indirect.toNat) (4 * ((content i).length / 1024 - 12)) 4
            s.freeblock)
        length := max s.length ((node i).indirect.toNat + 1) } node node content i s.freeblock := by
  have hfree : s.freeblock < 2 ^ 32 := by
    change _ < 1000 at hroom
    omega
  have hnot : ¬needs content (.data i ((content i).length / 1024)) := by
    change ¬1024 * _ < _
    omega
  have hind : needs content (.indirect i) := by
    change 12288 < _
    omega
  have ha := h.laid.range (.indirect i) hind
  change nmeta ≤ (node i).indirect.toNat ∧ (node i).indirect.toNat < s.freeblock at ha
  have hlen := h.length
  constructor
  · intro k _
    rfl
  · exact ⟨_, rfl⟩
  · refine h.laid.add_piece (by omega) hhi hfree hind hnot fun u => ?_
    constructor
    · rintro (hu | hu | ⟨-, rfl⟩)
      · exact .inl hu
      · exact .inr hu
      · exact .inl hind
    · rintro (hu | hu)
      · exact .inl hu
      · exact .inr (.inl hu)
  · exact h.filled.piece h.laid (fun _ hu => hu) (by omega) hfree hind hnot
  · rw [ptr_setWord _ (h.laid.indirect_ne_zero.2 hind) (by omega) hfree, if_pos rfl]
  · change max s.length _ = s.length
    rw [hlen]
    change max 1000 _ = 1000
    change s.freeblock < 1000 at hroom
    omega
  · rfl
  · intro b hb
    exact upd_of_ne _ _ _ (by omega)
  · dsimp only
    rw [blocksFor_new hmod (by omega)]
    omega

/-- The first of the later pieces: a block for the block numbers, and one for the piece. -/
theorem Ready.first (h : Files s node content) (hlen : (content i).length = 12288)
    (hroom : s.freeblock + 1 < FSSIZE) :
    Ready s
      { s with
        freeblock := s.freeblock + 1 + 1
        img := upd s.img s.freeblock (setWord (s.img s.freeblock) 0 4 (s.freeblock + 1))
        length := max s.length (s.freeblock + 1) } node
      (upd node i (setAddr (node i) 12 s.freeblock)) content i (s.freeblock + 1) := by
  change s.freeblock + 1 < 1000 at hroom
  have hnotind : ¬needs content (.indirect i) := by
    change ¬12288 < _
    omega
  have hnot : ¬needs content (.data i 12) := by
    change ¬1024 * 12 < _
    omega
  have hlow := h.laid.low
  have hdiv : (content i).length / 1024 = 12 := by omega
  have hmid : Laid (upd node i (setAddr (node i) 12 s.freeblock)) s.img
      (fun u => needs content u ∨ u = .indirect i) (s.freeblock + 1) :=
    h.laid.add_indirect (by omega) hnotind fun u => Iff.rfl
  have hfilled : Filled s.img (upd node i (setAddr (node i) 12 s.freeblock)) content := by
    refine h.filled.congr (fun k j _ => ?_) fun _ _ _ => rfl
    exact h.laid.block_indirect (by omega) hnotind (.data k j) (by simp)
  have haddr : (upd node i (setAddr (node i) 12 s.freeblock) i).indirect.toNat = s.freeblock := by
    have hfree : s.freeblock < 2 ^ 32 := by omega
    rw [upd_self, addrs_setAddr_indirect]
    exact UInt32.toNat_ofNat_of_lt' hfree
  have huses : ∀ u, (needs content u ∨ u = .data i ((content i).length / 1024) ∨
      12 ≤ (content i).length / 1024 ∧ u = .indirect i) ↔
      (needs content u ∨ u = .indirect i) ∨ u = .data i 12 := by
    intro u
    rw [hdiv]
    constructor
    · rintro (hu | hu | ⟨-, hu⟩)
      · exact .inl (.inl hu)
      · exact .inr hu
      · exact .inl (.inr hu)
    · rintro ((hu | hu) | hu)
      · exact .inl hu
      · exact .inr (.inr ⟨by omega, hu⟩)
      · exact .inr (.inl hu)
  have hlast := hmid.add_piece (j := 12) (by omega) (by decide) (by omega) (.inr rfl)
    (by simp [hnot]) huses
  have hbytes := hfilled.piece (j := 12) hmid (fun u hu => .inl hu) (by omega) (by omega) (.inr rfl)
    (by simp [hnot])
  rw [haddr] at hlast hbytes
  constructor
  · intro k hk
    exact upd_of_ne _ _ _ hk
  · exact ⟨_, by rw [upd_self]; rfl⟩
  · exact hlast
  · exact hbytes
  · have hptr := ptr_setWord s.img (d := upd node i (setAddr (node i) 12 s.freeblock) i)
      (b := s.freeblock + 1) (j := 12) (n := 12) (hmid.indirect_ne_zero.2 (.inr rfl)) (by omega)
      (by omega)
    rw [haddr, if_pos rfl] at hptr
    rw [hdiv]
    exact hptr
  · change max s.length _ = s.length
    rw [h.length]
    change max 1000 _ = 1000
    omega
  · rfl
  · intro b hb
    exact upd_of_ne _ _ _ (by omega)
  · dsimp only
    rw [hlen, show blocksFor (12288 + 1) = blocksFor 12288 + 2 from rfl]
    omega

theorem wp_ownBlock {d : Dinode} {k : Fin 13} {Q : Dinode × Nat → State → Prop} {E : Fail → Prop}
    (hnew : getElem d.addrs k k.isLt = 0 →
      Q (setAddr d k s.freeblock, s.freeblock) { s with freeblock := s.freeblock + 1 })
    (hold : getElem d.addrs k k.isLt ≠ 0 →
      Q (d, (getElem d.addrs k k.isLt).toNat) s) : wp (ownBlock d k) Q E s := by
  unfold ownBlock nextBlock
  rw [wp_ite]
  exact ⟨hnew, hold⟩

theorem wp_fileBlock (h : Files s node content) (hlen : (content i).length < MAXFILE * 1024)
    (hroom : s.freeblock + blocksFor ((content i).length + 1) ≤
      FSSIZE + blocksFor (content i).length) :
    wp (fileBlock (node i) ((content i).length / 1024))
      (fun r t => ∃ node', r.1 = node' i ∧ Ready s t node node' content i r.2)
      (fun _ => False) s := by
  have hpos := h.laid.pos (.data i ((content i).length / 1024)) (by
    change _ < 268
    change _ < 268 * 1024 at hlen
    omega)
  change ptr s.img (node i) ((content i).length / 1024) ≠ 0 ↔ 1024 * _ < _ at hpos
  have hfbn : (content i).length / 1024 < MAXFILE := by
    change _ < 268
    change _ < 268 * 1024 at hlen
    omega
  have hsize := h.room
  unfold fileBlock
  split
  next hlt =>
    -- one of the first pieces
    have hptr : ptr s.img (node i) ((content i).length / 1024) =
        (node i).addrs[(content i).length / 1024].toNat := by
      unfold ptr
      rw [dif_pos hlt]
    apply wp_ownBlock
    · intro hzero
      have hmod : (content i).length % 1024 = 0 := by
        by_contra hmod
        have := hpos.2 (by omega)
        rw [hptr] at this
        exact this (by simpa [← UInt32.toNat_inj] using hzero)
      refine ⟨_, ?_, Ready.direct h hmod hlt ?_⟩
      · rw [upd_self]
      · rw [blocksFor_new hmod (by omega)] at hroom
        omega
    · intro hne
      have hmod : (content i).length % 1024 ≠ 0 := by
        intro hmod
        have : ¬ptr s.img (node i) ((content i).length / 1024) ≠ 0 := by
          rw [hpos]
          omega
        rw [hptr] at this
        exact this (by simpa [← UInt32.toNat_inj] using hne)
      refine ⟨node, rfl, ?_⟩
      have := Ready.old h hmod
      rwa [hptr] at this
  next hge =>
    rw [wp_bind]
    apply wp_ownBlock
    · intro hzero
      -- the first of the later pieces
      have hnot : ¬12288 < (content i).length := by
        intro hlt
        exact h.laid.indirect_ne_zero.2 hlt hzero
      have hlen : (content i).length = 12288 := by omega
      have hroom' : s.freeblock + 1 < FSSIZE := by
        rw [hlen, show blocksFor (12288 + 1) = blocksFor 12288 + 2 from rfl] at hroom
        omega
      have hready := Ready.first h hlen hroom'
      have hblank := h.laid.zero s.freeblock (Nat.le_refl _)
      rw [wp_bind]
      apply wp_rsect
      · dsimp only
        rw [h.length]
        omega
      · dsimp only
        rw [hblank, word_zero, if_pos rfl]
        refine ⟨upd node i (setAddr (node i) 12 s.freeblock), ?_, ?_⟩
        · rw [upd_self]
        · rw [hblank] at hready
          rw [hlen]
          exact hready
    · intro hne
      have hind : needs content (.indirect i) := h.laid.indirect_ne_zero.1 hne
      have ha := (h.laid.range (.indirect i) hind).2
      change (node i).indirect.toNat < s.freeblock at ha
      have hptr : ptr s.img (node i) ((content i).length / 1024) =
          word (s.img (node i).indirect.toNat) (4 * ((content i).length / 1024 - 12)) 4 := by
        unfold ptr
        rw [dif_neg hge, if_neg (show ¬(node i).indirect = 0 from hne)]
      rw [wp_bind]
      apply wp_rsect
      · rw [h.length]
        exact Nat.lt_of_lt_of_le ha hsize
      rw [wp_ite]
      constructor
      · intro hzero
        have hmod : (content i).length % 1024 = 0 := by
          by_contra hmod
          exact hpos.2 (by omega) (hptr.trans hzero)
        change 12288 < _ at hind
        refine ⟨node, rfl, Ready.piece h hmod (by omega) hfbn ?_⟩
        rw [blocksFor_new hmod (by omega)] at hroom
        omega
      · intro hword
        have hmod : (content i).length % 1024 ≠ 0 := by
          intro hmod
          have : ¬ptr s.img (node i) ((content i).length / 1024) ≠ 0 := by
            rw [hpos]
            omega
          exact this (by rw [hptr]; exact hword)
        refine ⟨node, rfl, ?_⟩
        have := Ready.old h hmod
        rwa [hptr] at this

end

/-!
## The bytes
-/

structure Appended (s t : State) (node node' : Nat → Dinode) (content : Nat → List UInt8) (i : Nat)
    (p : List UInt8) : Prop where
  files : Files t node' (upd content i (content i ++ p))
  other : ∀ k, k ≠ i → node' k = node k
  same : ∃ addrs, node' i = { node i with addrs := addrs }
  inode : t.freeinode = s.freeinode
  low : ∀ b, b < nmeta → t.img b = s.img b
  count : t.freeblock + blocksFor (content i).length =
    s.freeblock + blocksFor ((content i).length + p.length)

section

variable {s t : State} {node node' : Nat → Dinode} {content : Nat → List UInt8} {i x : Nat}
  {p : List UInt8}

theorem Appended.none (h : Files s node content) : Appended s s node node content i [] := by
  constructor
  · rw [List.append_nil, upd_eq_self]
    exact h
  · intro k _
    rfl
  · exact ⟨_, rfl⟩
  · rfl
  · intro b _
    rfl
  · rfl

theorem Appended.trans {u : State} {node'' : Nat → Dinode} {q : List UInt8}
    (h : Appended s t node node' content i p)
    (h' : Appended t u node' node'' (upd content i (content i ++ p)) i q) :
    Appended s u node node'' content i (p ++ q) := by
  have hfiles := h'.files
  have hcount := h.count
  have hcount' := h'.count
  rw [upd_self, upd_upd, List.append_assoc] at hfiles
  rw [upd_self, List.length_append] at hcount'
  constructor
  · exact hfiles
  · intro k hk
    rw [h'.other k hk, h.other k hk]
  · obtain ⟨addrs, haddrs⟩ := h.same
    obtain ⟨addrs', haddrs'⟩ := h'.same
    exact ⟨addrs', by rw [haddrs', haddrs]⟩
  · rw [h'.inode, h.inode]
  · intro b hb
    rw [h'.low b hb, h.low b hb]
  · rw [List.length_append, ← Nat.add_assoc]
    omega

theorem needs_append (hp : p ≠ []) (hlen : (content i).length % 1024 + p.length ≤ 1024) (u : Use) :
    (needs content u ∨ u = .data i ((content i).length / 1024) ∨
      12 ≤ (content i).length / 1024 ∧ u = .indirect i) ↔ needs (upd content i (content i ++ p)) u := by
  have hpos := List.length_pos_iff.2 hp
  cases u with
  | data k j =>
    simp only [needs, Use.data.injEq, reduceCtorEq, and_false, or_false]
    by_cases hk : k = i
    · subst hk
      rw [upd_self, List.length_append]
      omega
    · rw [upd_of_ne _ _ _ hk]
      simp [hk]
  | indirect k =>
    simp only [needs, Use.indirect.injEq, reduceCtorEq, false_or]
    by_cases hk : k = i
    · subst hk
      rw [upd_self, List.length_append]
      omega
    · rw [upd_of_ne _ _ _ hk]
      simp [hk]

namespace Ready

/-- The block for the next byte is not the block of another piece, and not one of block
numbers. -/
theorem data_ne (h : Ready s t node node' content i x) {k j : Nat} (hneed : needs content (.data k j))
    (hne : ¬(k = i ∧ j = (content i).length / 1024)) : ptr t.img (node' k) j ≠ x := by
  intro heq
  have := h.laid.inj (.data k j) (.data i ((content i).length / 1024)) (.inl hneed) (.inr (.inl rfl))
    (heq.trans h.block.symm)
  cases this
  exact hne ⟨rfl, rfl⟩

theorem indirect_ne (h : Ready s t node node' content i x) (k : Nat)
    (hk : needs content (.indirect k) ∨ Use.indirect k = .data i ((content i).length / 1024) ∨
      12 ≤ (content i).length / 1024 ∧ Use.indirect k = .indirect i) :
    (node' k).indirect.toNat ≠ x := by
  intro heq
  have := h.laid.inj (.indirect k) (.data i ((content i).length / 1024)) hk (.inr (.inl rfl))
    (heq.trans h.block.symm)
  cases this

theorem filled_write (h : Ready s t node node' content i x)
    (hlen : (content i).length % 1024 + p.length ≤ 1024) (src : Bytes)
    (hsrc : ∀ j c, p[j]? = some c → src j = c) :
    Filled (upd t.img x (blit (t.img x) ((content i).length % 1024) p.length src)) node'
      (upd content i (content i ++ p)) := by
  intro k off c hc
  rw [h.laid.ptr_write h.indirect_ne]
  by_cases hk : k = i
  · subst hk
    rw [upd_self] at hc
    by_cases hold : off < (content k).length
    · rw [List.getElem?_append_left hold] at hc
      have hbyte := h.filled k off c hc
      by_cases hlast : off / 1024 = (content k).length / 1024
      · rw [hlast, h.block] at hbyte ⊢
        rw [upd_self, blit_outside (by omega)]
        exact hbyte
      · rw [upd_of_ne _ _ _ (h.data_ne (by change 1024 * _ < _; omega) fun he => hlast he.2)]
        exact hbyte
    · rw [List.getElem?_append_right (by omega)] at hc
      have hlt := (List.getElem?_eq_some_iff.1 hc).1
      have hlast : off / 1024 = (content k).length / 1024 := by omega
      rw [hlast, h.block, upd_self, blit_inside (by omega) (by omega)]
      rw [show off % 1024 - (content k).length % 1024 = off - (content k).length by omega]
      exact hsrc _ c hc
  · rw [upd_of_ne _ _ _ hk] at hc
    have hlt := (List.getElem?_eq_some_iff.1 hc).1
    rw [upd_of_ne _ _ _ (h.data_ne (by change 1024 * _ < _; omega) fun he => hk he.1)]
    exact h.filled k off c hc

theorem write (h : Ready s t node node' content i x) (hlength : s.length = FSSIZE)
    (hroom : t.freeblock ≤ FSSIZE) (hp : p ≠ [])
    (hlen : (content i).length % 1024 + p.length ≤ 1024) (src : Bytes)
    (hsrc : ∀ j c, p[j]? = some c → src j = c) :
    Appended s
      { t with
        img := upd t.img x (blit (t.img x) ((content i).length % 1024) p.length src)
        length := max t.length (x + 1) } node node' content i p := by
  have hrange := h.laid.range (.data i ((content i).length / 1024)) (.inr (.inl rfl))
  simp only [Use.block, h.block] at hrange
  have hpos := List.length_pos_iff.2 hp
  constructor
  · constructor
    · change max t.length (x + 1) = FSSIZE
      rw [h.length, hlength]
      exact Nat.max_eq_left (Nat.lt_of_lt_of_le hrange.2 hroom)
    · exact hroom
    · exact (h.laid.write hrange.2 h.indirect_ne _).congr_uses (needs_append hp hlen)
    · exact h.filled_write hlen src hsrc
  · exact h.other
  · exact h.same
  · exact h.inode
  · intro b hb
    have hne : b ≠ x := by omega
    change upd t.img x _ b = _
    rw [upd_of_ne _ _ _ hne]
    exact h.low b hb
  · rw [blocksFor_within hpos hlen]
    exact h.count

end Ready

theorem wp_iappendLoop {fuel : Nat} (h : Files s node content) (hfuel : p.length ≤ fuel)
    (hroom : s.freeblock + blocksFor ((content i).length + p.length) ≤
      FSSIZE + blocksFor (content i).length) :
    wp (iappendLoop fuel (node i) (content i).length p)
      (fun r t => r.2 = (content i).length + p.length ∧
        ∃ node', r.1 = node' i ∧ Appended s t node node' content i p)
      (fun _ => MAXFILE * 1024 < (content i).length + p.length) s := by
  induction fuel generalizing s node content p with
  | zero =>
    have hp : p = [] := List.length_eq_zero_iff.1 (by omega)
    subst hp
    exact ⟨rfl, node, rfl, .none h⟩
  | succ fuel ih =>
    unfold iappendLoop
    by_cases hp : p = []
    · subst hp
      rw [if_pos rfl]
      exact ⟨rfl, node, rfl, .none h⟩
    have hpos := List.length_pos_iff.2 hp
    rw [if_neg hp, wp_ite]
    constructor
    · intro hbig
      change 268 ≤ _ at hbig
      change 268 * 1024 < _
      omega
    intro hsmall
    change ¬268 ≤ _ at hsmall
    generalize hn : min p.length (((content i).length / 1024 + 1) * 1024 - (content i).length) = n1
    have hmono := blocksFor_mono (show (content i).length + 1 ≤ (content i).length + p.length by omega)
    rw [wp_bind]
    apply (wp_fileBlock h (by change _ < 268 * 1024; omega) (by omega)).mono
    · rintro ⟨din, x⟩ t ⟨node', rfl, hready⟩
      dsimp only at hready ⊢
      have hroom' : t.freeblock ≤ FSSIZE := by
        have := hready.count
        omega
      have hblock := (hready.laid.range (.data i ((content i).length / 1024)) (.inr (.inl rfl))).2
      simp only [Use.block, hready.block] at hblock
      rw [wp_bind]
      apply wp_rsect
      · rw [hready.length, h.length]
        omega
      rw [wp_bind]
      have htake : (p.take n1).length = n1 := by
        rw [List.length_take]
        omega
      have hne : p.take n1 ≠ [] := by
        rw [← List.length_pos_iff]
        omega
      have hsrc : ∀ j c, (p.take n1)[j]? = some c → p.getD j 0 = c := by
        intro j c hc
        have hj := (List.getElem?_eq_some_iff.1 hc).1
        rw [List.getElem?_take_of_lt (by omega)] at hc
        rw [List.getD_eq_getElem?_getD, hc]
        rfl
      have hstep := hready.write h.length hroom' hne (by omega) (fun j => p.getD j 0) hsrc
      rw [htake] at hstep
      rw [show (content i).length - (content i).length / 1024 * 1024 = (content i).length % 1024 by
        omega]
      have hsplit : p.take n1 ++ p.drop n1 = p := List.take_append_drop n1 p
      have hlen : (upd content i (content i ++ p.take n1) i).length = (content i).length + n1 := by
        rw [upd_self, List.length_append, htake]
      have hrest : (content i).length + n1 + (p.drop n1).length = (content i).length + p.length := by
        rw [List.length_drop]
        omega
      have hcount := hstep.count
      rw [htake] at hcount
      have hnext := ih hstep.files (p := p.drop n1) (by rw [List.length_drop]; omega)
        (by rw [hlen, hrest]; dsimp only at hcount ⊢; omega)
      rw [hlen, hrest] at hnext
      apply hnext.imp
      rintro r u ⟨hoff, node'', hnode, happ⟩
      have hall := hstep.trans happ
      rw [hsplit] at hall
      exact ⟨hoff, node'', hnode, hall⟩
    · intro e he
      exact he.elim

end

end Xv6.Mkfs
