import Xv6.Fs.Upkeep

/-!
# A new inode

`ialloc` stores an empty inode over one that is not in use.  No entry of the table has read that
inode, since what has been read has a type.
-/

namespace Xv6.Fs

open Lib Lib.Cmd

def freshInode (type : Int16) : Dinode where
  type := type
  major := 0
  minor := 0
  nlink := 0
  size := 0
  addrs := .replicate 13 0

theorem freshInode_block (type : Int16) (bufs : Nat → Bytes) (q : Nat) :
    (freshInode type).block bufs q = 0 := by
  unfold Dinode.block Dinode.indirect freshInode
  split
  · simp
  · simp

def State.created (s : State) (i : Nat) (type : Int16) : State :=
  s.put (s.sb.iblock i) ((freshInode type).store (s.bufs (s.sb.iblock i)) (i % 16 * 64))

section

variable {s : State} {i : Nat} (type : Int16)

theorem created_self : (s.created i type).dinode i = freshInode type := by
  unfold State.created State.dinode
  rw [put_bufs, put_sb, upd_self]
  exact load_store ..

theorem created_other {i' : Nat} (h : i' ≠ i) : (s.created i type).dinode i' = s.dinode i' := by
  unfold State.created State.dinode
  rw [put_bufs, put_sb]
  by_cases hblock : s.sb.iblock i' = s.sb.iblock i
  · rw [hblock, upd_self]
    unfold Superblock.iblock at hblock
    exact load_store_of_ne (by omega)
  · rw [upd_of_ne _ _ _ hblock]

theorem created_bytes (h : Intact s) (hi : i < s.sb.ninodes) {x : Nat} (hx : s.sb.bmapstart ≤ x) :
    (s.created i type).bufs x = s.bufs x := by
  have hblock := h.layout.inodes i hi
  unfold State.created
  rw [put_bufs, upd_of_ne]
  omega

theorem created_used (h : Intact s) (hi : i < s.sb.ninodes) (x : Nat) :
    (s.created i type).used x = s.used x := by
  unfold State.used
  rw [show (s.created i type).sb = s.sb from rfl, created_bytes type h hi (s.sb.bmapstart_le_bblock x)]

theorem created_block (h : Intact s) (hi : i < s.sb.ninodes) {i' : Nat} (hi' : i' < s.sb.ninodes)
    (q : Nat) : ((s.created i type).dinode i').block (s.created i type).bufs q =
      if i' = i then 0 else (s.dinode i').block s.bufs q := by
  by_cases hself : i' = i
  · rw [if_pos hself, hself, created_self, freshInode_block]
  · rw [if_neg hself, created_other type hself]
    apply Dinode.block_of_bytes
    intro q' hq' hne
    have hregion := (h.region i' q' hi' hq' hne).1
    unfold Superblock.nmeta at hregion
    exact created_bytes type h hi (by omega)

theorem created_file (h : Intact s) (hi : i < s.sb.ninodes) {i' : Nat} (hi' : i' < s.sb.ninodes)
    (hne : i' ≠ i) :
    (∀ j, ptr (s.created i type).bufs (s.dinode i') j = ptr s.bufs (s.dinode i') j) ∧
      (s.dinode i').content (s.created i type).bufs = (s.dinode i').content s.bufs := by
  have hptr : ∀ j, ptr (s.created i type).bufs (s.dinode i') j = ptr s.bufs (s.dinode i') j := by
    intro j
    have hblock := created_block type h hi hi' (placeOf j)
    rw [if_neg hne, created_other type hne] at hblock
    rw [ptr_eq_block, ptr_eq_block, hblock]
  refine ⟨hptr, content_congr rfl ?_⟩
  intro j hj
  have hmax : (s.dinode i').size.toNat ≤ 268 * 1024 := h.size i' hi'
  have hthere := h.full i' hi' j hj
  refine ⟨hptr j, created_bytes type h hi ?_⟩
  rw [ptr_eq_block] at hthere ⊢
  have hregion := (h.region i' _ hi' (placeOf_lt (by omega)) hthere).1
  unfold Superblock.nmeta at hregion
  omega

theorem Intact.created (h : Intact s) (hi : i < s.sb.ninodes) (hfree : (s.dinode i).type = 0) :
    Intact (s.created i type) := by
  have hblock := fun {i'} (hi' : i' < s.sb.ninodes) q => created_block type h hi hi' q
  have hnot : ∀ k, Held s k → (s.inode k).inum ≠ i := by
    intro k hk heq
    apply h.typed k hk
    rw [h.coherent k hk, heq, hfree]
  constructor
  · exact h.layout
  · exact h.root
  · intro x hx
    rw [created_used type h hi]
    exact h.metaUsed x hx
  · intro i' q hi' hq
    rw [hblock hi']
    by_cases hself : i' = i
    · rw [if_pos hself]
      exact fun hne => absurd rfl hne
    · rw [if_neg hself]
      exact h.region i' q hi' hq
  · intro i' q hi' hq
    rw [hblock hi', created_used type h hi]
    by_cases hself : i' = i
    · rw [if_pos hself]
      exact fun hne => absurd rfl hne
    · rw [if_neg hself]
      exact h.used i' q hi' hq
  · intro i₁ q₁ i₂ q₂ hi₁ hq₁ hi₂ hq₂
    rw [hblock hi₁, hblock hi₂]
    by_cases hself : i₁ = i
    · rw [if_pos hself]
      exact fun hne => absurd rfl hne
    · rw [if_neg hself]
      intro hne heq
      by_cases hself₂ : i₂ = i
      · rw [if_pos hself₂] at heq
        exact absurd heq hne
      · rw [if_neg hself₂] at heq
        exact h.distinct i₁ q₁ i₂ q₂ hi₁ hq₁ hi₂ hq₂ hne heq
  · intro i' hi'
    by_cases hself : i' = i
    · rw [hself, created_self]
      intro j hj
      change j < (0 + 1023) / 1024 at hj
      omega
    · rw [created_other type hself]
      intro j hj
      rw [(created_file type h hi hi' hself).1]
      exact h.full i' hi' j hj
  · intro i' hi'
    by_cases hself : i' = i
    · rw [hself, created_self]
      exact Nat.zero_le _
    · rw [created_other type hself]
      exact h.size i' hi'
  · intro i' hi'
    by_cases hself : i' = i
    · rw [hself, created_self]
      intro _ e he
      change 16 * e + 16 ≤ 0 at he
      omega
    · rw [created_other type hself]
      intro htype e he
      rw [(created_file type h hi hi' hself).2]
      exact h.names i' hi' htype e he
  · exact h.dev
  · exact h.inum
  · intro k hk
    have hcoherent := h.coherent k hk
    rw [← created_other type (hnot k hk)] at hcoherent
    exact hcoherent
  · exact h.typed
  · exact h.unique

theorem Tight.created (ht : Tight s) (h : Intact s) (hi : i < s.sb.ninodes)
    (hfree : (s.dinode i).type = 0) : Tight (s.created i type) := by
  constructor
  · intro x hmeta hsize hx
    rw [created_used type h hi] at hx
    obtain ⟨i', q, hi', hq, heq⟩ := ht.back x hmeta hsize hx
    refine ⟨i', q, hi', hq, ?_⟩
    rw [created_block type h hi hi', if_neg, heq]
    intro hself
    rw [hself, ht.empty i q hi hq hfree] at heq
    change s.sb.nmeta ≤ x at hmeta
    unfold Superblock.nmeta at hmeta
    omega
  · intro i' q hi' hq htype
    rw [created_block type h hi hi']
    by_cases hself : i' = i
    · rw [if_pos hself]
    · rw [created_other type hself] at htype
      rw [if_neg hself]
      exact ht.empty i' q hi' hq htype

theorem ialloc_evolves (h : Intact s) (hout : 0 < s.outstanding) :
    wp (ialloc ROOTDEV type)
      (fun k t => ∃ u, Evolves (fun _ => True) s u ∧ u.inode = s.inode ∧ Referred k u t)
      (fun e => e.excluded = false) s := by
  unfold ialloc
  rw [wp_bind, wp_get]
  split
  next i hfind =>
    have hmem := List.mem_of_find?_eq_some hfind
    have hfree : (s.dinode i).type = 0 := by simpa using List.find?_some hfind
    rw [List.mem_range'_1] at hmem
    have hi : i < s.sb.ninodes := by omega
    have hcreated := h.created type hi hfree
    rw [wp_bind, wp_of_ok (update_ok hout)]
    change wp (iget ROOTDEV i) _ _ (s.created i type)
    apply (iget_evolves hcreated hi).imp
    intro k t hr
    refine ⟨s.created i type, ⟨hcreated, ?_, rfl, rfl, fun _ _ hk => hk⟩, rfl, hr⟩
    exact fun ht => ht.created type h hi hfree
  next => rfl

end

end Xv6.Fs
