import Xv6.Fs.Dinode
import Xv6.Fs.Refs
import Xv6.Fs.UserMem

/-!
# Reading a file without holes

`readi` and `dirlookup` on a file whose blocks are there: they change nothing, and return
what the blocks have.
-/

namespace Xv6.Fs

open Lib Lib.Cmd

/-!
## The destination
-/

/-- Byte `i` of the destination, if it is mapped. -/
def Dst.byte : Dst → Nat → Option UInt8
  | user mem addr, i => mem.byte (addr + i)
  | kernel bytes, i => some (bytes i)

inductive Dst.Got (tot m : Nat) (f : Nat → UInt8) : Dst → Dst → Prop
  | user {mem mem' : UserMem} {addr : Nat}
      (h : ∀ va, mem'.byte va = if addr + tot ≤ va ∧ va < addr + tot + m
        then some (f (va - (addr + tot))) else mem.byte va) : Got tot m f (.user mem addr) (.user mem' addr)
  | kernel {b : Bytes} : Got tot m f (.kernel b) (.kernel (blit b tot m f))

section

variable {dst dst' dst'' : Dst} {tot m m' i : Nat} {f g : Nat → UInt8} {b : Bytes}

namespace Dst.Got

theorem none : Got tot 0 f dst dst := by
  cases dst with
  | user mem addr =>
    apply Got.user
    intro va
    rw [if_neg (by omega)]
  | kernel b =>
    have hsame : blit b tot 0 f = b := by
      funext i
      exact blit_outside (by omega)
    have hgot : Got tot 0 f (.kernel b) (.kernel (blit b tot 0 f)) := .kernel
    rwa [hsame] at hgot

theorem eq_blit (h : Got tot m f (.kernel b) dst') : dst' = .kernel (blit b tot m f) := by
  cases h with
  | kernel => rfl

theorem congr (h : Got tot m f dst dst') (heq : ∀ i, i < m → f i = g i) : Got tot m g dst dst' := by
  cases h with
  | @user mem mem' addr h =>
    apply Got.user
    intro va
    rw [h va]
    by_cases hin : addr + tot ≤ va ∧ va < addr + tot + m
    · rw [if_pos hin, if_pos hin, heq _ (by omega)]
    · rw [if_neg hin, if_neg hin]
  | @kernel b =>
    have hsame : blit b tot m f = blit b tot m g := by
      funext i
      by_cases hin : tot ≤ i ∧ i < tot + m
      · rw [blit_inside hin.1 hin.2, blit_inside hin.1 hin.2, heq _ (by omega)]
      · rw [blit_outside (by omega), blit_outside (by omega)]
    rw [hsame]
    exact .kernel

theorem mapped (h : Got tot m f dst dst') (hmapped : (dst.byte i).isSome) : (dst'.byte i).isSome := by
  cases h with
  | user h =>
    unfold Dst.byte at hmapped ⊢
    dsimp only at hmapped ⊢
    rw [h]
    split
    · rfl
    · exact hmapped
  | kernel => rfl

theorem trans (h : Got tot m f dst dst') (h' : Got (tot + m) m' (fun j => f (m + j)) dst' dst'') :
    Got tot (m + m') f dst dst'' := by
  cases h with
  | @user mem mem' addr h =>
    cases h' with
    | user h' =>
      apply Got.user
      intro va
      rw [h' va, h va]
      by_cases hlast : addr + (tot + m) ≤ va ∧ va < addr + (tot + m) + m'
      · rw [if_pos hlast, if_pos (by omega)]
        congr 2
        omega
      · rw [if_neg hlast]
        by_cases hfirst : addr + tot ≤ va ∧ va < addr + tot + m
        · rw [if_pos hfirst, if_pos (by omega)]
        · rw [if_neg hfirst, if_neg (by omega)]
  | @kernel b =>
    rw [h'.eq_blit, blit_blit]
    exact .kernel

end Dst.Got

theorem eitherCopyout_got (d : Bytes) (o : Nat)
    (h : ∀ i, tot ≤ i → i < tot + m → (dst.byte i).isSome) :
    (eitherCopyout dst tot d o m).2 = true ∧
      dst.Got tot m (fun j => d (o + j)) (eitherCopyout dst tot d o m).1 := by
  cases dst with
  | user mem addr =>
    have hmapped : ∀ i, i < m → (mem.byte (addr + tot + i)).isSome := by
      intro i hi
      rw [Nat.add_assoc]
      exact h (tot + i) (by omega) (by omega)
    obtain ⟨hok, hbyte⟩ := copyout_byte d o (Nat.lt_succ_self m) hmapped
    exact ⟨hok, .user hbyte⟩
  | kernel b => exact ⟨rfl, .kernel⟩

end

/-!
## The file
-/

def Readable (s : State) (k : Slot) (content : List UInt8) : Prop :=
  ∀ o c, content[o]? = some c → o / 1024 < 268 ∧
    ptr s.bufs (s.inode k).toDinode (o / 1024) ≠ 0 ∧
    s.bufs (ptr s.bufs (s.inode k).toDinode (o / 1024)) (o % 1024) = c

section

variable {s : State} {k : Slot} {content : List UInt8}

theorem bmapOwn_mapped {i : Fin 13} (h : getElem (s.inode k).addrs i i.isLt ≠ 0) :
    bmapOwn k i s = .ok ((getElem (s.inode k).addrs i i.isLt).toNat, s) := by
  unfold bmapOwn
  rw [bind_ok (a := s.inode k) (t := s) rfl, if_neg h]
  rfl

theorem bmap_mapped {j : Nat} (hj : j < 268) (h : ptr s.bufs (s.inode k).toDinode j ≠ 0) :
    bmap k j s = .ok (ptr s.bufs (s.inode k).toDinode j, s) := by
  unfold ptr at h ⊢
  unfold bmap
  by_cases hlt : j < 12
  · rw [dif_pos hlt] at h ⊢
    rw [dif_pos hlt]
    apply bmapOwn_mapped
    intro hzero
    apply h
    simpa [← UInt32.toNat_inj] using hzero
  · rw [dif_neg hlt] at h ⊢
    rw [dif_neg hlt, if_pos (by omega)]
    by_cases hind : (s.inode k).indirect = 0
    · rw [if_pos hind] at h
      exact absurd rfl h
    · rw [if_neg hind] at h ⊢
      rw [bind_ok (bmapOwn_mapped (i := 12) hind), bind_ok (a := s.bufs _) (t := s) rfl]
      have hword : word (s.bufs (s.inode k).addrs[(12 : Fin 13)].toNat) (4 * (j - 12)) 4 ≠ 0 := h
      rw [if_neg hword]
      rfl

theorem readiLoop_got (h : Readable s k content) {n fuel tot off : Nat} {dst : Dst} (htot : tot ≤ n)
    (hfuel : n ≤ fuel + tot) (hlen : off + (n - tot) ≤ content.length)
    (hmapped : ∀ i, tot ≤ i → i < n → (dst.byte i).isSome) :
    ∃ dst', dst.Got tot (n - tot) (fun j => content.getD (off + j) 0) dst' ∧
      readiLoop k n fuel tot off dst s = .ok (((n : Int), dst'), s) := by
  induction fuel generalizing tot off dst with
  | zero =>
    have heq : tot = n := by omega
    subst heq
    rw [Nat.sub_self]
    exact ⟨dst, .none, rfl⟩
  | succ fuel ih =>
    unfold readiLoop
    by_cases hlt : tot < n
    · rw [if_pos hlt]
      obtain ⟨hj, hne, -⟩ := h off content[off] (List.getElem?_eq_getElem (by omega))
      generalize hm : min (n - tot) (1024 - off % 1024) = m
      rw [bind_ok (bmap_mapped hj hne), bind_ok (a := s.bufs _) (t := s) rfl]
      have hnow : ∀ i, tot ≤ i → i < tot + m → (dst.byte i).isSome := by
        intro i hi hi'
        exact hmapped i hi (by omega)
      obtain ⟨hcopy, hgot⟩ := eitherCopyout_got
        (s.bufs (ptr s.bufs (s.inode k).toDinode (off / 1024))) (off % 1024) hnow
      rw [if_pos hcopy]
      have hbytes : ∀ i, i < m → s.bufs (ptr s.bufs (s.inode k).toDinode (off / 1024))
          (off % 1024 + i) = content.getD (off + i) 0 := by
        intro i hi
        have hsome := List.getElem?_eq_getElem (l := content) (i := off + i) (by omega)
        obtain ⟨-, -, hbyte⟩ := h _ _ hsome
        have hdiv : (off + i) / 1024 = off / 1024 := by omega
        have hmod : (off + i) % 1024 = off % 1024 + i := by omega
        rw [hdiv, hmod] at hbyte
        rw [hbyte, List.getD_eq_getElem?_getD, hsome, Option.getD_some]
      have hpiece := hgot.congr hbytes
      obtain ⟨dst', hrest, hloop⟩ := @ih (tot + m) (off + m) _ (by omega) (by omega) (by omega)
        fun i hi hi' => hpiece.mapped (hmapped i (by omega) hi')
      refine ⟨dst', ?_, hloop⟩
      simp only [Nat.add_assoc] at hrest
      have hboth := hpiece.trans hrest
      rwa [show m + (n - (tot + m)) = n - tot by omega] at hboth
    · have heq : tot = n := by omega
      subst heq
      rw [if_neg hlt, Nat.sub_self]
      exact ⟨dst, .none, rfl⟩

theorem readi_got (h : Readable s k content) (hsize : (s.inode k).size.toNat = content.length)
    {off n : Nat} {dst : Dst} (hoff : off ≤ content.length) (hn : off + n < 2 ^ 32)
    (hmapped : ∀ i, i < min n (content.length - off) → (dst.byte i).isSome) :
    ∃ dst', dst.Got 0 (min n (content.length - off)) (fun j => content.getD (off + j) 0) dst' ∧
      readi k dst off n s = .ok (((min n (content.length - off) : Nat), dst'), s) := by
  unfold readi
  rw [bind_ok (a := s.inode k) (t := s) rfl, hsize, if_neg (by omega)]
  have hmin : (if content.length < off + n then content.length - off else n) =
      min n (content.length - off) := by
    split <;> omega
  rw [hmin]
  have hlen : off + (min n (content.length - off) - 0) ≤ content.length := by omega
  exact readiLoop_got h (Nat.zero_le _) (Nat.le_refl _) hlen fun i _ => hmapped i

theorem readi_eq (h : Readable s k content) (hsize : content.length ≤ (s.inode k).size.toNat)
    {off n : Nat} {b : Bytes} (hlen : off + n ≤ content.length) :
    readi k (.kernel b) off n s =
      .ok (((n : Int), .kernel (blit b 0 n fun j => content.getD (off + j) 0)), s) := by
  have hlt := (s.inode k).size.toNat_lt
  unfold readi
  rw [bind_ok (a := s.inode k) (t := s) rfl, if_neg (by omega)]
  rw [if_neg (by omega)]
  obtain ⟨dst', hgot, hloop⟩ := @readiLoop_got s k content h n n 0 off (.kernel b) (Nat.zero_le n)
    (Nat.le_refl _) hlen fun _ _ _ => rfl
  rw [hloop, hgot.eq_blit]
  rfl

theorem readi_end (h : Readable s k content) (hsize : (s.inode k).size.toNat = content.length)
    {off n : Nat} {b : Bytes} (hoff : off ≤ content.length) (hn : off + n < 2 ^ 32) :
    readi k (.kernel b) off n s =
      .ok (((min n (content.length - off) : Nat), .kernel
        (blit b 0 (min n (content.length - off)) fun j => content.getD (off + j) 0)), s) := by
  obtain ⟨dst', hgot, hread⟩ := @readi_got s k content h hsize off n (.kernel b) hoff hn
    fun _ _ => rfl
  rw [hread, hgot.eq_blit]

/-!
## Directories
-/

def dirBytes (entries : List Dirent) : List UInt8 :=
  (entries.map fun de => (List.range 16).map de.bytes).flatten

theorem length_dirBytes (entries : List Dirent) : (dirBytes entries).length = 16 * entries.length := by
  induction entries with
  | nil => rfl
  | cons de entries ih =>
    simp only [dirBytes, List.map_cons, List.flatten_cons, List.length_append, List.length_map,
      List.length_range, List.length_cons] at ih ⊢
    omega

theorem dirBytes_getD {entries : List Dirent} {e : Nat} {de : Dirent} (he : entries[e]? = some de)
    {j : Nat} (hj : j < 16) : (dirBytes entries).getD (16 * e + j) 0 = de.bytes j := by
  induction entries generalizing e with
  | nil => simp at he
  | cons de' entries ih =>
    have hcons : dirBytes (de' :: entries) = (List.range 16).map de'.bytes ++ dirBytes entries := rfl
    rw [hcons, List.getD_eq_getElem?_getD]
    cases e with
    | zero =>
      cases he
      rw [List.getElem?_append_left (by simp; omega)]
      simp [hj]
    | succ e =>
      rw [List.getElem?_append_right (by simp; omega), ← List.getD_eq_getElem?_getD, ← ih he]
      congr 1
      simp
      omega

/-- The entries are those that directory entries can have. -/
def Proper (entries : List Dirent) : Prop :=
  ∀ de ∈ entries, 0 < de.inum ∧ de.inum < 65536 ∧ de.name.length = 14

theorem readDirent_eq {entries : List Dirent} {e : Nat} {de : Dirent} {panic : Stop}
    (h : Readable s k (dirBytes entries)) (hsize : 16 * entries.length ≤ (s.inode k).size.toNat)
    (hinum : de.inum < 65536) (hname : de.name.length = 14) (he : entries[e]? = some de) :
    readDirent k (16 * e) panic s = .ok (de, s) := by
  have hlt := (List.getElem?_eq_some_iff.1 he).1
  have hlen := length_dirBytes entries
  have hload : Dirent.load (blit (fun _ => 0) 0 16 fun j => (dirBytes entries).getD (16 * e + j) 0) =
      de := by
    apply load_bytes hinum hname
    intro j hj
    rw [blit_inside (Nat.zero_le _) (by omega), Nat.sub_zero]
    exact dirBytes_getD he hj
  unfold readDirent
  rw [bind_ok (readi_eq h (by omega) (n := 16) (by omega))]
  change Except.ok (Dirent.load _, s) = _
  rw [hload]

theorem dirlookupLoop_eq {entries : List Dirent} {name : Str} {m : Nat} {de : Dirent}
    (h : Readable s k (dirBytes entries)) (hsize : 16 * entries.length ≤ (s.inode k).size.toNat)
    (hproper : Proper entries) (hm : entries[m]? = some de) (hname : namecmp name de.name = 0)
    (hfirst : ∀ e de', e < m → entries[e]? = some de' → namecmp name de'.name ≠ 0) {fuel e : Nat}
    (he : e ≤ m) (hfuel : m < fuel + e) :
    dirlookupLoop k name fuel (16 * e) s =
      (do
        let ip ← iget (s.inode k).dev de.inum
        return some (ip, 16 * m)) s := by
  have hlt := (List.getElem?_eq_some_iff.1 hm).1
  induction fuel generalizing e with
  | zero => omega
  | succ fuel ih =>
    have hsome := List.getElem?_eq_getElem (l := entries) (i := e) (by omega)
    obtain ⟨hinum, hsmall, hlen⟩ := hproper _ (List.mem_of_getElem? hsome)
    unfold dirlookupLoop
    rw [bind_ok (a := s.inode k) (t := s) rfl, if_pos (by omega),
      bind_ok (readDirent_eq h hsize hsmall hlen hsome), if_neg (by omega)]
    by_cases heq : e = m
    · subst heq
      have hde : entries[e] = de := Option.some.inj (hsome.symm.trans hm)
      rw [hde, if_pos hname]
    · rw [if_neg (hfirst e _ (by omega) hsome), show 16 * e + 16 = 16 * (e + 1) by omega]
      exact ih (by omega) (by omega)

theorem dirlookup_eq {entries : List Dirent} {name : Str} {m : Nat} {de : Dirent}
    (htype : (s.inode k).type = T_DIR)
    (h : Readable s k (dirBytes entries)) (hsize : 16 * entries.length ≤ (s.inode k).size.toNat)
    (hproper : Proper entries) (hm : entries[m]? = some de) (hname : namecmp name de.name = 0)
    (hfirst : ∀ e de', e < m → entries[e]? = some de' → namecmp name de'.name ≠ 0) :
    dirlookup k name s =
      (do
        let ip ← iget (s.inode k).dev de.inum
        return some (ip, 16 * m)) s := by
  have hlt := (List.getElem?_eq_some_iff.1 hm).1
  unfold dirlookup
  rw [bind_ok (a := s.inode k) (t := s) rfl, if_pos htype]
  exact dirlookupLoop_eq h hsize hproper hm hname hfirst (e := 0) (Nat.zero_le _) (by omega)

/-!
## Names
-/

theorem length_strncpy (n : Nat) (p : Str) : (strncpy n p).length = n := by
  induction n generalizing p with
  | zero => rfl
  | succ n ih =>
    cases p with
    | nil => simp [strncpy]
    | cons c p =>
      unfold strncpy
      split
      · simp
      · simp [ih]

theorem strncpy_succ (n : Nat) (p : Str) :
    strncpy (n + 1) p = p.headD 0 :: strncpy n (if p.headD 0 = 0 then [] else p.tail) := by
  have hzero : List.replicate (n + 1) 0 = 0 :: strncpy n [] := by
    cases n with
    | zero => rfl
    | succ n => rfl
  cases p with
  | nil => exact hzero
  | cons c p =>
    change (if c = 0 then List.replicate (n + 1) 0 else c :: strncpy n p) =
      c :: strncpy n (if c = 0 then [] else p)
    by_cases hc : c = 0
    · rw [if_pos hc, if_pos hc, hc, hzero]
    · rw [if_neg hc, if_neg hc]

theorem strncmp_cons (n : Nat) (p : Str) (d : UInt8) (q : Str) :
    strncmp (n + 1) p (d :: q) = if p.headD 0 ≠ 0 ∧ p.headD 0 = d then strncmp n p.tail q
      else (p.headD 0).toNat - d.toNat := rfl

/-- A name compares equal to a stored one if and only if it would be stored so. -/
theorem strncmp_strncpy (n : Nat) (p q : Str) :
    strncmp n p (strncpy n q) = 0 ↔ strncpy n p = strncpy n q := by
  induction n generalizing p q with
  | zero => simp [strncmp, strncpy]
  | succ n ih =>
    have hdiff : ((p.headD 0).toNat : Int) - (q.headD 0).toNat = 0 ↔ p.headD 0 = q.headD 0 := by
      rw [← UInt8.toNat_inj]
      omega
    rw [strncpy_succ n p, strncpy_succ n q, strncmp_cons, List.cons.injEq]
    by_cases hne : p.headD 0 ≠ 0 ∧ p.headD 0 = q.headD 0
    · have hq : q.headD 0 ≠ 0 := hne.2 ▸ hne.1
      rw [if_pos hne, if_neg hne.1, if_neg hq, ih]
      exact ⟨fun h => ⟨hne.2, h⟩, fun h => h.2⟩
    · rw [if_neg hne, hdiff]
      constructor
      · intro heq
        have hp : p.headD 0 = 0 := by
          by_contra hp
          exact hne ⟨hp, heq⟩
        exact ⟨heq, by rw [if_pos hp, if_pos (heq ▸ hp)]⟩
      · exact fun h => h.1

/-!
## The inode table
-/

/-- `iget` takes an entry in use for the inode, or an empty one, if there is one. -/
theorem iget_cases (s : State) (dev inum : Nat) :
    (∃ k f, iget dev inum s = .ok (k, s.adjust k f) ∧
      ((0 < (s.inode k).ref ∧ (s.inode k).dev = dev ∧ (s.inode k).inum = inum ∧
          f = fun ip => { ip with ref := ip.ref + 1 }) ∨
        ((s.inode k).ref = 0 ∧
          f = fun ip => { ip with dev := dev, inum := inum, ref := 1, valid := false }))) ∨
      (∃ e, iget dev inum s = .error e) ∧ ∀ j, (s.inode j).ref ≠ 0 := by
  unfold iget
  rw [bind_ok (a := s) (t := s) rfl]
  cases hfind : s.find dev inum with
  | some k =>
    obtain ⟨href, hdev, hinum⟩ := State.find_some hfind
    exact .inl ⟨k, _, rfl, .inl ⟨href, hdev, hinum, rfl⟩⟩
  | none =>
    cases hslot : s.empty with
    | some k => exact .inl ⟨k, _, rfl, .inr ⟨State.empty_some hslot, rfl⟩⟩
    | none =>
      refine .inr ⟨⟨_, rfl⟩, fun j => ?_⟩
      simpa using List.find?_eq_none.1 hslot j (List.mem_finRange j)

theorem ilock_ok (href : 0 < (s.inode k).ref) (hlocked : (s.inode k).locked = false)
    (hvalid : (s.inode k).valid = true → (s.inode k).toDinode = s.dinode (s.inode k).inum)
    (htype : (s.dinode (s.inode k).inum).type ≠ 0) :
    ∃ u, ilock k s = .ok (⟨⟩, u) ∧ u.bufs = s.bufs ∧ u.sb = s.sb ∧
      (u.inode k).toDinode = s.dinode (s.inode k).inum := by
  have hacquire : acquiresleep k s = .ok (⟨⟩, s.adjust k fun ip => { ip with locked := true }) := by
    unfold acquiresleep
    rw [bind_ok (a := s.inode k) (t := s) rfl, if_neg (by simp [hlocked])]
    rfl
  unfold ilock
  rw [bind_ok (a := s.inode k) (t := s) rfl, if_neg (by omega), bind_ok hacquire]
  by_cases hv : (s.inode k).valid = true
  · rw [if_pos hv]
    refine ⟨_, rfl, rfl, rfl, ?_⟩
    rw [State.adjust_self]
    exact hvalid hv
  · rw [if_neg hv]
    refine ⟨(s.adjust k fun ip => { ip with locked := true }).adjust k fun ip =>
      { ip with toDinode := s.dinode ip.inum, valid := true }, ?_, rfl, rfl, ?_⟩
    · rw [bind_ok (a := ⟨⟩) (t := (s.adjust k fun ip => { ip with locked := true }).adjust k fun ip =>
        { ip with toDinode := s.dinode ip.inum, valid := true }) rfl,
        bind_ok (c := entry k) (a := _) rfl]
      rw [State.adjust_self, State.adjust_self, if_neg htype]
      rfl
    · rw [State.adjust_self, State.adjust_self]

end

end Xv6.Fs
