import Xv6.Fs.Path
import Xv6.Lib.Transition
import Xv6.Fs.Upkeep

/-!
# Directories as finite maps

A directory is a list of entries, some of them free.  A name stands for the `DIRSIZ` bytes that
`strncpy` would store, and `namecmp` compares those.
-/

namespace Xv6.Fs

open Lib Lib.Cmd

/-!
## Entries
-/

def Dirent.Hit (name : Str) (de : Dirent) : Prop := de.inum ≠ 0 ∧ namecmp name de.name = 0

instance (name : Str) (de : Dirent) : Decidable (de.Hit name) := inferInstanceAs (Decidable (_ ∧ _))

def inumOf (entries : List Dirent) (name : Str) : Option Nat :=
  (entries.find? fun de => de.Hit name).map Dirent.inum

def Distinct (entries : List Dirent) : Prop :=
  ∀ (i j : Nat) (d e : Dirent), entries[i]? = some d → entries[j]? = some e → d.inum ≠ 0 → e.Hit d.name → i = j

section

variable {entries : List Dirent} {name : Str} {de : Dirent} {i n : Nat}

theorem strncmp_eq_zero (n : Nat) (p q : Str) : strncmp n p q = 0 ↔ strncpy n p = strncpy n q := by
  rw [← strncmp_strncpy]
  induction n generalizing p q with
  | zero => rfl
  | succ n ih =>
    rw [strncpy_succ, strncmp_cons, strncmp]
    by_cases hne : p.headD 0 ≠ 0 ∧ p.headD 0 = q.headD 0
    · rw [if_pos hne, if_pos hne, if_neg (hne.2 ▸ hne.1), ih]
    · rw [if_neg hne, if_neg hne]

theorem strncpy_strncpy (n : Nat) (p : Str) : strncpy n (strncpy n p) = strncpy n p :=
  ((strncmp_eq_zero n p _).1 ((strncmp_strncpy n p p).2 rfl)).symm

theorem hit_iff : de.Hit name ↔ de.inum ≠ 0 ∧ strncpy 14 name = strncpy 14 de.name :=
  and_congr_right fun _ => strncmp_eq_zero 14 name de.name

theorem inumOf_eq_some (hd : Distinct entries) :
    inumOf entries name = some n ↔
      ∃ (i : Nat) (de : Dirent), entries[i]? = some de ∧ de.Hit name ∧ de.inum = n := by
  constructor
  · intro h
    obtain ⟨de, hfind, hn⟩ := Option.map_eq_some_iff.1 h
    obtain ⟨i, hi⟩ := List.getElem?_of_mem (List.mem_of_find?_eq_some hfind)
    exact ⟨i, de, hi, by simpa using List.find?_some hfind, hn⟩
  · rintro ⟨i, de, hi, hhit, rfl⟩
    cases hfind : entries.find? fun de => de.Hit name with
    | none =>
      have hnot := List.find?_eq_none.1 hfind de (List.mem_of_getElem? hi)
      exact absurd hhit (by simpa using hnot)
    | some d =>
      obtain ⟨j, hj⟩ := List.getElem?_of_mem (List.mem_of_find?_eq_some hfind)
      have hfirst : d.Hit name := by simpa using List.find?_some hfind
      have hsame : de.Hit d.name :=
        hit_iff.2 ⟨hhit.1, (hit_iff.1 hfirst).2.symm.trans (hit_iff.1 hhit).2⟩
      obtain rfl := hd j i d de hj hi hfirst.1 hsame
      rw [inumOf, hfind, Option.some.inj (hj.symm.trans hi)]
      rfl

theorem getElem?_put (hi : i ≤ entries.length) (j : Nat) :
    (splice entries i [de])[j]? = if j = i then some de else entries[j]? := by
  rw [getElem?_splice hi, List.length_singleton]
  by_cases hj : j = i
  · subst hj
    rw [if_pos (by omega), if_pos rfl, Nat.sub_self]
    rfl
  · rw [if_neg (by omega), if_neg hj]

/-- An entry that has no other's name may stand anywhere. -/
theorem Distinct.put (hd : Distinct entries) (hi : i ≤ entries.length)
    (hnew : ∀ j e, j ≠ i → entries[j]? = some e → de.inum ≠ 0 → ¬e.Hit de.name) :
    Distinct (splice entries i [de]) := by
  intro a b d e ha hb hlive hhit
  rw [getElem?_put hi] at ha hb
  by_cases hai : a = i
  · by_cases hbi : b = i
    · rw [hai, hbi]
    · rw [if_pos hai, Option.some.injEq] at ha
      rw [if_neg hbi] at hb
      subst ha
      exact absurd hhit (hnew b e hbi hb hlive)
  · rw [if_neg hai] at ha
    by_cases hbi : b = i
    · rw [if_pos hbi, Option.some.injEq] at hb
      subst hb
      have hback : d.Hit de.name := hit_iff.2 ⟨hlive, (hit_iff.1 hhit).2.symm⟩
      exact absurd hback (hnew a d hai ha hhit.1)
    · rw [if_neg hbi] at hb
      exact hd a b d e ha hb hlive hhit

theorem inumOf_put (hd : Distinct entries) (hd' : Distinct (splice entries i [de]))
    (hi : i ≤ entries.length) (hold : ∀ e, entries[i]? = some e → ¬e.Hit name)
    (hnew : ¬de.Hit name) : inumOf (splice entries i [de]) name = inumOf entries name := by
  ext n
  rw [inumOf_eq_some hd, inumOf_eq_some hd']
  constructor
  · rintro ⟨j, e, hj, hhit, hn⟩
    rw [getElem?_put hi] at hj
    by_cases hji : j = i
    · rw [if_pos hji, Option.some.injEq] at hj
      exact absurd (hj ▸ hhit) hnew
    · rw [if_neg hji] at hj
      exact ⟨j, e, hj, hhit, hn⟩
  · rintro ⟨j, e, hj, hhit, hn⟩
    refine ⟨j, e, ?_, hhit, hn⟩
    rw [getElem?_put hi, if_neg, hj]
    rintro rfl
    exact hold e hj hhit

/-- A name no entry has, in place of a free entry or at the end. -/
theorem Distinct.link {inum : Nat} (hd : Distinct entries) (hi : i ≤ entries.length)
    (hfree : ∀ e, entries[i]? = some e → e.inum = 0) (habsent : ∀ e ∈ entries, ¬e.Hit name) :
    Distinct (splice entries i [⟨inum, strncpy 14 name⟩]) ∧
      ∀ x, inumOf (splice entries i [⟨inum, strncpy 14 name⟩]) x =
        if inum ≠ 0 ∧ strncpy 14 x = strncpy 14 name then some inum else inumOf entries x := by
  have hd' : Distinct (splice entries i [⟨inum, strncpy 14 name⟩]) := by
    apply hd.put hi
    intro j e _ hj _ hhit
    apply habsent e (List.mem_of_getElem? hj)
    rw [hit_iff, strncpy_strncpy] at hhit
    exact hit_iff.2 hhit
  have hnew : ∀ x, Dirent.Hit x ⟨inum, strncpy 14 name⟩ ↔
      inum ≠ 0 ∧ strncpy 14 x = strncpy 14 name := by
    intro x
    rw [hit_iff, strncpy_strncpy]
  refine ⟨hd', fun x => ?_⟩
  by_cases hx : inum ≠ 0 ∧ strncpy 14 x = strncpy 14 name
  · rw [if_pos hx, inumOf_eq_some hd']
    exact ⟨i, _, by rw [getElem?_put hi, if_pos rfl], (hnew x).2 hx, rfl⟩
  · rw [if_neg hx]
    exact inumOf_put hd hd' hi (fun e he hhit => hhit.1 (hfree e he)) (fun h => hx ((hnew x).1 h))

theorem Distinct.clear {d : Dirent} (hd : Distinct entries) (hi : entries[i]? = some d)
    (hhit : d.Hit name) (hzero : de.inum = 0) :
    Distinct (splice entries i [de]) ∧
      ∀ x, inumOf (splice entries i [de]) x =
        if strncpy 14 x = strncpy 14 name then none else inumOf entries x := by
  have hle : i ≤ entries.length := Nat.le_of_lt (List.getElem?_eq_some_iff.1 hi).1
  have hd' : Distinct (splice entries i [de]) := hd.put hle fun _ _ _ _ hlive => absurd hzero hlive
  refine ⟨hd', fun x => ?_⟩
  by_cases hx : strncpy 14 x = strncpy 14 name
  · rw [if_pos hx, Option.eq_none_iff_forall_ne_some]
    intro n hn
    obtain ⟨j, e, hj, he, -⟩ := (inumOf_eq_some hd').1 hn
    rw [getElem?_put hle] at hj
    by_cases hji : j = i
    · rw [if_pos hji, Option.some.injEq] at hj
      exact he.1 (hj ▸ hzero)
    · rw [if_neg hji] at hj
      apply hji
      apply hd j i e d hj hi he.1
      exact hit_iff.2 ⟨hhit.1, (hit_iff.1 he).2.symm.trans (hx.trans (hit_iff.1 hhit).2)⟩
  · rw [if_neg hx]
    apply inumOf_put hd hd' hle _ fun h => h.1 hzero
    intro e he hehit
    rw [Option.some.inj (he.symm.trans hi)] at hehit
    exact hx ((hit_iff.1 hehit).2.trans (hit_iff.1 hhit).2.symm)

theorem inumOf_eq_none : inumOf entries name = none ↔ ∀ e ∈ entries, ¬e.Hit name := by
  simp [inumOf]

theorem inumOf_congr {x : Str} (h : strncpy 14 x = strncpy 14 name) :
    inumOf entries x = inumOf entries name := by
  have hhit : ∀ de : Dirent, de.Hit x ↔ de.Hit name := fun de => by rw [hit_iff, hit_iff, h]
  simp only [inumOf, hhit]

/-!
## Bytes
-/

theorem dirBytes_cons (de : Dirent) (entries : List Dirent) :
    dirBytes (de :: entries) = Src.bytes (.kernel de.bytes) 16 ++ dirBytes entries := rfl

theorem splice_append {α : Type} {r l w : List α} {m off : Nat} (hr : r.length = m) :
    splice (r ++ l) (m + off) w = r ++ splice l off w := by
  subst hr
  unfold splice
  rw [List.take_length_add_append, Nat.add_assoc, List.drop_length_add_append]
  simp only [List.append_assoc]

theorem splice_dirBytes (hi : i ≤ entries.length) :
    splice (dirBytes entries) (16 * i) (Src.bytes (.kernel de.bytes) 16) =
      dirBytes (splice entries i [de]) := by
  induction entries generalizing i with
  | nil =>
    obtain rfl : i = 0 := Nat.le_zero.1 hi
    rfl
  | cons d entries ih =>
    have hlen : (Src.bytes (.kernel d.bytes) 16).length = 16 := length_bytes ..
    cases i with
    | zero =>
      have hdrop : (dirBytes (d :: entries)).drop 16 = dirBytes entries := by
        rw [dirBytes_cons, List.drop_left' hlen]
      simp only [splice, Nat.mul_zero, List.take_zero, List.nil_append, length_bytes,
        Nat.zero_add, hdrop]
      rfl
    | succ i =>
      have hrest := ih (Nat.le_of_succ_le_succ hi)
      have hstep : splice (d :: entries) (i + 1) [de] = d :: splice entries i [de] := by
        simp [splice]
      rw [hstep, dirBytes_cons, dirBytes_cons, ← hrest]
      rw [show 16 * (i + 1) = 16 + 16 * i by omega]
      exact splice_append hlen

end

/-!
## The directory of an entry
-/

/-- The inode of entry `k` is a directory with these entries, in an operation. -/
structure Directory (s : State) (k : Slot) (entries : List Dirent) : Prop where
  owned : Owned k s
  full : (s.inode k).Full s.bufs
  type : (s.inode k).type = T_DIR
  ref : 0 < (s.inode k).ref
  content : (s.inode k).content s.bufs = dirBytes entries
  max : 16 * entries.length ≤ MAXFILE * BSIZE
  stored : ∀ de ∈ entries, de.inum < 65536 ∧ de.name.length = 14
  outstanding : 0 < s.outstanding

def Grows (s : State) (k : Slot) (entries : List Dirent) : Prop :=
  16 * entries.length + 16 ≤ MAXFILE * BSIZE ∧
    s.needs k (16 * entries.length / 1024) (pieceEnd (16 * entries.length + 16)) ≤ s.free.card

def Igot (old new : Inode) : Prop :=
  new.ref = old.ref + 1 ∧
    (0 < old.ref ∧ new = { old with ref := old.ref + 1 } ∨ old.ref = 0 ∧ new.valid = false)

/-- Only entries of the inode table that are not in use differ. -/
def SameInUse (s t : State) : Prop :=
  t = { s with inode := t.inode } ∧ ∀ j, (t.inode j).ref = (s.inode j).ref ∧
    (0 < (s.inode j).ref → t.inode j = s.inode j)

/-- What the search for a name does. -/
def Searched (s : State) (k : Slot) (entries : List Dirent) (name : Str)
    (c : Cmd (Option (Slot × Nat))) : Prop :=
  (inumOf entries name = none ∧ c s = .ok (none, s)) ∨
    ∃ (i : Nat) (d : Dirent), entries[i]? = some d ∧ d.Hit name ∧
      c s =
        (do
          let ip ← iget (s.inode k).dev d.inum
          return some (ip, 16 * i)) s

section

variable {s t : State} {k : Slot} {entries : List Dirent} {name : Str} {de : Dirent} {i : Nat}

theorem needs_eq_zero {lo hi : Nat}
    (h : ∀ j, j < hi → ptr s.bufs (s.inode k).toDinode j ≠ 0) : s.needs k lo hi = 0 := by
  have hpieces : (Finset.Ico lo hi).filter (fun j => ptr s.bufs (s.inode k).toDinode j = 0) = ∅ :=
    Finset.filter_eq_empty_iff.2 fun j hj => h j (Finset.mem_Ico.1 hj).2
  rw [State.needs, hpieces, Finset.card_empty, if_neg]
  rintro ⟨hzero, hhi, -⟩
  exact h 12 hhi (ptr_no_indirect (Nat.le_refl _) hzero)

namespace Directory

theorem size (h : Directory s k entries) : (s.inode k).size.toNat = 16 * entries.length := by
  rw [← length_dirBytes, ← h.content, length_content]

theorem le (h : Directory s k entries) : (s.inode k).size.toNat ≤ 268 * 1024 := h.size ▸ h.max

theorem congr (h : Directory s k entries) (hsb : t.sb = s.sb) (hbufs : t.bufs = s.bufs)
    (hout : t.outstanding = s.outstanding) (hinum : (t.inode k).inum = (s.inode k).inum)
    (hnode : (t.inode k).toDinode = (s.inode k).toDinode) (href : 0 < (t.inode k).ref) :
    Directory t k entries where
  owned := by
    apply h.owned.congr hsb (hinum ▸ h.owned.inum) _ fun x _ => by rw [hbufs]
    intro i _
    rw [State.node, State.node, hinum, hnode, dinode_congr hsb (by rw [hbufs])]
  full := by
    rw [hnode, hbufs]
    exact h.full
  type := by
    rw [hnode]
    exact h.type
  ref := href
  content := by
    rw [hnode, hbufs]
    exact h.content
  max := h.max
  stored := h.stored
  outstanding := hout ▸ h.outstanding

theorem read (h : Directory s k entries) (hi : entries[i]? = some de) (panic : Stop) :
    readDirent k (16 * i) panic s = .ok (de, s) := by
  obtain ⟨hinum, hname⟩ := h.stored de (List.mem_of_getElem? hi)
  exact readDirent_eq (h.content ▸ h.full.readable h.le) (Nat.le_of_eq h.size.symm) hinum hname hi

/-- The search from entry `e` on, where no entry before has the name. -/
theorem dirlookupLoop_from (h : Directory s k entries) {fuel e : Nat} (he : e ≤ entries.length)
    (hfuel : entries.length < fuel + e)
    (hbefore : ∀ (j : Nat) (d : Dirent), j < e → entries[j]? = some d → ¬d.Hit name) :
    Searched s k entries name (dirlookupLoop k name fuel (16 * e)) := by
  induction fuel generalizing e with
  | zero => omega
  | succ fuel ih =>
    have hsize := h.size
    unfold Searched dirlookupLoop
    rw [bind_ok (entry_ok k)]
    by_cases hlt : e < entries.length
    · have hsome := List.getElem?_eq_getElem hlt
      rw [if_pos (by omega), bind_ok (h.read hsome _)]
      by_cases hhit : entries[e].Hit name
      · right
        exact ⟨e, _, hsome, hhit, by rw [if_neg hhit.1, if_pos hhit.2]⟩
      · have hnext := ih (e := e + 1) hlt (by omega) fun j d hj hd => by
          rcases Nat.lt_succ_iff_lt_or_eq.1 hj with hj | rfl
          · exact hbefore j d hj hd
          · exact Option.some.inj (hsome.symm.trans hd) ▸ hhit
        rw [show 16 * (e + 1) = 16 * e + 16 by omega] at hnext
        by_cases hzero : entries[e].inum = 0
        · rwa [if_pos hzero]
        · rwa [if_neg hzero, if_neg fun hcmp => hhit ⟨hzero, hcmp⟩]
    · left
      rw [if_neg (by omega), inumOf_eq_none]
      refine ⟨fun d hd => ?_, rfl⟩
      obtain ⟨j, hj⟩ := List.getElem?_of_mem hd
      exact hbefore j d (by have := (List.getElem?_eq_some_iff.1 hj).1; omega) hj

theorem dirlookup_cases (h : Directory s k entries) (name : Str) :
    Searched s k entries name (dirlookup k name) := by
  have hsize := h.size
  unfold Searched dirlookup
  rw [bind_ok (entry_ok k), if_pos h.type]
  exact h.dirlookupLoop_from (Nat.zero_le _) (by omega) fun j _ hj => absurd hj (Nat.not_lt_zero j)

/-- The first free entry, or the end. -/
theorem dirlinkLoop_from (h : Directory s k entries) {fuel e : Nat} (he : e ≤ entries.length)
    (hfuel : entries.length < fuel + e)
    (hbefore : ∀ (j : Nat) (d : Dirent), j < e → entries[j]? = some d → d.inum ≠ 0) :
    ∃ i, i ≤ entries.length ∧ dirlinkLoop k fuel (16 * e) s = .ok (16 * i, s) ∧
      (∀ d, entries[i]? = some d → d.inum = 0) ∧
      (i = entries.length → ∀ d ∈ entries, d.inum ≠ 0) := by
  induction fuel generalizing e with
  | zero => omega
  | succ fuel ih =>
    have hsize := h.size
    unfold dirlinkLoop
    rw [bind_ok (entry_ok k)]
    by_cases hlt : e < entries.length
    · have hsome := List.getElem?_eq_getElem hlt
      rw [if_pos (by omega), bind_ok (h.read hsome _)]
      by_cases hzero : entries[e].inum = 0
      · rw [if_pos hzero]
        refine ⟨e, he, rfl, fun d hd => ?_, by omega⟩
        rw [← Option.some.inj (hsome.symm.trans hd), hzero]
      · rw [if_neg hzero, show 16 * e + 16 = 16 * (e + 1) by omega]
        apply ih hlt (by omega)
        intro j d hj hd
        rcases Nat.lt_succ_iff_lt_or_eq.1 hj with hj | rfl
        · exact hbefore j d hj hd
        · exact Option.some.inj (hsome.symm.trans hd) ▸ hzero
    · rw [if_neg (by omega)]
      refine ⟨e, he, rfl, fun d hd => ?_, fun _ d hd => ?_⟩
      · exact absurd (List.getElem?_eq_some_iff.1 hd).1 hlt
      · obtain ⟨j, hj⟩ := List.getElem?_of_mem hd
        exact hbefore j d (by have := (List.getElem?_eq_some_iff.1 hj).1; omega) hj

/-- An entry is written over one that is there, or at the end if there are blocks for it. -/
theorem writeDirent_put (h : Directory s k entries) (hi : i ≤ entries.length)
    (hinum : de.inum < 65536) (hname : de.name.length = 14) (panic : Stop) :
    wp (writeDirent k (16 * i) de panic) (fun _ t => Directory t k (splice entries i [de]))
      (fun _ => i = entries.length ∧ ¬Grows s k entries) s := by
  have hsize := h.size
  have hmax : 16 * entries.length ≤ 268 * 1024 := h.max
  unfold writeDirent
  rw [wp_bind]
  by_cases hroom : 16 * i + 16 ≤ 268 * 1024
  · have hsrc : ∀ i, i < 16 → ((Src.kernel de.bytes).byte i).isSome := fun _ _ => rfl
    apply (writei_whole h.owned h.outstanding (by omega) hroom hsrc).mono
    · rintro v u ⟨rfl, t, rfl, hwrote⟩
      have hw := hwrote.written h.owned h.full h.le (by omega) hroom
      have hentry : (t.flush k (sized (16 * i + 16))).inode k = sized (16 * i + 16) (t.inode k) :=
        flush_self
      rw [if_pos (by decide), wp_pure]
      refine ⟨hw.owned, hw.full, ?_, ?_, ?_, ?_, fun d hd => ?_, hw.outstanding ▸ h.outstanding⟩
      · rw [hentry, hwrote.touched.entry]
        exact h.type
      · rw [hentry, hwrote.touched.entry]
        exact h.ref
      · rw [hw.content, h.content, splice_dirBytes hi]
      · rw [length_splice hi, List.length_singleton]
        change _ ≤ 268 * 1024
        omega
      · obtain ⟨j, hj⟩ := List.getElem?_of_mem hd
        rw [getElem?_put hi] at hj
        split at hj
        · exact Option.some.inj hj ▸ ⟨hinum, hname⟩
        · exact h.stored d (List.mem_of_getElem? hj)
    · rintro e ⟨-, hneeds⟩
      by_cases hlt : i < entries.length
      · -- Below the size no block is missing.
        have hnone : s.needs k (16 * i / 1024) (pieceEnd (16 * i + 16)) = 0 := by
          have hptr : ∀ j, j < pieceEnd (16 * i + 16) → ptr s.bufs (s.inode k).toDinode j ≠ 0 := by
            intro j hj
            apply h.full j
            unfold pieceEnd at hj
            omega
          exact needs_eq_zero hptr
        rw [hnone] at hneeds
        exact absurd hneeds (Nat.not_lt_zero _)
      · obtain rfl : i = entries.length := by omega
        exact ⟨rfl, fun hgrows => Nat.not_lt.2 hgrows.2 hneeds⟩
  · rw [wp_of_ok (writei_refused (.inr (by omega))), if_neg (by decide)]
    refine ⟨by omega, fun hgrows => hroom ?_⟩
    have hle : 16 * entries.length + 16 ≤ 268 * 1024 := hgrows.1
    omega

end Directory

/-!
## Names that are there
-/

theorem iget_igot (s : State) (dev inum : Nat) :
    (∃ ip f, iget dev inum s = .ok (ip, s.adjust ip f) ∧ (f (s.inode ip)).inum = inum ∧
      Igot (s.inode ip) (f (s.inode ip))) ∨
      (∃ e, iget dev inum s = .error e) ∧ ∀ j, (s.inode j).ref ≠ 0 := by
  obtain ⟨ip, f, hget, ⟨hpos, -, hinum, rfl⟩ | ⟨hzero, rfl⟩⟩ | hfull := iget_cases s dev inum
  · exact .inl ⟨ip, _, hget, hinum, rfl, .inl ⟨hpos, rfl⟩⟩
  · exact .inl ⟨ip, _, hget, rfl, by rw [hzero]; rfl, .inr ⟨hzero, rfl⟩⟩
  · exact .inr hfull

theorem iput_igot {ip : Slot} {f : Inode → Inode} (h : Igot (s.inode ip) (f (s.inode ip))) :
    ∃ t, iput ip (s.adjust ip f) = .ok (⟨⟩, t) ∧ SameInUse s t := by
  obtain ⟨href, hf⟩ := h
  refine ⟨(s.adjust ip f).adjust ip fun x => { x with ref := x.ref - 1 }, ?_, rfl, fun j => ?_⟩
  · unfold iput
    rw [bind_ok (entry_ok ip), State.adjust_self, if_neg]
    · rfl
    · rintro ⟨hone, hvalid, -⟩
      rcases hf with ⟨hpos, -⟩ | ⟨-, hinvalid⟩
      · omega
      · rw [hinvalid] at hvalid
        cases hvalid
  · by_cases hj : j = ip
    · subst hj
      rw [State.adjust_self, State.adjust_self]
      refine ⟨by change (f (s.inode j)).ref - 1 = _; omega, fun hpos => ?_⟩
      rcases hf with ⟨-, heq⟩ | ⟨hzero, -⟩
      · simp [heq]
      · omega
    · rw [State.adjust_of_ne _ _ hj, State.adjust_of_ne _ _ hj]
      exact ⟨rfl, fun _ => rfl⟩

theorem Directory.adjust {ip : Slot} {f : Inode → Inode} (h : Directory s k entries)
    (hf : Igot (s.inode ip) (f (s.inode ip))) : Directory (s.adjust ip f) k entries := by
  have hpos := h.ref
  by_cases hk : k = ip
  · subst hk
    obtain ⟨-, ⟨-, heq⟩ | ⟨hzero, -⟩⟩ := hf
    · have hself := (State.adjust_self s k f).trans heq
      exact h.congr rfl rfl rfl (by rw [hself]) (by rw [hself])
        (by rw [hself]; exact Int.lt_add_one_of_le (Int.le_of_lt hpos))
    · omega
  · have hsame := State.adjust_of_ne s f hk
    exact h.congr rfl rfl rfl (by rw [hsame]) (by rw [hsame]) (by rw [hsame]; exact hpos)

theorem Directory.same (h : Directory s k entries) (ht : SameInUse s t) : Directory t k entries := by
  have hk := (ht.2 k).2 h.ref
  have hs := ht.1
  exact h.congr (by rw [hs]) (by rw [hs]) (by rw [hs]) (by rw [hk]) (by rw [hk]) (hk ▸ h.ref)

/-!
## Linking and clearing
-/

/-- Clears the entry that `dirlookup` finds, as `sys_unlink` does. -/
def clearEntry (dp : Slot) (name : Str) : Cmd (Option Slot) := do
  match ← dirlookup dp name with
  | none => return none
  | some (ip, off) =>
    writeDirent dp off { inum := 0, name := List.replicate 14 0 } .unlinkWritei
    return some ip

/-- The names that a directory has now: `name` stands for `v`, the others for what they did. -/
def Renamed (t : State) (k : Slot) (entries : List Dirent) (name : Str) (v : Option Nat) : Prop :=
  ∃ entries', Directory t k entries' ∧ Distinct entries' ∧ ∀ x, inumOf entries' x =
    if strncpy 14 x = strncpy 14 name then v else inumOf entries x

theorem dirlink_present (h : Directory s k entries) (hhas : inumOf entries name ≠ none) (inum : Nat) :
    wp (dirlink k name inum) (fun r t => r = -1 ∧ SameInUse s t)
      (fun _ => ∀ j, (s.inode j).ref ≠ 0) s := by
  obtain ⟨hnone, -⟩ | ⟨i, d, -, -, hlook⟩ := h.dirlookup_cases name
  · exact absurd hnone hhas
  · unfold dirlink
    rw [wp_bind, wp, hlook, ← wp, wp_bind]
    obtain ⟨ip, f, hget, -, hf⟩ | ⟨⟨e, hget⟩, hused⟩ := iget_igot s (s.inode k).dev d.inum
    · obtain ⟨t, hput, hsame⟩ := iput_igot hf
      rw [wp_of_ok hget, wp_pure, wp_bind, wp_of_ok hput]
      exact ⟨rfl, hsame⟩
    · rw [wp, hget]
      exact hused

theorem dirlink_absent (h : Directory s k entries) (hd : Distinct entries)
    (habsent : inumOf entries name = none) (inum : Nat) :
    wp (dirlink k name inum)
      (fun r t => r = 0 ∧ Renamed t k entries name
        (if inum % 65536 = 0 then none else some (inum % 65536)))
      (fun _ => (∀ d ∈ entries, d.inum ≠ 0) ∧ ¬Grows s k entries) s := by
  have hno := inumOf_eq_none.1 habsent
  obtain ⟨-, hlook⟩ | ⟨i, d, hi, hhit, -⟩ := h.dirlookup_cases name
  · have hsize := h.size
    obtain ⟨i, hi, hloop, hfree, hlast⟩ := h.dirlinkLoop_from (Nat.zero_le _)
      (show entries.length < (s.inode k).size.toNat / 16 + 1 + 0 by omega)
      fun j _ hj => absurd hj (Nat.not_lt_zero j)
    unfold dirlink
    rw [wp_bind, wp_of_ok hlook, wp_bind, wp_of_ok (entry_ok k), wp_bind, wp_of_ok hloop, wp_bind]
    apply (h.writeDirent_put hi (Nat.mod_lt _ (by decide)) (length_strncpy 14 name) .dirlink).mono
    · intro _ t ht
      obtain ⟨hd', hnames⟩ := @Distinct.link entries name i (inum % 65536) hd hi hfree hno
      refine ⟨rfl, _, ht, hd', fun x => ?_⟩
      rw [hnames x]
      by_cases hx : strncpy 14 x = strncpy 14 name
      · by_cases hzero : inum % 65536 = 0
        · rw [if_neg fun h => h.1 hzero, if_pos hx, if_pos hzero, inumOf_congr hx, habsent]
        · rw [if_pos ⟨hzero, hx⟩, if_pos hx, if_neg hzero]
      · rw [if_neg fun h => hx h.2, if_neg hx]
    · rintro _ ⟨hend, hgrows⟩
      exact ⟨hlast hend, hgrows⟩
  · exact absurd hhit (hno d (List.mem_of_getElem? hi))

theorem clearEntry_spec (h : Directory s k entries) (hd : Distinct entries) :
    wp (clearEntry k name)
      (fun r t => (r = none ↔ inumOf entries name = none) ∧ Renamed t k entries name none)
      (fun _ => inumOf entries name ≠ none ∧ ∀ j, (s.inode j).ref ≠ 0) s := by
  unfold clearEntry
  obtain ⟨hnone, hlook⟩ | ⟨i, d, hi, hhit, hlook⟩ := h.dirlookup_cases name
  · rw [wp_bind, wp_of_ok hlook]
    refine ⟨⟨fun _ => hnone, fun _ => rfl⟩, entries, h, hd, fun x => ?_⟩
    by_cases hx : strncpy 14 x = strncpy 14 name
    · rw [if_pos hx, inumOf_congr hx, hnone]
    · rw [if_neg hx]
  · have hhas : inumOf entries name ≠ none := fun hnone =>
      inumOf_eq_none.1 hnone d (List.mem_of_getElem? hi) hhit
    rw [wp_bind, wp, hlook, ← wp, wp_bind]
    obtain ⟨ip, f, hget, -, hf⟩ | ⟨⟨e, hget⟩, hused⟩ := iget_igot s (s.inode k).dev d.inum
    · have hlt := (List.getElem?_eq_some_iff.1 hi).1
      rw [wp_of_ok hget, wp_pure, wp_bind]
      apply ((h.adjust hf).writeDirent_put (Nat.le_of_lt hlt) (by decide) rfl .unlinkWritei).mono
      · intro _ t ht
        exact ⟨⟨by simp, fun h => absurd h hhas⟩, _, ht, hd.clear hi hhit rfl⟩
      · rintro _ ⟨hend, -⟩
        omega
    · rw [wp, hget]
      exact ⟨hhas, hused⟩

inductive DirOp
  | link (name : Str) (inum : Nat)
  | clear (name : Str)

/-- The operation returns, with `t`. -/
def DirOp.Step (k : Slot) (s : State) (op : DirOp) (t : State) : Prop :=
  match op with
  | .link name inum => ∃ r, dirlink k name inum s = .ok (r, t)
  | .clear name => ∃ r, clearEntry k name s = .ok (r, t)

theorem DirOp.Step.distinct {op : DirOp} (hstep : DirOp.Step k s op t)
    (h : ∃ entries, Directory s k entries ∧ Distinct entries) :
    ∃ entries, Directory t k entries ∧ Distinct entries := by
  obtain ⟨entries, h, hd⟩ := h
  cases op with
  | link name inum =>
    obtain ⟨r, hrun⟩ := hstep
    by_cases habsent : inumOf entries name = none
    · obtain ⟨-, entries', h', hd', -⟩ := (dirlink_absent h hd habsent inum).ok hrun
      exact ⟨entries', h', hd'⟩
    · exact ⟨entries, h.same ((dirlink_present h habsent inum).ok hrun).2, hd⟩
  | clear name =>
    obtain ⟨r, hrun⟩ := hstep
    obtain ⟨-, entries', h', hd', -⟩ := (clearEntry_spec h hd).ok hrun
    exact ⟨entries', h', hd'⟩

/-- What `dirlookup` yields for a name. -/
theorem dirlookup_inumOf (h : Directory s k entries) (hd : Distinct entries) (name : Str)
    (hslot : ∃ j, (s.inode j).ref = 0) :
    ∃ r t, dirlookup k name s = .ok (r, t) ∧
      r.map (fun p => (t.inode p.1).inum) = inumOf entries name := by
  obtain ⟨hnone, hlook⟩ | ⟨i, d, hi, hhit, hlook⟩ := h.dirlookup_cases name
  · exact ⟨none, s, hlook, hnone.symm⟩
  · obtain ⟨ip, f, hget, hinum, -⟩ | ⟨-, hused⟩ := iget_igot s (s.inode k).dev d.inum
    · rw [bind_ok hget] at hlook
      refine ⟨_, _, hlook, ?_⟩
      rw [(inumOf_eq_some hd).2 ⟨i, d, hi, hhit, rfl⟩, Option.map_some, State.adjust_self, hinum]
    · obtain ⟨j, hj⟩ := hslot
      exact absurd hj (hused j)

end

/-!
## An empty directory
-/

def emptyDir : State := oneFile.adjust 0 fun ip => { ip with type := T_DIR }

theorem emptyDir_entry : emptyDir.inode 0 = { oneFile.inode 0 with type := T_DIR } :=
  State.adjust_self ..

theorem emptyDir_size : (emptyDir.inode 0).size.toNat = 0 := by
  rw [emptyDir_entry]
  change (oneFile.inode 0).toDinode.size.toNat = 0
  rw [oneFile_entry]
  rfl

theorem directory_emptyDir : Directory emptyDir 0 [] where
  owned := by
    apply owned_oneFile.congr (t := emptyDir) rfl
    · rw [emptyDir_entry]
      exact owned_oneFile.inum
    · intro i _
      rw [State.node, State.node, emptyDir_entry]
      split
      · rfl
      · rfl
    · exact fun _ _ => rfl
  full j hj := by
    rw [emptyDir_size] at hj
    omega
  type := by rw [emptyDir_entry]
  ref := by
    rw [emptyDir_entry]
    exact oneFile_held.1
  content := List.eq_nil_of_length_eq_zero (length_content.trans emptyDir_size)
  max := Nat.zero_le _
  stored := nofun
  outstanding := oneFile_outstanding

theorem grows_emptyDir : Grows emptyDir 0 [] := by
  refine ⟨by decide, Nat.le_trans (needs_le ..) ?_⟩
  change _ ≤ oneFile.free.card
  rw [card_free_oneFile]
  decide

end Xv6.Fs
