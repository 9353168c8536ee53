import Xv6.Fs.UserMem
import Xv6.Vm.Unmap

/-!
# User memory through a page table

What a page table shows to the user is a memory of pages.  `copyout` and `copyin` go through the
page table page by page, and are the copies to and from that memory; `copyinstr` stops at a NUL.
-/

namespace Xv6.Vm

open Lib Lib.Cmd Fs

def userPage (mem : Nat → Bytes) (pt va : Nat) : Option Nat :=
  if va < MAXVA then ((lookup mem pt va).filter fun e => e &&& PTE_U ≠ 0).map PTE2PA else none

def view (s : State) (pt : Nat) : UserMem := fun n => (userPage s.mem pt (n * 4096)).map s.mem

/-- The address is below `MAXVA`, on a page that is mapped with `PTE_V` and `PTE_U`. -/
def UserMapped (mem : Nat → Bytes) (pt va : Nat) : Prop :=
  va < MAXVA ∧ ∃ e, lookup mem pt va = some e ∧ e &&& PTE_U ≠ 0

def Nonzero (s : State) (pt : Nat) : Prop := ∀ va pa, userPage s.mem pt va = some pa → pa ≠ 0

/-- Besides, they are distinct, and apart from the pages of the table. -/
structure UserPages (s : State) (pt : Nat) : Prop where
  pos : Nonzero s pt
  apart : ∀ va pa, userPage s.mem pt va = some pa → pa ∉ pages s.mem 2 pt
  inj : ∀ va va' pa, userPage s.mem pt va = some pa → userPage s.mem pt va' = some pa →
    va / 4096 = va' / 4096

section View

variable {s t : State} {mem mem' : Nat → Bytes} {pt va va' pa : Nat}

theorem userPage_page (h : va' / 4096 = va / 4096) : userPage mem pt va' = userPage mem pt va := by
  have hiff : va' < MAXVA ↔ va < MAXVA := by
    change va' < 274877906944 ↔ va < 274877906944
    omega
  simp only [userPage, lookup_page h, hiff]

theorem userPage_isSome : (userPage mem pt va).isSome ↔ UserMapped mem pt va := by
  unfold userPage UserMapped
  by_cases hva : va < MAXVA
  · rw [if_pos hva]
    cases lookup mem pt va with
    | none => simp
    | some e => by_cases he : e &&& PTE_U = 0 <;> simp [hva, he]
  · rw [if_neg hva]
    simp [hva]

theorem view_byte (s : State) (pt va : Nat) :
    (view s pt).byte va = (userPage s.mem pt va).map fun pa => s.mem pa (va % 4096) := by
  have hpage : userPage s.mem pt (va / 4096 * 4096) = userPage s.mem pt va := by
    apply userPage_page
    rw [Nat.mul_div_cancel _ (by decide)]
  rw [UserMem.byte, view, hpage, Option.map_map]
  rfl

theorem view_isSome : ((view s pt).byte va).isSome ↔ UserMapped s.mem pt va := by
  rw [view_byte, Option.isSome_map, userPage_isSome]

theorem walkaddr_eq (s : State) (pt va : Nat) :
    walkaddr pt va s = .ok ((userPage s.mem pt va).getD 0, s) := by
  unfold walkaddr userPage
  by_cases hva : va < MAXVA
  · have hwalk : walk pt va false s = .ok
        (((tree s.mem).last (digits va) 2 pt).map fun page => (page, PX 0 va), s) := by
      rw [walk, if_neg (Nat.not_le.2 hva), walkLoop_read]
    rw [if_neg (Nat.not_le.2 hva), if_pos hva, bind_ok hwalk]
    cases hlast : (tree s.mem).last (digits va) 2 pt with
    | none =>
      rw [lookup_of_none hlast]
      rfl
    | some page =>
      rw [lookup_of_last hlast]
      generalize he : pte s.mem page (PX 0 va) = e
      change (if pte s.mem page (PX 0 va) &&& PTE_V = 0 then pure 0
        else if pte s.mem page (PX 0 va) &&& PTE_U = 0 then pure 0
        else pure (PTE2PA (pte s.mem page (PX 0 va))) : Cmd Nat) s = _
      rw [he]
      by_cases hv : e &&& PTE_V = 0
      · rw [if_pos hv, if_neg (show ¬Valid e from not_not_intro hv)]
        rfl
      · rw [if_neg hv, if_pos (show Valid e from hv)]
        by_cases hu : e &&& PTE_U = 0
        · rw [if_pos hu, Option.filter_some, if_neg (by simpa using hu)]
          rfl
        · rw [if_neg hu, Option.filter_some, if_pos (by simpa using hu)]
          rfl
  · rw [if_pos (Nat.not_lt.1 hva), if_neg hva]
    rfl

end View

/-!
## `copyout`
-/

def State.poked (s : State) (pa o n : Nat) (src : Bytes) : State :=
  { s with mem := upd s.mem pa (blit (s.mem pa) o n src) }

section Poke

variable {s t : State} {pt va pa o n : Nat} {src : Bytes}

theorem UserPages.userPage_poked (h : UserPages s pt) (hpa : userPage s.mem pt va = some pa) (va' : Nat) :
    userPage (s.poked pa o n src).mem pt va' = userPage s.mem pt va' := by
  have hsame : ∀ q ∈ pages s.mem 2 pt, (s.poked pa o n src).mem q = s.mem q := by
    intro q hq
    apply upd_of_ne
    rintro rfl
    exact h.apart va q hpa hq
  rw [userPage, userPage, lookup_congr hsame]

theorem UserPages.poked (h : UserPages s pt) (hpa : userPage s.mem pt va = some pa) :
    UserPages (s.poked pa o n src) pt := by
  have hpages : pages (s.poked pa o n src).mem 2 pt = pages s.mem 2 pt := by
    apply pages_congr
    intro q hq
    apply upd_of_ne
    rintro rfl
    exact h.apart va q hpa hq
  constructor
  · intro va' pa' hpa'
    rw [h.userPage_poked hpa] at hpa'
    exact h.pos va' pa' hpa'
  · intro va' pa' hpa'
    rw [h.userPage_poked hpa] at hpa'
    rw [hpages]
    exact h.apart va' pa' hpa'
  · intro va' va'' pa' hpa' hpa''
    rw [h.userPage_poked hpa] at hpa' hpa''
    exact h.inj va' va'' pa' hpa' hpa''

theorem UserPages.view_poked (h : UserPages s pt) (hpa : userPage s.mem pt va = some pa) :
    view (s.poked pa o n src) pt = upd (view s pt) (va / 4096) (some (blit (s.mem pa) o n src)) := by
  funext k
  rw [view, h.userPage_poked hpa, upd_eq]
  by_cases hk : k = va / 4096
  · have hpage : userPage s.mem pt (k * 4096) = some pa := by
      rw [← hpa]
      apply userPage_page
      rw [hk, Nat.mul_div_cancel _ (by decide)]
    rw [if_pos hk, hpage, Option.map_some]
    congr 1
    exact upd_self ..
  · rw [if_neg hk, view]
    apply Option.map_congr
    intro q hq
    apply upd_of_ne
    rintro rfl
    have hsame := h.inj _ _ q hq hpa
    rw [Nat.mul_div_cancel _ (by decide)] at hsame
    exact hk hsame

end Poke

def OnlyRange (s t : State) (pt dstva len : Nat) : Prop :=
  ∀ q, (∀ va, dstva ≤ va → va < dstva + len → userPage s.mem pt va ≠ some q) → t.mem q = s.mem q

variable {va pa k n : Nat} {mem : UserMem}

section Copyout

variable {s : State} {pt dstva len o fuel f : Nat} {src : Bytes}

/-- The user's memory at an address that the table does not map. -/
theorem view_none (h : userPage s.mem pt va = none) : view s pt (va / 4096) = none := by
  have hpage : userPage s.mem pt (va / 4096 * 4096) = none := by
    rw [← h]
    apply userPage_page
    rw [Nat.mul_div_cancel _ (by decide)]
  rw [view, hpage]
  rfl

theorem view_some (h : userPage s.mem pt va = some pa) :
    view s pt (va / 4096) = some (s.mem pa) := by
  have hpage : userPage s.mem pt (va / 4096 * 4096) = some pa := by
    rw [← h]
    apply userPage_page
    rw [Nat.mul_div_cancel _ (by decide)]
  rw [view, hpage]
  rfl

theorem userPage_lt {mem : Nat → Bytes} (h : userPage mem pt va = some pa) : va < 2 ^ 38 := by
  unfold userPage at h
  by_cases hva : va < MAXVA
  · exact hva
  · rw [if_neg hva] at h
    cases h

theorem walkaddr_page (s : State) (pt va : Nat) :
    walkaddr pt (PGROUNDDOWN va) s = .ok ((userPage s.mem pt va).getD 0, s) := by
  have hpage : userPage s.mem pt (PGROUNDDOWN va) = userPage s.mem pt va := by
    apply userPage_page
    rw [PGROUNDDOWN, Nat.mul_div_cancel _ (by decide)]
  rw [walkaddr_eq, hpage]

theorem page_step (h : va < 2 ^ 38) : va - PGROUNDDOWN va = va % 4096 ∧
    (PGROUNDDOWN va + PGSIZE) % 2 ^ 64 = (va / 4096 + 1) * 4096 := by
  unfold PGROUNDDOWN
  constructor
  · omega
  · change (va / 4096 * 4096 + 4096) % 2 ^ 64 = _
    omega

theorem copyoutLoop_view (h : UserPages s pt) (hpos : 0 < fuel)
    (hfuel : 2 ^ 26 < fuel + dstva / 4096) (hf : len < f) :
    ∃ t, copyoutLoop pt src fuel o dstva len s =
        .ok ((Fs.copyout src (view s pt) f o dstva len).2, t) ∧
      view t pt = (Fs.copyout src (view s pt) f o dstva len).1 ∧ OnlyRange s t pt dstva len := by
  induction fuel generalizing s o dstva len f with
  | zero => omega
  | succ fuel ih =>
    obtain ⟨f, rfl⟩ := Nat.exists_eq_succ_of_ne_zero (Nat.ne_of_gt (Nat.zero_lt_of_lt hf))
    unfold copyoutLoop Fs.copyout
    by_cases hlen : len = 0
    · rw [if_neg (by omega), if_pos hlen]
      exact ⟨s, rfl, rfl, fun _ _ => rfl⟩
    rw [if_pos (by omega), if_neg hlen]
    rw [bind_ok (walkaddr_page s pt dstva)]
    cases hpage : userPage s.mem pt dstva with
    | none =>
      rw [view_none hpage]
      exact ⟨s, rfl, rfl, fun _ _ => rfl⟩
    | some pa =>
      have hlt := userPage_lt hpage
      obtain ⟨hoff, hnext⟩ := page_step hlt
      simp only [view_some hpage, Option.getD_some, if_neg (h.pos _ _ hpage), hoff, hnext]
      -- the state after the first piece
      generalize hn : min (4096 - dstva % 4096) len = n
      have hview := @UserPages.view_poked s pt dstva pa (dstva % 4096) n (fun j => src (o + j)) h hpage
      obtain ⟨t, hok, htview, honly⟩ := @ih
        (s.poked pa (dstva % 4096) n fun j => src (o + j)) ((dstva / 4096 + 1) * 4096) (len - n)
        (o + n) f (h.poked hpage) (by omega) (by omega) (by omega)
      rw [hview] at hok htview
      refine ⟨t, hok, htview, ?_⟩
      intro q hq
      rw [honly q]
      · apply upd_of_ne
        rintro rfl
        exact hq dstva (Nat.le_refl _) (by omega) hpage
      · intro va hle hva
        rw [h.userPage_poked hpage]
        exact hq va (by omega) (by omega)

end Copyout

/-!
## `copyin` and `copyinstr`

They only read, so that it does not matter which pages the user has.
-/

section Copyin

variable {s : State} {pt srcva len o fuel f : Nat} {dst : Bytes}

theorem copyinLoop_view (h : Nonzero s pt) (hpos : 0 < fuel) (hfuel : 2 ^ 26 < fuel + srcva / 4096)
    (hf : len < f) :
    copyinLoop pt fuel dst o srcva len s = .ok (Fs.copyin (view s pt) dst f o srcva len, s) := by
  induction fuel generalizing o srcva len f dst with
  | zero => omega
  | succ fuel ih =>
    obtain ⟨f, rfl⟩ := Nat.exists_eq_succ_of_ne_zero (Nat.ne_of_gt (Nat.zero_lt_of_lt hf))
    unfold copyinLoop Fs.copyin
    by_cases hlen : len = 0
    · rw [if_neg (by omega), if_pos hlen]
      rfl
    rw [if_pos (by omega), if_neg hlen]
    rw [bind_ok (walkaddr_page s pt srcva)]
    cases hpage : userPage s.mem pt srcva with
    | none =>
      rw [view_none hpage]
      rfl
    | some pa =>
      have hlt := userPage_lt hpage
      obtain ⟨hoff, hnext⟩ := page_step hlt
      simp only [view_some hpage, Option.getD_some, if_neg (h _ _ hpage), hoff, hnext]
      have hrest : len - min (4096 - srcva % 4096) len < f := by omega
      exact ih (by omega) (by omega) hrest

def StrAt (mem : UserMem) (va k : Nat) : Prop :=
  (∀ i, i < k → ∃ c, mem.byte (va + i) = some c ∧ c ≠ 0) ∧ mem.byte (va + k) = some 0

def strBytes (mem : UserMem) (va : Nat) : Bytes := fun i => (mem.byte (va + i)).getD 0

theorem upd_eq_blit (d : Bytes) (o : Nat) (src : Bytes) : upd d o (src 0) = blit d o 1 src := by
  funext i
  by_cases hi : i = o
  · rw [hi, upd_self, blit_inside (Nat.le_refl o) (Nat.lt_succ_self o), Nat.sub_self]
  · rw [upd_of_ne _ _ _ hi, blit_outside (by omega)]

theorem strLoop_spec (page : Bytes) (n p : Nat) (dst : Bytes) (o : Nat) :
    (∃ k, k < n ∧ page (p + k) = 0 ∧ (∀ i, i < k → page (p + i) ≠ 0) ∧
      strLoop page n p dst o = (blit dst o (k + 1) fun i => page (p + i), true)) ∨
    (∀ i, i < n → page (p + i) ≠ 0) ∧
      strLoop page n p dst o = (blit dst o n fun i => page (p + i), false) := by
  induction n generalizing p dst o with
  | zero =>
    refine .inr ⟨nofun, ?_⟩
    have hnone : blit dst o 0 (fun i => page (p + i)) = dst := by
      funext i
      exact blit_outside (by omega)
    rw [strLoop, hnone]
  | succ n ih =>
    unfold strLoop
    by_cases hnull : page p = 0
    · refine .inl ⟨0, Nat.succ_pos n, hnull, nofun, ?_⟩
      rw [if_pos hnull, ← upd_eq_blit, Nat.add_zero, hnull]
    rw [if_neg hnull, show upd dst o (page p) = blit dst o 1 (fun i => page (p + i)) from
      upd_eq_blit dst o fun i => page (p + i)]
    have hfirst : ∀ i, i < 1 → page (p + i) ≠ 0 := by
      intro i hi
      rwa [Nat.lt_one_iff.1 hi]
    have hjoin : ∀ m, blit (blit dst o 1 fun i => page (p + i)) (o + 1) m (fun i => page (p + 1 + i)) =
        blit dst o (m + 1) fun i => page (p + i) := by
      intro m
      rw [Nat.add_comm m, ← blit_blit]
      simp only [Nat.add_assoc]
    have hmore : ∀ m, (∀ i, i < m → page (p + 1 + i) ≠ 0) → ∀ i, i < m + 1 → page (p + i) ≠ 0 := by
      intro m hbefore i hi
      rcases Nat.eq_zero_or_pos i with rfl | hi0
      · exact hfirst 0 (by decide)
      · have := hbefore (i - 1) (by omega)
        rwa [show p + 1 + (i - 1) = p + i by omega] at this
    rcases ih (p + 1) (blit dst o 1 fun i => page (p + i)) (o + 1) with
      ⟨k, hk, hzero, hbefore, hloop⟩ | ⟨hbefore, hloop⟩
    · refine .inl ⟨k + 1, by omega, ?_, ?_, ?_⟩
      · rw [← hzero]
        congr 1
        omega
      · exact hmore _ hbefore
      · rw [hloop, hjoin]
    · refine .inr ⟨?_, ?_⟩
      · exact hmore _ hbefore
      · rw [hloop, hjoin]

theorem byte_of_page {i : Nat} (h : userPage s.mem pt va = some pa) (hi : va % 4096 + i < 4096) :
    (view s pt).byte (va + i) = some (s.mem pa (va % 4096 + i)) := by
  have hpage : userPage s.mem pt (va + i) = some pa := by
    rw [← h]
    apply userPage_page
    omega
  rw [view_byte, hpage, Option.map_some]
  congr 2
  omega

/-- What `copyinstr` does: it finds the string, or it leaves what is outside of the buffer alone. -/
def Fetched (mem : UserMem) (srcva max : Nat) (dst : Bytes) (o : Nat) (r : Bytes × Bool) : Prop :=
  (∃ k, k < max ∧ StrAt mem srcva k ∧ r = (blit dst o (k + 1) (strBytes mem srcva), true)) ∨
  (∀ k, k < max → ¬StrAt mem srcva k) ∧ r.2 = false ∧ ∀ i, i < o ∨ o + max ≤ i → r.1 i = dst i

theorem StrAt.byte_ne (h : StrAt mem va k) : (mem.byte va).isSome := by
  rcases Nat.eq_zero_or_pos k with rfl | hk
  · rw [← Nat.add_zero va, h.2]
    rfl
  · obtain ⟨c, hc, -⟩ := h.1 0 hk
    rw [← Nat.add_zero va, hc]
    rfl

theorem StrAt.add (h : ∀ i, i < n → ∃ c, mem.byte (va + i) = some c ∧ c ≠ 0) :
    StrAt mem va (n + k) ↔ StrAt mem (va + n) k := by
  constructor
  · rintro ⟨hbefore, hnull⟩
    refine ⟨fun i hi => ?_, ?_⟩
    · rw [Nat.add_assoc]
      exact hbefore (n + i) (by omega)
    · rw [Nat.add_assoc]
      exact hnull
  · rintro ⟨hbefore, hnull⟩
    rw [Nat.add_assoc] at hnull
    refine ⟨fun i hi => ?_, hnull⟩
    by_cases hin : i < n
    · exact h i hin
    · have := hbefore (i - n) (by omega)
      rwa [show va + n + (i - n) = va + i by omega] at this

theorem StrAt.ge (h : ∀ i, i < n → ∃ c, mem.byte (va + i) = some c ∧ c ≠ 0)
    (hk : StrAt mem va k) : n ≤ k := by
  by_contra hlt
  obtain ⟨c, hc, hne⟩ := h k (by omega)
  rw [hk.2] at hc
  exact hne (Option.some.inj hc).symm

theorem Fetched.piece {max next : Nat} {r : Bytes × Bool} (hn : n ≤ max)
    (hbefore : ∀ i, i < n → ∃ c, mem.byte (srcva + i) = some c ∧ c ≠ 0)
    (hnext : n < max → next = srcva + n)
    (h : Fetched mem next (max - n) (blit dst o n (strBytes mem srcva)) (o + n) r) :
    Fetched mem srcva max dst o r := by
  rcases h with ⟨k, hk, hstr, hr⟩ | ⟨hnone, hfail, hout⟩
  · have hnext := hnext (by omega)
    subst hnext
    refine .inl ⟨n + k, by omega, (StrAt.add hbefore).2 hstr, ?_⟩
    have hbytes : strBytes mem (srcva + n) = fun j => strBytes mem srcva (n + j) := by
      funext j
      rw [strBytes, strBytes, Nat.add_assoc]
    rw [hr, hbytes, blit_blit, Nat.add_assoc]
  · refine .inr ⟨?_, hfail, ?_⟩
    · intro k hk hstr
      have hge := StrAt.ge hbefore hstr
      have hnext := hnext (by omega)
      subst hnext
      apply hnone (k - n) (by omega)
      rw [← StrAt.add hbefore, Nat.add_sub_cancel' hge]
      exact hstr
    · intro i hi
      rw [hout i (by omega), blit_outside (by omega)]

theorem copyinstrLoop_fetched (h : Nonzero s pt) (hpos : 0 < fuel)
    (hfuel : 2 ^ 26 < fuel + srcva / 4096) {max : Nat} :
    ∃ r, copyinstrLoop pt fuel dst o srcva max s = .ok (r, s) ∧ Fetched (view s pt) srcva max dst o r := by
  induction fuel generalizing o srcva max dst with
  | zero => omega
  | succ fuel ih =>
    unfold copyinstrLoop
    by_cases hmax : max = 0
    · rw [if_neg (by omega)]
      exact ⟨(dst, false), rfl, .inr ⟨fun k hk => absurd hk (by omega), rfl, fun _ _ => rfl⟩⟩
    rw [if_pos (by omega)]
    rw [bind_ok (walkaddr_page s pt srcva)]
    cases hpage : userPage s.mem pt srcva with
    | none =>
      refine ⟨(dst, false), rfl, .inr ⟨fun k _ hstr => ?_, rfl, fun _ _ => rfl⟩⟩
      have hsome := hstr.byte_ne
      rw [view_byte, hpage] at hsome
      cases hsome
    | some pa =>
      have hlt := userPage_lt hpage
      obtain ⟨hoff, hnext⟩ := page_step hlt
      simp only [Option.getD_some, if_neg (h _ _ hpage), hoff, hnext]
      rw [bind_ok (c := get) (a := s) (t := s) rfl]
      generalize hn : min (4096 - srcva % 4096) max = n
      have hbyte : ∀ i, i < n → (view s pt).byte (srcva + i) = some (s.mem pa (srcva % 4096 + i)) :=
        fun i hi => byte_of_page hpage (by omega)
      -- the piece that goes into the buffer is the same in the page and for the user
      have hpiece : ∀ m, m ≤ n → blit dst o m (fun i => s.mem pa (srcva % 4096 + i)) =
          blit dst o m (strBytes (view s pt) srcva) := by
        intro m hm
        funext i
        by_cases hi : o ≤ i ∧ i < o + m
        · rw [blit_inside hi.1 hi.2, blit_inside hi.1 hi.2, strBytes, hbyte _ (by omega)]
          rfl
        · rw [blit_outside (by omega), blit_outside (by omega)]
      rcases strLoop_spec (s.mem pa) n (srcva % 4096) dst o with
        ⟨k, hk, hnull, hbefore, hloop⟩ | ⟨hbefore, hloop⟩
      · refine ⟨strLoop (s.mem pa) n (srcva % 4096) dst o, ?_, .inl ⟨k, by omega, ⟨?_, ?_⟩, ?_⟩⟩
        · rw [hloop]
          rfl
        · intro i hi
          exact ⟨_, hbyte i (by omega), hbefore i hi⟩
        · rw [hbyte k hk, hnull]
        · rw [hloop, hpiece (k + 1) hk]
      · obtain ⟨r, hrun, hr⟩ := @ih ((srcva / 4096 + 1) * 4096) (o + n)
          (blit dst o n (strBytes (view s pt) srcva)) (by omega) (by omega) (max - n)
        refine ⟨r, ?_, Fetched.piece (by omega) (fun i hi => ⟨_, hbyte i hi, hbefore i hi⟩)
          (fun hlt => ?_) hr⟩
        · rw [hloop, hpiece n (Nat.le_refl n)]
          exact hrun
        · omega

end Copyin

/-!
## All three
-/

/-- `copyout` returns 0 exactly if the user has every byte of the range; then the range holds the
bytes of the buffer.  Nothing else is written in either case. -/
def CopyoutExact (s : State) (pt : Nat) : Prop :=
  ∀ dstva src len, ∃ ok t, copyout pt dstva src len s = .ok (ok, t) ∧
    (ok = true ↔ ∀ i, i < len → UserMapped s.mem pt (dstva + i)) ∧
    (ok = true → ∀ i, i < len → (view t pt).byte (dstva + i) = some (src i)) ∧
    (∀ va, va < dstva ∨ dstva + len ≤ va → (view t pt).byte va = (view s pt).byte va) ∧
    OnlyRange s t pt dstva len

/-- `copyin` returns 0 exactly if the user has every byte of the range; then the buffer holds its
bytes.  Nothing else is written in either case. -/
def CopyinExact (s : State) (pt : Nat) : Prop :=
  ∀ dst srcva len, ∃ ok dst', copyin pt dst srcva len s = .ok ((dst', ok), s) ∧
    (ok = true ↔ ∀ i, i < len → UserMapped s.mem pt (srcva + i)) ∧
    (ok = true → ∀ i, i < len → (view s pt).byte (srcva + i) = some (dst' i)) ∧
    ∀ i, len ≤ i → dst' i = dst i

/-- `copyinstr` returns 0 exactly if the user has a string of fewer than `max` bytes; then the buffer
holds the string with its NUL, and nothing else is written.  It never writes more than `max` bytes. -/
def CopyinstrExact (s : State) (pt : Nat) : Prop :=
  ∀ dst srcva max, ∃ ok dst', copyinstr pt dst srcva max s = .ok ((dst', ok), s) ∧
    (ok = true ↔ ∃ k, k < max ∧ (∀ i, i ≤ k → UserMapped s.mem pt (srcva + i)) ∧
      StrAt (view s pt) srcva k) ∧
    (∀ k, ok = true → StrAt (view s pt) srcva k →
      (∀ i, i ≤ k → (view s pt).byte (srcva + i) = some (dst' i)) ∧ ∀ i, k < i → dst' i = dst i) ∧
    ∀ i, max ≤ i → dst' i = dst i

section Exact

variable {s : State} {pt : Nat}

theorem rounds_enough (va : Nat) : 2 ^ 26 < rounds + va / 4096 := Nat.lt_add_right _ (by decide)

theorem copyout_exact (h : UserPages s pt) : CopyoutExact s pt := by
  intro dstva src len
  have hlen := Nat.lt_succ_self len
  obtain ⟨t, hrun, hview, honly⟩ :=
    @copyoutLoop_view s pt dstva len 0 rounds (len + 1) src h (by decide) (rounds_enough dstva) hlen
  refine ⟨(Fs.copyout src (view s pt) (len + 1) 0 dstva len).2, t, hrun, ?_, ?_, ?_, honly⟩
  · simp only [← view_isSome]
    constructor
    · exact mapped_of_copyout src 0 hlen
    · intro hmapped
      exact (copyout_byte src 0 hlen hmapped).1
  · intro hok i hi
    have hmapped := mapped_of_copyout src 0 hlen hok
    rw [hview, (copyout_byte src 0 hlen hmapped).2, if_pos (by omega), Nat.zero_add,
      Nat.add_sub_cancel_left]
  · intro va hva
    rw [hview, copyout_outside src hva]

theorem copyin_exact (h : Nonzero s pt) : CopyinExact s pt := by
  intro dst srcva len
  have hlen := Nat.lt_succ_self len
  have hrun :=
    @copyinLoop_view s pt srcva len 0 rounds (len + 1) dst h (by decide) (rounds_enough srcva) hlen
  refine ⟨(Fs.copyin (view s pt) dst (len + 1) 0 srcva len).2,
    (Fs.copyin (view s pt) dst (len + 1) 0 srcva len).1, hrun, ?_, ?_, ?_⟩
  · simp only [← view_isSome]
    constructor
    · exact mapped_of_copyin dst 0 hlen
    · intro hmapped
      rw [copyin_byte dst 0 hlen hmapped]
  · intro hok i hi
    have hmapped := mapped_of_copyin dst 0 hlen hok
    obtain ⟨c, hc⟩ := Option.isSome_iff_exists.1 (hmapped i hi)
    rw [copyin_byte dst 0 hlen hmapped]
    change _ = some (blit dst 0 len (strBytes (view s pt) srcva) i)
    rw [blit_inside (Nat.zero_le i) (by omega), Nat.sub_zero, strBytes, hc]
    rfl
  · intro i hi
    exact copyin_outside dst (.inr (by omega))

theorem StrAt.unique {k' : Nat} (h : StrAt mem va k) (h' : StrAt mem va k') : k = k' := by
  have hle := StrAt.ge h.1 h'
  have hge := StrAt.ge h'.1 h
  omega

theorem StrAt.mapped (h : StrAt (view s pt) va k) : ∀ i, i ≤ k → UserMapped s.mem pt (va + i) := by
  intro i hi
  rw [← view_isSome]
  by_cases hlast : i = k
  · rw [hlast, h.2]
    rfl
  · obtain ⟨c, hc, -⟩ := h.1 i (by omega)
    rw [hc]
    rfl

theorem copyinstr_exact (h : Nonzero s pt) : CopyinstrExact s pt := by
  intro dst srcva max
  obtain ⟨⟨dst', ok⟩, hrun, hfetched⟩ :=
    @copyinstrLoop_fetched s pt srcva 0 rounds dst h (by decide) (rounds_enough srcva) max
  refine ⟨ok, dst', hrun, ?_⟩
  rcases hfetched with ⟨k, hk, hstr, hr⟩ | ⟨hnone, hfail, hout⟩
  · obtain ⟨rfl, rfl⟩ := Prod.mk.inj hr
    refine ⟨⟨fun _ => ⟨k, hk, hstr.mapped, hstr⟩, fun _ => rfl⟩, ?_, ?_⟩
    · intro k' _ hstr'
      obtain rfl := hstr.unique hstr'
      constructor
      · intro i hi
        obtain ⟨c, hc⟩ := Option.isSome_iff_exists.1 (view_isSome.2 (hstr.mapped i hi))
        rw [blit_inside (Nat.zero_le i) (by omega), Nat.sub_zero, strBytes, hc]
        rfl
      · intro i hi
        exact blit_outside (by omega)
    · intro i hi
      exact blit_outside (by omega)
  · change ok = false at hfail
    subst hfail
    refine ⟨⟨nofun, ?_⟩, nofun, ?_⟩
    · rintro ⟨k, hk, -, hstr⟩
      exact absurd hstr (hnone k hk)
    · intro i hi
      exact hout i (.inr (by omega))

end Exact

/-- The pages of the table are 4096, 8192 and 12288; address 0 is mapped to page `pa`. -/
def onePage (pa : Nat) : State where
  mem := fun p =>
    if p = 4096 then setWord (fun _ => 0) 0 8 (link 8192)
    else if p = 8192 then setWord (fun _ => 0) 0 8 (link 12288)
    else if p = 12288 then setWord (fun _ => 0) 0 8 (entry pa (PTE_R ||| PTE_W ||| PTE_U))
    else fun _ => 0
  freelist := []

section OnePage

variable {pa : Nat}

theorem pte_one {mem : Nat → Bytes} {p v : Nat} (h : mem p = setWord (fun _ => 0) 0 8 v)
    (hv : v < 256 ^ 8) (i : Nat) : pte mem p i = if i = 0 then v else 0 := by
  rw [pte, h]
  by_cases hi : i = 0
  · rw [if_pos hi, hi, word_setWord_of_lt hv]
  · rw [if_neg hi, word_setWord_outside (by omega), word_zero]

theorem kid_one {mem : Nat → Bytes} {p c : Nat} (h : mem p = setWord (fun _ => 0) 0 8 (link c))
    (hc : c % 4096 = 0) (hlt : c < 2 ^ 64) (i : Nat) :
    (tree mem).kid p i = if i = 0 then some c else none := by
  have hpte := pte_one h (link_spec hc hlt).2.2.2 i
  by_cases hi : i = 0
  · rw [if_pos hi] at hpte ⊢
    exact kid_link hc hlt hpte
  · rw [if_neg hi] at hpte ⊢
    apply kid_of_not_valid
    rw [hpte]
    exact not_valid_zero

theorem lookup_onePage (hlt : pa < 2 ^ 64) (hva : va < MAXVA) :
    lookup (onePage pa).mem 4096 va =
      if va / 4096 = 0 then some (entry pa (PTE_R ||| PTE_W ||| PTE_U)) else none := by
  have hroot := @kid_one (onePage pa).mem 4096 8192 rfl (by decide) (by decide) (PX 2 va)
  have hmid := @kid_one (onePage pa).mem 8192 12288 rfl (by decide) (by decide) (PX 1 va)
  have hperm : Perm (PTE_R ||| PTE_W ||| PTE_U) := by decide
  have hleaf := @pte_one (onePage pa).mem 12288 _ rfl (entry_lt hperm hlt) (PX 0 va)
  have hdigits : va / 4096 = 0 ↔ PX 2 va = 0 ∧ PX 1 va = 0 ∧ PX 0 va = 0 := by
    constructor
    · intro hzero
      simp only [PX_eq, hzero]
      decide
    · rintro ⟨h2, h1, h0⟩
      have heq := @PX_inj va 0 hva (by decide) (by
        intro level hle
        have hcases : level = 0 ∨ level = 1 ∨ level = 2 := by omega
        rcases hcases with rfl | rfl | rfl
        · exact h0
        · exact h1
        · exact h2)
      exact heq
  unfold lookup
  rw [Radix.find, hroot]
  by_cases h2 : PX 2 va = 0
  · rw [if_pos h2]
    change (tree (onePage pa).mem).find (digits va) 1 8192 = _
    rw [Radix.find, hmid]
    by_cases h1 : PX 1 va = 0
    · rw [if_pos h1]
      change (if Valid (pte (onePage pa).mem 12288 (PX 0 va)) then _ else none) = _
      rw [hleaf]
      by_cases h0 : PX 0 va = 0
      · rw [if_pos (hdigits.2 ⟨h2, h1, h0⟩), if_pos h0, if_pos (entry_leaf hperm).1]
      · rw [if_neg fun h => h0 (hdigits.1 h).2.2, if_neg h0, if_neg not_valid_zero]
    · rw [if_neg fun h => h1 (hdigits.1 h).2.1, if_neg h1]
  · rw [if_neg fun h => h2 (hdigits.1 h).1, if_neg h2]

theorem userPage_onePage (hpa : pa % 4096 = 0) (hlt : pa < 2 ^ 64) (va : Nat) :
    userPage (onePage pa).mem 4096 va = if va / 4096 = 0 then some pa else none := by
  have hperm : Perm (PTE_R ||| PTE_W ||| PTE_U) := by decide
  unfold userPage
  by_cases hva : va < MAXVA
  · rw [if_pos hva, lookup_onePage hlt hva]
    by_cases hzero : va / 4096 = 0
    · have huser : entry pa (PTE_R ||| PTE_W ||| PTE_U) &&& PTE_U ≠ 0 := by
        rw [entry_eq, pte_mask hperm.flags_lt (by decide)]
        decide
      rw [if_pos hzero, if_pos hzero, Option.filter_some, if_pos (by simpa using huser),
        Option.map_some, entry_page hperm hpa hlt]
    · rw [if_neg hzero, if_neg hzero]
      rfl
  · have hlarge : ¬va < 274877906944 := hva
    rw [if_neg hva, if_neg (by omega)]

theorem pages_onePage {q : Nat} (hq : q ∈ pages (onePage pa).mem 2 4096) :
    q = 4096 ∨ q = 8192 ∨ q = 12288 := by
  rcases Radix.mem_nodes_succ.1 hq with rfl | ⟨i, -, c, hk, hq⟩
  · exact .inl rfl
  rw [@kid_one (onePage pa).mem 4096 8192 rfl (by decide) (by decide) i] at hk
  split at hk
  next =>
    obtain rfl := Option.some.inj hk
    rcases Radix.mem_nodes_succ.1 hq with rfl | ⟨j, -, d, hk, hq⟩
    · exact .inr (.inl rfl)
    rw [@kid_one (onePage pa).mem 8192 12288 rfl (by decide) (by decide) j] at hk
    split at hk
    next =>
      obtain rfl := Option.some.inj hk
      exact .inr (.inr (Radix.mem_nodes_zero.1 hq))
    next => cases hk
  next => cases hk

theorem userPages_onePage (hpa : pa % 4096 = 0) (hlt : pa < 2 ^ 64) (hbig : 12288 < pa) :
    UserPages (onePage pa) 4096 := by
  have hfound : ∀ va q, userPage (onePage pa).mem 4096 va = some q → va / 4096 = 0 ∧ q = pa := by
    intro va q hq
    rw [userPage_onePage hpa hlt] at hq
    split at hq
    next hzero => exact ⟨hzero, (Option.some.inj hq).symm⟩
    next => cases hq
  constructor
  · intro va q hq
    have := (hfound va q hq).2
    omega
  · intro va q hq hmem
    have := (hfound va q hq).2
    rcases pages_onePage hmem with h | h | h <;> omega
  · intro va va' q hq hq'
    rw [(hfound va q hq).1, (hfound va' q hq').1]

end OnePage

end Xv6.Vm
