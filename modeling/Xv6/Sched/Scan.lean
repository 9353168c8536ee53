import Xv6.Sched.Invariant

/-!
# The scan of the process table

The candidate of a scan that nothing interrupts, and what CFSD chooses.  The ratio is computed
in 32-bit arithmetic, so that it is the exact quotient only where the product does not
overflow; and a ratio of `INT_MAX` is never below the initial minimum.
-/

namespace Xv6.Sched

open Instr

variable {n : Nat}

def Data.scanSlots (pol : Policy) (d : Data n) (l : List Slot) : Option Slot × Int :=
  l.foldl (fun r i => d.choose pol i r.1 r.2) (none, intMax)

def Data.scanTable (pol : Policy) (d : Data n) : Option Slot :=
  (d.scanSlots pol (List.finRange NPROC)).1

theorem scanSlots_append (pol : Policy) (d : Data n) (l : List Slot) (i : Slot) :
    d.scanSlots pol (l ++ [i]) = d.choose pol i (d.scanSlots pol l).1 (d.scanSlots pol l).2 := by
  rw [Data.scanSlots, List.foldl_append]
  rfl

/-!
## The scan of a hart that is alone
-/

section Alone

variable {pol : Policy} {s : Sys n} {h : Fin n} {rest : Code}

namespace Sys

/-- Hart `h` goes on to the code `c`, with the data as it is and the locks held by `owner`. -/
def Alone (pol : Policy) (s : Sys n) (h : Fin n) (owner : Lock → Option (Fin n)) (c : Code)
    (t : Sys n) : Prop :=
  (∃ es, Lib.Run (Step pol) s es t) ∧ t.d = s.d ∧ t.owner = owner ∧ t.running h = c

theorem Alone.trans {t u : Sys n} {owner owner' : Lock → Option (Fin n)} {c c' : Code}
    (hst : Alone pol s h owner c t) (htu : Alone pol t h owner' c' u) : Alone pol s h owner' c' u := by
  obtain ⟨⟨es, hes⟩, hd, -, -⟩ := hst
  obtain ⟨⟨es', hes'⟩, hd', howner', hcode'⟩ := htu
  exact ⟨⟨es ++ es', hes.append hes'⟩, hd'.trans hd, howner', hcode'⟩

theorem step_exec {c : Choice} {x : Instr} {exp : Code} {d' : Data n} {e : Event n}
    (hcode : s.running h = x :: rest) (hc : ∀ k, c ≠ .interrupt k)
    (hx : exec pol s.d h (s.cur h) c x = some (d', exp, e)) :
    s.Step pol e { s with d := d', code := Function.update s.code (s.cur h) (exp ++ rest) } := by
  refine ⟨h, c, ?_⟩
  have hfetch : s.fetch pol h c =
      some ({ s with d := d', code := Function.update s.code (s.cur h) (exp ++ rest) }, e) := by
    unfold fetch
    rw [hcode]
    cases x <;> first | (cases hx; done) | (dsimp only; rw [hx]; rfl)
  cases c <;> first | exact hfetch | exact absurd rfl (hc _)

variable (pol)

theorem step_acquire {lk : Lock} (hcode : s.running h = .acquire lk :: rest)
    (hlk : s.owner lk = none) :
    s.Step pol (.acquired (s.cur h) lk) { s with
      owner := Function.update s.owner lk (some h)
      noff := Function.update s.noff h (s.noff h + 1)
      code := Function.update s.code (s.cur h) rest } := by
  have hacquire : s.acquire h lk = some { s with
      owner := Function.update s.owner lk (some h)
      noff := Function.update s.noff h (s.noff h + 1) } := if_pos hlk
  refine ⟨h, .go, ?_⟩
  change s.fetch pol h .go = _
  rw [fetch, hcode]
  dsimp only
  rw [hacquire]
  rfl

theorem step_release {lk : Lock} (hcode : s.running h = .release lk :: rest)
    (hlk : s.owner lk = some h) :
    s.Step pol (.released (s.cur h) lk) { s with
      owner := Function.update s.owner lk none
      noff := Function.update s.noff h (s.noff h - 1)
      code := Function.update s.code (s.cur h) rest } := by
  have hrelease : s.release h lk = some { s with
      owner := Function.update s.owner lk none
      noff := Function.update s.noff h (s.noff h - 1) } := if_pos hlk
  refine ⟨h, .go, ?_⟩
  change s.fetch pol h .go = _
  rw [fetch, hcode]
  dsimp only
  rw [hrelease]
  rfl

theorem alone_of_step {owner : Lock → Option (Fin n)} {noff : Fin n → Nat} {c : Code} {e : Event n}
    (hs : s.Step pol e ⟨s.d, owner, noff, s.cur, Function.update s.code (s.cur h) c⟩) :
    ∃ t, Alone pol s h owner c t :=
  ⟨_, ⟨[e], .single hs⟩, rfl, rfl, running_update s h _ _ _ c⟩

theorem alone_acquire {lk : Lock} (hcode : s.running h = .acquire lk :: rest)
    (hlk : s.owner lk = none) :
    ∃ t, Alone pol s h (Function.update s.owner lk (some h)) rest t :=
  alone_of_step pol (step_acquire pol hcode hlk)

theorem alone_release {lk : Lock} (hcode : s.running h = .release lk :: rest)
    (hlk : s.owner lk = some h) :
    ∃ t, Alone pol s h (Function.update s.owner lk none) rest t :=
  alone_of_step pol (step_release pol hcode hlk)

theorem alone_scan {k : Nat} {cand : Option Slot} {min : Int}
    (hcode : s.running h = scan k cand min :: rest) :
    ∃ t, Alone pol s h s.owner (forSlot k (fun j => [.acquire (.proc j), select j cand min])
      (cand.elim [] fun c => [.acquire (.proc c), tryRun c, .release (.proc c)]) ++ rest) t :=
  alone_of_step pol (step_exec (c := .go) hcode nofun rfl)

theorem alone_select {j : Slot} {cand : Option Slot} {min : Int}
    (hcode : s.running h = select j cand min :: rest) :
    ∃ t, Alone pol s h s.owner (.release (.proc j) ::
      scan (j + 1) (s.d.choose pol j cand min).1 (s.d.choose pol j cand min).2 :: rest) t :=
  alone_of_step pol (step_exec (c := .go) hcode nofun rfl)

theorem alone_slot {j : Slot} {cand : Option Slot} {min : Int}
    (hcode : s.running h = scan j cand min :: rest) (hfree : s.owner (.proc j) = none) :
    ∃ t, Alone pol s h s.owner (scan (j + 1) (s.d.choose pol j cand min).1
      (s.d.choose pol j cand min).2 :: rest) t := by
  obtain ⟨s₁, h₁⟩ := alone_scan pol hcode
  have hcode₁ : s₁.running h = .acquire (.proc j) :: select j cand min :: rest := by
    rw [h₁.2.2.2, forSlot, dif_pos j.isLt]
    rfl
  obtain ⟨s₂, h₂⟩ := alone_acquire pol hcode₁ (by rw [h₁.2.2.1, hfree])
  obtain ⟨s₃, h₃⟩ := alone_select pol h₂.2.2.2
  obtain ⟨s₄, h₄⟩ := alone_release pol h₃.2.2.2 (by rw [h₃.2.2.1, h₂.2.2.1, Function.update_self])
  refine ⟨s₄, ?_⟩
  have hdata : s₂.d = s.d := h₂.2.1.trans h₁.2.1
  have howner : Function.update s₃.owner (.proc j) none = s.owner := by
    rw [h₃.2.2.1, h₂.2.2.1, h₁.2.2.1, Function.update_idem, ← hfree, Function.update_eq_self]
  have hall := ((h₁.trans h₂).trans h₃).trans h₄
  rwa [howner, hdata] at hall

/-- A scan that nothing interrupts ends with the candidate of the whole table. -/
theorem alone_table (hcode : s.running h = scan 0 none intMax :: rest)
    (hfree : ∀ j, s.owner (.proc j) = none) :
    ∃ t, Alone pol s h s.owner ((s.d.scanTable pol).elim []
      (fun c => [.acquire (.proc c), tryRun c, .release (.proc c)]) ++ rest) t := by
  -- after the first `k` slots
  have hslots : ∀ k, k ≤ NPROC → ∃ t, Alone pol s h s.owner
      (scan k (s.d.scanSlots pol ((List.finRange NPROC).take k)).1
        (s.d.scanSlots pol ((List.finRange NPROC).take k)).2 :: rest) t := by
    intro k
    induction k with
    | zero =>
      intro _
      exact ⟨s, ⟨[], .refl s⟩, rfl, rfl, hcode⟩
    | succ k ih =>
      intro hk
      obtain ⟨t, ht⟩ := ih (Nat.le_of_succ_le hk)
      obtain ⟨u, hu⟩ := alone_slot pol (j := ⟨k, hk⟩) ht.2.2.2 (by rw [ht.2.2.1]; exact hfree _)
      refine ⟨u, ?_⟩
      have htake : (List.finRange NPROC).take (k + 1) =
          (List.finRange NPROC).take k ++ [⟨k, hk⟩] := by
        rw [List.take_succ_eq_append_getElem (by rwa [List.length_finRange]), List.getElem_finRange]
        rfl
      have hall := ht.trans hu
      rw [ht.2.1, ht.2.2.1, ← scanSlots_append, ← htake] at hall
      exact hall
  obtain ⟨t, ht⟩ := hslots NPROC (Nat.le_refl _)
  rw [List.take_of_length_le (by rw [List.length_finRange])] at ht
  obtain ⟨u, hu⟩ := alone_scan pol ht.2.2.2
  refine ⟨u, ?_⟩
  have hall := ht.trans hu
  rw [ht.2.2.1, forSlot, dif_neg (Nat.lt_irrefl _)] at hall
  exact hall

end Sys

end Alone

/-!
## CFSD
-/

/-- The counters of a process, as the kernel keeps them. -/
structure Counters (p : Proc) : Prop where
  rutime : 0 ≤ p.rutime
  stime : 0 ≤ p.stime
  sum : p.rutime + p.stime < 2 ^ 31
  priority : -2 ^ 31 ≤ p.priority ∧ p.priority < 2 ^ 31

def exactRatio (p : Proc) : Int :=
  if p.rutime + p.stime = 0 then 0 else (p.rutime * p.priority).tdiv (p.rutime + p.stime)

/-- The product does not overflow, and the quotient is not `INT_MAX`. -/
def RatioFits (p : Proc) : Prop :=
  (-2 ^ 31 ≤ p.rutime * p.priority ∧ p.rutime * p.priority < 2 ^ 31) ∧
    ¬(p.rutime = 1 ∧ p.stime = 0 ∧ p.priority = intMax)

theorem bmod_of_fits {x : Int} (hlow : -2 ^ 31 ≤ x) (hhigh : x < 2 ^ 31) : x.bmod (2 ^ 32) = x := by
  apply Int.bmod_eq_of_le
  · change -(4294967296 / 2) ≤ x
    omega
  · change x < (4294967296 + 1) / 2
    omega

section Cfsd

variable {p : Proc}

theorem tdiv_between (a : Int) {b : Int} (hb : 0 < b) :
    min a 0 ≤ a.tdiv b ∧ a.tdiv b ≤ max a 0 := by
  rcases le_or_gt 0 a with ha | ha
  · rw [Int.tdiv_eq_ediv_of_nonneg ha]
    have hlow := Int.ediv_nonneg ha hb.le
    have hhigh := Int.ediv_le_self b ha
    omega
  · have hneg : a.tdiv b = -(-a / b) := by
      rw [← Int.tdiv_eq_ediv_of_nonneg (by omega), Int.neg_tdiv, Int.neg_neg]
    have hlow := Int.ediv_nonneg (a := -a) (by omega) hb.le
    have hhigh := Int.ediv_le_self (a := -a) b (by omega)
    rw [hneg]
    omega

theorem tdiv_le_half {a b : Int} (ha : 0 ≤ a) (hb : 2 ≤ b) : a.tdiv b ≤ a / 2 := by
  rw [Int.tdiv_eq_ediv_of_nonneg ha]
  rw [Int.le_ediv_iff_mul_le (by decide)]
  calc a / b * 2 ≤ a / b * b := Int.mul_le_mul_of_nonneg_left hb (Int.ediv_nonneg ha (by omega))
    _ ≤ a := Int.ediv_mul_le a (by omega)

theorem exactRatio_lt (h : Counters p) (hfits : RatioFits p) : exactRatio p < intMax := by
  obtain ⟨hr, hs, -, -⟩ := h
  obtain ⟨⟨-, hhigh⟩, hmax⟩ := hfits
  unfold exactRatio
  change _ < 2147483647
  by_cases hsum : p.rutime + p.stime = 0
  · rw [if_pos hsum]
    decide
  · rw [if_neg hsum]
    by_cases hone : p.rutime + p.stime = 1
    · -- the product is zero or the priority itself
      rw [hone, Int.tdiv_one]
      by_cases hrutime : p.rutime = 0
      · rw [hrutime, Int.zero_mul]
        decide
      · have hrutime : p.rutime = 1 := by omega
        rw [hrutime, Int.one_mul] at hhigh ⊢
        have hne : p.priority ≠ 2147483647 := fun heq => hmax ⟨hrutime, by omega, heq⟩
        omega
    · rcases le_or_gt 0 (p.rutime * p.priority) with hpos | hneg
      · have hhalf := tdiv_le_half hpos (show 2 ≤ p.rutime + p.stime by omega)
        omega
      · have hle := (tdiv_between (p.rutime * p.priority) (show 0 < p.rutime + p.stime by omega)).2
        omega

theorem rtRatio_eq (h : Counters p) (hfits : RatioFits p) : Data.rtRatio p = exactRatio p := by
  obtain ⟨hr, hs, hsum, -⟩ := h
  obtain ⟨⟨hlow, hhigh⟩, -⟩ := hfits
  unfold Data.rtRatio exactRatio
  rw [bmod_of_fits (x := p.rutime + p.stime) (by omega) hsum, bmod_of_fits hlow hhigh]
  by_cases hzero : p.rutime + p.stime = 0
  · rw [if_pos hzero, if_pos hzero]
  · rw [if_neg hzero, if_neg hzero]
    have hquot := tdiv_between (p.rutime * p.priority) (show 0 < p.rutime + p.stime by omega)
    exact bmod_of_fits (by omega) (by omega)

variable {d : Data n} {l : List Slot}

/-- What holds of the candidate and the minimum after some slots. -/
theorem scanSlots_cfsd :
    (∀ i ∈ l, (d.proc i).state = .runnable → (d.scanSlots .cfsd l).2 ≤ Data.rtRatio (d.proc i)) ∧
    (∀ c, (d.scanSlots .cfsd l).1 = some c →
      (d.proc c).state = .runnable ∧ (d.scanSlots .cfsd l).2 = Data.rtRatio (d.proc c)) ∧
    ((d.scanSlots .cfsd l).1 = none → (d.scanSlots .cfsd l).2 = intMax) := by
  induction l using List.reverseRecOn with
  | nil => exact ⟨nofun, nofun, fun _ => rfl⟩
  | append_singleton l i ih =>
    obtain ⟨hmin, hcand, hnone⟩ := ih
    rw [scanSlots_append]
    unfold Data.choose
    by_cases hrun : (d.proc i).state = .runnable
    · rw [if_pos hrun]
      by_cases hlt : Data.rtRatio (d.proc i) < (d.scanSlots .cfsd l).2
      · simp only [hlt, if_true]
        refine ⟨fun j hj hjrun => ?_, fun c hc => ?_, nofun⟩
        · rcases List.mem_append.1 hj with hj | hj
          · exact le_trans (le_of_lt hlt) (hmin j hj hjrun)
          · rw [List.mem_singleton.1 hj]
        · obtain rfl := Option.some.inj hc
          exact ⟨hrun, rfl⟩
      · simp only [hlt, if_false]
        refine ⟨fun j hj hjrun => ?_, hcand, hnone⟩
        rcases List.mem_append.1 hj with hj | hj
        · exact hmin j hj hjrun
        · rw [List.mem_singleton.1 hj]
          exact not_lt.1 hlt
    · rw [if_neg hrun]
      refine ⟨fun j hj hjrun => ?_, hcand, hnone⟩
      rcases List.mem_append.1 hj with hj | hj
      · exact hmin j hj hjrun
      · rw [List.mem_singleton.1 hj] at hjrun
        exact absurd hjrun hrun

theorem scanTable_cfsd (hcounters : ∀ i, (d.proc i).state = .runnable → Counters (d.proc i))
    (hfits : ∀ i, (d.proc i).state = .runnable → RatioFits (d.proc i))
    (hrun : ∃ i, (d.proc i).state = .runnable) :
    ∃ c, d.scanTable .cfsd = some c ∧ (d.proc c).state = .runnable ∧
      ∀ i, (d.proc i).state = .runnable → exactRatio (d.proc c) ≤ exactRatio (d.proc i) := by
  obtain ⟨hmin, hcand, hnone⟩ := scanSlots_cfsd (d := d) (l := List.finRange NPROC)
  have hratio : ∀ i, (d.proc i).state = .runnable →
      Data.rtRatio (d.proc i) = exactRatio (d.proc i) ∧ exactRatio (d.proc i) < intMax :=
    fun i hi => ⟨rtRatio_eq (hcounters i hi) (hfits i hi), exactRatio_lt (hcounters i hi) (hfits i hi)⟩
  cases hc : d.scanTable .cfsd with
  | none =>
    obtain ⟨i, hi⟩ := hrun
    have hle := hmin i (List.mem_finRange i) hi
    rw [hnone hc, (hratio i hi).1] at hle
    exact absurd (hratio i hi).2 (not_lt.2 hle)
  | some c =>
    obtain ⟨hcrun, hcmin⟩ := hcand c hc
    refine ⟨c, rfl, hcrun, fun i hi => ?_⟩
    have hle := hmin i (List.mem_finRange i) hi
    rwa [hcmin, (hratio c hcrun).1, (hratio i hi).1] at hle

end Cfsd

def firstScan : Sys 1 := (Sys.boot 1).setCode (.scheduler 0) [scan 0 none intMax, schedLoop]

def eager : Data 1 :=
  (Sys.boot 1).d.setProc 0 fun p => { p with rutime := 1, priority := intMax }

end Xv6.Sched
