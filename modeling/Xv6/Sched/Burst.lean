import Xv6.Sched.Step

/-!
# The burst-time average

The average that `scheduler` keeps in SRT and CFSD is in hundredths of a tick.  Its distance
from the average of a constant burst is halved by every update.
-/

namespace Xv6.Sched

def int32 (x : Int) : Option Int := if -2 ^ 31 ≤ x ∧ x < 2 ^ 31 then some x else none

/-- The assignment to `average_bursttime`, with every intermediate value an `int`. -/
def updateAverage (burst avg : Int) : Option Int := do
  let new ← int32 (ALPHA * burst)
  let weight ← int32 (100 - ALPHA)
  let old ← int32 (weight * avg)
  let old ← int32 (old.tdiv 100)
  int32 (new + old)

/-- The average after some bursts of a new process. -/
def estimate (bursts : List Int) : Option Int :=
  bursts.foldlM (fun avg burst => updateAverage burst avg) (QUANTUM * 100)

theorem int32_of_fits {x : Int} (hlow : -2 ^ 31 ≤ x) (hhigh : x < 2 ^ 31) : int32 x = some x :=
  if_pos ⟨hlow, hhigh⟩

section

variable {burst avg limit : Int}

theorem average_eq (havg : 0 ≤ avg) : average burst avg = 50 * burst + avg / 2 := by
  have hhalf : ((100 - ALPHA) * avg).tdiv 100 = avg / 2 := by
    change (50 * avg).tdiv 100 = avg / 2
    rw [Int.tdiv_eq_ediv_of_nonneg (by omega)]
    omega
  rw [average, hhalf]
  rfl

theorem updateAverage_eq (hlimit : 50 * limit < 2 ^ 31) (hburst : 0 ≤ burst)
    (hburst' : 100 * burst ≤ limit) (havg : 0 ≤ avg) (havg' : avg ≤ limit) :
    updateAverage burst avg = some (average burst avg) := by
  have hvalue : average burst avg = 50 * burst + avg / 2 := average_eq havg
  have hhalf : (50 * avg).tdiv 100 = avg / 2 := by
    rw [Int.tdiv_eq_ediv_of_nonneg (by omega)]
    omega
  have hnew : int32 (ALPHA * burst) = some (50 * burst) :=
    int32_of_fits (x := 50 * burst) (by omega) (by omega)
  have hold : int32 (50 * avg) = some (50 * avg) := int32_of_fits (by omega) (by omega)
  have hquot : int32 (avg / 2) = some (avg / 2) := int32_of_fits (by omega) (by omega)
  have hsum : int32 (50 * burst + avg / 2) = some (50 * burst + avg / 2) :=
    int32_of_fits (by omega) (by omega)
  have hweight : int32 (100 - ALPHA) = some 50 := rfl
  rw [updateAverage, hnew, hweight, hvalue]
  change (int32 (50 * avg)).bind (fun old => (int32 (old.tdiv 100)).bind fun old =>
    int32 (50 * burst + old)) = _
  rw [hold, Option.bind_some, hhalf, hquot, Option.bind_some, hsum]

theorem average_between (havg : 0 ≤ avg) :
    min avg (100 * burst) ≤ average burst avg ∧ average burst avg ≤ max avg (100 * burst) := by
  rw [average_eq havg]
  omega

theorem average_sub (havg : 0 ≤ avg) :
    average burst avg - 100 * burst = (avg - 100 * burst) / 2 := by
  rw [average_eq havg]
  omega

end

def Bounded (limit : Int) (bursts : List Int) : Prop := ∀ b ∈ bursts, 0 ≤ b ∧ 100 * b ≤ limit

section

variable {limit : Int} {bursts : List Int}

theorem estimate_append (bursts : List Int) (b : Int) :
    estimate (bursts ++ [b]) = (estimate bursts).bind (updateAverage b) := by
  unfold estimate
  rw [List.foldlM_append]
  cases bursts.foldlM (fun avg burst => updateAverage burst avg) ((QUANTUM : Int) * 100) with
  | none => rfl
  | some avg =>
    change (updateAverage b avg).bind some = updateAverage b avg
    exact Option.bind_fun_some _

theorem estimate_bounded (hlimit : 50 * limit < 2 ^ 31) (hquantum : (QUANTUM : Int) * 100 ≤ limit)
    (h : Bounded limit bursts) : ∃ avg, estimate bursts = some avg ∧ 0 ≤ avg ∧ avg ≤ limit := by
  induction bursts using List.reverseRecOn with
  | nil => exact ⟨_, rfl, by decide, hquantum⟩
  | append_singleton bursts b ih =>
    obtain ⟨avg, havg, hlow, hhigh⟩ := ih fun x hx => h x (List.mem_append_left _ hx)
    obtain ⟨hb, hb'⟩ := h b (by simp)
    obtain ⟨hmin, hmax⟩ : min avg (100 * b) ≤ average b avg ∧
        average b avg ≤ max avg (100 * b) := average_between hlow
    refine ⟨average b avg, ?_, by omega, by omega⟩
    rw [estimate_append, havg, Option.bind_some, updateAverage_eq hlimit hb hb' hlow hhigh]

/-- After `k` equal bursts the distance is divided by `2 ^ k`, rounded down. -/
theorem estimate_replicate (hlimit : 50 * limit < 2 ^ 31) (hquantum : (QUANTUM : Int) * 100 ≤ limit)
    {b : Int} (hb : 0 ≤ b) (hb' : 100 * b ≤ limit) (k : Nat) :
    ∃ avg, estimate (List.replicate k b) = some avg ∧
      avg - 100 * b = (QUANTUM * 100 - 100 * b) / 2 ^ k := by
  induction k with
  | zero => exact ⟨_, rfl, by simp⟩
  | succ k ih =>
    obtain ⟨avg, havg, hdist⟩ := ih
    have hbounded : Bounded limit (List.replicate k b) := by
      intro x hx
      rw [List.eq_of_mem_replicate hx]
      exact ⟨hb, hb'⟩
    obtain ⟨avg', havg', hlow, hhigh⟩ := estimate_bounded hlimit hquantum hbounded
    obtain rfl : avg = avg' := Option.some.inj (havg.symm.trans havg')
    refine ⟨average b avg, ?_, ?_⟩
    · rw [List.replicate_succ', estimate_append, havg, Option.bind_some,
        updateAverage_eq hlimit hb hb' hlow hhigh]
    · calc average b avg - 100 * b = (avg - 100 * b) / 2 := average_sub hlow
        _ = (QUANTUM * 100 - 100 * b) / 2 ^ k / 2 := by rw [hdist]
        _ = (QUANTUM * 100 - 100 * b) / 2 ^ (k + 1) := by
            rw [Int.ediv_ediv_of_nonneg (by positivity), pow_succ]

end

theorem abs_ediv_le (x : Int) {m : Int} (hm : 0 < m) : |x / m| ≤ |x| / m + 1 := by
  rcases le_or_gt 0 x with hx | hx
  · rw [abs_of_nonneg hx, abs_of_nonneg (Int.ediv_nonneg hx hm.le)]
    omega
  · have hquot : -(x / m) - 1 ≤ -x / m := by
      have hmod := Int.emod_add_mul_ediv x m
      have hlow := Int.emod_nonneg x hm.ne'
      have hhigh := Int.emod_lt_of_pos x hm
      rw [Int.le_ediv_iff_mul_le hm]
      linarith [mul_comm (x / m) m]
    rw [abs_of_neg hx, abs_of_nonpos (Int.ediv_nonpos_of_nonpos_of_neg hx.le hm)]
    omega

/-- The estimate never overflows, is always between the old one and the last burst, and comes
within one hundredth of a burst that repeats. -/
theorem burst_average_stable {limit : Int} (hlimit : 5000 * max (QUANTUM : Int) limit < 2 ^ 31)
    {bursts : List Int} (h : ∀ b ∈ bursts, 0 ≤ b ∧ b ≤ limit) :
    ∃ avg, estimate bursts = some avg ∧ 0 ≤ avg ∧ avg ≤ 100 * max (QUANTUM : Int) limit ∧
      (∀ b, 0 ≤ b → b ≤ limit → updateAverage b avg = some (average b avg) ∧
        min avg (100 * b) ≤ average b avg ∧ average b avg ≤ max avg (100 * b)) ∧
      ∀ b, 0 ≤ b → b ≤ limit → ∀ k, bursts = List.replicate k b →
        |avg - 100 * b| ≤ |100 * QUANTUM - 100 * b| / 2 ^ k + 1 := by
  have hbound : 50 * (100 * max (QUANTUM : Int) limit) < 2 ^ 31 := by omega
  have hquantum : (QUANTUM : Int) * 100 ≤ 100 * max (QUANTUM : Int) limit := by omega
  have hburst : ∀ b, b ≤ limit → 100 * b ≤ 100 * max (QUANTUM : Int) limit := by
    intro b hb
    omega
  obtain ⟨avg, havg, hlow, hhigh⟩ :=
    estimate_bounded hbound hquantum fun b hb => ⟨(h b hb).1, hburst b (h b hb).2⟩
  refine ⟨avg, havg, hlow, hhigh, fun b hb hb' => ⟨?_, average_between hlow⟩, ?_⟩
  · exact updateAverage_eq hbound hb (hburst b hb') hlow hhigh
  · intro b hb hb' k hk
    obtain ⟨avg', havg', hdist⟩ := estimate_replicate hbound hquantum hb (hburst b hb') k
    rw [hk] at havg
    obtain rfl : avg = avg' := Option.some.inj (havg.symm.trans havg')
    rw [hdist, mul_comm (QUANTUM : Int) 100]
    exact abs_ediv_le _ (by positivity)

theorem burst_average_stable_sample :
    ∃ avg, estimate [3, 3, 3] = some avg ∧ |avg - 300| ≤ 26 := by
  obtain ⟨avg, havg, -, -, -, hdist⟩ := @burst_average_stable 9 (by decide)
    [3, 3, 3] (by decide)
  exact ⟨avg, havg, hdist 3 (by decide) (by decide) 3 rfl⟩

end Xv6.Sched
