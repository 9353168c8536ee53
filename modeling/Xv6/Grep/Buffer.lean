import Xv6.Grep.Match

/-!
# The buffer of `grep`

`grep` reads into what is left of its buffer, prints the lines that match, and moves the rest to
the front.  A line that does not fit into the buffer ends the search.
-/

namespace Xv6.Grep

abbrev newline : UInt8 := 10

/-- `sizeof(buf)` -/
abbrev bufSize : Nat := 1024

/-- `strchr`: how far behind `s` the character is. -/
def strchr (c : UInt8) : Str → Option Nat
  | [] => none
  | x :: s => if x = 0 then none else if x = c then some 0 else (strchr c s).map (· + 1)

theorem strchr_lt {c : UInt8} {s : Str} {k : Nat} (h : strchr c s = some k) : k < s.length := by
  induction s generalizing k with
  | nil => cases h
  | cons x s ih =>
    rw [strchr] at h
    split at h
    · cases h
    · split at h
      · cases h
        exact Nat.succ_pos _
      · obtain ⟨j, hj, rfl⟩ := Option.map_eq_some_iff.1 h
        exact Nat.succ_lt_succ (ih hj)

/-- The inner loop, from `p` on: what is written, and what is left behind the last line. -/
def printLines (pattern p : Str) : Str × Str :=
  match _h : strchr newline p with
  | none => ([], p)
  | some k =>
    let line := p.take k
    let rest := printLines pattern (p.drop (k + 1))
    (if isMatch pattern line then line ++ newline :: rest.1 else rest.1, rest.2)
termination_by p.length
decreasing_by
  have hk := strchr_lt _h
  rw [List.length_drop]
  omega

/-- `read` of at most `want` bytes returns `more + 1` of them, or as many as there are. -/
def readSize (more want : Nat) (input : Str) : Nat := min (more + 1) (min want input.length)

/-- The outer loop; `left` is what is in the buffer and `input` is what has not been read.  Of the
reads, the one with this much to come returns `split input.length + 1` bytes, if there are. -/
def grepLoop (pattern : Str) (split : Nat → Nat) (left input : Str) : Str :=
  let n := readSize (split input.length) (bufSize - left.length - 1) input
  if _h : n = 0 then []
  else
    let (out, rest) := printLines pattern (left ++ input.take n)
    out ++ grepLoop pattern split rest (input.drop n)
termination_by input.length
decreasing_by
  have hn : n ≤ input.length := Nat.le_trans (Nat.min_le_right ..) (Nat.min_le_right ..)
  rw [List.length_drop]
  omega

/-- What `grep` writes. -/
def grep (pattern : Str) (split : Nat → Nat) (input : Str) : Str := grepLoop pattern split [] input

/-- The text with these lines. -/
def unlines (ls : List Str) : Str := ls.flatMap (· ++ [newline])

/-- Neither a NUL nor the end of a line. -/
def Line (l : Str) : Prop := 0 ∉ l ∧ newline ∉ l

instance (l : Str) : Decidable (Line l) := inferInstanceAs (Decidable (0 ∉ l ∧ newline ∉ l))

section

variable {pattern : Str} {split : Nat → Nat} {l p input : Str} {ls : List Str}

theorem strchr_newline (hl : Line l) : strchr newline (l ++ newline :: p) = some l.length := by
  induction l with
  | nil => rfl
  | cons x l ih =>
    obtain ⟨hz, hn⟩ := hl
    rw [List.mem_cons, not_or] at hz hn
    rw [List.cons_append, strchr, if_neg (Ne.symm hz.1), if_neg (Ne.symm hn.1), ih ⟨hz.2, hn.2⟩]
    rfl

theorem strchr_none (hl : newline ∉ l) : strchr newline l = none := by
  induction l with
  | nil => rfl
  | cons x l ih =>
    rw [List.mem_cons, not_or] at hl
    rw [strchr, if_neg (Ne.symm hl.1), ih hl.2]
    split <;> rfl

theorem printLines_none (hp : newline ∉ p) : printLines pattern p = ([], p) := by
  rw [printLines]
  split
  · rfl
  · next k hk =>
    rw [strchr_none hp] at hk
    cases hk

theorem printLines_line (hl : Line l) :
    printLines pattern (l ++ newline :: p) =
      (if isMatch pattern l then l ++ newline :: (printLines pattern p).1
        else (printLines pattern p).1, (printLines pattern p).2) := by
  rw [printLines]
  split
  · next hk =>
    rw [strchr_newline hl] at hk
    cases hk
  · next k hk =>
    rw [strchr_newline hl] at hk
    cases hk
    have hrest : (l ++ newline :: p).drop (l.length + 1) = p := by
      rw [← List.drop_drop, List.drop_left, List.drop_one, List.tail_cons]
    rw [List.take_left, hrest]

theorem unlines_cons (l : Str) (ls : List Str) : unlines (l :: ls) = l ++ newline :: unlines ls := by
  simp [unlines]

/-- Two ways to cut a text, one of them at the end of its first line. -/
theorem line_cases (hp : p ++ input = l ++ newline :: unlines ls) :
    (∃ q, p = l ++ newline :: q ∧ q ++ input = unlines ls) ∨ p <+: l := by
  rcases List.append_eq_append_iff.1 hp with ⟨q, rfl, hq⟩ | ⟨q, rfl, hq⟩
  · exact .inr (List.prefix_append p q)
  · cases q with
    | nil => exact .inr (by simp)
    | cons x q =>
      obtain ⟨rfl, hrest⟩ := List.cons.inj hq
      exact .inl ⟨q, rfl, hrest.symm⟩

/-- The lines that are whole are printed if they match, and what is left starts the next one. -/
theorem printLines_spec (hls : ∀ l ∈ ls, Line l) (hp : p ++ input = unlines ls) :
    ∃ done todo left, ls = done ++ todo ∧
      printLines pattern p = (unlines (done.filter (isMatch pattern ·)), left) ∧
      left ++ input = unlines todo ∧ newline ∉ left := by
  induction ls generalizing p with
  | nil =>
    obtain ⟨rfl, rfl⟩ := List.append_eq_nil_iff.1 hp
    exact ⟨[], [], [], rfl, printLines_none nofun, rfl, nofun⟩
  | cons l ls ih =>
    obtain ⟨hl, hls⟩ := List.forall_mem_cons.1 hls
    rcases line_cases (hp.trans (unlines_cons l ls)) with ⟨q, rfl, hq⟩ | hpre
    · obtain ⟨done, todo, left, rfl, hprint, hleft, hnl⟩ := ih hls hq
      refine ⟨l :: done, todo, left, rfl, ?_, hleft, hnl⟩
      rw [printLines_line hl, hprint, List.filter_cons]
      split
      · rw [unlines_cons]
      · rfl
    · have hnl : newline ∉ p := fun hmem => hl.2 (hpre.subset hmem)
      exact ⟨[], l :: ls, p, rfl, printLines_none hnl, hp, hnl⟩

/-- A round of the loop, when there is room and something to read. -/
theorem grepLoop_round {left : Str} (hroom : left.length < bufSize - 1) (hinput : input ≠ []) :
    ∃ n, 0 < n ∧ n ≤ input.length ∧ grepLoop pattern split left input =
      (printLines pattern (left ++ input.take n)).1 ++
        grepLoop pattern split (printLines pattern (left ++ input.take n)).2 (input.drop n) := by
  have hlen := List.length_pos_iff.2 hinput
  have hpos : 0 < readSize (split input.length) (bufSize - left.length - 1) input := by
    unfold readSize
    omega
  have hle : readSize (split input.length) (bufSize - left.length - 1) input ≤ input.length := by
    unfold readSize
    omega
  refine ⟨_, hpos, hle, ?_⟩
  rw [grepLoop, dif_neg (Nat.ne_of_gt hpos)]

theorem grepLoop_full {left : Str} (hfull : bufSize - 1 ≤ left.length) :
    grepLoop pattern split left input = [] := by
  rw [grepLoop, dif_pos]
  unfold readSize
  omega

/-- What is left is part of one line, so that every round has room for a read. -/
theorem grepLoop_spec {left : Str} (hls : ∀ l ∈ ls, Line l ∧ l.length < bufSize - 1)
    (hleft : left ++ input = unlines ls) (hnl : newline ∉ left) :
    grepLoop pattern split left input = unlines (ls.filter (isMatch pattern ·)) := by
  induction hlen : input.length using Nat.strong_induction_on generalizing left input ls with
  | _ len ih =>
    cases ls with
    | nil =>
      obtain ⟨rfl, rfl⟩ := List.append_eq_nil_iff.1 hleft
      rw [grepLoop]
      rfl
    | cons l ls =>
      have hroom : left.length < bufSize - 1 := by
        rcases line_cases (hleft.trans (unlines_cons l ls)) with ⟨q, rfl, -⟩ | hpre
        · exact absurd (by simp) hnl
        · exact Nat.lt_of_le_of_lt hpre.length_le (hls l List.mem_cons_self).2
      have hinput : input ≠ [] := by
        rintro rfl
        rw [List.append_nil, unlines_cons] at hleft
        exact hnl (by simp [hleft])
      obtain ⟨n, hpos, hle, hround⟩ := grepLoop_round hroom hinput
      have hcut : (left ++ input.take n) ++ input.drop n = unlines (l :: ls) := by
        rw [List.append_assoc, List.take_append_drop, hleft]
      obtain ⟨done, todo, rest, hdone, hprint, hrest, hnl⟩ :=
        printLines_spec (fun l hl => (hls l hl).1) hcut
      have htodo : ∀ l ∈ todo, Line l ∧ l.length < bufSize - 1 :=
        fun l hl => hls l (hdone ▸ List.mem_append_right done hl)
      have hshort : (input.drop n).length < len := by
        rw [List.length_drop]
        omega
      rw [hround, hprint, ih _ hshort htodo hrest hnl rfl, hdone, List.filter_append]
      exact (List.flatMap_append).symm

end

def longLine : Str := List.replicate (bufSize - 1) 97

end Xv6.Grep
