import Xv6.Shell.Code

/-!
# The tokens of a line

`gettoken` and `peek` move over blanks and tokens, so that what the parser sees of the
line at `*ps` is the list of the tokens from there on.
-/

namespace Xv6.Shell

open Lib.Cmd

inductive Token
  | pipe
  | lpar
  | rpar
  | semi
  | amp
  | lt
  | gt
  | app
  | word (w : Span)
  deriving DecidableEq, Repr

/-- What `gettoken` returns for a token. -/
def Token.code : Token → UInt8
  | .pipe => 124
  | .lpar => 40
  | .rpar => 41
  | .semi => 59
  | .amp => 38
  | .lt => 60
  | .gt => 62
  | .app => 43
  | .word _ => 97

def tokenOf (code : UInt8) (w : Span) : Token :=
  if code = 124 then .pipe
  else if code = 40 then .lpar
  else if code = 41 then .rpar
  else if code = 59 then .semi
  else if code = 38 then .amp
  else if code = 60 then .lt
  else if code = 62 then .gt
  else if code = 43 then .app
  else .word w

section Lexer

variable {p : UInt8 → Bool} {line : Str} {s q i : Nat}

theorem le_skipWhile : s ≤ skipWhile p line s := Nat.le_add_right _ _

theorem skipWhile_le (h : s ≤ line.length) : skipWhile p line s ≤ line.length := by
  have hlen : (line.drop s).findIdx (fun c => !p c) ≤ (line.drop s).length := List.findIdx_le_length
  rw [List.length_drop] at hlen
  unfold skipWhile
  omega

theorem charAt_eq (h : i < line.length) : charAt line i = (line)[i] := by
  simp [charAt, h]

theorem charAt_end (h : line.length ≤ i) : charAt line i = 0 := by
  simp [charAt, h]

theorem skipWhile_stop (h : skipWhile p line s < line.length) :
    p (charAt line (skipWhile p line s)) = false := by
  have hlt : (line.drop s).findIdx (fun c => !p c) < (line.drop s).length := by
    rw [List.length_drop]
    unfold skipWhile at h
    omega
  have hfind := List.findIdx_getElem (w := hlt)
  rw [List.getElem_drop] at hfind
  rw [charAt_eq h]
  simpa [skipWhile] using hfind

theorem skipWhile_skipped (hs : s ≤ i) (h : i < skipWhile p line s) : p (charAt line i) = true := by
  have hlt : i - s < (line.drop s).findIdx (fun c => !p c) := by
    unfold skipWhile at h
    omega
  have hlen : i - s < (line.drop s).length := Nat.lt_of_lt_of_le hlt List.findIdx_le_length
  have hfind := List.not_of_lt_findIdx hlt
  rw [List.getElem_drop] at hfind
  rw [List.length_drop] at hlen
  rw [charAt_eq (by omega)]
  simpa [show s + (i - s) = i by omega] using hfind

theorem skipWhile_of_stop (h : p (charAt line s) = false) : skipWhile p line s = s := by
  by_contra hne
  have hlt : s < skipWhile p line s := Nat.lt_of_le_of_ne le_skipWhile (Ne.symm hne)
  rw [skipWhile_skipped (Nat.le_refl s) hlt] at h
  exact Bool.noConfusion h

theorem skipWhile_of_length_le (h : line.length ≤ s) : skipWhile p line s = s := by
  unfold skipWhile
  rw [List.drop_eq_nil_of_le h]
  rfl

theorem skipWhile_skipWhile : skipWhile p line (skipWhile p line s) = skipWhile p line s := by
  by_cases h : skipWhile p line s < line.length
  · exact skipWhile_of_stop (skipWhile_stop h)
  · exact skipWhile_of_length_le (by omega)

theorem lt_skipWhile (hs : s < line.length) (h : p (charAt line s) = true) :
    s < skipWhile p line s := by
  by_contra hle
  have heq : skipWhile p line s = s := Nat.le_antisymm (by omega) le_skipWhile
  have hstop : p (charAt line (skipWhile p line s)) = false := skipWhile_stop (by omega)
  rw [heq, h] at hstop
  exact Bool.noConfusion hstop

theorem tokenAt_cases (hb : isBlank (charAt line q) = false) :
    charAt line q = 0 ∧ tokenAt line q = (0, q) ∨
    charAt line q ∈ [124, 40, 41, 59, 38, 60] ∧ tokenAt line q = (charAt line q, q + 1) ∨
    charAt line q = 62 ∧ charAt line (q + 1) = 62 ∧ tokenAt line q = (43, q + 2) ∨
    charAt line q = 62 ∧ tokenAt line q = (62, q + 1) ∨
    charAt line q ≠ 0 ∧ isWord (charAt line q) = true ∧
      tokenAt line q = (97, skipWhile isWord line q) := by
  by_cases h0 : charAt line q = 0
  · left
    exact ⟨h0, by simp [tokenAt, h0]⟩
  by_cases hs : charAt line q ∈ [124, 40, 41, 59, 38, 60]
  · right; left
    exact ⟨hs, by simp only [tokenAt, if_neg h0, if_pos hs]⟩
  by_cases hg : charAt line q = 62
  · by_cases ha : charAt line (q + 1) = 62
    · right; right; left
      exact ⟨hg, ha, by simp [tokenAt, hg, ha]⟩
    · right; right; right; left
      exact ⟨hg, by simp [tokenAt, hg, ha]⟩
  · right; right; right; right
    refine ⟨h0, ?_, by simp only [tokenAt, if_neg h0, if_neg hs, if_neg hg]⟩
    simp only [List.mem_cons, List.not_mem_nil, or_false, not_or] at hs
    rw [isWord, show whitespace.contains (charAt line q) = false from hb]
    simp [symbols, hs, hg]

theorem lt_of_charAt_ne (h : charAt line q ≠ 0) : q < line.length := by
  by_contra hle
  exact h (charAt_end (by omega))

theorem tokenAt_lt (hb : isBlank (charAt line q) = false) (h : (tokenAt line q).1 ≠ 0) :
    q < (tokenAt line q).2 ∧ (tokenAt line q).2 ≤ line.length := by
  rcases tokenAt_cases hb with ⟨_, ht⟩ | ⟨hc, ht⟩ | ⟨_, hc, ht⟩ | ⟨hc, ht⟩ | ⟨hc, hw, ht⟩
  · rw [ht] at h
    exact absurd rfl h
  · rw [ht] at h ⊢
    have hlt := lt_of_charAt_ne h
    exact ⟨by simp, hlt⟩
  · have hlt : q + 1 < line.length := lt_of_charAt_ne (by rw [hc]; decide)
    rw [ht]
    exact ⟨by simp, hlt⟩
  · have hlt : q < line.length := lt_of_charAt_ne (by rw [hc]; decide)
    rw [ht]
    exact ⟨by simp, hlt⟩
  · have hlt := lt_of_charAt_ne hc
    rw [ht]
    exact ⟨lt_skipWhile hlt hw, skipWhile_le (Nat.le_of_lt hlt)⟩

theorem not_isBlank_skipWhile : isBlank (charAt line (skipWhile isBlank line s)) = false := by
  by_cases h : skipWhile isBlank line s < line.length
  · exact skipWhile_stop h
  · rw [charAt_end (by omega)]
    decide

end Lexer

/-- The tokens of the line from `s` on. -/
def lex (line : Str) (s : Nat) : List Token :=
  let q := skipWhile isBlank line s
  let t := tokenAt line q
  if t.1 = 0 then [] else tokenOf t.1 { start := q, stop := t.2 } :: lex line (skipWhile isBlank line t.2)
termination_by line.length - s
decreasing_by
  have hlt := tokenAt_lt not_isBlank_skipWhile ‹_›
  have hq : s ≤ skipWhile isBlank line s := le_skipWhile
  have hnext : (tokenAt line (skipWhile isBlank line s)).2 ≤
    skipWhile isBlank line (tokenAt line (skipWhile isBlank line s)).2 := le_skipWhile
  omega

def starts (toks : Str) : List Token → Bool
  | [] => false
  | .word _ :: _ => false
  | .app :: _ => toks.contains 62
  | t :: _ => toks.contains t.code

structure At (line : Str) (s : Nat) (ts : List Token) : Prop where
  within : s ≤ line.length
  tokens : lex line s = ts

namespace At

variable {line toks : Str} {s : Nat} {t : Token} {ts : List Token}

theorem start : At line 0 (lex line 0) := ⟨Nat.zero_le _, rfl⟩

theorem skip (h : At line s ts) : At line (skipWhile isBlank line s) ts where
  within := skipWhile_le h.within
  tokens := by
    rw [← h.tokens]
    conv => lhs; rw [lex]
    conv => rhs; rw [lex]
    simp only [skipWhile_skipWhile]

theorem nil_tokenAt (h : At line s []) : (tokenAt line (skipWhile isBlank line s)).1 = 0 := by
  have hlex := h.tokens
  rw [lex] at hlex
  by_contra hne
  rw [if_neg hne] at hlex
  exact List.cons_ne_nil _ _ hlex

theorem cons_tokenAt (h : At line s (t :: ts)) :
    (tokenAt line (skipWhile isBlank line s)).1 ≠ 0 ∧
    t = tokenOf (tokenAt line (skipWhile isBlank line s)).1
      { start := skipWhile isBlank line s
        stop := (tokenAt line (skipWhile isBlank line s)).2 } ∧
    At line (skipWhile isBlank line (tokenAt line (skipWhile isBlank line s)).2) ts := by
  have hlex := h.tokens
  rw [lex] at hlex
  by_cases hc : (tokenAt line (skipWhile isBlank line s)).1 = 0
  · rw [if_pos hc] at hlex
    exact absurd hlex.symm (List.cons_ne_nil _ _)
  · rw [if_neg hc] at hlex
    obtain ⟨htok, hrest⟩ := List.cons.inj hlex
    have hle := (tokenAt_lt not_isBlank_skipWhile hc).2
    exact ⟨hc, htok.symm, skipWhile_le hle, hrest⟩

end At

variable {c : UInt8} {w : Span} {line : Str} {q : Nat}

theorem code_tokenOf (h : c ∈ [124, 40, 41, 59, 38, 60, 62, 43, 97]) (w : Span) :
    (tokenOf c w).code = c := by
  simp only [List.mem_cons, List.not_mem_nil, or_false] at h
  rcases h with rfl | rfl | rfl | rfl | rfl | rfl | rfl | rfl | rfl <;> rfl

theorem tokenOf_word {v : Span} (h : tokenOf c v = .word w) : v = w := by
  unfold tokenOf at h
  repeat' split at h
  all_goals first | exact Token.word.inj h | exact Token.noConfusion h

theorem tokenAt_mem (hb : isBlank (charAt line q) = false) (h : (tokenAt line q).1 ≠ 0) :
    (tokenAt line q).1 ∈ [124, 40, 41, 59, 38, 60, 62, 43, (97 : UInt8)] := by
  rcases tokenAt_cases hb with ⟨_, ht⟩ | ⟨hc, ht⟩ | ⟨_, _, ht⟩ | ⟨_, ht⟩ | ⟨_, _, ht⟩
  · rw [ht] at h
    exact absurd rfl h
  · rw [ht]
    simp only [List.mem_cons, List.not_mem_nil, or_false] at hc ⊢
    tauto
  all_goals
    rw [ht]
    simp

theorem tokenAt_zero (hb : isBlank (charAt line q) = false)
    (h : (tokenAt line q).1 = 0) : charAt line q = 0 ∧ tokenAt line q = (0, q) := by
  rcases tokenAt_cases hb with hend | ⟨hc, ht⟩ | ⟨_, _, ht⟩ | ⟨_, ht⟩ | ⟨_, _, ht⟩
  · exact hend
  · rw [ht] at h
    rw [show charAt line q = 0 from h] at hc
    exact absurd hc (by decide)
  all_goals
    rw [ht] at h
    exact absurd h (by simp)

theorem not_mem_symbols (h : isWord c = true) : c ∉ symbols := by
  rw [isWord, Bool.and_eq_true] at h
  simpa using h.2

theorem starts_tokenOf {toks : Str} {ts : List Token} (htoks : ∀ c ∈ toks, c ∈ symbols)
    (hb : isBlank (charAt line q) = false) (h : (tokenAt line q).1 ≠ 0) :
    starts toks (tokenOf (tokenAt line q).1 w :: ts) =
      (charAt line q != 0 && toks.contains (charAt line q)) := by
  rcases tokenAt_cases hb with ⟨_, ht⟩ | ⟨hc, ht⟩ | ⟨hc, _, ht⟩ | ⟨hc, ht⟩ | ⟨_, hw, ht⟩
  · rw [ht] at h
    exact absurd rfl h
  · rw [ht]
    simp only [List.mem_cons, List.not_mem_nil, or_false] at hc
    rcases hc with hc | hc | hc | hc | hc | hc <;> rw [hc] <;> rfl
  · rw [ht, hc]
    rfl
  · rw [ht, hc]
    rfl
  · have hnot : charAt line q ∉ toks := fun hmem => not_mem_symbols hw (htoks _ hmem)
    rw [ht, List.contains_eq_mem, decide_eq_false hnot, Bool.and_false]
    rfl

section Rules

variable {line toks : Str} {s : Nat} {t : Token} {ts : List Token} {E : Fail → Prop} {α : Type}
  {f : UInt8 × Span → Parser α} {P : α → Nat → Prop}

theorem wp_gettoken (h : At line s (t :: ts))
    (hf : ∀ r s', r.1 = t.code → (∀ w, t = .word w → r.2 = w) → At line s' ts → wp (f r) P E s') :
    wp (gettoken line >>= f) P E s := by
  obtain ⟨hne, ht, hat⟩ := h.cons_tokenAt
  rw [wp_bind]
  apply hf _ _ _ _ hat
  · rw [ht, code_tokenOf (tokenAt_mem not_isBlank_skipWhile hne)]
  · intro w hw
    rw [ht] at hw
    exact tokenOf_word hw

theorem wp_gettoken_end (h : At line s [])
    (hf : ∀ r s', r.1 = 0 → At line s' [] → wp (f r) P E s') :
    wp (gettoken line >>= f) P E s := by
  rw [wp_bind]
  apply hf _ _ h.nil_tokenAt
  rw [(tokenAt_zero not_isBlank_skipWhile h.nil_tokenAt).2]
  exact h.skip.skip

theorem wp_peek {Q : Bool → Nat → Prop} (htoks : ∀ c ∈ toks, c ∈ symbols) (h : At line s ts)
    (hQ : ∀ s', At line s' ts → Q (starts toks ts) s') : wp (peek line toks) Q E s := by
  have hval : (charAt line (skipWhile isBlank line s) != 0 &&
      toks.contains (charAt line (skipWhile isBlank line s))) = starts toks ts := by
    cases ts with
    | nil =>
      rw [(tokenAt_zero not_isBlank_skipWhile h.nil_tokenAt).1]
      rfl
    | cons t ts =>
      obtain ⟨hne, ht, -⟩ := h.cons_tokenAt
      rw [ht]
      exact (starts_tokenOf htoks not_isBlank_skipWhile hne).symm
  have hstep := hQ _ h.skip
  rw [← hval] at hstep
  exact hstep

end Rules

/-- A line without a NUL has been read when there are no more tokens. -/
theorem At.skip_eq_iff {s : Nat} {ts : List Token} (h : At line s ts)
    (hz : 0 ∉ line) : skipWhile isBlank line s = line.length ↔ ts = [] := by
  have hle := h.skip.within
  cases ts with
  | nil =>
    have hend := (tokenAt_zero not_isBlank_skipWhile h.nil_tokenAt).1
    refine iff_of_true ?_ rfl
    by_contra hne
    have hlt : skipWhile isBlank line s < line.length := by omega
    rw [charAt_eq hlt] at hend
    exact hz (hend ▸ List.getElem_mem hlt)
  | cons t ts =>
    obtain ⟨hne, -, -⟩ := h.cons_tokenAt
    have hlt := tokenAt_lt not_isBlank_skipWhile hne
    refine iff_of_false ?_ (List.cons_ne_nil _ _)
    omega

/-!
## Words
-/

structure Word (line : Str) (w : Span) : Prop where
  nonempty : w.start < w.stop
  within : w.stop ≤ line.length
  inside : ∀ i, w.start ≤ i → i < w.stop → isWord (charAt line i) = true
  ends : w.stop < line.length → isWord (charAt line w.stop) = false

theorem word_of_tokenOf (hb : isBlank (charAt line q) = false) (hne : (tokenAt line q).1 ≠ 0)
    (h : tokenOf (tokenAt line q).1 { start := q, stop := (tokenAt line q).2 } = .word w) :
    Word line w := by
  have hlt := tokenAt_lt hb hne
  rcases tokenAt_cases hb with ⟨_, ht⟩ | ⟨hc, ht⟩ | ⟨_, _, ht⟩ | ⟨_, ht⟩ | ⟨_, _, ht⟩
  · rw [ht] at hne
    exact absurd rfl hne
  · rw [ht] at h
    simp only [List.mem_cons, List.not_mem_nil, or_false] at hc
    rcases hc with hc | hc | hc | hc | hc | hc <;> rw [hc] at h <;> exact Token.noConfusion h
  · rw [ht] at h
    exact Token.noConfusion h
  · rw [ht] at h
    exact Token.noConfusion h
  · rw [ht] at h hlt
    obtain rfl := Token.word.inj h
    exact ⟨hlt.1, hlt.2, fun i hs hi => skipWhile_skipped hs hi, skipWhile_stop⟩

theorem word_of_mem_lex {s : Nat} (h : .word w ∈ lex line s) : Word line w := by
  fun_induction lex line s with
  | case1 s q t ht => exact absurd h List.not_mem_nil
  | case2 s q t ht ih =>
    rcases List.mem_cons.1 h with heq | hmem
    · exact word_of_tokenOf not_isBlank_skipWhile ht heq.symm
    · exact ih hmem

end Xv6.Shell
