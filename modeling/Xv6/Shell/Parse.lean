import Xv6.Shell.Complete

/-!
# `parsecmd`

The shell accepts the lines of its grammar, with the command of the derivation, and
panics at all others.  The strings of the command end in a NUL after `nulterminate`.
-/

namespace Xv6.Shell

open Lib.Cmd

theorem length_lex_le (line : Str) (s : Nat) : (lex line s).length ≤ line.length - s := by
  fun_induction lex line s with
  | case1 s q t ht => exact Nat.zero_le _
  | case2 s q t ht ih =>
    have hq : s ≤ q := le_skipWhile
    have hlt : q < t.2 ∧ t.2 ≤ line.length := tokenAt_lt not_isBlank_skipWhile ht
    have hnext : t.2 ≤ skipWhile isBlank line t.2 := le_skipWhile
    rw [List.length_cons]
    omega

theorem zero_not_mem_lineOf (buf : Str) : 0 ∉ lineOf buf := by
  intro h
  exact absurd (List.mem_takeWhile_imp h) (by decide)

variable {cmd : Cmd} {buf : Str} {ts : List Token}

section Whole

variable {line : Str} {n : Nat}

theorem parseall_sound (hz : 0 ∉ line) (hn : 4 * (lex line 0).length + 4 ≤ n) :
    wp (parseall line n) (fun cmd _ => Derives .line (lex line 0) cmd) Panics 0 := by
  rw [parseall, wp_bind]
  apply (parseline_sound .start hn).imp
  rintro cmd s₁ ⟨used, rest, htokens, h₁, hd⟩
  change wp (if skipWhile isBlank line s₁ ≠ line.length then _ else _) _ _ _
  rw [wp_ite]
  refine ⟨fun _ => nofun, fun hend => ?_⟩
  have hrest : rest = [] := (h₁.skip_eq_iff hz).1 (not_not.1 hend)
  rw [hrest, List.append_nil] at htokens
  rw [htokens]
  exact hd

theorem parseall_complete (hz : 0 ∉ line) (hd : Derives .line (lex line 0) cmd)
    (hn : 4 * (lex line 0).length + 4 ≤ n) :
    wp (parseall line n) (fun c _ => c = cmd) (fun _ => False) 0 := by
  have hstart : At line 0 (lex line 0 ++ []) := by
    rw [List.append_nil]
    exact .start
  rw [parseall, wp_bind]
  apply (derives_complete hd hstart (.inl rfl) hn).imp
  rintro _ s₁ ⟨rfl, h₁⟩
  change wp (if skipWhile isBlank line s₁ ≠ line.length then _ else _) _ _ _
  rw [if_neg (not_not.2 ((h₁.skip_eq_iff hz).2 rfl))]
  rfl

end Whole

/-!
## The strings
-/

/-- The words and the files of a command. -/
def Cmd.strings : Cmd → List Span
  | .exec argv => argv
  | .redir cmd file _ _ => cmd.strings ++ [file]
  | .pipe left right => left.strings ++ right.strings
  | .list left right => left.strings ++ right.strings
  | .back cmd => cmd.strings

theorem nulterminate_eq (cmd : Cmd) (buf : Str) :
    nulterminate cmd buf = cmd.strings.foldl (fun b w => b.set w.stop 0) buf := by
  induction cmd generalizing buf with
  | exec argv => rfl
  | redir cmd file mode fd ih => rw [nulterminate, Cmd.strings, List.foldl_append, ih]; rfl
  | pipe left right ihl ihr => rw [nulterminate, Cmd.strings, List.foldl_append, ihl, ihr]
  | list left right ihl ihr => rw [nulterminate, Cmd.strings, List.foldl_append, ihl, ihr]
  | back cmd ih => exact ih buf

theorem charAt_set (buf : Str) (i j : Nat) :
    charAt (buf.set i 0) j = if i = j then 0 else charAt buf j := by
  unfold charAt
  rw [List.getD_eq_getElem?_getD, List.getD_eq_getElem?_getD, List.getElem?_set]
  by_cases hij : i = j
  · rw [if_pos hij, if_pos hij]
    split <;> rfl
  · rw [if_neg hij, if_neg hij]

/-- The NULs are at the ends of the strings, and the rest is as it was. -/
theorem charAt_ends (ws : List Span) (buf : Str) (j : Nat) :
    charAt (ws.foldl (fun b w => b.set w.stop 0) buf) j =
      if ∃ w ∈ ws, w.stop = j then 0 else charAt buf j := by
  induction ws generalizing buf with
  | nil => simp
  | cons w ws ih =>
    rw [List.foldl_cons, ih, charAt_set]
    by_cases hws : ∃ v ∈ ws, v.stop = j
    · obtain ⟨v, hv, hj⟩ := hws
      rw [if_pos ⟨v, hv, hj⟩, if_pos ⟨v, List.mem_cons_of_mem w hv, hj⟩]
    · rw [if_neg hws]
      simp only [List.mem_cons, exists_eq_or_imp, hws, or_false]

theorem charAt_lineOf {i : Nat} (h : i < (lineOf buf).length) :
    charAt (lineOf buf) i = charAt buf i := by
  have hpre : lineOf buf <+: buf := List.takeWhile_prefix _
  rw [charAt_eq h, charAt_eq (Nat.lt_of_lt_of_le h hpre.length_le)]
  exact hpre.getElem h

theorem strings_wrap (cmd : Cmd) (rs : List Redir) :
    (wrap cmd rs).strings = cmd.strings ++ rs.map (·.file) := by
  unfold wrap
  induction rs generalizing cmd with
  | nil => simp
  | cons r rs ih => simp [ih, Cmd.strings]

theorem strings_backs (k : Nat) (cmd : Cmd) : (backs k cmd).strings = cmd.strings := by
  induction k generalizing cmd with
  | zero => rfl
  | succ k ih => exact ih (.back cmd)

theorem Redirs.file_mem {rs : List Redir} (h : Redirs ts rs) :
    ∀ w ∈ rs.map (·.file), .word w ∈ ts := by
  induction h with
  | nil => simp
  | lt w _ ih | gt w _ ih | app w _ ih =>
    intro v hv
    rcases List.mem_cons.1 hv with rfl | hv
    · simp
    · simp [ih v hv]

theorem Args.mem {ws : List Span} {qs : List Redir} (h : Args ts ws qs) :
    ∀ w ∈ ws ++ qs.map (·.file), .word w ∈ ts := by
  induction h with
  | nil => simp
  | word w hr _ ih =>
    intro v hv
    simp only [List.map_append, List.mem_append, List.mem_cons] at hv ih ⊢
    rcases hv with (rfl | hv) | hv | hv
    · exact .inl rfl
    · exact .inr (.inr (ih v (.inl hv)))
    · exact .inr (.inl (hr.file_mem v hv))
    · exact .inr (.inr (ih v (.inr hv)))

theorem Derives.mem {sym : Sym} (h : Derives sym ts cmd) : ∀ w ∈ cmd.strings, .word w ∈ ts := by
  induction h with
  | block _ hr ih =>
    intro w hw
    rw [strings_wrap, List.mem_append] at hw
    rcases hw with hw | hw
    · simp [ih w hw]
    · simp [hr.file_mem w hw]
  | simple hr ha _ =>
    intro w hw
    rw [strings_wrap, Cmd.strings, List.map_append, List.mem_append, List.mem_append] at hw
    rcases hw with hw | hw | hw
    · exact List.mem_append_right _ (ha.mem w (List.mem_append_left _ hw))
    · exact List.mem_append_left _ (hr.file_mem w hw)
    · exact List.mem_append_right _ (ha.mem w (List.mem_append_right _ hw))
  | one _ ih => exact ih
  | pipe _ _ ihl ihr =>
    intro w hw
    rcases List.mem_append.1 hw with hw | hw
    · simp [ihl w hw]
    · simp [ihr w hw]
  | last k _ ih =>
    intro w hw
    rw [strings_backs] at hw
    exact List.mem_append_left _ (ih w hw)
  | list k _ _ ihl ihr =>
    intro w hw
    rw [Cmd.strings, strings_backs] at hw
    rcases List.mem_append.1 hw with hw | hw
    · simp [ihl w hw]
    · simp [ihr w hw]

/-- The string in the buffer is a piece of the line and ends in a NUL. -/
def Terminated (line buf : Str) (w : Span) : Prop :=
  (∀ i, w.start ≤ i → i < w.stop → charAt buf i = charAt line i ∧ charAt buf i ≠ 0) ∧
    charAt buf w.stop = 0

theorem terminated_of_words {ws : List Span} (hws : ∀ w ∈ ws, Word (lineOf buf) w)
    {w : Span} (hw : w ∈ ws) :
    Terminated (lineOf buf) (ws.foldl (fun b w => b.set w.stop 0) buf) w := by
  have hword := hws w hw
  constructor
  · intro i hs hi
    have hlt : i < (lineOf buf).length := Nat.lt_of_lt_of_le hi hword.within
    have hnot : ¬∃ v ∈ ws, v.stop = i := by
      rintro ⟨v, hv, rfl⟩
      have hend := (hws v hv).ends hlt
      rw [hword.inside _ hs hi] at hend
      exact Bool.noConfusion hend
    rw [charAt_ends, if_neg hnot, ← charAt_lineOf hlt]
    refine ⟨rfl, fun hzero => zero_not_mem_lineOf buf ?_⟩
    rw [charAt_eq hlt] at hzero
    exact hzero ▸ List.getElem_mem hlt
  · rw [charAt_ends, if_pos ⟨w, hw, rfl⟩]

section Result

variable {buf : Str} {n : Nat}

theorem bound_line (hn : 4 * buf.length + 4 ≤ n) : 4 * (lex (lineOf buf) 0).length + 4 ≤ n := by
  have hlex := length_lex_le (lineOf buf) 0
  have hline : (lineOf buf).length ≤ buf.length := (List.takeWhile_prefix _).length_le
  omega

theorem parsecmd_ok (hd : Derives .line (lex (lineOf buf) 0) cmd)
    (hn : 4 * buf.length + 4 ≤ n) : parsecmd n buf = .ok (cmd, nulterminate cmd buf) := by
  have hwp := parseall_complete (zero_not_mem_lineOf buf) hd (bound_line hn)
  unfold parsecmd
  cases hr : parseall (lineOf buf) n 0 with
  | ok r =>
    obtain rfl := hwp.ok hr
    rfl
  | error e => exact (hwp.stop hr).elim

theorem parsecmd_cases (hn : 4 * buf.length + 4 ≤ n) :
    (∃ cmd, Derives .line (lex (lineOf buf) 0) cmd) ∨
      ∃ message, parsecmd n buf = .error (.panic message) := by
  have hwp := parseall_sound (zero_not_mem_lineOf buf) (bound_line hn)
  cases hr : parseall (lineOf buf) n 0 with
  | ok r => exact .inl ⟨r.1, hwp.ok hr⟩
  | error e =>
    cases e with
    | panic message =>
      right
      exact ⟨message, by rw [parsecmd, hr]; rfl⟩
    | bound => exact absurd rfl (hwp.stop hr)

end Result

theorem parsecmd_exact (buf : Str) (n : Nat) (hn : 4 * buf.length + 4 ≤ n) :
    (∀ cmd buf', parsecmd n buf = .ok (cmd, buf') ↔
      Derives .line (lex (lineOf buf) 0) cmd ∧ buf' = nulterminate cmd buf) ∧
    ((¬∃ cmd, Derives .line (lex (lineOf buf) 0) cmd) →
      ∃ message, parsecmd n buf = .error (.panic message)) ∧
    ∀ cmd, Derives .line (lex (lineOf buf) 0) cmd →
      ∀ w ∈ cmd.strings, Terminated (lineOf buf) (nulterminate cmd buf) w := by
  refine ⟨fun cmd buf' => ⟨fun hok => ?_, ?_⟩, fun hnone => ?_, fun cmd hd w hw => ?_⟩
  · rcases parsecmd_cases hn with ⟨c, hd⟩ | ⟨message, herr⟩
    · rw [parsecmd_ok hd hn] at hok
      cases hok
      exact ⟨hd, rfl⟩
    · rw [herr] at hok
      cases hok
  · rintro ⟨hd, rfl⟩
    exact parsecmd_ok hd hn
  · rcases parsecmd_cases hn with hsome | herr
    · exact absurd hsome hnone
    · exact herr
  · rw [nulterminate_eq]
    exact terminated_of_words (fun v hv => word_of_mem_lex (hd.mem v hv)) hw

def sample : Str := [40, 97, 59, 98, 41, 62, 99, 124, 100, 38]

def sampleCmd : Cmd :=
  .back (.pipe
    (.redir (.list (.exec [{ start := 1, stop := 2 }]) (.exec [{ start := 3, stop := 4 }]))
      { start := 6, stop := 7 } 0x601 1)
    (.exec [{ start := 8, stop := 9 }]))

theorem parsecmd_exact_sample :
    4 * sample.length + 4 ≤ 44 ∧ Derives .line (lex (lineOf sample) 0) sampleCmd :=
  ⟨by decide, (((parsecmd_exact sample 44 (by decide)).1 sampleCmd (nulterminate sampleCmd sample)).1
    (by decide +kernel)).1⟩

/-!
## What is read back
-/

/-- The string from `i` up to the first NUL. -/
def stringAt (buf : Str) (i : Nat) : Str := (buf.drop i).takeWhile (· != 0)

def Span.text (w : Span) (line : Str) : Str := (line.drop w.start).take (w.stop - w.start)

theorem charAt_getElem? (buf : Str) (i : Nat) : charAt buf i = buf[i]?.getD 0 :=
  List.getD_eq_getElem?_getD

theorem takeWhile_eq_take {l : Str} {k : Nat} (hbefore : ∀ i, i < k → charAt l i ≠ 0)
    (hend : charAt l k = 0) : l.takeWhile (· != 0) = l.take k := by
  induction l generalizing k with
  | nil => simp
  | cons x l ih =>
    cases k with
    | zero =>
      have hx : x = 0 := hend
      rw [hx]
      rfl
    | succ k =>
      have hx : x ≠ 0 := hbefore 0 (Nat.succ_pos k)
      have hrest := ih (fun i hi => hbefore (i + 1) (by omega)) hend
      rw [List.takeWhile_cons_of_pos (by simpa using hx), hrest, List.take_succ_cons]

theorem Terminated.stringAt {line : Str} {w : Span} (h : Terminated line buf w)
    (hw : w.start ≤ w.stop) : stringAt buf w.start = w.text line := by
  obtain ⟨hinside, hend⟩ := h
  have hdrop (i : Nat) : charAt (buf.drop w.start) i = charAt buf (w.start + i) := by
    rw [charAt_getElem?, charAt_getElem?, List.getElem?_drop]
  unfold Shell.stringAt Span.text
  rw [@takeWhile_eq_take _ (w.stop - w.start)]
  · apply List.ext_getElem?
    intro i
    rw [List.getElem?_take, List.getElem?_take]
    by_cases hi : i < w.stop - w.start
    · obtain ⟨heq, hne⟩ := hinside (w.start + i) (by omega) (by omega)
      have hb := lt_of_charAt_ne hne
      have hl := lt_of_charAt_ne (heq ▸ hne)
      rw [charAt_eq hb, charAt_eq hl] at heq
      rw [if_pos hi, if_pos hi, List.getElem?_drop, List.getElem?_drop,
        List.getElem?_eq_getElem hb, List.getElem?_eq_getElem hl, heq]
    · rw [if_neg hi, if_neg hi]
  · intro i hi
    rw [hdrop]
    exact (hinside _ (by omega) (by omega)).2
  · rw [hdrop, Nat.add_sub_cancel' hw]
    exact hend

/-- Every string of an accepted line reads back as the token that it was parsed from. -/
theorem parsecmd_strings (buf : Str) (n : Nat) (hn : 4 * buf.length + 4 ≤ n) (cmd : Cmd) (buf' : Str)
    (hok : parsecmd n buf = .ok (cmd, buf')) :
    ∀ w ∈ cmd.strings,
      .word w ∈ lex (lineOf buf) 0 ∧ stringAt buf' w.start = w.text (lineOf buf) := by
  intro w hw
  rcases parsecmd_cases hn with ⟨c, hd⟩ | ⟨message, herr⟩
  · rw [parsecmd_ok hd hn] at hok
    cases hok
    have hmem : .word w ∈ lex (lineOf buf) 0 := hd.mem w hw
    have hword := word_of_mem_lex hmem
    have hterm : Terminated (lineOf buf) (nulterminate cmd buf) w := by
      rw [nulterminate_eq]
      exact terminated_of_words (fun v hv => word_of_mem_lex (hd.mem v hv)) hw
    exact ⟨hmem, hterm.stringAt (Nat.le_of_lt hword.nonempty)⟩
  · rw [herr] at hok
    cases hok

theorem parsecmd_strings_sample :
    parsecmd 44 sample = .ok (sampleCmd, nulterminate sampleCmd sample) ∧
      stringAt (nulterminate sampleCmd sample) 6 = [99] :=
  have hok : parsecmd 44 sample = .ok (sampleCmd, nulterminate sampleCmd sample) := by decide +kernel
  ⟨hok, (parsecmd_strings sample 44 (by decide) sampleCmd _ hok { start := 6, stop := 7 }
    (by decide)).2⟩

end Xv6.Shell
