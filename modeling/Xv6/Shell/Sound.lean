import Xv6.Shell.Grammar

/-!
# What the parser returns

Every command that the parser returns is that of a derivation of the tokens it has read,
and a bound of four times the number of tokens is enough for it to return or to panic.
-/

namespace Xv6.Shell

open Lib.Cmd

section Rules

variable {α : Type} {line toks : Str} {s : Nat} {ts : List Token} {Q : α → Nat → Prop}
  {E : Fail → Prop}

theorem wp_peek_ite {c c' : Parser α} (htoks : toks ⊆ symbols) (h : At line s ts)
    (hpos : starts toks ts = true → ∀ s', At line s' ts → wp c Q E s')
    (hneg : starts toks ts = false → ∀ s', At line s' ts → wp c' Q E s') :
    wp (do if ← peek line toks then c else c') Q E s := by
  rw [wp_bind]
  apply wp_peek (fun _ hc => htoks hc) h
  intro s' h'
  cases hst : starts toks ts with
  | true => exact hpos hst s' h'
  | false => exact hneg hst s' h'

theorem wp_peek_yes {c c' : Parser α} (htoks : toks ⊆ symbols) (h : At line s ts)
    (hst : starts toks ts = true) (hpos : ∀ s', At line s' ts → wp c Q E s') :
    wp (do if ← peek line toks then c else c') Q E s :=
  wp_peek_ite htoks h (fun _ => hpos) fun hno => Bool.noConfusion (hst.symm.trans hno)

theorem wp_peek_no {c c' : Parser α} (htoks : toks ⊆ symbols) (h : At line s ts)
    (hst : starts toks ts = false) (hneg : ∀ s', At line s' ts → wp c' Q E s') :
    wp (do if ← peek line toks then c else c') Q E s :=
  wp_peek_ite htoks h (fun hyes => Bool.noConfusion (hst.symm.trans hyes)) fun _ => hneg

theorem eq_cons_of_starts {t : Token} (ht : t ∈ [.pipe, .lpar, .rpar, .semi, .amp])
    (h : starts [t.code] ts = true) : ∃ us, ts = t :: us := by
  cases ts with
  | nil => exact Bool.noConfusion h
  | cons u us =>
    refine ⟨us, ?_⟩
    simp only [List.mem_cons, List.not_mem_nil, or_false] at ht
    rcases ht with rfl | rfl | rfl | rfl | rfl <;> cases u <;> simp [starts, Token.code] at h ⊢

theorem eq_cons_of_starts_redir (h : starts [60, 62] ts = true) :
    ∃ t us, ts = t :: us ∧ t ∈ [.lt, .gt, .app] := by
  cases ts with
  | nil => exact Bool.noConfusion h
  | cons u us =>
    refine ⟨u, us, rfl, ?_⟩
    cases u <;> simp [starts, Token.code] at h ⊢

end Rules

def Parsed {α : Type} (line : Str) (ts : List Token) (G : List Token → α → Prop) (a : α)
    (s : Nat) : Prop :=
  ∃ used rest, ts = used ++ rest ∧ At line s rest ∧ G used a

def Panics (e : Fail) : Prop := e ≠ .bound

section Loops

variable {line : Str} {s n : Nat} {ts : List Token}

theorem redirs_cons {t : Token} {w : Span} {rs : List Redir} (ht : t ∈ [.lt, .gt, .app])
    (h : Redirs ts rs) : Redirs (t :: .word w :: ts) (redirOf t.code w ++ rs) := by
  simp only [List.mem_cons, List.not_mem_nil, or_false] at ht
  rcases ht with rfl | rfl | rfl
  · exact .lt w h
  · exact .gt w h
  · exact .app w h

theorem Token.code_ne_zero (t : Token) : t.code ≠ 0 := by
  cases t <;> simp [Token.code]

theorem code_eq_word {t : Token} (h : t.code = 97) : ∃ w, t = .word w := by
  cases t with
  | word w => exact ⟨w, rfl⟩
  | _ => exact absurd h (by decide)

theorem parseredirs_sound (h : At line s ts) (hn : ts.length < n) :
    wp (parseredirs line n) (Parsed line ts Redirs) Panics s := by
  induction n generalizing s ts with
  | zero => omega
  | succ n ih =>
    rw [parseredirs]
    apply wp_peek_ite (by decide) h
    · intro hst s₁ h₁
      obtain ⟨t, us, rfl, ht⟩ := eq_cons_of_starts_redir hst
      apply wp_gettoken h₁
      intro tok s₂ htok _ h₂
      cases us with
      | nil =>
        apply wp_gettoken_end h₂
        intro file s₃ hfile _
        rw [if_pos (by rw [hfile]; decide)]
        exact nofun
      | cons u us =>
        apply wp_gettoken h₂
        intro file s₃ hfile hword h₃
        by_cases hu : u.code = 97
        · obtain ⟨w, rfl⟩ := code_eq_word hu
          rw [if_neg (by rw [hfile, hu]; decide), wp_bind, htok, hword w rfl]
          apply (ih h₃ (by simp at hn; omega)).imp
          rintro rs s₄ ⟨used, rest, rfl, h₄, hg⟩
          exact ⟨t :: .word w :: used, rest, rfl, h₄, redirs_cons ht hg⟩
        · rw [if_pos (by rw [hfile]; exact hu)]
          exact nofun
    · intro _ s₁ h₁
      exact ⟨[], ts, rfl, h₁, .nil⟩

def ArgsFrom (argc : Nat) (ts : List Token) (a : List Span × List Redir) : Prop :=
  Args ts a.1 a.2 ∧ (argc < MAXARGS → argc + a.1.length < MAXARGS)

theorem parseargs_sound {argc : Nat} (h : At line s ts) (hn : ts.length < n) :
    wp (parseargs line n argc) (Parsed line ts (ArgsFrom argc)) Panics s := by
  induction n generalizing s ts argc with
  | zero => omega
  | succ n ih =>
    have hend : ∀ s', At line s' ts → Parsed line ts (ArgsFrom argc) ([], []) s' := by
      intro s' h'
      exact ⟨[], ts, rfl, h', .nil, fun hlt => hlt⟩
    rw [parseargs]
    apply wp_peek_ite (by decide) h
    · intro _ s₁ h₁
      exact hend s₁ h₁
    · intro _ s₁ h₁
      cases ts with
      | nil =>
        apply wp_gettoken_end h₁
        intro tok s₂ htok h₂
        rw [if_pos htok]
        exact hend s₂ h₂
      | cons t ts =>
        apply wp_gettoken h₁
        intro tok s₂ htok hword h₂
        rw [if_neg (by rw [htok]; exact t.code_ne_zero)]
        by_cases ht : t.code = 97
        · obtain ⟨w, rfl⟩ := code_eq_word ht
          rw [if_neg (by rw [htok, ht]; decide), wp_ite]
          refine ⟨fun _ => nofun, fun hlt => ?_⟩
          rw [wp_bind]
          rw [List.length_cons] at hn
          apply (parseredirs_sound h₂ (by omega)).imp
          rintro rs s₃ ⟨us, rest, rfl, h₃, hr⟩
          rw [wp_bind]
          rw [List.length_append] at hn
          apply (ih h₃ (by omega)).imp
          rintro a s₄ ⟨vs, rest, rfl, h₄, ha, hmax⟩
          refine ⟨.word w :: (us ++ vs), rest, by simp, h₄, ?_, fun _ => ?_⟩
          · rw [hword w rfl]
            exact .word w hr ha
          · have hlen := hmax (by omega)
            rw [List.length_cons]
            omega
        · rw [if_pos (by rw [htok]; exact ht)]
          exact nofun

theorem parseback_sound {cmd : Cmd} (h : At line s ts) (hn : ts.length < n) :
    wp (parseback line n cmd)
      (Parsed line ts fun used c => ∃ k, used = List.replicate k .amp ∧ c = backs k cmd) Panics s := by
  induction n generalizing s ts cmd with
  | zero => omega
  | succ n ih =>
    rw [parseback]
    apply wp_peek_ite (by decide) h
    · intro hst s₁ h₁
      obtain ⟨us, rfl⟩ := eq_cons_of_starts (t := .amp) (by decide) hst
      apply wp_gettoken h₁
      intro _ s₂ _ _ h₂
      rw [List.length_cons] at hn
      apply (ih h₂ (by omega)).imp
      rintro c s₃ ⟨used, rest, rfl, h₃, k, rfl, rfl⟩
      exact ⟨.amp :: List.replicate k .amp, rest, rfl, h₃, k + 1, rfl, rfl⟩
    · intro _ s₁ h₁
      exact ⟨[], ts, rfl, h₁, 0, rfl, rfl⟩

end Loops

/-- The parser is right about the tokens it reads, if the bound is `k` more than four times
their number. -/
def Sound (line : Str) (parse : Parser Cmd) (G : List Token → Cmd → Prop) (k n : Nat) : Prop :=
  ∀ s ts, At line s ts → 4 * ts.length + k ≤ n → wp parse (Parsed line ts G) Panics s

section Calls

variable {line : Str} {n : Nat}

theorem parseline_sound_succ (hpipe : Sound line (parsepipe line n) (Derives .pipe) 3 n)
    (hline : Sound line (parseline line n) (Derives .line) 4 n) :
    Sound line (parseline line (n + 1)) (Derives .line) 4 (n + 1) := by
  intro s ts h hn
  rw [parseline, wp_bind]
  apply (hpipe s ts h (by omega)).imp
  rintro left s₁ ⟨us, rest, rfl, h₁, hleft⟩
  rw [List.length_append] at hn
  rw [wp_bind]
  apply (parseback_sound h₁ (by omega)).imp
  rintro cmd s₂ ⟨used, rest, rfl, h₂, k, rfl, rfl⟩
  rw [List.length_append] at hn
  apply wp_peek_ite (by decide) h₂
  · intro hst s₃ h₃
    obtain ⟨vs, rfl⟩ := eq_cons_of_starts (t := .semi) (by decide) hst
    rw [List.length_cons] at hn
    apply wp_gettoken h₃
    intro _ s₄ _ _ h₄
    rw [wp_bind]
    apply (hline s₄ vs h₄ (by omega)).imp
    rintro right s₅ ⟨vs, rest, rfl, h₅, hright⟩
    exact ⟨us ++ List.replicate k .amp ++ .semi :: vs, rest, by simp, h₅, .list k hleft hright⟩
  · intro _ s₃ h₃
    exact ⟨us ++ List.replicate k .amp, rest, by simp, h₃, .last k hleft⟩

theorem parsepipe_sound_succ (hexec : Sound line (parseexec line n) (Derives .exec) 2 n)
    (hpipe : Sound line (parsepipe line n) (Derives .pipe) 3 n) :
    Sound line (parsepipe line (n + 1)) (Derives .pipe) 3 (n + 1) := by
  intro s ts h hn
  rw [parsepipe, wp_bind]
  apply (hexec s ts h (by omega)).imp
  rintro left s₁ ⟨us, rest, rfl, h₁, hleft⟩
  rw [List.length_append] at hn
  apply wp_peek_ite (by decide) h₁
  · intro hst s₂ h₂
    obtain ⟨vs, rfl⟩ := eq_cons_of_starts (t := .pipe) (by decide) hst
    rw [List.length_cons] at hn
    apply wp_gettoken h₂
    intro _ s₃ _ _ h₃
    rw [wp_bind]
    apply (hpipe s₃ vs h₃ (by omega)).imp
    rintro right s₄ ⟨vs, rest, rfl, h₄, hright⟩
    exact ⟨us ++ .pipe :: vs, rest, by simp, h₄, .pipe hleft hright⟩
  · intro _ s₂ h₂
    exact ⟨us, rest, rfl, h₂, .one hleft⟩

theorem parseexec_sound_succ (hblock : Sound line (parseblock line n) (Derives .exec) 1 n) :
    Sound line (parseexec line (n + 1)) (Derives .exec) 2 (n + 1) := by
  intro s ts h hn
  rw [parseexec]
  apply wp_peek_ite (by decide) h
  · intro _ s₁ h₁
    exact hblock s₁ ts h₁ (by omega)
  · intro _ s₁ h₁
    rw [wp_bind]
    apply (parseredirs_sound h₁ (by omega)).imp
    rintro rs s₂ ⟨us, rest, rfl, h₂, hr⟩
    rw [List.length_append] at hn
    rw [wp_bind]
    apply (parseargs_sound h₂ (by omega)).imp
    rintro a s₃ ⟨vs, rest, rfl, h₃, ha, hmax⟩
    have hlen := hmax (by decide)
    rw [Nat.zero_add] at hlen
    exact ⟨us ++ vs, rest, by simp, h₃, .simple hr ha hlen⟩

theorem parseblock_sound_succ (hline : Sound line (parseline line n) (Derives .line) 4 n) :
    Sound line (parseblock line (n + 1)) (Derives .exec) 1 (n + 1) := by
  intro s ts h hn
  rw [parseblock]
  apply wp_peek_ite (by decide) h
  · intro hst s₁ h₁
    obtain ⟨us, rfl⟩ := eq_cons_of_starts (t := .lpar) (by decide) hst
    rw [List.length_cons] at hn
    apply wp_gettoken h₁
    intro _ s₂ _ _ h₂
    rw [wp_bind]
    apply (hline s₂ us h₂ (by omega)).imp
    rintro cmd s₃ ⟨us, rest, rfl, h₃, hcmd⟩
    rw [List.length_append] at hn
    apply wp_peek_ite (by decide) h₃
    · intro hst s₄ h₄
      obtain ⟨vs, rfl⟩ := eq_cons_of_starts (t := .rpar) (by decide) hst
      rw [List.length_cons] at hn
      apply wp_gettoken h₄
      intro _ s₅ _ _ h₅
      rw [wp_bind]
      apply (parseredirs_sound h₅ (by omega)).imp
      rintro rs s₆ ⟨vs, rest, rfl, h₆, hr⟩
      exact ⟨.lpar :: (us ++ .rpar :: vs), rest, by simp, h₆, .block hcmd hr⟩
    · intro _ s₄ _
      exact nofun
  · intro _ s₁ _
    exact nofun

structure Sounds (line : Str) (n : Nat) : Prop where
  whole : Sound line (parseline line n) (Derives .line) 4 n
  pipe : Sound line (parsepipe line n) (Derives .pipe) 3 n
  exec : Sound line (parseexec line n) (Derives .exec) 2 n
  block : Sound line (parseblock line n) (Derives .exec) 1 n

theorem sounds (line : Str) (n : Nat) : Sounds line n := by
  induction n with
  | zero => constructor <;> intro s ts _ hn <;> omega
  | succ n ih =>
    exact ⟨parseline_sound_succ ih.pipe ih.whole, parsepipe_sound_succ ih.exec ih.pipe,
      parseexec_sound_succ ih.block, parseblock_sound_succ ih.whole⟩

theorem parseline_sound {s : Nat} {ts : List Token} (h : At line s ts)
    (hn : 4 * ts.length + 4 ≤ n) :
    wp (parseline line n) (Parsed line ts (Derives .line)) Panics s :=
  (sounds line n).whole s ts h hn

end Calls

end Xv6.Shell
