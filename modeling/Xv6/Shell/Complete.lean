import Xv6.Shell.Sound

/-!
# What the parser accepts

The parser reads every derivation, up to a token that may follow it.
-/

namespace Xv6.Shell

open Lib.Cmd

/-- The tokens are at an end, or go on with one of these. -/
def Ends (toks : Str) (ts : List Token) : Prop := ts = [] ∨ starts toks ts = true

/-- The parser reads the tokens up to `rest` and returns `a`. -/
def Reads {α : Type} (line : Str) (parse : Parser α) (a : α) (s : Nat) (rest : List Token) : Prop :=
  wp parse (fun b s' => b = a ∧ At line s' rest) (fun _ => False) s

theorem Reads.bind {α β : Type} {line : Str} {parse : Parser α} {f : α → Parser β} {a : α} {s : Nat}
    {rest : List Token} {Q : β → Nat → Prop} (h : Reads line parse a s rest)
    (hf : ∀ s', At line s' rest → wp (f a) Q (fun _ => False) s') :
    wp (parse >>= f) Q (fun _ => False) s := by
  rw [wp_bind]
  apply h.imp
  rintro _ s' ⟨rfl, h'⟩
  exact hf s' h'

section Ends

variable {toks toks' : Str} {ts rest : List Token}

theorem Ends.mono (h : Ends toks ts) (hsub : toks ⊆ toks') : Ends toks' ts := by
  rcases h with rfl | hst
  · exact .inl rfl
  · right
    cases ts with
    | nil => exact Bool.noConfusion hst
    | cons t ts => cases t <;> simp [starts] at hst ⊢ <;> exact hsub hst

theorem Ends.not_starts (h : Ends toks ts) (hdis : (toks.all fun c => decide (c ∉ toks')) = true) :
    starts toks' ts = false := by
  have hnot : ∀ c ∈ toks, c ∉ toks' := by simpa using hdis
  rcases h with rfl | hst
  · rfl
  · cases ts with
    | nil => rfl
    | cons t ts => cases t <;> simp [starts] at hst ⊢ <;> exact hnot _ hst

theorem Ends.amps (h : Ends toks rest) (hamp : 38 ∈ toks) (k : Nat) :
    Ends toks (List.replicate k .amp ++ rest) := by
  cases k with
  | zero => exact h
  | succ k => exact .inr (by simpa [List.replicate_succ, starts, Token.code] using hamp)

theorem Redirs.not_starts {rs : List Redir} (h : Redirs ts rs) (hlt : 60 ∉ toks) (hgt : 62 ∉ toks)
    (hrest : starts toks rest = false) : starts toks (ts ++ rest) = false := by
  cases h with
  | nil => exact hrest
  | lt w h => simpa [starts, Token.code] using hlt
  | gt w h => simpa [starts, Token.code] using hgt
  | app w h => simpa [starts, Token.code] using hgt

theorem Args.not_starts {ws : List Span} {qs : List Redir} (h : Args ts ws qs)
    (hrest : starts toks rest = false) : starts toks (ts ++ rest) = false := by
  cases h with
  | nil => exact hrest
  | word w hr ha => rfl

end Ends

section Loops

variable {line : Str} {s n : Nat} {ts rest : List Token} {rs : List Redir}

theorem parseredirs_cons {t : Token} {w : Span} (ht : t ∈ [.lt, .gt, .app])
    (h : At line s (t :: .word w :: ts))
    (ih : ∀ s', At line s' ts → Reads line (parseredirs line n) rs s' rest) :
    Reads line (parseredirs line (n + 1)) (redirOf t.code w ++ rs) s rest := by
  have hst : starts [60, 62] (t :: .word w :: ts) = true := by
    simp only [List.mem_cons, List.not_mem_nil, or_false] at ht
    rcases ht with rfl | rfl | rfl <;> rfl
  rw [parseredirs]
  apply wp_peek_yes (by decide) h hst
  intro s₁ h₁
  apply wp_gettoken h₁
  intro tok s₂ htok _ h₂
  apply wp_gettoken h₂
  intro file s₃ hfile hword h₃
  rw [if_neg (by rw [hfile]; exact not_not_intro rfl), htok, hword w rfl]
  apply (ih s₃ h₃).bind
  exact fun s₄ h₄ => ⟨rfl, h₄⟩

theorem parseredirs_complete (hr : Redirs ts rs) (h : At line s (ts ++ rest))
    (hrest : starts [60, 62] rest = false) (hn : ts.length < n) :
    Reads line (parseredirs line n) rs s rest := by
  induction hr generalizing s n with
  | nil =>
    obtain ⟨n, rfl⟩ : ∃ m, n = m + 1 := ⟨n - 1, by omega⟩
    rw [parseredirs]
    apply wp_peek_no (by decide) h hrest
    exact fun s₁ h₁ => ⟨rfl, h₁⟩
  | lt w _ ih | gt w _ ih | app w _ ih =>
    obtain ⟨n, rfl⟩ : ∃ m, n = m + 1 := ⟨n - 1, by omega⟩
    simp only [List.length_cons] at hn
    exact parseredirs_cons (by decide) h fun s' h' => ih h' (by omega)

theorem parseargs_complete {ws : List Span} {argc : Nat} (ha : Args ts ws rs)
    (h : At line s (ts ++ rest)) (hrest : Ends [124, 41, 38, 59] rest)
    (hmax : argc + ws.length < MAXARGS) (hn : ts.length < n) :
    Reads line (parseargs line n argc) (ws, rs) s rest := by
  induction ha generalizing s n argc with
  | nil =>
    obtain ⟨n, rfl⟩ : ∃ m, n = m + 1 := ⟨n - 1, by omega⟩
    rw [parseargs]
    apply wp_peek_ite (by decide) h
    · intro _ s₁ h₁
      exact ⟨rfl, h₁⟩
    · intro hst s₁ h₁
      rcases hrest with rfl | hrest
      · apply wp_gettoken_end h₁
        intro tok s₂ htok h₂
        rw [if_pos htok]
        exact ⟨rfl, h₂⟩
      · rw [List.nil_append, hrest] at hst
        exact Bool.noConfusion hst
  | @word w us vs qs ps ws hr ha ih =>
    obtain ⟨n, rfl⟩ : ∃ m, n = m + 1 := ⟨n - 1, by omega⟩
    simp only [List.length_cons, List.length_append] at hn hmax
    rw [List.cons_append, List.append_assoc] at h
    rw [parseargs]
    apply wp_peek_no (by decide) h rfl
    intro s₁ h₁
    apply wp_gettoken h₁
    intro tok s₂ htok hword h₂
    rw [if_neg (by rw [htok]; exact Token.code_ne_zero _), if_neg (by rw [htok]; exact not_not_intro rfl),
      if_neg (by omega)]
    have hnot : starts [60, 62] (vs ++ rest) = false := ha.not_starts (hrest.not_starts (by decide))
    apply (parseredirs_complete hr h₂ hnot (by omega)).bind
    intro s₃ h₃
    apply (ih h₃ (by omega) (by omega)).bind
    intro s₄ h₄
    rw [hword w rfl]
    exact ⟨rfl, h₄⟩

theorem parseback_complete {k : Nat} {cmd : Cmd} (h : At line s (List.replicate k .amp ++ rest))
    (hrest : starts [38] rest = false) (hn : k < n) :
    Reads line (parseback line n cmd) (backs k cmd) s rest := by
  induction k generalizing s n cmd with
  | zero =>
    obtain ⟨n, rfl⟩ : ∃ m, n = m + 1 := ⟨n - 1, by omega⟩
    rw [parseback]
    apply wp_peek_no (by decide) h hrest
    exact fun s₁ h₁ => ⟨rfl, h₁⟩
  | succ k ih =>
    obtain ⟨n, rfl⟩ : ∃ m, n = m + 1 := ⟨n - 1, by omega⟩
    rw [parseback]
    apply wp_peek_yes (by decide) h rfl
    intro s₁ h₁
    apply wp_gettoken h₁
    intro _ s₂ _ _ h₂
    exact ih h₂ (by omega)

end Loops

section Calls

variable {line : Str} {s n k : Nat} {ts us rest : List Token} {cmd left right : Cmd}
  {rs qs : List Redir} {ws : List Span}

theorem parseline_last (hp : Reads line (parsepipe line n) cmd s (List.replicate k .amp ++ rest))
    (hrest : Ends [41] rest) (hn : k < n) :
    Reads line (parseline line (n + 1)) (backs k cmd) s rest := by
  rw [parseline]
  apply hp.bind
  intro s₁ h₁
  apply (parseback_complete h₁ (hrest.not_starts (by decide)) hn).bind
  intro s₂ h₂
  apply wp_peek_no (by decide) h₂ (hrest.not_starts (by decide))
  exact fun s₃ h₃ => ⟨rfl, h₃⟩

theorem parseline_list (hp : Reads line (parsepipe line n) left s (List.replicate k .amp ++ .semi :: us))
    (hl : ∀ s', At line s' us → Reads line (parseline line n) right s' rest) (hn : k < n) :
    Reads line (parseline line (n + 1)) (.list (backs k left) right) s rest := by
  rw [parseline]
  apply hp.bind
  intro s₁ h₁
  apply (parseback_complete h₁ rfl hn).bind
  intro s₂ h₂
  apply wp_peek_yes (by decide) h₂ rfl
  intro s₃ h₃
  apply wp_gettoken h₃
  intro _ s₄ _ _ h₄
  apply (hl s₄ h₄).bind
  exact fun s₅ h₅ => ⟨rfl, h₅⟩

theorem parsepipe_one (he : Reads line (parseexec line n) cmd s rest)
    (hrest : Ends [41, 38, 59] rest) : Reads line (parsepipe line (n + 1)) cmd s rest := by
  rw [parsepipe]
  apply he.bind
  intro s₁ h₁
  apply wp_peek_no (by decide) h₁ (hrest.not_starts (by decide))
  exact fun s₂ h₂ => ⟨rfl, h₂⟩

theorem parsepipe_pipe (he : Reads line (parseexec line n) left s (.pipe :: us))
    (hp : ∀ s', At line s' us → Reads line (parsepipe line n) right s' rest) :
    Reads line (parsepipe line (n + 1)) (.pipe left right) s rest := by
  rw [parsepipe]
  apply he.bind
  intro s₁ h₁
  apply wp_peek_yes (by decide) h₁ rfl
  intro s₂ h₂
  apply wp_gettoken h₂
  intro _ s₃ _ _ h₃
  apply (hp s₃ h₃).bind
  exact fun s₄ h₄ => ⟨rfl, h₄⟩

theorem parseblock_complete (h : At line s (.lpar :: ts))
    (hl : ∀ s', At line s' ts → Reads line (parseline line n) cmd s' (.rpar :: (us ++ rest)))
    (hr : Redirs us rs) (hrest : starts [60, 62] rest = false) (hn : us.length < n) :
    Reads line (parseblock line (n + 1)) (wrap cmd rs) s rest := by
  rw [parseblock]
  apply wp_peek_yes (by decide) h rfl
  intro s₁ h₁
  apply wp_gettoken h₁
  intro _ s₂ _ _ h₂
  apply (hl s₂ h₂).bind
  intro s₃ h₃
  apply wp_peek_yes (by decide) h₃ rfl
  intro s₄ h₄
  apply wp_gettoken h₄
  intro _ s₅ _ _ h₅
  apply (parseredirs_complete hr h₅ hrest hn).bind
  exact fun s₆ h₆ => ⟨rfl, h₆⟩

theorem parseexec_block (h : At line s (.lpar :: ts))
    (hb : ∀ s', At line s' (.lpar :: ts) → Reads line (parseblock line n) cmd s' rest) :
    Reads line (parseexec line (n + 1)) cmd s rest := by
  rw [parseexec]
  exact wp_peek_yes (by decide) h rfl hb

theorem parseexec_simple (h : At line s (ts ++ (us ++ rest))) (hr : Redirs ts rs)
    (ha : Args us ws qs) (hrest : Ends [124, 41, 38, 59] rest) (hmax : ws.length < MAXARGS)
    (hn : ts.length + us.length < n) :
    Reads line (parseexec line (n + 1)) (wrap (.exec ws) (rs ++ qs)) s rest := by
  have hlpar : starts [40] (us ++ rest) = false := ha.not_starts (hrest.not_starts (by decide))
  have hredir : starts [60, 62] (us ++ rest) = false := ha.not_starts (hrest.not_starts (by decide))
  rw [parseexec]
  apply wp_peek_no (by decide) h (hr.not_starts (by decide) (by decide) hlpar)
  intro s₁ h₁
  apply (parseredirs_complete hr h₁ hredir (by omega)).bind
  intro s₂ h₂
  apply (parseargs_complete ha h₂ hrest (by omega) (by omega)).bind
  exact fun s₃ h₃ => ⟨rfl, h₃⟩

end Calls

def parserOf (line : Str) : Sym → Nat → Parser Cmd
  | .line => parseline line
  | .pipe => parsepipe line
  | .exec => parseexec line

def follow : Sym → Str
  | .line => [41]
  | .pipe => [41, 38, 59]
  | .exec => [124, 41, 38, 59]

def margin : Sym → Nat
  | .line => 4
  | .pipe => 3
  | .exec => 2

/-- By induction on the derivation, with what follows it arbitrary. -/
theorem derives_complete {line : Str} {sym : Sym} {ts : List Token} {cmd : Cmd}
    (hd : Derives sym ts cmd) {s n : Nat} {rest : List Token} (h : At line s (ts ++ rest))
    (hrest : Ends (follow sym) rest) (hn : 4 * ts.length + margin sym ≤ n) :
    Reads line (parserOf line sym n) cmd s rest := by
  obtain ⟨n, rfl⟩ : ∃ m, n = m + 1 := ⟨n - 1, by cases sym <;> simp only [margin] at hn <;> omega⟩
  induction hd generalizing s n rest with
  | @block ts us cmd rs hl hr ih =>
    simp only [List.length_cons, List.length_append, margin] at hn ih
    obtain ⟨n, rfl⟩ : ∃ m, n = m + 2 := ⟨n - 2, by omega⟩
    rw [List.cons_append, List.append_assoc, List.cons_append] at h
    apply parseexec_block h
    intro s₁ h₁
    apply parseblock_complete h₁ _ hr (hrest.not_starts (by decide)) (by omega)
    intro s₂ h₂
    exact ih h₂ (.inr rfl) n (by omega)
  | @simple ts us ws rs qs hr ha hmax =>
    simp only [List.length_append, margin] at hn
    rw [List.append_assoc] at h
    exact parseexec_simple h hr ha hrest hmax (by omega)
  | @one ts cmd hd ih =>
    simp only [margin] at hn ih
    obtain ⟨n, rfl⟩ : ∃ m, n = m + 1 := ⟨n - 1, by omega⟩
    exact parsepipe_one (ih h (hrest.mono (by decide)) n (by omega)) hrest
  | @pipe ts us left right hl hr ihl ihr =>
    simp only [List.length_cons, List.length_append, margin] at hn ihl ihr
    obtain ⟨n, rfl⟩ : ∃ m, n = m + 1 := ⟨n - 1, by omega⟩
    rw [List.append_assoc, List.cons_append] at h
    apply parsepipe_pipe (ihl h (.inr rfl) n (by omega))
    intro s' h'
    exact ihr h' hrest n (by omega)
  | @last ts cmd k hd ih =>
    simp only [List.length_append, List.length_replicate, margin] at hn ih
    obtain ⟨n, rfl⟩ : ∃ m, n = m + 1 := ⟨n - 1, by omega⟩
    rw [List.append_assoc] at h
    have hamps : Ends (follow .pipe) (List.replicate k .amp ++ rest) :=
      (hrest.mono (by decide)).amps (by decide) k
    exact parseline_last (ih h hamps n (by omega)) hrest (by omega)
  | @list ts us left right k hl hr ihl ihr =>
    simp only [List.length_cons, List.length_append, List.length_replicate, margin] at hn ihl ihr
    obtain ⟨n, rfl⟩ : ∃ m, n = m + 1 := ⟨n - 1, by omega⟩
    rw [List.append_assoc, List.append_assoc, List.cons_append] at h
    have hamps : Ends (follow .pipe) (List.replicate k .amp ++ .semi :: (us ++ rest)) :=
      Ends.amps (.inr rfl) (by decide) k
    apply parseline_list (ihl h hamps n (by omega)) _ (by omega)
    intro s' h'
    exact ihr h' hrest n (by omega)

end Xv6.Shell
