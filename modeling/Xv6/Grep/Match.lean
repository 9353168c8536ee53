import Mathlib

/-!
# The matcher of `grep`

A string is its list of characters, without the NUL.  What a pattern means is a `Language`: a
sequence of characters and starred characters, with two flags for the anchors.
-/

namespace Xv6.Grep

abbrev Str := List UInt8

abbrev caret : UInt8 := 94
abbrev dollar : UInt8 := 36
abbrev star : UInt8 := 42
abbrev dot : UInt8 := 46

/-- `matchstar`; `here` is `matchhere` with the rest of the pattern. -/
def matchstar (here : Str → Bool) (c : UInt8) : Str → Bool
  | [] => here []
  | x :: text => here (x :: text) || ((x == c || c == dot) && matchstar here c text)

def matchhere : Str → Str → Bool
  | [], _ => true
  | [c], text =>
    if c = dollar then text.isEmpty
    else match text with
      | [] => false
      | x :: _ => c == dot || c == x
  | c :: d :: re, text =>
    if d = star then matchstar (matchhere re) c text
    else match text with
      | [] => false
      | x :: text => (c == dot || c == x) && matchhere (d :: re) text

/-- The loop of `match`. -/
def matchLoop (re : Str) : Str → Bool
  | [] => matchhere re []
  | x :: text => matchhere re (x :: text) || matchLoop re text

/-- `match` -/
def isMatch (re text : Str) : Bool :=
  if re.head? = some caret then matchhere re.tail text else matchLoop re text

/-!
## The language of a pattern
-/

inductive Item
  | one (c : UInt8)
  | many (c : UInt8)

/-- The character `x` is one that `c` stands for. -/
def Fits (c x : UInt8) : Prop := c = dot ∨ c = x

def single (c : UInt8) : Language UInt8 := {w | ∃ x, Fits c x ∧ w = [x]}

open scoped Computability in
def Item.lang : Item → Language UInt8
  | .one c => single c
  | .many c => (single c)∗

def lang (l : List Item) : Language UInt8 := (l.map Item.lang).prod

structure Pattern where
  /-- The match is at the start of the text. -/
  atStart : Bool
  items : List Item
  /-- The match is at the end of the text. -/
  atEnd : Bool

/-- Left to right; a character with a `*` behind it is a pair, before all else. -/
def body : Str → List Item × Bool
  | [] => ([], false)
  | [c] => if c = dollar then ([], true) else ([.one c], false)
  | c :: d :: re =>
    if d = star then ((.many c) :: (body re).1, (body re).2)
    else ((.one c) :: (body (d :: re)).1, (body (d :: re)).2)

/-- A first `^` is the anchor, whatever is behind it. -/
def parse (re : Str) : Pattern :=
  if re.head? = some caret then ⟨true, (body re.tail).1, (body re.tail).2⟩
  else ⟨false, (body re).1, (body re).2⟩

/-- A first `^` is the anchor, unless it is starred. -/
def parsePairFirst (re : Str) : Pattern :=
  if re.head? = some caret ∧ re.tail.head? ≠ some star then ⟨true, (body re.tail).1, (body re.tail).2⟩
  else ⟨false, (body re).1, (body re).2⟩

/-- A piece of the text is in the language of the pattern, at the place that the anchors say. -/
def Pattern.Found (p : Pattern) (text : Str) : Prop :=
  ∃ before found after, text = before ++ found ++ after ∧ found ∈ lang p.items ∧
    (p.atStart → before = []) ∧ (p.atEnd → after = [])

/-!
## The matcher decides it
-/

theorem mem_many (c : UInt8) (w : Str) : w ∈ (Item.many c).lang ↔ ∀ x ∈ w, Fits c x := by
  rw [Item.lang, Language.mem_kstar]
  constructor
  · rintro ⟨l, rfl, hl⟩ x hx
    obtain ⟨y, hy, hxy⟩ := List.mem_flatten.1 hx
    obtain ⟨z, hz, rfl⟩ := hl y hy
    obtain rfl := List.mem_singleton.1 hxy
    exact hz
  · intro hw
    refine ⟨w.map ([·]), by rw [← List.flatMap_def, List.flatMap_singleton'], fun y hy => ?_⟩
    obtain ⟨x, hx, rfl⟩ := List.mem_map.1 hy
    exact ⟨x, hw x hx, rfl⟩

theorem fits_iff {c x : UInt8} : (c == dot || c == x) = true ↔ Fits c x := by
  simp [Fits]

/-- The star takes any number of characters that fit. -/
theorem matchstar_iff (here : Str → Bool) (c : UInt8) (text : Str) :
    matchstar here c text = true ↔ ∃ u v, text = u ++ v ∧ (∀ x ∈ u, Fits c x) ∧ here v = true := by
  induction text with
  | nil =>
    simp [matchstar]
  | cons x text ih =>
    have hfits : (x == c || c == dot) = true ↔ Fits c x := by
      rw [Bool.or_eq_true, beq_iff_eq, beq_iff_eq, or_comm, eq_comm (a := x)]
      rfl
    rw [matchstar, Bool.or_eq_true, Bool.and_eq_true, hfits, ih]
    constructor
    · rintro (hhere | ⟨hx, u, v, rfl, hu, hv⟩)
      · exact ⟨[], x :: text, rfl, by simp, hhere⟩
      · exact ⟨x :: u, v, rfl, List.forall_mem_cons.2 ⟨hx, hu⟩, hv⟩
    · rintro ⟨u, v, htext, hu, hv⟩
      cases u with
      | nil =>
        left
        rw [htext]
        exact hv
      | cons y u =>
        obtain ⟨rfl, rfl⟩ := List.cons.inj htext
        obtain ⟨hy, hu⟩ := List.forall_mem_cons.1 hu
        exact .inr ⟨hy, u, v, rfl, hu, hv⟩

/-- A piece at the front of the text is in the language, up to the end if the flag says so. -/
def Front (b : List Item × Bool) (text : Str) : Prop :=
  ∃ found after, text = found ++ after ∧ found ∈ lang b.1 ∧ (b.2 → after = [])

theorem front_cons (i : Item) (b : List Item × Bool) (text : Str) :
    Front (i :: b.1, b.2) text ↔ ∃ u v, text = u ++ v ∧ u ∈ i.lang ∧ Front b v := by
  unfold Front lang
  simp only [List.map_cons, List.prod_cons, Language.mem_mul]
  constructor
  · rintro ⟨_, after, rfl, ⟨u, hu, w, hw, rfl⟩, hafter⟩
    exact ⟨u, w ++ after, List.append_assoc .., hu, w, after, rfl, hw, hafter⟩
  · rintro ⟨u, _, rfl, hu, w, after, rfl, hw, hafter⟩
    exact ⟨u ++ w, after, (List.append_assoc ..).symm, ⟨u, hu, w, hw, rfl⟩, hafter⟩

theorem front_one (c : UInt8) (b : List Item × Bool) (text : Str) :
    Front (.one c :: b.1, b.2) text ↔ ∃ x rest, text = x :: rest ∧ Fits c x ∧ Front b rest := by
  rw [front_cons]
  constructor
  · rintro ⟨_, v, rfl, ⟨x, hx, rfl⟩, hv⟩
    exact ⟨x, v, rfl, hx, hv⟩
  · rintro ⟨x, rest, rfl, hx, hrest⟩
    exact ⟨[x], rest, rfl, ⟨x, hx, rfl⟩, hrest⟩

theorem front_nil (text : Str) : Front ([], false) text := ⟨[], text, rfl, rfl, nofun⟩

theorem matchhere_iff (re text : Str) : matchhere re text = true ↔ Front (body re) text := by
  fun_induction body re generalizing text with
  | case1 => exact iff_of_true (by rw [matchhere]) (front_nil text)
  | case2 =>
    rw [show matchhere [dollar] text = text.isEmpty from rfl, List.isEmpty_iff]
    constructor
    · rintro rfl
      exact ⟨[], [], rfl, rfl, fun _ => rfl⟩
    · rintro ⟨found, after, rfl, rfl, hafter⟩
      exact hafter rfl
  | case3 c hc =>
    rw [front_one c ([], false)]
    cases text with
    | nil => simp [matchhere, hc]
    | cons x text =>
      rw [matchhere, if_neg hc, fits_iff]
      constructor
      · exact fun hx => ⟨x, text, rfl, hx, front_nil text⟩
      · rintro ⟨y, rest, htext, hy, -⟩
        obtain ⟨rfl, rfl⟩ := List.cons.inj htext
        exact hy
  | case4 c re ih =>
    rw [front_cons, show matchhere (c :: star :: re) text = matchstar (matchhere re) c text from rfl,
      matchstar_iff]
    simp only [mem_many, ih]
  | case5 c d re hd ih =>
    rw [front_one]
    cases text with
    | nil => simp [matchhere, hd]
    | cons x text =>
      rw [matchhere, if_neg hd, Bool.and_eq_true, fits_iff, ih]
      constructor
      · exact fun ⟨hx, hrest⟩ => ⟨x, text, rfl, hx, hrest⟩
      · rintro ⟨y, rest, htext, hy, hrest⟩
        obtain ⟨rfl, rfl⟩ := List.cons.inj htext
        exact ⟨hy, hrest⟩

theorem matchLoop_iff (re text : Str) :
    matchLoop re text = true ↔ ∃ before rest, text = before ++ rest ∧ Front (body re) rest := by
  induction text with
  | nil =>
    rw [matchLoop, matchhere_iff]
    constructor
    · exact fun h => ⟨[], [], rfl, h⟩
    · rintro ⟨before, rest, htext, h⟩
      rwa [(List.append_eq_nil_iff.1 htext.symm).2] at h
  | cons x text ih =>
    rw [matchLoop, Bool.or_eq_true, matchhere_iff, ih]
    constructor
    · rintro (h | ⟨before, rest, rfl, h⟩)
      · exact ⟨[], x :: text, rfl, h⟩
      · exact ⟨x :: before, rest, rfl, h⟩
    · rintro ⟨before, rest, htext, h⟩
      cases before with
      | nil =>
        left
        rw [htext]
        exact h
      | cons y before =>
        obtain ⟨-, rfl⟩ := List.cons.inj htext
        exact .inr ⟨before, rest, rfl, h⟩

/-- `match` returns 1 if and only if the pattern is found. -/
theorem isMatch_iff (re text : Str) : isMatch re text = true ↔ (parse re).Found text := by
  unfold isMatch parse
  by_cases hcaret : re.head? = some caret
  · rw [if_pos hcaret, if_pos hcaret, matchhere_iff]
    constructor
    · rintro ⟨found, after, rfl, hfound, hafter⟩
      exact ⟨[], found, after, rfl, hfound, fun _ => rfl, hafter⟩
    · rintro ⟨before, found, after, rfl, hfound, hbefore, hafter⟩
      rw [hbefore rfl]
      exact ⟨found, after, rfl, hfound, hafter⟩
  · rw [if_neg hcaret, if_neg hcaret, matchLoop_iff]
    constructor
    · rintro ⟨before, _, rfl, found, after, rfl, hfound, hafter⟩
      exact ⟨before, found, after, (List.append_assoc ..).symm, hfound, nofun, hafter⟩
    · rintro ⟨before, found, after, rfl, hfound, -, hafter⟩
      exact ⟨before, found ++ after, List.append_assoc .., found, after, rfl, hfound, hafter⟩

/-- The pattern `^*` does not match `x`, although the empty piece of it has any number of `^`. -/
theorem starred_caret : ¬∀ re text, isMatch re text = true ↔ (parsePairFirst re).Found text := by
  intro h
  have hempty : [] ∈ lang [.many caret] := by
    rw [lang, List.map_cons, List.prod_cons, List.map_nil, List.prod_nil, mul_one, mem_many]
    exact nofun
  exact Bool.false_ne_true ((h [caret, star] [120]).2 ⟨[], [], [120], rfl, hempty, nofun, nofun⟩)

end Xv6.Grep
