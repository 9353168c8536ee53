import Xv6.Files.Held
import Xv6.Lib.Transition

/-!
# File reference counts

The reference count of a file is the number of descriptors that point to it, plus the
references that the call in progress holds.  A pipe is open at an end as long as some
file is that end, and its page is given back when both ends are gone.
-/

namespace Xv6.Files

open Lib Lib.Cmd Fs

/-- The descriptors of all processes. -/
def slots (s : Kern) : Fin NPROC × Fin NOFILE → Option (Fin NFILE) :=
  fun x => (s.proc x.1).ofile x.2

/-- File `f` is in use as an end of pipe `pi`. -/
def IsEnd (s : Kern) (pi : Nat) (w : Bool) (f : Fin NFILE) : Prop :=
  0 < (s.file f).ref ∧ (s.file f).type = .pipe ∧ (s.file f).pipe = pi ∧ (s.file f).writable = w

def Ends.isOpen (e : Ends) (w : Bool) : Bool := if w then e.writeopen else e.readopen

structure Counted (s : Kern) (δ : Fin NFILE → Int) : Prop where
  count : ∀ f, (s.file f).ref = tally (slots s) f + δ f
  free : ∀ f, (s.file f).ref = 0 → (s.file f).type = .none
  idle : ∀ p, (s.proc p).state ≠ .live →
    (∀ fd, (s.proc p).ofile fd = none) ∧ (s.proc p).cwd = none
  home : ∀ p, (s.proc p).state = .live → (s.proc p).cwd ≠ none

structure Piped (s : Kern) : Prop where
  opened : ∀ pi e w, s.pipe pi = some e → (e.isOpen w = true ↔ ∃ f, IsEnd s pi w f)
  gone : ∀ pi w f, s.pipe pi = none → ¬IsEnd s pi w f
  one : ∀ pi w f g, IsEnd s pi w f → IsEnd s pi w g → f = g
  used : ∀ pi e, s.pipe pi = some e → ∃ w, e.isOpen w = true
  freed : ∀ pi, s.taken pi = s.given pi + if (s.pipe pi).isSome then 1 else 0

structure Sound (s : Kern) (δ : Fin NFILE → Int) : Prop extends Counted s δ, Piped s

def Sane (e : Stop) : Prop := e.ofFs = true ∨ e = .initExiting

theorem wp_onFs {α : Type} {c : Fs.Cmd α} {Q : α → Kern → Prop} {E : Stop → Prop} {s : Kern} :
    wp (onFs c) Q E s ↔ wp c (fun a t => Q a { s with fs := t }) E s.fs := by
  unfold wp onFs
  cases c s.fs <;> rfl

section

variable {s t : Kern} {δ δ' : Fin NFILE → Int} {p : Fin NPROC} {f : Fin NFILE}

theorem Sound.onFs (h : Sound s δ) {α : Type} {c : Fs.Cmd α} {Q : α → Fs.State → Prop}
    (hc : wp c Q (fun e => e.ofFs = true) s.fs) :
    wp (onFs c) (fun _ t => Sound t δ ∧ t.proc = s.proc) Sane s := by
  rw [wp_onFs]
  refine hc.mono (fun _ t _ => ⟨?_, rfl⟩) fun e he => .inl he
  exact { count := h.count, free := h.free, idle := h.idle, home := h.home
          opened := h.opened, gone := h.gone, one := h.one, used := h.used, freed := h.freed }

theorem Counted.pos (h : Counted s δ) (hf : 0 < δ f) : 0 < (s.file f).ref := by
  have := h.count f
  have := tally_nonneg (g := slots s) (b := f)
  omega

/-- A file that is no end of a pipe, before and after, changes. -/
theorem Piped.setFile (h : Piped s) {x : File} (hpipe : t.pipe = s.pipe) (htaken : t.taken = s.taken)
    (hgiven : t.given = s.given) (hfile : t.file = upd s.file f x)
    (hend : ∀ pi w, IsEnd s pi w f ↔ IsEnd t pi w f) : Piped t := by
  have hiff : ∀ pi w g, IsEnd t pi w g ↔ IsEnd s pi w g := by
    intro pi w g
    by_cases hg : g = f
    · subst hg
      exact (hend pi w).symm
    · simp only [IsEnd, hfile, upd_of_ne _ _ _ hg]
  constructor
  · intro pi e w he
    rw [hpipe] at he
    simp only [hiff]
    exact h.opened pi e w he
  · intro pi w g hnone
    rw [hpipe] at hnone
    rw [hiff]
    exact h.gone pi w g hnone
  · intro pi w g g'
    rw [hiff, hiff]
    exact h.one pi w g g'
  · intro pi e he
    rw [hpipe] at he
    exact h.used pi e he
  · intro pi
    rw [htaken, hgiven, hpipe]
    exact h.freed pi

theorem Counted.setFile (h : Counted s δ) {x : File} {n : Int} (hproc : t.proc = s.proc)
    (hfile : t.file = upd s.file f x) (href : x.ref = (s.file f).ref + n)
    (hfree : x.ref = 0 → x.type = .none)
    (hδ : ∀ g, δ' g = δ g + if g = f then n else 0) : Counted t δ' := by
  constructor
  · intro g
    have hslots : slots t = slots s := by
      funext x
      rw [slots, slots, hproc]
    have hcount := h.count g
    rw [hfile, hslots, hδ]
    by_cases hg : g = f
    · subst hg
      rw [upd_self, href, if_pos rfl]
      omega
    · rw [upd_of_ne _ _ _ hg, if_neg hg]
      omega
  · intro g hg
    rw [hfile] at hg ⊢
    by_cases hgf : g = f
    · subst hgf
      simp only [upd_self] at hg ⊢
      exact hfree hg
    · simp only [upd_of_ne _ _ _ hgf] at hg ⊢
      exact h.free g hg
  · rw [hproc]
    exact h.idle
  · rw [hproc]
    exact h.home

theorem Counted.setFd (h : Counted s δ) {fd : Fin NOFILE} {x : Option (Fin NFILE)}
    (hfile : t.file = s.file)
    (hproc : t.proc = upd s.proc p { s.proc p with ofile := upd (s.proc p).ofile fd x })
    (hlive : (s.proc p).state = .live) :
    Counted t (δ + points ((s.proc p).ofile fd) - points x) := by
  have hslots : slots t = upd (slots s) (p, fd) x := by
    funext y
    obtain ⟨q, fd'⟩ := y
    by_cases hq : q = p
    · subst hq
      by_cases hfd : fd' = fd
      · subst hfd
        simp [slots, hproc]
      · simp [slots, hproc, upd_of_ne _ _ _ hfd, upd_of_ne (slots s) (q, fd) x
          (x := (q, fd')) (by simpa using hfd)]
    · simp [slots, hproc, upd_of_ne _ _ _ hq, upd_of_ne (slots s) (p, fd) x (x := (q, fd'))
        (by simpa using fun h => absurd h hq)]
  constructor
  · intro g
    rw [hfile, hslots, tally_upd]
    have hcount := h.count g
    simp only [Pi.add_apply, Pi.sub_apply]
    simp only [slots] at hcount ⊢
    omega
  · rw [hfile]
    exact h.free
  · intro q hq
    rw [hproc] at hq ⊢
    by_cases hqp : q = p
    · subst hqp
      simp only [upd_self] at hq
      exact absurd hlive hq
    · simp only [upd_of_ne _ _ _ hqp] at hq ⊢
      exact h.idle q hq
  · intro q hq
    rw [hproc] at hq ⊢
    by_cases hqp : q = p
    · subst hqp
      simp only [upd_self] at hq ⊢
      exact h.home q hq
    · simp only [upd_of_ne _ _ _ hqp] at hq ⊢
      exact h.home q hq

/-- One more reference to a file in use, or the first to one that is not. -/
theorem Sound.take (h : Sound s δ) {g : File → File} (hpos : 0 ≤ (s.file f).ref)
    (href : (g (s.file f)).ref = (s.file f).ref + 1) (htype : (g (s.file f)).type = (s.file f).type)
    (hpipe : (g (s.file f)).pipe = (s.file f).pipe)
    (hwritable : (g (s.file f)).writable = (s.file f).writable) :
    Sound (s.adjustFile f g) (δ + points (some f)) where
  toCounted := by
    refine h.toCounted.setFile (f := f) rfl rfl href (fun hzero => by omega) fun x => ?_
    rw [Pi.add_apply, points_some]
  toPiped := by
    refine h.toPiped.setFile (f := f) rfl rfl rfl rfl fun pi w => ?_
    simp only [IsEnd, Kern.adjustFile, upd_self, htype, hpipe, hwritable, href]
    rcases Int.lt_or_eq_of_le hpos with hlt | heq
    · simp [hlt, show 0 < (s.file f).ref + 1 by omega]
    · simp [h.free f heq.symm]

theorem Sound.filealloc (h : Sound s δ) :
    wp filealloc (fun r t => Sound t (δ + points r) ∧ t.proc = s.proc ∧ t.pipe = s.pipe ∧
      ∀ f, r = some f → (s.file f).ref = 0 ∧ (t.file f).ref = 1 ∧ (t.file f).type = .none ∧
        ∀ g, g ≠ f → t.file g = s.file g) Sane s := by
  unfold Files.filealloc
  rw [wp_bind, wp_get]
  split
  next f hfind =>
    have hzero : (s.file f).ref = 0 := by simpa using List.find?_some hfind
    refine ⟨h.take (by omega) (by simp [hzero]) rfl rfl rfl, rfl, rfl, fun f' hf' => ?_⟩
    cases hf'
    refine ⟨hzero, by simp [Kern.adjustFile], by simp [Kern.adjustFile, h.free f hzero], ?_⟩
    intro g hg
    simp [Kern.adjustFile, upd_of_ne _ _ _ hg]
  next =>
    refine ⟨?_, rfl, rfl, fun f hf => by cases hf⟩
    rwa [points_none_eq, add_zero]

theorem Sound.filedup (h : Sound s δ) (hf : 0 < (s.file f).ref) :
    wp (filedup f) (fun _ t => Sound t (δ + points (some f)) ∧ t.proc = s.proc) Sane s := by
  unfold Files.filedup
  rw [wp_bind, wp_get, if_neg (by omega)]
  exact ⟨h.take (by omega) rfl rfl rfl rfl, rfl⟩

theorem Sound.setFd (h : Sound s δ) (hlive : (s.proc p).state = .live) (fd : Fin NOFILE)
    (x : Option (Fin NFILE)) :
    Sound (s.adjustProc p fun y => { y with ofile := upd y.ofile fd x })
      (δ + points ((s.proc p).ofile fd) - points x) where
  toCounted := h.toCounted.setFd rfl rfl hlive
  toPiped := ⟨h.opened, h.gone, h.one, h.used, h.freed⟩

theorem Sound.fdalloc (h : Sound s δ) (hlive : (s.proc p).state = .live) (f : Fin NFILE) :
    wp (fdalloc p f) (fun r t => t.file = s.file ∧ t.pipe = s.pipe ∧
      (t.proc p).state = .live ∧ (t.proc p).cwd = (s.proc p).cwd ∧
      match r with
      | none => Sound t δ ∧ t.proc = s.proc
      | some fd => Sound t (δ - points (some f)) ∧ (s.proc p).ofile fd = none ∧
          (t.proc p).ofile fd = some f ∧
          ∀ fd', fd' ≠ fd → (t.proc p).ofile fd' = (s.proc p).ofile fd') Sane s := by
  unfold Files.fdalloc
  rw [wp_bind, wp_get]
  split
  next fd hfind =>
    have hnone : (s.proc p).ofile fd = none := by simpa using List.find?_some hfind
    have hset := h.setFd hlive fd (some f)
    rw [hnone, points_none_eq, add_zero] at hset
    refine ⟨rfl, rfl, ?_, ?_, hset, hnone, ?_, fun fd' hfd' => ?_⟩
    · simp [Kern.adjustProc, hlive]
    · simp [Kern.adjustProc]
    · simp [Kern.adjustProc]
    · simp [Kern.adjustProc, upd_of_ne _ _ _ hfd']
  next => exact ⟨rfl, rfl, hlive, rfl, h, rfl⟩

end

/-!
## The last reference to an end of a pipe
-/

theorem Ends.isOpen_close (e : Ends) (w w' : Bool) :
    (e.close w).isOpen w' = true ↔ e.isOpen w' = true ∧ w' ≠ w := by
  cases w <;> cases w' <;> simp [Ends.close, Ends.isOpen]

section

variable {s t : Kern} {δ : Fin NFILE → Int} {f : Fin NFILE} {pi : Nat} {w : Bool} {e : Ends}

theorem Piped.close (h : Piped s) (hend : IsEnd s pi w f) (he : s.pipe pi = some e)
    (hiff : ∀ pi w g, IsEnd t pi w g ↔ IsEnd s pi w g ∧ g ≠ f) (htaken : t.taken = s.taken)
    (hpipe : (t.pipe = upd s.pipe pi (some (e.close w)) ∧ t.given = s.given ∧
        ∃ w', (e.close w).isOpen w' = true) ∨
      (t.pipe = upd s.pipe pi none ∧ t.given = upd s.given pi (s.given pi + 1) ∧
        ∀ w', (e.close w).isOpen w' = false)) : Piped t := by
  -- the other ends of this pipe
  have hopen : ∀ w', (e.close w).isOpen w' = true ↔ ∃ g, IsEnd t pi w' g := by
    intro w'
    rw [Ends.isOpen_close, h.opened pi e w' he]
    constructor
    · rintro ⟨⟨g, hg⟩, hw⟩
      refine ⟨g, (hiff pi w' g).2 ⟨hg, ?_⟩⟩
      rintro rfl
      exact hw (hg.2.2.2.symm.trans hend.2.2.2)
    · rintro ⟨g, hg⟩
      obtain ⟨hg, hne⟩ := (hiff pi w' g).1 hg
      refine ⟨⟨g, hg⟩, ?_⟩
      rintro rfl
      exact hne (h.one pi w' g f hg hend)
  have hother : ∀ pi' w' g, pi' ≠ pi → (IsEnd t pi' w' g ↔ IsEnd s pi' w' g) := by
    intro pi' w' g hpi
    rw [hiff]
    refine ⟨fun hg => hg.1, fun hg => ⟨hg, ?_⟩⟩
    rintro rfl
    exact hpi (hg.2.2.1.symm.trans hend.2.2.1)
  have hsame : ∀ pi', pi' ≠ pi → t.pipe pi' = s.pipe pi' := by
    intro pi' hpi
    rcases hpipe with ⟨hp, -, -⟩ | ⟨hp, -, -⟩ <;> rw [hp, upd_of_ne _ _ _ hpi]
  constructor
  · intro pi' e' w' he'
    by_cases hpi : pi' = pi
    · subst hpi
      rcases hpipe with ⟨hp, -, -⟩ | ⟨hp, -, -⟩
      · rw [hp, upd_self] at he'
        cases he'
        exact hopen w'
      · rw [hp, upd_self] at he'
        cases he'
    · simp only [hother pi' w' _ hpi]
      rw [hsame pi' hpi] at he'
      exact h.opened pi' e' w' he'
  · intro pi' w' g hnone
    by_cases hpi : pi' = pi
    · subst hpi
      rcases hpipe with ⟨hp, -, -⟩ | ⟨hp, -, hclosed⟩
      · rw [hp, upd_self] at hnone
        cases hnone
      · intro hg
        have := (hopen w').2 ⟨g, hg⟩
        rw [hclosed w'] at this
        cases this
    · rw [hother pi' w' _ hpi]
      rw [hsame pi' hpi] at hnone
      exact h.gone pi' w' g hnone
  · intro pi' w' g g' hg hg'
    exact h.one pi' w' g g' ((hiff _ _ _).1 hg).1 ((hiff _ _ _).1 hg').1
  · intro pi' e' he'
    by_cases hpi : pi' = pi
    · subst hpi
      rcases hpipe with ⟨hp, -, hw⟩ | ⟨hp, -, -⟩
      · rw [hp, upd_self] at he'
        cases he'
        exact hw
      · rw [hp, upd_self] at he'
        cases he'
    · rw [hsame pi' hpi] at he'
      exact h.used pi' e' he'
  · intro pi'
    have hfreed := h.freed pi'
    rw [htaken]
    by_cases hpi : pi' = pi
    · subst hpi
      rw [he] at hfreed
      rcases hpipe with ⟨hp, hg, -⟩ | ⟨hp, hg, -⟩ <;> rw [hp, hg] <;> simpa using hfreed
    · rw [hsame pi' hpi]
      rcases hpipe with ⟨-, hg, -⟩ | ⟨-, hg, -⟩
      · rw [hg]
        exact hfreed
      · rw [hg, upd_of_ne _ _ _ hpi]
        exact hfreed

def File.closed (x : File) : File := { x with ref := 0, type := .none }

theorem Counted.close (h : Counted s δ) (hlast : (s.file f).ref = 1) (hproc : t.proc = s.proc)
    (hfile : t.file = upd s.file f (s.file f).closed) : Counted t (δ - points (some f)) := by
  refine h.setFile hproc hfile (n := -1) (by rw [hlast]; rfl) (fun _ => rfl) fun g => ?_
  rw [Pi.sub_apply, points_some]
  split <;> omega

theorem isEnd_close (hfile : t.file = upd s.file f (s.file f).closed) (pi : Nat) (w : Bool)
    (g : Fin NFILE) : IsEnd t pi w g ↔ IsEnd s pi w g ∧ g ≠ f := by
  by_cases hg : g = f
  · subst hg
    simp [IsEnd, hfile, File.closed]
  · simp [IsEnd, hfile, upd_of_ne _ _ _ hg, hg]

theorem Sound.pipeclose (h : Sound s δ) (hlast : (s.file f).ref = 1)
    (htype : (s.file f).type = .pipe) :
    wp (pipeclose (s.file f).pipe (s.file f).writable)
      (fun _ t => Sound t (δ - points (some f)) ∧ t.proc = s.proc) Sane
      (s.adjustFile f File.closed) := by
  have hend : IsEnd s (s.file f).pipe (s.file f).writable f := ⟨by omega, htype, rfl, rfl⟩
  obtain ⟨e, he⟩ : ∃ e, s.pipe (s.file f).pipe = some e := by
    cases hp : s.pipe (s.file f).pipe with
    | none => exact absurd hend (h.gone _ _ _ hp)
    | some e => exact ⟨e, rfl⟩
  unfold Files.pipeclose
  rw [wp_bind, wp_get]
  simp only [Kern.adjustFile, he]
  rw [wp_ite]
  refine ⟨fun hclosed => ⟨⟨?_, ?_⟩, rfl⟩, fun hopen => ⟨⟨?_, ?_⟩, rfl⟩⟩
  · exact h.toCounted.close hlast rfl rfl
  · refine h.toPiped.close hend he (isEnd_close rfl) rfl (.inr ⟨rfl, rfl, fun w' => ?_⟩)
    cases w'
    · exact hclosed.1
    · exact hclosed.2
  · exact h.toCounted.close hlast rfl rfl
  · refine h.toPiped.close hend he (isEnd_close rfl) rfl (.inl ⟨rfl, rfl, ?_⟩)
    by_contra hall
    simp only [not_exists, Bool.not_eq_true] at hall
    exact hopen ⟨hall false, hall true⟩

theorem Sound.closed (h : Sound s δ) (hlast : (s.file f).ref = 1)
    (htype : (s.file f).type ≠ .pipe) :
    Sound (s.adjustFile f File.closed) (δ - points (some f)) where
  toCounted := h.toCounted.close hlast rfl rfl
  toPiped := by
    refine h.toPiped.setFile (f := f) rfl rfl rfl rfl fun pi w => ?_
    rw [isEnd_close (t := s.adjustFile f File.closed) rfl]
    simp [IsEnd, htype]

theorem Sound.iputOp (h : Sound s δ) (k : Slot) :
    wp (iputOp k) (fun _ t => Sound t δ ∧ t.proc = s.proc) Sane s := by
  refine h.onFs (Q := fun _ _ => True) ?_
  refine (quiet_beginOp _).bind fun _ t _ => ?_
  refine (ref_iput k t).bind fun _ u _ => ?_
  exact (quiet_endOp u).imp fun _ _ _ => trivial

theorem Sound.fileclose (h : Sound s δ) (hf : 0 < (s.file f).ref) :
    wp (fileclose f) (fun _ t => Sound t (δ - points (some f)) ∧ t.proc = s.proc) Sane s := by
  unfold Files.fileclose
  rw [wp_bind, wp_get, if_neg (by omega), wp_ite]
  refine ⟨fun hmore => ⟨⟨?_, ?_⟩, rfl⟩, fun hlast => ?_⟩
  · refine h.toCounted.setFile (f := f) (n := -1) rfl rfl rfl (fun hzero => ?_) fun g => ?_
    · simp only at hzero
      omega
    · rw [Pi.sub_apply, points_some]
      split <;> omega
  · refine h.toPiped.setFile (f := f) rfl rfl rfl rfl fun pi w => ?_
    simp [IsEnd, Kern.adjustFile, hf, show 1 < (s.file f).ref by omega]
  · have hone : (s.file f).ref = 1 := by omega
    change wp _ _ _ (s.adjustFile f File.closed)
    split
    next htype => exact h.pipeclose hone htype
    next htype => exact (h.closed hone (by simp [htype])).iputOp _
    next htype => exact (h.closed hone (by simp [htype])).iputOp _
    next htype => exact ⟨h.closed hone (by simp [htype]), rfl⟩

end

/-!
## The calls
-/

section

variable {s : Kern} {δ : Fin NFILE → Int} {p : Fin NPROC} {f : Fin NFILE}

theorem Counted.inUse (h : Counted s 0) {fd : Fin NOFILE} (hfd : (s.proc p).ofile fd = some f) :
    0 < (s.file f).ref := by
  have hcount := h.count f
  have hpos : 0 < tally (slots s) f := tally_pos.2 ⟨(p, fd), hfd⟩
  simp only [Pi.zero_apply] at hcount
  omega

theorem wp_argfd {Q : Option (Fin NOFILE × Fin NFILE) → Kern → Prop} {E : Stop → Prop} {fd : Int}
    (hnone : Q none s) (hsome : ∀ fd f, (s.proc p).ofile fd = some f → Q (some (fd, f)) s) :
    wp (argfd p fd) Q E s := by
  unfold argfd
  rw [wp_bind, wp_get]
  split
  next hrange =>
    cases hf : (s.proc p).ofile ⟨fd.toNat, by change _ < 16; omega⟩ with
    | none => simpa [hf] using hnone
    | some f => simpa [hf] using hsome _ f hf
  next => exact hnone

theorem sound_sysDup (h : Sound s 0) (hlive : (s.proc p).state = .live) (fd : Int) :
    wp (sysDup p fd) (fun _ t => Sound t 0) Sane s := by
  unfold sysDup
  rw [wp_bind]
  refine wp_argfd h fun fd f hf => ?_
  have hpos := h.toCounted.inUse hf
  simp only
  refine (h.fdalloc hlive f).bind fun r t ht => ?_
  obtain ⟨hfile, -, -, -, hr⟩ := ht
  split
  next => exact hr.1
  next fd' =>
    rw [wp_bind]
    rw [← hfile] at hpos
    refine (hr.1.filedup hpos).imp fun _ u hu => ?_
    have hu := hu.1
    rwa [sub_add_cancel] at hu

theorem sound_sysClose (h : Sound s 0) (hlive : (s.proc p).state = .live) (fd : Int) :
    wp (sysClose p fd) (fun _ t => Sound t 0) Sane s := by
  unfold sysClose
  rw [wp_bind]
  refine wp_argfd h fun fd f hf => ?_
  have hpos := h.toCounted.inUse hf
  have hset := h.setFd hlive fd none
  rw [hf, points_none_eq, sub_zero, zero_add] at hset
  change wp (do fileclose f; return 0) _ _ _
  refine (hset.fileclose hpos).bind fun _ t ht => ?_
  have ht := ht.1
  rwa [sub_self] at ht

end

/-!
## Pipes
-/

section

variable {s t : Kern} {δ : Fin NFILE → Int} {p : Fin NPROC} {f0 f1 : Fin NFILE} {pi : Nat}

def Kern.piped (s : Kern) (f0 f1 : Fin NFILE) (pi : Nat) : Kern :=
  ({ s with
      pipe := upd s.pipe pi (some ⟨true, true⟩)
      taken := upd s.taken pi (s.taken pi + 1) }.adjustFile f0 fun x =>
    { x with type := .pipe, readable := true, writable := false, pipe := pi }).adjustFile f1
      fun x => { x with type := .pipe, readable := false, writable := true, pipe := pi }

theorem isEnd_piped (hne : f0 ≠ f1) (href : (s.file f0).ref = 1 ∧ (s.file f1).ref = 1)
    (htype : (s.file f0).type = .none ∧ (s.file f1).type = .none) (pi pi' : Nat) (w : Bool)
    (g : Fin NFILE) : IsEnd (s.piped f0 f1 pi) pi' w g ↔
      IsEnd s pi' w g ∨ pi' = pi ∧ g = if w then f1 else f0 := by
  by_cases h1 : g = f1
  · subst h1
    cases w <;> simp [IsEnd, Kern.piped, Kern.adjustFile, upd_of_ne _ _ _ hne.symm, href, htype,
      hne.symm, @eq_comm _ pi pi']
  · by_cases h0 : g = f0
    · subst h0
      cases w <;> simp [IsEnd, Kern.piped, Kern.adjustFile, upd_of_ne _ _ _ hne, href, htype, hne,
        @eq_comm _ pi pi']
    · cases w <;> simp [IsEnd, Kern.piped, Kern.adjustFile, upd_of_ne _ _ _ h0,
        upd_of_ne _ _ _ h1, h0, h1]

theorem Sound.piped (h : Sound s δ) (hne : f0 ≠ f1)
    (href : (s.file f0).ref = 1 ∧ (s.file f1).ref = 1)
    (htype : (s.file f0).type = .none ∧ (s.file f1).type = .none) (hpi : s.pipe pi = none) :
    Sound (s.piped f0 f1 pi) δ := by
  have hiff := isEnd_piped hne href htype pi
  have hpipe : (s.piped f0 f1 pi).pipe = upd s.pipe pi (some ⟨true, true⟩) := rfl
  have hcounted : Counted (s.piped f0 f1 pi) δ := by
    constructor
    · intro g
      rw [show slots (s.piped f0 f1 pi) = slots s from rfl, ← h.count g]
      by_cases h1 : g = f1 <;> by_cases h0 : g = f0 <;>
        simp_all [Kern.piped, Kern.adjustFile, upd_eq]
    · intro g
      by_cases h1 : g = f1 <;> by_cases h0 : g = f0 <;>
        simp_all [Kern.piped, Kern.adjustFile, upd_eq, h.free g]
    · exact h.idle
    · exact h.home
  refine ⟨hcounted, ?_⟩
  constructor
  · intro pi' e w he
    simp only [hiff]
    by_cases hpi' : pi' = pi
    · subst hpi'
      rw [hpipe, upd_self] at he
      cases he
      refine ⟨fun _ => ⟨_, .inr ⟨rfl, rfl⟩⟩, fun _ => ?_⟩
      cases w <;> rfl
    · rw [hpipe, upd_of_ne _ _ _ hpi'] at he
      simp only [hpi', false_and, or_false]
      exact h.opened pi' e w he
  · intro pi' w g hnone
    by_cases hpi' : pi' = pi
    · subst hpi'
      rw [hpipe, upd_self] at hnone
      cases hnone
    · rw [hpipe, upd_of_ne _ _ _ hpi'] at hnone
      rw [hiff]
      simp only [hpi', false_and, or_false]
      exact h.gone pi' w g hnone
  · intro pi' w g g' hg hg'
    rw [hiff] at hg hg'
    by_cases hpi' : pi' = pi
    · subst hpi'
      have hold : ∀ g, ¬IsEnd s pi' w g := fun g => h.gone pi' w g hpi
      rw [(hg.resolve_left (hold g)).2, (hg'.resolve_left (hold g')).2]
    · simp only [hpi', false_and, or_false] at hg hg'
      exact h.one pi' w g g' hg hg'
  · intro pi' e he
    by_cases hpi' : pi' = pi
    · subst hpi'
      rw [hpipe, upd_self] at he
      cases he
      exact ⟨true, rfl⟩
    · rw [hpipe, upd_of_ne _ _ _ hpi'] at he
      exact h.used pi' e he
  · intro pi'
    have hfreed := h.freed pi'
    by_cases hpi' : pi' = pi
    · subst hpi'
      rw [hpi] at hfreed
      simp only [Option.isSome_none, Bool.false_eq_true, if_false, add_zero] at hfreed
      simp [Kern.piped, Kern.adjustFile, hfreed]
    · simp only [Kern.piped, Kern.adjustFile, upd_of_ne _ _ _ hpi']
      exact hfreed

theorem sound_pipealloc (h : Sound s 0) {page : Option Nat}
    (hpage : ∀ pi, page = some pi → s.pipe pi = none) :
    wp (pipealloc page) (fun r t => t.proc = s.proc ∧ match r with
      | none => Sound t 0
      | some (f0, f1) => f0 ≠ f1 ∧ Sound t (points (some f0) + points (some f1))) Sane s := by
  unfold pipealloc
  refine h.filealloc.bind fun r t ht => ?_
  obtain ⟨ht, htproc, htpipe, hr⟩ := ht
  split
  next =>
    rw [points_none_eq, add_zero] at ht
    exact ⟨htproc, ht⟩
  next f0 =>
    obtain ⟨-, hone, htype, -⟩ := hr f0 rfl
    rw [zero_add] at ht
    refine ht.filealloc.bind fun r u hu => ?_
    obtain ⟨hu, huproc, hupipe, hr⟩ := hu
    split
    next =>
      rw [points_none_eq, add_zero] at hu
      refine (hu.fileclose (hu.toCounted.pos (by simp))).bind fun _ v hv => ?_
      have hv0 := hv.1
      rw [sub_self] at hv0
      exact ⟨by rw [hv.2, huproc, htproc], hv0⟩
    next f1 =>
      obtain ⟨hzero, hone1, htype1, hother⟩ := hr f1 rfl
      have hne : f0 ≠ f1 := by
        rintro rfl
        omega
      rw [wp_bind]
      unfold kalloc
      split
      next =>
        refine wp_pure.2 ?_
        simp only
        refine (hu.fileclose (hu.toCounted.pos ?_)).bind fun _ v hv => ?_
        · simp only [Pi.add_apply, points_self]
          have := points_nonneg (some f1) (b := f0)
          omega
        · have hv0 := hv.1
          rw [add_sub_cancel_left] at hv0
          refine (hv0.fileclose (hv0.toCounted.pos (by simp))).bind fun _ w hw => ?_
          have hw0 := hw.1
          rw [sub_self] at hw0
          exact ⟨by rw [hw.2, hv.2, huproc, htproc], hw0⟩
      next pi =>
        refine ⟨?_, hne, ?_⟩
        · exact huproc.trans htproc
        · refine hu.piped hne ⟨?_, hone1⟩ ⟨?_, htype1⟩ ?_
          · rw [hother f0 hne, hone]
          · rw [hother f0 hne, htype]
          · rw [hupipe, htpipe]
            exact hpage pi rfl

theorem sound_closeBoth (h : Sound s (points (some f0) + points (some f1))) :
    wp (do fileclose f0; fileclose f1; return (-1 : Int)) (fun _ t => Sound t 0) Sane s := by
  have hpos : 0 < (points (some f0) + points (some f1)) f0 := by
    have := points_nonneg (some f1) (b := f0)
    simp only [Pi.add_apply, points_self]
    omega
  rw [wp_bind]
  apply (h.fileclose (h.toCounted.pos hpos)).imp
  intro _ t ht
  have ht := ht.1
  rw [add_sub_cancel_left] at ht
  rw [wp_bind]
  apply (ht.fileclose (ht.toCounted.pos (by simp))).imp
  intro _ u hu
  have hu := hu.1
  rwa [sub_self] at hu

theorem sound_sysPipe (h : Sound s 0) (hlive : (s.proc p).state = .live) {page : Option Nat}
    (hpage : ∀ pi, page = some pi → s.pipe pi = none) (out0 out1 : Bool) :
    wp (sysPipe p page out0 out1) (fun _ t => Sound t 0) Sane s := by
  unfold sysPipe
  rw [wp_bind]
  apply (sound_pipealloc h hpage).imp
  intro r t ht
  obtain ⟨hproc, hr⟩ := ht
  split
  next => exact hr
  next rf wf =>
    obtain ⟨-, ht⟩ := hr
    rw [wp_bind]
    apply (ht.fdalloc (by rw [hproc]; exact hlive) rf).imp
    intro r u hu
    obtain ⟨-, -, hulive, -, hr⟩ := hu
    split
    next => exact sound_closeBoth hr.1
    next fd0 =>
      obtain ⟨hu, -, hfd0, -⟩ := hr
      rw [wp_bind]
      apply (hu.fdalloc hulive wf).imp
      intro r v hv
      obtain ⟨-, -, hvlive, -, hr⟩ := hv
      split
      next =>
        have hv := hr.1.setFd hvlive fd0 none
        rw [hr.2, hfd0, points_none_eq, sub_zero, sub_add_cancel] at hv
        exact sound_closeBoth hv
      next fd1 =>
        obtain ⟨hv, hfree, hfd1, hother⟩ := hr
        rw [wp_ite]
        constructor
        · intro _
          rw [add_sub_cancel_left, sub_self] at hv
          exact hv
        · intro _
          have hne : fd0 ≠ fd1 := by
            intro heq
            rw [heq, hfree] at hfd0
            cases hfd0
          have hw := hv.setFd hvlive fd0 none
          rw [hother fd0 hne, hfd0, points_none_eq, sub_zero] at hw
          have hx := hw.setFd (p := p) (by simp [Kern.adjustProc, hvlive]) fd1 none
          have hslot : ((v.adjustProc p fun y => { y with ofile := upd y.ofile fd0 none }).proc
              p).ofile fd1 = some wf := by
            simp [Kern.adjustProc, upd_of_ne _ _ _ hne.symm, hfd1]
          rw [hslot, points_none_eq, sub_zero, add_sub_cancel_left, sub_self, zero_add] at hx
          exact sound_closeBoth hx

/-!
## Opening a file
-/

theorem Sound.makeInode (h : Sound s δ) {f : Fin NFILE} (hpos : 0 < (s.file f).ref)
    (htype : (s.file f).type = .none) (ip : Slot) (x : Inode) (omode : UInt32) :
    Sound (s.adjustFile f (opened ip x omode)) δ := by
  have href : (Files.opened ip x omode (s.file f)).ref = (s.file f).ref := by
    unfold Files.opened
    split <;> rfl
  have hpipe : (Files.opened ip x omode (s.file f)).type ≠ .pipe := by
    unfold Files.opened
    split <;> simp
  constructor
  · refine h.toCounted.setFile (f := f) (n := 0) rfl rfl (by rw [href]; omega) ?_ ?_
    · intro hzero
      omega
    · intro g
      split <;> omega
  · refine h.toPiped.setFile (f := f) rfl rfl rfl rfl ?_
    intro pi w
    simp [IsEnd, Kern.adjustFile, htype, hpipe]

theorem sound_openBad (h : Sound s 0) (ip : Slot) :
    wp (openBad ip) (fun _ t => Sound t 0) Sane s := by
  have hfs : wp (do iunlockput ip; endOp; return (-1 : Int)) (fun _ _ => True)
      (fun e => e.ofFs = true) s.fs := by
    unfold iunlockput
    simp only [wp_bind]
    apply (quiet_iunlock ip s.fs).imp
    intro _ t _
    apply (ref_iput ip t).imp
    intro _ u _
    exact (quiet_endOp u).imp fun _ _ _ => trivial
  exact (h.onFs hfs).imp fun _ t ht => ht.1

theorem sound_openFile (h : Sound s 0) (hlive : (s.proc p).state = .live) (ip : Slot)
    (omode : UInt32) : wp (openFile p ip omode) (fun _ t => Sound t 0) Sane s := by
  unfold openFile
  rw [wp_bind, wp_onFs]
  change wp _ _ _ s
  rw [wp_ite]
  constructor
  · intro _
    exact sound_openBad h ip
  intro _
  rw [wp_bind]
  apply h.filealloc.imp
  intro r t ht
  obtain ⟨ht, hproc, -, hr⟩ := ht
  split
  next =>
    rw [points_none_eq, add_zero] at ht
    exact sound_openBad ht ip
  next f =>
    obtain ⟨-, hone, htype, -⟩ := hr f rfl
    rw [zero_add] at ht
    rw [wp_bind]
    apply (ht.fdalloc (by rw [hproc]; exact hlive) f).imp
    intro r u hu
    obtain ⟨hfile, -, -, -, hr⟩ := hu
    split
    next =>
      rw [wp_bind]
      apply (hr.1.fileclose (hr.1.toCounted.pos (by simp))).imp
      intro _ v hv
      have hv := hv.1
      rw [sub_self] at hv
      exact sound_openBad hv ip
    next fd =>
      obtain ⟨hu, -⟩ := hr
      rw [sub_self] at hu
      have hv := hu.makeInode (f := f) (by rw [hfile]; omega) (by rw [hfile]; exact htype) ip
        (s.fs.inode ip) omode
      rw [wp_bind]
      change wp _ _ _ (u.adjustFile f (opened ip (s.fs.inode ip) omode))
      rw [wp_bind]
      have hfs : Quiet (do
          (if omode &&& O_TRUNC ≠ 0 ∧ (s.fs.inode ip).type = T_FILE then itrunc ip else pure ⟨⟩)
          iunlock ip
          endOp) :=
        .bind (.ite (quiet_itrunc ip) (.of_pure _)) fun _ =>
          (quiet_iunlock ip).bind fun _ => quiet_endOp
      exact (hv.onFs (hfs _)).imp fun _ w hw => hw.1

theorem Counted.wp_cwdOf (h : Counted s δ) (hlive : (s.proc p).state = .live)
    {Q : Slot → Kern → Prop} {E : Stop → Prop}
    (hQ : ∀ k, (s.proc p).cwd = some k → Q k s) : wp (cwdOf p) Q E s := by
  unfold cwdOf
  rw [wp_bind, wp_get]
  cases hk : (s.proc p).cwd with
  | none => exact absurd hk (h.home p hlive)
  | some k => exact hQ k hk

theorem sound_sysOpen (h : Sound s 0) (hlive : (s.proc p).state = .live) (path : Str)
    (omode : UInt32) : wp (sysOpen p path omode) (fun _ t => Sound t 0) Sane s := by
  unfold sysOpen
  rw [wp_bind]
  apply h.toCounted.wp_cwdOf hlive
  intro cwd _
  rw [wp_bind]
  apply (h.onFs (quiet_beginOp s.fs)).imp
  intro _ t ht
  rw [wp_bind]
  apply (ht.1.onFs (held_openInode (Holds.refl cwd t.fs) path omode)).imp
  intro r u hu
  split
  next =>
    exact (hu.1.onFs (quiet_endOp u.fs)).bind fun _ v hv => hv.1
  next ip =>
    apply sound_openFile hu.1
    rw [hu.2, ht.2]
    exact hlive

theorem sound_withCwd (h : Sound s 0) (hlive : (s.proc p).state = .live) {α : Type}
    {c : Slot → Fs.Cmd α} {Q : Slot → α → Fs.State → Prop}
    (hc : ∀ cwd, wp (c cwd) (Q cwd) (fun e => e.ofFs = true) s.fs) :
    wp (do let cwd ← cwdOf p; onFs (c cwd)) (fun _ t => Sound t 0 ∧ t.proc = s.proc) Sane s := by
  rw [wp_bind]
  apply h.toCounted.wp_cwdOf hlive
  intro cwd _
  exact h.onFs (hc cwd)

theorem Sound.setProc (h : Sound s δ) {g : Proc → Proc}
    (hofile : (g (s.proc p)).ofile = (s.proc p).ofile) (hidle : (g (s.proc p)).state ≠ .live →
      (∀ fd, (s.proc p).ofile fd = none) ∧ (g (s.proc p)).cwd = none)
    (hhome : (g (s.proc p)).state = .live → (g (s.proc p)).cwd ≠ none) :
    Sound (s.adjustProc p g) δ := by
  have hslots : slots (s.adjustProc p g) = slots s := by
    funext y
    by_cases hy : y.1 = p
    · simp [slots, Kern.adjustProc, hy, hofile]
    · simp [slots, Kern.adjustProc, upd_of_ne _ _ _ hy]
  constructor
  · constructor
    · intro f
      rw [hslots]
      exact h.count f
    · exact h.free
    · intro q hq
      by_cases hqp : q = p
      · subst hqp
        simp only [Kern.adjustProc, upd_self, hofile] at hq ⊢
        exact hidle hq
      · simp only [Kern.adjustProc, upd_of_ne _ _ _ hqp] at hq ⊢
        exact h.idle q hq
    · intro q hq
      by_cases hqp : q = p
      · subst hqp
        simp only [Kern.adjustProc, upd_self] at hq ⊢
        exact hhome hq
      · simp only [Kern.adjustProc, upd_of_ne _ _ _ hqp] at hq ⊢
        exact h.home q hq
  · exact ⟨h.toPiped.opened, h.gone, h.one, h.used, h.freed⟩

theorem sound_sysChdir (h : Sound s 0) (hlive : (s.proc p).state = .live) (path : Str) :
    wp (sysChdir p path) (fun _ t => Sound t 0) Sane s := by
  unfold sysChdir
  rw [wp_bind]
  apply h.toCounted.wp_cwdOf hlive
  intro cwd _
  rw [wp_bind]
  apply (h.onFs (held_chdir cwd s.fs path)).imp
  intro r t ht
  split
  next => exact ht.1
  next ip =>
    refine ht.1.setProc rfl (fun hidle => ?_) fun _ => by simp
    simp only [ht.2] at hidle
    exact absurd hlive hidle

end

/-!
## `fork` and `exit`
-/

section

variable {s : Kern} {p q : Fin NPROC} {k : Slot}

def Kern.born (s : Kern) (q : Fin NPROC) (k : Slot) : Kern :=
  s.adjustProc q fun x => { x with cwd := some k, state := .live }

/-- The loop of `fork` over the descriptors; `rest` are those still to come. -/
theorem sound_forkFiles (hpq : p ≠ q) {rest : List (Fin NOFILE)} (hnodup : rest.Nodup)
    (hnone : ∀ fd ∈ rest, (s.proc q).ofile fd = none) (h : Sound (s.born q k) 0) :
    wp (forM rest fun fd => do
        let s ← get
        match (s.proc p).ofile fd with
        | none => pure ⟨⟩
        | some f =>
          filedup f
          setFd q fd (some f))
      (fun _ t => Sound (t.born q k) 0 ∧ t.proc p = s.proc p) Sane s := by
  induction rest generalizing s with
  | nil => exact ⟨h, rfl⟩
  | cons fd rest ih =>
    rw [List.forM_cons, wp_bind, wp_bind, wp_get]
    rw [List.nodup_cons] at hnodup
    split
    next => exact ih hnodup.2 (fun fd' hfd' => hnone fd' (List.mem_cons_of_mem _ hfd')) h
    next f hf =>
      have hborn : ((s.born q k).proc p).ofile fd = some f := by
        simp [Kern.born, Kern.adjustProc, upd_of_ne _ _ _ hpq, hf]
      have hpos : 0 < (s.file f).ref := h.toCounted.inUse hborn
      have hslot : ((s.born q k).proc q).ofile fd = none := by
        simp [Kern.born, Kern.adjustProc, hnone fd List.mem_cons_self]
      rw [wp_bind]
      unfold filedup
      rw [wp_bind, wp_get, if_neg (by omega)]
      -- the child takes over the reference
      have hdup : Sound ((s.born q k).adjustFile f fun x => { x with ref := x.ref + 1 })
          (points (some f)) := by
        have hdup := h.take (f := f) (g := fun x => { x with ref := x.ref + 1 })
          (Int.le_of_lt hpos) rfl rfl rfl rfl
        rwa [zero_add] at hdup
      have hset := hdup.setFd (p := q) (by simp [Kern.born, Kern.adjustProc, Kern.adjustFile])
        fd (some f)
      rw [show (((s.born q k).adjustFile f fun x => { x with ref := x.ref + 1 }).proc q).ofile fd
        = none from hslot, points_none_eq, add_zero, sub_self] at hset
      refine (ih hnodup.2 ?_ ?_).imp fun _ t ht => ⟨ht.1, ?_⟩
      · intro fd' hfd'
        have hne : fd' ≠ fd := fun heq => hnodup.1 (heq ▸ hfd')
        simp [Kern.adjustProc, Kern.adjustFile, upd_of_ne _ _ _ hne,
          hnone fd' (List.mem_cons_of_mem _ hfd')]
      · simp only [Kern.born, Kern.adjustProc, Kern.adjustFile, upd_self, upd_upd] at hset ⊢
        exact hset
      · rw [ht.2]
        simp [Kern.adjustProc, Kern.adjustFile, upd_of_ne _ _ _ hpq]

theorem sound_fork (h : Sound s 0) (hlive : (s.proc p).state = .live) (mem : Bool) :
    wp (fork p mem) (fun _ t => Sound t 0) Sane s := by
  unfold fork
  rw [wp_bind, wp_get]
  split
  next => exact h
  next q hfind =>
    have hq : (s.proc q).state = .unused := by simpa using List.find?_some hfind
    have hpq : p ≠ q := by
      rintro rfl
      rw [hlive] at hq
      cases hq
    have hidle : ∀ fd, (s.proc q).ofile fd = none := (h.idle q (by rw [hq]; simp)).1
    rw [wp_ite]
    constructor
    · intro _
      exact h
    intro _
    obtain ⟨k, hk⟩ : ∃ k, (s.proc p).cwd = some k := Option.ne_none_iff_exists'.1 (h.home p hlive)
    rw [wp_bind]
    have hborn : Sound (s.born q k) 0 := h.setProc rfl (fun hne => absurd rfl hne) fun _ => by simp
    refine (sound_forkFiles hpq (List.nodup_finRange NOFILE) (fun fd _ => hidle fd) hborn).imp ?_
    intro _ t ht
    have hcwd : (t.proc p).cwd = some k := by
      rw [ht.2]
      exact hk
    rw [wp_bind]
    unfold cwdOf
    rw [wp_bind, wp_get, hcwd]
    refine wp_pure.2 ?_
    rw [wp_bind, wp_onFs]
    have hfs := ht.1
    exact { count := hfs.count, free := hfs.free, idle := hfs.idle, home := hfs.home
            opened := hfs.toPiped.opened, gone := hfs.gone, one := hfs.one, used := hfs.used
            freed := hfs.freed }

/-- The loop of `exit`; the descriptors that are not in `rest` are closed. -/
theorem sound_exitFiles {rest : List (Fin NOFILE)} (h : Sound s 0)
    (hlive : (s.proc p).state = .live) (hdone : ∀ fd, fd ∉ rest → (s.proc p).ofile fd = none) :
    wp (forM rest fun fd => do
        let s ← get
        match (s.proc p).ofile fd with
        | none => pure ⟨⟩
        | some f =>
          fileclose f
          setFd p fd none)
      (fun _ t => Sound t 0 ∧ (t.proc p).state = .live ∧ ∀ fd, (t.proc p).ofile fd = none)
      Sane s := by
  induction rest generalizing s with
  | nil => exact ⟨h, hlive, fun fd => hdone fd (by simp)⟩
  | cons fd rest ih =>
    rw [List.forM_cons, wp_bind, wp_bind, wp_get]
    split
    next hnone =>
      refine ih h hlive fun fd' hfd' => ?_
      by_cases heq : fd' = fd
      · rw [heq, hnone]
      · exact hdone fd' (by simp [heq, hfd'])
    next f hf =>
      refine (h.fileclose (h.toCounted.inUse hf)).bind fun _ t ht => ?_
      have htlive : (t.proc p).state = .live := by
        rw [ht.2]
        exact hlive
      have hset := ht.1.setFd htlive fd none
      rw [ht.2, hf, points_none_eq, sub_zero, sub_add_cancel] at hset
      refine ih hset (by simp [Kern.adjustProc, htlive]) fun fd' hfd' => ?_
      by_cases heq : fd' = fd
      · subst heq
        simp [Kern.adjustProc]
      · simp only [Kern.adjustProc, upd_self, upd_of_ne _ _ _ heq, ht.2]
        exact hdone fd' (by simp [heq, hfd'])

theorem sound_exit (h : Sound s 0) (hlive : (s.proc p).state = .live) :
    wp (exit p) (fun _ t => Sound t 0) Sane s := by
  unfold exit
  rw [wp_ite]
  constructor
  · intro _
    exact .inr rfl
  intro _
  rw [wp_bind]
  refine (sound_exitFiles h hlive fun fd hfd => absurd (List.mem_finRange fd) hfd).imp ?_
  intro _ t ht
  obtain ⟨ht, htlive, hnone⟩ := ht
  rw [wp_bind]
  apply ht.toCounted.wp_cwdOf htlive
  intro cwd _
  refine (ht.iputOp cwd).bind fun _ u hu => ?_
  refine hu.1.setProc rfl (fun _ => ⟨fun fd => ?_, rfl⟩) fun hlive => by cases hlive
  rw [hu.2]
  exact hnone fd

theorem sound_reap (h : Sound s 0) (q : Fin NPROC) : wp (reap q) (fun _ t => Sound t 0) Sane s := by
  unfold reap
  rw [wp_bind, wp_get, wp_ite]
  constructor
  · intro hzombie
    have hidle := h.idle q (by rw [hzombie]; simp)
    exact h.setProc rfl (fun _ => hidle) fun hlive => by cases hlive
  · intro _
    exact h

theorem sound_withPath {path : Option Str} {c : Str → Cmd PUnit} (h : Sound s 0)
    (hc : ∀ path, wp (c path) (fun _ t => Sound t 0) Sane s) :
    wp (withPath path c) (fun _ t => Sound t 0) Sane s := by
  cases path with
  | none => exact h
  | some path => exact hc path

theorem sound_drop {c : Cmd Int} (hc : wp c (fun _ t => Sound t 0) Sane s) :
    wp (drop c) (fun _ t => Sound t 0) Sane s := by
  unfold drop
  rw [wp_bind]
  exact hc

/-- Every call of a live process keeps the counts, and stops for no reason of the file
table's own. -/
theorem sound_call (h : Sound s 0) (hlive : (s.proc p).state = .live) {c : Call}
    (hfresh : c.fresh s = true) : wp (call p c) (fun _ t => Sound t 0) Sane s := by
  cases c with
  | «open» path omode =>
    exact sound_withPath h fun path => sound_drop (sound_sysOpen h hlive path omode)
  | link old new =>
    refine sound_withPath h fun old => sound_withPath h fun new => sound_drop ?_
    exact (sound_withCwd h hlive fun cwd => held_link cwd s.fs old new).imp fun _ t ht => ht.1
  | unlink path =>
    refine sound_withPath h fun path => sound_drop ?_
    exact (sound_withCwd h hlive fun cwd => held_unlink cwd s.fs path).imp fun _ t ht => ht.1
  | mkdir path =>
    refine sound_withPath h fun path => sound_drop ?_
    exact (sound_withCwd h hlive fun cwd => held_make cwd s.fs path T_DIR 0 0).imp
      fun _ t ht => ht.1
  | mknod path major minor =>
    refine sound_withPath h fun path => sound_drop ?_
    exact (sound_withCwd h hlive fun cwd => held_make cwd s.fs path T_DEVICE major minor).imp
      fun _ t ht => ht.1
  | chdir path => exact sound_withPath h fun path => sound_drop (sound_sysChdir h hlive path)
  | exec path reads =>
    refine sound_withPath h fun path => ?_
    exact (sound_withCwd h hlive fun cwd => held_execFile cwd s.fs path reads).imp
      fun _ t ht => ht.1
  | dup fd => exact sound_drop (sound_sysDup h hlive fd)
  | close fd => exact sound_drop (sound_sysClose h hlive fd)
  | pipe page out0 out1 =>
    refine sound_drop (sound_sysPipe h hlive (fun pi hpi => ?_) out0 out1)
    rw [hpi] at hfresh
    exact Option.isNone_iff_eq_none.1 hfresh
  | fork mem => exact sound_drop (sound_fork h hlive mem)
  | exit => exact sound_exit h hlive
  | wait q => exact sound_reap h q

theorem Sound.boot (h : Booted s) : Sound s 0 := by
  have hend : ∀ pi w f, ¬IsEnd s pi w f := fun pi w f hf => by
    rw [IsEnd, (h.file f).1] at hf
    exact absurd hf.1 (by decide)
  constructor
  · constructor
    · intro f
      have hzero : tally (slots s) f = 0 := tally_eq_zero.2 fun x => by
        rw [slots, h.ofile]
        simp
      rw [(h.file f).1, hzero]
      rfl
    · intro f _
      exact (h.file f).2
    · intro q hq
      refine ⟨h.ofile q, ?_⟩
      by_contra hne
      exact hq ((h.cwd q).2 hne)
    · intro q hq
      exact (h.cwd q).1 hq
  · constructor
    · intro pi e w he
      rw [(h.pipe pi).1] at he
      cases he
    · intro pi w f _
      exact hend pi w f
    · intro pi w f g hf
      exact absurd hf (hend pi w f)
    · intro pi e he
      rw [(h.pipe pi).1] at he
      cases he
    · intro pi
      rw [(h.pipe pi).1, (h.pipe pi).2.1, (h.pipe pi).2.2]
      rfl

theorem Sound.run {s t : Kern} {es : List (Fin NPROC × Call)} (h : Run Step s es t)
    (hs : Sound s 0) : Sound t 0 := by
  refine h.invariant (I := fun s => Sound s 0) ?_ hs
  intro s e t hs hstep
  cases hstep with
  | call hlive hfresh hcall => exact (sound_call hs hlive hfresh).ok hcall

end

/-- After any calls of any processes: the reference count of a file is the number of
descriptors that point to it; a pipe is open at an end while some file is that end; it
exists while it is open at one of them, and its page has been given back once for each
time it was taken but the last; and no call stops for a count that is wrong or a pipe
that is gone. -/
theorem file_refs_exact {s t : Kern} {es : List (Fin NPROC × Call)} (hs : Booted s)
    (h : Run Step s es t) :
    (∀ f, (t.file f).ref = tally (slots t) f) ∧
    (∀ f, (t.file f).ref = 0 → ∀ p fd, (t.proc p).ofile fd ≠ some f) ∧
    (∀ pi e, t.pipe pi = some e → (e.readopen = true ↔ ∃ f, IsEnd t pi false f) ∧
      (e.writeopen = true ↔ ∃ f, IsEnd t pi true f)) ∧
    (∀ pi, t.pipe pi = none ↔ ∀ w f, ¬IsEnd t pi w f) ∧
    (∀ pi, t.taken pi = t.given pi + if (t.pipe pi).isSome then 1 else 0) ∧
    (∀ p c e, (t.proc p).state = .live → c.fresh t = true → call p c t = .error e → Sane e) := by
  have ht : Sound t 0 := .run h (.boot hs)
  have hcount : ∀ f, (t.file f).ref = tally (slots t) f := by
    intro f
    have := ht.count f
    simpa using this
  refine ⟨hcount, ?_, ?_, ?_, ht.freed, ?_⟩
  · intro f hf p fd
    rw [hcount f] at hf
    exact tally_eq_zero.1 hf (p, fd)
  · intro pi e he
    exact ⟨ht.toPiped.opened pi e false he, ht.toPiped.opened pi e true he⟩
  · intro pi
    constructor
    · intro hnone w f
      exact ht.gone pi w f hnone
    · intro hno
      cases he : t.pipe pi with
      | none => rfl
      | some e =>
        obtain ⟨w, hw⟩ := ht.used pi e he
        obtain ⟨f, hf⟩ := (ht.toPiped.opened pi e w he).1 hw
        exact absurd hf (hno w f)
  · intro p c e hlive hfresh hcall
    exact (sound_call ht hlive hfresh).stop hcall

/-- A pipe shared with a child: the child closes its reading end, the parent its writing
end and then the reading one. -/
theorem file_refs_exact_pipe :
    ∃ (es : List (Fin NPROC × Call)) (t : Kern), Booted boot ∧ Run Step boot es t ∧
      (t.file 0).ref = 0 ∧ (t.file 1).ref = 1 ∧ t.pipe 7 = some ⟨false, true⟩ ∧
      (t.file 1).ref = tally (slots t) 1 ∧ IsEnd t 7 true 1 ∧ ¬IsEnd t 7 false 0 := by
  have hcheck : (Lib.trace Kern.next boot
      [(0, .pipe (some 7) true true), (0, .fork true), (1, .close 0), (0, .close 1),
        (0, .close 0)]).any (fun x => decide ((x.1.file 0).ref = 0 ∧ (x.1.file 1).ref = 1 ∧
          x.1.pipe 7 = some ⟨false, true⟩ ∧ (x.1.file 1).type = .pipe ∧ (x.1.file 1).pipe = 7 ∧
          (x.1.file 1).writable = true)) = true := by
    decide +kernel
  obtain ⟨⟨t, es⟩, ht, hcheck⟩ := (Option.any_eq_true _ _).1 hcheck
  obtain ⟨hread, hwrite, hpipe, htype, hpi, hwritable⟩ := of_decide_eq_true hcheck
  have hrun := Lib.trace_run Kern.next_step ht
  obtain ⟨hcount, -, hopen, -⟩ := file_refs_exact booted_boot hrun
  refine ⟨es, t, booted_boot, hrun, hread, hwrite, hpipe, hcount 1, ?_, ?_⟩
  · exact ⟨by rw [hwrite]; decide, htype, hpi, hwritable⟩
  · intro hend
    have := (hopen 7 _ hpipe).1.2 ⟨0, hend⟩
    cases this

end Xv6.Files
