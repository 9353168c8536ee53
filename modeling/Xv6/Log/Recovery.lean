import Xv6.Lib.RedoLog
import Xv6.Log.Coherence

/-!
# Commit and recovery

The log area is a redo log.  `K` are the contents of the home blocks as of the last
commit that reached the disk, `V` the contents with the `log_write`s since then.
Every phase of a commit and of a recovery says how disk and `log.lh` stand for `K`
and `V`; each write moves from one phase to the next, and a crash in any of them
leaves a disk from which recovery brings `K` back.
-/

namespace Xv6.Log

open Instr Lib

variable {m : Nat} {sb : Superblock}

theorem decode_encode {l : List Nat} {c : Block} (h : l.length < WORDS) :
    decode (encode l c) = l := by
  apply List.ext_getElem
  · simp [decode, encode]
  · intro i hi hl
    have hword : i + 1 < WORDS := by omega
    simp [decode, encode, hword, hl]

section

variable (sb : Superblock)

theorem slot_injective : Function.Injective sb.slot := by
  intro i j h
  simp only [Superblock.slot] at h
  omega

theorem slot_ne_head (i : Nat) : sb.slot i ≠ sb.logstart := by
  simp only [Superblock.slot]
  omega

theorem home_ne_slot (a i : Nat) (ha : sb.home a) (hi : i < sb.nlog - 1) : a ≠ sb.slot i := by
  have hout := ha.2
  simp only [Superblock.slot]
  omega

end

def layout (sb : Superblock) : LogLayout Nat Block where
  head := sb.logstart
  slot := sb.slot
  capacity := sb.nlog - 1
  home := sb.home
  decode := decode
  slot_injective := slot_injective sb
  slot_ne_head := slot_ne_head sb
  home_ne_head _ ha := ha.1
  home_ne_slot := home_ne_slot sb

structure Pending (sb : Superblock) (K V : Disk) (lh : List Nat) : Prop where
  keep : ∀ b, b ∉ lh → V b = K b
  home : ∀ b ∈ lh, sb.home b
  fits : lh.length ≤ sb.nlog - 1
  words : lh.length < WORDS

variable {K V : Disk} {lh : List Nat} {f : Phase} {n b : Nat} {x : Held}

theorem Pending.nil (hlh : lh = []) (h : V = K) : Pending sb K V lh := by
  subst hlh h
  exact ⟨fun _ _ => rfl, by simp, by simp, by decide⟩

theorem Pending.eq_of_nil (h : Pending sb K V lh) (hlh : lh = []) : V = K := by
  funext b
  exact h.keep b (by simp [hlh])

def Phase.Sound (sb : Superblock) (K V D : Disk) (lh : List Nat) (up : Bool) : Phase → Prop
  | idle => Redo (layout sb) D K [] 0 ∧ Pending sb K V lh
  | starting => Redo (layout sb) D K [] 0 ∧ Pending sb K V lh ∧ up = true
  | writing t _ =>
    Redo (layout sb) D K [] 0 ∧ Pending sb K V lh ∧ up = true ∧ lh ≠ [] ∧
      ∀ i b, i < t → lh[i]? = some b → D (sb.slot i) = V b
  | heading =>
    Redo (layout sb) D K [] 0 ∧ Pending sb K V lh ∧ up = true ∧ lh ≠ [] ∧
      ∀ i b, lh[i]? = some b → D (sb.slot i) = V b
  | reading => (∃ l, Redo (layout sb) D K l 0) ∧ V = K
  | installing t _ => Redo (layout sb) D K lh t ∧ V = K
  | installed => Redo (layout sb) D K lh lh.length ∧ V = K
  | clearing => (∃ l, Redo (layout sb) D K l l.length) ∧ V = K
  | closing => Redo (layout sb) D K [] 0 ∧ V = K

theorem Phase.Sound.restart {D : Disk} {up : Bool}
    (h : f.Sound sb K V D lh up) : ∃ l, Redo (layout sb) D K l 0 := by
  cases f with
  | idle | starting | writing | heading | closing => exact ⟨[], h.1⟩
  | reading => exact h.1
  | installing t b => exact ⟨lh, h.1.restart⟩
  | installed => exact ⟨lh, h.1.restart⟩
  | clearing =>
    obtain ⟨l, hl⟩ := h.1
    exact ⟨l, hl.restart⟩

def HeadOk (sb : Superblock) (K V L : Disk) (lh : List Nat) : Code → Prop
  | [] => True
  | i :: _ =>
    match i with
    | bwrite (.slot t b) => L (sb.slot t) = V b
    | bwrite .header => decode (L sb.logstart) = lh
    | bwrite (.home _ b) => L b = K b
    | _ => True

theorem headOk_of_due {L : Disk} {c : Code}
    (h : due c = none ∨ ∃ k, due c = some (bwrite k)) : HeadOk sb K V L lh c := by
  cases c with
  | nil => trivial
  | cons i c =>
    cases i with
    | bwrite k => cases k <;> simp [cause] at h
    | _ => trivial

def Sys.Staged (s : Sys m) (sb : Superblock) (K V L : Disk) : Option (Fin (m + 1)) → Prop
  | none => Phase.idle.Sound sb K V s.disk s.lh s.up
  | some q => ∃ f, phase (s.procs q).code = some f ∧ f.Sound sb K V s.disk s.lh s.up ∧
      HeadOk sb K V L s.lh (s.procs q).code

structure Recoverable (sb : Superblock) (K V L : Disk) (w : Option (Fin (m + 1))) (s : Sys m) :
    Prop where
  staged : s.Staged sb K V L w
  latest : s.up = true → ∀ b, sb.home b →
    (∀ q, ∀ x ∈ (s.procs q).held, x.dirty = true → x.block ≠ b) → L b = V b

def Event.pending (K V : Disk) : Event → Disk
  | wrote _ b c => Function.update V b c
  | crashed => K
  | _ => V

/-- The committed contents after an event. -/
def Event.settled (K V : Disk) : Event → Disk
  | committed => V
  | _ => K

namespace Recoverable

variable {K V L : Disk} {w w' : Option (Fin (m + 1))} {s t : Sys m} {p : Fin (m + 1)}
  {i : Instr} {c : Code} {e : Event}

theorem restart (h : Recoverable sb K V L w s) : ∃ l, Redo (layout sb) s.disk K l 0 := by
  cases w with
  | none =>
    have hidle : Phase.idle.Sound sb K V s.disk s.lh s.up := h.staged
    exact hidle.restart
  | some q =>
    obtain ⟨f, -, hf, -⟩ := h.staged
    exact hf.restart

theorem boot {D : Disk} {l : List Nat} (h : Redo (layout sb) D K l 0) :
    Recoverable sb K K D (some 0) (boot sb D n : Sys m) where
  staged := ⟨.reading, rfl, ⟨⟨l, h⟩, rfl⟩, trivial⟩
  latest hu := by cases hu

/-- The blocks that no file system call has changed without logging them. -/
theorem latest_of (h : Recoverable sb K V L w s) (hother : s.Only t p)
    (hdirty : ∀ x ∈ (s.procs p).held, x.dirty = true →
      ∃ y ∈ (t.procs p).held, y.dirty = true ∧ y.block = x.block) (hup : t.up = s.up)
    (hu : t.up = true) (b : Nat) (hb : sb.home b)
    (hno : ∀ q, ∀ x ∈ (t.procs q).held, x.dirty = true → x.block ≠ b) : L b = V b := by
  rw [hup] at hu
  refine h.latest hu b hb fun q x hx hd => ?_
  by_cases hq : q = p
  · subst hq
    obtain ⟨y, hy, hyd, hyb⟩ := hdirty x hx hd
    rw [← hyb]
    exact hno q y hy hyd
  · exact hno q x (by rw [hother q hq]; exact hx) hd

/-- A step that leaves the processes, the disk and the log as they are. -/
theorem same {cl : Clients} (h : Recoverable sb K V L w s) (hctl : Control cl sb w s)
    (hprocs : t.procs = s.procs) (hdisk : t.disk = s.disk) (hlh : t.lh = s.lh) (hup : t.up = s.up) :
    Recoverable sb K V L (after w p (t.procs p).code) t := by
  rw [hctl.after_eq (by rw [hprocs])]
  refine ⟨?_, by rw [hup, hprocs]; exact h.latest⟩
  have hstaged := h.staged
  cases w with
  | none =>
    simp only [Sys.Staged, hdisk, hlh, hup]
    exact hstaged
  | some q =>
    simp only [Sys.Staged, hdisk, hlh, hup, hprocs]
    exact hstaged

theorem other (h : Recoverable sb K V L w s) (hw : w ≠ some p)
    (hphase : phase (t.procs p).code = none) (hother : s.Only t p)
    (hdirty : ∀ x ∈ (s.procs p).held, x.dirty = true →
      ∃ y ∈ (t.procs p).held, y.dirty = true ∧ y.block = x.block) (hdisk : t.disk = s.disk)
    (hlh : t.lh = s.lh) (hup : t.up = s.up) :
    Recoverable sb K V L (after w p (t.procs p).code) t := by
  have hafter : after w p (t.procs p).code = w := by
    simp [after, hphase, hw]
  rw [hafter]
  refine ⟨?_, h.latest_of hother hdirty hup⟩
  have hstaged := h.staged
  cases w with
  | none =>
    simp only [Sys.Staged, hdisk, hlh, hup]
    exact hstaged
  | some q =>
    have hq : q ≠ p := fun heq => hw (by rw [heq])
    simp only [Sys.Staged, hdisk, hlh, hup, hother q hq]
    exact hstaged

theorem work {K' V' L' : Disk} (hphase : phase (t.procs p).code = some f)
    (hsound : f.Sound sb K' V' t.disk t.lh t.up) (hhead : HeadOk sb K' V' L' t.lh (t.procs p).code)
    (hlatest : t.up = true → ∀ b, sb.home b →
      (∀ q, ∀ x ∈ (t.procs q).held, x.dirty = true → x.block ≠ b) → L' b = V' b) :
    Recoverable sb K' V' L' (after w p (t.procs p).code) t := by
  have hafter : after w p (t.procs p).code = some p := by
    simp [after, hphase]
  rw [hafter]
  exact ⟨⟨f, hphase, hsound, hhead⟩, hlatest⟩

theorem sound (h : Recoverable sb K V L w s) (hctl : Control .logged sb w s)
    (hcode : (s.procs p).code = i :: c) (hphase : phase (i :: c) = some f) :
    w = some p ∧ f.Sound sb K V s.disk s.lh s.up ∧ HeadOk sb K V L s.lh (i :: c) := by
  obtain rfl : w = some p := (hctl.worker p).1 (by rw [hcode, hphase]; rfl)
  obtain ⟨g, hg, hsound, hhead⟩ := h.staged
  rw [hcode] at hg hhead
  rw [hphase] at hg
  cases hg
  exact ⟨rfl, hsound, hhead⟩

/-- An instruction that changes neither the phase nor the contents. -/
theorem pop (h : Recoverable sb K V L w s) (hctl : Control .logged sb w s)
    (hcode : (s.procs p).code = i :: c) (hphase : phase (i :: c) = phase c) (hdue : due c = none)
    (hc : (t.procs p).code = c) (hother : s.Only t p) (hheld : (t.procs p).held = (s.procs p).held)
    (hdisk : t.disk = s.disk) (hlh : t.lh = s.lh)
    (hup : t.up = s.up) : Recoverable sb K V L (after w p (t.procs p).code) t := by
  have hdirty : ∀ x ∈ (s.procs p).held, x.dirty = true →
      ∃ y ∈ (t.procs p).held, y.dirty = true ∧ y.block = x.block := fun x hx hd =>
    ⟨x, by rw [hheld]; exact hx, hd, rfl⟩
  cases hk : phase (i :: c) with
  | none =>
    refine h.other ?_ (by rw [hc, ← hphase, hk]) hother hdirty hdisk hlh hup
    intro hw
    have hsome := (hctl.worker p).2 hw
    rw [hcode, hk] at hsome
    cases hsome
  | some f =>
    obtain ⟨-, hsound, -⟩ := h.sound hctl hcode hk
    refine work (f := f) (by rw [hc, ← hphase, hk]) ?_ ?_ (h.latest_of hother hdirty hup)
    · rw [hdisk, hlh, hup]
      exact hsound
    · rw [hc]
      exact headOk_of_due (.inl hdue)

section Work

/-- While a process works on the log no block is changed but by it. -/
theorem no_dirty (hctl : Control .logged sb (some p) s) {q : Fin (m + 1)}
    (hx : x ∈ (s.procs q).held) : x.dirty = false := by
  cases hd : x.dirty with
  | false => rfl
  | true =>
    have hop := (hctl.locals q).dirty rfl x hx hd
    rw [hctl.quiet rfl q] at hop
    cases hop

theorem latest_eq (h : Recoverable sb K V L (some p) s) (hctl : Control .logged sb (some p) s)
    (hup : s.up = true) (hb : sb.home b) : L b = V b :=
  h.latest hup b hb fun q x hx hd => by
    rw [no_dirty hctl hx] at hd
    cases hd

theorem no_draft (hctl : Control .logged sb (some p) s) (hcode : (s.procs p).code = i :: c)
    (hi : ∀ k, i ≠ bwrite k) (q : Fin (m + 1)) (j : BufId) : ¬(s.procs q).Draft j := by
  rintro (⟨x, hx, hd, -⟩ | ⟨k, c', hc, -⟩)
  · rw [no_dirty hctl hx] at hd
    cases hd
  · have hphase : (phase (s.procs q).code).isSome := by
      rw [hc]
      cases k with
      | slot | home => rfl
      | header =>
        simp only [phase]
        split <;> rfl
    have hq := (hctl.worker q).1 hphase
    cases hq
    rw [hcode] at hc
    exact hi k (List.cons.inj hc).1

theorem data_eq {r : Reg} (hcoh : Coherent L w s) (hcache : CacheInv w s)
    (hpoints : Points r b true (s.procs p).code) :
    s.blockOf p r = b ∧ (s.ptr p r).data = L b := by
  have hmem := Proc.mem_refs_of_points hpoints
  refine ⟨Coherent.blockOf_eq hcache hmem, ?_⟩
  exact hcoh.cached _ b (hcache.sound.key p _ hmem) (hcache.sound.valid p _ hmem rfl)

/-- `write_log` copies a block into the buffer of its log block. -/
theorem toLog (h : Recoverable sb K V L w s) (hcoh : Coherent L w s) (hcache : CacheInv w s)
    (hctl : Control .logged sb w s) (hcode : (s.procs p).code = toLog n b :: c)
    (hproc : t.procs p = { s.procs p with code := c }) (hdisk : t.disk = s.disk) (hlh : t.lh = s.lh)
    (hup : t.up = s.up) (hop : Operations s) :
    Recoverable sb K V (Function.update L (s.blockOf p .lbuf) (s.ptr p .dbuf).data)
      (after w p (t.procs p).code) t := by
  have hwf := hctl.local_code hcode
  obtain ⟨hdbuf, c', rfl⟩ := hwf.ok
  obtain ⟨rfl, hsound, -⟩ := h.sound hctl hcode rfl
  obtain ⟨hlbuf, -⟩ := hwf.tail.ok
  have hslot := data_eq hcoh hcache (p := p) (r := .lbuf) (by rw [hcode]; exact hlbuf)
  have hdata := data_eq hcoh hcache (p := p) (r := .dbuf) (by rw [hcode]; exact hdbuf)
  obtain ⟨hredo, hpend, hu, hne, hslots⟩ := hsound
  have hb : s.lh[n]? = some b := hop.fits p (.writing n (some b)) (by rw [hcode]; rfl)
  have hhome : sb.home b := hpend.home b (List.mem_of_getElem? hb)
  have hn : n < (layout sb).capacity := by
    have hlt := (List.getElem?_eq_some_iff.1 hb).1
    have hfits := hpend.fits
    show n < sb.nlog - 1
    omega
  rw [hslot.1, hdata.2, h.latest_eq hctl hu hhome]
  refine work (f := .writing n (some b)) (by rw [hproc]; rfl) ?_ ?_ ?_
  · rw [hdisk, hlh, hup]
    exact ⟨hredo, hpend, hu, hne, hslots⟩
  · rw [hproc]
    exact Function.update_self _ _ _
  · intro _ b' hb' _
    have hne : b' ≠ sb.slot n := (layout sb).home_ne_slot b' n hb' hn
    rw [Function.update_of_ne hne]
    exact h.latest_eq hctl hu hb'

/-- `install_trans` copies a log block into the buffer of its home block. -/
theorem toHome (h : Recoverable sb K V L w s) (hcoh : Coherent L w s) (hcache : CacheInv w s)
    (hctl : Control .logged sb w s) (hcode : (s.procs p).code = toHome n b :: c)
    (hproc : t.procs p = { s.procs p with code := c }) (hdisk : t.disk = s.disk) (hlh : t.lh = s.lh)
    (hup : t.up = s.up) (hop : Operations s) :
    Recoverable sb K V (Function.update L (s.blockOf p .dbuf) (s.ptr p .lbuf).data)
      (after w p (t.procs p).code) t := by
  have hwf := hctl.local_code hcode
  obtain ⟨hlbuf, c', rfl⟩ := hwf.ok
  obtain ⟨rfl, ⟨hredo, hVK⟩, -⟩ := h.sound hctl hcode rfl
  obtain ⟨hdbuf, -, -, hpins⟩ := hwf.tail.ok
  have hslot := data_eq hcoh hcache (p := p) (r := .lbuf) (by rw [hcode]; exact hlbuf)
  have hhome := data_eq hcoh hcache (p := p) (r := .dbuf) (by rw [hcode]; exact hdbuf)
  have hb : s.lh[n]? = some b := hop.fits p (.installing n (some b)) (by rw [hcode]; rfl)
  -- the log block is on the disk as it is in the cache
  have hcopy : L (sb.slot n) = K b := by
    rw [← hcoh.stored (sb.slot n) ?_ fun q j hq => absurd hq (no_draft hctl hcode (by simp) q j)]
    · exact hredo.slots n b hb
    · intro hpin
      simp only [Sys.pins, hcode, pins] at hpin
      have hmem : sb.slot n ∈ s.lh := by
        rcases hpins s.lh _ hpin with heq | hmem
        · rw [heq]
          exact List.mem_of_getElem? hb
        · exact hmem
      exact (layout sb).home_ne_slot _ n (hredo.home _ hmem) (hredo.index_lt hb) rfl
  rw [hhome.1, hslot.2, hcopy]
  refine work (f := .installing n (some b)) (by rw [hproc]; rfl) ?_ ?_ ?_
  · rw [hdisk, hlh]
    exact ⟨hredo, hVK⟩
  · rw [hproc]
    exact Function.update_self _ _ _
  · intro hu b' hb' _
    by_cases heq : b' = b
    · rw [heq, Function.update_self, hVK]
    · rw [Function.update_of_ne heq]
      exact h.latest_eq hctl (by rw [← hup]; exact hu) hb'

theorem setHead (h : Recoverable sb K V L w s) (hcoh : Coherent L w s) (hcache : CacheInv w s)
    (hctl : Control .logged sb w s) (hcode : (s.procs p).code = setHead :: c)
    (hproc : t.procs p = { s.procs p with code := c }) (hdisk : t.disk = s.disk) (hlh : t.lh = s.lh)
    (hup : t.up = s.up) (hop : Operations s) :
    Recoverable sb K V (Function.update L (s.blockOf p .lbuf) (encode s.lh (s.ptr p .lbuf).data))
      (after w p (t.procs p).code) t := by
  have hwf := hctl.local_code hcode
  obtain ⟨c', rfl⟩ := hwf.ok
  obtain ⟨hlbuf, -⟩ := hwf.tail.ok
  have hhead := data_eq hcoh hcache (p := p) (r := .lbuf) (by rw [hcode]; exact hlbuf)
  obtain ⟨f, hf⟩ : ∃ f, phase (bwrite .header :: c') = some f := by
    simp only [phase]
    split <;> exact ⟨_, rfl⟩
  obtain ⟨rfl, hsound, -⟩ := h.sound hctl hcode (f := f) hf
  have hwords : s.lh.length < WORDS := by
    simp only [phase] at hf
    split at hf <;> cases hf
    · rw [hop.fits p .clearing (by rw [hcode]; simpa [phase] using ‹_›)]
      decide
    · exact hsound.2.1.words
  rw [hhead.1]
  refine work (f := f) (by rw [hproc]; exact hf) ?_ ?_ ?_
  · rw [hdisk, hlh, hup]
    exact hsound
  · rw [hproc, hlh]
    show decode (Function.update L sb.logstart _ sb.logstart) = s.lh
    rw [Function.update_self, decode_encode hwords]
  · intro hu b' hb' _
    have hne : b' ≠ sb.logstart := hb'.1
    rw [Function.update_of_ne hne]
    exact h.latest_eq hctl (by rw [← hup]; exact hu) hb'

theorem bwrite {k : Target} (h : Recoverable sb K V L w s) (hcoh : Coherent L w s)
    (hcache : CacheInv w s) (hctl : Control .logged sb w s) (hop : Operations s)
    (hcode : (s.procs p).code = bwrite k :: c) (hproc : t.procs p = { s.procs p with code := c })
    (hdisk : t.disk = Function.update s.disk (s.blockOf p k.reg) (s.ptr p k.reg).data)
    (hlh : t.lh = s.lh) (hup : t.up = s.up)
    (he : e = if k = .header ∧ s.lh ≠ [] then .committed else .tau) :
    Recoverable sb (e.settled K V) (e.pending K V) (e.latest L) (after w p (t.procs p).code) t := by
  have hwf := hctl.local_code hcode
  have hok := hwf.ok
  cases k with
  | slot n b =>
    obtain rfl : e = .tau := he
    obtain ⟨rfl, ⟨hredo, hpend, hu, hne, hslots⟩, hhead⟩ := h.sound hctl hcode rfl
    have hslot := data_eq hcoh hcache (p := p) (r := .lbuf) (by rw [hcode]; exact hok.1)
    have hb : s.lh[n]? = some b := hop.fits p (.writing n (some b)) (by rw [hcode]; rfl)
    rw [show Target.reg (.slot n b) = .lbuf from rfl, hslot.1, hslot.2,
      show L (sb.slot n) = V b from hhead] at hdisk
    refine work (f := .writing (n + 1) none) (by rw [hproc]; exact hok.2.1) ?_ ?_ ?_
    · rw [hdisk, hlh, hup]
      refine ⟨hredo.write_slot ?_, hpend, hu, hne, fun j b' hj hb' => ?_⟩
      · have hlt := (List.getElem?_eq_some_iff.1 hb).1
        have hfits := hpend.fits
        show n < sb.nlog - 1
        omega
      · by_cases hjn : j = n
        · subst hjn
          rw [hb] at hb'
          cases hb'
          exact Function.update_self _ _ _
        · have hslot : sb.slot j ≠ sb.slot n := fun heq => hjn ((layout sb).slot_injective heq)
          rw [Function.update_of_ne hslot]
          exact hslots j b' (by omega) hb'
    · rw [hproc]
      exact headOk_of_due (hwf.due_tail.imp_right fun hd => ⟨_, hd⟩)
    · exact fun _ b' hb' _ => h.latest_eq hctl hu hb'
  | header =>
    have hhead := data_eq hcoh hcache (p := p) (r := .lbuf) (by rw [hcode]; exact hok.1)
    rw [show Target.reg .header = .lbuf from rfl, hhead.1, hhead.2] at hdisk
    have hnext : ∀ {K V L : Disk}, HeadOk sb K V L t.lh (t.procs p).code := by
      rw [hproc]
      exact headOk_of_due (hwf.due_tail.imp_right fun hd => ⟨_, hd⟩)
    rcases hok.2.1 with hc | hc
    · obtain ⟨rfl, ⟨⟨l, hredo⟩, hVK⟩, hdec⟩ := h.sound hctl hcode (f := .clearing)
        (by simp [phase, hc])
      have hnil : s.lh = [] := hop.fits p .clearing (by rw [hcode]; simp [phase, hc])
      obtain rfl : e = .tau := by simpa [hnil] using he
      refine work (f := .closing) (by rw [hproc]; exact hc) ?_ hnext ?_
      · rw [hdisk]
        refine ⟨hredo.clear (Nat.le_refl _) ?_, hVK⟩
        rw [← hnil]
        exact hdec
      · intro hu b' hb' _
        exact h.latest_eq hctl (by rw [← hup]; exact hu) hb'
    · obtain ⟨rfl, ⟨hredo, hpend, hu, hne, hslots⟩, hdec⟩ := h.sound hctl hcode (f := .heading)
        (by simp [phase, hc])
      obtain rfl : e = .committed := by simpa [hne] using he
      refine work (f := .installing 0 none) (by rw [hproc]; exact hc) ?_ hnext ?_
      · rw [hdisk, hlh]
        exact ⟨hredo.commit hdec hslots (fun b _ hb => hpend.keep b hb) hpend.home hpend.fits, rfl⟩
      · exact fun _ b' hb' _ => h.latest_eq hctl hu hb'
  | home n b =>
    obtain rfl : e = .tau := he
    obtain ⟨rfl, ⟨hredo, hVK⟩, hhead⟩ := h.sound hctl hcode rfl
    have hhome := data_eq hcoh hcache (p := p) (r := .dbuf) (by rw [hcode]; exact hok.1)
    have hb : s.lh[n]? = some b := hop.fits p (.installing n (some b)) (by rw [hcode]; rfl)
    rw [show Target.reg (.home n b) = .dbuf from rfl, hhome.1, hhome.2,
      show L b = K b from hhead] at hdisk
    refine work (f := .installing (n + 1) none) (by rw [hproc]; exact hok.2.1) ?_ ?_ ?_
    · rw [hdisk, hlh]
      exact ⟨hredo.install hb, hVK⟩
    · rw [hproc]
      exact headOk_of_due (hwf.due_tail.imp_right fun hd => ⟨_, hd⟩)
    · intro hu b' hb' _
      exact h.latest_eq hctl (by rw [← hup]; exact hu) hb'

end Work

section Idle

/-- A step of a process while nobody works on the log, before and after. -/
theorem rest {K' V' L' : Disk} (hafter : after w p (t.procs p).code = none)
    (hredo : Redo (layout sb) t.disk K' [] 0) (hpend : Pending sb K' V' t.lh)
    (hlatest : t.up = true → ∀ b, sb.home b →
      (∀ q, ∀ x ∈ (t.procs q).held, x.dirty = true → x.block ≠ b) → L' b = V' b) :
    Recoverable sb K' V' L' (after w p (t.procs p).code) t := by
  rw [hafter]
  exact ⟨⟨hredo, hpend⟩, hlatest⟩

theorem modify {k : Nat} {d : Block} (h : Recoverable sb K V L none s) (hcache : CacheInv none s)
    (hcode : (s.procs p).code = client :: c) (hx : (s.procs p).held[k]? = some x)
    (hother : s.Only t p) (hproc : t.procs p =
      { s.procs p with held := (s.procs p).held.set k { x with dirty := true } })
    (hdisk : t.disk = s.disk) (hlh : t.lh = s.lh) (hup : t.up = s.up) :
    Recoverable sb K V (Function.update L (s.blockAt x) d) (after none p (t.procs p).code) t := by
  obtain ⟨hredo, hpend⟩ := h.staged
  refine rest (by rw [hproc]; simp [after, hcode, phase]) (by rw [hdisk]; exact hredo)
    (by rw [hlh]; exact hpend) ?_
  intro hu b hb hno
  have hlt := (List.getElem?_eq_some_iff.1 hx).1
  have hne : b ≠ s.blockAt x := by
    rw [(hcache.blockAt_eq (List.mem_of_getElem? hx)).2]
    refine (hno p { x with dirty := true } ?_ rfl).symm
    rw [hproc]
    exact List.mem_set hlt _
  rw [Function.update_of_ne hne]
  rw [hup] at hu
  refine h.latest hu b hb fun q y hy hd => ?_
  by_cases hq : q = p
  · subst hq
    rcases Coherent.mem_set_or (f := true) hx hy with rfl | hy
    · rwa [(hcache.blockAt_eq (List.mem_of_getElem? hx)).2, ne_comm] at hne
    · exact hno q y (by rw [hproc]; exact hy) hd
  · exact hno q y (by rw [hother q hq]; exact hy) hd

theorem log {k : Nat} (h : Recoverable sb K V L none s) (hcoh : Coherent L none s)
    (hcache : CacheInv none s) (hctl : Control .logged sb none s)
    (hcode : (s.procs p).code = client :: c) (hx : (s.procs p).held[k]? = some x)
    (hother : s.Only t p) (hc : (t.procs p).code = (s.procs p).code)
    (hheld : (t.procs p).held = (s.procs p).held.set k { x with dirty := false })
    (hroom : s.lh.length < LOGSIZE ∧ s.lh.length < sb.nlog - 1)
    (hlh : (s.blockAt x ∈ s.lh ∧ t.lh = s.lh) ∨ t.lh = s.lh ++ [s.blockAt x])
    (hdisk : t.disk = s.disk) (hup : t.up = s.up) :
    Recoverable sb K (Function.update V (s.blockAt x) (s.bufs x.buf).data) L
      (after none p (t.procs p).code) t := by
  obtain ⟨hredo, hpend⟩ := h.staged
  have hmem := List.mem_of_getElem? hx
  have hhome : sb.home (s.blockAt x) := by
    rw [(hcache.blockAt_eq hmem).2]
    exact (hctl.locals p).home rfl x hmem
  have hsub : ∀ b, b ∈ t.lh ↔ b ∈ s.lh ∨ b = s.blockAt x := by
    intro b
    rcases hlh with ⟨hin, heq⟩ | heq
    · rw [heq]
      exact ⟨.inl, fun hb => hb.elim id fun heq => heq ▸ hin⟩
    · simp [heq]
  have hwords : LOGSIZE < WORDS := by decide
  have hlen : t.lh.length ≤ s.lh.length + 1 := by
    rcases hlh with ⟨-, heq⟩ | heq <;> simp [heq]
  refine rest (by rw [hc, hcode]; rfl) (by rw [hdisk]; exact hredo) ?_ ?_
  · constructor
    · intro b hb
      rw [hsub, not_or] at hb
      rw [Function.update_of_ne hb.2]
      exact hpend.keep b hb.1
    · intro b hb
      rcases (hsub b).1 hb with hb | rfl
      · exact hpend.home b hb
      · exact hhome
    · omega
    · omega
  · intro hu b hb hno
    by_cases hbx : b = s.blockAt x
    · rw [hbx, Function.update_self]
      have hkey := hcache.blockAt_eq hmem
      have hvalid := hcache.sound.valid p x.ref (Proc.mem_refs_of_held hmem) rfl
      rw [hcoh.cached x.buf x.block hkey.1 hvalid, hkey.2]
    · rw [Function.update_of_ne hbx]
      rw [hup] at hu
      refine h.latest hu b hb fun q y hy hd => ?_
      by_cases hq : q = p
      · subst hq
        rcases Coherent.mem_set_or (f := false) hx hy with rfl | hy
        · rw [(hcache.blockAt_eq hmem).2] at hbx
          exact Ne.symm hbx
        · exact hno q y (by rw [hheld]; exact hy) hd
      · exact hno q y (by rw [hother q hq]; exact hy) hd

end Idle

theorem step (h : Recoverable sb K V L w s) (hcoh : Coherent L w s) (hcache : CacheInv w s)
    (hop : Operations s) (hctl : Control .logged sb w s) (hcode : (s.procs p).code = i :: c)
    (hup : s.up = true ∨ p = 0) (hm : Move .logged sb s p c i t e) :
    Recoverable sb (e.settled K V) (e.pending K V) (e.latest L) (after w p (t.procs p).code) t := by
  have hwf := hctl.local_code hcode
  have hidle : phase (i :: c) = none → w ≠ some p := by
    rintro hnone rfl
    have hsome := (hctl.worker p).2 rfl
    rw [hcode, hnone] at hsome
    cases hsome
  cases hm with
  | hit | recycle | bread | releasesleep | brelse | bunpin =>
    exact h.pop hctl hcode rfl (hwf.due_none (by simp) (by simp) (by simp) (by simp)) (by simp)
      (.proc rfl) (by simp) rfl rfl rfl
  | toLog => exact h.toLog hcoh hcache hctl hcode (by simp) rfl rfl rfl hop
  | toHome => exact h.toHome hcoh hcache hctl hcode (by simp) rfl rfl rfl hop
  | setHead => exact h.setHead hcoh hcache hctl hcode (by simp) rfl rfl rfl hop
  | bwrite => exact h.bwrite hcoh hcache hctl hop hcode (by simp) rfl rfl rfl rfl
  | getHead =>
    obtain ⟨hlbuf, hphase, -⟩ := hwf.ok
    obtain ⟨rfl, ⟨⟨l, hredo⟩, hVK⟩, -⟩ := h.sound hctl hcode rfl
    have hhead := data_eq hcoh hcache (p := p) (r := .lbuf) (by rw [hcode]; exact hlbuf)
    have hstored : s.disk sb.logstart = L sb.logstart := by
      refine hcoh.stored _ (by simp [Sys.pins, hcode, pins]) fun q j hq => ?_
      exact absurd hq (no_draft hctl hcode (by simp) q j)
    have hl : decode (s.ptr p .lbuf).data = l := by
      rw [hhead.2, ← hstored]
      exact hredo.header
    refine work (f := .installing 0 none) (by simpa using hphase) ?_ ?_ ?_
    · simp only [Sys.goto_eq, Sys.setProc_lh, Sys.setLh_lh, hl]
      exact ⟨hredo, hVK⟩
    · simp only [Sys.goto_eq, Sys.setProc_procs_self]
      exact headOk_of_due (.inl (hwf.due_none (by simp) (by simp) (by simp) (by simp)))
    · exact fun hu b hb _ => h.latest_eq hctl hu hb
  | clearHead =>
    obtain ⟨-, hphase, -⟩ := hwf.ok
    obtain ⟨rfl, ⟨hredo, hVK⟩, -⟩ := h.sound hctl hcode rfl
    refine work (f := .clearing) (by simpa using hphase) ⟨⟨s.lh, hredo⟩, hVK⟩ ?_
      (fun hu b hb _ => h.latest_eq hctl hu hb)
    simp only [Sys.goto_eq, Sys.setProc_procs_self]
    exact headOk_of_due (.inl (hwf.due_none (by simp) (by simp) (by simp) (by simp)))
  | @writeLog k b hb =>
    obtain ⟨rfl, hsound, -⟩ := h.sound hctl hcode rfl
    exact work (f := .writing k (some b)) (by simp [phase_writeLogCode]) hsound
      (by simp [writeLogCode, breadCode, HeadOk]) (fun hu b hb _ => h.latest_eq hctl hu hb)
  | writeLogDone hn =>
    obtain ⟨-, hphase, -⟩ := hwf.ok
    obtain ⟨rfl, ⟨hredo, hpend, hu, hne, hslots⟩, -⟩ := h.sound hctl hcode rfl
    refine work (f := .heading) (by simpa using hphase) ⟨hredo, hpend, hu, hne, ?_⟩ ?_
      (fun hu b hb _ => h.latest_eq hctl hu hb)
    · intro j b hj
      have hlt : j < s.lh.length := (List.getElem?_eq_some_iff.1 hj).1
      have hle := List.getElem?_eq_none_iff.1 hn
      exact hslots j b (by omega) hj
    · simp only [Sys.goto_eq, Sys.setProc_procs_self]
      exact headOk_of_due (.inl (hwf.due_none (by simp) (by simp) (by simp) (by simp)))
  | @install _ k b hb =>
    obtain ⟨rfl, hsound, -⟩ := h.sound hctl hcode rfl
    exact work (f := .installing k (some b)) (by simp [phase_installCode]) hsound
      (by simp [installCode, breadCode, HeadOk]) (fun hu b hb _ => h.latest_eq hctl hu hb)
  | installDone hn =>
    obtain ⟨-, hphase, -⟩ := hwf.ok
    obtain ⟨rfl, ⟨hredo, hVK⟩, -⟩ := h.sound hctl hcode rfl
    refine work (f := .installed) (by simpa using hphase)
      ⟨hredo.finish (List.getElem?_eq_none_iff.1 hn), hVK⟩ ?_
      (fun hu b hb _ => h.latest_eq hctl hu hb)
    simp only [Sys.goto_eq, Sys.setProc_procs_self]
    exact headOk_of_due (.inl (hwf.due_none (by simp) (by simp) (by simp) (by simp)))
  | commit hne =>
    obtain ⟨rfl, ⟨hredo, hpend, hu⟩, -⟩ := h.sound hctl hcode rfl
    exact work (f := .writing 0 none) (by simp [phase_commitCode])
      ⟨hredo, hpend, hu, hne, fun j b hj => absurd hj (Nat.not_lt_zero j)⟩
      (by simp [commitCode, HeadOk]) (fun hu b hb _ => h.latest_eq hctl hu hb)
  | commitEmpty hlh =>
    obtain ⟨-, hphase, -⟩ := hwf.ok
    obtain ⟨rfl, ⟨hredo, hpend, hu⟩, -⟩ := h.sound hctl hcode rfl
    refine work (f := .closing) (by simpa using hphase) ⟨hredo, hpend.eq_of_nil hlh⟩ ?_
      (fun hu b hb _ => h.latest_eq hctl hu hb)
    simp only [Sys.goto_eq, Sys.setProc_procs_self]
    exact headOk_of_due (.inl (hwf.due_none (by simp) (by simp) (by simp) (by simp)))
  | endCommit =>
    have hlh : s.lh = [] := hop.fits p .closing (by rw [hcode]; rfl)
    obtain rfl : c = [client] := hwf.ok
    obtain ⟨rfl, ⟨hredo, hVK⟩, -⟩ := h.sound hctl hcode rfl
    exact rest (by simp [after, phase]) hredo (.nil hlh hVK)
      (fun hu b hb _ => h.latest_eq hctl hu hb)
  | initDone =>
    have hlh : s.lh = [] := hop.fits p .closing (by rw [hcode]; rfl)
    obtain rfl : c = [client] := hwf.ok
    obtain ⟨rfl, ⟨hredo, hVK⟩, -⟩ := h.sound hctl hcode rfl
    refine rest (by simp [after, phase]) hredo (.nil hlh hVK) fun _ b hb _ => ?_
    -- nothing is pinned or changed, so the cache holds what recovery left on the disk
    show L b = V b
    rw [hVK, ← hredo.settled hb]
    refine (hcoh.stored b (by simp [Sys.pins, hcode, pins, hlh]) fun q j hq => ?_).symm
    exact absurd hq (no_draft hctl hcode (by simp) q j)
  | sleep | panic => exact h.same hctl rfl rfl rfl rfl
  | enter hc hroom =>
    obtain rfl := hctl.idle hc (hctl.booted hup (by rw [hcode]; rfl))
    obtain rfl : c = [client] := hwf.ok
    exact rest (by simp [after, phase]) h.staged.1 h.staged.2
      (h.latest_of (.proc rfl) (fun x hx hd => ⟨x, by simpa using hx, hd, rfl⟩) rfl)
  | endLast hc hout he =>
    obtain rfl := hctl.idle_of_op ((hctl.locals p).ends (by simp [hcode])).1
    have hu := hctl.booted hup (by rw [hcode]; rfl)
    have hlatest := h.latest_of (t := (s.retire.setCommitting true).setProc p fun q =>
      { q with op := none, logged := [], code := [.commit, .endCommit] ++ c })
      (.proc rfl) (fun x hx hd => ⟨x, by simpa using hx, hd, rfl⟩) rfl
    rcases he with rfl | ⟨o, rfl⟩ <;>
      exact work (f := .starting) (by simp [phase]) ⟨h.staged.1, h.staged.2, hu⟩
        (by simp [HeadOk]) hlatest
  | endEarly hc hout he =>
    obtain rfl := hctl.idle_of_op ((hctl.locals p).ends (by simp [hcode])).1
    obtain rfl : c = [client] := hwf.ok
    have hlatest := h.latest_of (t := s.retire.wakeup.setProc p fun q =>
      { q with op := none, logged := [], code := [client] })
      (.proc rfl) (fun x hx hd => ⟨x, by simpa using hx, hd, rfl⟩) rfl
    rcases he with rfl | ⟨o, rfl⟩ <;>
      exact rest (by simp [after, phase]) h.staged.1 h.staged.2 hlatest
  | keep =>
    obtain rfl : c = [client] := hwf.ok
    exact h.other (hidle rfl) (by simp [phase]) (.proc rfl)
      (fun x hx hd => ⟨x, by simpa using .inr hx, hd, rfl⟩) rfl rfl rfl
  | start | read | finish =>
    exact h.other (hidle rfl) (by simp [phase, breadCode]) (.proc rfl)
      (fun x hx hd => ⟨x, by simpa using hx, hd, rfl⟩) rfl rfl rfl
  | tooBig | outside =>
    exact h.other (hidle rfl) (by simp [phase, hcode]) (.proc rfl)
      (fun x hx hd => ⟨x, by simpa using hx, hd, rfl⟩) rfl rfl rfl
  | @drop k x hx hclean =>
    refine h.other (hidle rfl) (by simp [phase, brelseCode]) (.proc rfl) ?_ rfl rfl rfl
    exact fun y hy hd =>
      ⟨y, by simpa using Coherent.mem_eraseIdx_of_dirty hx hclean hy hd, hd, rfl⟩
  | modify hx hop =>
    obtain rfl := hctl.idle_of_op (hop rfl)
    exact h.modify hcache hcode hx (.proc rfl) (by simp) rfl rfl rfl
  | absorb hx hop hout hroom hmem =>
    obtain rfl := hctl.idle_of_outstanding hout
    exact h.log hcoh hcache hctl hcode hx (.proc rfl) (by simp) (by simp) hroom
      (.inl ⟨hmem, rfl⟩) rfl rfl
  | append hx hop hout hroom hmem =>
    obtain rfl := hctl.idle_of_outstanding hout
    exact h.log hcoh hcache hctl hcode hx (.proc rfl) (by simp) (by simp) hroom (.inr rfl) rfl rfl
  | flush hx hfree => cases hfree
  | endPanic hc =>
    rw [hctl.committing_of_op ((hctl.locals p).ends (by simp [hcode])).1] at hc
    cases hc

end Recoverable

end Xv6.Log
