import Xv6.Shell.Code

/-!
# The search for a command

`runcmd` reads `/path` and tries the command behind each prefix that ends in a colon.  A block is
the list of its bytes, as many as `malloc` was asked for, and an access outside of it is a fault.
Every `exec` fails.
-/

namespace Xv6.Shell

inductive Fault
  | write (i size : Nat)
  | read (i size : Nat)
  /-- The loop went on for longer than the bound. -/
  | bound
  deriving DecidableEq, Repr

abbrev Block := List UInt8

/-- What stands in a new block is not known. -/
def malloc (junk : Nat → Nat → UInt8) (n : Nat) : Block := (List.range n).map (junk n)

def store (b : Block) (i : Nat) (c : UInt8) : Except Fault Block :=
  if i < b.length then .ok (b.set i c) else .error (.write i b.length)

def storeAll : Block → Nat → Str → Except Fault Block
  | b, _, [] => .ok b
  | b, i, c :: cs => do storeAll (← store b i c) (i + 1) cs

def memset (b : Block) (c : UInt8) (n : Nat) : Except Fault Block :=
  storeAll b 0 (List.replicate n c)

def strlen (b : Block) : Except Fault Nat :=
  if b.idxOf 0 < b.length then .ok (b.idxOf 0) else .error (.read b.length b.length)

def strcpy (b src : Block) : Except Fault Block := do
  storeAll b 0 (src.take (← strlen src) ++ [0])

/-- `my_strcat`; the source is the string without its NUL. -/
def myStrcat (b : Block) (src : Str) : Except Fault Block := do
  storeAll b (← strlen b) (src ++ [0])

/-- The string in `{c, 0}`. -/
def oneChar (c : UInt8) : Str := if c = 0 then [] else [c]

/-- The loop of `reading_from_fd`, which reads the file byte by byte. -/
def readingLoop (junk : Nat → Nat → UInt8) : Str → Block → Except Fault Block
  | [], path => .ok path
  | c :: file, path => do
    let len ← strlen path
    let path ← if 100 ≤ len then do strcpy (← memset (malloc junk (len + 1 + 1)) 0 100) path
      else pure path
    readingLoop junk file (← myStrcat path (oneChar c))

def readingFromFd (junk : Nat → Nat → UInt8) (file : Str) : Except Fault Block := do
  readingLoop junk file (← memset (malloc junk 100) 0 100)

inductive Action
  | exec (name : Str)
  | fprintf (format : String) (arg : Str)
  | exit (status : Int)
  deriving DecidableEq, Repr

abbrev colon : UInt8 := 58
abbrev newline : UInt8 := 10

/-- `while(*path!=':')`: the word, and where `path` is then. -/
def wordLoop : Block → Block → Except Fault (Block × Block)
  | _, [] => .error (.read 0 0)
  | word, c :: path =>
    if c ≠ colon then do wordLoop (← myStrcat word (oneChar c)) path
    else .ok (word, c :: path)

/-- The loop over the prefixes and what comes behind it. -/
def searchLoop (junk : Nat → Nat → UInt8) (argv0 : Str) : Nat → Block → Except Fault (List Action)
  | 0, _ => .error .bound
  | _ + 1, [] => .error (.read 0 0)
  | n + 1, c :: path =>
    if c ≠ 0 ∧ c ≠ newline then do
      let (word, path) ← wordLoop (← memset (malloc junk 100) 0 100) (c :: path)
      let newPath ← myStrcat word argv0
      return .exec (newPath.take (← strlen newPath)) :: (← searchLoop junk argv0 n path)
    else .ok [.exec argv0, .fprintf "exec %s failed\n" argv0, .exit 0]

/-- `runcmd` for `EXEC`; `file` is what is in `/path`. -/
def runExec (junk : Nat → Nat → UInt8) (n : Nat) (file argv0 : Option Str) :
    Except Fault (List Action) :=
  match argv0, file with
  | none, _ => .ok [.exit 1]
  | some argv0, none => .ok [.fprintf "open %s failed\n" argv0, .exit 1]
  | some argv0, some file => do searchLoop junk argv0 n (← readingFromFd junk file)

/-!
## Strings in blocks
-/

section

variable {junk : Nat → Nat → UInt8} {s t u v w : Str} {rest : Block}

theorem storeAll_append (h : t.length = v.length) :
    storeAll (u ++ (v ++ w)) u.length t = .ok (u ++ (t ++ w)) := by
  induction t generalizing u v with
  | nil =>
    rw [List.length_eq_zero_iff.1 h.symm]
    rfl
  | cons c t ih =>
    cases v with
    | nil => cases h
    | cons x v =>
      have hstore : store (u ++ (x :: v ++ w)) u.length c = .ok (u ++ [c] ++ (v ++ w)) := by
        simp [store]
      have hrest := @ih (u ++ [c]) v (Nat.succ.inj h)
      rw [List.length_append, List.append_assoc u [c] (t ++ w)] at hrest
      rw [storeAll, hstore]
      exact hrest

theorem memset_malloc : memset (malloc junk 100) 0 100 = .ok (0 :: List.replicate 99 0) := by
  have hlen : (List.replicate 100 (0 : UInt8)).length = (malloc junk 100).length := by
    simp [malloc]
  have hall := @storeAll_append (List.replicate 100 0) [] (malloc junk 100) [] hlen
  rw [List.nil_append, List.append_nil, List.nil_append, List.append_nil] at hall
  exact hall

theorem strlen_string (hs : 0 ∉ s) : strlen (s ++ 0 :: rest) = .ok s.length := by
  have hidx : (s ++ 0 :: rest).idxOf 0 = s.length := by
    rw [List.idxOf_append_of_notMem hs, List.idxOf_cons_self, Nat.add_zero]
  rw [strlen, hidx, if_pos (by simp)]

theorem myStrcat_string (hs : 0 ∉ s) (ht : t.length ≤ rest.length) :
    myStrcat (s ++ 0 :: rest) t = .ok (s ++ (t ++ 0 :: rest.drop t.length)) := by
  have hsplit : 0 :: rest = (0 :: rest.take t.length) ++ rest.drop t.length := by
    rw [List.cons_append, List.take_append_drop]
  have hlen : (t ++ [0]).length = (0 :: rest.take t.length).length := by
    simp [ht]
  have hall := @storeAll_append (t ++ [0]) s _ (rest.drop t.length) hlen
  rw [← hsplit, List.append_assoc, List.singleton_append] at hall
  rw [myStrcat, strlen_string hs]
  exact hall

theorem oneChar_of_ne {c : UInt8} (hc : c ≠ 0) : oneChar c = [c] := if_neg hc

/-!
## Reading `/path`
-/

/-- A byte more than 99 is written behind the block of 100. -/
theorem readingLoop_eq (hz : 0 ∉ s ++ t) (hsize : s.length + rest.length = 99) :
    readingLoop junk t (s ++ 0 :: rest) =
      if s.length + t.length < 100 then .ok (s ++ (t ++ 0 :: rest.drop t.length))
      else .error (.write 100 100) := by
  induction t generalizing s rest with
  | nil =>
    rw [if_pos (by simp; omega)]
    rfl
  | cons c t ih =>
    have hs : 0 ∉ s := fun h => hz (List.mem_append_left _ h)
    have hc : c ≠ 0 := by
      rintro rfl
      exact hz (by simp)
    rw [readingLoop, strlen_string hs, oneChar_of_ne hc]
    simp only [bind, Except.bind, pure, Except.pure, if_neg (show ¬100 ≤ s.length by omega)]
    cases rest with
    | nil =>
      have h99 : s.length = 99 := by simpa using hsize
      have hcat : myStrcat (s ++ [0]) [c] = .error (.write 100 100) := by
        rw [myStrcat, strlen_string hs]
        simp [storeAll, store, h99, bind, Except.bind]
      rw [hcat, if_neg (by simp; omega)]
    | cons x rest =>
      have happ : s ++ ([c] ++ 0 :: (x :: rest).drop [c].length) = (s ++ [c]) ++ 0 :: rest := by
        simp
      have hlen : (s ++ [c]).length + t.length = s.length + (c :: t).length := by
        simp
        omega
      rw [myStrcat_string hs (by simp), happ]
      dsimp only
      rw [ih (by simpa using hz) (by simp at hsize ⊢; omega), hlen, List.append_assoc]
      rfl

theorem readingFromFd_eq (ht : 0 ∉ t) :
    readingFromFd junk t =
      if t.length < 100 then .ok (t ++ 0 :: List.replicate (99 - t.length) 0)
      else .error (.write 100 100) := by
  have hloop := @readingLoop_eq junk [] t (List.replicate 99 0) ht (by simp)
  rw [List.nil_append, List.length_nil, Nat.zero_add, List.nil_append, List.drop_replicate] at hloop
  rw [readingFromFd, memset_malloc]
  exact hloop

/-- The whole file is read, within the block, if and only if it has less than 100 bytes. -/
theorem readingFromFd_iff (junk : Nat → Nat → UInt8) (file : Str) (hz : 0 ∉ file) :
    (∃ rest, readingFromFd junk file = .ok (file ++ 0 :: rest)) ↔ file.length < 100 := by
  rw [readingFromFd_eq hz]
  constructor
  · rintro ⟨rest, hread⟩
    by_contra hlen
    rw [if_neg hlen] at hread
    cases hread
  · intro hlen
    exact ⟨_, if_pos hlen⟩

theorem readingFromFd_iff_slash : ∃ rest, readingFromFd (fun _ _ => 1) [47] = .ok ([47] ++ 0 :: rest) :=
  (readingFromFd_iff _ [47] (by decide)).2 (by decide)

/-- The NUL behind the hundredth byte is written behind the block. -/
theorem hundred_bytes : ∃ junk file, 0 ∉ file ∧
    readingFromFd junk file = .error (.write 100 100) :=
  ⟨fun _ _ => 0, List.replicate 100 97, by decide, readingFromFd_eq (by decide)⟩

/-!
## The loop over the prefixes
-/

theorem wordLoop_eq (hs : 0 ∉ s ++ t) (ht : colon ∉ t) (hlen : t.length ≤ rest.length) (tail : Block) :
    wordLoop (s ++ 0 :: rest) (t ++ colon :: tail) =
      .ok (s ++ (t ++ 0 :: rest.drop t.length), colon :: tail) := by
  induction t generalizing s rest with
  | nil => rfl
  | cons c t ih =>
    have hc : c ≠ colon := fun h => ht (by simp [h])
    have hz : c ≠ 0 := by
      rintro rfl
      exact hs (by simp)
    have hcat := @myStrcat_string s [c] rest (fun h => hs (List.mem_append_left _ h))
      (Nat.le_trans (by simp) hlen)
    have hnext := @ih (s ++ [c]) (rest.drop 1) (by simpa using hs) (fun h => ht (by simp [h]))
      (by simp at hlen ⊢; omega)
    rw [List.append_assoc, List.drop_drop, Nat.add_comm 1, List.append_assoc] at hnext
    rw [List.cons_append, wordLoop, if_pos hc, oneChar_of_ne hz, hcat]
    exact hnext

/-- One round tries the command behind the prefix, and leaves `path` at the colon. -/
theorem searchLoop_round {argv0 : Str} (hz : 0 ∉ t ++ argv0) (ht : colon ∉ t)
    (hhead : t.head? ≠ some newline) (hlen : (t ++ argv0).length < 100) (n : Nat) (tail : Block) :
    searchLoop junk argv0 (n + 1) (t ++ colon :: tail) =
      (searchLoop junk argv0 n (colon :: tail)).map (.exec (t ++ argv0) :: ·) := by
  have hcases : ∃ c path, t ++ colon :: tail = c :: path ∧ c ≠ 0 ∧ c ≠ newline := by
    cases t with
    | nil => exact ⟨colon, tail, rfl, by decide, by decide⟩
    | cons c t =>
      refine ⟨c, t ++ colon :: tail, rfl, fun h => hz (by simp [h]), fun h => hhead (by simp [h])⟩
  obtain ⟨c, path, hpath, hc⟩ := hcases
  rw [List.length_append] at hlen
  have ht0 : 0 ∉ [] ++ t := fun h => hz (List.mem_append_left _ h)
  have hword := @wordLoop_eq [] t (List.replicate 99 0) ht0 ht (by rw [List.length_replicate]; omega)
    tail
  have hcat := @myStrcat_string t argv0 ((List.replicate 99 0).drop t.length) ht0
    (by rw [List.length_drop, List.length_replicate]; omega)
  rw [hpath, searchLoop, if_pos hc, memset_malloc, ← hpath]
  change (wordLoop ([] ++ 0 :: List.replicate 99 0) _ >>= fun _ => _) = _
  rw [hword]
  change (myStrcat (t ++ 0 :: _) argv0 >>= fun _ => _) = _
  rw [hcat, ← List.append_assoc]
  change (strlen _ >>= fun _ => _) = _
  rw [strlen_string hz]
  change (searchLoop junk argv0 n (colon :: tail) >>= fun _ => _) = _
  cases searchLoop junk argv0 n (colon :: tail) with
  | error e => rfl
  | ok l =>
    change Except.ok (.exec (List.take _ _) :: l) = _
    rw [List.take_left]
    rfl

/-- At a colon the loop stays where it is. -/
theorem searchLoop_colon {argv0 : Str} (hz : 0 ∉ argv0) (hlen : argv0.length < 100) (n : Nat)
    (tail : Block) : searchLoop junk argv0 n (colon :: tail) = .error .bound := by
  induction n with
  | zero => rfl
  | succ n ih =>
    have hround := @searchLoop_round junk [] argv0 hz nofun nofun hlen n tail
    rw [ih] at hround
    exact hround

end

/-- A prefix that the word buffer has room for, with the command behind it. -/
def Prefix (argv0 p : Str) : Prop := 0 ∉ p ++ argv0 ∧ colon ∉ p ∧ (p ++ argv0).length < 100

/-- Each prefix is tried once and in order, then the command itself; then the shell gives up. -/
def Searched (junk : Nat → Nat → UInt8) (ps : List Str) (argv0 : Str) : Prop :=
  ∃ n, runExec junk n (some (ps.flatMap (· ++ [colon]))) (some argv0) =
    .ok (ps.map (fun p => .exec (p ++ argv0)) ++
      [.exec argv0, .fprintf "exec %s failed\n" argv0, .exit 0])

section

variable {junk : Nat → Nat → UInt8} {p argv0 : Str} {ps : List Str}

theorem runExec_eq (hps : ∀ q ∈ ps, Prefix argv0 q) (n : Nat) :
    runExec junk n (some (ps.flatMap (· ++ [colon]))) (some argv0) =
      if (ps.flatMap (· ++ [colon])).length < 100 then
        searchLoop junk argv0 n (ps.flatMap (· ++ [colon]) ++
          0 :: List.replicate (99 - (ps.flatMap (· ++ [colon])).length) 0)
      else .error (.write 100 100) := by
  have hz : 0 ∉ ps.flatMap (· ++ [colon]) := by
    intro hmem
    obtain ⟨q, hq, hmem⟩ := List.mem_flatMap.1 hmem
    rcases List.mem_append.1 hmem with hmem | hmem
    · exact (hps q hq).1 (List.mem_append_left _ hmem)
    · exact absurd hmem (by decide)
  change (readingFromFd junk _ >>= fun path => searchLoop junk argv0 n path) = _
  rw [readingFromFd_eq hz]
  split <;> rfl

/-- With a prefix that is read, the loop never gets past its colon. -/
theorem runExec_stuck (hps : ∀ q ∈ p :: ps, Prefix argv0 q) (hhead : p.head? ≠ some newline)
    (hlen : ((p :: ps).flatMap (· ++ [colon])).length < 100) (n : Nat) :
    runExec junk n (some ((p :: ps).flatMap (· ++ [colon]))) (some argv0) = .error .bound := by
  obtain ⟨hz, hcolon, hroom⟩ := hps p List.mem_cons_self
  have hargv : 0 ∉ argv0 := fun h => hz (List.mem_append_right _ h)
  have hargvlen : argv0.length < 100 := by
    rw [List.length_append] at hroom
    omega
  rw [runExec_eq hps, if_pos hlen, List.flatMap_cons, List.append_assoc, List.append_assoc,
    List.singleton_append]
  cases n with
  | zero => rfl
  | succ n =>
    rw [searchLoop_round hz hcolon hhead hroom, searchLoop_colon hargv hargvlen]
    rfl

theorem not_searched (hps : ∀ q ∈ p :: ps, Prefix argv0 q) : ¬Searched junk (p :: ps) argv0 := by
  rintro ⟨n, hrun⟩
  by_cases hlen : ((p :: ps).flatMap (· ++ [colon])).length < 100
  · by_cases hhead : p.head? = some newline
    · obtain ⟨p, rfl⟩ := List.head?_eq_some_iff.1 hhead
      rw [runExec_eq hps, if_pos hlen] at hrun
      cases n with
      | zero => cases hrun
      | succ n =>
        have hlen := congrArg List.length (Except.ok.inj hrun)
        simp only [List.length_append, List.length_map, List.length_cons] at hlen
        omega
    · rw [runExec_stuck hps hhead hlen] at hrun
      cases hrun
  · rw [runExec_eq hps, if_neg hlen] at hrun
    cases hrun

end

/-- The search is what it should be if and only if there is no prefix. -/
theorem searched_iff (junk : Nat → Nat → UInt8) (ps : List Str) (argv0 : Str)
    (hps : ∀ p ∈ ps, Prefix argv0 p) : Searched junk ps argv0 ↔ ps = [] := by
  constructor
  · intro h
    cases ps with
    | nil => rfl
    | cons p ps => exact absurd h (not_searched hps)
  · rintro rfl
    exact ⟨1, runExec_eq hps 1⟩

theorem searched_iff_none : Searched (fun _ _ => 1) [] [108, 115] :=
  (searched_iff _ [] [108, 115] nofun).2 rfl

/-- `/:` and `ls`. -/
theorem search_never_ends : ∃ junk argv0, ∃ ps : List Str, (∀ p ∈ ps, Prefix argv0 p) ∧
    ∀ n, runExec junk n (some (ps.flatMap (· ++ [colon]))) (some argv0) = .error .bound := by
  have hps : ∀ p ∈ [[47]], Prefix [108, 115] p := by
    intro p hp
    obtain rfl := List.mem_singleton.1 hp
    exact ⟨by decide, by decide, by decide⟩
  exact ⟨fun _ _ => 0, [108, 115], [[47]], hps, fun n => runExec_stuck hps (by decide) (by decide) n⟩

end Xv6.Shell
