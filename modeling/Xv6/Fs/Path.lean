import Xv6.Fs.Code

/-!
# Path resolution

The elements of a path are the nonempty pieces between its slashes, cut to `DIRSIZ` bytes, and
`namex` looks them up one after another, each in the directory that the one before named.
-/

namespace Xv6.Fs

def components (path : Str) : List Str :=
  ((path.splitOn slash).filter (· ≠ [])).map (List.take 14)

/-- The inode that a path starts from. -/
def start (cwd : Slot) (path : Str) : Cmd Slot :=
  if path.head? = some slash then iget ROOTDEV ROOTINO else idup cwd

/-- The entry of a name, in an inode that has to be a directory. -/
def enter (ip : Slot) (name : Str) : Cmd (Option Slot) := do
  ilock ip
  let d ← entry ip
  if d.type ≠ T_DIR then
    iunlockput ip
    return none
  else
    match ← dirlookup ip name with
    | none =>
      iunlockput ip
      return none
    | some (next, _) =>
      iunlockput ip
      return some next

/-- The names, looked up one after another from `ip` on. -/
def follow : Slot → List Str → Cmd (Option Slot)
  | ip, [] => return some ip
  | ip, name :: names => do
      match ← enter ip name with
      | none => return none
      | some next => follow next names

def asParent (name : Str) (ip : Slot) : Cmd (Option (Slot × Str)) := do
  ilock ip
  let d ← entry ip
  if d.type ≠ T_DIR then
    iunlockput ip
    return none
  else
    iunlock ip
    return some (ip, name)

/-- All names but the last are looked up. -/
def followParent (ip : Slot) (names : List Str) : Cmd (Option (Slot × Str)) :=
  match names.getLast? with
  | none => do
      iput ip
      return none
  | some name => do
      match ← follow ip names.dropLast with
      | none => return none
      | some dp => asParent name dp

section Components

theorem components_append (xs as : Str) :
    components (xs ++ slash :: as) = components xs ++ components as := by
  have hsplit : (xs ++ slash :: as).splitOn slash = xs.splitOn slash ++ as.splitOn slash :=
    List.splitOnP_append_cons _ _ (beq_self_eq_true slash)
  rw [components, hsplit, List.filter_append, List.map_append]
  rfl

theorem components_nil : components [] = [] := rfl

theorem components_slash (as : Str) : components (slash :: as) = components as :=
  components_append [] as

theorem components_dropWhile (path : Str) :
    components (path.dropWhile (· == slash)) = components path := by
  induction path with
  | nil => rfl
  | cons c path ih =>
    by_cases hc : c = slash
    · rw [List.dropWhile_cons_of_pos (by simpa using hc), ih, hc, components_slash]
    · rw [List.dropWhile_cons_of_neg (by simpa using hc)]

theorem components_element {e : Str} (h : ∀ c ∈ e, c ≠ slash) (hne : e ≠ []) :
    components e = [e.take 14] := by
  have hsplit : e.splitOn slash = [e] := by
    apply List.splitOnP_eq_singleton
    intro c hc
    simpa using h c hc
  rw [components, hsplit]
  simp [hne]

/-- The words of a path: the first one, and the rest without slashes in front. -/
theorem components_word {c : UInt8} {tail : Str} (hc : c ≠ slash) :
    components (c :: tail) = ((c :: tail).takeWhile (· != slash)).take 14 ::
      components (((c :: tail).dropWhile (· != slash)).dropWhile (· == slash)) := by
  have hword : ∀ x ∈ (c :: tail).takeWhile (· != slash), x ≠ slash := by
    intro x hx
    simpa using List.all_eq_true.1 List.all_takeWhile x hx
  have hne : (c :: tail).takeWhile (· != slash) ≠ [] := by simp [hc]
  have hsplit := List.takeWhile_append_dropWhile (p := (· != slash)) (l := c :: tail)
  rw [components_dropWhile]
  cases hrest : (c :: tail).dropWhile (· != slash) with
  | nil =>
    rw [hrest, List.append_nil] at hsplit
    rw [hsplit] at hword hne
    rw [hsplit, components_element hword hne, components_nil]
  | cons d more =>
    have hd : d = slash := by
      have hhead := List.head?_dropWhile_not (· != slash) (c :: tail)
      rw [hrest] at hhead
      simpa using hhead
    rw [hrest, hd] at hsplit
    calc components (c :: tail)
        = components ((c :: tail).takeWhile (· != slash) ++ slash :: more) := by rw [hsplit]
      _ = ((c :: tail).takeWhile (· != slash)).take 14 :: components more := by
        rw [components_append, components_element hword hne, List.singleton_append]
      _ = ((c :: tail).takeWhile (· != slash)).take 14 :: components (d :: more) := by
        rw [hd, components_slash]

/-- What `skipelem` returns is the first element, and a rest that is shorter and empty if it
has no element. -/
theorem skipelem_cases (path : Str) :
    skipelem path = none ∧ components path = [] ∨
    ∃ name rest, skipelem path = some (name, rest) ∧ components path = name :: components rest ∧
      rest.length < path.length ∧ (components rest = [] → rest = []) := by
  have hle := (List.dropWhile_sublist (l := path) (· == slash)).length_le
  have hhead := List.head?_dropWhile_not (· == slash) path
  rw [← components_dropWhile]
  unfold skipelem
  cases hpath : path.dropWhile (· == slash) with
  | nil => exact .inl ⟨rfl, components_nil⟩
  | cons c tail =>
    rw [hpath] at hhead hle
    have hc : c ≠ slash := by simpa using hhead
    refine .inr ⟨_, _, rfl, components_word hc, ?_, ?_⟩
    · rw [List.dropWhile_cons_of_pos (by simpa using hc)]
      have hinner := (List.dropWhile_sublist (l := tail) (· != slash)).length_le
      have houter := (List.dropWhile_sublist (l := tail.dropWhile (· != slash)) (· == slash)).length_le
      rw [List.length_cons] at hle
      omega
    · have hfront := List.head?_dropWhile_not (· == slash) ((c :: tail).dropWhile (· != slash))
      intro hnil
      cases hrest : ((c :: tail).dropWhile (· != slash)).dropWhile (· == slash) with
      | nil => rfl
      | cons x more =>
        rw [hrest] at hnil hfront
        have hx : x ≠ slash := by simpa using hfront
        rw [components_word hx] at hnil
        cases hnil

end Components

section Namex

variable {fuel : Nat} {path : Str}

theorem namexLoop_false (ip : Slot) (h : path.length < fuel) :
    namexLoop false fuel ip path =
      (fun r => r.map fun ip => (ip, [])) <$> follow ip (components path) := by
  induction fuel generalizing ip path with
  | zero => omega
  | succ fuel ih =>
    rcases skipelem_cases path with ⟨hskip, hnames⟩ | ⟨name, rest, hskip, hnames, hlt, -⟩
    · rw [namexLoop, hskip, hnames, follow]
      rfl
    · have ih' := fun next => ih next (Nat.lt_of_lt_of_le hlt (Nat.le_of_lt_succ h))
      simp only [namexLoop, hskip, hnames, follow, enter, Bool.false_eq_true, false_and, if_false,
        map_eq_pure_bind, bind_assoc]
      congr 1
      funext _
      congr 1
      funext d
      split
      · simp
      · simp only [bind_assoc]
        congr 1
        funext r
        rcases r with _ | ⟨next, off⟩
        · simp
        · simp only [bind_assoc, pure_bind, ih', map_eq_pure_bind]

theorem namexLoop_true (ip : Slot) (h : path.length < fuel) :
    namexLoop true fuel ip path = followParent ip (components path) := by
  induction fuel generalizing ip path with
  | zero => omega
  | succ fuel ih =>
    rcases skipelem_cases path with ⟨hskip, hnames⟩ | ⟨name, rest, hskip, hnames, hlt, hrest⟩
    · rw [namexLoop, hskip, hnames]
      rfl
    · have ih' := fun next => ih next (Nat.lt_of_lt_of_le hlt (Nat.le_of_lt_succ h))
      cases hmore : components rest with
      | nil =>
        have hend := hrest hmore
        rw [hnames, hmore]
        simp only [namexLoop, hskip, hend, followParent, asParent, List.getLast?_singleton,
          List.dropLast_singleton, follow, and_self, if_true, pure_bind]
      | cons name' names =>
        have hne : rest ≠ [] := by
          rintro rfl
          cases hmore
        rw [hnames, hmore]
        simp only [namexLoop, hskip, hne, and_false, if_false, followParent, ih', hmore,
          List.getLast?_cons_cons, List.dropLast_cons_cons, follow, enter, bind_assoc]
        obtain ⟨last, hlast⟩ := Option.isSome_iff_exists.1
          (List.getLast?_isSome.2 (List.cons_ne_nil name' names))
        simp only [hlast]
        congr 1
        funext _
        congr 1
        funext d
        split
        · simp
        · simp only [bind_assoc]
          congr 1
          funext r
          rcases r with _ | ⟨next, off⟩
          · simp
          · simp only [bind_assoc, pure_bind]

/-- Path resolution is a fold of lookups over the elements of the path, and paths with the same
elements and the same start are one path. -/
theorem namex_fold (cwd : Slot) (path : Str) :
    (namei cwd path = start cwd path >>= fun ip => follow ip (components path)) ∧
    (nameiparent cwd path = start cwd path >>= fun ip => followParent ip (components path)) ∧
    ∀ path', components path' = components path →
      (path'.head? = some slash ↔ path.head? = some slash) →
      namei cwd path' = namei cwd path ∧ nameiparent cwd path' = nameiparent cwd path := by
  have hnamei : ∀ p, namei cwd p = start cwd p >>= fun ip => follow ip (components p) := by
    intro p
    unfold namei namex start
    simp only [bind_assoc, namexLoop_false _ (Nat.lt_succ_self _), map_eq_pure_bind, pure_bind]
    congr 1
    funext ip
    simp only [Option.map_map, Function.comp_def, Option.map_id', bind_pure]
  have hparent : ∀ p, nameiparent cwd p = start cwd p >>= fun ip => followParent ip (components p) := by
    intro p
    unfold nameiparent namex start
    simp only [namexLoop_true _ (Nat.lt_succ_self _)]
  refine ⟨hnamei path, hparent path, fun path' hsame hhead => ?_⟩
  have hstart : start cwd path' = start cwd path := by
    unfold start
    simp only [hhead]
  rw [hnamei, hnamei, hparent, hparent, hsame, hstart]
  exact ⟨rfl, rfl⟩

/-- The paths `//a/bb/` and `/a///bb`. -/
theorem namex_fold_slashes :
    namei 3 [47, 47, 97, 47, 98, 98, 47] = namei 3 [47, 97, 47, 47, 47, 98, 98] ∧
    nameiparent 3 [47, 47, 97, 47, 98, 98, 47] = nameiparent 3 [47, 97, 47, 47, 47, 98, 98] :=
  (namex_fold 3 [47, 97, 47, 47, 47, 98, 98]).2.2 _ (by decide) (by decide)

end Namex

end Xv6.Fs
