/-
What the operations on a tree of files leave alone.

A tree is seen through `get?` only: what stands under given names.  An insertion
changes that in one place, and so the directories that a path leads through are
still there afterwards, as long as no directory is replaced.  `Keeps` is that
condition and `walk_of_keeps` its use: a walk that arrives still arrives, at the same
names.

`ChangesOnly` is the frame of putting a file at the end of a path.  It is proved of
one new directory, then along the steps of a path, where the making of directories can
stop midway, and last of the writing of the file.  No condition is needed on the tree:
it may hold a file inside a file, or two entries under the same names.
-/
import TallyLang.FileTree.Basic

namespace TallyLang

namespace FileTree

variable {t t' t'' : FileTree}

/-! ### Looking up -/

private theorem lookup_cons_of_ne {key names : List String} (hne : names ≠ key) (entry : Entry)
    (rest : List (List String × Entry)) :
    ((key, entry) :: rest).lookup names = rest.lookup names := by
  rw [List.lookup_cons, beq_false_of_ne hne]

private theorem lookup_replace (entries : List (List String × Entry)) (names other : List String)
    (entry : Entry) :
    (entries.map fun e => if e.1 = names then (names, entry) else e).lookup other =
      if other = names then (entries.lookup names).map (fun _ => entry)
      else entries.lookup other := by
  induction entries with
  | nil => simp
  | cons head rest ih =>
      obtain ⟨key, old⟩ := head
      rw [List.map_cons]
      by_cases hkey : key = names
      · subst hkey
        by_cases hother : other = key
        · simp [hother]
        · rw [if_neg hother] at ih ⊢
          rw [if_pos rfl, lookup_cons_of_ne hother, lookup_cons_of_ne hother, ih]
      · show ((if key = names then _ else (key, old)) :: _).lookup other = _
        rw [if_neg hkey, lookup_cons_of_ne (Ne.symm hkey)]
        by_cases hother : other = key
        · subst hother
          rw [if_neg hkey, List.lookup_cons_self, List.lookup_cons_self]
        · rw [lookup_cons_of_ne hother, lookup_cons_of_ne hother, ih]

theorem get?_eq_lookup {names : List String} (hne : names ≠ []) :
    t.get? names = t.entries.lookup names := by
  rw [get?, if_neg (by simpa using hne)]

/-- What stands under the names after an insertion. -/
theorem get?_insert {names : List String} (hne : names ≠ []) (entry : Entry)
    (other : List String) :
    (t.insert names entry).get? other = if other = names then some entry else t.get? other := by
  by_cases hroot : other = []
  · subst hroot
    rw [if_neg (Ne.symm hne)]
    rfl
  · rw [get?_eq_lookup hroot, get?_eq_lookup hroot, insert]
    by_cases hold : (t.entries.lookup names).isSome
    · rw [if_pos hold]
      show List.lookup other (t.entries.map _) = _
      obtain ⟨old, hlookup⟩ := Option.isSome_iff_exists.mp hold
      rw [lookup_replace, hlookup]
      rfl
    · rw [if_neg hold]
      show List.lookup other (t.entries ++ [(names, entry)]) = _
      rw [List.lookup_append]
      by_cases hother : other = names
      · rw [if_pos hother, hother, Option.not_isSome_iff_eq_none.mp hold, List.lookup_cons_self]
        rfl
      · rw [if_neg hother, lookup_cons_of_ne hother, List.lookup_nil, Option.or_none]

theorem get?_insert_self {names : List String} (hne : names ≠ []) (entry : Entry) :
    (t.insert names entry).get? names = some entry := by
  rw [get?_insert hne, if_pos rfl]

theorem get?_insert_of_ne {names other : List String} (hne : names ≠ []) (entry : Entry)
    (hother : other ≠ names) : (t.insert names entry).get? other = t.get? other := by
  rw [get?_insert hne, if_neg hother]

/-! ### Walking -/

theorem walk_append (t : FileTree) (here front rest : List String) :
    t.walk here (front ++ rest) = (t.walk here front).bind (t.walk · rest) := by
  induction front generalizing here with
  | nil => rfl
  | cons part front ih =>
      rw [List.cons_append, walk, walk]
      split
      · rfl
      · rfl
      · by_cases hidle : Path.isIdle part
        · rw [if_pos hidle, if_pos hidle, ih]
        · rw [if_neg hidle, if_neg hidle]
          by_cases hup : part = ".."
          · rw [if_pos hup, if_pos hup, ih]
          · rw [if_neg hup, if_neg hup]
            by_cases hthere : (t.get? (here ++ [part])).isSome
            · rw [if_pos hthere, if_pos hthere, ih]
            · rw [if_neg hthere, if_neg hthere]
              rfl

/-- A path leads to a directory if it leads there and a directory is there. -/
theorem walkToDir_eq_ok {parts names : List String} :
    t.walkToDir parts = .ok names ↔ t.walk [] parts = .ok names ∧ t.get? names = some .dir := by
  rw [walkToDir, walk_append]
  cases hwalk : t.walk [] parts with
  | error e =>
      constructor
      · intro h
        cases h
      · intro h
        cases h.1
  | ok reached =>
      show t.walk reached ["."] = _ ↔ _
      rw [walk, walk, if_pos (show Path.isIdle "." = true by decide), Except.ok.injEq]
      constructor
      · intro h
        split at h
        · cases h
        · cases h
        · rename_i hdir
          cases h
          exact ⟨rfl, hdir⟩
      · rintro ⟨rfl, hdir⟩
        rw [hdir]

/-- One more step from a directory to a name in it. -/
theorem walk_step {front dir : List String} {last : String} (hidle : ¬ Path.isIdle last)
    (hup : last ≠ "..") (hwalk : t.walkToDir front = .ok dir)
    (hthere : (t.get? (dir ++ [last])).isSome) :
    t.walk [] (front ++ [last]) = .ok (dir ++ [last]) := by
  obtain ⟨hfront, hdir⟩ := walkToDir_eq_ok.mp hwalk
  rw [walk_append, hfront]
  show t.walk dir [last] = _
  rw [walk, hdir]
  show (if Path.isIdle last then _ else _) = _
  rw [if_neg hidle, if_neg hup, if_pos hthere]
  rfl

/-! ### What a walk relies on -/

/-- Nothing disappears, and a directory stays one. -/
structure Keeps (t t' : FileTree) : Prop where
  dirs : ∀ names, t.get? names = some .dir → t'.get? names = some .dir
  present : ∀ names, (t.get? names).isSome → (t'.get? names).isSome

theorem walk_of_keeps (h : Keeps t t') {here parts names : List String}
    (hwalk : t.walk here parts = .ok names) : t'.walk here parts = .ok names := by
  induction parts generalizing here with
  | nil => exact hwalk
  | cons part parts ih =>
      rw [walk] at hwalk ⊢
      split at hwalk
      · cases hwalk
      · cases hwalk
      · rename_i hhere
        rw [h.dirs here hhere]
        by_cases hidle : Path.isIdle part
        · rw [if_pos hidle] at hwalk
          show (if _ then _ else _) = _
          rw [if_pos hidle]
          exact ih hwalk
        · rw [if_neg hidle] at hwalk
          show (if _ then _ else _) = _
          rw [if_neg hidle]
          by_cases hup : part = ".."
          · rw [if_pos hup] at hwalk ⊢
            exact ih hwalk
          · rw [if_neg hup] at hwalk ⊢
            by_cases hthere : (t.get? (here ++ [part])).isSome
            · rw [if_pos hthere] at hwalk
              rw [if_pos (h.present _ hthere)]
              exact ih hwalk
            · rw [if_neg hthere] at hwalk
              cases hwalk

theorem walkToDir_of_keeps (h : Keeps t t') {parts names : List String}
    (hwalk : t.walkToDir parts = .ok names) : t'.walkToDir parts = .ok names := by
  obtain ⟨hreached, hdir⟩ := walkToDir_eq_ok.mp hwalk
  exact walkToDir_eq_ok.mpr ⟨walk_of_keeps h hreached, h.dirs names hdir⟩

/-- An insertion that replaces no directory. -/
theorem keeps_insert {names : List String} (hne : names ≠ []) (entry : Entry)
    (hold : t.get? names ≠ some .dir) : Keeps t (t.insert names entry) where
  dirs := by
    intro other hdir
    by_cases hother : other = names
    · subst hother
      exact absurd hdir hold
    · rw [get?_insert_of_ne hne entry hother]
      exact hdir
  present := by
    intro other hthere
    rw [get?_insert hne]
    by_cases hother : other = names
    · rw [if_pos hother]
      rfl
    · rw [if_neg hother]
      exact hthere

/-! ### The frame -/

/-- A directory on the way: some first ones of the steps lead to it. -/
def OnWay (t : FileTree) (steps names : List String) : Prop :=
  ∃ front, front <+: steps ∧ t.walkToDir front = .ok names

theorem OnWay.mono {steps steps' names : List String} (h : t.OnWay steps names)
    (hkeeps : Keeps t t') (hsteps : steps <+: steps') : t'.OnWay steps' names := by
  obtain ⟨front, hfront, hwalk⟩ := h
  exact ⟨front, hfront.trans hsteps, walkToDir_of_keeps hkeeps hwalk⟩

/-- The changes of putting a file at the end of a path: apart from what was `written`, all that was
there is unchanged, and all that is new are directories on the way. -/
structure ChangesOnly (steps : List String) (written : Option (List String)) (t t' : FileTree) :
    Prop where
  /-- What was there is unchanged. -/
  kept : ∀ names entry, written ≠ some names → t.get? names = some entry →
    t'.get? names = some entry
  /-- What is new is a directory on the way. -/
  added : ∀ names entry, written ≠ some names → t.get? names = none →
    t'.get? names = some entry → entry = .dir ∧ t'.OnWay steps names

namespace ChangesOnly

variable {steps steps' : List String} {written : Option (List String)}

theorem refl (steps : List String) (t : FileTree) : ChangesOnly steps none t t where
  kept := fun _ _ _ h => h
  added := by
    intro names entry _ hnone hsome
    rw [hnone] at hsome
    cases hsome

theorem keeps (h : ChangesOnly steps none t t') : Keeps t t' where
  dirs := fun names hdir => h.kept names .dir nofun hdir
  present := by
    intro names hthere
    obtain ⟨entry, hentry⟩ := Option.isSome_iff_exists.mp hthere
    rw [h.kept names entry nofun hentry]
    rfl

/-- Directories on the way, and then something further on.  The directories have to last: what was
on the way in between is looked for in the tree at the end. -/
theorem trans (hfirst : ChangesOnly steps none t t') (hsecond : ChangesOnly steps' written t' t'')
    (hkeeps : Keeps t' t'') (hsteps : steps <+: steps') : ChangesOnly steps' written t t'' where
  kept := by
    intro names entry hnot hentry
    exact hsecond.kept names entry hnot (hfirst.kept names entry nofun hentry)
  added := by
    intro names entry hnot hnone hentry
    cases hbetween : t'.get? names with
    | none => exact hsecond.added names entry hnot hbetween hentry
    | some made =>
        obtain ⟨hdir, hway⟩ := hfirst.added names made nofun hnone hbetween
        have hlasts := hsecond.kept names made hnot hbetween
        rw [hentry] at hlasts
        cases hlasts
        exact ⟨hdir, hway.mono hkeeps hsteps⟩

theorem further (h : ChangesOnly steps none t t') (hsteps : steps <+: steps') :
    ChangesOnly steps' none t t' :=
  h.trans (refl steps' t') (refl [] t').keeps hsteps

end ChangesOnly

/-! ### Making directories -/

theorem makeDir_eq_ok {front : List String} {last : String}
    (h : t.makeDir front last = .ok t') :
    ∃ dir, t.walkToDir front = .ok dir ∧ last ≠ ".." ∧ t.get? (dir ++ [last]) = none ∧
      t' = t.insert (dir ++ [last]) .dir := by
  rw [makeDir] at h
  split at h
  · cases h
  · rename_i dir hwalk
    by_cases hbusy : (last = ".." || (t.get? (dir ++ [last])).isSome) = true
    · rw [if_pos hbusy] at h
      cases h
    · rw [if_neg hbusy] at h
      cases h
      simp only [Bool.or_eq_true, decide_eq_true_eq, not_or, Option.not_isSome_iff_eq_none] at hbusy
      exact ⟨dir, hwalk, hbusy.1, hbusy.2, rfl⟩

/-- The step: one new directory, at the end of the way. -/
theorem changesOnly_makeDir {front : List String} {last : String} (hidle : ¬ Path.isIdle last)
    (h : t.makeDir front last = .ok t') : ChangesOnly (front ++ [last]) none t t' := by
  obtain ⟨dir, hwalk, hup, hnone, rfl⟩ := makeDir_eq_ok h
  have hne : dir ++ [last] ≠ [] := by simp
  have hself := get?_insert_self (t := t) hne .dir
  have hkeeps : Keeps t (t.insert (dir ++ [last]) .dir) :=
    keeps_insert hne .dir (by rw [hnone]; nofun)
  constructor
  · intro names entry _ hentry
    rw [get?_insert_of_ne hne .dir]
    · exact hentry
    · intro heq
      rw [heq, hnone] at hentry
      cases hentry
  · intro names entry _ hbefore hafter
    by_cases heq : names = dir ++ [last]
    · subst heq
      rw [hself] at hafter
      cases hafter
      have hreached := walk_step hidle hup (walkToDir_of_keeps hkeeps hwalk) (by rw [hself]; rfl)
      exact ⟨rfl, _, List.prefix_rfl, walkToDir_eq_ok.mpr ⟨hreached, hself⟩⟩
    · rw [get?_insert_of_ne hne .dir heq, hbefore] at hafter
      cases hafter

theorem unlessDir_tree (t : FileTree) (steps : List String) (e : SystemError) :
    (t.unlessDir steps e).2 = t := by
  rw [unlessDir]
  split <;> rfl

/-- The run: whether or not all directories can be made, those that were are on the way. -/
theorem changesOnly_makeDirsUp {up : List String} (hidle : ∀ step ∈ up, ¬ Path.isIdle step)
    (t : FileTree) : ChangesOnly up.reverse none t (t.makeDirsUp up).2 := by
  induction up with
  | nil => exact .refl [] t
  | cons last up ih =>
      have hlast := hidle last List.mem_cons_self
      have habove := ih (fun step hmem => hidle step (List.mem_cons_of_mem last hmem))
      rw [makeDirsUp, List.reverse_cons]
      split
      · rename_i made hmade
        exact changesOnly_makeDir hlast hmade
      · -- The directory above was missing: first the way to it, then this step again.
        split
        · rename_i e made hup
          rw [hup] at habove
          exact habove.further (List.prefix_append _ _)
        · rename_i made hup
          rw [hup] at habove
          split
          · rename_i made' hmade
            have hstep := changesOnly_makeDir hlast hmade
            exact habove.trans hstep hstep.keeps (List.prefix_append _ _)
          · rw [unlessDir_tree]
            exact habove.further (List.prefix_append _ _)
      · rw [unlessDir_tree]
        exact .refl _ t

theorem changesOnly_makeDirs (t : FileTree) (p : Path) :
    ChangesOnly p.steps none t (t.makeDirs p).2 := by
  have hidle : ∀ step ∈ p.steps.reverse, ¬ Path.isIdle step := by
    intro step hmem
    have hkept := (List.mem_filter.mp (List.mem_reverse.mp hmem)).2
    simpa using hkept
  have hup := changesOnly_makeDirsUp hidle t
  rwa [List.reverse_reverse] at hup

/-! ### Writing a file -/

/-- The parts of a path that does not end in a slash. -/
private theorem parts_eq_of_dropWhile {parts front : List String} {last : String}
    (h : parts.reverse.dropWhile (· = "") = last :: front) (hslash : parts.getLast? ≠ some "") :
    parts = front.reverse ++ [last] ∧ last ≠ "" := by
  cases hparts : parts.reverse with
  | nil =>
      rw [hparts] at h
      cases h
  | cons x xs =>
      have hx : x ≠ "" := by
        intro hx
        rw [← List.head?_reverse, hparts, List.head?_cons, hx] at hslash
        exact hslash rfl
      rw [hparts, List.dropWhile_cons, if_neg (by simpa using hx)] at h
      cases h
      rw [← List.reverse_reverse parts, hparts, List.reverse_cons]
      exact ⟨rfl, hx⟩

/-- A file that was written stands in a directory, and in place of no directory. -/
theorem write_eq_ok {p : Path} {content : ByteArray} (h : t.write p content = .ok t') :
    ∃ front last dir, p.text.isEmpty = false ∧ p.parts = front ++ [last] ∧
      ¬ Path.isIdle last ∧ last ≠ ".." ∧ t.walkToDir front = .ok dir ∧
      t.get? (dir ++ [last]) ≠ some .dir ∧ t' = t.insert (dir ++ [last]) (.file content) := by
  rw [write] at h
  by_cases hempty : p.text.isEmpty = true
  · rw [if_pos hempty] at h
    cases h
  · rw [if_neg hempty] at h
    split at h
    · cases h
    · rename_i last front hlast
      split at h
      · cases h
      · rename_i dir hwalk
        by_cases hdots : (p.parts.getLast? = some "" || last = "." || last = "..") = true
        · rw [if_pos hdots] at h
          cases h
        · rw [if_neg hdots] at h
          simp only [Bool.or_eq_true, decide_eq_true_eq, not_or] at hdots
          obtain ⟨⟨hslash, hdot⟩, hup⟩ := hdots
          obtain ⟨hparts, hblank⟩ := parts_eq_of_dropWhile hlast hslash
          split at h
          · cases h
          · rename_i hold
            cases h
            refine ⟨front.reverse, last, dir, by simpa using hempty, hparts, ?_, hup, hwalk, hold, rfl⟩
            simp [Path.isIdle, hblank, hdot]

/-- A file that was written can be read, and nothing else is changed or added. -/
theorem changesOnly_write {p : Path} {content : ByteArray} (h : t.write p content = .ok t') :
    Keeps t t' ∧ t'.read p = .ok content ∧ ∃ names, t'.walk [] p.parts = .ok names ∧
      t.get? names ≠ some .dir ∧ ∀ steps, ChangesOnly steps (some names) t t' := by
  obtain ⟨front, last, dir, htext, hparts, hidle, hup, hwalk, hold, rfl⟩ := write_eq_ok h
  have hne : dir ++ [last] ≠ [] := by simp
  have hself := get?_insert_self (t := t) hne (.file content)
  have hkeeps := keeps_insert hne (.file content) hold
  have hreached : (t.insert (dir ++ [last]) (.file content)).walk [] p.parts =
      .ok (dir ++ [last]) := by
    rw [hparts]
    exact walk_step hidle hup (walkToDir_of_keeps hkeeps hwalk) (by rw [hself]; rfl)
  refine ⟨hkeeps, ?_, dir ++ [last], hreached, hold, ?_⟩
  · rw [read, htext, hreached]
    simp only [hself, Bool.false_eq_true, if_false]
  · intro steps
    constructor
    · intro names entry hnot hentry
      rw [get?_insert_of_ne hne _ (fun heq => hnot (congrArg some heq.symm))]
      exact hentry
    · intro names entry hnot hnone hentry
      rw [get?_insert_of_ne hne _ (fun heq => hnot (congrArg some heq.symm)), hnone] at hentry
      cases hentry

end FileTree

end TallyLang
