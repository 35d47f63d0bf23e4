import LayeredViews.Proofs.Catalog.Located

/-!
# Walks — where a path leads below a directory

A path that goes on from the path of a directory is walked as far as the directory first, through whatever links,
and from there on through the directory's own tree (`walk_append`).  If that tree holds no link, the walk finds
what the tree has at the place of its names; if there is nothing, what it meets is the end of the tree or a file in
place of a directory (`leads_stat`).
-/

namespace LayeredViews

namespace FileTree

/-- No entry below is a link. -/
def LinkFree (t : FileTree) : Prop :=
  ∀ place target, t.get? place ≠ some (.link target)

/-- Some directory of the place is a file. -/
def Crosses (t : FileTree) (dirs : Place) : Prop :=
  ∃ upper, upper <+: dirs ∧ ∃ contents, t.get? upper = some (.file contents)

variable {t : FileTree}

theorem get?_append (t : FileTree) (place more : Place) :
    t.get? (place ++ more) = (t.get? place).bind fun sub => sub.get? more := by
  induction place generalizing t with
  | nil => simp
  | cons name rest ih =>
    cases t with
    | dir entries =>
      rw [List.cons_append, get?_dir_cons, get?_dir_cons, Option.bind_assoc]
      exact Option.bind_congr fun sub _ => ih sub
    | file contents => rfl
    | link target => rfl

theorem LinkFree.below (h : t.LinkFree) {place : Place} {sub : FileTree} (hsub : t.get? place = some sub) :
    sub.LinkFree := by
  intro more target hlink
  refine h (place ++ more) target ?_
  rw [get?_append, hsub]
  exact hlink

/-- There is nothing below a file. -/
theorem Crosses.get?_eq_none {dirs : Place} (h : t.Crosses dirs) {more : Place} (hmore : more ≠ []) :
    t.get? (dirs ++ more) = none := by
  obtain ⟨upper, ⟨lower, rfl⟩, contents, hfile⟩ := h
  obtain ⟨name, rest, hrest⟩ := List.exists_cons_of_ne_nil
    (show lower ++ more ≠ [] from fun hnil => hmore (List.append_eq_nil_iff.mp hnil).2)
  rw [List.append_assoc, hrest, get?_append, hfile]
  rfl

theorem crosses_file (contents : Contents) (dirs : Place) : (file contents).Crosses dirs :=
  ⟨[], List.nil_prefix, contents, get?_nil _⟩

theorem crosses_dir_nil (entries : List (String × FileTree)) : ¬ (dir entries).Crosses [] := by
  rintro ⟨upper, hupper, contents, hfile⟩
  obtain rfl := List.prefix_nil.mp hupper
  rw [get?_nil] at hfile
  cases hfile

/-- A place below a directory goes on in the entry of its first name. -/
theorem crosses_dir_cons (entries : List (String × FileTree)) (name : String) (rest : Place) :
    (dir entries).Crosses (name :: rest) ↔ ∃ sub, Table.find? name entries = some sub ∧ sub.Crosses rest := by
  constructor
  · rintro ⟨upper, hupper, contents, hfile⟩
    cases upper with
    | nil =>
      rw [get?_nil] at hfile
      cases hfile
    | cons first upper =>
      obtain ⟨rfl, hupper'⟩ := List.cons_prefix_cons.mp hupper
      rw [get?_dir_cons] at hfile
      obtain ⟨sub, hsub, hfile⟩ := Option.bind_eq_some_iff.mp hfile
      exact ⟨sub, hsub, upper, hupper', contents, hfile⟩
  · rintro ⟨sub, hsub, upper, hupper, contents, hfile⟩
    refine ⟨name :: upper, List.cons_prefix_cons.mpr ⟨rfl, hupper⟩, contents, ?_⟩
    rw [get?_dir_cons, hsub]
    exact hfile

end FileTree

namespace FileSystem

/-! ### Walks that go on -/

/-- Goes on with further names from where a walk ended. -/
def resume (tree : FileTree) (further : List String) (links : Nat) :
    Except ReadFault Spot → Except ReadFault Spot
  | .ok (.entry place) => walk tree links place further
  | .ok (.vacant _ _) => .error .notFound
  | .error fault => .error fault

theorem walkWith_append {tree : FileTree} {follow : Place → List String → Except ReadFault Spot}
    {further : List String} (hfurther : further ≠ []) (links : Nat) (hwalk : walk tree links = walkWith tree follow)
    (hfollow : ∀ here names, ∃ n, follow here (names ++ further) = resume tree further n (follow here names))
    (here : Place) (names : List String) :
    ∃ n, walkWith tree follow here (names ++ further) = resume tree further n (walkWith tree follow here names) := by
  induction names generalizing here with
  | nil =>
    refine ⟨links, ?_⟩
    have hhere : walkWith tree follow here [] = .ok (.entry here) := by rw [walkWith]
    rw [hhere, resume, hwalk, List.nil_append]
  | cons name rest ih =>
    have hrest : (rest ++ further).isEmpty = false := by simp [hfurther]
    rw [List.cons_append, walkWith, walkWith, hrest]
    split
    · by_cases hself : name = "."
      · rw [if_pos hself, if_pos hself]
        exact ih here
      rw [if_neg hself, if_neg hself]
      by_cases habove : name = ".."
      · rw [if_pos habove, if_pos habove]
        exact ih here.dropLast
      rw [if_neg habove, if_neg habove]
      by_cases hlong : nameLimit < name.utf8ByteSize
      · rw [if_pos hlong, if_pos hlong]
        exact ⟨links, rfl⟩
      rw [if_neg hlong, if_neg hlong]
      split
      · refine ⟨links, ?_⟩
        by_cases hlast : rest.isEmpty = true <;> simp [hlast, resume]
      · next target _ =>
        rw [← List.append_assoc]
        exact hfollow (startOf here target) (namesOf target ++ rest)
      · exact ih (here ++ [name])
    · exact ⟨links, rfl⟩

/-- A walk through further names goes on from where the first ones lead, with the links that are left. -/
theorem walk_append (tree : FileTree) {further : List String} (hfurther : further ≠ []) (links : Nat) (here : Place)
    (names : List String) :
    ∃ n, walk tree links here (names ++ further) = resume tree further n (walk tree links here names) := by
  induction links generalizing here names with
  | zero => exact walkWith_append hfurther 0 rfl (fun _ _ => ⟨0, rfl⟩) here names
  | succ links ih => exact walkWith_append hfurther (links + 1) rfl ih here names

/-! ### Entries -/

/-- The entry that a walk has come to. -/
def settle (tree : FileTree) : Except ReadFault Spot → Except ReadFault FileTree
  | .ok (.entry place) => (tree.get? place).elim (.error .notFound) .ok
  | .ok (.vacant _ _) => .error .notFound
  | .error fault => .error fault

theorem stat_eq_settle (fs : FileSystem) (path : String) : fs.stat path = settle fs.tree (fs.spot path) := by
  unfold stat resolve
  generalize fs.spot path = spot
  rcases spot with fault | place | _
  · rfl
  · dsimp only [settle]
    cases fs.tree.get? place <;> rfl
  · rfl

/-- A path that leads to an entry is one that can be walked. -/
theorem pathFault?_of_stat {fs : FileSystem} {path : String} {t : FileTree} (h : fs.stat path = .ok t) :
    pathFault? path = none := by
  rw [stat_eq_settle, spot] at h
  cases hfault : pathFault? path with
  | none => rfl
  | some fault =>
    rw [hfault] at h
    cases h

/-- What a path may lead to whose names are some directories and a file, in a tree without links. -/
inductive Leads (t : FileTree) (dirs : Place) (file : String) : Except ReadFault FileTree → Prop where
  | found {sub : FileTree} (h : t.get? (dirs ++ [file]) = some sub) : Leads t dirs file (.ok sub)
  | absent (h : t.get? (dirs ++ [file]) = none) (hdirs : ¬ t.Crosses dirs) : Leads t dirs file (.error .notFound)
  | crossing (h : t.Crosses dirs) : Leads t dirs file (.error .notDirectory)
  | tooLong : Leads t dirs file (.error .nameTooLong)

/-- Where a path leads in the entry of its first directory, it leads in the directory that has the entry. -/
theorem Leads.below {sub : FileTree} {dirs : Place} {file : String} {entry : Except ReadFault FileTree}
    (h : Leads sub dirs file entry) {entries : List (String × FileTree)} {dir : String}
    (hfind : Table.find? dir entries = some sub) : Leads (.dir entries) (dir :: dirs) file entry := by
  have hplaces : (FileTree.dir entries).get? (dir :: dirs ++ [file]) = sub.get? (dirs ++ [file]) := by
    rw [List.cons_append, FileTree.get?_dir_cons, hfind]
    rfl
  have hcrosses : (FileTree.dir entries).Crosses (dir :: dirs) ↔ sub.Crosses dirs := by
    rw [FileTree.crosses_dir_cons, hfind]
    simp
  cases h with
  | found h => exact .found (hplaces.trans h)
  | absent h hdirs => exact .absent (hplaces.trans h) (mt hcrosses.mp hdirs)
  | crossing h => exact .crossing (hcrosses.mpr h)
  | tooLong => exact .tooLong

section Below

variable {tree t : FileTree} (follow : Place → List String → Except ReadFault Spot)

/-- A walk meets a file in place of a directory, an entry of the directory that it is in, or nothing. -/
theorem walkWith_cons {place : Place} (hplace : tree.get? place = some t) (hfree : t.LinkFree) {name : String}
    (hname : IsEntryName name.toList) (rest : List String) :
    (∃ contents, t = .file contents ∧ walkWith tree follow place (name :: rest) = .error .notDirectory) ∨
      ∃ entries, t = .dir entries ∧
        (walkWith tree follow place (name :: rest) = .error .nameTooLong ∨
          (∃ sub, Table.find? name entries = some sub ∧ tree.get? (place ++ [name]) = some sub ∧ sub.LinkFree ∧
            walkWith tree follow place (name :: rest) = walkWith tree follow (place ++ [name]) rest) ∨
          Table.find? name entries = none ∧
            settle tree (walkWith tree follow place (name :: rest)) = .error .notFound) := by
  rw [walkWith, hplace]
  cases t with
  | file contents => exact Or.inl ⟨contents, rfl, rfl⟩
  | link target => exact absurd (FileTree.get?_nil _) (hfree [] target)
  | dir entries =>
    refine Or.inr ⟨entries, rfl, ?_⟩
    have hself : name ≠ "." := fun h => hname.ne_here (congrArg String.toList h)
    have habove : name ≠ ".." := fun h => hname.ne_above (congrArg String.toList h)
    dsimp only
    rw [if_neg hself, if_neg habove]
    by_cases hlong : nameLimit < name.utf8ByteSize
    · exact Or.inl (if_pos hlong)
    rw [if_neg hlong]
    refine Or.inr ?_
    have hbelow : (FileTree.dir entries).get? [name] = Table.find? name entries := by
      rw [FileTree.get?_dir_cons]
      cases Table.find? name entries with
      | none => rfl
      | some sub => exact FileTree.get?_nil sub
    cases hfind : Table.find? name entries with
    | none =>
      refine Or.inr ⟨rfl, ?_⟩
      by_cases hrest : rest.isEmpty = true <;> simp [hrest, settle]
    | some sub =>
      rw [hfind] at hbelow
      have hget : tree.get? (place ++ [name]) = some sub := by
        rw [FileTree.get?_append, hplace]
        exact hbelow
      refine Or.inl ⟨sub, rfl, hget, hfree.below hbelow, ?_⟩
      cases sub with
      | link target => exact absurd hbelow (hfree [name] target)
      | file contents => rfl
      | dir entries' => rfl

theorem leads_walkWith {place : Place} (hplace : tree.get? place = some t) (hfree : t.LinkFree) {dirs : Place}
    {file : String} (hnames : ∀ name ∈ dirs ++ [file], IsEntryName name.toList) :
    Leads t dirs file (settle tree (walkWith tree follow place (dirs ++ [file]))) := by
  induction dirs generalizing place t with
  | nil =>
    rcases walkWith_cons follow hplace hfree (hnames file (by simp)) [] with
      ⟨contents, rfl, hwalk⟩ | ⟨entries, rfl, hwalk | ⟨sub, hfind, hget, -, hwalk⟩ | ⟨hfind, hwalk⟩⟩
    · rw [List.nil_append, hwalk]
      exact .crossing (FileTree.crosses_file contents [])
    · rw [List.nil_append, hwalk]
      exact .tooLong
    · rw [List.nil_append, hwalk, walkWith, settle, hget]
      refine .found ?_
      rw [List.nil_append, FileTree.get?_dir_cons, hfind]
      exact FileTree.get?_nil sub
    · rw [List.nil_append, hwalk]
      refine .absent ?_ (FileTree.crosses_dir_nil entries)
      rw [List.nil_append, FileTree.get?_dir_cons, hfind]
      rfl
  | cons dir dirs ih =>
    obtain ⟨hdir, hothers⟩ := List.forall_mem_cons.mp hnames
    rw [List.cons_append]
    rcases walkWith_cons follow hplace hfree hdir (dirs ++ [file]) with
      ⟨contents, rfl, hwalk⟩ | ⟨entries, rfl, hwalk | ⟨sub, hfind, hget, hsub, hwalk⟩ | ⟨hfind, hwalk⟩⟩
    · rw [hwalk]
      exact .crossing (FileTree.crosses_file contents (dir :: dirs))
    · rw [hwalk]
      exact .tooLong
    · rw [hwalk]
      exact (ih hget hsub hothers).below hfind
    · rw [hwalk]
      refine .absent ?_ ?_
      · rw [List.cons_append, FileTree.get?_dir_cons, hfind]
        rfl
      · rw [FileTree.crosses_dir_cons]
        rintro ⟨sub, hsub, -⟩
        rw [hfind] at hsub
        cases hsub

theorem leads_walk {place : Place} (hplace : tree.get? place = some t) (hfree : t.LinkFree) {dirs : Place}
    {file : String} (hnames : ∀ name ∈ dirs ++ [file], IsEntryName name.toList) (links : Nat) :
    Leads t dirs file (settle tree (walk tree links place (dirs ++ [file]))) := by
  cases links with
  | zero => exact leads_walkWith _ hplace hfree hnames
  | succ links => exact leads_walkWith (walk tree links) hplace hfree hnames

end Below

/-! ### Paths below a directory -/

/-- The names that stand between the slashes of a path. -/
def innerNames (path : String) : List String :=
  (Text.words (· == '/') path.toList).map String.ofList

/-- The entry of a directory's path, or the working directory if the path is empty: where paths that go on from it
start. -/
def ground (fs : FileSystem) (root : String) : Except ReadFault FileTree :=
  fs.stat (if root = "" then "." else root)

theorem walk_nil (tree : FileTree) (links : Nat) (here : Place) : walk tree links here [] = .ok (.entry here) := by
  cases links <;> rw [walk, walkWith]

theorem walk_dot {tree : FileTree} {links : Nat} {here place : Place}
    (h : walk tree links here ["."] = .ok (.entry place)) : here = place := by
  have hwith : ∀ follow, walkWith tree follow here ["."] = .ok (.entry place) → here = place := by
    intro follow h
    rw [walkWith] at h
    split at h
    · rw [if_pos rfl, walkWith] at h
      exact Spot.entry.inj (Except.ok.inj h)
    · cases h
  cases links with
  | zero => exact hwith _ h
  | succ links => exact hwith (walk tree links) h

theorem walk_of_stat {fs : FileSystem} {path : String} {t : FileTree} (h : fs.stat path = .ok t) :
    ∃ place, walk fs.tree linkLimit (startOf fs.here path) (namesOf path) = .ok (.entry place) ∧
      fs.tree.get? place = some t := by
  rw [stat_eq_settle, spot] at h
  split at h
  · cases h
  generalize walk fs.tree linkLimit (startOf fs.here path) (namesOf path) = spot at h ⊢
  rcases spot with fault | place | _
  · cases h
  · refine ⟨place, rfl, ?_⟩
    rw [settle] at h
    cases hget : fs.tree.get? place with
    | none =>
      rw [hget] at h
      cases h
    | some sub =>
      rw [hget] at h
      rw [Except.ok.inj h]
  · cases h

theorem walk_of_ground {fs : FileSystem} {root : String} {t : FileTree} (h : fs.ground root = .ok t) :
    ∃ place, walk fs.tree linkLimit (startOf fs.here root) (innerNames root) = .ok (.entry place) ∧
      fs.tree.get? place = some t := by
  unfold ground at h
  obtain ⟨place, hwalk, hplace⟩ := walk_of_stat h
  refine ⟨place, ?_, hplace⟩
  by_cases hroot : root = ""
  · subst hroot
    obtain rfl := walk_dot hwalk
    exact walk_nil fs.tree linkLimit fs.here
  rw [if_neg hroot] at hwalk
  have hnames : namesOf root = innerNames root ++ if endsInSlash root then ["."] else [] := rfl
  by_cases hends : endsInSlash root = true
  · -- the slash at the end adds a step that stays where the walk is
    rw [hnames, if_pos hends] at hwalk
    obtain ⟨n, happend⟩ := walk_append fs.tree (List.cons_ne_nil "." []) linkLimit (startOf fs.here root)
      (innerNames root)
    rw [happend] at hwalk
    generalize walk fs.tree linkLimit (startOf fs.here root) (innerNames root) = first at hwalk ⊢
    rcases first with fault | here | _
    · cases hwalk
    · rw [walk_dot hwalk]
    · cases hwalk
  · rw [hnames, if_neg hends, List.append_nil] at hwalk
    exact hwalk

/-- What a path leads to that goes on from the path of a directory without links. -/
theorem leads_stat {fs : FileSystem} {root path : String} {t : FileTree} (hroot : fs.ground root = .ok t)
    (hfree : t.LinkFree) {dirs : Place} {file : String}
    (hpath : Descends root path ((dirs ++ [file]).map String.toList)) :
    fs.stat path = .error .nulInName ∨ Leads t dirs file (fs.stat path) := by
  have hfurther : dirs ++ [file] ≠ [] := by simp
  have hinner : innerNames path = innerNames root ++ (dirs ++ [file]) := by
    unfold innerNames
    rw [hpath.words_eq, List.map_append, List.map_map]
    simp [Function.comp_def]
  have hnames : namesOf path = innerNames root ++ (dirs ++ [file]) := by
    have hends : endsInSlash path = false := hpath.ends (by simp)
    have hpathNames : namesOf path = innerNames path ++ if endsInSlash path then ["."] else [] := rfl
    rw [hpathNames, hends, hinner]
    simp
  rw [stat_eq_settle, spot]
  have hnonempty : path.isEmpty = false := by
    rw [Bool.eq_false_iff, ne_eq, String.isEmpty_iff]
    rintro rfl
    have hnil : innerNames "" = [] := rfl
    rw [hnil] at hinner
    simp at hinner
  unfold pathFault?
  by_cases hnul : path.toList.contains '\x00' = true
  · rw [if_pos hnul]
    exact Or.inl rfl
  rw [if_neg hnul, hnonempty]
  refine Or.inr ?_
  by_cases hlong : pathLimit ≤ path.utf8ByteSize
  · rw [if_pos hlong]
    exact .tooLong
  rw [if_neg hlong]
  obtain ⟨place, hwalk, hplace⟩ := walk_of_ground hroot
  obtain ⟨n, happend⟩ := walk_append fs.tree hfurther linkLimit (startOf fs.here root) (innerNames root)
  have hleads := leads_walk hplace hfree (fun name hname => hpath.down _ (List.mem_map_of_mem hname)) n
  rw [hpath.starts, hnames, happend, hwalk]
  exact hleads

end FileSystem

/-- The path of a view's file leads where the tree has its place. -/
theorem Directory.leads_file {d : Directory} {t : FileTree} (hroot : d.files.ground d.root = .ok t)
    (hfree : t.LinkFree) {dirs : List (List Char)} {name : List Char}
    (hdirs : ∀ dir ∈ dirs, Address.isPlainSegment dir = true) (hname : Address.isPlainSegment name = true)
    {extension : String} (hslash : '/' ∉ extension.toList) :
    d.files.stat (d.fileOf (Address.within dirs name) extension) = .error .nulInName ∨
      FileSystem.Leads t (dirs.map String.ofList) (String.ofList name ++ "." ++ extension)
        (d.files.stat (d.fileOf (Address.within dirs name) extension)) := by
  have hsegments := Address.segments_of_plainSegments hdirs
  have hplain : (Address.within dirs name).isPlain = true := by
    rw [Address.isPlain_within hsegments, hname, Bool.true_and, List.all_eq_true]
    exact hdirs
  have hdescends := d.fileOf_descends hplain hslash
  rw [Address.directories_within hsegments] at hdescends
  refine FileSystem.leads_stat hroot hfree ?_
  have hnames : ((dirs.map String.ofList) ++ [String.ofList name ++ "." ++ extension]).map String.toList =
      dirs ++ [(Address.within dirs name).name.toList ++ '.' :: extension.toList] := by
    simp [Address.within, Function.comp_def]
  rw [hnames]
  exact hdescends

end LayeredViews
