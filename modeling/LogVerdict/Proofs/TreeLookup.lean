import LogVerdict.Attempt
import LogVerdict.FileTree
/-!
# TreeLookup — what reading from a tree gives

A look-up that fails has a code, so a check against a tree never breaks off (`FileTree.attempt_read`).  A file that is
changed by one path reads back changed by every path that leads to it, and what could be read before can be read still
(`FileTree.read_modify`).  Both rest on the single step of a walk, from a place by a name (`FileTree.step`).  A walk
arrives where its steps lead (`FileTree.walk_eq_ok_iff`), so it goes through every head of its names
(`FileTree.Arrives.through`); and a file that is put somewhere changes only the walks that would stop there
(`FileTree.Takes.walk_set`).
-/
namespace LogVerdict

theorem LookupError.code_ne_empty (e : LookupError) : e.code ≠ "" := by
  cases e <;> decide

namespace FileTree

/-! ## Failures -/

/-- **Reading from a tree gives bytes or a code.** -/
theorem read_ne_uncoded (tree : FileTree) (path : String) : tree.read path ≠ .error "" := by
  unfold read
  cases tree.fileAt path with
  | error e => exact fun h => e.code_ne_empty (Except.error.inj h)
  | ok bytes => exact nofun

/-- **A check against a tree does not break off**, whatever the tree and the command line. -/
theorem attempt_read (tree : FileTree) (setting : Setting) (argv : List String) :
    Check.attempt setting argv tree.read = .ok (Check.run setting argv tree.read) :=
  Check.attempt_eq_run fun path _ _ => tree.read_ne_uncoded path

/-! ## One step -/

/-- What a name leads to from a place. -/
inductive Step
  | fails (cause : LookupError)
  | goes (next : Location)
  | jumps (next : Location) (names : List String)
  | stops

def step (tree : FileTree) (here : Location) (name : String) : Step :=
  if tree.entryAt here ≠ some .directory then .fails .notDirectory
  else if name = "" ∨ name = "." then .goes here
  else if name = ".." then .goes here.dropLast
  else if maxName < name.utf8ByteSize then .fails .nameTooLong
  else
    match tree.entryAt (here ++ [name]) with
    | none => .stops
    | some (.link target) => .jumps (startOf here target) (names target)
    | some _ => .goes (here ++ [name])

/-- A walk is made of steps, and only a jump takes from the links that may be followed. -/
theorem walk_cons (tree : FileTree) (links : Nat) (here : Location) (name : String) (rest : List String) :
    tree.walk links here (name :: rest) =
      match tree.step here name, links with
      | .fails cause, _ => .error cause
      | .goes next, _ => tree.walk links next rest
      | .jumps _ _, 0 => .error .tooManyLinks
      | .jumps next names, links + 1 => tree.walk links next (names ++ rest)
      | .stops, _ => .ok (.absent here name rest) := by
  rw [walk]
  unfold step
  split
  · rfl
  · split
    · rfl
    · split
      · rfl
      · split
        · rfl
        · cases tree.entryAt (here ++ [name]) with
          | none => rfl
          | some entry => cases entry <;> cases links <;> rfl

theorem entryAt_of_step_stops {tree : FileTree} {here : Location} {name : String} (h : tree.step here name = .stops) :
    tree.entryAt (here ++ [name]) = none := by
  unfold step at h
  split at h
  · cases h
  · split at h
    · cases h
    · split at h
      · cases h
      · split at h
        · cases h
        · split at h
          · assumption
          · cases h
          · cases h

section Steps

variable {tree : FileTree} {here : Location} {name : String} (links : Nat) (rest : List String)

theorem walk_of_fails {cause : LookupError} (h : tree.step here name = .fails cause) :
    tree.walk links here (name :: rest) = .error cause := by rw [walk_cons, h]

theorem walk_of_goes {next : Location} (h : tree.step here name = .goes next) :
    tree.walk links here (name :: rest) = tree.walk links next rest := by rw [walk_cons, h]

theorem walk_zero_of_jumps {next : Location} {names : List String} (h : tree.step here name = .jumps next names) :
    tree.walk 0 here (name :: rest) = .error .tooManyLinks := by rw [walk_cons, h]

theorem walk_succ_of_jumps {next : Location} {names : List String} (h : tree.step here name = .jumps next names) :
    tree.walk (links + 1) here (name :: rest) = tree.walk links next (names ++ rest) := by rw [walk_cons, h]

theorem walk_of_stops (h : tree.step here name = .stops) :
    tree.walk links here (name :: rest) = .ok (.absent here name rest) := by rw [walk_cons, h]

end Steps

/-! ## Walks -/

theorem walk_nil (tree : FileTree) (links : Nat) (here : Location) : tree.walk links here [] = .ok (.found here) := by
  rw [walk]

/-- A walk of so many links at most that arrives, step by step. -/
inductive Arrives (tree : FileTree) : Nat → Location → List String → Arrival → Prop
  | nil {links : Nat} {here : Location} : Arrives tree links here [] (.found here)
  | stops {links : Nat} {here : Location} {name : String} {rest : List String} : tree.step here name = .stops →
      Arrives tree links here (name :: rest) (.absent here name rest)
  | goes {links : Nat} {here next : Location} {name : String} {rest : List String} {a : Arrival} :
      tree.step here name = .goes next → Arrives tree links next rest a → Arrives tree links here (name :: rest) a
  | jumps {links : Nat} {here next : Location} {name : String} {names rest : List String} {a : Arrival} :
      tree.step here name = .jumps next names → Arrives tree links next (names ++ rest) a →
        Arrives tree (links + 1) here (name :: rest) a

theorem arrives_of_walk {tree : FileTree} {a : Arrival} : ∀ {links : Nat} {here : Location} {todo : List String},
    tree.walk links here todo = .ok a → tree.Arrives links here todo a
  | links, here, [], h => by
    rw [walk_nil] at h
    cases h
    exact .nil
  | links, here, name :: rest, h => by
    cases hstep : tree.step here name with
    | fails cause =>
      rw [walk_of_fails _ _ hstep] at h
      cases h
    | stops =>
      rw [walk_of_stops _ _ hstep] at h
      cases h
      exact .stops hstep
    | goes next =>
      rw [walk_of_goes _ _ hstep] at h
      exact .goes hstep (arrives_of_walk h)
    | jumps next names =>
      cases links with
      | zero =>
        rw [walk_zero_of_jumps _ hstep] at h
        cases h
      | succ links =>
        rw [walk_succ_of_jumps _ _ hstep] at h
        exact .jumps hstep (arrives_of_walk h)
termination_by links _ todo => (links, todo.length)

/-- **A walk arrives where its steps lead.** -/
theorem walk_eq_ok_iff {tree : FileTree} {links : Nat} {here : Location} {todo : List String} {a : Arrival} :
    tree.walk links here todo = .ok a ↔ tree.Arrives links here todo a := by
  refine ⟨arrives_of_walk, fun h => ?_⟩
  induction h with
  | nil => exact walk_nil _ _ _
  | stops hstep => exact walk_of_stops _ _ hstep
  | goes hstep _ ih => rw [walk_of_goes _ _ hstep, ih]
  | jumps hstep _ ih => rw [walk_succ_of_jumps _ _ hstep, ih]

namespace Arrives

variable {tree : FileTree} {links : Nat} {here : Location}

/-- A walk arrives at the same place with more links to follow. -/
theorem mono {todo : List String} {a : Arrival} (h : tree.Arrives links here todo a) {links' : Nat}
    (hle : links ≤ links') : tree.Arrives links' here todo a := by
  induction h generalizing links' with
  | nil => exact .nil
  | stops hstep => exact .stops hstep
  | goes hstep _ ih => exact .goes hstep (ih hle)
  | jumps hstep _ ih =>
    obtain ⟨links', rfl⟩ := Nat.exists_eq_add_one_of_ne_zero (Nat.ne_zero_of_lt hle)
    exact .jumps hstep (ih (Nat.le_of_succ_le_succ hle))

/-- **A walk goes through every head of its names**, or stops in it. -/
theorem through {xs ys : List String} {a : Arrival} (h : tree.Arrives links here (xs ++ ys) a) :
    (∃ middle links', links' ≤ links ∧ tree.Arrives links here xs (.found middle) ∧
      tree.Arrives links' middle ys a) ∨
    ∃ directory name rest, tree.Arrives links here xs (.absent directory name rest) ∧
      a = .absent directory name (rest ++ ys) := by
  generalize htodo : xs ++ ys = todo at h
  induction h generalizing xs with
  | nil =>
    obtain ⟨rfl, rfl⟩ := List.append_eq_nil_iff.1 htodo
    exact .inl ⟨_, _, Nat.le_refl _, .nil, .nil⟩
  | stops hstep =>
    rcases List.append_eq_cons_iff.1 htodo with ⟨rfl, rfl⟩ | ⟨xs, rfl, rfl⟩
    · exact .inl ⟨_, _, Nat.le_refl _, .nil, .stops hstep⟩
    · exact .inr ⟨_, _, _, .stops hstep, rfl⟩
  | goes hstep hrest ih =>
    rcases List.append_eq_cons_iff.1 htodo with ⟨rfl, rfl⟩ | ⟨xs, rfl, rfl⟩
    · exact .inl ⟨_, _, Nat.le_refl _, .nil, .goes hstep hrest⟩
    · obtain ⟨middle, links', hle, hhead, htail⟩ | ⟨directory, name, rest, hhead, ha⟩ := ih rfl
      · exact .inl ⟨middle, links', hle, .goes hstep hhead, htail⟩
      · exact .inr ⟨directory, name, rest, .goes hstep hhead, ha⟩
  | jumps hstep hrest ih =>
    rcases List.append_eq_cons_iff.1 htodo with ⟨rfl, rfl⟩ | ⟨xs, rfl, rfl⟩
    · exact .inl ⟨_, _, Nat.le_refl _, .nil, .jumps hstep hrest⟩
    · obtain ⟨middle, links', hle, hhead, htail⟩ | ⟨directory, name, rest, hhead, ha⟩ := ih (List.append_assoc _ xs ys)
      · exact .inl ⟨middle, links', Nat.le_succ_of_le hle, .jumps hstep hhead, htail⟩
      · exact .inr ⟨directory, name, rest, .jumps hstep hhead, ha⟩

/-- A walk stops only where there is nothing. -/
theorem entryAt_of_absent {todo rest : List String} {directory : Location} {name : String}
    (h : tree.Arrives links here todo (.absent directory name rest)) : tree.entryAt (directory ++ [name]) = none := by
  generalize ha : Arrival.absent directory name rest = a at h
  induction h with
  | nil => cases ha
  | stops hstep =>
    cases ha
    exact entryAt_of_step_stops hstep
  | goes _ _ ih => exact ih ha
  | jumps _ _ ih => exact ih ha

/-- An empty name asks for a directory and stays there. -/
theorem of_empty_name {rest : List String} {a : Arrival} (h : tree.Arrives links here ("" :: rest) a) :
    tree.entryAt here = some .directory ∧ tree.Arrives links here rest a := by
  have hwalk := walk_eq_ok_iff.2 h
  by_cases hdirectory : tree.entryAt here = some .directory
  · have hstep : tree.step here "" = .goes here := by
      unfold step
      rw [if_neg (not_not_intro hdirectory), if_pos (.inl rfl)]
    rw [walk_of_goes _ _ hstep] at hwalk
    exact ⟨hdirectory, walk_eq_ok_iff.1 hwalk⟩
  · have hstep : tree.step here "" = .fails .notDirectory := if_pos hdirectory
    rw [walk_of_fails _ _ hstep] at hwalk
    cases hwalk

end Arrives

theorem enter_of_arrives {tree : FileTree} {here there : Location} {name : String}
    (h : tree.Arrives maxLinks here [name] (.found there)) : tree.enter here name = .ok (tree, there) := by
  unfold enter
  rw [walk_eq_ok_iff.2 h]
  rfl

/-- Going from name to name gets to the same place as a walk.  An empty name stays where it is. -/
theorem enterAll_of_arrives {tree : FileTree} {there : Location} :
    ∀ {names : List String} {links : Nat} {here : Location}, links ≤ maxLinks →
      tree.Arrives links here names (.found there) → tree.enterAll here (names.filter (· ≠ "")) = .ok (tree, there)
  | [], _, _, _, .nil => rfl
  | name :: rest, links, here, hle, h => by
    by_cases hempty : name = ""
    · subst hempty
      rw [List.filter_cons_of_neg (by simp)]
      exact enterAll_of_arrives hle h.of_empty_name.2
    · rw [List.filter_cons_of_pos (by simpa using hempty), enterAll]
      have hsplit : tree.Arrives links here ([name] ++ rest) (.found there) := h
      rcases hsplit.through with ⟨middle, links', hle', hhead, htail⟩ | ⟨_, _, _, -, ha⟩
      · rw [enter_of_arrives (hhead.mono hle)]
        exact enterAll_of_arrives (Nat.le_trans hle' hle) htail
      · cases ha

/-! ## Changing a file -/

/-- **A walk ends at a file**, at this location and with these bytes.  Where there is nothing, but the directory for it
is there, the file is taken for an empty one. -/
inductive Ends (tree : FileTree) : Arrival → Location → List UInt8 → Prop
  | found {location : Location} {bytes : List UInt8} : tree.entryAt location = some (.file bytes) →
      Ends tree (.found location) location bytes
  | absent {directory : Location} {name : String} : Ends tree (.absent directory name []) (directory ++ [name]) []

/-- A path leads to a file. -/
def Leads (tree : FileTree) (path : String) (location : Location) (bytes : List UInt8) : Prop :=
  ∃ a, tree.follow path = .ok a ∧ tree.Ends a location bytes

theorem arrives_of_follow {tree : FileTree} {path : String} {a : Arrival} (h : tree.follow path = .ok a) :
    tree.Arrives maxLinks (startOf tree.workingDirectory path) (names path) a := by
  unfold follow at h
  split at h
  · cases h
  · split at h
    · cases h
    · split at h
      · cases h
      · exact walk_eq_ok_iff.1 h

/-- A walk that ends at a file goes through every head of its names that leaves something over. -/
theorem Ends.through {tree : FileTree} {a : Arrival} {location : Location} {bytes : List UInt8}
    (ha : tree.Ends a location bytes) {links : Nat} {here : Location} {xs ys : List String} (hys : ys ≠ [])
    (h : tree.Arrives links here (xs ++ ys) a) :
    ∃ middle links', links' ≤ links ∧ tree.Arrives links here xs (.found middle) ∧ tree.Arrives links' middle ys a := by
  rcases h.through with hthrough | ⟨directory, name, rest, -, rfl⟩
  · exact hthrough
  · generalize hrest : rest ++ ys = left at ha
    cases ha with
    | absent => exact absurd (List.append_eq_nil_iff.1 hrest).2 hys

/-- Such a walk has a last name, which is not empty, and going by the others gets to where that name goes on. -/
theorem Ends.exists_last {tree : FileTree} {a : Arrival} {location : Location} {bytes : List UInt8}
    (ha : tree.Ends a location bytes) {here : Location} {names : List String} (hnames : names ≠ [])
    (h : tree.Arrives maxLinks here names a) :
    ∃ front last middle, names = front ++ [last] ∧ last ≠ "" ∧
      tree.enterAll here (front.filter (· ≠ "")) = .ok (tree, middle) ∧ tree.Arrives maxLinks middle [last] a := by
  obtain ⟨front, last, rfl⟩ := (List.eq_nil_or_concat names).resolve_left hnames
  rw [List.concat_eq_append] at h ⊢
  obtain ⟨middle, links, hle, hfront, hlast⟩ := ha.through (List.cons_ne_nil last []) h
  have hne : last ≠ "" := by
    rintro rfl
    obtain ⟨hdirectory, hmiddle⟩ := hlast.of_empty_name
    cases hmiddle
    cases ha with
    | found hfile => exact absurd (hdirectory.symm.trans hfile) nofun
  exact ⟨front, last, middle, rfl, hne, enterAll_of_arrives (Nat.le_refl _) hfront, hlast.mono hle⟩

theorem splitOnAux_ne_nil (s sep : String) (b i j : String.Pos.Raw) (r : List String) :
    s.splitOnAux sep b i j r ≠ [] := by
  fun_induction String.splitOnAux s sep b i j r with
  | case1 => simp
  | case2 => assumption
  | case3 => assumption
  | case4 => assumption

theorem names_ne_nil (path : String) : names path ≠ [] := by
  have hslash : ("/" == "") = false := by decide
  unfold names String.splitOn
  rw [hslash]
  exact splitOnAux_ne_nil path "/" 0 0 0 []

/-- **Changing a file puts the changed one in its place**, and makes no directory. -/
theorem modify_of_leads {tree : FileTree} {path : String} {location : Location} {bytes : List UInt8}
    (h : tree.Leads path location bytes) (f : List UInt8 → List UInt8) :
    tree.modify path f = .ok (tree.set location (.file (f bytes))) := by
  obtain ⟨a, hfollow, ha⟩ := h
  obtain ⟨front, last, middle, hnames, hlast, henter, harrives⟩ :=
    ha.exists_last (names_ne_nil path) (arrives_of_follow hfollow)
  have hall : (names path).filter (· ≠ "") = front.filter (· ≠ "") ++ [last] := by
    rw [hnames, List.filter_append, List.filter_cons_of_pos (by simpa using hlast), List.filter_nil]
  have hparent : tree.parent path = .ok (tree, middle, last) := by
    unfold parent
    simp only [hall, List.dropLast_concat, henter, List.getLastD_concat]
    rfl
  unfold modify
  simp only [hparent, walk_eq_ok_iff.2 harrives, bind, Except.bind]
  cases ha with
  | found hfile => simp only [hfile]
  | absent => rfl

/-! ## A changed tree -/

theorem entryAt_nil (tree : FileTree) : tree.entryAt [] = some .directory := if_pos rfl

theorem lookup_filter_of_ne {location l : Location} (h : l ≠ location) : ∀ (entries : List (Location × Entry)),
    (entries.filter (·.1 ≠ location)).lookup l = entries.lookup l
  | [] => rfl
  | (l', entry) :: entries => by
    by_cases hl' : l' = location
    · have hne : (l == l') = false := by simpa [hl'] using h
      rw [List.filter_cons_of_neg (by simpa using hl'), lookup_filter_of_ne h entries, List.lookup_cons, hne]
    · rw [List.filter_cons_of_pos (by simpa using hl'), List.lookup_cons, List.lookup_cons,
        lookup_filter_of_ne h entries]

theorem entryAt_set_self (tree : FileTree) {location : Location} (h : location ≠ []) (entry : Entry) :
    (tree.set location entry).entryAt location = some entry := by
  unfold entryAt set
  rw [if_neg h, List.lookup_cons_self]

theorem entryAt_set_of_ne (tree : FileTree) {location l : Location} (h : l ≠ location) (entry : Entry) :
    (tree.set location entry).entryAt l = tree.entryAt l := by
  have hne : (l == location) = false := by simpa using h
  unfold entryAt set
  simp only [List.lookup_cons, hne, lookup_filter_of_ne h]

/-- A place that takes a file: there is one, or nothing. -/
def Takes (tree : FileTree) (location : Location) : Prop :=
  tree.entryAt location = none ∨ ∃ bytes, tree.entryAt location = some (.file bytes)

theorem Takes.entryAt_ne_directory {tree : FileTree} {location : Location} (h : tree.Takes location) :
    tree.entryAt location ≠ some .directory := by
  rcases h with h | ⟨bytes, h⟩ <;> rw [h] <;> exact nofun

theorem Takes.ne_nil {tree : FileTree} {location : Location} (h : tree.Takes location) : location ≠ [] := by
  rintro rfl
  exact h.entryAt_ne_directory tree.entryAt_nil

theorem Takes.entryAt_set_eq_directory_iff {tree : FileTree} {location : Location} (h : tree.Takes location)
    (bytes : List UInt8) (l : Location) :
    (tree.set location (.file bytes)).entryAt l = some .directory ↔ tree.entryAt l = some .directory := by
  by_cases hl : l = location
  · rw [hl, entryAt_set_self _ h.ne_nil]
    exact iff_of_false nofun h.entryAt_ne_directory
  · rw [entryAt_set_of_ne _ hl]

/-- With a file put at a place, a step that stopped there goes on, and every other one is the same. -/
theorem Takes.step_set {tree : FileTree} {location : Location} (h : tree.Takes location) (bytes : List UInt8)
    (here : Location) (name : String) :
    (tree.set location (.file bytes)).step here name =
      match tree.step here name with
      | .stops => if here ++ [name] = location then .goes location else .stops
      | s => s := by
  unfold step
  simp only [ne_eq, h.entryAt_set_eq_directory_iff]
  split
  · rfl
  · split
    · rfl
    · split
      · rfl
      · split
        · rfl
        · by_cases hlocation : here ++ [name] = location
          · rw [hlocation, entryAt_set_self _ h.ne_nil]
            rcases h with h | ⟨old, h⟩
            · simp only [h, if_pos]
            · simp only [h]
          · rw [entryAt_set_of_ne _ hlocation]
            cases tree.entryAt (here ++ [name]) with
            | none => exact (if_neg hlocation).symm
            | some entry => cases entry <;> rfl

/-- Where a walk gets that stopped at a place, when a file is put there. -/
def filled (location : Location) : Arrival → Except LookupError Arrival
  | .found l => .ok (.found l)
  | .absent directory name rest =>
    if directory ++ [name] = location then if rest = [] then .ok (.found location) else .error .notDirectory
    else .ok (.absent directory name rest)

/-- **A file that is put at a place changes only the walks that would stop there.** -/
theorem Takes.walk_set {tree : FileTree} {location : Location} (h : tree.Takes location) (bytes : List UInt8) :
    ∀ (links : Nat) (here : Location) (todo : List String),
      (tree.set location (.file bytes)).walk links here todo = (tree.walk links here todo).bind (filled location)
  | links, here, [] => by
    rw [walk_nil, walk_nil]
    rfl
  | links, here, name :: rest => by
    have hstep' := h.step_set bytes here name
    cases hstep : tree.step here name with
    | fails cause =>
      rw [hstep] at hstep'
      rw [walk_of_fails _ _ hstep, walk_of_fails _ _ hstep']
      rfl
    | goes next =>
      rw [hstep] at hstep'
      rw [walk_of_goes _ _ hstep, walk_of_goes _ _ hstep']
      exact h.walk_set bytes links next rest
    | jumps next names =>
      rw [hstep] at hstep'
      cases links with
      | zero =>
        rw [walk_zero_of_jumps _ hstep, walk_zero_of_jumps _ hstep']
        rfl
      | succ links =>
        rw [walk_succ_of_jumps _ _ hstep, walk_succ_of_jumps _ _ hstep']
        exact h.walk_set bytes links next (names ++ rest)
    | stops =>
      rw [hstep] at hstep'
      rw [walk_of_stops _ _ hstep]
      by_cases hlocation : here ++ [name] = location
      · simp only [if_pos hlocation] at hstep'
        rw [walk_of_goes _ _ hstep']
        cases rest with
        | nil =>
          rw [walk_nil]
          simp [Except.bind, filled, hlocation]
        | cons name' rest =>
          have hfile : (tree.set location (.file bytes)).step location name' = .fails .notDirectory :=
            if_pos (mt (h.entryAt_set_eq_directory_iff bytes location).1 h.entryAt_ne_directory)
          rw [walk_of_fails _ _ hfile]
          simp [Except.bind, filled, hlocation]
      · simp only [if_neg hlocation] at hstep'
        rw [walk_of_stops _ _ hstep']
        simp [Except.bind, filled, hlocation]
termination_by links _ todo => (links, todo.length)

theorem Takes.follow_set {tree : FileTree} {location : Location} (h : tree.Takes location) (bytes : List UInt8)
    (path : String) :
    (tree.set location (.file bytes)).follow path = (tree.follow path).bind (filled location) := by
  unfold follow
  split
  · rfl
  · split
    · rfl
    · split
      · rfl
      · exact h.walk_set bytes _ _ _

theorem read_eq_ok_iff_fileAt {tree : FileTree} {path : String} {bytes : List UInt8} :
    tree.read path = .ok bytes ↔ tree.fileAt path = .ok bytes := by
  unfold read
  cases tree.fileAt path with
  | error e => exact iff_of_false nofun nofun
  | ok there => exact ⟨fun h => congrArg Except.ok (Except.ok.inj h), fun h => congrArg Except.ok (Except.ok.inj h)⟩

/-- What can be read stands in a file, or is what a sink gives. -/
theorem read_eq_ok_iff {tree : FileTree} {path : String} {bytes : List UInt8} :
    tree.read path = .ok bytes ↔ ∃ location, tree.follow path = .ok (.found location) ∧
      (tree.entryAt location = some (.file bytes) ∨ tree.entryAt location = some .sink ∧ bytes = []) := by
  rw [read_eq_ok_iff_fileAt]
  unfold fileAt
  cases hfollow : tree.follow path with
  | error e => exact iff_of_false nofun (by simp)
  | ok a =>
    cases a with
    | absent directory name rest => exact iff_of_false nofun (by simp)
    | found location =>
      simp only [bind, Except.bind, Except.ok.injEq, Arrival.found.injEq, exists_eq_left']
      cases tree.entryAt location with
      | none => exact iff_of_false nofun (by simp)
      | some entry => cases entry <;> simp [eq_comm]

theorem Leads.entryAt_eq {tree : FileTree} {path : String} {location : Location} {bytes : List UInt8}
    (h : tree.Leads path location bytes) :
    tree.entryAt location = none ∨ tree.entryAt location = some (.file bytes) := by
  obtain ⟨a, hfollow, ha⟩ := h
  cases ha with
  | found hfile => exact .inr hfile
  | absent => exact .inl (arrives_of_follow hfollow).entryAt_of_absent

theorem Leads.takes {tree : FileTree} {path : String} {location : Location} {bytes : List UInt8}
    (h : tree.Leads path location bytes) : tree.Takes location := h.entryAt_eq.imp_right fun hfile => ⟨bytes, hfile⟩

/-- A file that is put where a path leads is read by that path. -/
theorem Leads.read_set {tree : FileTree} {path : String} {location : Location} {bytes : List UInt8}
    (h : tree.Leads path location bytes) (bytes' : List UInt8) :
    (tree.set location (.file bytes')).read path = .ok bytes' := by
  have hfollow' := h.takes.follow_set bytes' path
  have hfile := tree.entryAt_set_self h.takes.ne_nil (.file bytes')
  obtain ⟨a, hfollow, ha⟩ := h
  refine read_eq_ok_iff.2 ⟨location, ?_, .inl hfile⟩
  rw [hfollow', hfollow]
  cases ha with
  | found => rfl
  | absent => simp [Except.bind, filled]

/-- Another path reads what it read before. -/
theorem Leads.read_set_of_not_leads {tree : FileTree} {path : String} {location : Location} {bytes : List UInt8}
    (h : tree.Leads path location bytes) (bytes' : List UInt8) {other : String}
    (hother : ¬ tree.Leads other location bytes) {there : List UInt8} (hread : tree.read other = .ok there) :
    (tree.set location (.file bytes')).read other = .ok there := by
  obtain ⟨l, hfollow, hentry⟩ := read_eq_ok_iff.1 hread
  have hne : l ≠ location := by
    rintro rfl
    rcases h.entryAt_eq with hnone | hfile
    · rw [hnone] at hentry
      exact hentry.elim nofun fun hsink => absurd hsink.1 nofun
    · exact hother ⟨_, hfollow, .found hfile⟩
  refine read_eq_ok_iff.2 ⟨l, ?_, ?_⟩
  · rw [h.takes.follow_set bytes' other, hfollow]
    rfl
  · rwa [entryAt_set_of_ne _ hne]

/-- **A changed file reads back changed** by every path that leads to it, and every other path that could be read is
read as before. -/
theorem read_modify {tree : FileTree} {path : String} {location : Location} {bytes : List UInt8}
    (h : tree.Leads path location bytes) (f : List UInt8 → List UInt8) :
    ∃ tree', tree.modify path f = .ok tree' ∧
      (∀ other, tree.Leads other location bytes → tree'.read other = .ok (f bytes)) ∧
      ∀ other there, ¬ tree.Leads other location bytes → tree.read other = .ok there → tree'.read other = .ok there :=
  ⟨_, modify_of_leads h f, fun _ hother => hother.read_set _, fun _ _ hother hread =>
    h.read_set_of_not_leads _ hother hread⟩

/-- A written file reads back its bytes, whatever was there. -/
theorem read_write {tree : FileTree} {path : String} {location : Location} {old : List UInt8}
    (h : tree.Leads path location old) (bytes : List UInt8) :
    ∃ tree', tree.write path bytes = .ok tree' ∧ tree'.read path = .ok bytes :=
  ⟨_, modify_of_leads h _, h.read_set bytes⟩

/-- Written by a link to where there is nothing yet. -/
example : (write ⟨[(["d"], .directory), (["d", "a"], .link "b")], ["d"]⟩ "a" [49]).map (·.read "b") =
    .ok (.ok [49]) := by cbv

end FileTree
end LogVerdict
