/-
# What writing a file changes

A path leads to a place, and the way there goes through directories only. So
files that are written do not change where paths lead to: of two trees with
the same directories, each has the other's places. A text that is written is
read back from its path, and from every other path that leads to the same
place; the files at all other places stay as they are.
-/
import Pseudonym.Files.Tree
import Pseudonym.Proofs.Obfuscate.Outcome

namespace Pseudonym

/-- The place of a file, or of one that could be made. -/
def FileTree.Target.place? : FileTree.Target → Option (List String)
  | .directory => none
  | .file place _ => some place
  | .free place => some place

namespace FileTree

variable {t t' : FileTree} {here there place : List String} {name path text : String}

/-! ### Files at places -/

theorem lookup_put (content : Content) (place p : List String) :
    ∀ files : List (List String × Content), (put content place files).lookup p =
      if p = place then some content else files.lookup p
  | [] => by
    by_cases h : p = place <;> simp [put, h]
  | (q, old) :: files => by
    unfold put
    by_cases hpq : p = q
    · subst hpq
      by_cases hp : p = place <;> simp [hp]
    · have hbeq : (p == q) = false := beq_false_of_ne hpq
      by_cases hq : q = place
      · have hp : p ≠ place := fun h => hpq (h.trans hq.symm)
        simp [List.lookup_cons, hq, hp, beq_false_of_ne hp]
      · simp [List.lookup_cons, hq, hbeq, lookup_put content place p files]

/-! ### Where paths lead to -/

/-- The directories are the same, and so is the working directory. -/
structure SameDirectories (t t' : FileTree) : Prop where
  here : t'.here = t.here
  directories : t'.directories = t.directories

namespace SameDirectories

theorem symm (h : t.SameDirectories t') : t'.SameDirectories t :=
  ⟨h.here.symm, h.directories.symm⟩

theorem trans {t'' : FileTree} (h : t.SameDirectories t') (h' : t'.SameDirectories t'') :
    t.SameDirectories t'' := ⟨h'.here.trans h.here, h'.directories.trans h.directories⟩

theorem isDirectory (h : t.SameDirectories t') (place : List String) :
    t'.isDirectory place = t.isDirectory place := by
  rw [FileTree.isDirectory, h.directories, FileTree.isDirectory]

theorem start (h : t.SameDirectories t') (path : String) : t'.start path = t.start path := by
  rw [FileTree.start, h.here, FileTree.start]

end SameDirectories

/-- Files make no difference to the places that a name can stand for. -/
theorem place?_look (h : t.SameDirectories t') (here : List String) (name : String) :
    (t'.look here name).map Target.place? = (t.look here name).map Target.place? := by
  unfold look
  dsimp only
  rw [h.isDirectory]
  split
  · rfl
  · split
    · rfl
    · cases t'.file? (here ++ [name]) <;> cases t.file? (here ++ [name]) <;> rfl

theorem look_directory (h : t.SameDirectories t')
    (hlook : t.look here name = .ok .directory) : t'.look here name = .ok .directory := by
  have hplace := place?_look h here name
  rw [hlook] at hplace
  cases hlook' : t'.look here name with
  | error e =>
    rw [hlook'] at hplace
    cases hplace
  | ok target =>
    rw [hlook'] at hplace
    cases target with
    | directory => rfl
    | file place content => cases hplace
    | free place => cases hplace

theorem step_of_directories (h : t.SameDirectories t')
    (hstep : t.step here name = .ok there) : t'.step here name = .ok there := by
  unfold step at hstep ⊢
  by_cases hdot : name = "."
  · rwa [if_pos hdot] at hstep ⊢
  rw [if_neg hdot] at hstep ⊢
  by_cases hdots : name = ".."
  · rwa [if_pos hdots] at hstep ⊢
  rw [if_neg hdots] at hstep ⊢
  obtain ⟨target, hlook, hthere⟩ := bind_ok hstep
  cases target with
  | directory =>
    rw [look_directory h hlook]
    exact hthere
  | file place content => cases hthere
  | free place => cases hthere

/-- The way through directories is the same with other files. -/
theorem enter_of_directories (h : t.SameDirectories t') {names : List String}
    (henter : t.enter here names = .ok there) : t'.enter here names = .ok there := by
  unfold enter at henter ⊢
  induction names generalizing here with
  | nil => exact henter
  | cons name names ih =>
    rw [List.foldlM_cons] at henter ⊢
    obtain ⟨next, hnext, hrest⟩ := bind_ok henter
    rw [step_of_directories h hnext]
    exact ih hrest

/-- What it takes for a path to lead to the place of a file. -/
theorem target_eq_ok : t.target path = .ok place ↔
    checkPath path = .ok () ∧ ∃ last here, (names path).getLast? = some last ∧
      t.enter (t.start path) (names path).dropLast = .ok here ∧
      (endsInSlash path || isDots last) = false ∧
      (t.look here last).map Target.place? = .ok (some place) := by
  unfold target
  constructor
  · intro h
    obtain ⟨⟨⟩, hcheck, h⟩ := bind_ok h
    cases hlast : (names path).getLast? with
    | none =>
      rw [hlast] at h
      cases h
    | some last =>
      rw [hlast] at h
      obtain ⟨here, henter, h⟩ := bind_ok h
      by_cases hslash : (endsInSlash path || isDots last) = true
      · rw [if_pos hslash] at h
        cases h
      · rw [if_neg hslash] at h
        obtain ⟨target, hlook, h⟩ := bind_ok h
        refine ⟨hcheck, last, here, rfl, henter, Bool.eq_false_iff.mpr hslash, ?_⟩
        rw [hlook]
        cases target <;> cases h <;> rfl
  · rintro ⟨hcheck, last, here, hlast, henter, hslash, hlook⟩
    rw [hcheck, hlast]
    show (t.enter (t.start path) (names path).dropLast >>= _) = _
    rw [henter]
    show (if (endsInSlash path || isDots last) = true then _ else _) = _
    rw [if_neg (Bool.eq_false_iff.mp hslash)]
    cases htarget : t.look here last with
    | error e =>
      rw [htarget] at hlook
      cases hlook
    | ok target =>
      rw [htarget] at hlook
      cases target <;> cases hlook <;> rfl

theorem target_of_directories (h : t.SameDirectories t')
    (htarget : t.target path = .ok place) : t'.target path = .ok place := by
  obtain ⟨hcheck, last, here, hlast, henter, hslash, hlook⟩ := target_eq_ok.mp htarget
  rw [← h.start] at henter
  rw [← place?_look h] at hlook
  exact target_eq_ok.mpr ⟨hcheck, last, here, hlast, enter_of_directories h henter, hslash, hlook⟩

/-! ### Reading -/

/-- Where a name stands for a place, it is the files that tell what is there. -/
theorem look_of_place? (h : (t.look here name).map Target.place? = .ok (some place)) :
    t.look here name = .ok (match t.file? place with
      | some content => .file place content
      | none => .free place) := by
  unfold look at h ⊢
  dsimp only at h ⊢
  split at h
  · cases h
  · rw [if_neg ‹_›]
    split at h
    · cases h
    · rw [if_neg ‹_›]
      cases hfile : t.file? (here ++ [name]) with
      | none =>
        rw [hfile] at h
        cases h
        rw [hfile]
      | some content =>
        rw [hfile] at h
        cases h
        rw [hfile]

/-- What is read from a path is what the file at its place holds. -/
theorem read_of_target (htarget : t.target path = .ok place)
    (hfile : t.file? place = some (.text text)) : t.read path = .ok text := by
  obtain ⟨hcheck, last, here, hlast, henter, hslash, hlook⟩ := target_eq_ok.mp htarget
  have hfind : t.find path = .ok (.file place (.text text)) := by
    unfold find
    rw [hcheck, hlast]
    show (t.enter (t.start path) (names path).dropLast >>= _) = _
    rw [henter]
    show (if (endsInSlash path || isDots last) = true then _ else _) = _
    rw [if_neg (Bool.eq_false_iff.mp hslash), look_of_place? hlook, hfile]
  rw [read, hfind]
  rfl

/-- There is something at a path from which a text is read. -/
theorem has_of_read (h : t.read path = .ok text) : t.has path = true := by
  obtain ⟨target, hfind, h⟩ := bind_ok h
  rw [has, hfind]
  cases target with
  | directory => rfl
  | file place content => rfl
  | free place => cases h

/-! ### Writing -/

/-- There is a path, and it does not lead to a place for a file. -/
def Blocked (t : FileTree) (path? : Option String) : Prop :=
  ∃ path, path? = some path ∧ ∀ place, t.target path ≠ .ok place

theorem Blocked.of_directories {path? : Option String} (h : t.SameDirectories t')
    (hblocked : t'.Blocked path?) : t.Blocked path? := by
  obtain ⟨path, hpath, hnone⟩ := hblocked
  exact ⟨path, hpath, fun place htarget => hnone place (target_of_directories h htarget)⟩

theorem blocked_of_write {e : FileError} (h : t.write path text = .error e) :
    t.Blocked (some path) := by
  refine ⟨path, rfl, fun place htarget => ?_⟩
  rw [write, htarget] at h
  cases h

/-- The second tree is the first one with a text in the file at a path, if there is a path. -/
structure Saved (t : FileTree) (path? : Option String) (text : String) (t' : FileTree) : Prop where
  directories : t.SameDirectories t'
  others : ∀ place, (∀ path, path? = some path → t.target path ≠ .ok place) →
    t'.file? place = t.file? place
  holds : ∀ path, path? = some path →
    ∃ place, t.target path = .ok place ∧ t'.file? place = some (.text text)

namespace Saved

theorem none (t : FileTree) (text : String) : t.Saved none text t :=
  ⟨⟨rfl, rfl⟩, fun _ _ => rfl, fun _ h => by cases h⟩

theorem of_write (h : t.write path text = .ok t') : t.Saved (some path) text t' := by
  obtain ⟨place, htarget, hwrite⟩ := bind_ok h
  cases hwrite
  have hfile : ∀ p, FileTree.file? { t with files := put (.text text) place t.files } p =
      if p = place then some (.text text) else t.file? p := fun p => lookup_put _ _ _ _
  refine ⟨⟨rfl, rfl⟩, fun p hp => ?_, fun q hq => ?_⟩
  · have hne : p ≠ place := fun heq => hp path rfl (heq ▸ htarget)
    rw [hfile, if_neg hne]
  · cases hq
    exact ⟨place, htarget, by rw [hfile, if_pos rfl]⟩

variable {path? : Option String}

theorem read (h : t.Saved path? text t') (hpath : path? = some path) : t'.read path = .ok text := by
  obtain ⟨place, htarget, hfile⟩ := h.holds path hpath
  exact read_of_target (target_of_directories h.directories htarget) hfile

end Saved

end FileTree

end Pseudonym
