/-
# What a run of the command leaves

A run either fails before it has written anything, or it has obfuscated the
text that the input had when it started. What was printed and written is then
known exactly: the output and the mapping of that one obfuscation, each at its
own place, and nothing else. Only where the output cannot be written, the
mapping is there without it.

A part of a run is described by `Ends`: what holds where it ends well, and what
holds where it ends in trouble. The paths may coincide in any way. The input
is read before anything is written, so it does not matter whether it is among
the files that are. Nothing is assumed of the reader of settings and of the
writer of mappings; if the writer fails, that is before anything is written too.

Key definitions: `Ends`, `FileTree.InForce`, `FileTree.Gives`, `Desk.outcome`,
`Desk.Holds`, `Desk.Spares`.
-/
import Pseudonym.Command.Run
import Pseudonym.Proofs.Files.Places

namespace Pseudonym

variable {α β : Type} {d : Desk} {formats : Formats}

/-! ### How a part of a run ends -/

/-- Where the part ends well, `Q` holds of its result and of the desk; where it ends in trouble,
`F` holds of the trouble and of the desk. -/
structure Ends (x : ExceptT Trouble (StateM Desk) α) (d : Desk) (Q : α → Desk → Prop)
    (F : Trouble → Desk → Prop) : Prop where
  ending : match x.run.run d with
    | (.ok a, d') => Q a d'
    | (.error e, d') => F e d'

namespace Ends

variable {x : ExceptT Trouble (StateM Desk) α} {Q : α → Desk → Prop} {F F' : Trouble → Desk → Prop}

theorem pure {a : α} (h : Q a d) : Ends (pure a) d Q F := ⟨h⟩

theorem throw {e : Trouble} (h : F e d) :
    Ends (throw e : ExceptT Trouble (StateM Desk) α) d Q F := ⟨h⟩

/-- A step that cannot fail. -/
theorem lift {act : StateM Desk α} (h : Q (act.run d).1 (act.run d).2) : Ends (liftM act) d Q F :=
  ⟨h⟩

/-- One part after another. Trouble in the first one ends both. -/
theorem bind {f : α → ExceptT Trouble (StateM Desk) β} {R : β → Desk → Prop} (h : Ends x d Q F)
    (hf : ∀ a d', Q a d' → Ends (f a) d' R F) : Ends (x >>= f) d R F := by
  have hbind : (x >>= f).run.run d = match x.run.run d with
      | (.ok a, d') => (f a).run.run d'
      | (.error e, d') => (.error e, d') := by
    show (ExceptT.bindCont f (x.run.run d).1).run (x.run.run d).2 = _
    rcases x.run.run d with ⟨_ | _, d'⟩ <;> rfl
  obtain ⟨h⟩ := h
  constructor
  rw [hbind]
  generalize x.run.run d = ending at h ⊢
  rcases ending with ⟨e | a, d'⟩
  · exact h
  · exact (hf a d' h).ending

theorem mono {Q' : α → Desk → Prop} (h : Ends x d Q F) (hQ : ∀ a d', Q a d' → Q' a d')
    (hF : ∀ e d', F e d' → F' e d') : Ends x d Q' F' := by
  obtain ⟨h⟩ := h
  constructor
  generalize x.run.run d = ending at h ⊢
  rcases ending with ⟨e | a, d'⟩
  · exact hF e d' h
  · exact hQ a d' h

/-- A result that is there already, with its error as a trouble. -/
theorem orTrouble {ε : Type} {trouble : ε → Trouble} {result : Except ε α}
    (hok : ∀ a, result = .ok a → Q a d) (herror : ∀ e, result = .error e → F (trouble e) d) :
    Ends (Host.orTrouble trouble result) d Q F := by
  cases result with
  | ok a => exact ⟨hok a rfl⟩
  | error e => exact ⟨herror e rfl⟩

end Ends

/-! ### Before anything is written -/

/-- The settings for a run that starts with these files: those in the file that was named, else
those in the usual file if there is one, else the usual ones. -/
inductive FileTree.InForce (formats : Formats) (t : FileTree) : Option String → Settings → Prop
  | named {path text : String} {settings : Settings} (read : t.read path = .ok text)
    (parsed : formats.readSettings text = .ok settings) : InForce formats t (some path) settings
  | found {text : String} {settings : Settings} (read : t.read settingsFile = .ok text)
    (parsed : formats.readSettings text = .ok settings) : InForce formats t none settings
  | usual (missing : t.has settingsFile = false) : InForce formats t none .usual

theorem FileTree.InForce.unique {t : FileTree} {named : Option String} {settings settings' : Settings}
    (h : t.InForce formats named settings) (h' : t.InForce formats named settings') :
    settings = settings' := by
  have hread : ∀ {path text text' : String}, t.read path = .ok text → t.read path = .ok text' →
      formats.readSettings text = .ok settings → formats.readSettings text' = .ok settings' →
      settings = settings' := by
    intro path text text' htext htext' hparse hparse'
    cases htext.symm.trans htext'
    exact Except.ok.inj (hparse.symm.trans hparse')
  cases h with
  | named read parsed =>
    cases h' with
    | named read' parsed' => exact hread read read' parsed parsed'
  | found read parsed =>
    cases h' with
    | found read' parsed' => exact hread read read' parsed parsed'
    | usual missing => exact absurd (FileTree.has_of_read read) (Bool.eq_false_iff.mp missing)
  | usual missing =>
    cases h' with
    | found read' parsed' => exact absurd (FileTree.has_of_read read') (Bool.eq_false_iff.mp missing)
    | usual missing' => rfl

theorem ends_loadSettings (path : String) : Ends (Desk.host.loadSettings formats path) d
    (fun settings d' => d' = d ∧ ∃ text, d.tree.read path = .ok text ∧
      formats.readSettings text = .ok settings)
    fun _ d' => d' = d ∧ ∀ text settings, d.tree.read path = .ok text →
      formats.readSettings text ≠ .ok settings := by
  unfold Host.loadSettings
  apply Ends.bind (Q := fun result d' => d' = d ∧ result = d.tree.read path)
  · exact Ends.lift ⟨rfl, rfl⟩
  rintro _ d' ⟨rfl, rfl⟩
  apply Ends.bind (Q := fun text d'' => d'' = d' ∧ d'.tree.read path = .ok text)
  · refine Ends.orTrouble (fun text htext => ⟨rfl, htext⟩) fun e he => ⟨rfl, ?_⟩
    intro text settings htext
    rw [he] at htext
    cases htext
  rintro text d' ⟨rfl, hread⟩
  refine Ends.orTrouble (fun settings hparse => ⟨rfl, text, hread, hparse⟩) fun e he => ⟨rfl, ?_⟩
  intro text' settings htext hparse
  cases hread.symm.trans htext
  rw [he] at hparse
  cases hparse

theorem ends_settings (named : Option String) : Ends (Desk.host.settings formats named) d
    (fun settings d' => d' = d ∧ d.tree.InForce formats named settings)
    fun _ d' => d' = d ∧ ∀ settings, ¬d.tree.InForce formats named settings := by
  unfold Host.settings
  cases named with
  | some path =>
    apply Ends.bind (Q := fun there d' => d' = d ∧ there = d.tree.has path)
    · exact Ends.lift ⟨rfl, rfl⟩
    rintro there d' ⟨rfl, hthere⟩
    cases there with
    | false =>
      refine Ends.throw ⟨rfl, ?_⟩
      rintro settings ⟨hread, -⟩
      rw [FileTree.has_of_read hread] at hthere
      cases hthere
    | true =>
      refine (ends_loadSettings path).mono ?_ ?_
      · rintro settings _ ⟨rfl, text, hread, hparse⟩
        exact ⟨rfl, .named hread hparse⟩
      · rintro trouble _ ⟨rfl, hnone⟩
        refine ⟨rfl, ?_⟩
        rintro settings ⟨hread, hparse⟩
        exact hnone _ settings hread hparse
  | none =>
    apply Ends.bind (Q := fun there d' => d' = d ∧ there = d.tree.has settingsFile)
    · exact Ends.lift ⟨rfl, rfl⟩
    rintro there d' ⟨rfl, hthere⟩
    cases there with
    | false => exact Ends.pure ⟨rfl, .usual hthere.symm⟩
    | true =>
      refine (ends_loadSettings settingsFile).mono ?_ ?_
      · rintro settings _ ⟨rfl, text, hread, hparse⟩
        exact ⟨rfl, .found hread hparse⟩
      · rintro trouble _ ⟨rfl, hnone⟩
        refine ⟨rfl, ?_⟩
        intro settings hsettings
        cases hsettings with
        | found hread hparse => exact hnone _ settings hread hparse
        | usual hmissing =>
          rw [hmissing] at hthere
          cases hthere

/-! ### Writing -/

/-- Whether a trouble is one with a file that is no file of settings. -/
def Trouble.isFile : Trouble → Bool
  | .file _ => true
  | _ => false

/-- The same files, and the same results printed. Reports may have been added. -/
structure Desk.Same (d d' : Desk) : Prop where
  tree : d'.tree = d.tree
  printed : d'.printed = d.printed

theorem ends_status {F : Trouble → Desk → Prop} (s : Status) (text : String) :
    Ends (liftM (Desk.host.status s text)) d (fun _ d' => d.Same d') F := Ends.lift ⟨rfl, rfl⟩

theorem Desk.write_error {path text : String} {e : FileError}
    (h : d.tree.write path text = .error e) : (Desk.host.write path text).run d = (.error e, d) := by
  simp only [Desk.host, StateT.run_bind, StateT.run_get, pure_bind, h]
  rfl

theorem Desk.write_ok {path text : String} {tree : FileTree}
    (h : d.tree.write path text = .ok tree) :
    (Desk.host.write path text).run d = (.ok (), { d with tree }) := by
  simp only [Desk.host, StateT.run_bind, StateT.run_get, pure_bind, h]
  rfl

/-- A text is written, or the trouble is with the file and nothing is changed. -/
theorem ends_save (path text : String) : Ends (Desk.host.save path text) d
    (fun _ d' => d.tree.Saved (some path) text d'.tree ∧ d'.printed = d.printed)
    fun trouble d' => trouble.isFile = true ∧ d.Same d' ∧ d.tree.Blocked (some path) := by
  unfold Host.save
  apply Ends.bind (Q := fun result d' =>
    (∀ a, result = .ok a → d.tree.Saved (some path) text d'.tree ∧ d'.printed = d.printed) ∧
    ∀ e, result = .error e → d.Same d' ∧ d.tree.Blocked (some path))
  · apply Ends.lift
    cases hwrite : d.tree.write path text with
    | error e =>
      rw [Desk.write_error hwrite]
      refine ⟨?_, fun _ _ => ⟨⟨rfl, rfl⟩, FileTree.blocked_of_write hwrite⟩⟩
      rintro a ⟨⟩
    | ok tree =>
      rw [Desk.write_ok hwrite]
      refine ⟨fun _ _ => ⟨.of_write hwrite, rfl⟩, ?_⟩
      rintro e ⟨⟩
  · rintro result d' ⟨hok, herror⟩
    exact Ends.orTrouble hok fun e he => ⟨rfl, herror e he⟩

/-- The text that a mapping is made, if it is wanted. -/
def Formats.Writes (formats : Formats) (path? : Option String) (r : Registry) (text : String) : Prop :=
  path?.isSome = true → formats.writeMapping r.mapping = .ok text

/-- A mapping is wanted that cannot be made a text. -/
def Formats.Refuses (formats : Formats) (path? : Option String) (r : Registry) : Prop :=
  path?.isSome = true ∧ ∃ words, formats.writeMapping r.mapping = .error words

theorem ends_saveMapping (path? : Option String) (r : Registry) :
    Ends (Desk.host.saveMapping formats path? r) d
      (fun _ d' => ∃ text, formats.Writes path? r text ∧ d.tree.Saved path? text d'.tree ∧
        d'.printed = d.printed)
      fun trouble d' => d.Same d' ∧
        (formats.Refuses path? r ∨ trouble.isFile = true ∧ d.tree.Blocked path?) := by
  unfold Host.saveMapping
  cases path? with
  | none => exact Ends.pure ⟨"", nofun, .none _ _, rfl⟩
  | some path =>
    apply Ends.bind (Q := fun text d' => d' = d ∧ formats.writeMapping r.mapping = .ok text)
    · exact Ends.orTrouble (fun text htext => ⟨rfl, htext⟩)
        fun words hwords => ⟨⟨rfl, rfl⟩, .inl ⟨rfl, words, hwords⟩⟩
    rintro text d' ⟨rfl, htext⟩
    refine Ends.bind ((ends_save path text).mono (fun _ _ => id) ?_) ?_
    · rintro trouble d₁ ⟨hfile, hsame, hblocked⟩
      exact ⟨hsame, .inr ⟨hfile, hblocked⟩⟩
    rintro _ d₁ ⟨hsaved, hprinted⟩
    refine (ends_status .info _).mono ?_ fun _ _ => id
    rintro _ d₂ ⟨htree, hprinted'⟩
    exact ⟨text, fun _ => htext, htree ▸ hsaved, hprinted'.trans hprinted⟩

/-- The output is written where there is a file for it, and printed where there is none. -/
theorem ends_saveOutput (path? : Option String) (output : String) :
    Ends (Desk.host.saveOutput path? output) d
      (fun _ d' => d.tree.Saved path? output d'.tree ∧
        d'.printed = d.printed ++ if path?.isSome then "" else output)
      fun trouble d' => trouble.isFile = true ∧ d.Same d' ∧ d.tree.Blocked path? := by
  unfold Host.saveOutput
  cases path? with
  | none => exact Ends.lift ⟨.none _ _, rfl⟩
  | some path =>
    -- A file that is there already makes one more report, and no other difference.
    have hwrite : ∀ d₁, d.Same d₁ → Ends (do
        Desk.host.save path output
        Desk.host.status .success ("Wrote to " ++ path)) d₁
        (fun _ d' => d.tree.Saved (some path) output d'.tree ∧ d'.printed = d.printed ++ "")
        fun trouble d' => trouble.isFile = true ∧ d.Same d' ∧ d.tree.Blocked (some path) := by
      rintro d₁ ⟨htree, hprinted⟩
      rw [← htree, ← hprinted]
      refine Ends.bind ((ends_save path output).mono (fun _ _ => id) ?_) ?_
      · rintro trouble d₂ ⟨hfile, hsame, hblocked⟩
        exact ⟨hfile, ⟨hsame.tree.trans htree, hsame.printed.trans hprinted⟩, hblocked⟩
      · rintro _ d₂ ⟨hsaved, hprinted₂⟩
        refine (ends_status .success _).mono ?_ fun _ _ => id
        rintro _ d₃ ⟨htree₃, hprinted₃⟩
        refine ⟨htree₃ ▸ hsaved, ?_⟩
        rw [hprinted₃, hprinted₂, String.append_empty]
    apply Ends.bind (Q := fun _ d' => d' = d)
    · exact Ends.lift rfl
    rintro there d₁ rfl
    cases there with
    | false => exact hwrite d₁ ⟨rfl, rfl⟩
    | true => exact Ends.bind (ends_status .warning _) fun _ d₂ hsame => hwrite d₂ hsame

/-! ### A run -/

/-- How the command ends on a tree of files, and what it leaves. -/
def Desk.outcome (formats : Formats) (o : Options) (tree : FileTree) :
    Except Trouble Unit × Desk :=
  (Desk.host.obfuscate formats o).run.run (.new tree)

/-- What is on the desk when the command has obfuscated a text: output and mapping are in the
files that were asked for, or the output was printed, and nothing else differs. Where both go to
the same place it is the output that is there. -/
structure Desk.Holds (o : Options) (tree : FileTree) (output mapping : String) (desk : Desk) :
    Prop where
  printed : desk.printed = if o.output.isSome then "" else output
  output : ∀ path, o.output = some path → desk.tree.read path = .ok output
  mapping : ∀ path, o.mapping = some path →
    (∀ out, o.output = some out → tree.target out ≠ tree.target path) →
    desk.tree.read path = .ok mapping
  directories : tree.SameDirectories desk.tree
  others : ∀ place, (∀ path, o.mapping = some path ∨ o.output = some path →
    tree.target path ≠ .ok place) → desk.tree.file? place = tree.file? place

/-- One file is written after the other. -/
theorem Desk.holds_of_saved {o : Options} {tree tree' : FileTree} {desk : Desk}
    {output mapping : String} (hmapping : tree.Saved o.mapping mapping tree')
    (houtput : tree'.Saved o.output output desk.tree)
    (hprinted : desk.printed = if o.output.isSome then "" else output) :
    desk.Holds o tree output mapping := by
  have hback : ∀ {path place}, tree'.target path = .ok place → tree.target path = .ok place :=
    FileTree.target_of_directories hmapping.directories.symm
  refine ⟨hprinted, fun path => houtput.read, fun path hpath hother => ?_,
    hmapping.directories.trans houtput.directories, fun place hplace => ?_⟩
  · obtain ⟨place, htarget, hfile⟩ := hmapping.holds path hpath
    have hkept : desk.tree.file? place = tree'.file? place := by
      apply houtput.others
      intro out hout htarget'
      exact hother out hout ((hback htarget').trans htarget.symm)
    apply FileTree.read_of_target
    · apply FileTree.target_of_directories houtput.directories
      exact FileTree.target_of_directories hmapping.directories htarget
    · rw [hkept, hfile]
  · calc desk.tree.file? place
      _ = tree'.file? place :=
        houtput.others place fun out hout htarget => hplace out (.inr hout) (hback htarget)
      _ = tree.file? place :=
        hmapping.others place fun path hpath => hplace path (.inl hpath)

/-- What the input is obfuscated to, with the numbering in the options, else in the settings. -/
def FileTree.Gives (formats : Formats) (tree : FileTree) (o : Options) (output : String)
    (r : Registry) : Prop :=
  ∃ settings text, tree.InForce formats o.config settings ∧ tree.read o.input = .ok text ∧
    obfuscate (o.numbering.getD settings.numbering) text = .ok (output, r)

/-- The input gives one output. -/
theorem FileTree.Gives.of_read {tree : FileTree} {o : Options} {settings : Settings} {text : String}
    {output : String} {r : Registry} (h : tree.Gives formats o output r)
    (hsettings : tree.InForce formats o.config settings) (hread : tree.read o.input = .ok text) :
    obfuscate (o.numbering.getD settings.numbering) text = .ok (output, r) := by
  obtain ⟨settings', text', hsettings', hread', hobfuscate⟩ := h
  rw [hread] at hread'
  cases hread'
  rwa [hsettings.unique hsettings']

/-- The desk after a run that ended well: the output of the input, and its mapping as a text. -/
def Desk.Done (formats : Formats) (o : Options) (tree : FileTree) (desk : Desk) : Prop :=
  ∃ output r mapping, tree.Gives formats o output r ∧ formats.Writes o.mapping r mapping ∧
    desk.Holds o tree output mapping

/-- The desk after a run that ended in trouble: nothing is printed, and the files are as they
were, unless there is no place for the output; then the mapping is there without it. Either the
input gives no output, or its mapping cannot be made a text, or there is no place for a file that
was to be written. -/
structure Desk.Spares (formats : Formats) (o : Options) (tree : FileTree) (trouble : Trouble)
    (desk : Desk) : Prop where
  printed : desk.printed = ""
  files : desk.tree = tree ∨ trouble.isFile = true ∧ tree.Blocked o.output ∧
    ∃ output r mapping, tree.Gives formats o output r ∧ formats.Writes o.mapping r mapping ∧
      tree.Saved o.mapping mapping desk.tree
  reason : (∀ output r, ¬tree.Gives formats o output r) ∨
    (∃ output r, tree.Gives formats o output r ∧ formats.Refuses o.mapping r) ∨
    trouble.isFile = true ∧ (tree.Blocked o.mapping ∨ tree.Blocked o.output)

/-- Before anything is written. -/
theorem Desk.Spares.of_same {o : Options} {tree : FileTree} {trouble : Trouble} {desk : Desk}
    (h : (Desk.new tree).Same desk) (hnone : ∀ output r, ¬tree.Gives formats o output r) :
    desk.Spares formats o tree trouble := ⟨h.printed, .inl h.tree, .inl hnone⟩

/-- From the reading of the input on. -/
theorem ends_reading {o : Options} {tree : FileTree} {settings : Settings}
    (hsettings : tree.InForce formats o.config settings) (hsame : (Desk.new tree).Same d) :
    Ends (do
      let text ← Host.orTrouble .file (← Desk.host.read o.input)
      let (output, r) ← Host.orTrouble .obfuscation
        (obfuscate (o.numbering.getD settings.numbering) text)
      Desk.host.saveMapping formats o.mapping r
      Desk.host.saveOutput o.output output) d
    (fun _ desk => desk.Done formats o tree)
    fun trouble desk => desk.Spares formats o tree trouble := by
  have htree : d.tree = tree := hsame.tree
  have hprinted : d.printed = "" := hsame.printed
  apply Ends.bind (Q := fun result d' => d' = d ∧ result = tree.read o.input)
  · exact Ends.lift ⟨rfl, congrArg (FileTree.read · o.input) htree⟩
  rintro _ d₁ ⟨rfl, rfl⟩
  apply Ends.bind (Q := fun text d' => d' = d₁ ∧ tree.read o.input = .ok text)
  · refine Ends.orTrouble (fun text htext => ⟨rfl, htext⟩) fun e he => .of_same hsame ?_
    rintro output r ⟨settings, text, -, hread, -⟩
    rw [he] at hread
    cases hread
  rintro text d₁ ⟨rfl, hread⟩
  apply Ends.bind (Q := fun result d' => d' = d₁ ∧
    obfuscate (o.numbering.getD settings.numbering) text = .ok result)
  · refine Ends.orTrouble (fun result hresult => ⟨rfl, hresult⟩) fun e he => .of_same hsame ?_
    intro output r hgives
    have hok := hgives.of_read hsettings hread
    rw [he] at hok
    cases hok
  rintro ⟨output, r⟩ d₁ ⟨rfl, hobfuscate⟩
  have hgives : tree.Gives formats o output r := ⟨settings, text, hsettings, hread, hobfuscate⟩
  -- From here on a trouble is one with a file that is written.
  refine Ends.bind ((ends_saveMapping o.mapping r).mono (fun _ _ => id) ?_) ?_
  · rintro trouble d₂ ⟨hsame, hreason⟩
    rw [htree] at hreason
    refine ⟨hsame.printed.trans hprinted, .inl (hsame.tree.trans htree), .inr ?_⟩
    rcases hreason with hrefuses | ⟨hfile, hblocked⟩
    · exact .inl ⟨output, r, hgives, hrefuses⟩
    · exact .inr ⟨hfile, .inl hblocked⟩
  rintro _ d₂ ⟨mapping, hwrites, hmapping, hprinted₂⟩
  rw [htree] at hmapping
  refine (ends_saveOutput o.output output).mono ?_ ?_
  · rintro _ desk ⟨houtput, hprinted₃⟩
    refine ⟨output, r, mapping, hgives, hwrites, Desk.holds_of_saved hmapping houtput ?_⟩
    rw [hprinted₃, hprinted₂, hprinted]
    exact String.empty_append
  · rintro trouble d₃ ⟨hfile, hsame, hblocked⟩
    have hblocked : tree.Blocked o.output := hblocked.of_directories hmapping.directories
    refine ⟨hsame.printed.trans (hprinted₂.trans hprinted), .inr ⟨hfile, hblocked, ?_⟩,
      .inr (.inr ⟨hfile, .inr hblocked⟩)⟩
    rw [hsame.tree]
    exact ⟨output, r, mapping, hgives, hwrites, hmapping⟩

theorem ends_obfuscate (formats : Formats) (o : Options) (tree : FileTree) :
    Ends (Desk.host.obfuscate formats o) (.new tree) (fun _ desk => desk.Done formats o tree)
      fun trouble desk => desk.Spares formats o tree trouble := by
  unfold Host.obfuscate
  apply Ends.bind (Q := fun there d => d = .new tree ∧ there = tree.has o.input)
  · exact Ends.lift ⟨rfl, rfl⟩
  rintro there _ ⟨rfl, hthere⟩
  cases there with
  | false =>
    refine Ends.bind (Ends.throw (.of_same ⟨rfl, rfl⟩ ?_)) fun _ _ => False.elim
    rintro output r ⟨settings, text, -, hread, -⟩
    rw [FileTree.has_of_read hread] at hthere
    cases hthere
  | true =>
    refine Ends.bind ((ends_settings o.config).mono (fun _ _ => id) ?_) ?_
    · rintro trouble _ ⟨rfl, hnone⟩
      refine .of_same ⟨rfl, rfl⟩ ?_
      rintro output r ⟨settings, text, hsettings, -⟩
      exact hnone settings hsettings
    rintro settings _ ⟨rfl, hsettings⟩
    by_cases houtput : o.output.isSome = true
    · rw [if_pos houtput]
      exact Ends.bind (ends_status .info _) fun _ d hsame => ends_reading hsettings hsame
    · rw [if_neg houtput]
      exact ends_reading hsettings ⟨rfl, rfl⟩

/-- A trouble is reported, and makes the exit code 1. -/
theorem Desk.run_obfuscate (formats : Formats) (o : Options) (tree : FileTree) :
    Desk.run formats (.obfuscate o) tree = match Desk.outcome formats o tree with
      | (.ok (), desk) => (0, desk)
      | (.error trouble, desk) =>
        (1, { desk with reported := desk.reported ++ Status.error.line trouble.message }) := by
  unfold Desk.run Host.run Desk.outcome
  rw [StateT.run_bind, Host.perform]
  rcases (Desk.host.obfuscate formats o).run.run (.new tree) with ⟨_ | _, desk⟩ <;> rfl

/-- A run that ends well leaves the output and the mapping of the text that the input had at its
start, and touches nothing else. A run that ends in trouble prints nothing, and leaves all files
as they were unless it is the output that could not be written. It does so only if there is no
output, or no text for the mapping, or no place for a file. So it is whatever settings are read
from and whatever mappings are made. -/
theorem Desk.outcome_obfuscate (formats : Formats) (o : Options) (tree : FileTree) :
    match Desk.outcome formats o tree with
    | (.ok (), desk) => Desk.run formats (.obfuscate o) tree = (0, desk) ∧
      desk.Done formats o tree
    | (.error trouble, desk) => Desk.run formats (.obfuscate o) tree =
        (1, { desk with reported := desk.reported ++ Status.error.line trouble.message }) ∧
      desk.Spares formats o tree trouble := by
  have hrun := Desk.run_obfuscate formats o tree
  obtain ⟨hends⟩ := ends_obfuscate formats o tree
  unfold Desk.outcome at hrun ⊢
  generalize (Desk.host.obfuscate formats o).run.run (.new tree) = ending at hrun hends ⊢
  rcases ending with ⟨trouble | _, desk⟩
  · exact ⟨hrun, hends⟩
  · exact ⟨hrun, hends⟩

end Pseudonym
