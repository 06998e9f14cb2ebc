/-
# Names, paths and keywords

A name starts with a letter or an underscore and goes on with letters, digits
and underscores. A path is names with points between them. Both are read to
their end, so the text behind them must not go on with a character of theirs.

For each rule there are two statements: what it reads, and that it reads all
words of the kind.
-/
import Pseudonym.Proofs.Lists
import Pseudonym.Proofs.Peg.Reads
import Pseudonym.Proofs.Syntax.Survey
import Pseudonym.Text.Blank

namespace Pseudonym

open Peg

variable {m l : Mode} {w k : List Char} {c c' : Cursor} {ns : List (Node Rule)}

/-- An expression of the grammar takes what stands between two cursors, and leaves nodes. -/
abbrev Parses (m : Mode) (e : Expr Rule) (c c' : Cursor) (ns : List (Node Rule)) : Prop :=
  Derives grammar m (.expr e) c (some (c', ns))

/-- An expression of the grammar reads a word before a text, with blanks between its parts. -/
abbrev ReadsAs (e : Expr Rule) (w k : List Char) (P : List (Node Rule) → Prop) : Prop :=
  Reads grammar .spaced .spaced e w k P

/-! ### Characters -/

/-- Whether a name may start with a character. -/
def isNameStart (x : Char) : Bool := x.isAlpha || x == '_'

/-- Whether a name may go on with a character. -/
def isNameChar (x : Char) : Bool := x.isAlphanum || x == '_'

theorem isNameChar_of_isNameStart {x : Char} (hx : isNameStart x = true) : isNameChar x = true := by
  simp only [isNameStart, isNameChar, Char.isAlphanum, Bool.or_eq_true] at hx ⊢
  exact hx.imp_left .inl

/-- White space is no part of a name. -/
theorem isNameChar_of_isBlank {x : Char} (hx : isBlank x = true) : isNameChar x = false := by
  have hcode : x.toNat ∈ blankCodes := List.contains_iff_mem.mp hx
  have hall : ∀ n ∈ blankCodes, isNameChar (Char.ofNat n) = false := by decide
  have hchar := hall x.toNat hcode
  rwa [Char.ofNat_toNat] at hchar

theorem isBlank_of_isNameChar {x : Char} (hx : isNameChar x = true) : isBlank x = false := by
  cases hblank : isBlank x with
  | false => rfl
  | true =>
    rw [isNameChar_of_isBlank hblank] at hx
    cases hx

theorem blank_of_not_isBlank {x : Char} (hx : isBlank x = false) : grammar.blank x = false := by
  refine Bool.eq_false_iff.mpr fun hne => ?_
  have hblank : x = ' ' ∨ x = '\t' := by simpa [grammar] using hne
  rcases hblank with rfl | rfl <;> cases hx

/-! ### Where words start and end -/

/-- A word that starts with something other than white space. -/
def Solid (w : List Char) : Prop := ∃ x v, w = x :: v ∧ isBlank x = false

theorem Solid.flush (hw : Solid w) : grammar.Flush w := by
  obtain ⟨x, v, rfl, hx⟩ := hw
  intro y hy
  cases hy
  exact blank_of_not_isBlank hx

theorem Solid.append (hw : Solid w) (k : List Char) : Solid (w ++ k) := by
  obtain ⟨x, v, rfl, hx⟩ := hw
  exact ⟨x, v ++ k, rfl, hx⟩

/-- A rule reads what its body reads, and leaves a node around what that leaves. -/
theorem reads_rule (r : Rule) {P : List (Node Rule) → Prop} (hw : Solid (w ++ k))
    (h : Reads grammar ((Grammar.kind r).innerMode .spaced) .spaced (Grammar.body r) w k P) :
    ReadsAs (.call r) w k
      (Single fun n => n.rule = r ∧ P n.children) := by
  refine .call h (fun _ => hw.flush) ?_
  cases hkind : grammar.kind r <;> nofun

/-- No line ends where a word starts. -/
theorem Solid.refuses_newline (hw : Solid w) : Refuses grammar m Grammar.newline w := by
  refine .of_opening survey rfl rfl hw.flush ?_
  obtain ⟨x, v, rfl, hx⟩ := hw
  intro y hy
  cases hy
  refine Bool.eq_false_iff.mpr fun hne => ?_
  have hline : '\r' = x ∨ '\n' = x := by
    simpa [Survey.mayOpen, Grammar.newline, Grammar.lit, Expr.openings, Opening.admits] using hne
  rcases hline with rfl | rfl <;> cases hx

/-- A text that does not go on a name. -/
def EndsName (k : List Char) : Prop := ∀ x ∈ k.head?, isNameChar x = false

/-- A text that goes on neither a name nor a path nor a number. -/
def Apart (k : List Char) : Prop := ∀ x ∈ k.head?, isNameChar x = false ∧ x ≠ '.'

theorem Apart.endsName (hk : Apart k) : EndsName k := fun x hx => (hk x hx).1

theorem apart_cons {x : Char} (hx : isNameChar x = false ∧ x ≠ '.') : Apart (x :: k) := by
  intro y hy
  cases hy
  exact hx

/-! ### Names -/

/-- Whether a word is a name. -/
def isName : List Char → Bool
  | [] => false
  | x :: w => isNameStart x && w.all isNameChar

theorem solid_of_isName (hw : isName w = true) : Solid w := by
  cases w with
  | nil => cases hw
  | cons x w =>
    obtain ⟨hx, -⟩ := Bool.and_eq_true_iff.mp hw
    exact ⟨x, w, rfl, isBlank_of_isNameChar (isNameChar_of_isNameStart hx)⟩

theorem all_isNameChar_of_isName (hw : isName w = true) : w.all isNameChar = true := by
  cases w with
  | nil => rfl
  | cons x w =>
    obtain ⟨hx, hw⟩ := Bool.and_eq_true_iff.mp hw
    exact Bool.and_eq_true_iff.mpr ⟨isNameChar_of_isNameStart hx, hw⟩

theorem reads_nameChar {x : Char} (hx : isNameChar x = true) (k : List Char) :
    Reads grammar .atomic .atomic Grammar.nameChar [x] k Silent := by
  by_cases halnum : x.isAlphanum = true
  · exact .first (.one halnum nofun)
  · have hline : x = '_' := by simpa [isNameChar, halnum] using hx
    subst hline
    refine .second (fun s => .one rfl) (.word nofun)

theorem refuses_nameChar (hk : EndsName k) :
    Refuses grammar .atomic Grammar.nameChar k := by
  cases k with
  | nil => exact .alt (fun s => .one rfl) (fun s => .word rfl)
  | cons x k =>
    have hx := hk x rfl
    obtain ⟨halnum, hline⟩ := Bool.or_eq_false_iff.mp hx
    refine .alt (fun s => .one ?_) (.word ?_ nofun)
    · show (Cursor.one? Char.isAlphanum ⟨s, x :: k⟩).map _ = none
      simp [Cursor.one?, halnum]
    · rintro ⟨v, hv⟩
      cases hv
      cases hline

/-- Characters of a name are read to their end. -/
theorem reads_nameChars (hw : w.all isNameChar = true) (hk : EndsName k) :
    Reads grammar .atomic .atomic (.many Grammar.nameChar) w k Silent := by
  have hflat : (w.map fun x => [x]).flatten = w := List.flatMap_singleton' w
  rw [← hflat]
  refine (ReadsMore.silent (refuses_nameChar hk) _ ?_).many
  intro before u after hu
  have hmem : u ∈ w.map fun x => [x] := by
    rw [hu]
    exact List.mem_append_right _ List.mem_cons_self
  obtain ⟨x, hx, rfl⟩ := List.mem_map.mp hmem
  exact reads_nameChar (List.all_eq_true.mp hw x hx) _

theorem reads_identifier_body (hw : isName w = true) (hk : EndsName k) :
    Reads grammar .atomic .atomic (Grammar.body .identifier) w k Silent := by
  cases w with
  | nil => cases hw
  | cons x w =>
    obtain ⟨hx, hw⟩ := Bool.and_eq_true_iff.mp hw
    refine Reads.silent_then (w := [x]) ?_ (reads_nameChars hw hk)
    by_cases halpha : x.isAlpha = true
    · exact .first (.one halpha nofun)
    · have hline : x = '_' := by simpa [isNameStart, halpha] using hx
      subst hline
      exact .second (fun s => .one rfl) (.word nofun)

/-- Every name is read. -/
theorem reads_identifier (hw : isName w = true) (hk : EndsName k) (hm : m ≠ .atomic) :
    Reads grammar m l (.call .identifier) w k (Single (Node.Spells .identifier w)) :=
  .token (reads_identifier_body hw hk) (fun _ => ((solid_of_isName hw).append k).flush) hm

theorem endsName_of_nameChars (h : Parses .atomic (.many Grammar.nameChar) c c' ns) :
    EndsName c'.rest := by
  obtain ⟨c₀, hc₀, hnone⟩ := h.many_stops
  obtain rfl : c₀ = c' := hc₀.elim id id
  intro x hx
  refine Bool.eq_false_iff.mpr fun hname => ?_
  -- Another character of the name would have been read.
  obtain ⟨s, rest⟩ := c₀
  obtain ⟨t, rfl⟩ : ∃ t, rest = x :: t := by
    cases rest with
    | nil => cases hx
    | cons y t =>
      cases hx
      exact ⟨t, rfl⟩
  obtain ⟨c₁, ns₁, hsome, -⟩ := reads_nameChar hname t s
  cases hnone.unique hsome

theorem of_nameChars (h : Parses .atomic (.many Grammar.nameChar) c c' ns) :
    ∃ w, w.all isNameChar = true ∧ Cursor.Past w c c' := by
  refine h.of_many (fun c₁ _ => ∃ w, w.all isNameChar = true ∧ Cursor.Past w c c₁)
    ⟨[], rfl, .refl c⟩ ?_
  rintro c₁ _ c₀ c₂ _ ⟨w, hw, hpast⟩ hc₀ hround
  obtain rfl : c₀ = c₁ := hc₀.elim id id
  have hstep : ∃ x, isNameChar x = true ∧ Cursor.Past [x] c₀ c₂ := by
    rcases hround.of_alt with hone | ⟨-, hline⟩
    · obtain ⟨x, hx, hx', -⟩ := hone.of_one
      exact ⟨x, Bool.or_eq_true_iff.mpr (.inl hx), hx'⟩
    · exact ⟨'_', rfl, hline.of_word.1⟩
  obtain ⟨x, hx, hx'⟩ := hstep
  exact ⟨w ++ [x], by simp [hw, hx], hpast.trans hx'⟩

theorem of_identifier_body (h : Parses .atomic (Grammar.body .identifier) c c' ns) :
    EndsName c'.rest ∧ ∃ w, isName w = true ∧ Cursor.Past w c c' := by
  obtain ⟨c₁, before, after, hstart, hrest, -⟩ := h.of_seq
  obtain ⟨w, hw, hpast⟩ := of_nameChars hrest
  refine ⟨endsName_of_nameChars hrest, ?_⟩
  rcases hstart.of_alt with hone | ⟨-, hline⟩
  · obtain ⟨x, hx, hx', -⟩ := hone.of_one
    have hstart : isNameStart x = true := Bool.or_eq_true_iff.mpr (.inl hx)
    exact ⟨x :: w, Bool.and_eq_true_iff.mpr ⟨hstart, hw⟩, hx'.trans hpast⟩
  · exact ⟨'_' :: w, Bool.and_eq_true_iff.mpr ⟨rfl, hw⟩, hline.of_word.1.trans hpast⟩

/-- Only names are read. -/
theorem of_identifier (h : Parses m (.call .identifier) c c' ns)
    (hm : m ≠ .atomic) :
    ∃ w, isName w = true ∧ Cursor.Past w c c' ∧ Single (Node.Spells .identifier w) ns := by
  obtain ⟨children, hbody, rfl⟩ := h.of_call_node hm
  obtain ⟨-, w, hw, hpast⟩ := of_identifier_body hbody
  exact ⟨w, hw, hpast, _, rfl, rfl, Cursor.textUpTo_of_past hpast⟩

/-- A word of a name's characters that starts a text starts the name in it. -/
theorem append_of_starts {v : List Char} (hv : v.all isNameChar = true) (hk : EndsName k)
    (hpre : v <+: w ++ k) : ∃ t, w = v ++ t := by
  obtain ⟨t, ht⟩ := hpre
  rcases List.append_eq_append_iff.mp ht with ⟨u, rfl, rfl⟩ | ⟨u, rfl, rfl⟩
  · exact ⟨u, rfl⟩
  · cases u with
    | nil => exact ⟨[], by simp⟩
    | cons x u =>
      have hx : isNameChar x = true := List.all_eq_true.mp hv x (by simp)
      rw [hk x rfl] at hx
      cases hx

/-! ### Paths -/

/-- A path: names, one at least, with points between them. -/
def IsPath (w : List Char) : Prop :=
  ∃ names, names ≠ [] ∧ (∀ name ∈ names, isName name = true) ∧ w = ['.'].intercalate names

theorem solid_of_isPath (hw : IsPath w) : Solid w := by
  obtain ⟨names, hne, hnames, rfl⟩ := hw
  cases names with
  | nil => exact absurd rfl hne
  | cons first rest =>
    rw [intercalate_cons]
    exact (solid_of_isName (hnames first List.mem_cons_self)).append _

theorem reads_path_body (hw : IsPath w) (hk : Apart k) :
    Reads grammar .atomic .atomic (Grammar.body .path) w k Silent := by
  obtain ⟨names, hne, hnames, rfl⟩ := hw
  cases names with
  | nil => exact absurd rfl hne
  | cons first rest =>
    have hends : ∀ rest : List (List Char),
        EndsName ((rest.map (['.'] ++ ·)).flatten ++ k) := by
      intro rest x hx
      cases rest with
      | nil => exact (hk x hx).1
      | cons second rest =>
        cases hx
        rfl
    have hname : ∀ name ∈ first :: rest, ∀ rest : List (List Char),
        Reads grammar .atomic .atomic (.call .identifier) name
          ((rest.map (['.'] ++ ·)).flatten ++ k) Silent := fun name hname rest =>
      .hidden (reads_identifier_body (hnames name hname) (hends rest))
        (fun _ => ((solid_of_isName (hnames name hname)).append _).flush) rfl
    rw [intercalate_cons]
    refine (hname first List.mem_cons_self rest).silent_then (ReadsMore.silent ?_ _ ?_).many
    · refine .seq_first (.word ?_ nofun)
      rintro ⟨v, rfl⟩
      exact (hk '.' rfl).2 rfl
    · intro before u after hu
      obtain ⟨before', tail, rfl, -, htail⟩ := List.map_eq_append_iff.mp hu
      obtain ⟨name, after', rfl, rfl, rfl⟩ := List.map_eq_cons_iff.mp htail
      refine Reads.silent_then (.word nofun) (hname name ?_ after')
      exact List.mem_cons_of_mem _ (List.mem_append_right _ List.mem_cons_self)

/-- Every path is read. -/
theorem reads_path (hw : IsPath w) (hk : Apart k) (hm : m ≠ .atomic) :
    Reads grammar m l (.call .path) w k (Single (Node.Spells .path w)) :=
  .token (reads_path_body hw hk) (fun _ => ((solid_of_isPath hw).append k).flush) hm

/-- Only paths are read, to their end. -/
theorem of_path (h : Parses m (.call .path) c c' ns)
    (hm : m ≠ .atomic) : EndsName c'.rest ∧
    ∃ w, IsPath w ∧ Cursor.Past w c c' ∧ Single (Node.Spells .path w) ns := by
  obtain ⟨children, hbody, rfl⟩ := h.of_call_node hm
  obtain ⟨c₁, before, after, hfirst, hrest, -⟩ := hbody.of_seq
  obtain ⟨_, hfirst, -⟩ := hfirst.of_call
  obtain ⟨hends, first, hname, hpast⟩ := of_identifier_body hfirst
  have hpath : EndsName c'.rest ∧ ∃ names, names ≠ [] ∧ (∀ name ∈ names, isName name = true) ∧
      Cursor.Past (['.'].intercalate names) c c' := by
    refine hrest.of_many (fun c₁ _ => EndsName c₁.rest ∧ ∃ names, names ≠ [] ∧
      (∀ name ∈ names, isName name = true) ∧ Cursor.Past (['.'].intercalate names) c c₁)
      ⟨hends, [first], by simp, by simpa using hname, ?_⟩ ?_
    · rw [List.intercalate_singleton]
      exact hpast
    · rintro c₁ _ c₀ c₂ _ ⟨-, names, hne, hnames, hpast⟩ hc₀ hround
      obtain rfl : c₀ = c₁ := hc₀.elim id id
      obtain ⟨c₃, _, _, hpoint, hnext, -⟩ := hround.of_seq
      obtain ⟨_, hnext, -⟩ := hnext.of_call
      obtain ⟨hends, name, hname, hpast'⟩ := of_identifier_body hnext
      refine ⟨hends, names ++ [name], by simp, ?_, ?_⟩
      · intro name' hmem
        rcases List.mem_append.mp hmem with hmem | hmem
        · exact hnames name' hmem
        · obtain rfl := List.mem_singleton.mp hmem
          exact hname
      · rw [intercalate_concat _ _ _ hne]
        exact hpast.trans (hpoint.of_word.1.trans hpast')
  obtain ⟨hends, names, hne, hnames, hpast⟩ := hpath
  exact ⟨hends, _, ⟨names, hne, hnames, rfl⟩, hpast, _, rfl, rfl, Cursor.textUpTo_of_past hpast⟩

/-! ### Keywords -/

/-- A keyword is read where no longer name stands. -/
theorem reads_keyword {words : Expr Rule} (h : Reads grammar .atomic .atomic words w k Silent)
    (hk : EndsName k) : Reads grammar .atomic .atomic (Grammar.keyword words) w k Silent :=
  h.then_nothing (.notAhead (refuses_nameChar hk))

end Pseudonym
