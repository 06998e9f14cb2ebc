/-
# Numbers, booleans and strings

What the rules for literals read, and that they read all of it. A number is
digits with an optional sign and fraction. The text of a string is made of
pairs of a backslash with any character, and of single characters that are
neither a quote nor a backslash nor the end of a line.

A 64-bit integer is written in digits that read as this integer again.
-/
import Pseudonym.Proofs.Syntax.Names
import Pseudonym.Schema.Parser

namespace Pseudonym

open Peg

variable {m l : Mode} {w k : List Char} {c c' : Cursor} {ns : List (Node Rule)}

/-! ### Numbers -/

/-- Decimal digits, one at least. -/
def IsDigits (w : List Char) : Prop := w ≠ [] ∧ w.all Char.isDigit = true

/-- A number: digits, with a sign and a fraction or without. -/
def IsNumeral (w : List Char) : Prop :=
  ∃ sign whole fraction, (sign = [] ∨ sign = ['-']) ∧ IsDigits whole ∧
    (fraction = [] ∨ ∃ digits, IsDigits digits ∧ fraction = '.' :: digits) ∧
    w = sign ++ (whole ++ fraction)

theorem isNameChar_of_isDigit {x : Char} (hx : x.isDigit = true) : isNameChar x = true := by
  simp [isNameChar, Char.isAlphanum, hx]

theorem isDigit_of_not_isNameChar {x : Char} (hx : isNameChar x = false) : x.isDigit = false := by
  refine Bool.eq_false_iff.mpr fun hdigit => ?_
  rw [isNameChar_of_isDigit hdigit] at hx
  cases hx

theorem refuses_digit (hk : ∀ x ∈ k.head?, x.isDigit = false) :
    Refuses grammar .atomic (.one .digit) k := by
  cases k with
  | nil => exact fun s => .one rfl
  | cons x k =>
    have hx := hk x rfl
    refine fun s => .one ?_
    show (Cursor.one? Char.isDigit ⟨s, x :: k⟩).map _ = none
    simp [Cursor.one?, hx]

theorem reads_digits (hw : IsDigits w) (hk : ∀ x ∈ k.head?, x.isDigit = false) :
    Reads grammar .atomic .atomic Grammar.digits w k Silent := by
  obtain ⟨hne, hall⟩ := hw
  have hdigit : ∀ x ∈ w, ∀ k, Reads grammar .atomic .atomic (.one .digit) [x] k Silent :=
    fun x hx k => .one (List.all_eq_true.mp hall x hx) nofun
  cases w with
  | nil => exact absurd rfl hne
  | cons x w =>
    refine (hdigit x List.mem_cons_self (w ++ k)).silent_then ?_
    have hflat : (w.map fun x => [x]).flatten = w := List.flatMap_singleton' w
    rw [← hflat]
    refine (ReadsMore.silent (refuses_digit hk) _ ?_).many
    intro before u after hu
    have hmem : u ∈ w.map fun x => [x] := by
      rw [hu]
      exact List.mem_append_right _ List.mem_cons_self
    obtain ⟨y, hy, rfl⟩ := List.mem_map.mp hmem
    exact hdigit y (List.mem_cons_of_mem _ hy) _

theorem of_digits (h : Parses .atomic Grammar.digits c c' ns) :
    ∃ w, IsDigits w ∧ Cursor.Past w c c' := by
  obtain ⟨c₁, _, _, hfirst, hrest, -⟩ := h.of_seq
  obtain ⟨x, hx, hpast, -⟩ := hfirst.of_one
  have hx : x.isDigit = true := hx
  refine hrest.of_many (fun c₁ _ => ∃ w, IsDigits w ∧ Cursor.Past w c c₁)
    ⟨[x], ⟨by simp, by simpa using hx⟩, hpast⟩ ?_
  rintro c₁ _ c₀ c₂ _ ⟨w, ⟨hne, hall⟩, hpast⟩ hc₀ hround
  obtain rfl : c₀ = c₁ := hc₀.elim id id
  obtain ⟨y, hy, hpast', -⟩ := hround.of_one
  have hy : y.isDigit = true := hy
  exact ⟨w ++ [y], ⟨by simp, by simp [hall, hy]⟩, hpast.trans hpast'⟩

theorem head_of_isNumeral (hw : IsNumeral w) :
    ∃ x v, w = x :: v ∧ (x = '-' ∨ x.isDigit = true) := by
  obtain ⟨sign, whole, fraction, hsign, ⟨hne, hall⟩, -, rfl⟩ := hw
  rcases hsign with rfl | rfl
  · cases whole with
    | nil => exact absurd rfl hne
    | cons x whole => exact ⟨x, whole ++ fraction, rfl, .inr (Bool.and_eq_true_iff.mp hall).1⟩
  · exact ⟨'-', whole ++ fraction, rfl, .inl rfl⟩

theorem solid_of_isNumeral (hw : IsNumeral w) : Solid w := by
  obtain ⟨x, v, rfl, hx⟩ := head_of_isNumeral hw
  refine ⟨x, v, rfl, ?_⟩
  rcases hx with rfl | hx
  · rfl
  · exact isBlank_of_isNameChar (isNameChar_of_isDigit hx)

theorem reads_number_body (hw : IsNumeral w) (hk : Apart k) :
    Reads grammar .atomic .atomic (Grammar.body .number) w k Silent := by
  obtain ⟨sign, whole, fraction, hsign, hwhole, hfraction, rfl⟩ := hw
  have hends : ∀ x ∈ k.head?, x.isDigit = false := fun x hx =>
    isDigit_of_not_isNameChar (hk x hx).1
  have hsigned : Reads grammar .atomic .atomic (.opt (Grammar.lit "-")) sign
      (whole ++ fraction ++ k) Silent := by
    rcases hsign with rfl | rfl
    · refine .opt_none (.word ?_ nofun)
      obtain ⟨hne, hall⟩ := hwhole
      cases whole with
      | nil => exact absurd rfl hne
      | cons x whole =>
        obtain ⟨hx, -⟩ := Bool.and_eq_true_iff.mp hall
        rintro ⟨v, hv⟩
        cases hv
        cases hx
    · exact .opt (.word nofun)
  refine hsigned.silent_then ?_
  rcases hfraction with rfl | ⟨digits, hdigits, rfl⟩
  · refine (reads_digits hwhole ?_).silent_then (.opt_none (.seq_first (.word ?_ nofun)))
    · exact hends
    · rintro ⟨v, rfl⟩
      exact (hk '.' rfl).2 rfl
  · refine (reads_digits hwhole ?_).silent_then (.opt ?_)
    · intro x hx
      cases hx
      rfl
    · exact Reads.silent_then (w := ['.']) (.word nofun) (reads_digits hdigits hends)

/-- Every number is read. -/
theorem reads_number (hw : IsNumeral w) (hk : Apart k) (hm : m ≠ .atomic) :
    Reads grammar m l (.call .number) w k (Single (Node.Spells .number w)) :=
  .token (reads_number_body hw hk) (fun _ => ((solid_of_isNumeral hw).append k).flush) hm

/-- Only numbers are read. -/
theorem of_number (h : Parses m (.call .number) c c' ns)
    (hm : m ≠ .atomic) :
    ∃ w, IsNumeral w ∧ Cursor.Past w c c' ∧ Single (Node.Spells .number w) ns := by
  obtain ⟨children, hbody, rfl⟩ := h.of_call_node hm
  obtain ⟨c₁, _, _, hsign, hrest, -⟩ := hbody.of_seq
  obtain ⟨c₂, _, _, hwhole, hfraction, -⟩ := hrest.of_seq
  obtain ⟨sign, hsign, hpast₁⟩ : ∃ sign, (sign = [] ∨ sign = ['-']) ∧ Cursor.Past sign c c₁ := by
    rcases hsign.of_opt with hsign | ⟨rfl, -⟩
    · exact ⟨['-'], .inr rfl, hsign.of_word.1⟩
    · exact ⟨[], .inl rfl, .refl _⟩
  obtain ⟨whole, hwhole, hpast₂⟩ := of_digits hwhole
  obtain ⟨fraction, hfraction, hpast₃⟩ : ∃ fraction,
      (fraction = [] ∨ ∃ digits, IsDigits digits ∧ fraction = '.' :: digits) ∧
      Cursor.Past fraction c₂ c' := by
    rcases hfraction.of_opt with hfraction | ⟨rfl, -⟩
    · obtain ⟨c₃, _, _, hpoint, hdigits, -⟩ := hfraction.of_seq
      obtain ⟨digits, hdigits, hpast⟩ := of_digits hdigits
      exact ⟨_, .inr ⟨digits, hdigits, rfl⟩, hpoint.of_word.1.trans hpast⟩
    · exact ⟨[], .inl rfl, .refl _⟩
  have hpast := hpast₁.trans (hpast₂.trans hpast₃)
  exact ⟨_, ⟨sign, whole, fraction, hsign, hwhole, hfraction, rfl⟩, hpast, _, rfl, rfl,
    Cursor.textUpTo_of_past hpast⟩

theorem isDigits_toDigits (n : Nat) : IsDigits (Nat.toDigits 10 n) :=
  ⟨Nat.toDigits_ne_nil, List.all_eq_true.mpr fun _ hx =>
    Nat.isDigit_of_mem_toDigits (by decide) (by decide) hx⟩

theorem natural?_toDigits (n : Nat) : natural? (Nat.toDigits 10 n) = some n := by
  obtain ⟨hne, hall⟩ := isDigits_toDigits n
  simp [natural?, hne, hall, Nat.ofDigitChars_ten_toDigits]

/-- A whole number is written in digits that read as this number. -/
theorem wholeNumber?_toString (n : Int) :
    IsNumeral (toString n).toList ∧ wholeNumber? (toString n).toList = some n := by
  cases n with
  | ofNat n =>
    have htext : (toString (Int.ofNat n)).toList = Nat.toDigits 10 n := Nat.toList_repr
    rw [htext]
    refine ⟨⟨[], _, [], .inl rfl, isDigits_toDigits n, .inl rfl, by simp⟩, ?_⟩
    -- No digit is a minus sign.
    have hsign : ∀ digits, Nat.toDigits 10 n ≠ '-' :: digits := by
      intro digits heq
      have hdigit := Nat.isDigit_of_mem_toDigits (b := 10) (n := n) (c := '-') (by decide)
        (by decide) (by rw [heq]; exact List.mem_cons_self)
      cases hdigit
    rw [wholeNumber?, natural?_toDigits]
    · rfl
    · exact hsign
  | negSucc n =>
    have htext : (toString (Int.negSucc n)).toList = '-' :: Nat.toDigits 10 (n + 1) := by
      show ("-" ++ (n + 1).repr).toList = _
      rw [String.toList_append, Nat.toList_repr]
      rfl
    rw [htext]
    refine ⟨⟨['-'], _, [], .inr rfl, isDigits_toDigits (n + 1), .inl rfl, by simp⟩, ?_⟩
    rw [wholeNumber?, natural?_toDigits]
    rfl

/-- A 64-bit integer is written in digits that read as this integer. -/
theorem ofNumeral_toString (n : Int64) :
    IsNumeral (toString n).toList ∧ Value.ofNumeral (toString n).toList = .int n := by
  obtain ⟨hnumeral, hwhole⟩ := wholeNumber?_toString n.toInt
  have hint : int64? n.toInt = some n := by
    rw [int64?, if_pos ⟨n.minValue_le_toInt, n.toInt_le⟩, Int64.ofInt_toInt]
  refine ⟨hnumeral, ?_⟩
  have htext : (toString n).toList = (toString n.toInt).toList := rfl
  rw [Value.ofNumeral, htext, hwhole, Option.bind_some, hint]

/-! ### Booleans -/

/-- How a truth value is written. -/
def truthWord : Bool → List Char
  | true => "true".toList
  | false => "false".toList

theorem reads_boolean (truth : Bool) (hk : EndsName k) (hm : m ≠ .atomic) :
    Reads grammar m l (.call .boolean) (truthWord truth) k
      (Single (Node.Spells .boolean (truthWord truth))) := by
  refine .token (reads_keyword ?_ hk) (fun _ => ?_) hm
  · cases truth with
    | true => exact .first (.word nofun)
    | false => exact .second (.word (by rintro ⟨v, hv⟩; cases hv) nofun) (.word nofun)
  · cases truth with
    | true => exact Solid.flush ⟨'t', _, rfl, rfl⟩
    | false => exact Solid.flush ⟨'f', _, rfl, rfl⟩

theorem of_boolean (h : Parses m (.call .boolean) c c' ns)
    (hm : m ≠ .atomic) : ∃ truth, Cursor.Past (truthWord truth) c c' ∧
      Single (Node.Spells .boolean (truthWord truth)) ns := by
  obtain ⟨children, hbody, rfl⟩ := h.of_call_node hm
  obtain ⟨c₁, _, _, hword, hend, -⟩ := hbody.of_seq
  obtain ⟨-, rfl, -⟩ := hend.of_notAhead
  obtain ⟨truth, hpast⟩ : ∃ truth, Cursor.Past (truthWord truth) c c' := by
    rcases hword.of_alt with htrue | ⟨-, hfalse⟩
    · exact ⟨true, htrue.of_word.1⟩
    · exact ⟨false, hfalse.of_word.1⟩
  exact ⟨truth, hpast, _, rfl, rfl, Cursor.textUpTo_of_past hpast⟩

/-! ### Strings -/

/-- A backslash with any character, or a character that stands for itself. -/
def IsContentUnit (u : List Char) : Prop :=
  (∃ x, u = ['\\', x]) ∨ ∃ x, u = [x] ∧ x ≠ '"' ∧ x ≠ '\\' ∧ x ≠ '\n'

/-- The text of a string, escapes included. -/
def IsContent (w : List Char) : Prop :=
  ∃ units : List (List Char), (∀ u ∈ units, IsContentUnit u) ∧ w = units.flatten

/-- No line ends inside a string, nor at its end. -/
theorem head_content {units : List (List Char)} (hunits : ∀ u ∈ units, IsContentUnit u)
    (k : List Char) : (units.flatten ++ '"' :: k).head? ≠ some '\n' := by
  cases units with
  | nil => simp
  | cons u units =>
    rcases hunits u List.mem_cons_self with ⟨x, rfl⟩ | ⟨x, rfl, -, -, hx⟩
    · simp
    · simpa using hx

/-- One round of the text of a string. -/
def contentUnit : Expr Rule :=
  .alt (Grammar.all (Grammar.lit "\\") [.one .any])
    (Grammar.all (.notAhead (Grammar.first (Grammar.lit "\"") [Grammar.lit "\\", Grammar.newline]))
      [.one .any])

theorem reads_unit {u : List Char} (hu : IsContentUnit u) (hk : k.head? ≠ some '\n') :
    Reads grammar .atomic .atomic contentUnit u k Silent := by
  rcases hu with ⟨x, rfl⟩ | ⟨x, rfl, hquote, hback, hline⟩
  · exact .first (Reads.silent_then (w := ['\\']) (.word nofun) (.one rfl nofun))
  · have hword : ∀ y v, x ≠ y → ¬ y :: v <+: [x] ++ k := by
      rintro y v hne ⟨t, ht⟩
      exact hne (List.cons.inj ht).1.symm
    refine .second (.seq_first (.word (hword '\\' [] hback) nofun)) ?_
    refine Reads.silent_then (w := []) (.notAhead ?_) (.one rfl nofun)
    refine .alt (.word (hword '"' [] hquote) nofun) (.alt (.word (hword '\\' [] hback) nofun) ?_)
    refine .alt (.word ?_ nofun) (.word (hword '\n' [] hline) nofun)
    -- A carriage return ends a line only with a line feed behind it.
    rintro ⟨t, ht⟩
    have ht : ['\r', '\n'] ++ t = x :: k := ht
    cases ht
    exact hk rfl

theorem of_unit (h : Parses .atomic contentUnit c c' ns) :
    ∃ u, IsContentUnit u ∧ Cursor.Past u c c' := by
  rcases h.of_alt with hpair | ⟨-, hsingle⟩
  · obtain ⟨c₁, _, _, hback, hany, -⟩ := hpair.of_seq
    obtain ⟨x, -, hpast, -⟩ := hany.of_one
    exact ⟨['\\', x], .inl ⟨x, rfl⟩, hback.of_word.1.trans hpast⟩
  · obtain ⟨c₁, _, _, hahead, hany, -⟩ := hsingle.of_seq
    obtain ⟨hnone, rfl, -⟩ := hahead.of_notAhead
    obtain ⟨x, -, hpast, -⟩ := hany.of_one
    obtain ⟨hquote, hnone⟩ := hnone.of_alt_none
    obtain ⟨hback, hnone⟩ := hnone.of_alt_none
    obtain ⟨-, hline⟩ := hnone.of_alt_none
    have hne : ∀ y, ¬ [y] <+: c₁.rest → x ≠ y := by
      rintro y hy rfl
      exact hy ⟨c'.rest, hpast.rest.symm⟩
    exact ⟨[x], .inr ⟨x, rfl, hne _ hquote.of_word_none, hne _ hback.of_word_none,
      hne _ hline.of_word_none⟩, hpast⟩

theorem reads_units (hw : IsContent w) (k : List Char) :
    Reads grammar .atomic .atomic (.many contentUnit) w ('"' :: k) Silent := by
  obtain ⟨units, hunits, rfl⟩ := hw
  refine (ReadsMore.silent ?_ units ?_).many
  · refine .alt (.seq_first (.word (by rintro ⟨t, ht⟩; cases ht) nofun)) (.seq_first ?_)
    exact Refuses.notAhead (w := ['"']) (k := k) (l := .atomic) (.first (.word nofun))
  · intro before u after hu
    have hmem : ∀ v ∈ u :: after, v ∈ units := by
      intro v hv
      rw [hu]
      exact List.mem_append_right _ hv
    exact reads_unit (hunits u (hmem u List.mem_cons_self))
      (head_content (fun v hv => hunits v (hmem v (List.mem_cons_of_mem u hv))) k)

theorem of_units (h : Parses .atomic (.many contentUnit) c c' ns) :
    ∃ w, IsContent w ∧ Cursor.Past w c c' := by
  refine h.of_many (fun c₁ _ => ∃ w, IsContent w ∧ Cursor.Past w c c₁)
    ⟨[], ⟨[], by simp, rfl⟩, .refl c⟩ ?_
  rintro c₁ _ c₀ c₂ _ ⟨w, ⟨units, hunits, rfl⟩, hpast⟩ hc₀ hround
  obtain rfl : c₀ = c₁ := hc₀.elim id id
  obtain ⟨u, hu, hpast'⟩ := of_unit hround
  refine ⟨_, ⟨units ++ [u], ?_, rfl⟩, by simpa using hpast.trans hpast'⟩
  intro v hv
  rcases List.mem_append.mp hv with hv | hv
  · exact hunits v hv
  · obtain rfl := List.mem_singleton.mp hv
    exact hu

theorem reads_content (hw : IsContent w) (k : List Char) :
    Reads grammar .compact .compact (.call .stringContent) w ('"' :: k)
      (Single (Node.Spells .stringContent w)) :=
  .token (reads_units hw k) (fun h => by rcases h with h | h <;> cases h) nofun

/-- A string with this text. -/
def IsLiteral (w : List Char) (n : Node Rule) : Prop :=
  n.rule = .stringLiteral ∧ Single (Node.Spells .stringContent w) n.children

/-- Every string is read. -/
theorem reads_string (hw : IsContent w) (k : List Char) :
    Reads grammar m l (.call .stringLiteral) ('"' :: (w ++ ['"'])) k (Single (IsLiteral w)) := by
  refine .call (.relax ?_ l) (fun _ => Solid.flush ⟨'"', _, rfl, rfl⟩) nofun
  refine Reads.silent_then (w := ['"']) (.word nofun) ?_
  exact (reads_content hw k).then_silent (.word nofun)

/-- Only strings are read. -/
theorem of_string (h : Parses m (.call .stringLiteral) c c' ns) :
    ∃ w, IsContent w ∧ Single (IsLiteral w) ns := by
  obtain ⟨children, hbody, rfl⟩ := h.of_call_node nofun
  obtain ⟨c₁, _, _, hopen, hrest, rfl⟩ := hbody.of_seq
  obtain ⟨c₂, _, _, hcontent, hclose, rfl⟩ := hrest.of_seq
  obtain ⟨-, rfl⟩ := hopen.of_word
  obtain ⟨-, rfl⟩ := hclose.of_word
  obtain ⟨_, hunits, rfl⟩ := hcontent.of_call_node nofun
  obtain ⟨w, hw, hpast⟩ := of_units hunits
  exact ⟨w, hw, _, rfl, rfl, _, rfl, rfl, Cursor.textUpTo_of_past hpast⟩

end Pseudonym
