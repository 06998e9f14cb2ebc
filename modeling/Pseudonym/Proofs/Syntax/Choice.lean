/-
# Which rule reads a value

The rules for values are tried in order, so a value is read by its own rule
only where the rules before it fail. Most of them fail at the first character.
A path is no call where no parenthesis follows it, and no truth value when its
first name is none.
-/
import Pseudonym.Proofs.Peg.Running
import Pseudonym.Proofs.Syntax.Items
import Pseudonym.Proofs.Syntax.WellSpelled

namespace Pseudonym

open Peg

variable {m l : Mode} {w k : List Char} {e : Expr Rule}

/-! ### Refusals at the start of a value -/

theorem refuses_at {x : Char} (hs : e.steady survey.empty = true)
    (he : e.mayBeEmpty survey.empty = false) (hx : isBlank x = false)
    (hopen : survey.mayOpen e x = false) : Refuses grammar m e (x :: k) := by
  refine .of_opening survey hs he (Solid.flush ⟨x, k, rfl, hx⟩) ?_
  intro y hy
  cases hy
  exact hopen

theorem refuses_arguments (hk : k.head? ≠ some '(') :
    Refuses grammar .compact (.call .arguments) k := by
  intro s
  refine .call (y := none) (.seqFails (.word ?_)) rfl
  show (Cursor.word? "(".toList ⟨s, k⟩).map (·, []) = none
  cases h : Cursor.word? "(".toList ⟨s, k⟩ with
  | none => rfl
  | some c =>
    have hrest : k = '(' :: c.rest := (Cursor.word?_eq_some_iff.mp h).rest
    exact absurd (by rw [hrest]; rfl) hk

/-- A path that no parenthesis follows is no call. -/
theorem refuses_functionCall (hw : IsPath w) (hk : Apart k) (hparen : k.head? ≠ some '(') :
    Refuses grammar m (.call .functionCall) (w ++ k) :=
  .call (.seq_second (reads_path hw hk nofun) (refuses_arguments hparen))
    fun _ => ((solid_of_isPath hw).append k).flush

/-- A longer name than a truth value is none. -/
theorem refuses_boolean (hw : isName w = true) (htrue : w ≠ "true".toList)
    (hfalse : w ≠ "false".toList) (hk : EndsName k) :
    Refuses grammar m (.call .boolean) (w ++ k) := by
  -- Where the text goes on with a truth value, a character of the name follows it.
  have hlonger : ∀ v : List Char, v.all isNameChar = true → w ≠ v → v <+: w ++ k →
      ∃ x t, w ++ k = v ++ ([x] ++ t) ∧ isNameChar x = true := by
    intro v hv hne hpre
    obtain ⟨t, rfl⟩ := append_of_starts hv hk hpre
    cases t with
    | nil => exact absurd (List.append_nil v) hne
    | cons x t =>
      refine ⟨x, t ++ k, by simp, ?_⟩
      exact List.all_eq_true.mp (all_isNameChar_of_isName hw) x (by simp)
  refine .call ?_ fun _ => ((solid_of_isName hw).append k).flush
  by_cases hpre : "true".toList <+: w ++ k
  · obtain ⟨x, t, heq, hx⟩ := hlonger _ (by decide) htrue hpre
    rw [heq]
    exact .seq_second (.first (.word nofun)) (.notAhead (l := .atomic) (reads_nameChar hx t))
  · by_cases hpre' : "false".toList <+: w ++ k
    · obtain ⟨x, t, heq, hx⟩ := hlonger _ (by decide) hfalse hpre'
      rw [heq] at hpre ⊢
      exact .seq_second (.second (.word hpre nofun) (.word nofun))
        (.notAhead (l := .atomic) (reads_nameChar hx t))
    · exact .seq_first (.alt (.word hpre nofun) (.word hpre' nofun))

/-! ### Literals and paths -/

/-- What holds of the ten digits holds of every digit. -/
@[elab_as_elim]
theorem of_isDigit {P : Char → Prop} {x : Char} (hx : x.isDigit = true)
    (h : ∀ n < 10, P (Char.ofNat (48 + n))) : P x := by
  have hrange : 48 ≤ x.toNat ∧ x.toNat ≤ 57 := by
    simpa [Char.isDigit, UInt32.le_iff_toNat_le] using hx
  have hchar := h (x.toNat - 48) (by omega)
  rwa [show 48 + (x.toNat - 48) = x.toNat by omega, Char.ofNat_toNat] at hchar

theorem mayOpen_of_digit {x : Char} (hx : x = '-' ∨ x.isDigit = true) :
    survey.mayOpen (.call .functionCall) x = false ∧ survey.mayOpen (.call .array) x = false ∧
      survey.mayOpen (.call .stringLiteral) x = false ∧ isBlank x = false := by
  rcases hx with rfl | hx
  · decide
  · exact of_isDigit hx (by decide)

theorem isNameStart_of_digit {x : Char} (hx : x = '-' ∨ x.isDigit = true) :
    isNameStart x = false := by
  rcases hx with rfl | hx
  · rfl
  · exact of_isDigit hx (by decide)

theorem mayOpen_of_isNameStart {x : Char} (hx : isNameStart x = true) :
    survey.mayOpen (.call .array) x = false ∧ survey.mayOpen (.call .stringLiteral) x = false ∧
      survey.mayOpen (.call .number) x = false := by
  have hne : ∀ y, isNameStart y = false → (y == x) = false := by
    intro y hy
    refine beq_eq_false_iff_ne.mpr ?_
    rintro rfl
    rw [hx] at hy
    cases hy
  have hdigit : x.isDigit = false := by
    refine Bool.eq_false_iff.mpr fun hdigit => ?_
    rw [isNameStart_of_digit (.inr hdigit)] at hx
    cases hx
  refine ⟨?_, ?_, ?_⟩
  · exact Bool.or_eq_false_iff.mpr ⟨hne '[' rfl, rfl⟩
  · exact Bool.or_eq_false_iff.mpr ⟨hne '"' rfl, rfl⟩
  · exact Bool.or_eq_false_iff.mpr ⟨hne '-' rfl, Bool.or_eq_false_iff.mpr ⟨hdigit, rfl⟩⟩

theorem mayOpen_identifier {x : Char} (hx : isNameStart x = false) :
    survey.mayOpen (.call .identifier) x = false := by
  obtain ⟨hletter, hline⟩ := Bool.or_eq_false_iff.mp hx
  rw [BEq.comm] at hline
  exact Bool.or_eq_false_iff.mpr ⟨hletter, Bool.or_eq_false_iff.mpr ⟨hline, rfl⟩⟩

theorem reads_value_string (hw : IsContent w) (k : List Char) :
    ReadsAs Grammar.value ('"' :: (w ++ ['"'])) k (Single (IsLiteral w)) :=
  .second (refuses_at rfl rfl rfl (by decide))
    (.second (refuses_at rfl rfl rfl (by decide)) (.first (reads_string hw k)))

theorem reads_value_number (hw : IsNumeral w) (hk : Apart k) :
    ReadsAs Grammar.value w k (Single (Node.Spells .number w)) := by
  have hread := reads_number (m := .spaced) (l := .spaced) hw hk nofun
  obtain ⟨x, t, rfl, hx⟩ := head_of_isNumeral hw
  obtain ⟨hcall, harray, hstring, hblank⟩ := mayOpen_of_digit hx
  exact .second (refuses_at rfl rfl hblank hcall) (.second (refuses_at rfl rfl hblank harray)
    (.second (refuses_at rfl rfl hblank hstring) (.first hread)))

theorem reads_value_boolean (truth : Bool) (hk : EndsValue k) :
    ReadsAs Grammar.value (truthWord truth) k
      (Single (Node.Spells .boolean (truthWord truth))) := by
  have hread := reads_boolean (m := .spaced) (l := .spaced) truth hk.apart.endsName nofun
  have hpath : IsPath (truthWord truth) := by
    refine ⟨[truthWord truth], by simp, ?_, by simp⟩
    cases truth <;> simp [truthWord, isName] <;> decide
  refine .second (refuses_functionCall hpath hk.apart hk.head_ne) ?_
  cases truth with
  | true =>
    exact .second (refuses_at rfl rfl rfl (by decide)) (.second (refuses_at rfl rfl rfl (by decide))
      (.second (refuses_at rfl rfl rfl (by decide)) (.first hread)))
  | false =>
    exact .second (refuses_at rfl rfl rfl (by decide)) (.second (refuses_at rfl rfl rfl (by decide))
      (.second (refuses_at rfl rfl rfl (by decide)) (.first hread)))

/-- The characters of a path with these names. -/
def pathWord (segments : List String) : List Char := ['.'].intercalate (segments.map String.toList)

theorem isPath_of_isSegments {segments : List String} (h : IsSegments segments) :
    IsPath (pathWord segments) := by
  obtain ⟨hnames, first, hfirst, -⟩ := h
  refine ⟨segments.map String.toList, ?_, ?_, rfl⟩
  · cases segments with
    | nil => cases hfirst
    | cons _ _ => simp
  · intro name hname
    obtain ⟨segment, hsegment, rfl⟩ := List.mem_map.mp hname
    exact hnames segment hsegment

theorem reads_value_path {segments : List String} (h : IsSegments segments) (hk : EndsValue k) :
    ReadsAs Grammar.value (pathWord segments) k
      (Single (Node.Spells .path (pathWord segments))) := by
  have hpath := isPath_of_isSegments h
  have hread := reads_path (m := .spaced) (l := .spaced) hpath hk.apart nofun
  obtain ⟨hnames, first, hfirst, htrue, hfalse⟩ := h
  refine .second (refuses_functionCall hpath hk.apart hk.head_ne) ?_
  cases segments with
  | nil => cases hfirst
  | cons segment rest =>
    cases hfirst
    have hname := hnames first List.mem_cons_self
    -- Behind the first name stands a point or what follows the path.
    have hword : pathWord (first :: rest) =
        first.toList ++ ((rest.map String.toList).map (['.'] ++ ·)).flatten := intercalate_cons _ _ _
    have hends : EndsName (((rest.map String.toList).map (['.'] ++ ·)).flatten ++ k) := by
      cases rest with
      | nil => exact hk.apart.endsName
      | cons second rest =>
        intro x hx
        cases hx
        rfl
    have hboolean : Refuses grammar .spaced (.call .boolean) (pathWord (first :: rest) ++ k) := by
      rw [hword, List.append_assoc]
      exact refuses_boolean hname (fun h => htrue (String.toList_injective h))
        (fun h => hfalse (String.toList_injective h)) hends
    obtain ⟨x, v, hx⟩ : ∃ x v, pathWord (first :: rest) ++ k = x :: v ∧ isNameStart x = true := by
      cases hfirst : first.toList with
      | nil =>
        rw [hfirst] at hname
        cases hname
      | cons x v =>
        rw [hfirst] at hname
        rw [hword, hfirst]
        exact ⟨x, _, rfl, (Bool.and_eq_true_iff.mp hname).1⟩
    have hblank := isBlank_of_isNameChar (isNameChar_of_isNameStart hx.2)
    obtain ⟨harray, hstring, hnumber⟩ := mayOpen_of_isNameStart hx.2
    rw [hx.1] at hboolean
    refine .second ?_ (.second ?_ (.second ?_ (.second ?_ hread))) <;> rw [hx.1]
    · exact refuses_at rfl rfl hblank harray
    · exact refuses_at rfl rfl hblank hstring
    · exact refuses_at rfl rfl hblank hnumber
    · exact hboolean

/-! ### One value -/

variable {c c' : Cursor} {ns : List Tree} {v : Value}

theorem Value.read?_of_derives {text : List Char} {n : Tree}
    (h : Parses .spaced Grammar.value (.ofText text) c [n])
    (hn : Value.ofNode n = .ok v) : Value.read? text = some (v, c.rest) := by
  rw [Value.read?, survey.toLayering.run_result h rfl]
  simp [hn, Except.toOption]

theorem Value.derives_of_read? {text : List Char} (h : Value.read? text = some (v, k)) :
    ∃ c n ns, Parses .spaced Grammar.value (.ofText text) c (n :: ns) ∧
      Value.ofNode n = .ok v ∧ c.rest = k := by
  have hrun : Derives grammar .spaced (.expr Grammar.value) (.ofText text) (grammar.run
      (.expr Grammar.value) ⟨.spaced, .consuming⟩ (.ofText text) .none).result :=
    survey.toLayering.run_derives rfl
  rw [Value.read?] at h
  split at h
  next c n ns hresult =>
    rw [hresult] at hrun
    cases hn : Value.ofNode n with
    | error e =>
      rw [hn] at h
      cases h
    | ok v' =>
      rw [hn] at h
      cases h
      exact ⟨c, n, ns, hrun, hn, rfl⟩
  next => cases h

/-- An expression fails where it cannot start. -/
theorem derives_none_at {x : Char} (hrest : c.rest = x :: k)
    (hs : e.steady survey.empty = true) (he : e.mayBeEmpty survey.empty = false)
    (hx : isBlank x = false) (hopen : survey.mayOpen e x = false) :
    Derives grammar m (.expr e) c none := by
  obtain ⟨s, rest⟩ := c
  obtain rfl : rest = x :: k := hrest
  have hrefuses : Refuses grammar m e (x :: k) := refuses_at hs he hx hopen
  have hskip : grammar.skip m ⟨s, x :: k⟩ = ⟨s, x :: k⟩ :=
    grammar.skip_of_flush (Solid.flush ⟨x, k, rfl, hx⟩) m s
  rw [← hskip]
  exact hrefuses s

/-- Where there is a number, it is the value. -/
theorem derives_value_of_number
    (h : Parses .spaced (.call .number) c c' ns) :
    Parses .spaced Grammar.value c c' ns := by
  obtain ⟨w, hw, hpast, -⟩ := of_number h nofun
  obtain ⟨x, v, rfl, hx⟩ := head_of_isNumeral hw
  obtain ⟨hcall, harray, hstring, hblank⟩ := mayOpen_of_digit hx
  exact .second (derives_none_at hpast.rest rfl rfl hblank hcall)
    (.second (derives_none_at hpast.rest rfl rfl hblank harray)
      (.second (derives_none_at hpast.rest rfl rfl hblank hstring) (.first h)))

/-- Where there is a string, it is the value. -/
theorem derives_value_of_string
    (h : Parses .spaced (.call .stringLiteral) c c' ns) :
    Parses .spaced Grammar.value c c' ns := by
  obtain ⟨children, hbody, -⟩ := h.of_call_node nofun
  obtain ⟨c₁, _, _, hopen, -, -⟩ := hbody.of_seq
  have hrest := hopen.of_word.1.rest
  exact .second (derives_none_at hrest rfl rfl rfl (by decide))
    (.second (derives_none_at hrest rfl rfl rfl (by decide)) (.first h))

end Pseudonym
