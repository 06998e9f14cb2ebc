/-
# Obfuscation and line endings

An obfuscation sees nothing of a schema's positions but the lines, and these
only to name them in a fault. Two schemas that are equal up to offsets give
the same text and the same registry, or the same fault. So it does not matter
whether the lines of a text end with line feeds or with carriage returns and
line feeds.
-/
import Pseudonym.Proofs.Obfuscate.Faults
import Pseudonym.Proofs.Obfuscate.Stable
import Pseudonym.Proofs.Syntax.LineEndings

namespace Pseudonym

namespace Schema

variable {s s' : Schema}

theorem result_of_onLines (h : s.onLines 0 = s'.onLines 0) (n : Numbering) :
    (s.result n).render = (s'.result n).render := by
  rw [← render_unplaced, ← render_unplaced (s'.result n), ← unplaced_onLines 0,
    ← unplaced_onLines 0 (s'.result n), onLines_result, onLines_result, h]

theorem envCount_onLines (k : Nat) (s : Schema) :
    ((s.onLines k).numberEnv 0).2 = (s.numberEnv 0).2 :=
  s.envCount_retouch (R := .mapSpan _) (Value.numberEnv_mapSpan _) 0

/-- Schemas that are equal up to offsets are obfuscated alike. -/
theorem twin_obfuscate_onLines (h : s.onLines 0 = s'.onLines 0) (n : Numbering) :
    Twin (fun p p' => p.1.render = p'.1.render ∧ p.2 = p'.2) (s.obfuscate n) (s'.obfuscate n) := by
  have htwin := twin_obfuscate h n n
  cases hs : s.obfuscate n with
  | error e =>
    rw [hs] at htwin
    cases hs' : s'.obfuscate n with
    | ok p =>
      rw [hs'] at htwin
      cases htwin
    | error e' =>
      rw [hs'] at htwin
      cases htwin
      exact .error e
  | ok p =>
    rw [hs] at htwin
    cases hs' : s'.obfuscate n with
    | error e =>
      rw [hs'] at htwin
      cases htwin
    | ok p' =>
      obtain ⟨ht, hr⟩ := eq_result_of_ok hs
      obtain ⟨ht', hr'⟩ := eq_result_of_ok hs'
      have houtline : s.outline n = s'.outline n := by
        rw [← outline_onLines n 0 s, h, outline_onLines]
      have hcount : (s.numberEnv 0).2 = (s'.numberEnv 0).2 := by
        rw [← envCount_onLines 0 s, h, envCount_onLines]
      refine .ok ⟨?_, ?_⟩
      · rw [ht, ht', result_of_onLines h]
      · rw [hr, hr', houtline, hcount]

end Schema

/-- Texts of schemas that are equal up to offsets are obfuscated alike. -/
theorem obfuscate_of_onLines {n : Numbering} {text text' : String} {s s' : Schema}
    (hs : Schema.parse text = .ok s) (hs' : Schema.parse text' = .ok s')
    (h : s.onLines 0 = s'.onLines 0) : obfuscate n text = obfuscate n text' := by
  have htwin := Schema.twin_obfuscate_onLines h n
  rw [obfuscate, obfuscate, hs, hs']
  simp only [Except.mapError, bind, Except.bind]
  generalize s.obfuscate n = x at htwin
  generalize s'.obfuscate n = y at htwin
  cases htwin with
  | ok hsame => simp only [hsame.1, hsame.2]
  | error e => rfl

/-- **Line endings do not matter.** A text without carriage returns and escaped line feeds is read
as a schema if and only if the text with carriage returns is. Then the schemas are equal up to
offsets and the outcomes of all obfuscations are equal, be they results or faults. -/
theorem obfuscate_withReturns {text : String} (hreturn : '\r' ∉ text.toList)
    (hescape : ¬ ['\\', '\n'] <:+: text.toList) :
    (∃ s s', Schema.parse text = .ok s ∧ Schema.parse (withReturns text) = .ok s' ∧
      s.onLines 0 = s'.onLines 0 ∧ ∀ n, obfuscate n text = obfuscate n (withReturns text)) ∨
    ∃ e e', Schema.parse text = .error e ∧ Schema.parse (withReturns text) = .error e' ∧
      ∀ n, obfuscate n text = .error (.text e) ∧
        obfuscate n (withReturns text) = .error (.text e') := by
  rcases Schema.parse_withReturns ⟨hreturn, hescape⟩ with ⟨s, s', hs, hs', h⟩ | ⟨e, e', he, he'⟩
  · exact .inl ⟨s, s', hs, hs', h, fun n => obfuscate_of_onLines hs hs' h⟩
  · refine .inr ⟨e, e', he, he', fun n => ⟨?_, ?_⟩⟩
    · rw [obfuscate, he]
      rfl
    · rw [obfuscate, he']
      rfl

/-- A text with a comment, an escape, and brackets that go over several lines. -/
def fedLines : String :=
  "/// users \nmodel User \x7b\n  id Int @id\n  name String @default(\"a\\\"b\") // of them\n" ++
  "  @@unique([\n    id,\n    name,\n  ])\n\x7d\n"

theorem obfuscate_withReturns_fedLines :
    (∃ s s', Schema.parse fedLines = .ok s ∧ Schema.parse (withReturns fedLines) = .ok s' ∧
      s.onLines 0 = s'.onLines 0) ∧
    ∃ p, obfuscate .global fedLines = .ok p ∧ obfuscate .global (withReturns fedLines) = .ok p := by
  have hok : (obfuscate .global fedLines).toBool = true := by decide +kernel
  rcases @obfuscate_withReturns fedLines (by decide +kernel) (by decide +kernel) with
    ⟨s, s', hs, hs', h, hsame⟩ | ⟨e, e', he, -, -⟩
  · refine ⟨⟨s, s', hs, hs', h⟩, ?_⟩
    rw [← hsame]
    cases hp : obfuscate .global fedLines with
    | error e =>
      rw [hp] at hok
      cases hok
    | ok p => exact ⟨p, rfl, rfl⟩
  · rw [obfuscate, he] at hok
    cases hok

end Pseudonym
