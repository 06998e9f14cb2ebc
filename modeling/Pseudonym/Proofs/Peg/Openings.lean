/-
# How readings open

The sorts of characters that a reading may start with, as far as the
expressions show: an expression that reads something at a character that is no
blank starts with a character of one of its openings (`Survey.admits_of_lt`).
Where the text goes on otherwise, an expression that cannot be empty fails
(`Survey.refuses`).
-/
import Pseudonym.Proofs.Peg.Adequacy

namespace Pseudonym
namespace Peg

/-- A sort of characters with which a reading may start. -/
inductive Opening where
  | exactly (x : Char)
  | among (cls : CharClass)
  deriving DecidableEq, Repr

/-- Whether a character is of this sort. -/
def Opening.admits : Opening → Char → Bool
  | .exactly x, y => x == y
  | .among cls, y => cls.holds y

variable {R : Type}

/-- The openings of an expression, given those of the rules. -/
def Expr.openings (empty : R → Bool) (rules : R → List Opening) : Expr R → List Opening
  | .word w => w.head?.toList.map .exactly
  | .one cls => [.among cls]
  | .start => []
  | .finish => []
  | .call r => rules r
  | .seq p q =>
    p.openings empty rules ++ if p.mayBeEmpty empty then q.openings empty rules else []
  | .alt p q => p.openings empty rules ++ q.openings empty rules
  | .opt p => p.openings empty rules
  | .many p => p.openings empty rules
  | .notAhead _ => []

/-- A layered grammar, with openings for its rules that cover those of their bodies. -/
structure Survey (g : Grammar R) extends Layering g where
  openings : R → List Opening
  openings_body : ∀ r, ∀ o ∈ (g.body r).openings empty openings, o ∈ openings r

variable {g : Grammar R}

theorem Grammar.skip_of_not_blank {m : Mode} {c : Cursor} {y : Char} {k : List Char}
    (hc : c.rest = y :: k) (hy : g.blank y = false) : g.skip m c = c := by
  obtain ⟨p, rest⟩ := c
  obtain rfl : rest = y :: k := hc
  cases m with
  | spaced => exact Cursor.skipWhile_append [] p (y :: k) rfl fun x hx => by cases hx; exact hy
  | compact => rfl
  | atomic => rfl

namespace Survey

variable (S : Survey g)

/-- The openings of what is to be read. -/
def openingsOf : Goal R → List Opening
  | .expr e => e.openings S.empty S.openings
  | .more e => e.openings S.empty S.openings

/-- What reads something starts with a character of its openings. -/
theorem admits_of_lt {m : Mode} {t : Goal R} {c : Cursor} {x : Option (Cursor × List (Node R))}
    (h : Derives g m t c x) {y : Char} {k : List Char} (hc : c.rest = y :: k)
    (hy : g.blank y = false) :
    ∀ z ∈ x, z.1.rest.length < c.rest.length → ∃ o ∈ S.openingsOf t, o.admits y = true := by
  induction h with
  | @word m w c x hx =>
    rintro z rfl hlt
    obtain ⟨c', hc', rfl⟩ := Option.map_eq_some_iff.mp hx
    have hpast := Cursor.word?_eq_some_iff.mp hc'
    cases w with
    | nil =>
      have hlen := hpast.length
      simp only [List.length_nil, Nat.zero_add] at hlen
      exact absurd hlt (by simp [hlen])
    | cons w₀ w =>
      obtain ⟨rfl, -⟩ := List.cons.inj (hc.symm.trans hpast.rest)
      exact ⟨.exactly y, List.mem_singleton.mpr rfl, beq_self_eq_true y⟩
  | @one m cls c x hx =>
    rintro z rfl -
    obtain ⟨c', hc', rfl⟩ := Option.map_eq_some_iff.mp hx
    obtain ⟨y', hy', hpast⟩ := Cursor.one?_eq_some_iff.mp hc'
    obtain ⟨rfl, -⟩ := List.cons.inj (hc.symm.trans hpast.rest)
    exact ⟨.among cls, List.mem_singleton.mpr rfl, hy'⟩
  | start hx =>
    rintro z rfl hlt
    split at hx <;> cases hx
    exact absurd hlt (Nat.lt_irrefl _)
  | finish hx =>
    rintro z rfl hlt
    split at hx <;> cases hx
    exact absurd hlt (Nat.lt_irrefl _)
  | @call m r c x y' _ hx ih =>
    rintro z rfl hlt
    obtain ⟨z', rfl, rfl⟩ := Option.map_eq_some_iff.mp hx
    obtain ⟨o, ho, hadmits⟩ := ih hc z' rfl hlt
    exact ⟨o, S.openings_body r o ho, hadmits⟩
  | @seq m p q c c₁ before x y' hp hq hx ihp ihq =>
    rintro z rfl hlt
    obtain ⟨z', rfl, rfl⟩ := Option.map_eq_some_iff.mp hx
    rcases Nat.lt_or_ge c₁.rest.length c.rest.length with hlt₁ | hge
    · obtain ⟨o, ho, hadmits⟩ := ihp hc _ rfl hlt₁
      exact ⟨o, List.mem_append_left _ ho, hadmits⟩
    · -- The first part has read nothing, so the second one starts at the same place.
      obtain rfl : c₁ = c := hp.eq_of_length_le hge
      rw [Grammar.skip_of_not_blank hc hy] at ihq
      obtain ⟨o, ho, hadmits⟩ := ihq hc z' rfl hlt
      refine ⟨o, List.mem_append_right _ ?_, hadmits⟩
      cases hempty : p.mayBeEmpty S.empty with
      | true => exact ho
      | false => exact absurd (S.length_lt hp hempty _ rfl) (Nat.lt_irrefl _)
  | seqFails => rintro z ⟨⟩
  | first _ ihp =>
    intro z hz hlt
    obtain ⟨o, ho, hadmits⟩ := ihp hc z hz hlt
    exact ⟨o, List.mem_append_left _ ho, hadmits⟩
  | second _ _ _ ihq =>
    intro z hz hlt
    obtain ⟨o, ho, hadmits⟩ := ihq hc z hz hlt
    exact ⟨o, List.mem_append_right _ ho, hadmits⟩
  | opt _ ihp => exact ihp hc
  | optNone =>
    rintro z ⟨⟩ hlt
    exact absurd hlt (Nat.lt_irrefl _)
  | @many m p c c₁ c₂ before after hp hmore ihp ihmore =>
    rintro z ⟨⟩ hlt
    rcases Nat.lt_or_ge c₁.rest.length c.rest.length with hlt₁ | hge
    · exact ihp hc _ rfl hlt₁
    · obtain rfl : c₁ = c := hp.eq_of_length_le hge
      exact ihmore hc _ rfl hlt
  | manyNone =>
    rintro z ⟨⟩ hlt
    exact absurd hlt (Nat.lt_irrefl _)
  | @more m p c c₁ c₂ before after hp hmore ihp ihmore =>
    rintro z ⟨⟩ hlt
    rw [Grammar.skip_of_not_blank hc hy] at hp ihp
    rcases Nat.lt_or_ge c₁.rest.length c.rest.length with hlt₁ | hge
    · exact ihp hc _ rfl hlt₁
    · obtain rfl : c₁ = c := hp.eq_of_length_le hge
      exact ihmore hc _ rfl hlt
  | moreNone =>
    rintro z ⟨⟩ hlt
    exact absurd hlt (Nat.lt_irrefl _)
  | notAhead =>
    rintro z ⟨⟩ hlt
    exact absurd hlt (Nat.lt_irrefl _)
  | notAheadFails => rintro z ⟨⟩

/-- Whether an expression may start with this character. -/
def mayOpen (e : Expr R) (y : Char) : Bool := (e.openings S.empty S.openings).any (·.admits y)

/-- An expression that cannot be empty fails where the text does not go on as it may start. -/
theorem refuses {m : Mode} {e : Expr R} {c : Cursor} (hs : e.steady S.empty = true)
    (he : e.mayBeEmpty S.empty = false)
    (hc : ∀ y ∈ c.rest.head?, g.blank y = false ∧ S.mayOpen e y = false) :
    Derives g m (.expr e) c none := by
  obtain ⟨_ | z, hx⟩ := S.total m e c hs
  · exact hx
  · have hlt := S.length_lt hx he z rfl
    cases hrest : c.rest with
    | nil =>
      rw [hrest] at hlt
      exact absurd hlt (Nat.not_lt_zero _)
    | cons y k =>
      obtain ⟨hy, hopen⟩ := hc y (by rw [hrest]; rfl)
      obtain ⟨o, ho, hadmits⟩ := S.admits_of_lt hx hrest hy z rfl hlt
      have hopens : S.mayOpen e y = true := List.any_eq_true.mpr ⟨o, ho, hadmits⟩
      rw [hopen] at hopens
      cases hopens

end Survey

end Peg
end Pseudonym
