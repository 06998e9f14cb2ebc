/-
# Items between commas

Items between brackets are read as they are written, with a comma and a space
between two of them, and line ends between them leave nothing.
-/
import Mathlib.Data.List.Forall2
import Pseudonym.Proofs.Syntax.Comments

namespace Pseudonym

open Peg

variable {m l : Mode} {w k : List Char} {c c' : Cursor} {ns : List (Node Rule)}

/-! ### Marks and line ends -/

theorem reads_mark {x : Char} (hx : isBlank x = false) (k : List Char) :
    Reads grammar m l (.word [x]) [x] k Silent :=
  .word fun _ => Solid.flush ⟨x, k, rfl, hx⟩

theorem refuses_mark {x y : Char} (hy : isBlank y = false) (hne : x ≠ y) :
    Refuses grammar m (.word [x]) (y :: k) := by
  refine .word ?_ fun _ => Solid.flush ⟨y, k, rfl, hy⟩
  rintro ⟨v, hv⟩
  exact hne (List.cons.inj hv).1

/-- No line ends where a word starts. -/
theorem reads_no_newlines (hk : Solid k) : Reads grammar m m Grammar.newlines [] k Silent :=
  (ReadsMore.none hk.refuses_newline).many

theorem of_newline (h : Parses m Grammar.newline c c' ns) : ns = [] := by
  rcases h.of_alt with h | ⟨-, h⟩
  · exact h.of_word.2
  · exact h.of_word.2

theorem of_newlines (h : Parses m Grammar.newlines c c' ns) :
    ns = [] := by
  refine h.of_many (fun _ ns => ns = []) rfl ?_
  rintro c₁ _ c₀ c₂ ns₂ rfl - hround
  exact of_newline hround

/-- A text that ends a value. -/
def EndsValue (k : List Char) : Prop := ∃ x t, k = x :: t ∧ x ∈ [',', ')', ']', '\n', ' ']

theorem EndsValue.apart (hk : EndsValue k) : Apart k := by
  obtain ⟨x, t, rfl, hx⟩ := hk
  have hmark : isNameChar x = false ∧ x ≠ '.' := by
    simp only [List.mem_cons, List.not_mem_nil, or_false] at hx
    rcases hx with rfl | rfl | rfl | rfl | rfl <;> decide
  exact apart_cons hmark

theorem EndsValue.head_ne (hk : EndsValue k) : k.head? ≠ some '(' := by
  obtain ⟨x, t, rfl, hx⟩ := hk
  rintro ⟨⟩
  revert hx
  decide

theorem endsValue_of_head {close : Char} (hclose : close = ')' ∨ close = ']')
    (hk : k.head? = some ',' ∨ k.head? = some close) : EndsValue k := by
  cases k with
  | nil => rcases hk with hk | hk <;> cases hk
  | cons x k =>
    refine ⟨x, k, rfl, ?_⟩
    rcases hclose with rfl | rfl <;> rcases hk with hk | hk <;> cases hk <;> decide

/-! ### Reading items -/

section Items

variable {α : Type} {item : Expr Rule} {word : α → List Char} {P : α → Node Rule → Prop}
  {close : Char}

/-- One further item. -/
def further (item : Expr Rule) : Expr Rule :=
  Grammar.all (Grammar.lit ",") [Grammar.newlines, item, Grammar.newlines]

/-- What stands behind an item, up to the bracket. -/
def furtherText (word : α → List Char) (xs : List α) (close : Char) (k : List Char) : List Char :=
  (xs.map ([',', ' '] ++ word ·)).flatten ++ close :: k

theorem head_furtherText (word : α → List Char) (hclose : close = ')' ∨ close = ']') (k : List Char)
    (xs : List α) :
    ((furtherText word xs close k).head? = some ',' ∨
      (furtherText word xs close k).head? = some close) ∧ Solid (furtherText word xs close k) := by
  cases xs with
  | nil =>
    refine ⟨.inr rfl, close, k, rfl, ?_⟩
    rcases hclose with rfl | rfl <;> rfl
  | cons x xs => exact ⟨.inl rfl, ',', _, rfl, rfl⟩

theorem readsMore_items (hclose : close = ')' ∨ close = ']') (k : List Char) : ∀ xs : List α,
    (∀ x ∈ xs, Solid (word x)) →
    (∀ x ∈ xs, ∀ k, (k.head? = some ',' ∨ k.head? = some close) →
      ReadsAs item (word x) k (Single (P x))) →
    ReadsMore grammar .spaced (further item) (xs.map ([',', ' '] ++ word ·)).flatten (close :: k)
      (List.Forall₂ P xs)
  | [], _, _ => by
    refine (ReadsMore.none (.seq_first ?_)).mono ?_
    · rcases hclose with rfl | rfl <;> exact refuses_mark rfl (by decide)
    · rintro _ rfl
      exact .nil
  | x :: xs, hsolid, hitem => by
    have ih := readsMore_items hclose k xs (fun y hy => hsolid y (List.mem_cons_of_mem x hy))
      fun y hy => hitem y (List.mem_cons_of_mem x hy)
    have hsolidx := hsolid x List.mem_cons_self
    obtain ⟨hhead, hrest⟩ := head_furtherText word hclose k xs
    have hround : ReadsAs (further item) ([','] ++ ([' '] ++ word x))
        (furtherText word xs close k) (Single (P x)) := by
      refine (reads_mark rfl _).silent_then (Reads.silent_then (w := []) ?_ (.then_nothing ?_ ?_))
      · exact (ReadsMore.none (.blanks (b := [' ']) (hsolidx.append _).refuses_newline rfl)).many
      · exact .blanks (b := [' ']) (hitem x List.mem_cons_self _ hhead) rfl
      · exact reads_no_newlines hrest
    refine .more hround ih ?_
    rintro _ after ⟨n, rfl, hn⟩ hafter
    exact .cons hn hafter

/-- Items are read with a comma and a space between them, up to the bracket behind them. -/
theorem reads_items (hclose : close = ')' ∨ close = ']') (k : List Char) {xs : List α}
    (hsolid : ∀ x ∈ xs, Solid (word x))
    (hitem : ∀ x ∈ xs, ∀ k, (k.head? = some ',' ∨ k.head? = some close) →
      ReadsAs item (word x) k (Single (P x)))
    (hnone : Refuses grammar .spaced item (close :: k)) :
    ReadsAs (Grammar.items item) ([',', ' '].intercalate (xs.map word))
      (close :: k) (List.Forall₂ P xs) := by
  cases xs with
  | nil =>
    refine (Reads.opt_none (.seq_first hnone)).mono ?_
    rintro _ rfl
    exact .nil
  | cons x xs =>
    have hmore := readsMore_items hclose k xs (fun y hy => hsolid y (List.mem_cons_of_mem x hy))
      fun y hy => hitem y (List.mem_cons_of_mem x hy)
    obtain ⟨hhead, hrest⟩ := head_furtherText word hclose k xs
    rw [List.map_cons, intercalate_cons, List.map_map]
    refine .opt (Reads.seq (Q := List.Forall₂ P xs)
      (hitem x List.mem_cons_self (furtherText word xs close k) hhead) ?_ ?_)
    · refine Reads.silent_then (w := []) (reads_no_newlines hrest)
        (hmore.many.then_nothing (.opt_none (.seq_first ?_)))
      rcases hclose with rfl | rfl <;> exact refuses_mark rfl (by decide)
    · rintro _ after ⟨n, rfl, hn⟩ hafter
      exact .cons hn hafter

theorem of_further {Q : Node Rule → Prop}
    (h : Parses .spaced (further item) c c' ns)
    (hitem : ∀ c₁ c₂ ns, c₁.rest.length ≤ c.rest.length →
      Parses .spaced item c₁ c₂ ns → Single Q ns) : Single Q ns := by
  obtain ⟨c₁, _, _, hcomma, hrest₁, rfl⟩ := h.of_seq
  obtain ⟨c₂, _, _, hlines, hrest₂, rfl⟩ := hrest₁.of_seq
  obtain ⟨c₃, _, _, hnext, hend, rfl⟩ := hrest₂.of_seq
  have hle₁ := hcomma.length_le
  have hskip₁ := grammar.length_skip_le .spaced c₁
  have hle₂ := hlines.length_le
  have hskip₂ := grammar.length_skip_le .spaced c₂
  obtain ⟨-, rfl⟩ := hcomma.of_word
  obtain rfl := of_newlines hlines
  obtain rfl := of_newlines hend
  rw [List.append_nil]
  exact hitem _ _ _ (by omega) hnext

theorem of_lastComma (h : Parses .spaced (.opt (Grammar.all (Grammar.lit ",")
    [Grammar.newlines])) c c' ns) : ns = [] := by
  rcases h.of_opt with h | ⟨-, rfl⟩
  · obtain ⟨_, _, _, hcomma, hlines, rfl⟩ := h.of_seq
    obtain ⟨-, rfl⟩ := hcomma.of_word
    exact of_newlines hlines
  · rfl

/-- What every item leaves, all of them leave. -/
theorem of_items {Q : Node Rule → Prop}
    (h : Parses .spaced (Grammar.items item) c c' ns)
    (hitem : ∀ c₁ c₂ ns, c₁.rest.length ≤ c.rest.length →
      Parses .spaced item c₁ c₂ ns → Single Q ns) :
    ∀ n ∈ ns, Q n := by
  rcases h.of_opt with h | ⟨-, rfl⟩
  · obtain ⟨c₁, _, _, hfirst, hrest₁, rfl⟩ := h.of_seq
    obtain ⟨c₂, _, _, hlines, hrest₂, rfl⟩ := hrest₁.of_seq
    obtain ⟨c₃, _, after, hmore, hlast, rfl⟩ := hrest₂.of_seq
    have hle₁ := hfirst.length_le
    have hskip₁ := grammar.length_skip_le .spaced c₁
    have hle₂ := hlines.length_le
    have hskip₂ := grammar.length_skip_le .spaced c₂
    obtain rfl := of_newlines hlines
    obtain rfl := of_lastComma hlast
    obtain ⟨first, rfl, hQ⟩ := hitem _ _ _ (Nat.le_refl _) hfirst
    -- Every round stays behind the first item and leaves one more.
    obtain ⟨-, hafter⟩ := hmore.of_many
      (fun c₁ ns => c₁.rest.length ≤ c.rest.length ∧ ∀ n ∈ ns, Q n) ⟨by omega, nofun⟩ (by
        rintro c₁ ns₁ c₀ c₂ ns₂ ⟨hle, hns₁⟩ hc₀ hround
        have hle₀ : c₀.rest.length ≤ c₁.rest.length := by
          rcases hc₀ with rfl | rfl
          · exact Nat.le_refl _
          · exact grammar.length_skip_le .spaced c₁
        have hle₂ := hround.length_le
        obtain ⟨n, rfl, hn⟩ := of_further hround fun c₁ c₂ ns hc₁ => hitem c₁ c₂ ns (by omega)
        refine ⟨by omega, fun n' hn' => ?_⟩
        rcases List.mem_append.mp hn' with hn' | hn'
        · exact hns₁ n' hn'
        · obtain rfl := List.mem_singleton.mp hn'
          exact hn)
    intro n hn
    rcases List.mem_cons.mp hn with rfl | hn
    · exact hQ
    · exact hafter n (by simpa using hn)
  · nofun

end Items

end Pseudonym
