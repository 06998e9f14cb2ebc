/-
# Writing and reading declarations

Declarations are written with one empty line between them, so what follows a
declaration is the end of its line and then another line end or nothing. There
every well-spelled declaration is read as it is, without its comments that
have no text; one of which nothing is left is not written at all.
-/
import Pseudonym.Proofs.Syntax.Blocks

namespace Pseudonym

open Peg

variable {w k : List Char}

/-! ### Blocks of members -/

/-- What a schema is made of. -/
def declaration : Expr Rule :=
  Grammar.first Grammar.newline
    [.call .commentBlock, .call .configBlock, .call .modelDef, .call .enumDef]

/-- A node that is a declaration, up to places. -/
abbrev IsDeclaration : Declaration → Tree → Prop :=
  IsMember Declaration.ofNode? Declaration.unplaced

/-- A reading of a declaration by its own rule is one of a declaration, since no rule before it
starts with the first character of its word. -/
theorem reads_declaration {t k : List Char} {P : List Tree → Prop} {x : Char} (hx : isBlank x = false)
    (h : ReadsAs (.call .commentBlock) (x :: t) k P ∨
      survey.mayOpen (.call .commentBlock) x = false ∧
        (ReadsAs (.call .configBlock) (x :: t) k P ∨
          survey.mayOpen (.call .configBlock) x = false ∧
            (ReadsAs (.call .modelDef) (x :: t) k P ∨
              survey.mayOpen (.call .modelDef) x = false ∧
                ReadsAs (.call .enumDef) (x :: t) k P))) :
    ReadsAs declaration (x :: t) k P := by
  refine .second (Solid.refuses_newline ⟨x, _, rfl, hx⟩) ?_
  rcases h with hcomments | ⟨hno, hconfig | ⟨hno', hmodel | ⟨hno'', henum⟩⟩⟩
  · exact .first hcomments
  · exact .second (refuses_at rfl rfl hx hno) (.first hconfig)
  · exact .second (refuses_at rfl rfl hx hno) (.second (refuses_at rfl rfl hx hno') (.first hmodel))
  · exact .second (refuses_at rfl rfl hx hno) (.second (refuses_at rfl rfl hx hno')
      (.second (refuses_at rfl rfl hx hno'') henum))

/-- A sort of block: the rules and the words that it is read with, and what is made of it. -/
structure BlockSort (α : Type) where
  rule : Rule
  keyword : Rule
  member : Expr Rule
  /-- The keyword as it is written. -/
  head : String
  /-- What a block of this sort is called where it is missing a part. -/
  word : String
  ofNode? : Tree → Except SyntaxError (Option α)
  unplaced : α → α
  make : Ident → List α → Span → Declaration
  solid : Solid head.toList
  reads_body : ∀ {w k P},
    ReadsAs (Grammar.block (.call keyword) member) w k P →
    Reads grammar ((Grammar.kind rule).innerMode .spaced) .spaced (Grammar.body rule) w k P
  reads_keyword : ∀ k, EndsName k → ReadsAs (.call keyword) head.toList k
    (Single (Node.Spells keyword head.toList))
  refuses_brace : ∀ k, Refuses grammar .spaced member ('\x7d' :: k)
  ofNode?_make : ∀ (n : Tree) b, n.rule = rule → n.children.head?.map (·.string) = some head →
    n.block word ofNode? = .ok b → Declaration.ofNode? n = .ok (some (make b.1 b.2 n.span))
  unplaced_make : ∀ name xs span,
    (make name xs span).unplaced = make name.unplaced (xs.map unplaced) .nowhere
  reads_declaration : ∀ {t k P}, ReadsAs (.call rule) (head.toList ++ t) k P →
    ReadsAs declaration (head.toList ++ t) k P

namespace BlockSort

variable {α : Type} (sort : BlockSort α)

/-- The nodes of a block are the declaration that is made of its name and its members. -/
theorem isDeclaration {name : Ident} {ys : List α} {span : Span} {n : Tree}
    (hrule : n.rule = sort.rule)
    (h : AreBlock sort.head name.name (IsMember sort.ofNode? sort.unplaced) ys n.children) :
    IsDeclaration (sort.make name ys span) n := by
  obtain ⟨head, ident, rest, hchildren, hhead, hident, hrest⟩ := h
  obtain ⟨members, hmembers, hmembers'⟩ := mapM_members hrest
  have hkeyword : n.children.head?.map (·.string) = some sort.head := by
    rw [hchildren, List.head?_cons, Option.map_some, Peg.Node.string, hhead, String.ofList_toList]
  have hblock : n.block sort.word sort.ofNode? = .ok (ident.ident, members.filterMap id) := by
    rw [Peg.Node.block, hchildren]
    dsimp only
    rw [hmembers]
    rfl
  refine ⟨_, sort.ofNode?_make n _ hrule hkeyword hblock, ?_⟩
  rw [sort.unplaced_make, sort.unplaced_make, unplaced_ident hident, hmembers']

/-- A block whose lines are read as members is read as a declaration. -/
theorem reads {name : Ident} {xs : List α} {line : α → List Char} {kept : α → Option α}
    (span : Span) (hname : isName name.name.toList = true)
    (hlines : ∀ x ∈ xs,
      LineReads sort.member (IsMember sort.ofNode? sort.unplaced) (line x) (kept x))
    (k : List Char) :
    ReadsAs declaration
      (sort.head.toList ++ blockTail name.name (xs.map line)) k
      (Single (IsDeclaration (sort.make name (xs.filterMap kept) span))) := by
  have hbody := reads_block sort.keyword sort.member sort.reads_keyword hname sort.refuses_brace
    hlines k
  refine sort.reads_declaration ?_
  refine (reads_rule sort.rule ((sort.solid.append _).append k) (sort.reads_body hbody)).mono_single
    fun n hn => ?_
  exact sort.isDeclaration hn.1 hn.2

/-- Models. -/
def model : BlockSort ModelMember where
  rule := .modelDef
  keyword := .modelKeyword
  member := modelMember
  head := "model"
  word := "model"
  ofNode? := ModelMember.ofNode?
  unplaced := ModelMember.unplaced
  make name members span := .model ⟨name, members, span⟩
  solid := ⟨'m', _, rfl, rfl⟩
  reads_body h := h
  reads_keyword _ hk :=
    .token (Pseudonym.reads_keyword (.word (by rintro ⟨⟩)) hk)
      (fun _ => Solid.flush ⟨'m', _, rfl, rfl⟩) (by decide)
  refuses_brace _ := refuses_at rfl rfl rfl (by decide)
  ofNode?_make n b hrule _ hb := by
    simp only [Declaration.ofNode?, hrule, Model.ofNode, hb]
    rfl
  unplaced_make _ _ _ := rfl
  reads_declaration h :=
    Pseudonym.reads_declaration (x := 'm') rfl (.inr ⟨by decide, .inr ⟨by decide, .inl h⟩⟩)

/-- Enums. -/
def enum : BlockSort EnumMember where
  rule := .enumDef
  keyword := .enumKeyword
  member := enumMember
  head := "enum"
  word := "enum"
  ofNode? := EnumMember.ofNode?
  unplaced := EnumMember.unplaced
  make name members span := .enum ⟨name, members, span⟩
  solid := ⟨'e', _, rfl, rfl⟩
  reads_body h := h
  reads_keyword _ hk :=
    .token (Pseudonym.reads_keyword (.word (by rintro ⟨⟩)) hk)
      (fun _ => Solid.flush ⟨'e', _, rfl, rfl⟩) (by decide)
  refuses_brace _ := refuses_at rfl rfl rfl (by decide)
  ofNode?_make n b hrule _ hb := by
    simp only [Declaration.ofNode?, hrule, Enum.ofNode, hb]
    rfl
  unplaced_make _ _ _ := rfl
  reads_declaration h := Pseudonym.reads_declaration (x := 'e') rfl
    (.inr ⟨by decide, .inr ⟨by decide, .inr ⟨by decide, h⟩⟩⟩)

/-- Blocks of configuration of one kind. -/
def config (kind : ConfigKind) : BlockSort ConfigMember where
  rule := .configBlock
  keyword := .configKeyword
  member := configMember
  head := kind.word
  word := "block"
  ofNode? := ConfigMember.ofNode?
  unplaced := ConfigMember.unplaced
  make name members span := .config ⟨kind, name, members, span⟩
  solid := by
    cases kind with
    | datasource => exact ⟨'d', _, rfl, rfl⟩
    | generator => exact ⟨'g', _, rfl, rfl⟩
  reads_body h := h
  reads_keyword _ hk := by
    cases kind with
    | datasource =>
      exact .token (Pseudonym.reads_keyword (.first (.word (by rintro ⟨⟩))) hk)
        (fun _ => Solid.flush ⟨'d', _, rfl, rfl⟩) (by decide)
    | generator =>
      have hother {t} : ¬"datasource".toList <+: "generator".toList ++ t := by
        rintro ⟨v, hv⟩
        cases hv
      exact .token (Pseudonym.reads_keyword
          (.second (.word hother (by rintro ⟨⟩)) (.word (by rintro ⟨⟩))) hk)
        (fun _ => Solid.flush ⟨'g', _, rfl, rfl⟩) (by decide)
  refuses_brace _ := refuses_at rfl rfl rfl (by decide)
  ofNode?_make n b hrule hkeyword hb := by
    have hword : ConfigKind.ofWord? kind.word = some kind := by cases kind <;> decide
    obtain ⟨keyword, hhead, hkind⟩ := Option.map_eq_some_iff.mp hkeyword
    obtain ⟨rest, hchildren⟩ := List.head?_eq_some_iff.mp hhead
    simp only [Declaration.ofNode?, hrule, ConfigBlock.ofNode, hchildren, hkind, hword, hb]
    rfl
  unplaced_make _ _ _ := rfl
  reads_declaration h := by
    cases kind with
    | datasource => exact Pseudonym.reads_declaration (x := 'd') rfl (.inr ⟨by decide, .inl h⟩)
    | generator => exact Pseudonym.reads_declaration (x := 'g') rfl (.inr ⟨by decide, .inl h⟩)

end BlockSort

/-! ### Blocks of comments -/

/-- What follows a declaration: the end of its line, and then another one or nothing. -/
def EndsDeclaration (k : List Char) : Prop := k = [] ∨ ∃ t, k = '\n' :: t

theorem refuses_further_comment (hk : EndsDeclaration k) :
    Refuses grammar .spaced (Grammar.all Grammar.newline [Grammar.comment]) ('\n' :: k) := by
  have hflush : grammar.Flush k := by
    rcases hk with rfl | ⟨t, rfl⟩
    · nofun
    · intro x hx
      cases hx
      rfl
  refine Refuses.seq_second (w := ['\n']) (P := Silent)
    (reads_newline k fun _ x hx => by cases hx; rfl) (.of_opening survey rfl rfl hflush ?_)
  rcases hk with rfl | ⟨t, rfl⟩
  · nofun
  · intro x hx
    cases hx
    decide

/-- Behind a comment another one or the end of the block follows on the next line. -/
theorem newline_behind_comment (cs : List Comment) (k : List Char) :
    ∃ t, (cs.map fun c => ['\n'] ++ c.render.toList).flatten ++ '\n' :: k = '\n' :: t := by
  cases cs with
  | nil => exact ⟨k, rfl⟩
  | cons c cs => exact ⟨_, rfl⟩

theorem readsMore_comments (hk : EndsDeclaration k) : ∀ cs : List Comment,
    (∀ c ∈ cs, c.WellSpelled) →
    ReadsMore grammar .spaced (Grammar.all Grammar.newline [Grammar.comment])
      (cs.map fun c => ['\n'] ++ c.render.toList).flatten ('\n' :: k) (List.Forall₂ IsComment cs)
  | [], _ => by
    refine (ReadsMore.none (refuses_further_comment hk)).mono ?_
    rintro _ rfl
    exact .nil
  | c :: cs, h => by
    have ih := readsMore_comments hk cs fun d hd => h d (List.mem_cons_of_mem c hd)
    obtain ⟨t, ht⟩ := newline_behind_comment cs k
    have hround : ReadsAs (Grammar.all Grammar.newline [Grammar.comment])
        (['\n'] ++ c.render.toList)
        ((cs.map fun c => ['\n'] ++ c.render.toList).flatten ++ '\n' :: k)
        (Single (IsComment c)) := by
      rw [ht]
      exact (reads_newline _ fun _ x hx => by cases hx; rfl).silent_then
        (Comment.reads (h c List.mem_cons_self) t)
    rw [List.map_cons, List.flatten_cons]
    refine .more hround ih ?_
    rintro _ after ⟨n, rfl, hn⟩ hafter
    exact .cons hn hafter

theorem map_comment {cs : List Comment} {ns : List Tree} (h : List.Forall₂ IsComment cs ns) :
    (ns.map Peg.Node.comment).map (·.unplaced) = cs.map (·.unplaced) := by
  induction h with
  | nil => rfl
  | cons hn _ ih => rw [List.map_cons, List.map_cons, List.map_cons, hn.2, ih]

/-- Comments with a text are read as one block, one a line. -/
theorem reads_comments {c : Comment} {cs : List Comment} (h : ∀ d ∈ c :: cs, d.WellSpelled)
    (span : Span) (hk : EndsDeclaration k) :
    ReadsAs (.call .commentBlock)
      (['\n'].intercalate ((c :: cs).map (·.render.toList))) ('\n' :: k)
      (Single (IsDeclaration (.comments ⟨c :: cs, span⟩))) := by
  have hmore := readsMore_comments hk cs fun d hd => h d (List.mem_cons_of_mem c hd)
  obtain ⟨t, ht⟩ := newline_behind_comment cs k
  have hfirst := Comment.reads (m := .spaced) (l := .spaced) (h c List.mem_cons_self) t
  rw [← ht] at hfirst
  have hbody : ReadsAs (Grammar.body .commentBlock)
      (['\n'].intercalate ((c :: cs).map (·.render.toList))) ('\n' :: k)
      (List.Forall₂ IsComment (c :: cs)) := by
    rw [List.map_cons, intercalate_cons, List.map_map]
    refine hfirst.seq hmore.many ?_
    rintro _ after ⟨n, rfl, hn⟩ hafter
    exact .cons hn hafter
  refine (reads_rule .commentBlock ?_ hbody).mono ?_
  · rw [List.map_cons, intercalate_cons]
    exact (c.solid_render.append _).append _
  · rintro _ ⟨n, rfl, hrule, hcomments⟩
    refine ⟨n, rfl, .comments ⟨n.children.map Peg.Node.comment, n.span⟩, ?_, ?_⟩
    · rw [Declaration.ofNode?, hrule]
    · rw [Declaration.unplaced, Declaration.unplaced, map_comment hcomments]

/-! ### All declarations -/

/-- A block of comments is read as a declaration. -/
theorem reads_declaration_of_comments {c : Comment} {cs : List Comment}
    (h : ∀ d ∈ c :: cs, d.WellSpelled) (span : Span) (hk : EndsDeclaration k) :
    ReadsAs declaration
      (['\n'].intercalate ((c :: cs).map (·.render.toList))) ('\n' :: k)
      (Single (IsDeclaration (.comments ⟨c :: cs, span⟩))) := by
  have hread := reads_comments h span hk
  have hword : ∃ t, ['\n'].intercalate ((c :: cs).map (·.render.toList)) = '/' :: t := by
    rw [List.map_cons, intercalate_cons, Comment.toList_render]
    cases c.kind with
    | doc => exact ⟨_, rfl⟩
    | line => exact ⟨_, rfl⟩
  obtain ⟨t, ht⟩ := hword
  rw [ht] at hread ⊢
  exact reads_declaration rfl (.inl hread)

/-- What is written for a declaration is read as what is kept of it, or nothing is written. -/
def DeclarationReads (w : List Char) (kept : Option Declaration) : Prop :=
  w = [] ∧ kept = none ∨ ∃ y, kept = some y ∧ ∀ k, EndsDeclaration k →
    ReadsAs declaration w ('\n' :: k) (Single (IsDeclaration y))

theorem CommentBlock.toList_render (b : CommentBlock) : b.render.toList =
    ['\n'].intercalate ((b.comments.filter (!·.isEmpty)).map (·.render.toList)) := by
  rw [CommentBlock.render, String.toList_intercalate, List.map_map]
  rfl

/-- A well-spelled declaration is read as what is kept of it, or it is not written. -/
theorem Declaration.reads {d : Declaration} (h : d.WellSpelled) :
    DeclarationReads d.render.toList d.tidied? := by
  cases d with
  | config b =>
    refine .inr ⟨_, rfl, fun k _ => ?_⟩
    rw [Declaration.render, toList_renderBlock, List.map_map]
    exact (BlockSort.config b.kind).reads b.span h.1
      (fun x hx => ConfigMember.lineReads (h.2 x hx)) _
  | model m =>
    refine .inr ⟨_, rfl, fun k _ => ?_⟩
    rw [Declaration.render, toList_renderBlock, List.map_map]
    exact BlockSort.model.reads m.span h.1 (fun x hx => ModelMember.lineReads (h.2 x hx)) _
  | enum e =>
    refine .inr ⟨_, rfl, fun k _ => ?_⟩
    rw [Declaration.render, toList_renderBlock, List.map_map]
    exact BlockSort.enum.reads e.span h.1 (fun x hx => EnumMember.lineReads (h.2 x hx)) _
  | comments b =>
    rw [Declaration.render, CommentBlock.toList_render, Declaration.tidied?]
    have hkept : ∀ c ∈ b.comments.filter (!·.isEmpty), c.WellSpelled := fun c hc =>
      h c (List.mem_filter.mp hc).1
    cases hcomments : b.comments.filter (!·.isEmpty) with
    | nil => exact .inl ⟨rfl, rfl⟩
    | cons c cs =>
      rw [hcomments] at hkept
      exact .inr ⟨_, rfl, fun k hk => reads_declaration_of_comments hkept b.span hk⟩

/-! ### Declarations in a row -/

theorem reads_line_end (k : List Char) :
    ReadsAs declaration ['\n'] k Silent :=
  .first (reads_newline k fun _ x hx => by cases hx; rfl)

/-- A declaration and the end of its line, in front of what is read. -/
theorem readsMore_declaration {v : List Char} {kept : Option Declaration} {ys : List Declaration}
    (h : DeclarationReads v kept) (hw : EndsDeclaration w)
    (hmore : ReadsMore grammar .spaced declaration w [] (List.Forall₂ IsDeclaration ys)) :
    ReadsMore grammar .spaced declaration (v ++ (['\n'] ++ w)) []
      (List.Forall₂ IsDeclaration (kept.toList ++ ys)) := by
  have hend : ReadsMore grammar .spaced declaration (['\n'] ++ w) []
      (List.Forall₂ IsDeclaration ys) := by
    refine .more (reads_line_end _) hmore ?_
    rintro _ after rfl hafter
    exact hafter
  rcases h with ⟨hempty, hnone⟩ | ⟨y, hsome, hread⟩
  · rw [hempty, hnone]
    exact hend
  · have hread' : ReadsAs declaration v (['\n'] ++ w ++ [])
        (Single (IsDeclaration y)) := by
      rw [List.append_nil]
      exact hread w hw
    rw [hsome]
    refine .more hread' hend ?_
    rintro _ after ⟨n, rfl, hn⟩ hafter
    exact .cons hn hafter

section Further

variable {write : Declaration → List Char} {kept : Declaration → Option Declaration}

/-- What is written behind the line of a declaration. -/
def furtherDeclarations (write : Declaration → List Char) : List Declaration → List Char
  | [] => []
  | d :: ds => ['\n'] ++ (write d ++ (['\n'] ++ furtherDeclarations write ds))

theorem endsDeclaration_further (ds : List Declaration) :
    EndsDeclaration (furtherDeclarations write ds) := by
  cases ds with
  | nil => exact .inl rfl
  | cons d ds => exact .inr ⟨_, rfl⟩

theorem filterMap_cons_toList (d : Declaration) (ds : List Declaration) :
    (d :: ds).filterMap kept = (kept d).toList ++ ds.filterMap kept := by
  rw [List.filterMap_cons]
  cases kept d <;> rfl

theorem readsMore_further : ∀ ds : List Declaration,
    (∀ d ∈ ds, DeclarationReads (write d) (kept d)) →
    ReadsMore grammar .spaced declaration (furtherDeclarations write ds) []
      (List.Forall₂ IsDeclaration (ds.filterMap kept))
  | [], _ => by
    have hnone : Refuses grammar .spaced declaration [] :=
      .of_opening survey rfl rfl nofun nofun
    refine (ReadsMore.none hnone).mono ?_
    rintro _ rfl
    exact .nil
  | d :: ds, h => by
    have ih := readsMore_further ds fun d' hd' => h d' (List.mem_cons_of_mem d hd')
    have hline := readsMore_declaration (h d List.mem_cons_self) (endsDeclaration_further ds) ih
    rw [filterMap_cons_toList]
    refine .more (reads_line_end _) hline ?_
    rintro _ after rfl hafter
    exact hafter

/-- Declarations with an empty line between them. -/
def writtenDeclarations (write : Declaration → List Char) : List Declaration → List Char
  | [] => []
  | d :: ds => write d ++ (['\n'] ++ furtherDeclarations write ds)

/-- Declarations that are read one by one are read in a row. -/
theorem reads_declarations {ds : List Declaration}
    (h : ∀ d ∈ ds, DeclarationReads (write d) (kept d)) :
    ReadsAs (.many declaration) (writtenDeclarations write ds) []
      (List.Forall₂ IsDeclaration (ds.filterMap kept)) := by
  cases ds with
  | nil =>
    have hnone : ReadsMore grammar .spaced declaration (furtherDeclarations write []) []
        (List.Forall₂ IsDeclaration ([].filterMap kept)) := readsMore_further [] h
    exact hnone.many
  | cons d ds =>
    have hfurther := readsMore_further ds fun d' hd' => h d' (List.mem_cons_of_mem d hd')
    rw [filterMap_cons_toList]
    exact (readsMore_declaration (h d List.mem_cons_self) (endsDeclaration_further ds)
      hfurther).many

end Further

end Pseudonym
