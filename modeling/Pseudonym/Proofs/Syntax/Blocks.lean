/-
# Writing and reading blocks

The lines of a block are read one after the other: an empty line leaves
nothing, and any other line its member. Lines that spell the members out are
read as these members. The lines that are written are read as the members
without the comments that have no text, and with the comments at the ends of
lines as they were written there.
-/
import Pseudonym.Proofs.Syntax.Members

namespace Pseudonym

open Peg

variable {w k : List Char}

/-! ### Lines -/

/-- A node that is a member, up to places. -/
def IsMember {α : Type} (ofNode? : Tree → Except SyntaxError (Option α)) (unplaced : α → α) (y : α)
    (n : Tree) : Prop := ∃ y', ofNode? n = .ok (some y') ∧ unplaced y' = unplaced y

theorem mapM_members {α : Type} {ofNode? : Tree → Except SyntaxError (Option α)}
    {unplaced : α → α} {ys : List α} {ns : List Tree}
    (h : List.Forall₂ (IsMember ofNode? unplaced) ys ns) :
    ∃ zs, ns.mapM ofNode? = .ok zs ∧ (zs.filterMap id).map unplaced = ys.map unplaced := by
  induction h with
  | nil => exact ⟨[], rfl, rfl⟩
  | cons hn _ ih =>
    obtain ⟨y', hy', hunplaced⟩ := hn
    obtain ⟨zs, hzs, hunplaced'⟩ := ih
    refine ⟨some y' :: zs, ?_, ?_⟩
    · rw [List.mapM_cons, hy', hzs]
      rfl
    · show unplaced y' :: (zs.filterMap id).map unplaced = _
      rw [List.map_cons, hunplaced, hunplaced']

/-- A line without anything, for what is dropped, or with what is kept behind its indent. -/
def LineReads {α : Type} (member : Expr Rule) (P : α → Tree → Prop) (line : List Char)
    (kept : Option α) : Prop :=
  line = [] ∧ kept = none ∨ ∃ w y, line = [' ', ' '] ++ w ∧ kept = some y ∧ Solid w ∧
    ∀ k, ReadsAs member w ('\n' :: k) (Single (P y))

/-- The lines of a block leave their members. -/
theorem readsMore_lines {α : Type} {member : Expr Rule} {P : α → Tree → Prop}
    {line : α → List Char} {kept : α → Option α} (k : List Char)
    (hnone : Refuses grammar .spaced member ('\x7d' :: k)) : ∀ xs : List α,
    (∀ x ∈ xs, LineReads member P (line x) (kept x)) →
    ReadsMore grammar .spaced (.alt Grammar.newline member)
      (xs.map fun x => line x ++ ['\n']).flatten ('\x7d' :: k) (List.Forall₂ P (xs.filterMap kept))
  | [], _ => by
    refine (ReadsMore.none (.alt (Solid.refuses_newline ⟨'\x7d', k, rfl, rfl⟩) hnone)).mono ?_
    rintro _ rfl
    exact .nil
  | x :: xs, h => by
    have ih := readsMore_lines k hnone xs fun y hy => h y (List.mem_cons_of_mem x hy)
    have hend : ∀ k, ReadsAs (.alt Grammar.newline member) ['\n'] k Silent :=
      fun k => .first (reads_newline k fun _ y hy => by cases hy; rfl)
    rw [List.map_cons, List.flatten_cons]
    rcases h x List.mem_cons_self with ⟨hline, hkept⟩ | ⟨w, y, hline, hkept, hsolid, hread⟩
    · rw [hline, List.filterMap_cons_none hkept]
      refine .more (hend _) ih ?_
      rintro _ after rfl hafter
      exact hafter
    · have hmember : ∀ k, ReadsAs (.alt Grammar.newline member)
          ([' ', ' '] ++ w) ('\n' :: k) (Single (P y)) := fun k =>
        (Reads.second ((hsolid.append _).refuses_newline) (hread k)).blanks rfl
      rw [hline, List.filterMap_cons_some hkept, List.append_assoc]
      refine .more (hmember _) (.more (hend _) ih (T := List.Forall₂ P (xs.filterMap kept)) ?_) ?_
      · rintro _ after rfl hafter
        exact hafter
      · rintro _ after ⟨n, rfl, hn⟩ hafter
        exact .cons hn hafter

/-! ### Members -/

theorem isComment_cases {n : Tree} (h : n.isComment = true) :
    n.rule = .docComment ∨ n.rule = .lineComment := by
  simpa [Peg.Node.isComment] using h

/-- How a member is read from a word at the end of a line. -/
structure WordReads (member : Expr Rule) (P : Tree → Prop) (w : List Char) : Prop where
  solid : Solid w
  reads : ∀ k, ReadsAs member w ('\n' :: k) (Single P)

theorem WordReads.line {α : Type} {member : Expr Rule} {P : α → Tree → Prop} {line : List Char}
    {y : α} (h : WordReads member (P y) w) (hline : line = [' ', ' '] ++ w) :
    LineReads member P line (some y) := .inr ⟨w, y, hline, rfl, h.solid, h.reads⟩

theorem lineReads_comment {α : Type} {member : Expr Rule} {P : α → Tree → Prop} {c : Comment}
    {y : α} (h : WordReads member (P y) c.render.toList) :
    LineReads member P c.line.toList (if c.isEmpty then none else some y) := by
  cases hempty : c.isEmpty with
  | true => exact .inl ⟨by rw [Comment.line, hempty]; rfl, rfl⟩
  | false =>
    refine h.line ?_
    rw [Comment.line, hempty]
    simp

/-- A rule fails at a comment that does not start with a slash. -/
theorem refuses_comment {e : Expr Rule} (c : Comment) (k : List Char)
    (hs : e.steady survey.empty = true) (he : e.mayBeEmpty survey.empty = false)
    (hslash : survey.mayOpen e '/' = false) :
    Refuses grammar .spaced e (c.render.toList ++ k) := by
  rw [Comment.toList_render]
  cases c.kind with
  | doc => exact refuses_at hs he rfl hslash
  | line => exact refuses_at hs he rfl hslash

/-- A rule fails at a name when names do not open it. -/
theorem refuses_name {e : Expr Rule} (hw : isName w = true) (k : List Char)
    (hs : e.steady survey.empty = true) (he : e.mayBeEmpty survey.empty = false)
    (hopen : ∀ x, isNameStart x = true → survey.mayOpen e x = false) :
    Refuses grammar .spaced e (w ++ k) := by
  cases w with
  | nil => cases hw
  | cons x w =>
    have hx := (Bool.and_eq_true_iff.mp hw).1
    exact refuses_at hs he (isBlank_of_isNameChar (isNameChar_of_isNameStart hx)) (hopen x hx)

theorem not_isNameStart_at {x : Char} (hx : isNameStart x = true) : ('@' == x) = false := by
  refine beq_eq_false_iff_ne.mpr ?_
  rintro rfl
  cases hx

/-! ### Kinds of members -/

section Kinds

variable {α β : Type} {comment : Comment → α} {kinds : List (Rule × (Tree → Except SyntaxError α))}
  {unplaced : α → α} {n : Tree}

theorem Peg.Node.member?_of_isComment (h : n.isComment = true) :
    n.member? comment kinds = .ok (some (comment n.comment)) := if_pos h

theorem Peg.Node.member?_of_rule {r : Rule} {ofNode : Tree → Except SyntaxError α}
    (hrule : n.rule = r) (hr : (r == .docComment || r == .lineComment) = false)
    (hkind : kinds.find? (·.1 = r) = some (r, ofNode)) :
    n.member? comment kinds = ofNode n >>= fun a => .ok (some a) := by
  rw [member?, isComment, hrule, hr, hkind]
  rfl

/-- A node that is a comment is one in a block. -/
theorem IsComment.isMember {c : Comment} (h : IsComment c n)
    (hmake : ∀ c, unplaced (comment c) = comment c.unplaced) :
    IsMember (Node.member? comment kinds) unplaced (comment c) n :=
  ⟨comment n.comment, Node.member?_of_isComment h.1, by rw [hmake, hmake, h.2]⟩

/-- A node is the member that its rule stands for. -/
theorem isMember_of_rule {r : Rule} {ofNode : Tree → Except SyntaxError β} {make : β → α}
    {unplaced' : β → β} {b : β} (h : IsOf r ofNode unplaced' b n)
    (hr : (r == .docComment || r == .lineComment) = false)
    (hkind : kinds.find? (·.1 = r) = some (r, fun n => do .ok (make (← ofNode n))))
    (hmake : ∀ b, unplaced (make b) = make (unplaced' b)) :
    IsMember (Node.member? comment kinds) unplaced (make b) n := by
  obtain ⟨hrule, b', hb', hunplaced⟩ := h
  refine ⟨make b', ?_, by rw [hmake, hmake, hunplaced]⟩
  rw [Node.member?_of_rule hrule hr hkind, hb']
  rfl

/-- A member of a model or of an enum: an attribute of the block, what the block is made of, or a
comment. -/
def ownMember (own : Rule) : Expr Rule :=
  Grammar.first (.call .blockAttributeDef) [.call own, Grammar.comment]

variable {own : Rule}

theorem wordReads_own {v : List Char} {ofNode : Tree → Except SyntaxError β} {make : β → α}
    {unplaced' : β → β} {b : β} (hw : isName w = true)
    (h : ∀ k, ReadsAs (.call own) (w ++ v) ('\n' :: k) (Single (IsOf own ofNode unplaced' b)))
    (hr : (own == .docComment || own == .lineComment) = false)
    (hkind : kinds.find? (·.1 = own) = some (own, fun n => do .ok (make (← ofNode n))))
    (hmake : ∀ b, unplaced (make b) = make (unplaced' b)) :
    WordReads (ownMember own) (IsMember (Node.member? comment kinds) unplaced (make b))
      (w ++ v) := by
  refine ⟨(solid_of_isName hw).append v, fun k => ?_⟩
  have hrefuses : Refuses grammar .spaced (.call .blockAttributeDef) (w ++ v ++ '\n' :: k) := by
    rw [List.append_assoc]
    exact refuses_name hw _ rfl rfl fun x hx =>
      Bool.or_eq_false_iff.mpr ⟨not_isNameStart_at hx, rfl⟩
  refine (Reads.second hrefuses (.first (h k))).mono_single fun n hn => ?_
  exact isMember_of_rule hn hr hkind hmake

theorem wordReads_blockAttribute {make : BlockAttribute → α} {a : BlockAttribute}
    (ha : a.WellSpelled)
    (hkind : kinds.find? (·.1 = .blockAttributeDef) =
      some (.blockAttributeDef, fun n => do .ok (make (← BlockAttribute.ofNode n))))
    (hmake : ∀ a, unplaced (make a) = make a.unplaced) :
    WordReads (ownMember own) (IsMember (Node.member? comment kinds) unplaced (make a)) a.word := by
  refine ⟨a.solid_word, fun k => ?_⟩
  refine (Reads.first (BlockAttribute.reads ha k)).mono_single fun n hn => ?_
  exact isMember_of_rule hn rfl hkind hmake

theorem wordReads_comment {c : Comment} (hc : c.WellSpelled)
    (hs : (Expr.call own).steady survey.empty = true)
    (he : (Expr.call own).mayBeEmpty survey.empty = false)
    (hslash : survey.mayOpen (.call own) '/' = false)
    (hmake : ∀ c, unplaced (comment c) = comment c.unplaced) :
    WordReads (ownMember own) (IsMember (Node.member? comment kinds) unplaced (comment c))
      c.render.toList := by
  refine ⟨c.solid_render, fun k => ?_⟩
  refine (Reads.second (refuses_comment c _ rfl rfl (by decide))
    (.second (refuses_comment c _ hs he hslash) (Comment.reads hc k))).mono_single fun n hn => ?_
  exact hn.isMember hmake

end Kinds

/-- A member of a model. -/
abbrev modelMember : Expr Rule := ownMember .fieldDef

namespace ModelMember

/-- How a member of a model is spelled. -/
def word : ModelMember → List Char
  | .field f => f.word
  | .blockAttribute a => a.word
  | .comment c => c.render.toList

/-- A well-spelled member of a model is read as it is spelled. -/
theorem wordReads (member : ModelMember) (h : member.WellSpelled) :
    WordReads modelMember (IsMember ofNode? unplaced member) member.word := by
  cases member with
  | field f => exact wordReads_own h.name (Field.reads h) rfl rfl fun _ => rfl
  | blockAttribute a => exact wordReads_blockAttribute h rfl fun _ => rfl
  | comment c => exact wordReads_comment h rfl rfl (by decide) fun _ => rfl

theorem lineReads {member : ModelMember} (h : member.WellSpelled) :
    LineReads modelMember (IsMember ofNode? unplaced) member.line.toList member.tidied? := by
  cases member with
  | field f =>
    exact (wordReads (.field f.atEnd) (Field.wellSpelled_atEnd h)).line f.toList_line
  | blockAttribute a =>
    exact (wordReads (.blockAttribute a.atEnd) (BlockAttribute.wellSpelled_atEnd h)).line
      a.toList_line
  | comment c => exact lineReads_comment (wordReads _ h)

end ModelMember

/-- A member of an enum. -/
abbrev enumMember : Expr Rule := ownMember .enumValue

namespace EnumMember

/-- How a member of an enum is spelled. -/
def word : EnumMember → List Char
  | .value v => v.word
  | .blockAttribute a => a.word
  | .comment c => c.render.toList

/-- A well-spelled member of an enum is read as it is spelled. -/
theorem wordReads (member : EnumMember) (h : member.WellSpelled) :
    WordReads enumMember (IsMember ofNode? unplaced member) member.word := by
  cases member with
  | value v => exact wordReads_own h.name (EnumValue.reads h) rfl rfl fun _ => rfl
  | blockAttribute a => exact wordReads_blockAttribute h rfl fun _ => rfl
  | comment c => exact wordReads_comment h rfl rfl (by decide) fun _ => rfl

theorem lineReads {member : EnumMember} (h : member.WellSpelled) :
    LineReads enumMember (IsMember ofNode? unplaced) member.line.toList member.tidied? := by
  cases member with
  | value v =>
    exact (wordReads (.value v.atEnd) (EnumValue.wellSpelled_atEnd h)).line v.toList_line
  | blockAttribute a =>
    exact (wordReads (.blockAttribute a.atEnd) (BlockAttribute.wellSpelled_atEnd h)).line
      a.toList_line
  | comment c => exact lineReads_comment (wordReads _ h)

end EnumMember

/-- A member of a block of configuration. -/
def configMember : Expr Rule := .alt (.call .configProperty) Grammar.comment

namespace ConfigMember

/-- How a member of a block of configuration is spelled. -/
def word : ConfigMember → List Char
  | .property p => p.word
  | .comment c => c.render.toList

/-- A well-spelled member of a block of configuration is read as it is spelled. -/
theorem wordReads (member : ConfigMember) (h : member.WellSpelled) :
    WordReads configMember (IsMember ofNode? unplaced member) member.word := by
  cases member with
  | property p =>
    refine ⟨Property.solid_word h, fun k => ?_⟩
    refine (Reads.first (Property.reads h k)).mono_single fun n hn => ?_
    exact isMember_of_rule hn rfl rfl fun _ => rfl
  | comment c =>
    refine ⟨c.solid_render, fun k => ?_⟩
    refine (Reads.second (refuses_comment c _ rfl rfl (by decide))
      (Comment.reads h k)).mono_single fun n hn => ?_
    exact hn.isMember fun _ => rfl

theorem lineReads {member : ConfigMember} (h : member.WellSpelled) :
    LineReads configMember (IsMember ofNode? unplaced) member.line.toList member.tidied? := by
  cases member with
  | property p =>
    exact (wordReads (.property p.atEnd) (Property.wellSpelled_atEnd h)).line
      p.toList_line
  | comment c => exact lineReads_comment (wordReads _ h)

end ConfigMember

/-! ### Blocks -/

/-- How a block is written behind its keyword. -/
def blockTail (name : String) (lines : List (List Char)) : List Char :=
  [' '] ++ name.toList ++ ([' '] ++ ['\x7b'] ++
    (['\n'] ++ (lines.map (· ++ ['\n'])).flatten ++ ['\x7d']))

theorem toList_renderBlock (keyword name : String) (lines : List String) :
    (renderBlock keyword name lines).toList =
      keyword.toList ++ blockTail name (lines.map String.toList) := by
  rw [renderBlock, blockTail]
  simp [String.toList_append, String.toList_join, List.flatMap_def,
    Function.comp_def]

/-- The nodes of a block: its keyword, its name and its members. -/
def AreBlock {α : Type} (keyword name : String) (P : α → Tree → Prop) (ys : List α)
    (ns : List Tree) : Prop :=
  ∃ head ident rest, ns = head :: ident :: rest ∧ head.text = keyword.toList ∧
    ident.text = name.toList ∧ List.Forall₂ P ys rest

/-- A block whose lines are read is read. -/
theorem reads_block {α : Type} (r : Rule) (member : Expr Rule) {P : α → Tree → Prop}
    {line : α → List Char} {kept : α → Option α} {keyword name : String} {xs : List α}
    (hkeyword : ∀ k, EndsName k → ReadsAs (.call r) keyword.toList k
      (Single (Node.Spells r keyword.toList)))
    (hname : isName name.toList = true)
    (hnone : ∀ k, Refuses grammar .spaced member ('\x7d' :: k))
    (hlines : ∀ x ∈ xs, LineReads member P (line x) (kept x)) (k : List Char) :
    ReadsAs (Grammar.block (.call r) member)
      (keyword.toList ++ blockTail name (xs.map line)) k
      (AreBlock keyword name P (xs.filterMap kept)) := by
  have hmore := readsMore_lines k (hnone k) xs hlines
  have hrounds : ReadsMore grammar .spaced (.alt Grammar.newline member)
      (['\n'] ++ ((xs.map line).map (· ++ ['\n'])).flatten) ('\x7d' :: k)
      (List.Forall₂ P (xs.filterMap kept)) := by
    rw [List.map_map]
    refine .more (.first (reads_newline _ fun _ y hy => by cases hy; rfl)) hmore ?_
    rintro _ after rfl hafter
    exact hafter
  have hspace : ∀ k, EndsName (' ' :: k) := fun k =>
    (apart_cons (x := ' ') ⟨rfl, by decide⟩).endsName
  have hident : ∀ k, ReadsAs (.call .identifier) ([' '] ++ name.toList)
      (' ' :: k) (Single (Node.Spells .identifier name.toList)) := fun k =>
    (reads_identifier (m := .spaced) hname (hspace k) nofun).blanks rfl
  have hbraces : ReadsAs (Grammar.all (Grammar.lit "\x7b")
      [.many (.alt Grammar.newline member), Grammar.lit "\x7d"])
      ([' '] ++ ['\x7b'] ++ (['\n'] ++ ((xs.map line).map (· ++ ['\n'])).flatten ++ ['\x7d'])) k
      (List.Forall₂ P (xs.filterMap kept)) :=
    ((reads_mark rfl _).blanks rfl).silent_then (hrounds.many.then_silent (reads_mark rfl k))
  refine (hkeyword _ (hspace _)).seq ((hident _).seq hbraces
    (T := fun ns => ∃ ident rest, ns = ident :: rest ∧ ident.text = name.toList ∧
      List.Forall₂ P (xs.filterMap kept) rest) ?_) ?_
  · rintro _ rest ⟨ident, rfl, hident⟩ hrest
    exact ⟨ident, rest, rfl, hident.text, hrest⟩
  · rintro _ _ ⟨head, rfl, hhead⟩ ⟨ident, rest, rfl, hident, hrest⟩
    exact ⟨head, ident, rest, rfl, hhead.text, hident, hrest⟩

end Pseudonym
