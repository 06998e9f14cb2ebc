/-
# Writing and reading values

A well-spelled value is written as a text that reads as this value again,
wherever something follows that ends a value, and so is an argument of an
attribute or a call. The proof follows the value: literals are read by their
rules, and for the rest it is enough that the parts are read.
-/
import Pseudonym.Proofs.Syntax.Choice

namespace Pseudonym

open Peg

variable {m l : Mode} {w k : List Char}

/-! ### Nodes of values -/

/-- A node that is a value, up to places. -/
def IsValue (v : Value) (n : Tree) : Prop :=
  ∃ v', Value.ofNode n = .ok v' ∧ v'.unplaced = v.unplaced

/-- A node that is an argument, up to places. -/
def IsArgument (a : Argument) (n : Tree) : Prop :=
  n.rule = .argument ∧ ∃ a', Argument.ofNode n = .ok a' ∧
    a'.name.map (·.unplaced) = a.name.map (·.unplaced) ∧ a'.value.unplaced = a.value.unplaced

theorem isValue_of_isLiteral {text : String} {n : Tree} (h : IsLiteral text.toList n) :
    IsValue (.string text) n := by
  obtain ⟨rule, span, chars, children⟩ := n
  obtain ⟨rfl, content, rfl, -, hcontent⟩ := h
  refine ⟨.string text, ?_, rfl⟩
  rw [Value.ofNode, Peg.Node.firstText, hcontent, String.ofList_toList]

theorem isValue_of_number {n : Tree} {v : Value} (h : Node.Spells .number w n)
    (hv : Value.ofNumeral w = v) : IsValue v n := by
  obtain ⟨rule, span, chars, children⟩ := n
  obtain ⟨rfl, rfl⟩ := h
  exact ⟨v, by rw [Value.ofNode, hv], rfl⟩

theorem isValue_of_boolean {n : Tree} {truth : Bool}
    (h : Node.Spells .boolean (truthWord truth) n) : IsValue (.boolean truth) n := by
  obtain ⟨rule, span, chars, children⟩ := n
  obtain ⟨rfl, rfl⟩ := h
  refine ⟨.boolean truth, ?_, rfl⟩
  rw [Value.ofNode]
  cases truth <;> rfl

theorem not_mem_of_isName {name : List Char} (h : isName name = true) : '.' ∉ name := by
  intro hmem
  have hpoint := List.all_eq_true.mp (all_isNameChar_of_isName h) '.' hmem
  cases hpoint

theorem splitOn_pathWord {segments : List String} (h : IsSegments segments) :
    ((pathWord segments).splitOn '.').map String.ofList = segments := by
  obtain ⟨hnames, first, hfirst, -⟩ := h
  have hne : segments.map String.toList ≠ [] := by
    cases segments with
    | nil => cases hfirst
    | cons _ _ => simp
  rw [pathWord, List.splitOn_intercalate '.' _ hne]
  · simp
  · intro name hname
    obtain ⟨segment, hsegment, rfl⟩ := List.mem_map.mp hname
    exact not_mem_of_isName (hnames segment hsegment)

theorem isValue_of_path {n : Tree} {segments : List String} (h : IsSegments segments)
    (hn : Node.Spells .path (pathWord segments) n) : IsValue (.path segments) n := by
  obtain ⟨rule, span, chars, children⟩ := n
  obtain ⟨rfl, rfl⟩ := hn
  exact ⟨.path segments, by rw [Value.ofNode, splitOn_pathWord h], rfl⟩

theorem listOfNodes_values {vs : List Value} {ns : List Tree} (h : List.Forall₂ IsValue vs ns) :
    ∃ vs', Value.listOfNodes ns = .ok vs' ∧ vs'.map (·.unplaced) = vs.map (·.unplaced) := by
  induction h with
  | nil => exact ⟨[], by rw [Value.listOfNodes], rfl⟩
  | cons hn _ ih =>
    obtain ⟨v', hv', hunplaced⟩ := hn
    obtain ⟨vs', hvs', hunplaced'⟩ := ih
    refine ⟨v' :: vs', ?_, ?_⟩
    · rw [Value.listOfNodes, hv', hvs']
      rfl
    · rw [List.map_cons, List.map_cons, hunplaced, hunplaced']

theorem listOfNodes_arguments {args : List Argument} {ns : List Tree}
    (h : List.Forall₂ IsArgument args ns) :
    ∃ args', Argument.listOfNodes ns = .ok args' ∧
      Argument.unplacedEach args' = Argument.unplacedEach args := by
  induction h with
  | nil => exact ⟨[], by rw [Argument.listOfNodes], rfl⟩
  | @cons a n _ _ hn _ ih =>
    obtain ⟨hrule, a', ha', hname, hvalue⟩ := hn
    obtain ⟨args', hargs', hunplaced⟩ := ih
    obtain ⟨name, value, span⟩ := a
    obtain ⟨name', value', span'⟩ := a'
    refine ⟨⟨name', value', span'⟩ :: args', ?_, ?_⟩
    · rw [Argument.listOfNodes, if_pos hrule, ha', hargs']
      rfl
    · rw [Argument.unplacedEach_cons, Argument.unplacedEach_cons, hunplaced]
      dsimp only at hname hvalue
      rw [hname, hvalue]

theorem Argument.ofNode_value {r : Rule} {span : Span} {chars : List Char} {n : Tree}
    {rest : List Tree} {v : Value} (h : Value.ofNode n = .ok v) :
    Argument.ofNode ⟨r, span, chars, n :: rest⟩ = .ok ⟨none, v, span⟩ := by
  rw [Argument.ofNode, h]
  · rfl
  · -- A named argument is no value.
    rintro span' chars' parts rfl
    rw [Value.ofNode] at h
    · cases h
    all_goals nofun

/-- The node of arguments between parentheses. -/
def AreArguments (args : List Argument) (n : Tree) : Prop :=
  n.rule = .arguments ∧ List.Forall₂ IsArgument args n.children

theorem listOfNode_arguments {args : List Argument} {n : Tree} (h : AreArguments args n) :
    ∃ args', Argument.listOfNode n = .ok args' ∧
      Argument.unplacedEach args' = Argument.unplacedEach args := by
  obtain ⟨rule, span, chars, children⟩ := n
  obtain ⟨args', hargs', hunplaced⟩ := listOfNodes_arguments h.2
  exact ⟨args', by rw [Argument.listOfNode, hargs'], hunplaced⟩

/-! ### Words of values -/

/-- How an argument is written. -/
def Argument.word (a : Argument) : List Char :=
  match a.name with
  | none => a.value.render.toList
  | some name => name.name.toList ++ ([':'] ++ ([' '] ++ a.value.render.toList))

theorem Argument.toList_renderEach : ∀ args : List Argument,
    (Argument.renderEach args).map String.toList = args.map Argument.word
  | [] => rfl
  | ⟨none, value, _⟩ :: rest => by
    rw [Argument.renderEach, List.map_cons, List.map_cons, toList_renderEach rest]
    rfl
  | ⟨some name, value, _⟩ :: rest => by
    rw [Argument.renderEach, List.map_cons, List.map_cons, toList_renderEach rest]
    simp [Argument.word, String.toList_append]

theorem Value.toList_renderEach (vs : List Value) :
    (Value.renderEach vs).map String.toList = vs.map (·.render.toList) := by
  induction vs with
  | nil => rfl
  | cons v vs ih => rw [Value.renderEach, List.map_cons, List.map_cons, ih]

/-- How arguments are written between their parentheses. -/
def Argument.listWord (args : List Argument) : List Char :=
  ['('] ++ ([',', ' '].intercalate (args.map Argument.word) ++ [')'])

theorem Argument.toList_list (args : List Argument) :
    ("(" ++ ", ".intercalate (Argument.renderEach args) ++ ")").toList =
      Argument.listWord args := by
  rw [String.toList_append, String.toList_append, String.toList_intercalate,
    Argument.toList_renderEach, List.append_assoc]
  rfl

theorem Value.toList_render_call (name : String) (args : List Argument) :
    (Value.call name args).render.toList = name.toList ++ Argument.listWord args := by
  rw [Value.render, ← Argument.toList_list, String.append_assoc, String.append_assoc,
    String.toList_append, String.append_assoc]

theorem Value.toList_render_array (items : List Value) :
    (Value.array items).render.toList =
      ['['] ++ ([',', ' '].intercalate (items.map (·.render.toList)) ++ [']']) := by
  rw [Value.render, String.toList_append, String.toList_append, String.toList_intercalate,
    Value.toList_renderEach, List.append_assoc]
  rfl

theorem Value.toList_render_path (segments : List String) :
    (Value.path segments).render.toList = pathWord segments := by
  rw [Value.render, String.toList_intercalate]
  rfl

theorem Value.toList_render_string (text : String) :
    (Value.string text).render.toList = '"' :: (text.toList ++ ['"']) := by
  rw [Value.render, String.toList_append, String.toList_append]
  rfl

theorem Value.toList_render_boolean (truth : Bool) :
    (Value.boolean truth).render.toList = truthWord truth := by
  cases truth <;> rw [Value.render] <;> rfl

theorem isPath_start (hw : IsPath w) : ∃ name t, isName name = true ∧ w = name ++ t ∧
    ∀ x ∈ t.head?, x = '.' := by
  obtain ⟨names, hne, hnames, rfl⟩ := hw
  cases names with
  | nil => exact absurd rfl hne
  | cons first rest =>
    refine ⟨first, _, hnames first List.mem_cons_self, intercalate_cons _ _ _, ?_⟩
    intro x hx
    cases rest with
    | nil => cases hx
    | cons second rest =>
      cases hx
      rfl

/-- A value starts with a character of its own, or with a name that a point, a parenthesis or
the end of the value follows. -/
theorem Value.start_render {v : Value} (h : v.WellSpelled) :
    (∃ x t, v.render.toList = x :: t ∧ isBlank x = false ∧ isNameStart x = false) ∨
      ∃ name t, isName name = true ∧ v.render.toList = name ++ t ∧
        ∀ x ∈ t.head?, x = '.' ∨ x = '(' := by
  have hnumeral : ∀ w, IsNumeral w →
      ∃ x t, w = x :: t ∧ isBlank x = false ∧ isNameStart x = false := by
    intro w hw
    obtain ⟨x, t, rfl, hx⟩ := head_of_isNumeral hw
    exact ⟨x, t, rfl, (mayOpen_of_digit hx).2.2.2, isNameStart_of_digit hx⟩
  cases v with
  | string text => exact .inl ⟨'"', _, Value.toList_render_string text, rfl, rfl⟩
  | int n =>
    rw [Value.render]
    exact .inl (hnumeral _ (ofNumeral_toString n).1)
  | number digits =>
    rw [Value.WellSpelled] at h
    rw [Value.render]
    exact .inl (hnumeral _ h.1)
  | boolean truth =>
    rw [Value.toList_render_boolean]
    refine .inr ⟨truthWord truth, [], ?_, by simp, nofun⟩
    cases truth <;> decide
  | path segments =>
    rw [Value.WellSpelled] at h
    obtain ⟨name, t, hname, hword, ht⟩ := isPath_start (isPath_of_isSegments h)
    rw [Value.toList_render_path]
    exact .inr ⟨name, t, hname, hword, fun x hx => .inl (ht x hx)⟩
  | call name args =>
    rw [Value.WellSpelled] at h
    obtain ⟨first, t, hname, hword, ht⟩ := isPath_start h.1
    rw [Value.toList_render_call, hword, List.append_assoc]
    refine .inr ⟨first, _, hname, rfl, ?_⟩
    intro x hx
    cases t with
    | nil =>
      cases hx
      exact .inr rfl
    | cons y t =>
      cases hx
      exact .inl (ht x rfl)
  | array items => exact .inl ⟨'[', _, Value.toList_render_array items, rfl, rfl⟩

theorem Value.solid_render {v : Value} (h : v.WellSpelled) : Solid v.render.toList := by
  rcases Value.start_render h with ⟨x, t, htext, hx, -⟩ | ⟨name, t, hname, htext, -⟩
  · exact ⟨x, t, htext, hx⟩
  · rw [htext]
    exact (solid_of_isName hname).append t

/-- A value in front of a comma or a parenthesis is no named argument. -/
theorem Value.refuses_namedArgument {v : Value} (h : v.WellSpelled)
    (hk : k.head? = some ',' ∨ k.head? = some ')') :
    Refuses grammar .spaced (.call .namedArgument) (v.render.toList ++ k) := by
  refine .call (m := .spaced) ?_ fun _ => ((Value.solid_render h).append k).flush
  rcases Value.start_render h with ⟨x, t, htext, hx, hstart⟩ | ⟨name, t, hname, htext, ht⟩
  · rw [htext]
    exact .seq_first (refuses_at rfl rfl hx (mayOpen_identifier hstart))
  · have hnext : ∀ x ∈ (t ++ k).head?, x ∈ ['.', '(', ',', ')'] := by
      intro x hx
      cases t with
      | nil =>
        have hx : k.head? = some x := hx
        rw [hx] at hk
        rcases hk with hk | hk <;> cases hk <;> decide
      | cons y t =>
        cases hx
        rcases ht x rfl with rfl | rfl <;> decide
    have hmark : ∀ x ∈ ['.', '(', ',', ')'],
        isNameChar x = false ∧ grammar.blank x = false ∧ x ≠ ':' := by
      intro x hx
      simp only [List.mem_cons, List.not_mem_nil, or_false] at hx
      rcases hx with rfl | rfl | rfl | rfl <;> decide
    rw [htext, List.append_assoc]
    refine .seq_second (reads_identifier hname (fun x hx => (hmark x (hnext x hx)).1) nofun)
      (.seq_first (.word ?_ fun _ x hx => (hmark x (hnext x hx)).2.1))
    rintro ⟨v, hv⟩
    exact (hmark ':' (hnext ':' (by rw [← hv]; rfl))).2.2 rfl

theorem Argument.solid_word {a : Argument} (hname : ∀ ident ∈ a.name, isName ident.name.toList = true)
    (hvalue : a.value.WellSpelled) : Solid a.word := by
  rw [Argument.word]
  cases h : a.name with
  | none => exact Value.solid_render hvalue
  | some ident => exact (solid_of_isName (hname ident h)).append _

/-! ### Reading -/

/-- Arguments that are read one by one are read between parentheses. -/
theorem reads_arguments {args : List Argument} (hsolid : ∀ a ∈ args, Solid a.word)
    (hread : ∀ a ∈ args, ∀ k, (k.head? = some ',' ∨ k.head? = some ')') →
      ReadsAs (.call .argument) a.word k (Single (IsArgument a)))
    (k : List Char) :
    Reads grammar .compact .compact (.call .arguments) (Argument.listWord args) k
      (Single (AreArguments args)) := by
  refine .call (m := .compact) (l := .compact) ?_ (fun _ => Solid.flush ⟨'(', _, rfl, rfl⟩) nofun
  have hitems := reads_items (.inl rfl) k hsolid hread (refuses_at rfl rfl rfl (by decide))
  refine (reads_mark rfl _).silent_then (Reads.silent_then (w := []) (reads_no_newlines ?_)
    (hitems.then_silent (reads_mark rfl k)))
  cases args with
  | nil => exact ⟨')', k, rfl, rfl⟩
  | cons a args =>
    rw [List.map_cons, intercalate_cons]
    exact (((hsolid a List.mem_cons_self).append _).append [')']).append k

/-- A value that is read is read as an argument, with a name or without. -/
theorem reads_argument {name : Option Ident} {value : Value} {span : Span}
    (hname : ∀ ident ∈ name, isName ident.name.toList = true) (hvalue : value.WellSpelled)
    (hread : ∀ k, EndsValue k →
      ReadsAs Grammar.value value.render.toList k (Single (IsValue value)))
    (hk : k.head? = some ',' ∨ k.head? = some ')') :
    ReadsAs (.call .argument) (Argument.word ⟨name, value, span⟩) k
      (Single (IsArgument ⟨name, value, span⟩)) := by
  have hends := endsValue_of_head (.inl rfl) hk
  have hsolid := (Argument.solid_word (a := ⟨name, value, span⟩) hname hvalue).append k
  cases name with
  | none =>
    have hcall := reads_rule .argument hsolid
      (.second (Value.refuses_namedArgument hvalue hk) (hread k hends))
    refine hcall.mono ?_
    rintro _ ⟨⟨rule, argSpan, chars, children⟩, rfl, rfl, n, rfl, v', hv', hunplaced⟩
    exact ⟨_, rfl, rfl, ⟨none, v', argSpan⟩, Argument.ofNode_value hv', rfl, hunplaced⟩
  | some ident =>
    have hread' : ReadsAs (.seq (Grammar.lit ":") Grammar.value)
        ([':'] ++ ([' '] ++ value.render.toList)) k (Single (IsValue value)) :=
      (reads_mark rfl _).silent_then (.blanks (b := [' ']) (hread k hends) rfl)
    have hbody : ReadsAs (Grammar.body .namedArgument)
        (ident.name.toList ++ ([':'] ++ ([' '] ++ value.render.toList))) k (fun ns =>
          ∃ name v, ns = [name, v] ∧ name.text = ident.name.toList ∧ IsValue value v) := by
      refine (reads_identifier (m := .spaced) (hname ident rfl) ?_ nofun).seq hread' ?_
      · exact (apart_cons (x := ':') ⟨rfl, by decide⟩).endsName
      · rintro _ _ ⟨n, rfl, hn⟩ ⟨v, rfl, hv⟩
        exact ⟨n, v, rfl, hn.text, hv⟩
    have hcall := reads_rule .argument hsolid (.first (reads_rule .namedArgument hsolid hbody))
    refine hcall.mono ?_
    rintro _ ⟨⟨rule, argSpan, chars, children⟩, rfl, rfl, ⟨rule', span', chars', children'⟩, rfl, rfl,
      name, v, rfl, hname, v', hv', hunplaced⟩
    refine ⟨_, rfl, rfl, ⟨some name.ident, v', argSpan⟩, ?_, ?_, hunplaced⟩
    · rw [Argument.ofNode, hv']
      rfl
    · rw [Option.map_some, Option.map_some, Peg.Node.ident, Peg.Node.string, hname,
        String.ofList_toList]
      rfl

theorem reads_call {name : String} {args : List Argument} (hname : IsPath name.toList)
    (hargs : Reads grammar .compact .compact (.call .arguments) (Argument.listWord args) k
      (Single (AreArguments args))) :
    ReadsAs Grammar.value (name.toList ++ Argument.listWord args) k
      (Single (IsValue (.call name args))) := by
  have hbody : Reads grammar .compact .atomic (Grammar.body .functionCall)
      (name.toList ++ Argument.listWord args) k (fun ns => ∃ path list, ns = [path, list] ∧
        path.text = name.toList ∧ AreArguments args list) := by
    refine (reads_path (m := .compact) hname ?_ nofun).seq hargs ?_
    · exact apart_cons (x := '(') ⟨rfl, by decide⟩
    · rintro _ _ ⟨n, rfl, hn⟩ ⟨list, rfl, hlist⟩
      exact ⟨n, list, rfl, hn.text, hlist⟩
  have hcall := reads_rule .functionCall (((solid_of_isPath hname).append _).append k)
    (hbody.relax .spaced)
  refine .first (hcall.mono ?_)
  rintro _ ⟨⟨rule, span, chars, children⟩, rfl, rfl, path, list, rfl, hpath, hlist⟩
  obtain ⟨args', hargs', hunplaced⟩ := listOfNode_arguments hlist
  refine ⟨_, rfl, .call name args', ?_, ?_⟩
  · rw [Value.ofNode, hargs', Peg.Node.string, hpath, String.ofList_toList]
    rfl
  · rw [Value.unplaced_call, Value.unplaced_call, hunplaced]

theorem reads_array {items : List Value} (hsolid : ∀ v ∈ items, Solid v.render.toList)
    (hread : ∀ v ∈ items, ∀ k, (k.head? = some ',' ∨ k.head? = some ']') →
      ReadsAs Grammar.value v.render.toList k (Single (IsValue v)))
    (k : List Char) :
    ReadsAs Grammar.value
      (['['] ++ ([',', ' '].intercalate (items.map (·.render.toList)) ++ [']'])) k
      (Single (IsValue (.array items))) := by
  have hitems := reads_items (.inr rfl) k hsolid hread (refuses_at rfl rfl rfl (by decide))
  have hbody : ReadsAs (Grammar.body .array)
      (['['] ++ ([',', ' '].intercalate (items.map (·.render.toList)) ++ [']'])) k
      (List.Forall₂ IsValue items) := by
    refine (reads_mark rfl _).silent_then (Reads.silent_then (w := []) (reads_no_newlines ?_)
      (hitems.then_silent (reads_mark rfl k)))
    cases items with
    | nil => exact ⟨']', k, rfl, rfl⟩
    | cons v items =>
      rw [List.map_cons, intercalate_cons]
      exact (((hsolid v List.mem_cons_self).append _).append [']']).append k
  have hcall := reads_rule .array ⟨'[', _, rfl, rfl⟩ hbody
  refine .second (refuses_at rfl rfl rfl (by decide)) (.first (hcall.mono ?_))
  rintro _ ⟨⟨rule, span, chars, children⟩, rfl, rfl, hvalues⟩
  obtain ⟨vs, hvs, hunplaced⟩ := listOfNodes_values hvalues
  refine ⟨_, rfl, .array vs, ?_, ?_⟩
  · rw [Value.ofNode, hvs]
    rfl
  · rw [Value.unplaced_array, Value.unplaced_array, hunplaced]

mutual

/-- A well-spelled value is read as it is written. -/
theorem Value.reads : ∀ (v : Value), v.WellSpelled → ∀ k, EndsValue k →
    ReadsAs Grammar.value v.render.toList k (Single (IsValue v))
  | .string text, h, k, _ => by
    rw [Value.WellSpelled] at h
    rw [Value.toList_render_string]
    exact (reads_value_string h k).mono fun _ ⟨n, hns, hn⟩ => ⟨n, hns, isValue_of_isLiteral hn⟩
  | .int n, _, k, hk => by
    obtain ⟨hnumeral, hvalue⟩ := ofNumeral_toString n
    rw [Value.render]
    exact (reads_value_number hnumeral hk.apart).mono fun _ ⟨n, hns, hn⟩ =>
      ⟨n, hns, isValue_of_number hn hvalue⟩
  | .number digits, h, k, hk => by
    rw [Value.WellSpelled] at h
    obtain ⟨hnumeral, hnone⟩ := h
    have hvalue : Value.ofNumeral digits.toList = .number digits := by
      rw [Value.ofNumeral, hnone, String.ofList_toList]
    rw [Value.render]
    exact (reads_value_number hnumeral hk.apart).mono fun _ ⟨n, hns, hn⟩ =>
      ⟨n, hns, isValue_of_number hn hvalue⟩
  | .boolean truth, _, k, hk => by
    rw [Value.toList_render_boolean]
    exact (reads_value_boolean truth hk).mono fun _ ⟨n, hns, hn⟩ => ⟨n, hns, isValue_of_boolean hn⟩
  | .path segments, h, k, hk => by
    rw [Value.WellSpelled] at h
    rw [Value.toList_render_path]
    exact (reads_value_path h hk).mono fun _ ⟨n, hns, hn⟩ => ⟨n, hns, isValue_of_path h hn⟩
  | .call name args, h, k, _ => by
    rw [Value.WellSpelled] at h
    have hargs := Argument.reads_each args h.2
    rw [Value.toList_render_call]
    exact reads_call h.1 (reads_arguments (fun a ha => (hargs a ha).1) (fun a ha => (hargs a ha).2) k)
  | .array items, h, k, _ => by
    rw [Value.WellSpelled] at h
    have hitems := Value.reads_each items h
    rw [Value.toList_render_array]
    exact reads_array (fun v hv => (hitems v hv).1)
      (fun v hv k hk => (hitems v hv).2 k (endsValue_of_head (.inr rfl) hk)) k

/-- Well-spelled values are read one by one. -/
theorem Value.reads_each : ∀ (vs : List Value), Value.WellSpelledEach vs → ∀ v ∈ vs,
    Solid v.render.toList ∧ ∀ k, EndsValue k →
      ReadsAs Grammar.value v.render.toList k (Single (IsValue v))
  | [], _, _, hv => nomatch hv
  | v :: vs, h, v', hv' => by
    rw [Value.WellSpelledEach] at h
    have hread := Value.reads v h.1
    rcases List.mem_cons.mp hv' with rfl | hv'
    · exact ⟨Value.solid_render h.1, hread⟩
    · exact Value.reads_each vs h.2 v' hv'

/-- Well-spelled arguments are read one by one. -/
theorem Argument.reads_each : ∀ (args : List Argument), Argument.WellSpelledEach args → ∀ a ∈ args,
    Solid a.word ∧ ∀ k, (k.head? = some ',' ∨ k.head? = some ')') →
      ReadsAs (.call .argument) a.word k (Single (IsArgument a))
  | [], _, _, ha => nomatch ha
  | ⟨name, value, span⟩ :: rest, h, a, ha => by
    rw [Argument.WellSpelledEach] at h
    rcases List.mem_cons.mp ha with rfl | ha
    · exact ⟨Argument.solid_word h.1 h.2.1, fun k hk =>
        reads_argument h.1 h.2.1 (Value.reads value h.2.1) hk⟩
    · exact Argument.reads_each rest h.2.2 a ha

end

end Pseudonym
