/-
# Editing schemas

Single changes to a schema, at places given by the index of a declaration and
of a member in it. A change that has no place there gives nothing.
-/
import Pseudonym.Schema.Basic

namespace Pseudonym

/-- Changes the item at an index, if there is one and it can be changed. -/
def updateAt? {α : Type} (f : α → Option α) : Nat → List α → Option (List α)
  | _, [] => none
  | 0, x :: xs => (f x).map (· :: xs)
  | n + 1, x :: xs => (updateAt? f n xs).map (x :: ·)

/-! ### Names -/

/-- The declaration under another name. -/
def Declaration.rename? (name : String) : Declaration → Option Declaration
  | .config b => some (.config { b with name := b.name.rename name })
  | .model m => some (.model { m with name := m.name.rename name })
  | .enum e => some (.enum { e with name := e.name.rename name })
  | .comments _ => none

/-- The property under another name. -/
def ConfigMember.rename? (name : String) : ConfigMember → Option ConfigMember
  | .property p => some (.property { p with name := p.name.rename name })
  | .comment _ => none

/-- The field under another name. -/
def ModelMember.rename? (name : String) : ModelMember → Option ModelMember
  | .field f => some (.field { f with name := f.name.rename name })
  | .blockAttribute _ => none
  | .comment _ => none

/-- The value under another name. -/
def EnumMember.rename? (name : String) : EnumMember → Option EnumMember
  | .value v => some (.value { v with name := v.name.rename name })
  | .blockAttribute _ => none
  | .comment _ => none

/-- The declaration with one of its members under another name. -/
def Declaration.renameMember? (member : Nat) (name : String) : Declaration → Option Declaration
  | .config b => (updateAt? (·.rename? name) member b.members).map fun members =>
    .config { b with members }
  | .model m => (updateAt? (·.rename? name) member m.members).map fun members =>
    .model { m with members }
  | .enum e => (updateAt? (·.rename? name) member e.members).map fun members =>
    .enum { e with members }
  | .comments _ => none

/-! ### Comments -/

/-- The member without the text of its comment. -/
def ConfigMember.clearComment? : ConfigMember → Option ConfigMember
  | .property p => p.comment.map fun c => .property { p with comment := some c.cleared }
  | .comment c => some (.comment c.cleared)

/-- The member without the text of its comment. -/
def ModelMember.clearComment? : ModelMember → Option ModelMember
  | .field f => f.comment.map fun c => .field { f with comment := some c.cleared }
  | .blockAttribute a => a.comment.map fun c => .blockAttribute { a with comment := some c.cleared }
  | .comment c => some (.comment c.cleared)

/-- The member without the text of its comment. -/
def EnumMember.clearComment? : EnumMember → Option EnumMember
  | .value v => v.comment.map fun c => .value { v with comment := some c.cleared }
  | .blockAttribute a => a.comment.map fun c => .blockAttribute { a with comment := some c.cleared }
  | .comment c => some (.comment c.cleared)

/-- The declaration without the text of the comment of one member. -/
def Declaration.clearComment? (member : Nat) : Declaration → Option Declaration
  | .config b => (updateAt? (·.clearComment?) member b.members).map fun members =>
    .config { b with members }
  | .model m => (updateAt? (·.clearComment?) member m.members).map fun members =>
    .model { m with members }
  | .enum e => (updateAt? (·.clearComment?) member e.members).map fun members =>
    .enum { e with members }
  | .comments b => (updateAt? (some ·.cleared) member b.comments).map fun comments =>
    .comments { b with comments }

/-! ### Arguments -/

/-- Gives the first argument of this name a value. -/
def Argument.setNamed? (name : String) (value : Value) : List Argument → Option (List Argument)
  | [] => none
  | a :: rest =>
    if a.isNamed name then some ({ a with value } :: rest)
    else (setNamed? name value rest).map (a :: ·)

/-- Gives the first argument of this name a value. -/
def Attribute.setArg? (name : String) (value : Value) (a : Attribute) : Option Attribute :=
  (Argument.setNamed? name value a.args).map fun args => { a with args }

/-- Changes an argument of one of a field's attributes, or of the attribute that a member is. -/
def ModelMember.setArg? (index : Nat) (name : String) (value : Value) :
    ModelMember → Option ModelMember
  | .field f => (updateAt? (·.setArg? name value) index f.attributes).map fun attributes =>
    .field { f with attributes }
  | .blockAttribute a => (a.attr.setArg? name value).map fun attr => .blockAttribute { a with attr }
  | .comment _ => none

/-- Changes an argument of one of a value's attributes, or of the attribute that a member is. -/
def EnumMember.setArg? (index : Nat) (name : String) (value : Value) :
    EnumMember → Option EnumMember
  | .value v => (updateAt? (·.setArg? name value) index v.attributes).map fun attributes =>
    .value { v with attributes }
  | .blockAttribute a => (a.attr.setArg? name value).map fun attr => .blockAttribute { a with attr }
  | .comment _ => none

/-- Changes an argument of an attribute inside a model or an enum. -/
def Declaration.setArg? (member index : Nat) (name : String) (value : Value) :
    Declaration → Option Declaration
  | .model m => (updateAt? (·.setArg? index name value) member m.members).map fun members =>
    .model { m with members }
  | .enum e => (updateAt? (·.setArg? index name value) member e.members).map fun members =>
    .enum { e with members }
  | .config _ => none
  | .comments _ => none

/-! ### Schemas -/

/-- Puts the members of one model behind those of another, or the same with enums. -/
def Declaration.pushMembers? : Declaration → Declaration → Option Declaration
  | .model m, .model n => some (.model { m with members := m.members ++ n.members })
  | .enum e, .enum f => some (.enum { e with members := e.members ++ f.members })
  | _, _ => none

namespace Schema

/-- Changes one declaration. -/
def updateAt? (s : Schema) (f : Declaration → Option Declaration) (index : Nat) : Option Schema :=
  (Pseudonym.updateAt? f index s.declarations).map (⟨·⟩)

/-- Puts the members of the first declaration of another schema behind those of one
declaration. -/
def pushMembers? (s : Schema) (index : Nat) (other : Schema) : Option Schema :=
  match other.declarations with
  | [] => none
  | d :: _ => s.updateAt? (·.pushMembers? d) index

/-- Renames a block. -/
def renameBlock? (s : Schema) (index : Nat) (name : String) : Option Schema :=
  s.updateAt? (·.rename? name) index

/-- Renames a property, a field or a value. -/
def renameMember? (s : Schema) (index member : Nat) (name : String) : Option Schema :=
  s.updateAt? (·.renameMember? member name) index

/-- Takes the text from a comment. -/
def clearComment? (s : Schema) (index member : Nat) : Option Schema :=
  s.updateAt? (·.clearComment? member) index

/-- Makes the first argument of a name in an attribute this string. -/
def setArg? (s : Schema) (index member attr : Nat) (name text : String) : Option Schema :=
  s.updateAt? (·.setArg? member attr name (.string text)) index

end Schema

end Pseudonym
