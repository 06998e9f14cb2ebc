/-
# Calls that read the environment

All calls of functions in a schema, listed in the order of the text: those
inside the arguments of a call before the call itself. The first step of an
obfuscation keeps the list. Among its calls, those of `env` with a literal as
their first argument are numbered from zero on: such a call reads the variable
with its number afterwards, and only names of variables change in what else
its arguments hold.

Key definitions: `Schema.calls`, `FunctionCall.readsLiteral`,
`FunctionCall.Numbered`, `CallsNumbered`.
-/
import Mathlib.Data.List.Nodup
import Pseudonym.Proofs.Obfuscate.Result

namespace Pseudonym

/-! ### Calls -/

/-- A call of a function. -/
structure FunctionCall where
  name : String
  args : List Argument

namespace FunctionCall

/-- Whether a call reads a variable of the environment that a literal names. -/
def readsLiteral (c : FunctionCall) : Bool :=
  isEnvCall c.name && c.args.head?.any (·.value.isLiteral)

/-- The text that is the first argument. -/
def firstText? (c : FunctionCall) : Option String := c.args.head?.bind (·.value.string?)

/-- What becomes of a call when variables are numbered. If it reads one that a literal names, this
is the `i`-th variable; all else stays as it is, up to the names of other variables. -/
structure Numbered (i : Nat) (c c' : FunctionCall) : Prop where
  name : c'.name = c.name
  first : c.readsLiteral = true → ∃ first rest rest', c.args = first :: rest ∧
    c'.args = first.mapValue (fun _ => .string (Registry.envName i)) :: rest' ∧
    Argument.blankEnvEach rest' = Argument.blankEnvEach rest
  shape : c.readsLiteral = false → Argument.blankEnvEach c'.args = Argument.blankEnvEach c.args

theorem head?_blankEnvEach (args : List Argument) :
    (Argument.blankEnvEach args).head?.any (·.value.isLiteral) =
      args.head?.any (·.value.isLiteral) := by
  cases args with
  | nil => rfl
  | cons first rest =>
    obtain ⟨name, value, span⟩ := first
    exact Value.isLiteral_blankEnv value

/-- A call reads a literal after the numbering if it did before. -/
theorem Numbered.readsLiteral {i : Nat} {c c' : FunctionCall} (h : c.Numbered i c') :
    c'.readsLiteral = c.readsLiteral := by
  cases hc : c.readsLiteral with
  | true =>
    obtain ⟨first, rest, rest', hargs, hargs', -⟩ := h.first hc
    rw [FunctionCall.readsLiteral, Bool.and_eq_true_iff] at hc
    rw [FunctionCall.readsLiteral, h.name, hc.1, hargs']
    rfl
  | false =>
    rw [← hc, FunctionCall.readsLiteral, FunctionCall.readsLiteral, h.name, ← head?_blankEnvEach,
      h.shape hc, head?_blankEnvEach]

theorem Numbered.firstText? {i : Nat} {c c' : FunctionCall} (h : c.Numbered i c')
    (hc : c.readsLiteral = true) : c'.firstText? = some (Registry.envName i) := by
  obtain ⟨first, rest, rest', -, hargs', -⟩ := h.first hc
  rw [FunctionCall.firstText?, hargs']
  rfl

end FunctionCall

/-- Calls one after the other, before the variables are numbered and after, from the number `n` on.
The last number is that of the next variable. -/
inductive CallsNumbered : Nat → List FunctionCall → List FunctionCall → Nat → Prop
  | nil (n : Nat) : CallsNumbered n [] [] n
  | cons {n m : Nat} {c c' : FunctionCall} {l l' : List FunctionCall} (first : c.Numbered n c')
      (rest : CallsNumbered (n + if c.readsLiteral then 1 else 0) l l' m) :
      CallsNumbered n (c :: l) (c' :: l') m

namespace CallsNumbered

open FunctionCall (readsLiteral firstText?)

variable {n m j : Nat} {l l' k k' : List FunctionCall}

theorem single {c c' : FunctionCall} (h : c.Numbered n c') :
    CallsNumbered n [c] [c'] (n + if c.readsLiteral then 1 else 0) := .cons h (.nil _)

theorem append (h : CallsNumbered n l l' m) (h' : CallsNumbered m k k' j) :
    CallsNumbered n (l ++ k) (l' ++ k') j := by
  induction h with
  | nil n => exact h'
  | cons first _ ih => exact .cons first (ih h')

theorem length_eq (h : CallsNumbered n l l' m) : l'.length = l.length := by
  induction h with
  | nil n => rfl
  | cons _ _ ih => rw [List.length_cons, List.length_cons, ih]

/-- Every call that reads a literal takes one number. -/
theorem count (h : CallsNumbered n l l' m) : m = n + l.countP readsLiteral := by
  induction h with
  | nil n => rfl
  | cons _ _ ih =>
    rw [ih, List.countP_cons]
    omega

/-- A call has the number that those before it leave. -/
theorem getElem? (h : CallsNumbered n l l' m) : ∀ {i : Nat} {c c' : FunctionCall},
    l[i]? = some c → l'[i]? = some c' → c.Numbered (n + (l.take i).countP readsLiteral) c' := by
  induction h with
  | nil n =>
    intro i c c' hc
    cases hc
  | cons first _ ih =>
    intro i c c' hc hc'
    cases i with
    | zero =>
      cases hc
      cases hc'
      exact first
    | succ i =>
      have hi := ih hc hc'
      rw [List.take_succ_cons, List.countP_cons]
      rwa [Nat.add_assoc, Nat.add_comm (ite _ _ _)] at hi

/-- The variables that are read afterwards, in the order of the calls. -/
theorem firstTexts (h : CallsNumbered n l l' m) : (l'.filter readsLiteral).map firstText? =
    (List.range' n (l.countP readsLiteral)).map fun i => some (Registry.envName i) := by
  induction h with
  | nil n => rfl
  | @cons n m c c' l l' first _ ih =>
    cases hc : c.readsLiteral with
    | true =>
      rw [List.filter_cons_of_pos (first.readsLiteral.trans hc), List.map_cons, first.firstText? hc,
        ih, List.countP_cons_of_pos hc, if_pos hc, List.range'_succ, List.map_cons]
    | false =>
      have hneg : ¬ c.readsLiteral = true := by rw [hc]; exact Bool.false_ne_true
      have hneg' : ¬ c'.readsLiteral = true := by rwa [first.readsLiteral]
      rw [List.filter_cons_of_neg hneg', ih, List.countP_cons_of_neg hneg, if_neg hneg, Nat.add_zero]

end CallsNumbered

/-! ### Calls in values -/

mutual

/-- The calls in a value, those in the arguments of a call before the call itself. -/
def Value.calls : Value → List FunctionCall
  | .call name args => Argument.callsEach args ++ [⟨name, args⟩]
  | .array items => Value.callsEach items
  | .string _ | .int _ | .number _ | .boolean _ | .path _ => []

/-- The calls in values, from left to right. -/
def Value.callsEach : List Value → List FunctionCall
  | [] => []
  | value :: rest => value.calls ++ Value.callsEach rest

/-- The calls in arguments, from left to right. -/
def Argument.callsEach : List Argument → List FunctionCall
  | [] => []
  | ⟨_, value, _⟩ :: rest => value.calls ++ Argument.callsEach rest

end

theorem Value.calls_of_isLiteral {v : Value} (h : v.isLiteral = true) : v.calls = [] := by
  cases v with
  | call name args => cases h
  | array items => cases h
  | path segments => cases h
  | _ => simp [calls]

/-- The call itself, once its arguments have their numbers. -/
theorem FunctionCall.numbered_of_args {name : String} {args : List Argument} (n : Nat) {m : Nat}
    (h : (FunctionCall.mk name args).readsLiteral = false) :
    (FunctionCall.mk name args).Numbered m ⟨name, (Argument.numberEnvEach n args).1⟩ where
  name := rfl
  first hc := by rw [h] at hc; cases hc
  shape _ := Argument.blankEnvEach_numberEnvEach n args

mutual

/-- Numbering the variables in a value numbers its calls. -/
theorem Value.calls_numberEnv (n : Nat) : ∀ v : Value,
    CallsNumbered n v.calls (v.numberEnv n).1.calls (v.numberEnv n).2
  | .call name [] => by
    have hcall : (FunctionCall.mk name []).readsLiteral = false := by
      simp [FunctionCall.readsLiteral]
    have h := CallsNumbered.single (FunctionCall.numbered_of_args (m := n) n hcall)
    rw [if_neg (by simp [hcall])] at h
    simpa [Value.numberEnv, Argument.numberEnvEach, Value.calls, Argument.callsEach] using h
  | .call name (⟨argName, value, span⟩ :: rest) => by
    have hargs := Argument.calls_numberEnvEach n (⟨argName, value, span⟩ :: rest)
    have hread : (FunctionCall.mk name (⟨argName, value, span⟩ :: rest)).readsLiteral =
        (isEnvCall name && value.isLiteral) := rfl
    by_cases h : (isEnvCall name && value.isLiteral) = true
    · -- the literal holds no call, and neither does the name that takes its place
      have hl := (Bool.and_eq_true_iff.mp h).2
      have hcall : (FunctionCall.mk name (⟨argName, value, span⟩ :: rest)).Numbered
          (Argument.numberEnvEach n rest).2
          ⟨name, ⟨argName, .string (Registry.envName (Argument.numberEnvEach n rest).2), span⟩ ::
            (Argument.numberEnvEach n rest).1⟩ :=
        ⟨rfl, fun _ => ⟨_, rest, _, rfl, rfl, Argument.blankEnvEach_numberEnvEach n rest⟩,
          fun hc => by rw [hread, h] at hc; cases hc⟩
      have hlast := CallsNumbered.single hcall
      rw [hread, if_pos h] at hlast
      simp only [Argument.numberEnvEach, Argument.callsEach, Value.numberEnv_of_isLiteral hl,
        Value.calls_of_isLiteral hl] at hargs
      simp only [Value.numberEnv, Argument.numberEnvEach, Value.numberEnv_of_isLiteral hl, h,
        ↓reduceIte, Value.calls, Argument.callsEach, Value.calls_of_isLiteral hl]
      exact hargs.append hlast
    · have hcall : (FunctionCall.mk name (⟨argName, value, span⟩ :: rest)).readsLiteral = false := by
        rw [hread]
        exact Bool.eq_false_iff.mpr h
      have hlast := CallsNumbered.single (FunctionCall.numbered_of_args
        (m := (Argument.numberEnvEach n (⟨argName, value, span⟩ :: rest)).2) n hcall)
      rw [if_neg (by simp [hcall]), Nat.add_zero] at hlast
      have hboth := hargs.append hlast
      simp only [Argument.numberEnvEach] at hboth
      simp only [Value.numberEnv, Argument.numberEnvEach, Value.isLiteral_numberEnv, h]
      exact hboth
  | .array items => Value.calls_numberEnvEach n items
  | .string _ | .int _ | .number _ | .boolean _ | .path _ => .nil n

theorem Value.calls_numberEnvEach (n : Nat) : ∀ l : List Value,
    CallsNumbered n (Value.callsEach l) (Value.callsEach (Value.numberEnvEach n l).1)
      (Value.numberEnvEach n l).2
  | [] => .nil n
  | v :: l => (Value.calls_numberEnv n v).append (Value.calls_numberEnvEach (v.numberEnv n).2 l)

theorem Argument.calls_numberEnvEach (n : Nat) : ∀ args : List Argument,
    CallsNumbered n (Argument.callsEach args) (Argument.callsEach (Argument.numberEnvEach n args).1)
      (Argument.numberEnvEach n args).2
  | [] => .nil n
  | ⟨_, value, _⟩ :: rest =>
    (Value.calls_numberEnv n value).append (Argument.calls_numberEnvEach (value.numberEnv n).2 rest)

end

/-! ### Calls in a schema -/

section Along

variable {α : Type} {f : Nat → α → α × Nat} {calls : α → List FunctionCall}

/-- A walk that numbers what it meets numbers the calls of all of it. -/
theorem CallsNumbered.along
    (hf : ∀ n a, CallsNumbered n (calls a) (calls (f n a).1) (f n a).2) :
    ∀ (n : Nat) (l : List α), CallsNumbered n (l.flatMap calls)
      ((numberAlong f n l).1.flatMap calls) (numberAlong f n l).2
  | n, [] => .nil n
  | n, a :: l => (hf n a).append (CallsNumbered.along hf (f n a).2 l)

end Along

/-- The calls in the arguments of an attribute. -/
def Attribute.calls (a : Attribute) : List FunctionCall := Argument.callsEach a.args

/-- The calls on a line of a model. -/
def ModelMember.calls : ModelMember → List FunctionCall
  | .field f => f.attributes.flatMap (·.calls)
  | .blockAttribute a => a.attr.calls
  | .comment _ => []

/-- The calls on a line of an enum. -/
def EnumMember.calls : EnumMember → List FunctionCall
  | .value v => v.attributes.flatMap (·.calls)
  | .blockAttribute a => a.attr.calls
  | .comment _ => []

/-- The calls on a line of a block of configuration. -/
def ConfigMember.calls : ConfigMember → List FunctionCall
  | .property p => p.value.calls
  | .comment _ => []

/-- The calls in a declaration. -/
def Declaration.calls : Declaration → List FunctionCall
  | .config b => b.members.flatMap (·.calls)
  | .model m => m.members.flatMap (·.calls)
  | .enum e => e.members.flatMap (·.calls)
  | .comments _ => []

/-- The calls in a schema, in the order of the text. -/
def Schema.calls (s : Schema) : List FunctionCall := s.declarations.flatMap (·.calls)

theorem Attribute.calls_numberEnv (n : Nat) (a : Attribute) :
    CallsNumbered n a.calls (a.numberEnv n).1.calls (a.numberEnv n).2 :=
  Argument.calls_numberEnvEach n a.args

theorem ModelMember.calls_numberEnv (n : Nat) (member : ModelMember) :
    CallsNumbered n member.calls (member.numberEnv n).1.calls (member.numberEnv n).2 := by
  cases member with
  | field f => exact .along Attribute.calls_numberEnv n f.attributes
  | blockAttribute a => exact a.attr.calls_numberEnv n
  | comment c => exact .nil n

theorem EnumMember.calls_numberEnv (n : Nat) (member : EnumMember) :
    CallsNumbered n member.calls (member.numberEnv n).1.calls (member.numberEnv n).2 := by
  cases member with
  | value v => exact .along Attribute.calls_numberEnv n v.attributes
  | blockAttribute a => exact a.attr.calls_numberEnv n
  | comment c => exact .nil n

theorem ConfigMember.calls_numberEnv (n : Nat) (member : ConfigMember) :
    CallsNumbered n member.calls (member.numberEnv n).1.calls (member.numberEnv n).2 := by
  cases member with
  | property p => exact p.value.calls_numberEnv n
  | comment c => exact .nil n

theorem Declaration.calls_numberEnv (n : Nat) (d : Declaration) :
    CallsNumbered n d.calls (d.numberEnv n).1.calls (d.numberEnv n).2 := by
  cases d with
  | config b => exact .along ConfigMember.calls_numberEnv n b.members
  | model m => exact .along ModelMember.calls_numberEnv n m.members
  | enum e => exact .along EnumMember.calls_numberEnv n e.members
  | comments b => exact .nil n

/-- Numbering the variables of a schema numbers its calls, through all of its text. -/
theorem Schema.calls_numberEnv (n : Nat) (s : Schema) :
    CallsNumbered n s.calls (s.numberEnv n).1.calls (s.numberEnv n).2 :=
  .along Declaration.calls_numberEnv n s.declarations

/-! ### Declaring keeps calls -/

section Declared

variable {ρ : Renaming} {model new : String}

theorem Value.calls_mapString (f : String → String) (v : Value) : (v.mapString f).calls = v.calls := by
  cases v with
  | string text => simp [mapString, calls]
  | _ => rfl

theorem Argument.callsEach_eq_flatMap : ∀ args : List Argument,
    Argument.callsEach args = args.flatMap (·.value.calls)
  | [] => rfl
  | ⟨_, value, _⟩ :: rest => by
    rw [Argument.callsEach, List.flatMap_cons, Argument.callsEach_eq_flatMap rest]

theorem Argument.callsEach_mapFirst {p : Argument → Bool} {f : Value → Value}
    (hf : ∀ v, (f v).calls = v.calls) : ∀ args : List Argument,
    Argument.callsEach (Argument.mapFirst p f args) = Argument.callsEach args
  | [] => rfl
  | a :: rest => by
    have ih := Argument.callsEach_mapFirst (p := p) hf rest
    by_cases ha : p a = true
    · simp only [mapFirst, ha, ↓reduceIte, callsEach_eq_flatMap, List.flatMap_cons, mapValue_value, hf]
    · simp only [callsEach_eq_flatMap] at ih
      simp [mapFirst, ha, callsEach_eq_flatMap, ih]

theorem Argument.callsEach_map_if {p : Argument → Bool} {f : Value → Value}
    (hf : ∀ v, (f v).calls = v.calls) (args : List Argument) :
    Argument.callsEach (args.map fun a => if p a then a.mapValue f else a) =
      Argument.callsEach args := by
  rw [callsEach_eq_flatMap, callsEach_eq_flatMap, List.flatMap_map]
  refine List.flatMap_congr fun a _ => ?_
  split
  · exact hf a.value
  · rfl

/-- What an attribute declares is no call. -/
theorem Attribute.calls_renameDeclared (a : Attribute) :
    (a.renameDeclared ρ model).calls = a.calls := by
  unfold renameDeclared
  split
  · exact Argument.callsEach_mapFirst (Value.calls_mapString _) a.args
  · rfl

theorem Attribute.calls_rekey (f : String → String) (a : Attribute) : (a.rekey f).calls = a.calls := by
  unfold rekey
  split
  · exact Argument.callsEach_map_if (Value.calls_mapString f) a.args
  · rfl

theorem Attribute.calls_renameKeys (a : Attribute) : (a.renameKeys ρ model).calls = a.calls := by
  unfold renameKeys
  split
  · exact Argument.callsEach_map_if (Value.calls_mapString _) a.args
  · rfl

theorem ModelMember.calls_declared (member : ModelMember) :
    (member.declared ρ model new).calls = member.calls := by
  cases member with
  | field f =>
    simp only [declared, Field.declared, calls, List.flatMap_map, Attribute.calls_rekey,
      Attribute.calls_renameDeclared]
  | blockAttribute a => exact a.attr.calls_renameKeys
  | comment c => rfl

theorem EnumMember.calls_declared (enum : String) (member : EnumMember) :
    (member.rename ρ enum).cleared.calls = member.calls := by
  cases member <;> rfl

theorem ConfigMember.calls_cleared (member : ConfigMember) : member.cleared.calls = member.calls := by
  cases member <;> rfl

theorem Declaration.calls_declared (d : Declaration) : (d.declared ρ).calls = d.calls := by
  cases d with
  | config b => simp only [declared, calls, List.flatMap_map, ConfigMember.calls_cleared]
  | model m =>
    simp only [declared, calls, Model.declared, List.flatMap_map, ModelMember.calls_declared]
  | enum e => simp only [declared, calls, Enum.declared, List.flatMap_map, EnumMember.calls_declared]
  | comments b => rfl

end Declared

theorem Registry.envName_injective : Function.Injective Registry.envName :=
  fun _ _ h => stem_inj _ h

namespace Schema

variable {n : Numbering} {r : Registry} {s t : Schema}

/-- The first step of an obfuscation numbers the calls of the schema from zero on. -/
theorem calls_declare (h : s.declare (.new n) = .ok (t, r)) :
    CallsNumbered 0 s.calls t.calls r.envVars := by
  obtain ⟨hdeclarations, rfl⟩ := declare_ok h
  have hcalls : t.calls = (s.numberEnv 0).1.calls := by
    simp only [calls, hdeclarations, List.flatMap_map, Declaration.calls_declared]
  rw [hcalls]
  exact s.calls_numberEnv 0

/-- **Numbers of the environment.** Once everything is declared, the schema has the calls that it
had, and the `i`-th of those that read a literal reads the `i`-th variable. No two of them read
the same one, and the registry has counted them. -/
theorem numbered_calls_of_declare (h : s.declare (.new n) = .ok (t, r)) :
    r.envVars = (s.calls.filter FunctionCall.readsLiteral).length ∧
      t.calls.length = s.calls.length ∧
      (∀ (k : Nat) (c c' : FunctionCall), s.calls[k]? = some c → t.calls[k]? = some c' →
        c.Numbered ((s.calls.take k).filter FunctionCall.readsLiteral).length c') ∧
      (t.calls.filter FunctionCall.readsLiteral).map FunctionCall.firstText? =
        (List.range r.envVars).map (fun i => some (Registry.envName i)) ∧
      ((t.calls.filter FunctionCall.readsLiteral).map FunctionCall.firstText?).Nodup := by
  have hcalls := calls_declare h
  have hcount : r.envVars = s.calls.countP FunctionCall.readsLiteral := by
    rw [hcalls.count, Nat.zero_add]
  have hfirst := hcalls.firstTexts
  rw [← hcount, ← List.range_eq_range'] at hfirst
  refine ⟨by rw [hcount, List.countP_eq_length_filter], hcalls.length_eq, ?_, hfirst, ?_⟩
  · intro k c c' hc hc'
    have hk := hcalls.getElem? hc hc'
    rwa [Nat.zero_add, List.countP_eq_length_filter] at hk
  · rw [hfirst]
    exact List.nodup_range.map fun i j hij => Registry.envName_injective (Option.some.inj hij)

/-- A schema that reads the environment wherever it can: in a setting, in calls inside of calls and
of arrays, and in attributes of a value, of a field and of a block. -/
def settings : Schema :=
  let here : Span := ⟨0, 0, 1⟩
  let arg (value : Value) : Argument := ⟨none, value, here⟩
  let env (name : String) (value : Value) (rest : List Value) : Value :=
    .call name (arg value :: rest.map arg)
  let attr (name : String) (value : Value) : Attribute := ⟨⟨name, here⟩, [arg value], here⟩
  ⟨[.config ⟨.datasource, ⟨"db", here⟩, [
      .property ⟨⟨"url", here⟩, env "env" (.string "MAIN") [env "env" (.int 7) []], none, here⟩,
      .property ⟨⟨"direct", here⟩, env "env" (env "os.env" (.string "MAIN") []) [.string "x"], none,
        here⟩], here⟩,
    .enum ⟨⟨"Level", here⟩, [.value ⟨⟨"LOW", here⟩, [attr "map" (env "env" (.boolean true) [])], none,
      here⟩], here⟩,
    .model ⟨⟨"Order", here⟩, [
      .field ⟨⟨"amount", here⟩, .scalar .int, .required, [attr "default" (env "env" (.string "A") [])],
        none, here⟩,
      .blockAttribute ⟨attr "schema" (.array [env "lower" (env "env" (.string "B") []) []]), none⟩],
      here⟩]⟩

/-- The call inside of the first one comes before it. -/
theorem numbered_calls_of_declare_settings : ∃ t r,
    settings.declare (.new .perEnum) = .ok (t, r) ∧ r.envVars = 6 ∧
      (t.calls.filter FunctionCall.readsLiteral).map FunctionCall.firstText? =
        [some "ENV_0", some "ENV_1", some "ENV_2", some "ENV_3", some "ENV_4", some "ENV_5"] := by
  have hok : (settings.declare (.new .perEnum)).toBool = true := by decide +kernel
  cases h : settings.declare (.new .perEnum) with
  | error e =>
    rw [h] at hok
    cases hok
  | ok p =>
    obtain ⟨hcount, -, -, hfirst, -⟩ := numbered_calls_of_declare h
    have hsix : (settings.calls.filter FunctionCall.readsLiteral).length = 6 := by decide +kernel
    rw [hsix] at hcount
    rw [hcount] at hfirst
    exact ⟨p.1, p.2, rfl, hcount, hfirst⟩

end Schema

end Pseudonym
