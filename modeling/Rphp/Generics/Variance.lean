import Rphp.Machine

namespace Rphp.Generics
set_option autoImplicit true

/-- The text of a symbol. -/
abbrev Name := List Char

def Name.eqIgnoreAsciiCase (a b : Name) : Bool := a.map Char.toLower = b.map Char.toLower

inductive GenericDeclarationKind where
  | function | «class» | interface | trait | method | closure
deriving DecidableEq, Repr

def GenericDeclarationKind.label : GenericDeclarationKind → String
  | .function => "function"
  | .class => "class"
  | .interface => "interface"
  | .trait => "trait"
  | .method => "method"
  | .closure => "closure"

def GenericDeclarationKind.isClassLike : GenericDeclarationKind → Bool
  | .class | .interface | .trait => true
  | _ => false

inductive GenericVariance where
  | invariant | covariant | contravariant
deriving DecidableEq, Repr

inductive GenericTypePosition where
  | covariant | contravariant | invariant
deriving DecidableEq, Repr

inductive GenericType where
  | int | float | string | bool | array | callable | null | void | mixed | never
  | named (name : Nat) (arguments : List GenericType)
  | parameter (index : UInt8)
  | nullable (inner : GenericType)
  | union (parts : List GenericType)
  | intersection (parts : List GenericType)

namespace GenericType

/-- The induction in which a part of a list is as good as a component. -/
theorem inductionOn {P : GenericType → Prop} (t : GenericType)
    (int : P .int) (float : P .float) (string : P .string) (bool : P .bool) (array : P .array)
    (callable : P .callable) (null : P .null) (void : P .void) (mixed : P .mixed)
    (never : P .never)
    (named : ∀ name arguments, (∀ a ∈ arguments, P a) → P (.named name arguments))
    (parameter : ∀ index, P (.parameter index))
    (nullable : ∀ inner, P inner → P (.nullable inner))
    (union : ∀ parts, (∀ p ∈ parts, P p) → P (.union parts))
    (intersection : ∀ parts, (∀ p ∈ parts, P p) → P (.intersection parts)) : P t :=
  @GenericType.rec P (fun l => ∀ a ∈ l, P a)
    int float string bool array callable null void mixed never named parameter nullable union
    intersection (fun _ h => nomatch h)
    (fun _ _ hx hl _ ha => (List.mem_cons.1 ha).elim (fun he => he ▸ hx) (hl _)) t

mutual
/-- Derived equality. -/
def beq : GenericType → GenericType → Bool
  | .int, .int | .float, .float | .string, .string | .bool, .bool | .array, .array
  | .callable, .callable | .null, .null | .void, .void | .mixed, .mixed | .never, .never => true
  | .named n as, .named n' as' => n == n' && beqAll as as'
  | .parameter i, .parameter i' => i == i'
  | .nullable t, .nullable t' => beq t t'
  | .union ps, .union ps' => beqAll ps ps'
  | .intersection ps, .intersection ps' => beqAll ps ps'
  | _, _ => false

def beqAll : List GenericType → List GenericType → Bool
  | [], [] => true
  | t :: l, t' :: l' => beq t t' && beqAll l l'
  | _, _ => false
end

theorem beqAll_eq {l : List GenericType} (h : ∀ t ∈ l, ∀ t', beq t t' = true ↔ t = t')
    (l' : List GenericType) : beqAll l l' = true ↔ l = l' := by
  induction l generalizing l' with
  | nil => cases l' <;> simp [beqAll]
  | cons t l ih =>
    cases l' with
    | nil => simp [beqAll]
    | cons t' l' =>
      rw [beqAll, Bool.and_eq_true, h t List.mem_cons_self,
        ih fun u hu => h u (List.mem_cons_of_mem _ hu), List.cons.injEq]

theorem beq_eq (t t' : GenericType) : beq t t' = true ↔ t = t' := by
  induction t using inductionOn generalizing t' with
  | named n as ih => cases t' <;> simp [beq, beqAll_eq ih]
  | nullable t ih => cases t' <;> simp [beq, ih]
  | union ps ih => cases t' <;> simp [beq, beqAll_eq ih]
  | intersection ps ih => cases t' <;> simp [beq, beqAll_eq ih]
  | _ => cases t' <;> simp [beq]

instance : DecidableEq GenericType := fun t t' => decidable_of_iff _ (beq_eq t t')

end GenericType

structure GenericParameterMetadata where
  name : Nat
  variance : GenericVariance
  bound : Option GenericType := none
  default : Option GenericType := none

structure GenericVarianceUse where
  valueType : GenericType
  position : GenericTypePosition
  inStaticContext : Bool := false

structure GenericDeclaration where
  kind : GenericDeclarationKind
  owner : Nat
  parameters : List GenericParameterMetadata
  varianceUses : List GenericVarianceUse := []

structure GenericInheritance where
  owner : Nat
  ancestor : Nat
  arguments : List GenericType

structure GenericMetadata where
  symbols : List Name
  declarations : List GenericDeclaration
  inheritances : List GenericInheritance

/-- The high bit marks a parameter of a method. -/
def methodParameterIndex (index : UInt8) : Option Nat :=
  if index.toNat < 128 then none else some (index.toNat - 128)

mutual
def substituteGenericParameters (arguments : List GenericType) : GenericType → GenericType
  | .parameter index =>
    if (methodParameterIndex index).isSome then .parameter index
    else (arguments[index.toNat]?).getD .mixed
  | .named name inner => .named name (substituteAll arguments inner)
  | .nullable inner => .nullable (substituteGenericParameters arguments inner)
  | .union parts => .union (substituteAll arguments parts)
  | .intersection parts => .intersection (substituteAll arguments parts)
  | concrete => concrete

def substituteAll (arguments : List GenericType) : List GenericType → List GenericType
  | [] => []
  | t :: l => substituteGenericParameters arguments t :: substituteAll arguments l
end

@[simp] theorem substituteAll_eq_map (arguments l : List GenericType) :
    substituteAll arguments l = l.map (substituteGenericParameters arguments) := by
  induction l with
  | nil => rfl
  | cons t l ih => rw [substituteAll, ih, List.map_cons]

namespace GenericMetadata

def symbol (m : GenericMetadata) (s : Nat) : Option Name := m.symbols[s]?

def findClassLikeIndex (m : GenericMetadata) (owner : Name) : Option Nat :=
  m.declarations.findIdx? fun d =>
    d.kind.isClassLike &&
      (m.symbol d.owner).any fun candidate => candidate.eqIgnoreAsciiCase owner

def findClassLike (m : GenericMetadata) (owner : Name) : Option GenericDeclaration :=
  (m.findClassLikeIndex owner).bind fun index => m.declarations[index]?

end GenericMetadata

/-- Type arguments that are left out are filled up with the defaults. -/
def fillDefaults : List GenericParameterMetadata → List GenericType → List GenericType
  | [], effective => effective
  | p :: ps, effective =>
    match p.default with
    | none => effective
    | some default => fillDefaults ps (effective ++ [substituteGenericParameters effective default])

def effectiveInheritanceArguments (ancestor : GenericDeclaration) (supplied : List GenericType) :
    List GenericType :=
  fillDefaults (ancestor.parameters.drop supplied.length) supplied

namespace GenericTypePosition

def fromVariance : GenericVariance → GenericTypePosition
  | .invariant => .invariant
  | .covariant => .covariant
  | .contravariant => .contravariant

def compose : GenericTypePosition → GenericVariance → GenericTypePosition
  | .invariant, _ | _, .invariant => .invariant
  | .covariant, .covariant | .contravariant, .contravariant => .covariant
  | .covariant, .contravariant | .contravariant, .covariant => .contravariant

def label : GenericTypePosition → String
  | .covariant => "covariant"
  | .contravariant => "contravariant"
  | .invariant => "invariant"

/-- The positions in which a parameter of a variance may stand. -/
def allows (position : GenericTypePosition) : GenericVariance → Bool
  | .invariant => true
  | .covariant => position = .covariant
  | .contravariant => position = .contravariant

end GenericTypePosition

def GenericVariance.label : GenericVariance → String
  | .invariant => "Invariant"
  | .covariant => "Covariant"
  | .contravariant => "Contravariant"

mutual
def typeContainsParameter : GenericType → Bool
  | .parameter _ => true
  | .named _ arguments => anyContainsParameter arguments
  | .nullable inner => typeContainsParameter inner
  | .union parts => anyContainsParameter parts
  | .intersection parts => anyContainsParameter parts
  | _ => false

def anyContainsParameter : List GenericType → Bool
  | [] => false
  | t :: l => typeContainsParameter t || anyContainsParameter l
end

namespace GenericMetadata
variable (m : GenericMetadata)

/-- A symbol as it is shown in a message. -/
def shown (s : Nat) : String := String.ofList ((m.symbol s).getD ['?'])

def target (name : Nat) : Option GenericDeclaration := (m.symbol name).bind m.findClassLike

mutual
def validateTypePosition (declaration : GenericDeclaration) (position : GenericTypePosition) :
    GenericType → Except String Unit
  | .parameter index =>
    match declaration.parameters[index.toNat]? with
    | none => .ok ()
    | some parameter =>
      if position.allows parameter.variance then .ok ()
      else .error (parameter.variance.label ++ " generic parameter " ++ m.shown parameter.name ++
        " of " ++ declaration.kind.label ++ " " ++ m.shown declaration.owner ++
        " cannot be used in " ++ position.label ++ " position")
  | .named name arguments =>
    match m.target name with
    | none => .ok ()
    | some target => validateArguments declaration position target.parameters arguments
  | .nullable inner => validateTypePosition declaration position inner
  | .union parts => validateParts declaration position parts
  | .intersection parts => validateParts declaration position parts
  | _ => .ok ()

/-- An argument stands in the position that its parameter gives it. -/
def validateArguments (declaration : GenericDeclaration) (position : GenericTypePosition) :
    List GenericParameterMetadata → List GenericType → Except String Unit
  | _, [] => .ok ()
  | parameters, argument :: arguments => do
    let nested := match parameters.head? with
      | none => .invariant
      | some parameter => position.compose parameter.variance
    validateTypePosition declaration nested argument
    validateArguments declaration position parameters.tail arguments

def validateParts (declaration : GenericDeclaration) (position : GenericTypePosition) :
    List GenericType → Except String Unit
  | [] => .ok ()
  | part :: parts => do
    validateTypePosition declaration position part
    validateParts declaration position parts
end

def validateParameter (declaration : GenericDeclaration) (parameter : GenericParameterMetadata) :
    Except String Unit := do
  if let some bound := parameter.bound then m.validateTypePosition declaration .invariant bound
  if let some default := parameter.default then
    m.validateTypePosition declaration .invariant default

def validateUse (declaration : GenericDeclaration) (use : GenericVarianceUse) :
    Except String Unit :=
  if use.inStaticContext && typeContainsParameter use.valueType then
    .error ("Class-scope generic parameter cannot be used in static context of " ++
      declaration.kind.label ++ " " ++ m.shown declaration.owner)
  else m.validateTypePosition declaration use.position use.valueType

def validateInheritance (declaration : GenericDeclaration) (inheritance : GenericInheritance) :
    Except String Unit :=
  match m.target inheritance.ancestor with
  | none => .ok ()
  | some ancestor =>
    inheritance.arguments.zipIdx.forM fun (argument, index) =>
      m.validateTypePosition declaration
        (match ancestor.parameters[index]? with
          | none => .invariant
          | some parameter => .fromVariance parameter.variance) argument

def validateDeclarationVariance (declaration : GenericDeclaration) : Except String Unit := do
  declaration.parameters.forM (m.validateParameter declaration)
  declaration.varianceUses.forM (m.validateUse declaration)
  (m.inheritances.filter fun inheritance => inheritance.owner = declaration.owner).forM
    (m.validateInheritance declaration)

def validateVariance : Except String Unit :=
  m.declarations.forM m.validateDeclarationVariance

end GenericMetadata

end Rphp.Generics
