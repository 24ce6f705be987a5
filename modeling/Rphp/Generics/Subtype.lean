import Rphp.Lib.Search
import Rphp.Generics.Variance

namespace Rphp.Generics
open Lib
set_option autoImplicit true

/-- An ancestor with its type arguments, and the class in whose scope it was reached. -/
structure Binding where
  declaration : GenericDeclaration
  arguments : List GenericType
  scope : Nat

namespace Binding

/-- What is remembered of a binding that was met. -/
def key (b : Binding) : Nat × List GenericType × Nat := (b.declaration.owner, b.arguments, b.scope)

/-- A trait is consumed by the nearest owner that is no trait. -/
def scopeOf (current : Binding) (ancestor : GenericDeclaration) : Nat :=
  if ancestor.kind = .trait then
    if current.declaration.kind = .trait then current.scope else current.declaration.owner
  else ancestor.owner

end Binding

namespace GenericMetadata
variable (m : GenericMetadata)

/-- The direct ancestors of a bound declaration. -/
def directAncestors (current : Binding) : List Binding :=
  (m.inheritances.filter fun inheritance => inheritance.owner = current.declaration.owner).filterMap
    fun inheritance =>
      (m.target inheritance.ancestor).map fun ancestor =>
        { declaration := ancestor
          arguments := (effectiveInheritanceArguments ancestor inheritance.arguments).map
            (substituteGenericParameters current.arguments)
          scope := current.scopeOf ancestor }

def ancestorBindingsScopedFrom (fuel : Nat) (child : GenericDeclaration)
    (binding : List GenericType) : Option (List Binding) :=
  collect m.directAncestors Binding.key fuel ⟨child, binding, child.owner⟩ []

/-- Forget the scopes, and keep the first of what is then the same. -/
def forgetScopes (seen : List (Nat × List GenericType)) :
    List Binding → List (GenericDeclaration × List GenericType)
  | [] => []
  | b :: bs =>
    if (b.declaration.owner, b.arguments) ∈ seen then forgetScopes seen bs
    else
      (b.declaration, b.arguments) ::
        forgetScopes (seen ++ [(b.declaration.owner, b.arguments)]) bs

def ancestorBindingsFrom (fuel : Nat) (child : GenericDeclaration) (binding : List GenericType) :
    Option (List (GenericDeclaration × List GenericType)) :=
  (m.ancestorBindingsScopedFrom fuel child binding).map (forgetScopes [])

/-- The variance of a parameter of a class, which is invariant where it is not known. -/
def varianceAt (name : Name) (index : Nat) : GenericVariance :=
  match (m.findClassLike name).bind fun target => target.parameters[index]? with
  | some parameter => parameter.variance
  | none => .invariant

/-- Compare type arguments of one class, each in the direction of its parameter's variance. -/
def compareArguments (isSubtype : GenericType → GenericType → Option Bool) (name : Name)
    (subtypeArguments supertypeArguments : List GenericType) : Option Bool :=
  ((subtypeArguments.zip supertypeArguments).zipIdx.allM fun ((x, y), index) =>
    match m.varianceAt name index with
    | .covariant => isSubtype x y
    | .contravariant => isSubtype y x
    | .invariant => some (x = y)).map fun all =>
      all && subtypeArguments.length = supertypeArguments.length

def objectName : Name := ['o', 'b', 'j', 'e', 'c', 't']

/-- The arm for two named types: arguments of one class, or a class and its ancestor. -/
def compareNamed (classIsA : Name → Name → Bool) (fuel : Nat)
    (isSubtype : GenericType → GenericType → Option Bool)
    (subtypeName : Nat) (subtypeArguments : List GenericType)
    (supertypeName : Nat) (supertypeArguments : List GenericType) : Option Bool :=
  match m.symbol subtypeName, m.symbol supertypeName with
  | some subtypeText, some supertypeText =>
    if subtypeText.eqIgnoreAsciiCase supertypeText then
      m.compareArguments isSubtype subtypeText subtypeArguments supertypeArguments
    else if supertypeText.eqIgnoreAsciiCase objectName then some true
    else if supertypeArguments ≠ [] then
      match m.findClassLike subtypeText with
      | none => some false
      | some declaration =>
        let binding := effectiveInheritanceArguments declaration subtypeArguments
        if binding.length ≠ declaration.parameters.length then some false
        else
          (m.ancestorBindingsFrom fuel declaration binding).bind fun bindings =>
            (bindings.filter fun b => (m.symbol b.1.owner).any fun name =>
              name.eqIgnoreAsciiCase supertypeText).anyM fun b =>
                isSubtype (.named supertypeName b.2) (.named supertypeName supertypeArguments)
    else some (classIsA subtypeText supertypeText)
  | _, _ => some false

/-- Whether a type is accepted where another is expected. There is no result where the recursion
does not end within the fuel. -/
def genericTypeIsSubtype (classIsA : Name → Name → Bool) :
    Nat → GenericType → GenericType → Option Bool
  | 0, _, _ => none
  | fuel + 1, subtype, supertype =>
    if subtype = supertype ∨ subtype = .never ∨ supertype = .mixed then some true
    else
      match subtype, supertype with
      | .union parts, supertype =>
        parts.allM fun part => genericTypeIsSubtype classIsA fuel part supertype
      | subtype, .intersection parts =>
        parts.allM fun part => genericTypeIsSubtype classIsA fuel subtype part
      | subtype, .union parts =>
        parts.anyM fun part => genericTypeIsSubtype classIsA fuel subtype part
      | .intersection parts, supertype =>
        parts.anyM fun part => genericTypeIsSubtype classIsA fuel part supertype
      | .null, .nullable _ => some true
      | .nullable subtype, .nullable supertype =>
        genericTypeIsSubtype classIsA fuel subtype supertype
      | subtype, .nullable supertype => genericTypeIsSubtype classIsA fuel subtype supertype
      | .named subtypeName subtypeArguments, .named supertypeName supertypeArguments =>
        m.compareNamed classIsA fuel (genericTypeIsSubtype classIsA fuel) subtypeName
          subtypeArguments supertypeName supertypeArguments
      | _, _ => some false

/-- The check comes back with yes. -/
def IsSubtype (classIsA : Name → Name → Bool) (a b : GenericType) : Prop :=
  ∃ fuel, m.genericTypeIsSubtype classIsA fuel a b = some true

end GenericMetadata

end Rphp.Generics
