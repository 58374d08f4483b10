import FuzzyHierarchy.Settings.Basic
import FuzzyHierarchy.Settings.Token

/-
Reading settings from their text, such as `(error_policy: CollectAll)`. Attributes may come first;
they switch on extensions of the notation, none of which touches settings. The name of the settings
may stand before the parentheses. A setting that is left out has its default; one that is unknown or
given twice is refused.
-/

namespace FuzzyHierarchy

namespace Settings

/-- The extensions that an attribute may switch on. -/
def extensions : List String := ["unwrap_newtypes", "implicit_some", "unwrap_variant_newtypes"]

/-- The name that may stand before the settings. -/
def typeName : String := "BuilderConfig"

/-- The name of the policy setting. -/
def policyKey : String := "error_policy"

/-- Whether a token is the name of an extension. -/
def isExtension (token : Token) : Bool := token.text?.any extensions.contains

/-- What follows a list of extensions and the end of its attribute. A comma may end the list. -/
def afterExtensions : List Token → Option (List Token)
  | extension :: .mark ')' :: .mark ']' :: rest => if isExtension extension then some rest else none
  | extension :: .mark ',' :: .mark ')' :: .mark ']' :: rest =>
    if isExtension extension then some rest else none
  | extension :: .mark ',' :: rest => if isExtension extension then afterExtensions rest else none
  | _ => none

theorem length_afterExtensions_lt {tokens rest : List Token}
    (h : afterExtensions tokens = some rest) : rest.length < tokens.length := by
  fun_induction afterExtensions tokens <;> grind

/-- What follows the attributes. -/
def afterAttributes : List Token → Option (List Token)
  | .mark '#' :: .mark '!' :: .mark '[' :: .word "enable" :: .mark '(' :: rest =>
    match _ : afterExtensions rest with
    | none => none
    | some rest => afterAttributes rest
  | tokens => some tokens
termination_by tokens => tokens.length
decreasing_by grind [→ length_afterExtensions_lt]

/-- What follows the name of the settings, if it is there. -/
def afterName : List Token → List Token
  | [] => []
  | token :: rest => if token.text? = some typeName then rest else token :: rest

/-- Settings with the policy that one token names under the key that another one is. -/
def ofPolicy? (key value : Token) : Option Settings := do
  guard (key.text? = some policyKey)
  let policy ← Policy.ofName? (← value.text?)
  return { policy }

/-- The settings between parentheses. -/
def ofFields? : List Token → Option Settings
  | [.mark '(', .mark ')'] => some {}
  | [.mark '(', key, .mark ':', value, .mark ')'] => ofPolicy? key value
  | [.mark '(', key, .mark ':', value, .mark ',', .mark ')'] => ofPolicy? key value
  | _ => none

/-- The settings that a text is the notation of. -/
def ofText? (text : String) : Option Settings := do
  let tokens ← Token.scan text.toList
  let tokens ← afterAttributes tokens
  ofFields? (afterName tokens)

end Settings

end FuzzyHierarchy
