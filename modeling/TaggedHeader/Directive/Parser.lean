import TaggedHeader.Directive
import TaggedHeader.Text.Blank

/-!
# Reading a payload

The payload of a tag is a few words with any blanks around and between them. The directives that become
a statement of their own may carry the semicolon of that statement; the others may not.
-/

namespace TaggedHeader

open Text Keyword

/-- Reads a module fragment: `module`, `module name`, `module: name` or `module :name`. -/
def ModuleFragment.parse? (body : Text) : Option ModuleFragment :=
  match dropWord? moduleWord body with
  | none => none
  | some [] => some .anonymous
  | some (c :: rest) =>
    if isBlank c || c == ':' then
      match trimStart (c :: rest) with
      | ':' :: name => (ModuleName.parse? (trimStart name)).map .partition
      | name => (ModuleName.parse? name).map .named
    else none

/-- Classifies the words of a payload that is no module fragment. -/
def Directive.ofWords (terminated : Bool) : List Text → Directive
  | [first] =>
    if first = exportWord && !terminated then .exportDeclaration else .unknown
  | [first, second] =>
    if first = importWord then ((ImportTarget.parse? second).map .importTarget).getD .unknown
    else if terminated then .unknown
    else if first = excludeWord && second = beginWord then .excludeBegin
    else if first = excludeWord && second = endWord then .excludeEnd
    else if first = ignoreWord && second = beginWord then .ignoreBegin
    else if first = ignoreWord && second = endWord then .ignoreEnd
    else .unknown
  | [first, second, third] =>
    if first = exportWord && second = moduleWord then
      ((ModuleName.parse? third).map .exportModule).getD .unknown
    else if first = exportWord && second = importWord then
      ((ModuleName.parse? third).map .exportImport).getD .unknown
    else .unknown
  | _ => .unknown

/-- Splits the semicolon off the end of a trimmed payload, and tells whether there was one. -/
def splitTerminator (payload : Text) : Text × Bool :=
  match dropLastWord? [';'] payload with
  | some body => (trimEnd body, true)
  | none => (payload, false)

/-- The directive that a payload names, `Directive.unknown` when it names none. -/
def Directive.parse (payload : Text) : Directive :=
  let (body, terminated) := splitTerminator (trim payload)
  match ModuleFragment.parse? body with
  | some fragment => .moduleFragment fragment
  | none => .ofWords terminated (words body)

end TaggedHeader
