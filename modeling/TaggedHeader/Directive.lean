import TaggedHeader.Name

/-!
# Directives

A directive is what a comment tag or an inclusion asks for. Those that are settled in place have a
rendering, the text of the module interface that takes their place; the markers of regions and whatever
is not understood have none.
-/

namespace TaggedHeader

/-- The payload of a module fragment tag. -/
inductive ModuleFragment where
  /-- The fragment that opens a file, `module;`. -/
  | anonymous
  /-- The implementation of a module, `module name;`. -/
  | named (name : ModuleName)
  /-- A partition of the module, `module :name;`. -/
  | partition (name : ModuleName)
deriving DecidableEq, Repr

/-- What a tag or an inclusion asks for. -/
inductive Directive where
  /-- A module fragment, `/*[module]*/`, `/*[module name]*/` or `/*[module: name]*/`. -/
  | moduleFragment (fragment : ModuleFragment)
  /-- The declaration that follows is exported, `/*[export]*/`. -/
  | exportDeclaration
  /-- The file is the interface of a module, `/*[export module name]*/`. -/
  | exportModule (name : ModuleName)
  /-- A module is passed on to importers, `/*[export import name]*/`. -/
  | exportImport (name : ModuleName)
  /-- Something is imported, `/*[import name]*/`, `/*[import <name>]*/`. -/
  | importTarget (target : ImportTarget)
  /-- A removed region starts, `/*[exclude begin]*/`. -/
  | excludeBegin
  /-- A removed region ends, `/*[exclude end]*/`. -/
  | excludeEnd
  /-- A preserved region starts, `/*[ignore begin]*/`. -/
  | ignoreBegin
  /-- A preserved region ends, `/*[ignore end]*/`. -/
  | ignoreEnd
  /-- A block whose content is kept as it is, `/*[[ ... ]]*/`. -/
  | literal
  /-- A header in angle brackets is included, `#include <name>`. -/
  | includeHeader (header : HeaderName)
  /-- A tag whose payload means nothing. -/
  | unknown
deriving DecidableEq, Repr

/-! The words of the tag language and of the interfaces written. -/

namespace Keyword

/-- The word of a module fragment and of a module declaration. -/
def moduleWord : Text := ['m', 'o', 'd', 'u', 'l', 'e']

/-- The word of an exported declaration. -/
def exportWord : Text := ['e', 'x', 'p', 'o', 'r', 't']

/-- The word of an import. -/
def importWord : Text := ['i', 'm', 'p', 'o', 'r', 't']

/-- The word of the markers around removed content. -/
def excludeWord : Text := ['e', 'x', 'c', 'l', 'u', 'd', 'e']

/-- The word of the markers around preserved content. -/
def ignoreWord : Text := ['i', 'g', 'n', 'o', 'r', 'e']

/-- The second word of an opening marker. -/
def beginWord : Text := ['b', 'e', 'g', 'i', 'n']

/-- The second word of a closing marker. -/
def endWord : Text := ['e', 'n', 'd']

end Keyword

open Keyword

/-- The text that takes the place of a module fragment tag. -/
def ModuleFragment.render : ModuleFragment → Text
  | .anonymous => moduleWord ++ [';']
  | .named name => moduleWord ++ [' '] ++ name.text ++ [';']
  | .partition name => moduleWord ++ [' ', ':'] ++ name.text ++ [';']

/-- The text that takes the place of a directive, for those that are settled in place. -/
def Directive.render? : Directive → Option Text
  | .moduleFragment fragment => some fragment.render
  | .exportDeclaration => some exportWord
  | .exportModule name =>
    some (exportWord ++ [' '] ++ moduleWord ++ [' '] ++ name.text ++ [';'])
  | .exportImport name =>
    some (exportWord ++ [' '] ++ importWord ++ [' '] ++ name.text ++ [';'])
  | .importTarget target => some (importWord ++ [' '] ++ target.render ++ [';'])
  | .includeHeader header => some (importWord ++ [' ', '<'] ++ header.text ++ ['>', ';'])
  | .excludeBegin | .excludeEnd | .ignoreBegin | .ignoreEnd | .literal | .unknown => none

end TaggedHeader
