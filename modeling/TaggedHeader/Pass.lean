import TaggedHeader.Directive

/-!
# Passes over a header

A header becomes a module interface in nine passes that always run in the same order: first the regions
are settled, then each kind of directive is settled, and last the prompt comment goes.
-/

namespace TaggedHeader

/-- One kind of change over the whole header. -/
inductive Pass where
  /-- The markers of protected regions go, their content stays. -/
  | unwrapRegions
  /-- Removed regions go with their content. -/
  | removeExcluded
  /-- The tag `/*[module]*/` becomes `module;`. -/
  | moduleFragment
  /-- The tag `/*[export]*/` becomes `export`. -/
  | exportDeclaration
  /-- The tag `/*[export module name]*/` becomes `export module name;`. -/
  | exportModule
  /-- The tag `/*[export import name]*/` becomes `export import name;`. -/
  | exportImport
  /-- The tag `/*[import name]*/` becomes `import name;`. -/
  | importTarget
  /-- The inclusion `#include <header>` becomes `import <header>;`. -/
  | includeImport
  /-- The prompt comment goes. -/
  | metatagPrompt
deriving DecidableEq, Repr

/-- How many of the places that a pass finds it settles. -/
inductive Multiplicity where
  /-- The earliest that is not protected. -/
  | first
  /-- All that are not protected. -/
  | all
deriving DecidableEq, Repr

/-- What one pass did to a header. -/
structure PassReport where
  pass : Pass
  /-- The tags, regions or prompts settled. -/
  settled : Nat
  /-- Those left alone, being protected or surplus. -/
  skipped : Nat
deriving DecidableEq, Repr

/-- The report of a pass that found nothing to do. -/
def PassReport.idle (pass : Pass) : PassReport := ⟨pass, 0, 0⟩

namespace Pass

/-- The passes in the order they run. -/
def order : List Pass :=
  [.unwrapRegions, .removeExcluded, .moduleFragment, .exportDeclaration, .exportModule,
    .exportImport, .importTarget, .includeImport, .metatagPrompt]

/-- The words of a pass's name. -/
def nameWords : Pass → List String
  | .unwrapRegions => ["unwrap", "regions"]
  | .removeExcluded => ["remove", "excluded"]
  | .moduleFragment => ["module", "fragment"]
  | .exportDeclaration => ["export", "declaration"]
  | .exportModule => ["export", "module"]
  | .exportImport => ["export", "import"]
  | .importTarget => ["import"]
  | .includeImport => ["include", "import"]
  | .metatagPrompt => ["metatag", "prompt"]

/-- The name of a pass as it is shown. -/
def name (pass : Pass) : String := String.intercalate "-" pass.nameWords

/-- The name of a pass in structured reports. -/
def identifier (pass : Pass) : String := String.intercalate "_" pass.nameWords

/-- A header has one module fragment and one prompt; of all else there may be many. -/
def multiplicity : Pass → Multiplicity
  | .moduleFragment | .metatagPrompt => .first
  | _ => .all

/-- Whether the pass settles a directive. -/
def accepts : Pass → Directive → Bool
  | .moduleFragment, .moduleFragment _ => true
  | .exportDeclaration, .exportDeclaration => true
  | .exportModule, .exportModule _ => true
  | .exportImport, .exportImport _ => true
  | .importTarget, .importTarget _ => true
  | .includeImport, .includeHeader _ => true
  | _, _ => false

end Pass
end TaggedHeader
