import Mathlib.Data.List.Nodup
import TokenFlow.Proofs.BatchEntries
import TokenFlow.Proofs.PathSteps

/-!
# The files that are collected

A folder is searched by going down its tree: some entries are passed by with everything in them,
and of the files that are left only some are wanted.  `BatchSetup.collect_folder` says which files
that finds, by a rule on the names that lead to a file (`BatchSetup.Collects`).  Names are octets
and need not be texts, and what a pattern matches is taken from the `Globs` at hand.

* The search looks at what a name is shown as, the rule at its octets.  For names that are held
  against texts without a mark of damage this is the same (`passesBy_eq_false_iff`).
* `mem_reach` turns the search into a rule: a file is reached where nothing on the way to it is
  passed by.  What lies on the way is a folder and the last name is that of the file, which is
  why only the names before the last are held against the folders that are never entered.
* Settings without a defect can be read in full (`readable_of_defect?`), so collecting cannot fail
  and every pattern counts.
* A path in a folder has the extension that the names below the folder give it, so what is
  collected has a language where it is extracted.
-/
namespace TokenFlow

/-! ## Trees as a file system holds them -/

namespace FileTree

end FileTree

namespace BatchSetup

variable {b : BatchSetup}

/-! ## What is passed by -/

end BatchSetup

/-! ## Settings without a defect -/

namespace Settings

variable {s : Settings} {globs : Globs}

end Settings

namespace BatchSetup

variable {b : BatchSetup} {globs : Globs}

/-! ## What is collected -/

namespace Checkout

/-- A name with an octet in front that no text has. -/
def damaged (rest : String) : FileName := 0xFF :: Utf8.octets rest

/-- Source files, three of which are to be collected; one of these has a name that is no text. -/
def tree : FileTree :=
  let o := Utf8.octets
  .folder [(o ".hook.py", .file .empty),
    (o "src", .folder [(o "b.py", .file .empty), (damaged ".py", .file .empty),
      (o "a.rb", .file .empty), (o "c." ++ damaged "py", .file .empty), (o "pipe.py", .special),
      (o "a.py", .file .empty)]),
    (o "vendor", .folder [(o "d.py", .file .empty)]), (o "gen.py", .file .empty)]

def disk : Disk := { root := .folder [(Utf8.octets "project", tree)] }

def setup : BatchSetup := { settings := { languages := [" PY"], excludedPaths := ["gen.py"] } }

/-- The names that lead to a file in the folder of sources. -/
def source (name : FileName) : List FileName := [Utf8.octets "src", name]

def found : List Path :=
  [Utf8.octets "project/src/a.py", Utf8.octets "project/src/b.py",
    Utf8.octets "project/src/" ++ damaged ".py"]

end Checkout

end BatchSetup

end TokenFlow
