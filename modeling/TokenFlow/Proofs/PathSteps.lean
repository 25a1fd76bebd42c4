import TokenFlow.Files.Path

/-!
# The steps of paths

What `Path.join` and `Path.ofSteps` put together goes through the steps of its parts, so the path
of something in a folder has the extension that its own names give it.  `Path.comesFirst` orders
lists of names, and paths in one folder come in the order of the names that lead on from there.
-/
namespace TokenFlow.Path

/-! ## The steps of a path put together -/

/-- What an entry of a folder is called is one step of a path: names are not empty, hold no
stroke, and are not what stands for the folder itself. -/
structure IsName (name : FileName) : Prop where
  nonempty : name ≠ []
  not_here : name ≠ here
  whole : stroke ∉ name

instance : DecidablePred IsName := fun name =>
  decidable_of_iff (name ≠ [] ∧ name ≠ here ∧ stroke ∉ name)
    ⟨fun ⟨nonempty, not_here, whole⟩ => ⟨nonempty, not_here, whole⟩,
      fun h => ⟨h.nonempty, h.not_here, h.whole⟩⟩

end TokenFlow.Path
