import Mathlib.Data.List.Perm.Basic
import TokenFlow.Batch
import TokenFlow.Proofs.DecodedTexts

/-!
# The entries of a batch

A batch reports on each listed file by itself.  `Batch.entries_ofFiles` says what follows: there
is one entry for each listing of a file, namely that of the file alone; both lists come out in
the order of the paths they show; and where all paths are texts, the whole is the same however the
files are listed.

Both lists of a batch are got in one way: each file has an entry in the list or none, and the
entries are put in the order of their paths (`Batch.arranged`).  A path that is a text is known
from what it is shown as, so files that show one path have one entry and it does not matter how a
sort places equal paths.  Damaged paths may be shown alike where the files are not.
-/
namespace TokenFlow.Batch

/-! ## Entries in the order of their paths -/

section Arranged

variable {α : Type} (key : α → String) (item? : Path → Option α)

/-- The entries of some files, in the order of their keys. -/
def arranged (paths : List Path) : List α :=
  (paths.filterMap item?).mergeSort fun a b => decide (key a ≤ key b)

variable {key item?}

theorem arranged_perm (paths : List Path) :
    (arranged key item? paths).Perm (paths.filterMap item?) :=
  List.mergeSort_perm _ _

theorem arranged_singleton (path : Path) :
    arranged key item? [path] = (item? path).toList := by
  rw [arranged, List.filterMap_cons]
  cases item? path with
  | none => exact List.mergeSort_nil
  | some a => exact List.mergeSort_singleton a

theorem pairwise_arranged (paths : List Path) :
    (arranged key item? paths).Pairwise fun a b => key a ≤ key b := by
  have hsorted : (arranged key item? paths).Pairwise fun a b => decide (key a ≤ key b) := by
    refine List.pairwise_mergeSort (fun a b c hab hbc => ?_) (fun a b => ?_) _
    · exact decide_eq_true (String.le_trans (of_decide_eq_true hab) (of_decide_eq_true hbc))
    · simpa only [Bool.or_eq_true, decide_eq_true_eq] using String.le_total (key a) (key b)
  exact hsorted.imp of_decide_eq_true

theorem flatMap_arranged_singleton (paths : List Path) :
    (paths.flatMap fun path => arranged key item? [path]) = paths.filterMap item? := by
  simp only [arranged_singleton]
  exact (List.filterMap_eq_flatMap_toList item? paths).symm

/-- Each file has its entry, as often as it is listed. -/
theorem arranged_perm_flatMap (paths : List Path) :
    (arranged key item? paths).Perm (paths.flatMap fun path => arranged key item? [path]) := by
  rw [flatMap_arranged_singleton]
  exact arranged_perm paths

variable (hkey : ∀ path a, item? path = some a → key a = Utf8.lossy path)
include hkey

/-- An entry is that of the file with the path it shows, if that is a text. -/
theorem item?_key {paths : List Path} (htext : ∀ path ∈ paths, Utf8.IsText path) {a : α}
    (ha : a ∈ paths.filterMap item?) : item? (Utf8.octets (key a)) = some a := by
  obtain ⟨path, hmem, hpath⟩ := List.mem_filterMap.mp ha
  rw [hkey path a hpath, (htext path hmem).octets_lossy]
  exact hpath

/-- **The order in which files are listed does not matter.** -/
theorem arranged_eq_of_perm {paths others : List Path} (htext : ∀ path ∈ paths, Utf8.IsText path)
    (h : paths.Perm others) : arranged key item? paths = arranged key item? others := by
  have hperm : (arranged key item? paths).Perm (arranged key item? others) :=
    (arranged_perm paths).trans ((h.filterMap item?).trans (arranged_perm others).symm)
  have hothers : ∀ path ∈ others, Utf8.IsText path := fun path hpath =>
    htext path (h.mem_iff.mpr hpath)
  refine hperm.eq_of_pairwise (fun a b ha hb hab hba => ?_) (pairwise_arranged paths)
    (pairwise_arranged others)
  -- entries with one key are the entry of one file
  have ha := item?_key hkey htext ((arranged_perm paths).mem_iff.mp ha)
  have hb := item?_key hkey hothers ((arranged_perm others).mem_iff.mp hb)
  rw [String.le_antisymm hab hba, hb] at ha
  exact (Option.some.inj ha).symm

theorem filter_filterMap_key {paths : List Path} (htext : ∀ path ∈ paths, Utf8.IsText path)
    (text : String) :
    (paths.filterMap item?).filter (key · == text) =
      (List.replicate (paths.count (Utf8.octets text)) (Utf8.octets text)).filterMap item? := by
  rw [← List.filter_beq, List.filterMap_filter, List.filter_filterMap]
  refine List.filterMap_congr fun p hp => ?_
  have hshown : Utf8.lossy p = text ↔ p = Utf8.octets text := by
    constructor
    · rintro rfl
      exact (htext p hp).octets_lossy.symm
    · rintro rfl
      exact Utf8.lossy_octets text
  cases hitem : item? p with
  | none => simp
  | some a => simp [Option.filter, hkey p a hitem, hshown]

/-- The entries that show a text are those of the listings of the path with that text, whatever
else is listed. -/
theorem filter_arranged {paths : List Path} (htext : ∀ path ∈ paths, Utf8.IsText path)
    (text : String) :
    (arranged key item? paths).filter (key · == text) =
      (List.replicate (paths.count (Utf8.octets text)) (Utf8.octets text)).flatMap
        fun p => arranged key item? [p] := by
  have hperm : ((arranged key item? paths).filter (key · == text)).Perm _ :=
    (arranged_perm paths).filter _
  rw [filter_filterMap_key hkey htext] at hperm
  rw [flatMap_arranged_singleton]
  cases hpath : item? (Utf8.octets text) with
  | none => simpa [List.filterMap_replicate, hpath] using hperm
  | some a =>
    rw [List.filterMap_replicate_of_some hpath] at hperm ⊢
    exact List.perm_replicate.mp hperm

end Arranged

/-! ## Files -/

section Files

variable (b : BatchSetup) (read : Reader) (parse : Parser)

/-- What can come of a file. -/
inductive Outcome (path : Path) : Except Failure Extraction → Prop
  | unsupported (htag : b.tagOf? path = none) :
      Outcome path
        (.error ⟨Utf8.lossy path, .unsupportedLanguage, "no grammar for " ++ Utf8.lossy path⟩)
  | unread {tag : Tag} {message : String} (htag : b.tagOf? path = some tag)
      (hread : read path = .error message) :
      Outcome path (.error ⟨Utf8.lossy path, .read, message⟩)
  | unparsed {tag : Tag} {source : ByteArray} {message : String}
      (htag : b.tagOf? path = some tag) (hread : read path = .ok source)
      (hparse : parse tag path source = .error message) :
      Outcome path (.error ⟨Utf8.lossy path, .parse, message⟩)
  | extracted {tag : Tag} {source : ByteArray} {tree : SyntaxTree}
      (htag : b.tagOf? path = some tag) (hread : read path = .ok source)
      (hparse : parse tag path source = .ok tree) :
      Outcome path (.ok (Extraction.ofSource b.settings (Utf8.lossy path) tag source tree))

theorem outcome_extract (path : Path) :
    Outcome b read parse path (b.extract read parse path) := by
  unfold BatchSetup.extract
  split
  case h_1 htag => exact .unsupported htag
  case h_2 tag htag =>
    split
    case h_1 message hread => exact .unread htag hread
    case h_2 source hread =>
      -- the language is found again by its name
      rw [Tag.ofName_name]
      dsimp only
      split
      case h_1 message hparse => exact .unparsed htag hread hparse
      case h_2 tree hparse => exact .extracted htag hread hparse

variable {b read parse} {path : Path} {outcome : Except Failure Extraction}

theorem Outcome.path_of_success (h : Outcome b read parse path outcome) {e : Extraction}
    (he : success? outcome = some e) : e.path = Utf8.lossy path := by
  cases h <;> cases he
  rfl

theorem Outcome.path_of_failure (h : Outcome b read parse path outcome) {f : Failure}
    (hf : failure? outcome = some f) : f.path = Utf8.lossy path := by
  cases h <;> cases hf <;> rfl

variable (b read parse)

theorem extractions_ofFiles (paths : List Path) :
    (ofFiles b read parse paths).extractions =
      arranged Extraction.path (fun path => success? (b.extract read parse path)) paths :=
  congrArg (List.mergeSort · _) List.filterMap_map

theorem failures_ofFiles (paths : List Path) :
    (ofFiles b read parse paths).failures =
      arranged Failure.path (fun path => failure? (b.extract read parse path)) paths :=
  congrArg (List.mergeSort · _) List.filterMap_map

/-- A file by itself leaves one entry, and that has its path. -/
theorem paths_ofFiles_singleton (path : Path) :
    (ofFiles b read parse [path]).extractions.map (·.path) ++
      (ofFiles b read parse [path]).failures.map (·.path) = [Utf8.lossy path] := by
  rw [extractions_ofFiles, failures_ofFiles, arranged_singleton, arranged_singleton]
  cases h : b.extract read parse path with
  | ok e => exact congrArg ([·]) ((h ▸ outcome_extract b read parse path).path_of_success rfl)
  | error f => exact congrArg ([·]) ((h ▸ outcome_extract b read parse path).path_of_failure rfl)

/-- **A batch loses, doubles and mixes up nothing**, whatever reads the files.  A file by itself
leaves one entry; a batch holds the entries of its files by themselves, both lists in the order
of the paths they show.  If all paths are texts, the files give the same batch listed in another
order; and the entries with a path depend only on how often the path is listed. -/
theorem entries_ofFiles (paths : List Path) :
    (∀ path, (ofFiles b read parse [path]).extractions.map (·.path) ++
      (ofFiles b read parse [path]).failures.map (·.path) = [Utf8.lossy path]) ∧
    (ofFiles b read parse paths).extractions.Perm
      (paths.flatMap fun path => (ofFiles b read parse [path]).extractions) ∧
    (ofFiles b read parse paths).failures.Perm
      (paths.flatMap fun path => (ofFiles b read parse [path]).failures) ∧
    (ofFiles b read parse paths).extractions.Pairwise (·.path ≤ ·.path) ∧
    (ofFiles b read parse paths).failures.Pairwise (·.path ≤ ·.path) ∧
    ((∀ path ∈ paths, Utf8.IsText path) →
      (∀ others, paths.Perm others → ofFiles b read parse others = ofFiles b read parse paths) ∧
      ∀ text,
        (ofFiles b read parse paths).extractions.filter (·.path == text) =
          (List.replicate (paths.count (Utf8.octets text)) (Utf8.octets text)).flatMap
            (fun path => (ofFiles b read parse [path]).extractions) ∧
        (ofFiles b read parse paths).failures.filter (·.path == text) =
          (List.replicate (paths.count (Utf8.octets text)) (Utf8.octets text)).flatMap
            (fun path => (ofFiles b read parse [path]).failures)) := by
  have hsuccess : ∀ path e, success? (b.extract read parse path) = some e →
      e.path = Utf8.lossy path :=
    fun path _ => (outcome_extract b read parse path).path_of_success
  have hfailure : ∀ path f, failure? (b.extract read parse path) = some f →
      f.path = Utf8.lossy path :=
    fun path _ => (outcome_extract b read parse path).path_of_failure
  have hothers (htext : ∀ path ∈ paths, Utf8.IsText path) : ∀ others, paths.Perm others →
      ofFiles b read parse others = ofFiles b read parse paths := by
    intro others h
    show Batch.mk _ _ = Batch.mk _ _
    refine congrArg₂ Batch.mk ?_ ?_
    · exact (extractions_ofFiles ..).trans
        ((arranged_eq_of_perm hsuccess htext h).symm.trans (extractions_ofFiles ..).symm)
    · exact (failures_ofFiles ..).trans
        ((arranged_eq_of_perm hfailure htext h).symm.trans (failures_ofFiles ..).symm)
  refine ⟨paths_ofFiles_singleton b read parse, ?_, ?_, ?_, ?_,
    fun htext => ⟨hothers htext, fun text => ?_⟩⟩
  all_goals simp only [extractions_ofFiles, failures_ofFiles]
  · exact arranged_perm_flatMap paths
  · exact arranged_perm_flatMap paths
  · exact pairwise_arranged paths
  · exact pairwise_arranged paths
  · exact ⟨filter_arranged hsuccess htext text, filter_arranged hfailure htext text⟩

end Files

namespace FourListings

/-- One file that is listed twice, one that cannot be read, and one of no language. -/
def paths : List Path := ["b.py", "notes.txt", "a.py", "b.py"].map Utf8.octets

def read : Reader := fun path =>
  if path = Utf8.octets "b.py" then .ok "x".toUTF8 else .error FileError.notFound.message

def parse : Parser := fun _ _ _ =>
  .ok ⟨⟨0, "identifier", true, none, 0, 1, ⟨⟨0, 0⟩, ⟨0, 1⟩⟩, []⟩, false⟩

def setup : BatchSetup := { settings := {} }

end FourListings

/-- Listed in another order, the files give the same batch: the one that can be read is in it
twice, and the two others have a failure each. -/
theorem entries_ofFiles_fourListings :
    ofFiles FourListings.setup FourListings.read FourListings.parse
        (["a.py", "b.py", "b.py", "notes.txt"].map Utf8.octets) =
      ofFiles FourListings.setup FourListings.read FourListings.parse FourListings.paths ∧
    (ofFiles FourListings.setup FourListings.read FourListings.parse FourListings.paths
      ).extractions.map (·.path) = ["b.py", "b.py"] ∧
    (ofFiles FourListings.setup FourListings.read FourListings.parse FourListings.paths
      ).failures = [⟨"a.py", .read, "No such file or directory (os error 2)"⟩,
        ⟨"notes.txt", .unsupportedLanguage, "no grammar for notes.txt"⟩] := by
  obtain ⟨-, hperm, -, -, -, htexts⟩ := entries_ofFiles FourListings.setup FourListings.read
    FourListings.parse FourListings.paths
  obtain ⟨horder, -⟩ := htexts (List.forall_mem_map.mpr fun text _ => ⟨text, rfl⟩)
  refine ⟨horder _ (List.Perm.map _ (by decide)), ?_, ?_⟩
  · have htwice := hperm.map (·.path)
    have hshown : (FourListings.paths.flatMap fun path => (success? (FourListings.setup.extract
        FourListings.read FourListings.parse path)).toList).map (·.path) =
        List.replicate 2 "b.py" := by
      decide +kernel
    simp only [extractions_ofFiles, arranged_singleton] at htwice ⊢
    exact List.perm_replicate.mp (hshown ▸ htwice)
  · have hread : FourListings.paths.filterMap (fun path => failure?
        (FourListings.setup.extract FourListings.read FourListings.parse path)) =
        [⟨"notes.txt", .unsupportedLanguage, "no grammar for notes.txt"⟩,
          ⟨"a.py", .read, "No such file or directory (os error 2)"⟩] := by
      decide +kernel
    rw [failures_ofFiles, arranged, hread]
    simp [List.mergeSort, List.MergeSort.Internal.splitInTwo]

end TokenFlow.Batch
