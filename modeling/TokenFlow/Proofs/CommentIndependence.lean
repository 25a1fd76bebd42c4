import TokenFlow.Proofs.CommentTables

/-!
# Comments do not influence the graph

No table reads comments, but some count children, and there a comment takes the place of
something else (`Setup.graph_uncommented_ne`).  Where none stands in such a node
(`Tag.countsIn`) and none carries a field, the graph of a tree is that of the tree without
comments; its tokens are so in any case (`Setup.graph_uncommented`).
-/
namespace TokenFlow

/-! ## The tables together -/

namespace Language

variable {l : Language} {root p : Place}

theorem CommentsAside.mono {counts counts' : Place → Bool} (h : l.CommentsAside counts p)
    (hsub : ∀ q, counts' q = true → counts q = true) : l.CommentsAside counts' p where
  fieldless := h.fieldless
  uncounted q hq hcounts := h.uncounted q hq (hsub q hcounts)

/-- It is enough to look at the places of the tree one by one. -/
theorem CommentsAside.of_places {counts : Place → Bool}
    (h : ∀ q ∈ root.places, ∀ c ∈ q.children, l.isComment c.kind = true →
      c.node.field = none ∧ counts q = false) : l.CommentsAside counts root where
  fieldless q hq c hc hcomment := (h q (Place.mem_places.mpr hq) c hc hcomment).1
  uncounted q hq hcounts c hc := by
    refine Bool.eq_false_iff.mpr fun hcomment => ?_
    rw [(h q (Place.mem_places.mpr hq) c hc hcomment).2] at hcounts
    exact nomatch hcounts

theorem LeavesChildren.of_places
    (h : ∀ p ∈ root.places, p.node.children ≠ [] →
      ∃ n ∈ p.node.children, l.isComment n.kind = false) : l.LeavesChildren root :=
  fun p hp => h p (Place.mem_places.mpr hp)

end Language

/-- What is below a root has a parent in the tree. -/
theorem Place.HasBelow.exists_parent {root p : Place} (h : root.HasBelow p) :
    ∃ above : Place, above.Within root ∧ p.parent = some above.node := by
  cases h with
  | child hp =>
    obtain ⟨n, -, rfl⟩ := List.mem_map.mp hp
    exact ⟨root, Or.inl rfl, rfl⟩
  | deeper habove hp =>
    obtain ⟨n, -, rfl⟩ := List.mem_map.mp hp
    exact ⟨_, Or.inr habove, rfl⟩

namespace Tag

/-- Where the table counts the children of a construct. -/
def countsOperands : Tag → Place → Bool
  | python => Language.Python.countsIn
  | java => Language.Java.countsIn
  | cSharp => Language.CSharp.countsIn
  | javaScript => Language.JavaScript.countsIn
  | php => Language.Php.countsIn
  | ruby => Language.Ruby.countsIn
  | go => Language.Go.countsIn

/-- Where children are counted: by the table, or because all of them have to be names. -/
def countsIn (tag : Tag) (p : Place) : Bool :=
  tag.language.memberAccess.contains p.kind || tag.countsOperands p

theorem pattern_uncommented (tag : Tag) {p : Place}
    (h : tag.language.CommentsAside tag.countsOperands p) :
    tag.language.pattern (p.uncommented tag.language) =
      (tag.language.pattern p).uncommented tag.language := by
  cases tag with
  | python => exact Language.Python.pattern_uncommented h
  | java => exact Language.Java.pattern_uncommented h
  | cSharp => exact Language.CSharp.pattern_uncommented h
  | javaScript => exact Language.JavaScript.pattern_uncommented h
  | php => exact Language.Php.pattern_uncommented h
  | ruby => exact Language.Ruby.pattern_uncommented h
  | go => exact Language.Go.pattern_uncommented h

theorem isLabel_uncommented (tag : Tag) {p : Place}
    (h : ∀ above, p.parent = some above → tag.language.Fieldless (.root above)) :
    tag.language.isLabel (p.uncommented tag.language) = tag.language.isLabel p := by
  cases tag with
  | python => exact Place.isFieldOf_uncommented h "keyword_argument" "name"
  | javaScript => exact Place.isFieldOf_uncommented h "pair" "key"
  | java | cSharp | php | ruby | go => rfl

/-- **The tables read past comments** that stand where no children are counted. -/
theorem readsPastComments (tag : Tag) {node : Node}
    (h : tag.language.CommentsAside tag.countsIn (.root node)) :
    tag.language.ReadsPastComments (.root node) where
  pattern p hp := tag.pattern_uncommented ((h.within hp).mono fun q hq => by
    rw [countsIn, hq, Bool.or_true])
  label p hp _ := by
    refine tag.isLabel_uncommented fun above habove => ?_
    rcases hp with rfl | hp
    · exact nomatch habove
    · obtain ⟨q, hq, hparent⟩ := hp.exists_parent
      rw [habove] at hparent
      exact Option.some.inj hparent ▸ h.fieldless q hq
  chain p hp haccess := (h.within hp).free (by rw [countsIn, haccess, Bool.true_or])

end Tag

/-! ## The graph -/

namespace Setup

/-- **Comments do not influence the graph.**  Without comments a tree has the same tokens;
and unless a comment stands where children are counted, it has the same graph too, if that
was not cut. -/
theorem graph_uncommented (s : Setup) (tag : Tag) (hs : s.language = tag.language)
    (source : ByteArray) (node : Node) (hleaves : tag.language.LeavesChildren (.root node)) :
    Tokens.ofTree tag.language source (node.uncommented tag.language) =
      Tokens.ofTree tag.language source node ∧
    (tag.language.CommentsAside tag.countsIn (.root node) → ∀ live : LiveDefs,
      (∀ x ∈ (s.graph (.root node) live).degradations, x.isCut = false) →
      s.graph (.root (node.uncommented tag.language)) live = s.graph (.root node) live) := by
  refine ⟨Tokens.ofTree_uncommented _ source (.root node) hleaves, fun haside live hwhole => ?_⟩
  have hsame := graph_uncommented_of_reads (s := s) (hs ▸ hleaves)
    (hs ▸ tag.readsPastComments haside) (hs ▸ tag.staysWithin _) live hwhole
  rw [hs] at hsame
  exact hsame

end Setup

namespace CommentedCopy

/-- `x = /* c */ a` -/
def root : Node :=
  .onLine 0 "program" true none 0 13 [
    .onLine 1 "assignment_expression" true none 0 13 [
      .onLine 2 "identifier" true (some "left") 0 1 [],
      .onLine 3 "=" false none 2 3 [],
      .onLine 4 "comment" true none 4 11 [],
      .onLine 5 "identifier" true (some "right") 12 13 []]]

def source : ByteArray := "x = /* c */ a".toUTF8

def setup : Setup where
  language := Language.javaScript
  tokens := .ofTree Language.javaScript source root

end CommentedCopy

namespace CommentedTuple

/-- `a, b = (x,  # c` and on the next line `y)` -/
def root : Node :=
  ⟨0, "assignment", true, none, 0, 18, ⟨⟨0, 0⟩, ⟨1, 2⟩⟩, [
    .onLine 1 "pattern_list" true (some "left") 0 4 [
      .onLine 2 "identifier" true none 0 1 [],
      .onLine 3 "," false none 1 2 [],
      .onLine 4 "identifier" true none 3 4 []],
    .onLine 5 "=" false none 5 6 [],
    ⟨6, "tuple", true, some "right", 7, 18, ⟨⟨0, 7⟩, ⟨1, 2⟩⟩, [
      .onLine 7 "(" false none 7 8 [],
      .onLine 8 "identifier" true none 8 9 [],
      .onLine 9 "," false none 9 10 [],
      .onLine 10 "comment" true none 12 15 [],
      ⟨11, "identifier", true, none, 16, 17, ⟨⟨1, 0⟩, ⟨1, 1⟩⟩, []⟩,
      ⟨12, ")", false, none, 17, 18, ⟨⟨1, 1⟩, ⟨1, 2⟩⟩, []⟩]⟩]⟩

def source : ByteArray := "a, b = (x,  # c\ny)".toUTF8

def setup : Setup where
  language := Language.python
  tokens := .ofTree Language.python source root

end CommentedTuple

namespace Setup

/-- A comment beside the value of a copy. -/
theorem graph_uncommented_commentedCopy :
    Tag.javaScript.language.LeavesChildren (.root CommentedCopy.root) ∧
    Tag.javaScript.language.CommentsAside Tag.javaScript.countsIn (.root CommentedCopy.root) ∧
    (CommentedCopy.setup.graph (.root (CommentedCopy.root.uncommented Tag.javaScript.language))
      .empty).edges = [.ofSources "x" 0 .comesFrom [⟨"a", 2⟩]] := by
  have hleaves : Tag.javaScript.language.LeavesChildren (.root CommentedCopy.root) :=
    .of_places (by decide)
  have haside : Tag.javaScript.language.CommentsAside Tag.javaScript.countsIn
      (.root CommentedCopy.root) := .of_places (by decide)
  have hsame := (graph_uncommented CommentedCopy.setup .javaScript rfl CommentedCopy.source
    CommentedCopy.root hleaves).2 haside .empty (by decide +kernel)
  refine ⟨hleaves, haside, ?_⟩
  rw [hsame]
  decide +kernel

/-- A comment in a tuple is counted as a value, so that the values are no longer paired with
the targets. -/
theorem graph_uncommented_ne :
    Language.python.LeavesChildren (.root CommentedTuple.root) ∧
    (CommentedTuple.setup.graph (.root CommentedTuple.root) .empty).degradations = [] ∧
    (CommentedTuple.setup.graph (.root (CommentedTuple.root.uncommented Language.python))
      .empty).degradations = [] ∧
    (CommentedTuple.setup.graph (.root (CommentedTuple.root.uncommented Language.python))
        .empty).edges ≠
      (CommentedTuple.setup.graph (.root CommentedTuple.root) .empty).edges :=
  ⟨.of_places (by decide), by decide +kernel, by decide +kernel, by decide +kernel⟩

end Setup

end TokenFlow
