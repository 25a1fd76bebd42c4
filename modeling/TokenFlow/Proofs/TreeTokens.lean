import Mathlib.Logic.Function.Iterate
import TokenFlow.Proofs.KnownLeaves
import TokenFlow.Proofs.PushedTokens

/-!
# The tokens of a tree from left to right

A walk meets each node before its children, and the children from left to right
(`Node.walk`).  The tokens of a tree are those of the nodes it meets that are leaves or
atoms, have text, are no comments, and stand neither in a comment nor in an atom; of nodes with
one span the first counts (`Tokens.toList_ofTree`).

The same tokens are found without recursion, by a scan that keeps what it has still to look at on
a stack (`Scan`).  What lies on the stack below a node does not matter to what is done with the
node (`Scan.exists_iterate_turn`), so the scan ends with an empty stack and the tokens of the tree
(`Tokens.scan_ofTree`).

Where every node holds its children one behind the other, so do the tokens stand: each ends before
the next begins (`Language.leaves_inOrder`).
-/
namespace TokenFlow

/-! ## The nodes that a walk meets -/

namespace Node

/-- A node as a walk meets it: below these nodes, of which the nearest comes first. -/
structure Met where
  above : List Node
  node : Node

mutual
/-- A node and what lies below it, each node before its children. -/
def walk (above : List Node) : Node → List Met
  | ⟨number, kind, named, field, first, beyond, span, children⟩ =>
    ⟨above, ⟨number, kind, named, field, first, beyond, span, children⟩⟩ ::
      walkAll (⟨number, kind, named, field, first, beyond, span, children⟩ :: above) children

/-- Several nodes below the same nodes, and what lies below them. -/
def walkAll (above : List Node) : List Node → List Met
  | [] => []
  | n :: ns => n.walk above ++ walkAll above ns
end

theorem walk_eq (above : List Node) (n : Node) :
    n.walk above = ⟨above, n⟩ :: walkAll (n :: above) n.children := by
  cases n
  rw [walk]

end Node

namespace Language

variable (l : Language)

/-- Whether nothing below a node is looked at for tokens: the node is left out with all that is
in it, or it is a token itself. -/
def isClosed (n : Node) : Bool :=
  l.isComment n.kind || l.isAtom n.kind

/-- Whether a node that a walk meets is a token. -/
def isListed (m : Node.Met) : Bool :=
  l.isToken m.node && !m.node.span.isEmpty && !l.isComment m.node.kind &&
    m.above.all fun n => !l.isClosed n

variable {l}

mutual
/-- Nothing is a token that stands in a comment or in an atom. -/
theorem filter_walk_of_closed {above : List Node} (h : (above.all fun n => !l.isClosed n) = false) :
    ∀ n : Node, (n.walk above).filter l.isListed = []
  | ⟨number, kind, named, field, first, beyond, span, children⟩ => by
    rw [Node.walk, List.filter_cons_of_neg (by simp only [isListed, h, Bool.and_false]; decide)]
    exact filter_walkAll_of_closed (by rw [List.all_cons, h, Bool.and_false]) children

theorem filter_walkAll_of_closed {above : List Node}
    (h : (above.all fun n => !l.isClosed n) = false) :
    ∀ ns : List Node, (Node.walkAll above ns).filter l.isListed = []
  | [] => rfl
  | n :: ns => by
    rw [Node.walkAll, List.filter_append, filter_walk_of_closed h n, filter_walkAll_of_closed h ns]
    rfl
end

/-- A node whose children are in order with the walk is so too. -/
theorem leaves_eq_of_children {above : List Node} (h : (above.all fun n => !l.isClosed n) = true)
    {n : Node}
    (hchildren : ((n :: above).all fun n => !l.isClosed n) = true →
      l.leavesOfAll n.children =
        ((Node.walkAll (n :: above) n.children).filter l.isListed).map (·.node)) :
    l.leaves n = ((n.walk above).filter l.isListed).map (·.node) := by
  have hhead : l.isListed ⟨above, n⟩ =
      (l.isToken n && !n.span.isEmpty && !l.isComment n.kind) := by
    rw [isListed, h, Bool.and_true]
  have hbelow (hclosed : l.isClosed n = true) :
      (Node.walkAll (n :: above) n.children).filter l.isListed = [] :=
    filter_walkAll_of_closed (by rw [List.all_cons, hclosed]; rfl) n.children
  rw [leaves_eq, Node.walk_eq, List.filter_cons, hhead]
  cases hcomment : l.isComment n.kind with
  | true =>
    rw [hbelow (by rw [isClosed, hcomment, Bool.true_or]), Bool.not_true, Bool.and_false]
    rfl
  | false =>
    cases htoken : l.isToken n with
    | true =>
      have hnone : (Node.walkAll (n :: above) n.children).filter l.isListed = [] := by
        rcases Bool.or_eq_true_iff.mp htoken with hleaf | hatom
        · rw [List.isEmpty_iff.mp hleaf]
          rfl
        · exact hbelow (by rw [isClosed, hatom, Bool.or_true])
      rw [hnone]
      cases n.span.isEmpty <;> rfl
    | false =>
      have hatom : l.isAtom n.kind = false := (Bool.or_eq_false_iff.mp htoken).2
      exact hchildren (by rw [List.all_cons, isClosed, hcomment, hatom, h]; rfl)

mutual
/-- **The leaves are the tokens that a walk meets.** -/
theorem leaves_eq_filter_walk {above : List Node}
    (h : (above.all fun n => !l.isClosed n) = true) :
    ∀ n : Node, l.leaves n = ((n.walk above).filter l.isListed).map (·.node)
  | ⟨_, _, _, _, _, _, _, children⟩ =>
    leaves_eq_of_children h fun h => leavesOfAll_eq_filter_walkAll h children

theorem leavesOfAll_eq_filter_walkAll {above : List Node}
    (h : (above.all fun n => !l.isClosed n) = true) :
    ∀ ns : List Node, l.leavesOfAll ns = ((Node.walkAll above ns).filter l.isListed).map (·.node)
  | [] => rfl
  | n :: ns => by
    rw [leavesOfAll, Node.walkAll, List.filter_append, List.map_append, ← leaves_eq_filter_walk h n,
      ← leavesOfAll_eq_filter_walkAll h ns]
end

end Language

namespace Tokens

/-- The token of a node, with its place. -/
def ofNode (source : ByteArray) (place : Node × Nat) : Token :=
  ⟨place.2, Utf8.lossy (place.1.octets source), place.1.span⟩

/-- **The tokens of a tree**, from left to right and numbered in this order: those that a walk
meets, of which the first with a span counts. -/
theorem toList_ofTree (l : Language) (source : ByteArray) (root : Node) :
    (ofTree l source root).toList =
      (firstsBy Node.span (((root.walk []).filter l.isListed).map (·.node))).zipIdx.map
        (ofNode source) := by
  have hleaves : l.leaves root = ((root.walk []).filter l.isListed).map (·.node) :=
    Language.leaves_eq_filter_walk rfl root
  rw [toList, ofTree, entries_ofList, firstsBy_map, List.zipIdx_map, List.map_map, hleaves]
  rfl

end Tokens

/-! ## Scanning with a stack -/

/-- What a scan has still to look at, with what comes next on top, and the tokens it has taken. -/
structure Scan where
  stack : List Node
  taken : Tokens

namespace Scan

/-- Puts nodes on a stack one after the other, so that the last one comes to lie on top. -/
def pushAll (stack nodes : List Node) : List Node :=
  nodes.foldl (fun stack n => n :: stack) stack

theorem pushAll_reverse (stack nodes : List Node) :
    pushAll stack nodes.reverse = nodes ++ stack := by
  induction nodes generalizing stack with
  | nil => rfl
  | cons n ns ih =>
    rw [List.reverse_cons, pushAll, List.foldl_append]
    exact congrArg (n :: ·) (ih stack)

/-- The start of a scan of a tree. -/
def start (root : Node) : Scan := ⟨[root], .empty⟩

variable (l : Language) (source : ByteArray)

/-- One turn of a scan takes the node on top.  A comment is left out, a leaf or an atom is a token
unless it has no text, and of any other node the children are put on the stack, the last one
first. -/
def turn (s : Scan) : Scan :=
  match s.stack with
  | [] => s
  | n :: rest =>
    if l.isComment n.kind then ⟨rest, s.taken⟩
    else if n.children.isEmpty || l.isAtom n.kind then
      if n.span.isEmpty then ⟨rest, s.taken⟩
      else ⟨rest, (s.taken.push n.span (Utf8.lossy (n.octets source))).2⟩
    else ⟨pushAll rest n.children.reverse, s.taken⟩

/-- The tokens with those of some nodes pushed. -/
def takeAll (taken : Tokens) (nodes : List Node) : Tokens :=
  nodes.foldl (fun t n => (t.push n.span (Utf8.lossy (n.octets source))).2) taken

variable {l source}

theorem turn_cons (n : Node) (rest : List Node) (taken : Tokens) :
    turn l source ⟨n :: rest, taken⟩ =
      if l.isComment n.kind then ⟨rest, taken⟩
      else if l.isToken n then
        if n.span.isEmpty then ⟨rest, taken⟩ else ⟨rest, takeAll source taken [n]⟩
      else ⟨n.children ++ rest, taken⟩ := by
  rw [← pushAll_reverse]
  rfl

/-- A node whose children can be dealt with is dealt with, whatever lies below it on the stack. -/
theorem exists_iterate_turn_of_children {n : Node}
    (hchildren : ∃ turns, (∀ above, turns ≤ (Node.walkAll above n.children).length) ∧
      ∀ rest taken, (turn l source)^[turns] ⟨n.children ++ rest, taken⟩ =
        ⟨rest, takeAll source taken (l.leavesOfAll n.children)⟩) :
    ∃ turns, (∀ above, turns ≤ (n.walk above).length) ∧
      ∀ rest taken, (turn l source)^[turns] ⟨n :: rest, taken⟩ =
        ⟨rest, takeAll source taken (l.leaves n)⟩ := by
  have hone (above : List Node) : 1 ≤ (n.walk above).length := by
    rw [Node.walk_eq]
    exact Nat.succ_pos _
  cases hcomment : l.isComment n.kind with
  | true =>
    refine ⟨1, hone, fun rest taken => ?_⟩
    rw [Function.iterate_one, turn_cons, Language.leaves_eq, hcomment]
    rfl
  | false =>
    cases htoken : l.isToken n with
    | true =>
      refine ⟨1, hone, fun rest taken => ?_⟩
      rw [Function.iterate_one, turn_cons, Language.leaves_eq, hcomment, htoken]
      cases n.span.isEmpty <;> rfl
    | false =>
      obtain ⟨turns, hbound, hturns⟩ := hchildren
      refine ⟨turns + 1, fun above => ?_, fun rest taken => ?_⟩
      · rw [Node.walk_eq]
        exact Nat.succ_le_succ (hbound (n :: above))
      · rw [Function.iterate_succ_apply, turn_cons, Language.leaves_eq, hcomment, htoken]
        exact hturns rest taken

mutual
/-- **A node on the stack is dealt with whatever lies below it**: in at most as many turns as
there are nodes in it, its leaves are taken, and the rest of the stack is left as it was. -/
theorem exists_iterate_turn : ∀ n : Node,
    ∃ turns, (∀ above, turns ≤ (n.walk above).length) ∧
      ∀ rest taken, (turn l source)^[turns] ⟨n :: rest, taken⟩ =
        ⟨rest, takeAll source taken (l.leaves n)⟩
  | ⟨_, _, _, _, _, _, _, children⟩ =>
    exists_iterate_turn_of_children (exists_iterate_turn_all children)

theorem exists_iterate_turn_all : ∀ ns : List Node,
    ∃ turns, (∀ above, turns ≤ (Node.walkAll above ns).length) ∧
      ∀ rest taken, (turn l source)^[turns] ⟨ns ++ rest, taken⟩ =
        ⟨rest, takeAll source taken (l.leavesOfAll ns)⟩
  | [] => ⟨0, fun _ => Nat.zero_le _, fun _ _ => rfl⟩
  | n :: ns => by
    obtain ⟨first, hfirst, hn⟩ := exists_iterate_turn n
    obtain ⟨others, hothers, hns⟩ := exists_iterate_turn_all ns
    refine ⟨others + first, fun above => ?_, fun rest taken => ?_⟩
    · rw [Node.walkAll, List.length_append, Nat.add_comm]
      exact Nat.add_le_add (hfirst above) (hothers above)
    · rw [Function.iterate_add_apply, List.cons_append, hn, hns, Language.leavesOfAll, takeAll,
        takeAll, ← List.foldl_append]
      rfl
end

/-- **A scan of a tree ends**, in at most as many turns as the tree has nodes, and has then taken
the tokens of the tree.  Further turns change nothing. -/
theorem exists_iterate_turn_start (root : Node) :
    ∃ turns ≤ (root.walk []).length, ∀ k, turns ≤ k →
      (turn l source)^[k] (start root) = ⟨[], .ofTree l source root⟩ := by
  obtain ⟨turns, hbound, hturns⟩ := @exists_iterate_turn l source root
  refine ⟨turns, hbound [], fun k hk => ?_⟩
  have htaken : takeAll source .empty (l.leaves root) = .ofTree l source root := by
    rw [Tokens.ofTree, Tokens.ofList, List.foldl_map]
    rfl
  obtain ⟨more, rfl⟩ := Nat.exists_eq_add_of_le' hk
  rw [Function.iterate_add_apply, start, hturns, htaken]
  exact Function.iterate_fixed rfl more

end Scan

/-! ## Trees that are laid out in order -/

/-- Positions come in the order of rows, and of columns in a row. -/
instance : LE Position := ⟨fun p q => p.row < q.row ∨ p.row = q.row ∧ p.column ≤ q.column⟩

instance : LT Position := ⟨fun p q => p.row < q.row ∨ p.row = q.row ∧ p.column < q.column⟩

instance (p q : Position) : Decidable (p ≤ q) :=
  inferInstanceAs (Decidable (_ ∨ _))

instance (p q : Position) : Decidable (p < q) :=
  inferInstanceAs (Decidable (_ ∨ _))

namespace Position

variable {p q r : Position}

theorem le_def : p ≤ q ↔ p.row < q.row ∨ p.row = q.row ∧ p.column ≤ q.column := Iff.rfl

theorem lt_def : p < q ↔ p.row < q.row ∨ p.row = q.row ∧ p.column < q.column := Iff.rfl

theorem le_refl (p : Position) : p ≤ p :=
  Or.inr ⟨rfl, Nat.le_refl _⟩

theorem le_trans (hpq : p ≤ q) (hqr : q ≤ r) : p ≤ r := by
  rw [le_def] at *
  omega

theorem lt_of_lt_of_le (hpq : p < q) (hqr : q ≤ r) : p < r := by
  rw [lt_def] at *
  rw [le_def] at hqr
  omega

theorem lt_of_le_of_ne (hle : p ≤ q) (hne : p ≠ q) : p < q := by
  have hparts : p.row = q.row → p.column = q.column → p = q := by
    intro hrow hcolumn
    cases p
    cases q
    simp_all
  rw [le_def] at hle
  rw [lt_def]
  rcases hle with hrow | ⟨hrow, hcolumn⟩
  · exact Or.inl hrow
  · exact Or.inr ⟨hrow, Nat.lt_of_le_of_ne hcolumn fun h => hne (hparts hrow h)⟩

end Position

namespace Span

/-- A span with text that lies within another. -/
def Covers (s t : Span) : Prop :=
  s.start ≤ t.start ∧ t.start < t.stop ∧ t.stop ≤ s.stop

/-- A span that begins before another and ends before the other begins. -/
def Before (s t : Span) : Prop :=
  s.start < t.start ∧ s.stop ≤ t.start

theorem Covers.within {s t u : Span} (h : t.Covers u) (hstart : s.start ≤ t.start)
    (hstop : t.stop ≤ s.stop) : s.Covers u :=
  ⟨Position.le_trans hstart h.1, h.2.1, Position.le_trans h.2.2 hstop⟩

theorem Before.of_covers {s t u v : Span} (hst : s.stop ≤ t.start) (hu : s.Covers u)
    (hv : t.Covers v) : u.Before v := by
  have hstop : u.stop ≤ v.start :=
    Position.le_trans hu.2.2 (Position.le_trans hst hv.1)
  exact ⟨Position.lt_of_lt_of_le hu.2.1 hstop, hstop⟩

theorem covers_self {s : Span} (hle : s.start ≤ s.stop) (hempty : s.isEmpty = false) :
    s.Covers s :=
  ⟨Position.le_refl _, Position.lt_of_le_of_ne hle (of_decide_eq_false hempty),
    Position.le_refl _⟩

end Span

namespace Node

/-- The children of a node lie within it, one behind the other. -/
structure InOrder (n : Node) : Prop where
  within : ∀ c ∈ n.children,
    n.span.start ≤ c.span.start ∧ c.span.start ≤ c.span.stop ∧ c.span.stop ≤ n.span.stop
  apart : n.children.Pairwise fun c d => c.span.stop ≤ d.span.start

/-- Wherever a walk gets, children lie within their parent, one behind the other. -/
def LaidOut (root : Node) : Prop :=
  ∀ m ∈ root.walk [], m.node.InOrder

instance (n : Node) : Decidable n.InOrder :=
  decidable_of_iff ((∀ c ∈ n.children, n.span.start ≤ c.span.start ∧
      c.span.start ≤ c.span.stop ∧ c.span.stop ≤ n.span.stop) ∧
    n.children.Pairwise fun c d => c.span.stop ≤ d.span.start)
    ⟨fun h => ⟨h.1, h.2⟩, fun h => ⟨h.within, h.apart⟩⟩

instance (n : Node) : Decidable n.LaidOut :=
  inferInstanceAs (Decidable (∀ m ∈ n.walk [], m.node.InOrder))

end Node

namespace Language

variable (l : Language)

/-- A node of which the leaves of the children stand in order. -/
theorem leaves_inOrder_of_children {n : Node} (hn : n.InOrder)
    (hchildren : (l.leavesOfAll n.children).Pairwise (fun m m' => m.span.Before m'.span) ∧
      ∀ m ∈ l.leavesOfAll n.children, ∃ c ∈ n.children, c.span.Covers m.span) :
    (l.leaves n).Pairwise (fun m m' => m.span.Before m'.span) ∧
      (n.span.start ≤ n.span.stop → ∀ m ∈ l.leaves n, n.span.Covers m.span) := by
  obtain ⟨hpairwise, hcovers⟩ := hchildren
  rw [leaves_eq]
  split
  · exact ⟨.nil, fun _ => List.forall_mem_nil _⟩
  split
  · split
    · exact ⟨.nil, fun _ => List.forall_mem_nil _⟩
    · rename_i hspan
      refine ⟨List.pairwise_singleton _ _, fun hle => List.forall_mem_singleton.mpr ?_⟩
      exact Span.covers_self hle (Bool.eq_false_iff.mpr hspan)
  · refine ⟨hpairwise, fun _ m hm => ?_⟩
    obtain ⟨c, hc, hcover⟩ := hcovers m hm
    obtain ⟨hstart, -, hstop⟩ := hn.within c hc
    exact hcover.within hstart hstop

mutual
/-- **Where children stand in order, so do the leaves**, and the leaves of a node lie within
it. -/
theorem leaves_inOrder : ∀ (n : Node) {above : List Node}, (∀ m ∈ n.walk above, m.node.InOrder) →
    (l.leaves n).Pairwise (fun m m' => m.span.Before m'.span) ∧
      (n.span.start ≤ n.span.stop → ∀ m ∈ l.leaves n, n.span.Covers m.span)
  | ⟨number, kind, named, field, first, beyond, span, children⟩, above, h => by
    rw [Node.walk, List.forall_mem_cons] at h
    have hforward : ∀ c ∈ children, c.span.start ≤ c.span.stop := fun c hc =>
      (h.1.within c hc).2.1
    exact l.leaves_inOrder_of_children h.1 (leavesOfAll_inOrder children h.2 hforward h.1.apart)

theorem leavesOfAll_inOrder : ∀ (ns : List Node) {above : List Node},
    (∀ m ∈ Node.walkAll above ns, m.node.InOrder) → (∀ n ∈ ns, n.span.start ≤ n.span.stop) →
    (ns.Pairwise fun n n' => n.span.stop ≤ n'.span.start) →
    (l.leavesOfAll ns).Pairwise (fun m m' => m.span.Before m'.span) ∧
      ∀ m ∈ l.leavesOfAll ns, ∃ n ∈ ns, n.span.Covers m.span
  | [], _, _, _, _ => ⟨.nil, List.forall_mem_nil _⟩
  | n :: ns, above, h, hforward, hapart => by
    rw [Node.walkAll, List.forall_mem_append] at h
    obtain ⟨hn, hns⟩ := List.forall_mem_cons.mp hforward
    obtain ⟨hbehind, hapart⟩ := List.pairwise_cons.mp hapart
    obtain ⟨hleaves, hcovers⟩ := leaves_inOrder n h.1
    obtain ⟨hothers, hothercovers⟩ := leavesOfAll_inOrder ns h.2 hns hapart
    rw [leavesOfAll]
    refine ⟨List.pairwise_append.mpr ⟨hleaves, hothers, fun m hm m' hm' => ?_⟩, fun m hm => ?_⟩
    · obtain ⟨n', hn', hcover⟩ := hothercovers m' hm'
      exact .of_covers (hbehind n' hn') (hcovers hn m hm) hcover
    · rcases List.mem_append.mp hm with hm | hm
      · exact ⟨n, List.mem_cons_self, hcovers hn m hm⟩
      · obtain ⟨n', hn', hcover⟩ := hothercovers m hm
        exact ⟨n', List.mem_cons_of_mem _ hn', hcover⟩
end

end Language

namespace Tokens

/-- Where children stand in order, so do the tokens. -/
theorem pairwise_ofTree (l : Language) (source : ByteArray) {root : Node} (h : root.LaidOut) :
    (ofTree l source root).toList.Pairwise fun k k' => k.span.Before k'.span := by
  have hspans : (ofTree l source root).toList.map Token.span =
      (firstsBy Node.span (l.leaves root)).map Node.span := by
    rw [map_span_toList, ofTree, entries_ofList, firstsBy_map, List.map_map]
    rfl
  rw [← List.pairwise_map (R := Span.Before), hspans, List.pairwise_map]
  exact (l.leaves_inOrder root h).1.sublist (firstsBy_sublist Node.span _)

/-- **A scan with a stack finds the tokens of a tree from left to right.** -/
theorem scan_ofTree (l : Language) (source : ByteArray) (root : Node) :
    (∃ turns ≤ (root.walk []).length, ∀ k, turns ≤ k →
      (Scan.turn l source)^[k] (.start root) = ⟨[], ofTree l source root⟩) ∧
    (ofTree l source root).toList =
      (firstsBy Node.span (((root.walk []).filter l.isListed).map (·.node))).zipIdx.map
        (ofNode source) ∧
    (root.LaidOut →
      (ofTree l source root).toList.Pairwise fun k k' => k.span.Before k'.span) :=
  ⟨Scan.exists_iterate_turn_start root, toList_ofTree l source root, pairwise_ofTree l source⟩

/-- The tree of a line with a string and a comment is laid out in order, so its three tokens
stand one behind the other, and nine turns of a scan are enough to find them. -/
theorem scan_ofTree_commentedString :
    CommentedString.root.node.LaidOut ∧
    (ofTree Language.python CommentedString.source CommentedString.root.node).texts =
      ["x", "=", "\"a\""] ∧
    (Scan.turn Language.python CommentedString.source)^[9] (.start CommentedString.root.node) =
      ⟨[], ofTree Language.python CommentedString.source CommentedString.root.node⟩ ∧
    (ofTree Language.python CommentedString.source CommentedString.root.node).toList.Pairwise
      fun k k' => k.span.Before k'.span := by
  have hlaid : CommentedString.root.node.LaidOut := by decide
  obtain ⟨⟨turns, hturns, hscan⟩, -, hpairwise⟩ :=
    scan_ofTree Language.python CommentedString.source CommentedString.root.node
  have hnodes : (CommentedString.root.node.walk []).length ≤ 9 := by decide
  exact ⟨hlaid, by decide +kernel, hscan 9 (Nat.le_trans hturns hnodes), hpairwise hlaid⟩

end Tokens

end TokenFlow
