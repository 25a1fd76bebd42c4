import TokenFlow.Proofs.ClauseChains
import TokenFlow.Proofs.UnlimitedWalks

/-!
# Chains of clauses, and the conditionals that they abbreviate

Two tables list the clauses of a conditional side by side, as the grammars store them.  Such a
chain abbreviates a conditional in which each further clause is a conditional in the last
alternative of the one before it; `ClauseTable.nest` writes that conditional down, with the very
parts of the chain.  The other tables are given nested conditionals from the start.

The chain is read with its clauses side by side (`Setup.visit_of_isChain`), the nested
conditional with one clause within the other (`Setup.visit_nested`).  Parts are read alike
wherever they stand, for only a name below a keyword argument asks for its parent
(`Setup.free_of_parent`).  So the chain means what it abbreviates in so far as the two ways of
reading clauses agree (`Setup.graph_nest`), and not in general: a name that a further condition
binds is not bound in the clauses behind it (`Setup.graph_nest_binding`).
-/
namespace TokenFlow

/-! ## Trees -/

/-- The nodes in the field for the alternatives of a conditional. -/
def Node.alternatives (n : Node) : List Node :=
  n.children.filter (·.field == some "alternative")

/-- The tables in which the clauses of a conditional lie side by side. -/
inductive ClauseTable where
  | python
  | php

namespace ClauseTable

def tag : ClauseTable → Tag
  | python => .python
  | php => .php

/-- The kind of a further clause with a condition of its own. -/
def clauseKind : ClauseTable → String
  | python => "elif_clause"
  | php => "else_if_clause"

/-- The field of what is run where a condition holds. -/
def bodyField : ClauseTable → String
  | python => "consequence"
  | php => "body"

variable (t : ClauseTable)

/-- A conditional with some clauses behind the first, and perhaps a last alternative. -/
structure IsChain (n : Node) (clauses : List Node) (otherwise : Option Node) : Prop where
  kind : n.kind = "if_statement"
  alternatives : n.alternatives = clauses ++ otherwise.toList
  clauses : ∀ c ∈ clauses, c.kind = t.clauseKind
  otherwise : ∀ c ∈ otherwise, c.kind ≠ t.clauseKind

/-! ## The nested conditional

The added nodes have numbers and spans of their own, which `frame` gives by their kind and by
the clause that they are added for. -/

variable (frame : String → Node → Node)

/-- A node that is added for a clause. -/
def added (kind : String) (field : Option String) (children : List Node) (c : Node) : Node :=
  { frame kind c with kind, field, children }

/-- The conditional that has the parts of a clause, and these alternatives. -/
def conditional (field : Option String) (alternatives : List Node) (c : Node) : Node :=
  added frame "if_statement" field
    (added frame "if" none [] c ::
      c.children.filter (fun part => part.field.isSome && part.field != some "alternative") ++
        alternatives) c

/-- The last alternative that holds a clause as a conditional: in a block where blocks are marked
by their indentation, and by itself otherwise. -/
def elseClause (alternatives : List Node) (c : Node) : Node :=
  let body := match t with
    | python => added frame "block" (some "body") [conditional frame none alternatives c] c
    | php => conditional frame (some "body") alternatives c
  added frame "else_clause" (some "alternative") [added frame "else" none [] c, body] c

/-- The alternatives of a conditional, of which the first clause holds all that follow it. -/
def nestAll : List Node → List Node
  | [] => []
  | c :: rest => if c.kind = t.clauseKind then [t.elseClause frame (nestAll rest) c] else c :: rest

/-- The conditional in which each clause is nested in the alternative of the one before it. -/
def nest (n : Node) : Node :=
  { n with
    children :=
      n.children.filter (·.field != some "alternative") ++ t.nestAll frame n.alternatives }

/-! ### Its alternatives -/

variable {t frame}

theorem field_of_mem_alternatives {n c : Node} (h : c ∈ n.alternatives) :
    c.field = some "alternative" :=
  eq_of_beq (List.mem_filter.mp h).2

theorem field_of_mem_nestAll {cs : List Node} (h : ∀ c ∈ cs, c.field = some "alternative") :
    ∀ c ∈ t.nestAll frame cs, c.field = some "alternative" := by
  cases cs with
  | nil => exact List.forall_mem_nil _
  | cons c rest =>
    rw [nestAll]
    split
    · exact List.forall_mem_singleton.mpr rfl
    · exact h

/-- Alternatives that stand behind other parts are the alternatives. -/
theorem filter_append_alternatives {parts alternatives : List Node}
    (hparts : ∀ c ∈ parts, c.field ≠ some "alternative")
    (h : ∀ c ∈ alternatives, c.field = some "alternative") :
    (parts ++ alternatives).filter (·.field == some "alternative") = alternatives := by
  rw [List.filter_append, List.filter_eq_nil_iff.mpr fun c hc => by simpa using hparts c hc,
    List.filter_eq_self.mpr fun c hc => by simpa using h c hc, List.nil_append]

/-- They do not stand in any other field. -/
theorem find?_append_alternatives {parts alternatives : List Node} {name : String}
    (hname : name ≠ "alternative") (h : ∀ c ∈ alternatives, c.field = some "alternative") :
    (parts ++ alternatives).find? (·.field == some name) =
      parts.find? (·.field == some name) := by
  have hnone : alternatives.find? (·.field == some name) = none := by
    refine List.find?_eq_none.mpr fun c hc hfield => hname ?_
    rw [h c hc] at hfield
    exact (Option.some.inj (eq_of_beq hfield)).symm
  rw [List.find?_append, hnone, Option.or_none]

theorem find?_filter_field {ns : List Node} {keep : Node → Bool} {name : String}
    (h : ∀ n : Node, n.field = some name → keep n = true) :
    (ns.filter keep).find? (·.field == some name) = ns.find? (·.field == some name) := by
  rw [List.find?_filter]
  refine congrArg (fun f => ns.find? f) (funext fun n => ?_)
  rw [Bool.eq_iff_iff, decide_eq_true_iff]
  exact and_iff_right_of_imp fun hfield => h n (eq_of_beq hfield)

theorem ne_alternative_of_filter {ns : List Node} :
    ∀ c ∈ ns.filter (·.field != some "alternative"), c.field ≠ some "alternative" :=
  fun _ hc => bne_iff_ne.mp (List.mem_filter.mp hc).2

theorem alternatives_nest (n : Node) :
    (t.nest frame n).alternatives = t.nestAll frame n.alternatives :=
  filter_append_alternatives ne_alternative_of_filter
    (field_of_mem_nestAll fun _ => field_of_mem_alternatives)

theorem find?_nest (n : Node) {name : String} (hname : name ≠ "alternative") :
    (t.nest frame n).children.find? (·.field == some name) =
      n.children.find? (·.field == some name) := by
  refine (find?_append_alternatives hname
    (field_of_mem_nestAll fun _ => field_of_mem_alternatives)).trans ?_
  refine find?_filter_field fun c hc => ?_
  rw [hc, bne_iff_ne]
  exact fun h => hname (Option.some.inj h)

theorem children_nest_ne_nil {n : Node} (h : n.children ≠ []) : (t.nest frame n).children ≠ [] := by
  intro hnil
  obtain ⟨hparts, hnested⟩ := List.append_eq_nil_iff.mp hnil
  have halternatives : n.alternatives = [] := by
    cases hcase : n.alternatives with
    | nil => rfl
    | cons c rest =>
      rw [hcase, nestAll] at hnested
      split at hnested <;> exact absurd hnested (List.cons_ne_nil _ _)
  refine h (List.eq_nil_iff_forall_not_mem.mpr fun c hc => ?_)
  have hin := List.filter_eq_nil_iff.mp hparts c hc
  have hout := List.filter_eq_nil_iff.mp halternatives c hc
  rw [bne, Bool.not_eq_true', Bool.not_eq_false] at hin
  exact hout hin

theorem nest_of_leaf {n : Node} (h : n.children = []) : t.nest frame n = n := by
  obtain ⟨number, kind, named, field, first, beyond, span, children⟩ := n
  obtain rfl : children = [] := h
  rfl

section Conditional

variable {alternatives : List Node} (h : ∀ c ∈ alternatives, c.field = some "alternative")
  (field : Option String) (c : Node)
include h

theorem alternatives_conditional :
    (conditional frame field alternatives c).alternatives = alternatives := by
  have hword : (added frame "if" none [] c).field = none := rfl
  refine filter_append_alternatives (List.forall_mem_cons.mpr ⟨?_, fun part hpart => ?_⟩) h
  · exact fun h => Option.some_ne_none _ (h.symm.trans hword)
  · exact bne_iff_ne.mp (Bool.and_eq_true_iff.mp (List.mem_filter.mp hpart).2).2

theorem find?_conditional {name : String} (hname : name ≠ "alternative") :
    (conditional frame field alternatives c).children.find? (·.field == some name) =
      c.children.find? (·.field == some name) := by
  refine (find?_append_alternatives hname h).trans ?_
  -- the keyword has no field
  show (c.children.filter fun part =>
    part.field.isSome && part.field != some "alternative").find? _ = _
  refine find?_filter_field fun part hpart => ?_
  rw [hpart, Bool.and_eq_true_iff, bne_iff_ne]
  exact ⟨rfl, fun h => hname (Option.some.inj h)⟩

end Conditional

/-! ## What the tables make of a chain -/

variable (t) in
/-- The arm that a table makes of a clause. -/
def clauseArm (clause : Place) : List Place :=
  if clause.kind == t.clauseKind then clause.parts ["condition", t.bodyField]
  else clause.parts ["body"]

theorem pattern_of_kind {p : Place} (h : p.kind = "if_statement") :
    t.tag.language.pattern p = .branch {
      condition := p.parts ["condition"]
      arms := p.parts [t.bodyField] :: (p.fields "alternative").map t.clauseArm
      exhaustive := (p.fields "alternative").any (·.kind != t.clauseKind) } := by
  cases t with
  | python => simp only [tag, Tag.language, Language.python, Language.Python.pattern, h]; rfl
  | php => simp only [tag, Tag.language, Language.php, Language.Php.pattern, h]; rfl

variable (t) (w : Walkers)

/-- How a clause is read, whatever it is a clause of. -/
def clause (n : Node) : Clause where
  condition := w.visitAll ((Place.root n).parts ["condition"])
  body := w.visitAll ((Place.root n).parts [t.bodyField])

/-- How the last alternative is read. -/
def lastBody (n : Node) : LiveDefs → Traced LiveDefs :=
  w.visitAll ((Place.root n).parts ["body"])

variable (n : Node) (clauses : List Node) (otherwise : Option Node)

/-- A conditional, read with its further clauses side by side. -/
def readBeside : LiveDefs → Traced LiveDefs :=
  (t.clause w n).choose (Clause.beside (otherwise.map (lastBody w)) (clauses.map (t.clause w)))

/-- A conditional, read with each further clause in the alternative of the one before it. -/
def readNested : LiveDefs → Traced LiveDefs :=
  (t.clause w n).choose (Clause.nested (otherwise.map (lastBody w)) (clauses.map (t.clause w)))

end ClauseTable

theorem Walkers.visitAll_append (w : Walkers) (ps qs : List Place) (live : LiveDefs) :
    w.visitAll (ps ++ qs) live = w.visitAll ps live >>= w.visitAll qs := by
  induction ps generalizing live with
  | nil => exact (pure_bind _ _).symm
  | cons p ps ih =>
    show (w.visit p live >>= fun live => w.visitAll (ps ++ qs) live) =
      (w.visit p live >>= w.visitAll ps) >>= w.visitAll qs
    rw [bind_assoc]
    exact congrArg _ (funext ih)

namespace ClauseTable

variable {t : ClauseTable} {w : Walkers} {n : Node} {clauses : List Node} {otherwise : Option Node}

theorem parts_clause (parent : Option Node) (c : Node) :
    (⟨parent, c⟩ : Place).parts ["condition", t.bodyField] =
      (Place.root c).parts ["condition"] ++ (Place.root c).parts [t.bodyField] := by
  show List.filterMap (Place.root c).field? (["condition"] ++ [t.bodyField]) = _
  exact List.filterMap_append

/-- The arms behind the first leave what clauses side by side leave. -/
theorem armOutcomes_eq_beside (parent : Option Node)
    (hclauses : ∀ c ∈ clauses, c.kind = t.clauseKind)
    (hotherwise : ∀ c ∈ otherwise, c.kind ≠ t.clauseKind) (live : LiveDefs) :
    (do
      let outcomes ← w.armOutcomes
        ((clauses ++ otherwise.toList).map fun c => t.clauseArm ⟨parent, c⟩) live
      return outcomes ++ if otherwise.isSome then [] else [live]) =
    Clause.beside (otherwise.map (lastBody w)) (clauses.map (t.clause w)) live := by
  induction clauses with
  | nil =>
    cases otherwise with
    | none => rfl
    | some c =>
      have harm : t.clauseArm ⟨parent, c⟩ = (Place.root c).parts ["body"] :=
        if_neg fun h => hotherwise c rfl (eq_of_beq h)
      show (w.visitAll (t.clauseArm ⟨parent, c⟩) live >>= fun outcome =>
          pure [] >>= fun outcomes => pure (outcome :: outcomes)) >>= (pure <| · ++ []) =
        w.visitAll ((Place.root c).parts ["body"]) live >>= (pure [·])
      simp only [harm, bind_assoc, pure_bind, List.append_nil]
  | cons c cs ih =>
    obtain ⟨hc, hcs⟩ := List.forall_mem_cons.mp hclauses
    have harm : t.clauseArm ⟨parent, c⟩ =
        (Place.root c).parts ["condition"] ++ (Place.root c).parts [t.bodyField] :=
      (if_pos (beq_iff_eq.mpr hc)).trans (parts_clause parent c)
    rw [List.cons_append, List.map_cons, List.map_cons, Walkers.armOutcomes, Clause.beside,
      ← ih hcs, harm, Walkers.visitAll_append]
    simp only [bind_assoc, pure_bind, List.cons_append]
    rfl

theorem fields_alternative (parent : Option Node) (n : Node) :
    (⟨parent, n⟩ : Place).fields "alternative" = n.alternatives.map (⟨some n, ·⟩) :=
  List.filter_map

/-- There is a last alternative if some alternative is no clause. -/
theorem any_alternatives (hclauses : ∀ c ∈ clauses, c.kind = t.clauseKind)
    (hotherwise : ∀ c ∈ otherwise, c.kind ≠ t.clauseKind) :
    (clauses ++ otherwise.toList).any (·.kind != t.clauseKind) = otherwise.isSome := by
  have hnone : clauses.any (·.kind != t.clauseKind) = false :=
    List.any_eq_false.mpr fun c hc => by simp [hclauses c hc]
  rw [List.any_append, hnone, Bool.false_or]
  cases otherwise with
  | none => rfl
  | some c => simp [hotherwise c rfl]

/-- **A chain is read with its clauses side by side.** -/
theorem visitPattern_of_isChain (hn : t.IsChain n clauses otherwise) (passes : Nat)
    (parent : Option Node) (live : LiveDefs) :
    w.visitPattern passes (t.tag.language.pattern ⟨parent, n⟩) ⟨parent, n⟩ live =
      t.readBeside w n clauses otherwise live := by
  have hexhaustive : ((⟨parent, n⟩ : Place).fields "alternative").any (·.kind != t.clauseKind) =
      otherwise.isSome := by
    rw [fields_alternative, hn.alternatives, List.any_map]
    exact any_alternatives hn.clauses hn.otherwise
  rw [pattern_of_kind hn.kind, hexhaustive, fields_alternative, hn.alternatives, List.map_map]
  show w.branch _ live = _
  rw [Walkers.branch, readBeside, Clause.choose]
  refine congrArg (w.visitAll ((Place.root n).parts ["condition"]) live >>= ·)
    (funext fun tested => ?_)
  rw [← armOutcomes_eq_beside (some n) hn.clauses hn.otherwise, Walkers.armOutcomes]
  simp only [bind_assoc, pure_bind, List.isEmpty_cons, Bool.not_false, Bool.and_true,
    List.cons_append]
  rfl

end ClauseTable

/-! ## Reading without a limit -/

namespace Setup

open ClauseTable (added conditional elseClause lastBody readNested)

variable {s : Setup} {t : ClauseTable} (hs : s.language = t.tag.language)
include hs

theorem staysBelow_of_table (p : Place) : (s.language.pattern p).StaysBelow p :=
  hs ▸ t.tag.staysBelow_pattern p

theorem readsThroughChains_of_table : s.language.ReadsThroughChains :=
  hs ▸ t.tag.readsThroughChains

theorem free_of_table : s.free = s.step s.free :=
  free_eq_step (staysBelow_of_table hs) (readsThroughChains_of_table hs)

/-- A name is no label under anything but a keyword argument. -/
theorem isLabel_of_table {parent : Node} (hparent : parent.kind ≠ "keyword_argument") (n : Node) :
    s.language.isLabel ⟨some parent, n⟩ = false := by
  rw [hs]
  cases t with
  | python =>
    show (parent.kind == "keyword_argument" && _) = false
    rw [beq_eq_false_iff_ne.mpr hparent, Bool.false_and]
  | php => rfl

/-- A place is treated alike under all parents under which a name is no label. -/
theorem free_of_parent {parent parent' : Node} (h : parent.kind ≠ "keyword_argument")
    (h' : parent'.kind ≠ "keyword_argument") (n : Node) :
    s.free ⟨some parent, n⟩ = s.free ⟨some parent', n⟩ := by
  have hlabel : s.language.isLabel ⟨some parent, n⟩ = s.language.isLabel ⟨some parent', n⟩ :=
    (isLabel_of_table hs h n).trans (isLabel_of_table hs h' n).symm
  have hleaf : s.leaf ⟨some parent, n⟩ = s.leaf ⟨some parent', n⟩ := by
    unfold leaf
    rw [hlabel]
  have hpattern : s.language.pattern ⟨some parent, n⟩ = s.language.pattern ⟨some parent', n⟩ := by
    rw [hs]
    cases t <;> rfl
  rw [free_of_table hs]
  ext1
  · refine funext fun live => ?_
    show s.visitStep _ _ live = s.visitStep _ _ live
    rw [visitStep, visitStep, readToken, readToken, hleaf, hpattern]
    rfl
  · refine funext fun live => ?_
    show s.resolveStep _ _ live = s.resolveStep _ _ live
    rw [resolveStep, resolveStep, resolveToken, resolveToken, hleaf, hpattern]
    rfl
  · simp only [step, hleaf]
    rfl
  · rfl
  · rfl

variable (s) in
/-- How places are read without a limit. -/
def freely : Walkers :=
  .ofTreatment s.free

/-- What stands in a field is read alike wherever it stands. -/
theorem visitAll_part_congr {m c : Node} (hm : m.kind ≠ "keyword_argument")
    (hc : c.kind ≠ "keyword_argument") {name : String}
    (h : m.children.find? (·.field == some name) = c.children.find? (·.field == some name)) :
    s.freely.visitAll ((Place.root m).parts [name]) =
      s.freely.visitAll ((Place.root c).parts [name]) := by
  have hparts : ∀ n : Node, (Place.root n).parts [name] =
      ((n.children.find? (·.field == some name)).map (⟨some n, ·⟩)).toList := fun n => by
    have hfield : (Place.root n).field? name =
        (n.children.find? (·.field == some name)).map (⟨some n, ·⟩) := List.find?_map
    show List.filterMap _ [name] = _
    rw [← hfield]
    cases hcase : (Place.root n).field? name with
    | none => exact List.filterMap_cons_none hcase
    | some q => exact List.filterMap_cons_some hcase
  rw [hparts, hparts, h]
  cases c.children.find? (·.field == some name) with
  | none => rfl
  | some n =>
    funext live
    show ((s.free ⟨some m, n⟩).visit live >>= _) = (s.free ⟨some c, n⟩).visit live >>= _
    rw [free_of_parent hs hm hc]

/-- Clauses with the same condition and the same body are read alike. -/
theorem clause_congr {m c : Node} (hm : m.kind ≠ "keyword_argument")
    (hc : c.kind ≠ "keyword_argument")
    (h : ∀ name, name ≠ "alternative" →
      m.children.find? (·.field == some name) = c.children.find? (·.field == some name)) :
    t.clause s.freely m = t.clause s.freely c := by
  have hcondition := visitAll_part_congr hs hm hc (h "condition" (by decide))
  have hbody := visitAll_part_congr hs hm hc (h t.bodyField (by cases t <;> decide))
  exact congrArg₂ Clause.mk hcondition hbody

variable {n : Node} {clauses : List Node} {otherwise : Option Node}

/-- A construct is read by the pattern that the table gives it. -/
theorem visit_free_of_construct {p : Place} (hcomment : s.language.isComment p.kind = false)
    (hchildren : p.node.children ≠ []) (hatom : s.language.isAtom p.kind = false)
    (live : LiveDefs) :
    (s.free p).visit live =
      s.freely.visitPattern s.passes (t.tag.language.pattern p) p live := by
  have htoken : s.language.isToken p.node = false := by
    rw [Language.isToken, Node.isLeaf, List.isEmpty_eq_false_iff.mpr hchildren, Bool.false_or,
      hatom]
  rw [free_of_table hs]
  show s.visitStep _ p live = _
  rw [visitStep_of_construct hcomment htoken, ← hs]
  rfl

theorem visit_of_isChain (hn : t.IsChain n clauses otherwise) (hchildren : n.children ≠ [])
    (parent : Option Node) (live : LiveDefs) :
    (s.free ⟨parent, n⟩).visit live =
      t.readBeside s.freely n clauses otherwise live := by
  have hcomment : s.language.isComment n.kind = false := by
    rw [hs, hn.kind]
    cases t <;> rfl
  have hatom : s.language.isAtom n.kind = false := by
    rw [hs, hn.kind]
    cases t <;> rfl
  exact (visit_free_of_construct hs hcomment hchildren hatom live).trans
    (ClauseTable.visitPattern_of_isChain hn _ parent live)

/-- The last alternative that holds a clause as a conditional is read as the conditional. -/
theorem lastBody_elseClause (frame : String → Node → Node) (alternatives : List Node) (c : Node) :
    ∃ parent field, ∀ live, lastBody s.freely (t.elseClause frame alternatives c) live =
      (s.free ⟨parent, conditional frame field alternatives c⟩).visit live := by
  cases t with
  | python =>
    let block := added frame "block" (some "body")
      [conditional frame none alternatives c] c
    refine ⟨some block, none, fun live => ?_⟩
    have hcomment : s.language.isComment block.kind = false := by
      rw [hs]
      rfl
    have hatom : s.language.isAtom block.kind = false := by
      rw [hs]
      rfl
    show (s.free ⟨_, block⟩).visit live >>= pure = _
    rw [bind_pure, visit_free_of_construct hs hcomment (List.cons_ne_nil _ _) hatom]
    -- a block is read child by child
    show (s.free ⟨some block, _⟩).visit live >>= pure = _
    exact bind_pure _
  | php =>
    let clause := elseClause .php frame alternatives c
    refine ⟨some clause, some "body", fun live => ?_⟩
    show (s.free ⟨some clause, _⟩).visit live >>= pure = _
    exact bind_pure _

/-- **A chain whose clauses are nested is read clause within clause.** -/
theorem visit_nested (frame : String → Node → Node) (hkind : n.kind = "if_statement")
    (hchildren : n.children ≠ [])
    (halternatives : n.alternatives = t.nestAll frame (clauses ++ otherwise.toList))
    (hfields : ∀ c ∈ clauses ++ otherwise.toList, c.field = some "alternative")
    (hclauses : ∀ c ∈ clauses, c.kind = t.clauseKind)
    (hotherwise : ∀ c ∈ otherwise, c.kind ≠ t.clauseKind) (parent : Option Node) (live : LiveDefs) :
    (s.free ⟨parent, n⟩).visit live =
      t.readNested s.freely n clauses otherwise live := by
  induction clauses generalizing n parent live with
  | nil =>
    have hlast : t.nestAll frame otherwise.toList = otherwise.toList := by
      cases otherwise with
      | none => rfl
      | some c => exact if_neg (hotherwise c rfl)
    have hn : t.IsChain n [] otherwise := ⟨hkind, halternatives.trans hlast, hclauses, hotherwise⟩
    exact visit_of_isChain hs hn hchildren parent live
  | cons c cs ih =>
    obtain ⟨hc, hcs⟩ := List.forall_mem_cons.mp hclauses
    obtain ⟨-, hrest⟩ := List.forall_mem_cons.mp hfields
    let inner := t.nestAll frame (cs ++ otherwise.toList)
    have hinner : ∀ d ∈ inner, d.field = some "alternative" :=
      ClauseTable.field_of_mem_nestAll hrest
    have hn : t.IsChain n [] (some (t.elseClause frame inner c)) := by
      refine ⟨hkind, halternatives.trans (if_pos hc), List.forall_mem_nil _, fun d hd => ?_⟩
      obtain rfl := Option.some.inj hd
      show "else_clause" ≠ t.clauseKind
      cases t <;> decide
    -- the conditional in the last alternative has the parts of the clause
    have hclause : ∀ field, t.clause s.freely (conditional frame field inner c) =
        t.clause s.freely c := fun field => by
      have hif : (conditional frame field inner c).kind ≠ "keyword_argument" := by
        show "if_statement" ≠ _
        decide
      refine clause_congr hs hif ?_ fun _ => ClauseTable.find?_conditional hinner field c
      rw [hc]
      cases t <;> decide
    obtain ⟨parent', field, hlast⟩ := lastBody_elseClause hs frame inner c
    have hbody : Clause.last (some (lastBody s.freely (t.elseClause frame inner c))) =
        Clause.nested (otherwise.map (lastBody s.freely))
          (t.clause s.freely c :: cs.map (t.clause s.freely)) := by
      funext live
      show (lastBody s.freely _ live >>= fun outcome => pure [outcome]) = _
      rw [hlast, ih rfl (List.cons_ne_nil _ _)
        (ClauseTable.alternatives_conditional hinner field c) hrest hcs, readNested, hclause]
      rfl
    rw [visit_of_isChain hs hn hchildren, readNested, List.map_cons, ← hbody]
    rfl

/-! ## Both readings -/

omit hs in
theorem effective_freely : s.freely.Effective :=
  ⟨fun p => (s.effective_walkers (p.node.height + 1)).visit p,
    fun p => (s.effective_walkers (p.node.height + 1)).resolve p⟩

omit hs in
theorem effective_clause (c : Node) : (t.clause s.freely c).Effective :=
  ⟨effective_freely.visitAll _, effective_freely.visitAll _⟩

omit hs in
theorem transfers_lastBody :
    ∀ body ∈ otherwise.map (lastBody s.freely),
      Transfers fun live => (body live).value := by
  intro body hbody
  obtain ⟨c, -, rfl⟩ := Option.map_eq_some_iff.mp hbody
  exact effective_freely.visitAll _

omit hs in
theorem graph_congr {p q : Place} {live : LiveDefs}
    (h : s.visit s.budget p live = s.visit s.budget q live) : s.graph p live = s.graph q live := by
  rw [graph, graph, h]

theorem visit_eq_free_of_graph {p : Place} {live : LiveDefs}
    (h : ∀ d ∈ (s.graph p live).degradations, d.isCut = false) :
    s.visit s.budget p live = (s.free p).visit live :=
  visit_eq_free_of_intact (staysBelow_of_table hs) (readsThroughChains_of_table hs)
    fun d hd => h d (List.mem_eraseDups.mpr hd)

/-- A chain without a cut is read with its clauses side by side. -/
theorem visit_of_whole_chain (hn : t.IsChain n clauses otherwise) (hchildren : n.children ≠ [])
    {parent : Option Node} {live : LiveDefs}
    (h : ∀ d ∈ (s.graph ⟨parent, n⟩ live).degradations, d.isCut = false) :
    s.visit s.budget ⟨parent, n⟩ live =
      t.readBeside s.freely n clauses otherwise live :=
  (visit_eq_free_of_graph hs h).trans (visit_of_isChain hs hn hchildren parent live)

/-- A chain whose clauses have been nested is read, without a cut, clause within clause. -/
theorem visit_of_whole_nest (hn : t.IsChain n clauses otherwise) (hchildren : n.children ≠ [])
    {frame : String → Node → Node} {parent : Option Node} {live : LiveDefs}
    (h : ∀ d ∈ (s.graph ⟨parent, t.nest frame n⟩ live).degradations, d.isCut = false) :
    s.visit s.budget ⟨parent, t.nest frame n⟩ live =
      t.readNested s.freely n clauses otherwise live := by
  have hfields : ∀ c ∈ clauses ++ otherwise.toList, c.field = some "alternative" :=
    hn.alternatives ▸ fun _ => ClauseTable.field_of_mem_alternatives
  have halternatives :
      (t.nest frame n).alternatives = t.nestAll frame (clauses ++ otherwise.toList) :=
    hn.alternatives ▸ ClauseTable.alternatives_nest n
  have hkind : n.kind ≠ "keyword_argument" := by
    rw [hn.kind]
    decide
  have hclause : t.clause s.freely (t.nest frame n) = t.clause s.freely n :=
    clause_congr hs hkind hkind fun _ => ClauseTable.find?_nest n
  rw [visit_eq_free_of_graph hs h, visit_nested hs frame (n := t.nest frame n) hn.kind
    (ClauseTable.children_nest_ne_nil hchildren) halternatives hfields hn.clauses hn.otherwise,
    readNested, hclause, readNested]

variable (s) in
/-- What reading the condition of a conditional, or of a further clause of it, leaves. -/
def tested (c : Node) (live : LiveDefs) : LiveDefs :=
  (s.freely.visitAll ((Place.root c).parts ["condition"]) live).value

omit hs in
theorem isSome_get?_iff {live : LiveDefs} {name : String} :
    live.contains name = true ↔ live.get? name ≠ none :=
  Option.isSome_iff_ne_none

end Setup

namespace Setup

/-- **When a chain of clauses means the nested conditional.**  A chain is read with its clauses
side by side, so each further condition starts from what the first condition leaves.  Read
without a cut, the chain and the nested conditional that it abbreviates

* give the same graph if the further conditions leave everything as the first leaves it;
* bind the same names behind them in any case, those bound in a condition among them;
* leave a name the same definitions if the further conditions leave the name alone. -/
theorem graph_nest (s : Setup) (t : ClauseTable) (hs : s.language = t.tag.language)
    (frame : String → Node → Node) (parent : Option Node) {n : Node} {clauses : List Node}
    {otherwise : Option Node} (hn : t.IsChain n clauses otherwise) (live : LiveDefs)
    (hflat : ∀ d ∈ (s.graph ⟨parent, n⟩ live).degradations, d.isCut = false)
    (hnested : ∀ d ∈ (s.graph ⟨parent, t.nest frame n⟩ live).degradations, d.isCut = false) :
    ((∀ c ∈ clauses, s.tested c (s.tested n live) = s.tested n live) →
      s.graph ⟨parent, t.nest frame n⟩ live = s.graph ⟨parent, n⟩ live) ∧
    (live.Ascending → ∀ name,
      (s.graph ⟨parent, t.nest frame n⟩ live).live.contains name =
        (s.graph ⟨parent, n⟩ live).live.contains name ∧
      (∀ c ∈ clauses, (s.tested c (s.tested n live)).contains name = true →
        (s.graph ⟨parent, n⟩ live).live.contains name = true) ∧
      ((∀ c ∈ clauses,
          (s.tested c (s.tested n live)).get? name = (s.tested n live).get? name) →
        (s.graph ⟨parent, t.nest frame n⟩ live).live.get? name =
          (s.graph ⟨parent, n⟩ live).live.get? name)) := by
  by_cases hchildren : n.children = []
  · have halternatives := hn.alternatives
    rw [Node.alternatives, hchildren, List.filter_nil] at halternatives
    obtain ⟨rfl, -⟩ := List.append_eq_nil_iff.mp halternatives.symm
    rw [ClauseTable.nest_of_leaf hchildren]
    exact ⟨fun _ => rfl, fun _ _ => ⟨rfl, List.forall_mem_nil _, fun _ => rfl⟩⟩
  · have hbeside := visit_of_whole_chain hs hn hchildren hflat
    have hwithin := visit_of_whole_nest hs hn hchildren hnested
    have hclauses : ∀ c ∈ clauses.map (t.clause s.freely), c.Effective :=
      List.forall_mem_map.mpr fun c _ => effective_clause c
    refine ⟨fun hidle => graph_congr ?_, fun hlive name => ⟨?_, ?_, ?_⟩⟩
    · rw [hwithin, hbeside]
      exact Clause.choose_nested _ _ (List.forall_mem_map.mpr hidle)
    · rw [Bool.eq_iff_iff, isSome_get?_iff, isSome_get?_iff]
      show (s.visit _ _ _).value.get? name ≠ none ↔ (s.visit _ _ _).value.get? name ≠ none
      rw [hwithin, hbeside]
      exact Clause.get?_choose_ne_none_iff transfers_lastBody hclauses (effective_clause n) hlive
    · intro c hc hname
      rw [isSome_get?_iff] at hname ⊢
      show (s.visit _ _ _).value.get? name ≠ none
      rw [hbeside]
      exact Clause.get?_choose_beside_ne_none hclauses (effective_clause n) hlive
        (List.mem_map_of_mem hc) hname
    · intro hkeep
      show (s.visit _ _ _).value.get? name = (s.visit _ _ _).value.get? name
      rw [hwithin, hbeside]
      exact Clause.get?_choose_nested transfers_lastBody hclauses (effective_clause n) hlive
        (List.forall_mem_map.mpr hkeep)

end Setup

/-! ## Two chains -/

namespace TwoChains

/-- `name = value` in the last field of an alternative. -/
def assignment (field : String) (number first : Nat) : Node :=
  .onLine number "assignment" true (some field) first (first + 5) [
    .onLine (number + 1) "identifier" true (some "left") first (first + 1) [],
    .onLine (number + 2) "=" false none (first + 2) (first + 3) [],
    .onLine (number + 3) "identifier" true (some "right") (first + 4) (first + 5) []]

/-- `else: c = b` -/
def otherwise : Node :=
  .onLine 20 "else_clause" true (some "alternative") 40 51 [
    .onLine 21 "else" false none 40 44 [],
    assignment "body" 22 46]

/-- `if a: elif condition: c = b else: c = b` -/
def chain (clause : Node) : Node :=
  .onLine 0 "if_statement" true none 0 51 [
    .onLine 1 "if" false none 0 2 [],
    .onLine 2 "identifier" true (some "condition") 3 4 [],
    clause,
    otherwise]

/-- `elif a: c = b` -/
def reading : Node :=
  .onLine 3 "elif_clause" true (some "alternative") 6 30 [
    .onLine 4 "identifier" true (some "condition") 11 12 [],
    assignment "consequence" 10 25]

/-- `elif b := a: c = b` -/
def binding : Node :=
  .onLine 3 "elif_clause" true (some "alternative") 6 30 [
    .onLine 4 "named_expression" true (some "condition") 11 17 [
      .onLine 5 "identifier" true (some "name") 11 12 [],
      .onLine 6 ":=" false none 13 15 [],
      .onLine 7 "identifier" true (some "value") 16 17 []],
    assignment "consequence" 10 25]

/-- Added nodes lie where their clause lies. -/
def frame (kind : String) (clause : Node) : Node :=
  { clause with number := 100 * kind.length + clause.number }

/-- The setup in which the name in front of a further condition is given. -/
def setup (name : String) : Setup where
  language := Language.python
  tokens := .ofList [(⟨⟨0, 3⟩, ⟨0, 4⟩⟩, "a"), (⟨⟨0, 11⟩, ⟨0, 12⟩⟩, name),
    (⟨⟨0, 16⟩, ⟨0, 17⟩⟩, "a"), (⟨⟨0, 25⟩, ⟨0, 26⟩⟩, "c"), (⟨⟨0, 29⟩, ⟨0, 30⟩⟩, "b"),
    (⟨⟨0, 46⟩, ⟨0, 47⟩⟩, "c"), (⟨⟨0, 50⟩, ⟨0, 51⟩⟩, "b")]

/-- A chain with its clauses side by side. -/
def beside (clause : Node) : Place :=
  .root (chain clause)

/-- What it abbreviates. -/
def nested (clause : Node) : Place :=
  .root (ClauseTable.python.nest frame (chain clause))

theorem isChain_chain {clause : Node} (hfield : clause.field = some "alternative")
    (hkind : clause.kind = "elif_clause") :
    ClauseTable.python.IsChain (chain clause) [clause] (some otherwise) where
  kind := rfl
  alternatives := by
    show [clause, otherwise].filter (·.field == some "alternative") = [clause, otherwise]
    refine List.filter_eq_self.mpr (List.forall_mem_cons.mpr ⟨beq_iff_eq.mpr hfield, ?_⟩)
    exact List.forall_mem_singleton.mpr rfl
  clauses := List.forall_mem_singleton.mpr hkind
  otherwise c hc := by
    obtain rfl := Option.some.inj hc
    decide

end TwoChains

namespace Setup

/-- `if a: elif a: c = b else: c = b` means what it abbreviates, for the second condition reads
only a name that the first has bound. -/
theorem graph_nest_reading :
    (∀ c ∈ [TwoChains.reading], (TwoChains.setup "a").tested c
        ((TwoChains.setup "a").tested (TwoChains.chain TwoChains.reading) .empty) =
      (TwoChains.setup "a").tested (TwoChains.chain TwoChains.reading) .empty) ∧
    (TwoChains.setup "a").graph (TwoChains.nested TwoChains.reading) .empty =
      (TwoChains.setup "a").graph (TwoChains.beside TwoChains.reading) .empty ∧
    ((TwoChains.setup "a").graph (TwoChains.beside TwoChains.reading) .empty).live.contains "a" =
      true := by
  have hbeside : ∀ d ∈ ((TwoChains.setup "a").graph
      (TwoChains.beside TwoChains.reading) .empty).degradations, d.isCut = false := by decide
  have hnested : ∀ d ∈ ((TwoChains.setup "a").graph
      (TwoChains.nested TwoChains.reading) .empty).degradations, d.isCut = false := by decide
  have hidle : ∀ c ∈ [TwoChains.reading], (TwoChains.setup "a").tested c
        ((TwoChains.setup "a").tested (TwoChains.chain TwoChains.reading) .empty) =
      (TwoChains.setup "a").tested (TwoChains.chain TwoChains.reading) .empty := by decide
  obtain ⟨hsame, hnames⟩ := graph_nest (TwoChains.setup "a") .python rfl TwoChains.frame none
    (TwoChains.isChain_chain rfl rfl) .empty hbeside hnested
  refine ⟨hidle, hsame hidle, ?_⟩
  exact (hnames LiveDefs.ascending_empty "a").2.1 TwoChains.reading List.mem_cons_self (by decide)

/-- `if a: elif b := a: c = b else: c = b` does not mean what it abbreviates: the last
alternative reads the name that the second condition binds, and finds it unbound. -/
theorem graph_nest_binding :
    ClauseTable.python.IsChain (TwoChains.chain TwoChains.binding) [TwoChains.binding]
      (some TwoChains.otherwise) ∧
    let beside := (TwoChains.setup "b").graph (TwoChains.beside TwoChains.binding) .empty
    let nested := (TwoChains.setup "b").graph (TwoChains.nested TwoChains.binding) .empty
    beside.degradations = [] ∧ nested.degradations = [] ∧
    beside.edges.getLast? = some (.ofSources "c" 5 .comesFrom [⟨"b", 6⟩]) ∧
    nested.edges.getLast? = some (.ofSources "c" 5 .comesFrom [⟨"b", 1⟩]) ∧
    beside.live.get? "b" = some [1, 6] ∧ nested.live.get? "b" = some [1] := by
  refine ⟨TwoChains.isChain_chain rfl rfl, ?_, ?_, ?_, ?_, ?_, ?_⟩ <;> decide

end Setup

end TokenFlow
