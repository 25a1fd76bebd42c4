import TokenFlow.Proofs.ScopeIsolation

/-!
# Functions are closed

Reading a function changes nothing around it but its name, and nothing around it reaches the
inside: parameters and body are read from a scope in which nothing is live.  So its edges are
the same whatever is live around it, and each of them defines a name of the inside from names
and literals of the inside (`Setup.closed_definition`).

This holds wherever the function stands, in another function or in a loop too.  What is nested
in it is followed by the vocabulary of its inside (`Setup.ownScope`), which nothing that is
read there leads out of.
-/
namespace TokenFlow

namespace LiveDefs

theorem get?_bindAll_of_forall_ne {tokens : List Token} {name : String}
    (h : ∀ t ∈ tokens, t.text ≠ name) (live : LiveDefs) :
    (live.bindAll tokens).get? name = live.get? name := by
  induction tokens generalizing live with
  | nil => rfl
  | cons t ts ih =>
    obtain ⟨ht, hts⟩ := List.forall_mem_cons.mp h
    show ((live.bind t.text t.index).bindAll ts).get? name = live.get? name
    rw [ih hts, get?_bind, if_neg ht]

/-- Of the tokens of one name the last is bound. -/
theorem get?_bindAll_of_last {t : Token} {behind : List Token}
    (h : ∀ u ∈ behind, u.text ≠ t.text) (before : List Token) (live : LiveDefs) :
    (live.bindAll (before ++ t :: behind)).get? t.text = some [t.index] := by
  rw [bindAll, List.foldl_append]
  show (((live.bindAll before).bind t.text t.index).bindAll behind).get? t.text = some [t.index]
  rw [get?_bindAll_of_forall_ne h, get?_bind, if_pos rfl]

end LiveDefs

namespace Setup

variable (s : Setup)

/-! ## Inside a function -/

/-- The token of a name under the name of a parameter, under a fallback or under the body. -/
def InsideName (d : Definition) (t : Token) : Prop :=
  ∃ q ∈ d.parameters.flatMap Parameter.parts ++ d.body, s.IsName q t

/-- The token of a literal under the name of a parameter, under a fallback or under the body. -/
def InsideLiteral (d : Definition) (t : Token) : Prop :=
  ∃ q ∈ d.parameters.flatMap Parameter.parts ++ d.body, s.IsLiteral q t

/-- The edge defines a name of the inside, and all that it draws from is of the inside. -/
structure StaysInside (d : Definition) (e : Edge) : Prop where
  target : ∃ t, s.InsideName d t ∧ t.text = e.name ∧ t.index = e.index
  sources : ∀ x ∈ e.sources, ∃ t, (s.InsideName d t ∨ s.InsideLiteral d t) ∧ t.source = x

/-- What a walk inside a function may speak of, which starts from nothing. -/
def ownScope (d : Definition) (hs : ∀ p : Place, (s.language.pattern p).StaysBelow p) :
    Vocabulary s where
  place := d.Encloses
  token := s.InsideName d
  live x := ∃ t, s.InsideName d t ∧ t.source = x
  source x := ∃ t, (s.InsideName d t ∨ s.InsideLiteral d t) ∧ t.source = x
  child := @Definition.Encloses.child d
  part := @encloses_part s d hs
  name := fun ⟨r, hr, hp⟩ hcomment htoken hleaf =>
    ⟨r, hr, _, hp, hcomment, htoken, of_leaf_eq_name hleaf⟩
  literal := fun ⟨r, hr, hp⟩ hcomment htoken hleaf =>
    ⟨_, Or.inr ⟨r, hr, _, hp, hcomment, htoken, of_leaf_eq_literal hleaf⟩, rfl⟩
  live_of_token ht := ⟨_, ht, rfl⟩
  source_of_live := fun ⟨t, ht, heq⟩ => ⟨t, Or.inl ht, heq⟩

section Define

variable {s} {v : Vocabulary s} {w : Walkers}

/-- The edges of a function are drawn from a vocabulary that holds its inside. -/
theorem drawn_of_mem_define (hw : w.Keeps v) (hsilent : w.SilentTargets) {d : Definition}
    (hinside : ∀ q ∈ d.parameters.flatMap Parameter.parts ++ d.body, v.place q)
    (live : LiveDefs) : ∀ e ∈ (w.define d live).edges, v.Drawn e := by
  obtain ⟨hparameters, hbody⟩ := List.forall_mem_append.mp hinside
  have hbody : v.own.Evaluated d.body d.body := .refl fun q hq => ⟨rfl, hbody q hq⟩
  obtain ⟨hscope, hfallbacks⟩ :=
    hw.bindParameters (Vocabulary.parameters_own hparameters) v.own.live_empty
  obtain ⟨-, hstatements⟩ := hw.visitAll hbody hscope
  show ∀ e ∈ (w.allTargets d.name.toList).edges ++
    ((w.bindParameters d.parameters .empty).edges ++ ((w.visitAll d.body _).edges ++ [])), v.Drawn e
  rw [Walkers.edges_allTargets hsilent, List.nil_append, List.append_nil]
  exact List.forall_mem_append.mpr ⟨hfallbacks, hstatements⟩

end Define

/-! ## Around a function -/

/-- Reading a function from any live definitions: it binds these tokens of its name, and all
else is done inside it. -/
structure RunsClosed (d : Definition) (names : List Token) (run : LiveDefs → Traced LiveDefs) :
    Prop where
  /-- Other names are left alone. -/
  unchanged : ∀ live name, (∀ t ∈ names, t.text ≠ name) →
    (run live).value.get? name = live.get? name
  /-- A name is bound to the last of its tokens. -/
  bound : ∀ live before t behind, names = before ++ t :: behind →
    (∀ u ∈ behind, u.text ≠ t.text) → (run live).value.get? t.text = some [t.index]
  edges : ∀ live live', (run live).edges = (run live').edges
  degradations : ∀ live live', (run live).degradations = (run live').degradations
  inside : ∀ live, ∀ e ∈ (run live).edges, s.StaysInside d e

variable {s}

theorem isName_of_mem_targets (hs : ∀ p : Place, (s.language.pattern p).StaysBelow p)
    {budget : Nat} {q : Place} {t : Token} (ht : t ∈ ((s.walkers budget).targets q).value) :
    s.IsName q t := by
  have hkeeps : (s.walkers budget).Keeps
      (provenanceOf q .empty fun p hp _ hr => hp.below (hs p _ hr)) := keeps_walkers budget
  obtain ⟨htokens, -⟩ := hkeeps.targets (p := q) ⟨rfl, Or.inl rfl⟩
  exact (List.forall₂_same.mp htokens t ht).2

theorem runsClosed_define (hs : ∀ p : Place, (s.language.pattern p).StaysBelow p) (budget : Nat)
    (d : Definition) :
    s.RunsClosed d ((s.walkers budget).tokensOf d.name.toList) ((s.walkers budget).define d) where
  unchanged live name hname := by
    rw [Walkers.value_define]
    exact LiveDefs.get?_bindAll_of_forall_ne hname live
  bound live before t behind hnames hbehind := by
    rw [Walkers.value_define, hnames]
    exact LiveDefs.get?_bindAll_of_last hbehind before live
  -- the live definitions around it are only bound to, behind all that is read
  edges _ _ := rfl
  degradations _ _ := rfl
  inside live e he := by
    have hinside : ∀ q ∈ d.parameters.flatMap Parameter.parts ++ d.body, d.Encloses q :=
      fun q hq => ⟨q, hq, Or.inl rfl⟩
    obtain ⟨-, htarget, hsources⟩ := drawn_of_mem_define (v := s.ownScope d hs)
      (keeps_walkers budget) (s.silentTargets_walkers budget) hinside live e he
    exact ⟨htarget, hsources⟩

/-- **A function is closed.**  Wherever it is read, it binds the tokens of its name, and the
rest is done inside: nothing else changes around it, what is live around it changes none of
its edges, and no edge links its inside with its outside.  As a value it does the same, and
there is nothing in it to draw from. -/
theorem closed_definition (s : Setup)
    (hs : (∃ tag : Tag, s.language = tag.language) ∨
      ∀ p : Place, (s.language.pattern p).StaysBelow p)
    {p : Place} {d : Definition} (hcomment : s.language.isComment p.kind = false)
    (htoken : s.language.isToken p.node = false) (hd : s.language.pattern p = .definition d)
    (budget : Nat) :
    (∀ t ∈ (s.walkers budget).tokensOf d.name.toList, ∃ q ∈ d.name.toList, s.IsName q t) ∧
    s.RunsClosed d ((s.walkers budget).tokensOf d.name.toList) (s.visit (budget + 1) p) ∧
    ∀ live, s.resolve (budget + 1) p live = (·, []) <$> s.visit (budget + 1) p live := by
  have hbelow := Language.staysBelow_of hs
  have hvisit : s.visit (budget + 1) p = (s.walkers budget).define d := by
    funext live
    rw [visit_succ, visitStep_of_construct hcomment htoken, hd]
    rfl
  refine ⟨fun t ht => ?_, hvisit ▸ runsClosed_define hbelow budget d, fun live => ?_⟩
  · obtain ⟨q, hq, ht⟩ := List.mem_flatMap.mp ht
    exact ⟨q, hq, isName_of_mem_targets hbelow ht⟩
  · rw [hvisit, resolve_succ, resolveStep_of_construct hcomment htoken, hd]
    rfl

end Setup

/-! ## A function with a function in its body -/

namespace NestedDefaults

/-- `def f(x=y): x = lambda k=x: k` -/
def function : Place :=
  .root <| .onLine 0 "function_definition" true none 0 29 [
    .onLine 1 "def" false none 0 3 [],
    .onLine 2 "identifier" true (some "name") 4 5 [],
    .onLine 3 "parameters" true (some "parameters") 5 10 [
      .onLine 4 "(" false none 5 6 [],
      .onLine 5 "default_parameter" true none 6 9 [
        .onLine 6 "identifier" true (some "name") 6 7 [],
        .onLine 7 "=" false none 7 8 [],
        .onLine 8 "identifier" true (some "value") 8 9 []],
      .onLine 9 ")" false none 9 10 []],
    .onLine 10 ":" false none 10 11 [],
    .onLine 11 "block" true (some "body") 12 29 [
      .onLine 12 "expression_statement" true none 12 29 [
        .onLine 13 "assignment" true none 12 29 [
          .onLine 14 "identifier" true (some "left") 12 13 [],
          .onLine 15 "=" false none 14 15 [],
          .onLine 16 "lambda" true (some "right") 16 29 [
            .onLine 17 "lambda" false none 16 22 [],
            .onLine 18 "lambda_parameters" true (some "parameters") 23 26 [
              .onLine 19 "default_parameter" true none 23 26 [
                .onLine 20 "identifier" true (some "name") 23 24 [],
                .onLine 21 "=" false none 24 25 [],
                .onLine 22 "identifier" true (some "value") 25 26 []]],
            .onLine 23 ":" false none 26 27 [],
            .onLine 24 "identifier" true (some "body") 28 29 []]]]]]

def setup : Setup where
  language := Language.python
  tokens := .ofTree Language.python "def f(x=y): x = lambda k=x: k".toUTF8 function.node

def definition : Definition :=
  ⟨function.field? "name", Language.Python.parameters function, function.parts ["body"]⟩

/-- What is live around the function. -/
def around : LiveDefs :=
  LiveDefs.empty.bindAll [CopyLoop.token 20 "f", CopyLoop.token 21 "x", CopyLoop.token 22 "y"]

end NestedDefaults

namespace Setup

open NestedDefaults

/-- The function binds its name and leaves the `x` around it.  The fallback of the inner
function is its own token, neither that `x` nor the one of the outer function, and stays so
where nothing is live around. -/
theorem closed_definition_nestedDefaults :
    (setup.visit 8 function around).value.get? "f" = some [1] ∧
      (setup.visit 8 function around).value.get? "x" = some [21] ∧
      .ofSources "k" 11 .comesFrom [⟨"x", 13⟩] ∈ (setup.visit 8 function around).edges ∧
      (setup.visit 8 function around).edges = (setup.visit 8 function .empty).edges := by
  obtain ⟨-, hclosed, -⟩ := closed_definition setup (Or.inl ⟨.python, rfl⟩) (p := function)
    (d := definition) rfl rfl rfl 7
  have hnames : (setup.walkers 7).tokensOf definition.name.toList =
      [⟨1, "f", ⟨⟨0, 4⟩, ⟨0, 5⟩⟩⟩] := by decide +kernel
  have hother : ∀ t ∈ (setup.walkers 7).tokensOf definition.name.toList, t.text ≠ "x" := by
    rw [hnames]
    decide
  exact ⟨hclosed.bound around [] _ [] hnames (List.forall_mem_nil _),
    hclosed.unchanged around "x" hother, by decide +kernel, hclosed.edges around .empty⟩

end Setup

end TokenFlow
