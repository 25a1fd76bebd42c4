import TokenFlow.Edge.Basic
import TokenFlow.Analysis.Degradation

/-!
# Values with the edges found on the way

`Traced α` is a value together with the edges and degradations that computing it
brought up, in order.  Computations are put one after the other by `do`; what they
bring up is then put one after the other too, and nothing is ever taken back
(`edges_bind`, `degradations_bind`).
-/
namespace TokenFlow

/-- A value with the edges and degradations that computing it brought up. -/
structure Traced (α : Type) where
  value : α
  edges : List Edge := []
  degradations : List Degradation := []

namespace Traced

variable {α β : Type}

instance : Monad Traced where
  pure value := { value }
  bind x f :=
    let y := f x.value
    ⟨y.value, x.edges ++ y.edges, x.degradations ++ y.degradations⟩

@[simp] theorem value_pure (a : α) : (pure a : Traced α).value = a := rfl

@[simp] theorem edges_pure (a : α) : (pure a : Traced α).edges = [] := rfl

@[simp] theorem degradations_pure (a : α) : (pure a : Traced α).degradations = [] := rfl

@[simp] theorem value_bind (x : Traced α) (f : α → Traced β) :
    (x >>= f).value = (f x.value).value := rfl

@[simp] theorem edges_bind (x : Traced α) (f : α → Traced β) :
    (x >>= f).edges = x.edges ++ (f x.value).edges := rfl

@[simp] theorem degradations_bind (x : Traced α) (f : α → Traced β) :
    (x >>= f).degradations = x.degradations ++ (f x.value).degradations := rfl

@[simp] theorem value_map (f : α → β) (x : Traced α) : (f <$> x).value = f x.value := rfl

@[simp] theorem edges_map (f : α → β) (x : Traced α) : (f <$> x).edges = x.edges :=
  List.append_nil _

instance : LawfulMonad Traced := LawfulMonad.mk' Traced
  (fun x => by
    show Traced.mk x.value (x.edges ++ []) (x.degradations ++ []) = x
    rw [List.append_nil, List.append_nil])
  (fun _ _ => rfl)
  (fun x f g => by
    show Traced.mk _ (x.edges ++ (f x.value).edges ++ _)
        (x.degradations ++ (f x.value).degradations ++ _) =
      Traced.mk _ (x.edges ++ ((f x.value).edges ++ _))
        (x.degradations ++ ((f x.value).degradations ++ _))
    rw [List.append_assoc, List.append_assoc]
    rfl)

/-- Brings up some edges. -/
def emit (edges : List Edge) : Traced Unit :=
  { value := (), edges }

@[simp] theorem edges_emit (edges : List Edge) : (emit edges).edges = edges := rfl

/-- Brings up a degradation. -/
def degrade (d : Degradation) : Traced Unit :=
  { value := (), degradations := [d] }

/-- Does the same with each of several things and puts the results together. -/
def gather (f : α → Traced (List β)) : List α → Traced (List β)
  | [] => return []
  | a :: as => do
    let found ← f a
    return found ++ (← gather f as)

/-- Rewrites the edges that a computation brings up. -/
def mapEdges (f : List Edge → List Edge) (x : Traced α) : Traced α :=
  { x with edges := f x.edges }

@[simp] theorem value_mapEdges (f : List Edge → List Edge) (x : Traced α) :
    (x.mapEdges f).value = x.value := rfl

@[simp] theorem edges_mapEdges (f : List Edge → List Edge) (x : Traced α) :
    (x.mapEdges f).edges = f x.edges := rfl

end Traced

end TokenFlow
