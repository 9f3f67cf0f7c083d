import Discretization.Generative
import Discretization.Lobatto

/-!
# Derivative Methods

A parameter's method decides how derivatives with respect to it become algebraic equations, and
which derived supports the parameter needs.
-/

namespace Discretization

/-- The stencils of finite differences. -/
inductive Technique where
  /-- The slope from the support before. -/
  | backward
  /-- The slope to the support after. -/
  | forward
  /-- The slope between the supports on both sides. -/
  | central
  deriving Repr, DecidableEq

namespace Technique

/-- All stencils. -/
def techniques : List Technique := [backward, forward, central]

/-- The name of a stencil. -/
def name : Technique → String
  | backward => "backward"
  | forward => "forward"
  | central => "central"

/-- The name of a stencil at the start of a sentence. -/
def title : Technique → String
  | backward => "Backward"
  | forward => "Forward"
  | central => "Central"

/-- The stencil with the given name. -/
def ofName? {α : Type} (name : String) : Except (Error α) Technique :=
  match techniques.find? (·.name == name) with
  | some technique => pure technique
  | none => throw (.technique name)

/-- The number of supports that a stencil needs. -/
def needed : Technique → Nat
  | central => 3
  | _ => 2

end Technique

/-- How derivatives with respect to a parameter are evaluated. -/
inductive DerivativeMethod where
  /-- Finite differences over neighbouring supports. -/
  | finiteDifference (technique : Technique)
  /-- Orthogonal collocation on elements with the given number of Gauss–Lobatto nodes, both ends
  counted. -/
  | orthogonalCollocation (nodes : Nat)
  /-- A method of which nothing is known. -/
  | undefined
  deriving Repr, DecidableEq

namespace DerivativeMethod

/-- The method used when none is asked for. -/
def standard : DerivativeMethod := .finiteDifference .backward

/-- Orthogonal collocation; an element has at least its two ends. -/
def collocation? {α : Type} (nodes : Int) : Except (Error α) DerivativeMethod :=
  if nodes < 2 then throw (.collocationNodes nodes)
  else pure (.orthogonalCollocation nodes.toNat)

/-- The method in short. -/
def code : DerivativeMethod → String
  | finiteDifference technique => "FD:" ++ technique.name
  | orthogonalCollocation nodes => "OC:" ++ toString nodes
  | undefined => "DerivativeMethod"

variable {α : Type} [Scalar α]

/-- The derived supports that a method needs: the inner nodes of every element. -/
def generativeInfo : DerivativeMethod → GenerativeInfo α
  | orthogonalCollocation nodes =>
    if nodes ≤ 2 then .none
    else .uniform ((Lobatto.innerNodes nodes).map (GenerativeInfo.offset (-1) 1)) .collocation
  | _ => .none

end DerivativeMethod

/-- The Gauss–Lobatto nodes of a rule with at least two nodes. -/
def lobattoNodes {α : Type} [Scalar α] (count : Int) : Except (Error α) (List α) :=
  if count < 2 then throw (.lobattoNodes count) else pure (Lobatto.nodes count.toNat)

end Discretization
