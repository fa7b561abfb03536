import WireShape.Proofs.Rules
import WireShape.Proofs.Spec.Sources

/-!
# Properties that the steps of a build have

A property of steps of a registry that sequences of them keep goes from the basic steps to what a
build makes of them: declarations, the parts of path parameters, content and responses. Operations
only compile the parts of path parameters and choose names, and need not write over a definition as
declarations do. Parameters that are not declared are noted in the log; where the property allows for
such notes, it goes on to whole operations.

* `Registry.WalkRules.declareSchemas`, `Registry.WalkRules.declareParameters`: the declarations.
* `Registry.RouteRules`: properties that the steps of operations have.
* `Registry.RouteRules.contentOf`, `Registry.RouteRules.pathParameters`: the parts of an operation.
* `Registry.RouteRules.pathsOf`: the operations of all routes.
-/

namespace WireShape

open Value (Fields)

namespace Registry

open Spec (Setup ParameterNames)

/-- A property of steps of a registry that sequences of steps keep and that the steps have by which
operations reach into the registry. -/
structure RouteRules (h : Heap) (P : ∀ {α : Type}, Registering α → Prop) : Prop
    extends Compositional @P where
  compileSchema : ∀ s, P (Registry.compileSchema h s)
  nameFor : ∀ v, P (Registry.nameFor h v)

section Steps

variable {setup : Setup} {P : ∀ {α : Type}, Registering α → Prop} {v : Value} {route : Route}
  {names : ParameterNames}

/-! ## Declarations -/

namespace WalkRules

variable (hP : WalkRules setup.heap @P)
include hP

theorem declareSchemas : P (Spec.declareSchemas setup v) := by
  refine Compositional.ite (hP.bind hP.lift fun _ => hP.forM fun _ _ => ?_)
    (hP.bind (hP.pure _) fun _ => hP.forM fun _ _ => ?_)
  all_goals exact hP.bind hP.declare fun _ => hP.pure _

theorem declareParameters : P (Spec.declareParameters setup v) := by
  refine Compositional.ite (hP.bind hP.lift fun _ => hP.forM fun _ _ => ?_)
    (hP.bind (hP.pure _) fun _ => hP.forM fun _ _ => ?_)
  all_goals
    refine hP.bind hP.buildParameter fun built => ?_
    cases built with
    | none => exact hP.pure ()
    | some parameter => exact hP.define _ _ _

theorem routeRules : RouteRules setup.heap @P :=
  { hP.toCompositional with
    compileSchema := hP.compileSchema
    nameFor := fun _ => hP.nameFor }

end WalkRules

/-! ## The parts of an operation -/

namespace RouteRules

variable (hP : RouteRules setup.heap @P)
include hP

theorem pathParameters : P (Spec.pathParameters setup v) := by
  refine Compositional.ite (hP.pure _) (hP.bind hP.lift fun s => hP.bind (hP.mapM fun e _ => ?_)
    fun _ => hP.pure _)
  refine hP.bind (hP.compileSchema _) fun r => ?_
  cases r with
  | none => exact hP.pure none
  | some schema => exact hP.bind hP.lift fun _ => hP.pure _

theorem contentOf : P (Spec.contentOf setup v) := by
  refine hP.bind hP.lift fun entries => hP.bind (hP.mapM fun e _ => ?_) fun _ => hP.pure _
  obtain ⟨mime, media⟩ := e
  cases media with
  | mediaType schema examples =>
    exact hP.bind (hP.nameFor _) fun _ => hP.bind hP.lift fun _ => hP.pure _
  | _ => exact hP.throw _

theorem bodyFields : P (Spec.bodyFields setup route) := by
  unfold Spec.bodyFields
  split
  · exact hP.bind (hP.bind hP.contentOf fun _ => hP.pure _) fun _ => hP.pure _
  · exact hP.pure []

theorem responsesOf {responses : OrderedMap String Response} :
    P (Spec.responsesOf setup responses) :=
  hP.bind (hP.mapM fun _ _ => hP.bind hP.contentOf fun _ => hP.pure _) fun _ => hP.pure _

/-! ## Operations -/

section Warnings

variable (hwarning : ∀ message, P (addLog .warning message))
include hwarning

theorem parameterName {key : Atom} : P (Spec.parameterName setup names route key) := by
  have hundeclared : P (Spec.parameterName.undeclared setup route key) := by
    refine hP.bind hP.lift fun _ => Compositional.ite ?_ ?_
    · exact hP.bind hP.lift fun _ => hP.bind (hP.throw _) fun _ => hP.bind hP.lift fun _ =>
        hP.bind hP.lift fun _ => hP.bind hP.lift fun _ => hP.bind (hwarning _) fun _ => hP.pure key
    · exact hP.bind hP.lift fun _ => hP.bind hP.lift fun _ => hP.bind hP.lift fun _ =>
        hP.bind (hwarning _) fun _ => hP.pure key
  unfold Spec.parameterName
  split
  · exact Compositional.ite hundeclared (hP.pure _)
  · exact hundeclared

theorem referenceParameters {container : Value} :
    P (Spec.referenceParameters setup names route container) :=
  Compositional.ite (hP.pure _) (hP.bind hP.lift fun _ => hP.mapM fun _ _ =>
    hP.bind (hP.parameterName hwarning) fun _ => hP.lift)

theorem operationOf : P (Spec.operationOf setup names route) := by
  rw [Spec.operationOf_eq]
  refine hP.bind ?_ fun _ => hP.bind hP.bodyFields fun _ => hP.bind hP.responsesOf fun _ => hP.pure _
  exact hP.bind (hP.referenceParameters hwarning) fun _ =>
    hP.bind (hP.referenceParameters hwarning) fun _ => hP.bind hP.pathParameters fun _ => hP.pure _

/-- The operations of all routes have the property. -/
theorem pathsOf {paths : Paths} : P (Spec.pathsOf setup names paths) :=
  hP.mapM fun _ _ => hP.bind (hP.mapM fun _ _ => hP.bind (hP.operationOf hwarning) fun _ => hP.pure _)
    fun _ => hP.pure _

end Warnings

end RouteRules

end Steps

end Registry

end WireShape
