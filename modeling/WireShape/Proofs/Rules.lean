import WireShape.Parameter
import WireShape.Proofs.Paired

/-!
# Properties that all computations have

Walks and the steps of a registry are put together from a few basic steps. A property that the basic
steps have, and that sequences of steps keep, is one of all of them: there is one lemma for each
function, whatever the property.

* `Compositional`: properties that sequences keep.
* `Walk.Rules`: properties that the basic steps of a walk have as well.
* `Walk.Rules.compile`: every walk has such a property.
* `Registry.Rules`, `Registry.WalkRules`: the same for the steps of a registry.
* `Registry.WalkRules.nameFor`, `Registry.WalkRules.declare`: the steps of a build have it.
-/

namespace WireShape

open Value (Fields)

/-- A property of computations that sequences of them keep. -/
structure Compositional {σ : Type} (P : ∀ {α : Type}, ExceptT Fault (StateM σ) α → Prop) : Prop where
  pure : ∀ {α : Type} (a : α), P (Pure.pure a)
  throw : ∀ {α : Type} (fault : Fault), P (MonadExcept.throw fault : ExceptT Fault (StateM σ) α)
  bind : ∀ {α β : Type} {x : ExceptT Fault (StateM σ) α} {f : α → ExceptT Fault (StateM σ) β},
    P x → (∀ a, P (f a)) → P (x >>= f)

namespace Compositional

variable {σ α β : Type} {P : ∀ {α : Type}, ExceptT Fault (StateM σ) α → Prop}
  {x y : ExceptT Fault (StateM σ) α}

theorem ite {p : Prop} [Decidable p] (hx : P x) (hy : P y) : P (if p then x else y) := by
  split
  · exact hx
  · exact hy

variable (hP : Compositional @P)
include hP

/-- A step that does not touch the state. -/
theorem lift {r : Except Fault α} : P (fun s => (r, s)) := by
  cases r with
  | error fault => exact hP.throw fault
  | ok a => exact hP.pure a

/-- A step that is made on a condition, and what follows in both cases. -/
theorem join {p : Prop} [Decidable p] {f : Unit → ExceptT Fault (StateM σ) α}
    {x : ExceptT Fault (StateM σ) Unit} (hx : P x) (hf : P (f ())) :
    P (if p then x >>= f else f ()) :=
  ite (hP.bind hx fun _ => hf) hf

theorem mapM {g : α → ExceptT Fault (StateM σ) β} {xs : List α} (hg : ∀ a ∈ xs, P (g a)) :
    P (xs.mapM g) := by
  induction xs with
  | nil => exact hP.pure []
  | cons a xs ih =>
    rw [List.mapM_cons]
    refine hP.bind (hg a List.mem_cons_self) fun _ => hP.bind ?_ fun _ => hP.pure _
    exact ih fun b hb => hg b (List.mem_cons_of_mem _ hb)

theorem forM {g : α → ExceptT Fault (StateM σ) Unit} {xs : List α} (hg : ∀ a ∈ xs, P (g a)) :
    P (xs.forM g) := by
  induction xs with
  | nil => exact hP.pure ()
  | cons a xs ih =>
    exact hP.bind (hg a List.mem_cons_self) fun _ => ih fun b hb => hg b (List.mem_cons_of_mem _ hb)

end Compositional

/-! ## Walks -/

/-- A property of walks that the basic steps have and that sequences of steps keep. -/
structure Walk.Rules (h : Heap) (P : ∀ {α : Type}, Walk α → Prop) : Prop
    extends Compositional @P where
  register : ∀ bucket name schema, P (Walk.register h.describe bucket name schema)
  atPosition : ∀ {α : Type} (s : Schema) (kind : String) {step : Walk α}, P step →
    P (Walk.atPosition s kind step)
  /-- The only question about the definitions is whether there is one of a name. -/
  read : ∀ {α : Type} {f : Context → Walk α},
    (∀ ctx ctx' : Context, ctx'.has = ctx.has → f ctx' = f ctx) → (∀ ctx, P (f ctx)) →
      P (get >>= f)

namespace Walk.Rules

variable {h : Heap} {P : ∀ {α : Type}, Walk α → Prop} {recur : Recur} {s : Schema}
  (hP : Walk.Rules h @P)
include hP

/-- A property of walks is a relation between walks and themselves. -/
theorem pairs :
    PairRules h.describe s s (fun {_} x y => y = x ∧ P x) fun {_} x y => y = x ∧ P x := by
  have hpairs : Pairs fun {_} x y => y = x ∧ P x := by
    refine ⟨fun a => ⟨rfl, hP.pure a⟩, fun _ => ⟨rfl, hP.throw _⟩, ?_⟩
    intro _ _ x y f g hxy hfg
    obtain ⟨rfl, hx⟩ := hxy
    obtain rfl : g = f := funext fun a => (hfg a).1
    exact ⟨rfl, hP.bind hx fun a => (hfg a).2⟩
  refine ⟨hpairs, hpairs, fun bucket name schema => ⟨rfl, hP.register bucket name schema⟩, ?_, ?_⟩
  · intro _ kind x y hxy
    obtain ⟨rfl, hx⟩ := hxy
    exact ⟨rfl, hP.atPosition s kind hx⟩
  · intro _ f g hsame hfg
    obtain rfl : g = f := funext fun ctx => (hfg ctx).1
    exact ⟨rfl, hP.read (fun ctx ctx' heq => (hsame ctx ctx' heq).1) fun ctx => (hfg ctx).2⟩

theorem compileStep (hrecur : ∀ s overriding, P (recur s overriding)) {overriding : Bool} :
    P (compileStep h recur s overriding) :=
  (hP.pairs.compileStep (.refl h) rfl (fun t _ _ _ => ⟨rfl, hrecur t true⟩)
    fun t _ => ⟨rfl, hrecur t false⟩).2

theorem compileWithin (depth : Nat) (s : Schema) (overriding : Bool) :
    P (compileWithin h depth s overriding) := by
  induction depth generalizing s overriding with
  | zero => exact hP.throw _
  | succ depth ih => exact hP.compileStep ih

theorem compileSchema : P (h.compileSchema s) := hP.compileWithin _ s false

/-- Every walk has the property. -/
theorem compile {v : Value} : P (h.compile v) := hP.bind hP.lift fun _ => hP.compileSchema

end Walk.Rules

/-! ## Steps of a registry -/

/-- The definition of a parameter has a property that its walk and its warning have. -/
theorem Compositional.buildParameter {h : Heap} {v headerStart : Value}
    {P : ∀ {α : Type}, Registering α → Prop} (hP : Compositional @P)
    (hcompile : P (Registry.compile h v))
    (hwarning : ∀ (start : String) (shown : Except Fault String), P (Registry.addLogFrom .warning
      (do return start ++ (← shown) ++ " is documented"))) :
    P (Registry.buildParameter h v headerStart) := by
  refine hP.bind hcompile fun r => ?_
  split
  · refine ite (hP.pure _) (hP.bind hP.lift fun names => ?_)
    refine hP.join (hwarning _ _) ?_
    refine hP.bind hP.lift fun _ => hP.bind hP.lift fun _ => hP.bind hP.lift fun _ => ?_
    exact hP.bind hP.lift fun _ => hP.pure _
  · exact hP.pure none

namespace Registry

/-- Two registries answer all questions in the same way. -/
structure SameAnswers (reg reg' : Registry) : Prop where
  definition? : reg'.definition? = reg.definition?
  byIdentity : reg'.byIdentity.get? = reg.byIdentity.get?
  byShape : reg'.byShape.get? = reg.byShape.get?

/-- A property of steps of a registry that the basic steps have and that sequences of steps keep. -/
structure Rules (h : Heap) (P : ∀ {α : Type}, Registering α → Prop) : Prop
    extends Compositional @P where
  define : ∀ bucket name schema, P (define bucket name schema)
  remember : ∀ v name, P (Registry.bind v name)
  bindShape : ∀ shape name, P (bindShape shape name)
  openBucket : ∀ bucket, P (openBucket bucket)
  read : ∀ {α : Type} {f : Registry → Registering α},
    (∀ reg reg', SameAnswers reg reg' → f reg' = f reg) → (∀ reg, P (f reg)) → P (get >>= f)
  debug : ∀ message, P (addLogFrom .debug message)
  /-- The warning about a parameter with several keys. -/
  severalKeys : ∀ (start : String) (shown : Except Fault String),
    P (addLogFrom .warning (do return start ++ (← shown) ++ " is documented"))

namespace Rules

variable {h : Heap} {P : ∀ {α : Type}, Registering α → Prop} {v : Value} {name bucket : Atom}
  (hP : Rules h @P)
include hP

theorem addDefinition {schema : Value} : P (addDefinition h bucket name schema) := by
  refine hP.read (fun reg reg' hsame => by rw [hsame.definition?]) fun reg => ?_
  split
  · exact hP.define _ _ _
  · refine hP.bind hP.lift fun _ => hP.bind hP.lift fun _ => Compositional.ite ?_ (hP.pure _)
    exact hP.bind hP.lift fun _ => hP.bind hP.lift fun _ => hP.throw _

theorem merge {created : Components} : P (merge h created) :=
  hP.forM fun _ _ => hP.bind (hP.openBucket _) fun _ => hP.forM fun _ _ => hP.addDefinition

theorem publish {schema : Value} {shape : String} : P (publish h v schema shape) := by
  have hnamed : ∀ name, P (do
      Registry.bind v name
      Registry.bindShape shape name
      return name : Registering Atom) :=
    fun name => hP.bind (hP.remember v name) fun _ => hP.bind (hP.bindShape shape name) fun _ =>
      hP.pure name
  unfold Registry.publish
  refine hP.join (hP.throw _) (hP.bind hP.lift fun name => ?_)
  refine hP.read (fun reg reg' hsame => by rw [hsame.definition?]) fun reg => ?_
  split
  · refine hP.bind hP.lift fun _ => Compositional.ite ?_ (hnamed name)
    exact hP.bind hP.lift fun _ => hP.bind (hP.throw _) fun _ => hnamed name
  · refine hP.bind (hP.define _ _ _) fun _ => hP.bind (hP.remember v name) fun _ => ?_
    refine hP.bind (hP.bindShape shape name) fun _ => hP.bind (hP.debug _) fun _ => hP.pure name

theorem logReuse {label : Value} : P (logReuse h name label) :=
  Compositional.ite (hP.debug _) (hP.debug _)

end Rules

/-- Such a property that walks against the definitions made so far have as well. -/
structure WalkRules (h : Heap) (P : ∀ {α : Type}, Registering α → Prop) : Prop
    extends Rules h @P where
  compile : ∀ v, P (compile h v)
  compileSchema : ∀ s, P (compileSchema h s)

namespace WalkRules

variable {h : Heap} {P : ∀ {α : Type}, Registering α → Prop} {v : Value} {name : Atom}
  (hP : WalkRules h @P)
include hP

/-- Declarations have the property. -/
theorem declare : P (declare h name v) := by
  refine hP.bind (hP.compile v) fun r => ?_
  cases r with
  | none => exact hP.bind (hP.debug _) fun _ => hP.pure none
  | some schema =>
    refine hP.bind (hP.define _ _ _) fun _ => hP.bind (hP.remember v name) fun _ => ?_
    exact hP.bind hP.lift fun _ => hP.bind (hP.bindShape _ _) fun _ => hP.pure _

theorem chooseName : P (chooseName h v) := by
  refine hP.bind (hP.compile v) fun r => ?_
  cases r with
  | none => exact hP.throw _
  | some schema =>
    refine hP.bind hP.lift fun target => ?_
    cases target with
    | some target =>
      exact hP.bind hP.lift fun name => hP.bind (hP.remember v name) fun _ => hP.pure name
    | none =>
      refine hP.bind hP.lift fun shape => ?_
      refine hP.read (fun reg reg' hsame => by rw [hsame.byShape]) fun reg => ?_
      split
      · exact hP.bind (hP.remember _ _) fun _ => hP.bind hP.logReuse fun _ => hP.pure _
      · exact hP.publish

/-- The choice of a name has the property. -/
theorem nameFor : P (nameFor h v) := by
  refine hP.read (fun reg reg' hsame => by rw [hsame.byIdentity]) fun reg => ?_
  split
  · exact hP.pure _
  · exact hP.chooseName

/-- The definition of a parameter has the property. -/
theorem buildParameter {headerStart : Value} : P (buildParameter h v headerStart) :=
  hP.toCompositional.buildParameter (hP.compile v) hP.severalKeys

end WalkRules

end Registry

end WireShape
