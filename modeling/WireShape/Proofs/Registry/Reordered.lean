import WireShape.Proofs.Lockstep
import WireShape.Proofs.Reordered

/-!
# Registries in another order

The steps of a registry look up definitions and names, and never ask in which order they stand. So
all of them do the same in two registries that differ at most in the order of their definitions.

* `Registry.Reordered`: registries that differ at most in the order of their definitions.
* `Registry.lockstep_rules`: each step does the same in both.
-/

namespace WireShape

namespace Registry

/-- The same definitions, those that were there first in another order, and the same names by
identity and by shape. There is a bucket for schemas. -/
structure Reordered (T : Atom → Atom → Prop) (reg reg' : Registry) : Prop where
  components : reg.components.Reordered T reg'.components
  apart : reg.components.Apart
  schemas : OrderedMap.contains reg.components (.str "schemas") = true
  byIdentity : reg'.byIdentity.get? = reg.byIdentity.get?
  byShape : reg'.byShape.get? = reg.byShape.get?

namespace Reordered

variable {T : Atom → Atom → Prop} {reg reg' : Registry}

theorem sameAnswers (h : reg.Reordered T reg') : SameAnswers reg reg' := by
  refine ⟨?_, h.byIdentity, h.byShape⟩
  funext bucket name
  have hfind : OrderedMap.get? (reg'.components.bucket bucket) name =
      OrderedMap.get? (reg.components.bucket bucket) name := h.components.find? h.apart
  unfold definition?
  rw [hfind]

/-- Walks that start with what is defined in each. -/
theorem alike (h : reg.Reordered T reg') :
    Context.Alike { known := reg.components } { known := reg'.components } :=
  ⟨fun _ _ => h.components.contains h.apart, rfl, rfl, rfl⟩

end Reordered

/-! ## Steps side by side -/

variable {h : Heap} {T : Atom → Atom → Prop}

/-- A step that does the same in both registries. -/
abbrev Lockstep {α : Type} (T : Atom → Atom → Prop) (step : Registering α) : Prop :=
  WireShape.Lockstep (Reordered T) step

theorem lockstep_define (hT : ∀ j b n, (j == b) = true → T j n → T b n) {bucket name : Atom}
    {schema : Value} : Lockstep T (define bucket name schema) := by
  refine .of_modify fun _ _ hregs => ⟨hregs.components.define hregs.apart hT, hregs.apart.define, ?_,
    hregs.byIdentity, hregs.byShape⟩
  rw [Components.define, OrderedMap.contains_insert, hregs.schemas, Bool.or_true]

theorem lockstep_bind {v : Value} {name : Atom} : Lockstep T (Registry.bind v name) := by
  unfold Registry.bind
  split
  · refine .of_modify fun _ _ hregs =>
      ⟨hregs.components, hregs.apart, hregs.schemas, ?_, hregs.byShape⟩
    funext identity
    dsimp only
    rw [OrderedMap.get?_insert, OrderedMap.get?_insert, hregs.byIdentity]
  · exact .pure

theorem lockstep_bindShape {shape : String} {name : Atom} : Lockstep T (bindShape shape name) := by
  refine .of_modify fun _ _ hregs =>
    ⟨hregs.components, hregs.apart, hregs.schemas, hregs.byIdentity, ?_⟩
  funext other
  dsimp only
  rw [OrderedMap.get?_insert, OrderedMap.get?_insert, hregs.byShape]

theorem lockstep_openBucket {bucket : Atom} : Lockstep T (openBucket bucket) := by
  refine .of_modify fun _ _ hregs => ?_
  rw [hregs.components.contains_bucket hregs.apart]
  split
  · exact hregs
  · rename_i hnew
    refine ⟨hregs.components.opened, hregs.apart.opened (Bool.eq_false_iff.mpr hnew), ?_,
      hregs.byIdentity, hregs.byShape⟩
    obtain ⟨schemas, hmem, hkey⟩ := OrderedMap.contains_iff.mp hregs.schemas
    exact OrderedMap.contains_iff.mpr ⟨schemas, List.mem_append_left _ hmem, hkey⟩

theorem lockstep_addLog {level : LogLevel} {message : String} : Lockstep T (addLog level message) :=
  .of_modify fun _ _ hregs =>
    ⟨hregs.components, hregs.apart, hregs.schemas, hregs.byIdentity, hregs.byShape⟩

theorem lockstep_addLogFrom {level : LogLevel} {message : Except Fault String} :
    Lockstep T (addLogFrom level message) := by
  cases message with
  | error => exact .pure
  | ok => exact lockstep_addLog

theorem lockstep_basic (hT : ∀ j b n, (j == b) = true → T j n → T b n) :
    Rules h fun {_} step => Lockstep T step where
  toCompositional := Lockstep.compositional
  define _ _ _ := lockstep_define hT
  remember _ _ := lockstep_bind
  bindShape _ _ := lockstep_bindShape
  openBucket _ := lockstep_openBucket
  read hsame hf := .getBind (fun _ _ hregs => hsame _ _ hregs.sameAnswers) hf
  debug _ := lockstep_addLogFrom
  severalKeys _ _ := lockstep_addLogFrom

/-- A walk does the same against the definitions of both. -/
theorem lockstep_runWalk (hT : ∀ j b n, (j == b) = true → T j n → T b n) {walk : Walk Compiled}
    (hwalk : walk.Lockstep) :
    Lockstep T (runWalk h walk) := by
  refine .getBind (fun reg reg' hregs => ?_) fun reg => ?_
  · obtain ⟨houtcome, hafter⟩ := hwalk _ _ hregs.alike
    generalize walk { known := reg.components } = done at houtcome hafter ⊢
    generalize walk { known := reg'.components } = done' at houtcome hafter ⊢
    obtain ⟨outcome, ctx⟩ := done
    obtain ⟨outcome', ctx'⟩ := done'
    obtain rfl : outcome' = outcome := houtcome
    have hcreated : ctx'.created = ctx.created := hafter.created
    have hlog : ctx'.log = ctx.log := hafter.log
    simp only [hcreated, hlog]
  · refine .bind (.of_modify fun _ _ hregs => ?_) fun _ =>
      .bind WireShape.Lockstep.compositional.lift fun _ =>
        .bind (lockstep_basic hT).merge fun _ => .pure
    exact ⟨hregs.components, hregs.apart, hregs.schemas, hregs.byIdentity, hregs.byShape⟩

/-- The steps of a registry do the same in both. -/
theorem lockstep_rules (hT : ∀ j b n, (j == b) = true → T j n → T b n) :
    WalkRules h fun {_} step => Lockstep T step where
  toRules := lockstep_basic hT
  compile _ := lockstep_runWalk hT Walk.lockstep_rules.compile
  compileSchema _ := lockstep_runWalk hT Walk.lockstep_rules.compileSchema

end Registry

end WireShape
