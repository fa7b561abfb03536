import WireShape.Parameter
import WireShape.Proofs.Registry.Additions

/-!
# What a declared parameter is defined as

A parameter is declared by an object schema, and its definition is made from the first key. The keys
are looked for in the compiled schema itself. A schema that is a class compiles to a reference, under
which there are no keys, so such a parameter gets no definition, although the definition that the
reference leads to has a key (`Registry.buildParameter_lost`).

* `Registry.Leads`: what a schema is, once references are followed.
* `Registry.Describes`: schemas that describe a key.
* `Registry.buildParameter_decides`: which parameters are defined, and as what.
* `Registry.buildParameter_of_class`: no class is defined as a parameter.
-/

namespace WireShape

open Value (Fields)

namespace Registry

variable {h : Heap} {reg after : Registry} {v schema target headerStart : Value} {start name : String}
  {definition : Fields} {required : List Value}

/-- A schema leads to another one through the references that stand in its place. -/
inductive Leads (reg : Registry) : Value → Value → Prop
  | here {schema : Value} : Leads reg schema schema
  | follow {bucket name : String} {d target : Value}
      (hfound : reg.components.find? (.str bucket) (.str name) = some d)
      (hrest : Leads reg d target) : Leads reg (reference bucket name) target

/-- An object schema whose first key is a text with a mapping as its schema, and the keys that it
requires. -/
structure Describes (schema : Value) (name : String) (definition : Fields) (required : List Value) :
    Prop where
  properties : ∃ identity identity' rest, schema.field? "properties" =
    some (.map ((.str name, .map definition identity) :: rest) identity')
  required : ((schema.field? "required").getD .null).orElse (.list []) = .list required

/-- A parameter: the key, where it is passed, whether it is required, and its schema with the
description taken out. -/
def parameterOf (start name : String) (definition : Fields) (required : List Value) : Value :=
  .ofFields [
    ("name", .str name),
    ("in", .str (if start.toList.isPrefixOf name.toList then "header" else "query")),
    ("required", .bool ((Value.str name).isIn required)),
    ("schema", .ofEntries (definition.remove "description")),
    ("description", OrderedMap.getD definition (.str "description") (.str ""))]

/-! ## Steps that cannot fail -/

/-- A step that has its answer goes on with it. -/
theorem lift_ok_bind {α β : Type} {a : α} {f : α → Registering β} : lift (.ok a) >>= f = f a := rfl

/-- A note may be made before the rest, which leaves the registry as it is. -/
theorem runs_after_note {α : Type} {p : Prop} [Decidable p] {level : LogLevel}
    {message : Except Fault String} {f : Unit → Registering α} {a : α}
    (hf : ∀ later, Runs (f ()) later a later) :
    ∃ later, Runs (if p then addLogFrom level message >>= f else f ()) reg a later ∧
      later.SameData reg := by
  split
  · cases message with
    | error fault => exact ⟨reg, hf reg, .refl⟩
    | ok text => exact ⟨_, hf _, rfl, rfl, rfl⟩
  · exact ⟨reg, hf reg, .refl⟩

/-! ## Definitions of parameters -/

/-- The value under the first key. -/
theorem item_first {describe : Describe} {identity : Option Nat} {rest : Fields} {found : Value} :
    (Value.map ((.str name, found) :: rest) identity).item describe (.str name) = .ok found := by
  have hself : (Atom.str name == .str name) = true := Atom.str_beq_iff.mpr rfl
  have hget : OrderedMap.get? ((Atom.str name, found) :: rest) (.str name) = some found := by
    rw [OrderedMap.get?_cons, if_pos hself]
  unfold Value.item
  simp only [Value.asKey, Bind.bind, Except.bind, hget]
  rfl

/-- A schema that describes a key in place gives the parameter of its first key. -/
theorem buildParameter_in_place (hcompile : Runs (compile h v) reg (some schema) after)
    (hschema : Describes schema name definition required) :
    ∃ later, Runs (buildParameter h v (.str start)) reg
      (some (parameterOf start name definition required)) later ∧ later.SameData after := by
  obtain ⟨⟨identity, identity', rest, hproperties⟩, hrequired⟩ := hschema
  cases schema with
  | map es i =>
    have hbegins : (Value.str name).startsWith (.str start) =
        .ok (start.toList.isPrefixOf name.toList) := rfl
    have hholds : (Value.list required).holds (.str name) =
        .ok ((Value.str name).isIn required) := rfl
    suffices hrest : ∃ later, _ ∧ _ by
      obtain ⟨later, hrun, hsame⟩ := hrest
      exact ⟨later, runs_bind_iff.mpr ⟨_, _, hcompile, hrun⟩, hsame⟩
    dsimp only
    rw [hproperties, hrequired, Option.getD_some, if_neg (by simp [Value.truthy]), Value.elements,
      Value.elements?, lift_ok_bind]
    refine runs_after_note fun later => ?_
    rw [List.map_cons, List.headD_cons, item_first, lift_ok_bind, Value.toEntries, lift_ok_bind,
      hbegins, lift_ok_bind, hholds, lift_ok_bind]
    exact runs_pure_iff.mpr ⟨rfl, rfl⟩
  | _ => cases hproperties

/-- A reference gives no parameter. -/
theorem buildParameter_reference {bucket what : String}
    (hcompile : Runs (compile h v) reg (some (reference bucket what)) after) :
    Runs (buildParameter h v headerStart) reg none after :=
  runs_bind_iff.mpr ⟨_, _, hcompile, runs_pure_iff.mpr ⟨rfl, rfl⟩⟩

/-- Only a reference leads elsewhere. -/
theorem Leads.exists_reference (hleads : reg.Leads schema target) (hne : schema ≠ target) :
    ∃ bucket what, schema = reference bucket what := by
  cases hleads with
  | here => exact absurd rfl hne
  | follow => exact ⟨_, _, rfl⟩

/-- **Definitions of parameters.** Where a declared schema compiles to one that describes a key, once
references are followed, the parameter is defined as its first key if no reference has to be followed,
whatever the registry holds; it gets no definition if one has to be. -/
theorem buildParameter_decides (hcompile : Runs (compile h v) reg (some schema) after)
    (hleads : after.Leads schema target) (htarget : Describes target name definition required) :
    (schema = target → ∃ later, Runs (buildParameter h v (.str start)) reg
      (some (parameterOf start name definition required)) later ∧ later.SameData after) ∧
    (schema ≠ target → Runs (buildParameter h v (.str start)) reg none after) := by
  constructor
  · rintro rfl
    exact buildParameter_in_place hcompile htarget
  · intro hne
    obtain ⟨bucket, what, rfl⟩ := hleads.exists_reference hne
    exact buildParameter_reference hcompile

/-! ## Classes -/

/-- What a class compiles to is a reference, if it is anything. -/
theorem reference_of_class {s : Schema} {ctx ctx' : Context}
    (hwalk : Walked h s false ctx (some schema) ctx')
    (hoverride : (h.view s).override.isNull = true) (hclass : (h.view s).className.truthy = true) :
    ∃ bucket what, schema = reference bucket what := by
  have hsome : ∀ {c}, (h.view s).class? = .ok c → c ≠ none := by
    rintro c hc rfl
    rw [class?_eq_ok_none_iff.mp hc] at hclass
    cases hclass
  have hfinish : ∀ {d c ctx ctx'}, (h.view s).class? = .ok c →
      Finish h d ctx c (some schema) ctx' → ∃ bucket what, schema = reference bucket what := by
    intro d c ctx ctx' hc hfinish
    generalize hr : some schema = r at hfinish
    cases hfinish with
    | plain => exact absurd rfl (hsome hc)
    | define =>
      cases hr
      exact ⟨_, _, rfl⟩
  cases hwalk.step with
  | override h' => exact absurd (h'.symm.trans hoverride) Bool.false_ne_true
  | literal _ _ hc hfinishes => exact hfinish hc hfinishes
  | known => exact ⟨_, _, rfl⟩
  | compiled _ _ hc _ _ _ _ _ _ _ hfinishes => exact hfinish hc hfinishes

/-- No class is defined as a parameter, whatever keys it has. -/
theorem buildParameter_of_class {s : Schema} {r : Compiled} (hs : rootSchema v = .ok s)
    (hoverride : (h.view s).override.isNull = true) (hclass : (h.view s).className.truthy = true)
    (hcompile : Runs (compile h v) reg r after) :
    Runs (buildParameter h v headerStart) reg none after := by
  cases r with
  | none => exact runs_bind_iff.mpr ⟨_, _, hcompile, runs_pure_iff.mpr ⟨rfl, rfl⟩⟩
  | some schema =>
    obtain ⟨hwalk, _, _⟩ := runs_runWalk hcompile
    obtain ⟨s', hs', hwalk⟩ := runs_compile_iff.mp hwalk
    obtain rfl := Except.ok.inj (hs.symm.trans hs')
    obtain ⟨bucket, what, rfl⟩ := reference_of_class (walked_of_runs hwalk) hoverride hclass
    exact buildParameter_reference hcompile

/-! ## A page number, in place and as a class -/

/-- A page number that is required, as the key of a plain object and of a class. -/
def pageHeap : Heap where
  nodes := #[{ kind := "number", rules := [.integer], flags := [("presence", .str "required"),
      ("description", .str "Page number")] },
    { kind := "object", children := [(.str "page", .node 0)] },
    { kind := "object", children := [(.str "page", .node 0)],
      metadata := [(.str "className", .str "Paging")] }]

/-- What both objects say. -/
def pageSchema : Value := .ofFields [("type", .str "object"),
  ("properties", .ofFields [("page", .ofFields [("type", .str "integer"),
    ("description", .str "Page number")])]),
  ("required", .list [.str "page"]), ("additionalProperties", .bool false)]

theorem describes_page : Describes pageSchema "page"
    [(.str "type", .str "integer"), (.str "description", .str "Page number")] [.str "page"] :=
  ⟨⟨_, _, _, rfl⟩, rfl⟩

/-- The key of the plain object is a parameter. -/
theorem buildParameter_decides_page : ∃ after,
    Runs (compile pageHeap (.node 1)) {} (some pageSchema) after ∧
    after.Leads pageSchema pageSchema ∧ Describes pageSchema "page"
      [(.str "type", .str "integer"), (.str "description", .str "Page number")] [.str "page"] ∧
    ∃ later, Runs (buildParameter pageHeap (.node 1) (.str "x-")) {} (some (.ofFields [
      ("name", .str "page"), ("in", .str "query"), ("required", .bool true),
      ("schema", .ofFields [("type", .str "integer")]),
      ("description", .str "Page number")])) later := by
  have hcompile : ∃ after, Runs (compile pageHeap (.node 1)) {} (some pageSchema) after := ⟨_, rfl⟩
  obtain ⟨after, hcompile⟩ := hcompile
  obtain ⟨later, hlater, _⟩ := (buildParameter_decides hcompile .here describes_page).1 rfl
  exact ⟨after, hcompile, .here, describes_page, later, hlater⟩

/-- The same key of a class is none. -/
theorem buildParameter_lost : ∃ after,
    Runs (compile pageHeap (.node 2)) {} (some (reference "schemas" "Paging")) after ∧
    after.Leads (reference "schemas" "Paging") pageSchema ∧
    Describes pageSchema "page"
      [(.str "type", .str "integer"), (.str "description", .str "Page number")] [.str "page"] ∧
    Runs (buildParameter pageHeap (.node 2) (.str "x-")) {} none after := by
  refine ⟨_, rfl, ?_, describes_page, rfl⟩
  exact .follow rfl .here

end Registry

end WireShape
