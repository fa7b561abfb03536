import WireShape.Proofs.Compile.Branches

/-!
# Objects of any keys

An object that describes no key by itself may describe all of them at once. Its own schema then comes
from one outcome, that of the schema of all keys, and says under `additionalProperties` what other keys
have to be. A schema that says something is found there as it is, whether the object is closed or not.
A schema that says nothing is passed over as if there were none, so that a closed object of any keys
refuses them all (`Heap.open_keys_refused`).

* `Heap.OpensBy`: objects that describe all keys at once.
* `Node.openFields`: the fields of such an object from the one outcome.
* `Heap.open_keys`: when such an object is compiled, to what, and what it says about keys.
-/

namespace WireShape

open Value (Fields)

/-- An object without metadata and conditions that describes all keys at once. -/
structure Heap.OpensBy (h : Heap) (s t : Schema) : Prop where
  bare : (h.view s).metadata = []
  allowed : (h.view s).isForbidden = false
  of_kind : (h.view s).kind? = some .object
  children : (h.view s).children = []
  whens : (h.view s).whens = []
  pattern : ∃ keys, (h.view s).keyPattern = some (keys, t)

/-- The fields of an object from the outcome for all its keys. -/
def Node.openFields (n : Node) (outcome : Compiled) : Fields := annotate n (closeObject n [] [] outcome)

namespace Heap.OpensBy

variable {h : Heap} {s t : Schema} {overriding : Bool} {ctx after : Context} {r : Compiled}
  (hs : h.OpensBy s t)
include hs

theorem parts : Kind.parts .object (h.view s) = [t] := by
  obtain ⟨keys, hpattern⟩ := hs.pattern
  change (h.view s).children.map (·.2) ++ (h.view s).openPart?.toList = [t]
  rw [Node.openPart?, hs.children, hpattern]
  rfl

theorem whenParts : (h.view s).whenParts = [] := by
  rw [Node.whenParts, hs.whens]
  rfl

theorem assemble_eq {outcome : Compiled} :
    (h.view s).assemble h .object [outcome] [] = .ok ((h.view s).openFields outcome) := by
  have hown : objectFields h (h.view s) [outcome] = closeObject (h.view s) [] [] outcome := by
    unfold objectFields childFields
    rw [hs.children]
    rfl
  have hconditional : whenFields h (h.view s) [] = .ok [] := by
    unfold whenFields
    rw [hs.whenParts]
    rfl
  refine bind_eq_ok_iff.mpr ⟨_, rfl, bind_eq_ok_iff.mpr ⟨_, hconditional, ?_⟩⟩
  unfold Node.addLiteral
  rw [(Node.plain_of_bare hs.bare).2.2.2, hown]
  rfl

/-- Such an object is compiled exactly if the schema of all keys is, inside the object. -/
theorem walked_iff : Walked h s overriding ctx r after ↔ ctx.Fresh s ∧ ∃ outcome inner,
    Walked h t false (ctx.enterAt s) outcome inner ∧ after = inner.leaveAt s ∧
      r = some (.ofEntries ((h.view s).openFields outcome)) := by
  constructor
  · intro hrun
    obtain ⟨kind, outcomes, whenOutcomes, fields, hassembles, rfl⟩ := hrun.assembled hs.bare hs.allowed
    cases hs.of_kind.symm.trans hassembles.of_kind
    obtain ⟨middle, inner, hparts, hwhens, rfl⟩ := hassembles.walked
    rw [hs.parts] at hparts
    rw [hs.whenParts] at hwhens
    obtain ⟨outcome, _, _, ht, hnil, rfl⟩ := Chain.cons_iff.mp hparts
    obtain ⟨rfl, rfl⟩ := Chain.nil_iff.mp hnil
    obtain ⟨rfl, rfl⟩ := Chain.nil_iff.mp hwhens
    cases hs.assemble_eq.symm.trans hassembles.assembled
    exact ⟨hassembles.fresh, outcome, inner, ht, rfl, rfl⟩
  · rintro ⟨hfresh, outcome, inner, ⟨depth, ht⟩, rfl, rfl⟩
    obtain ⟨hplain, hcompiled, hclass, -⟩ := Node.plain_of_bare hs.bare
    have hparts : Chain (fun t => Runs (compileWithin h depth t false))
        (Kind.parts .object (h.view s)) (ctx.enterAt s) [outcome] inner := by
      rw [hs.parts]
      exact .cons ht .nil
    have hwhens : Chain (fun t => Runs (compileWithin h depth t false)) (h.view s).whenParts inner []
        inner := by
      rw [hs.whenParts]
      exact .nil
    exact ⟨depth + 1, runs_compileStep_iff.mpr (.compiled hplain hcompiled hclass nofun hs.allowed
      hfresh hs.of_kind hparts hwhens hs.assemble_eq .plain)⟩

end Heap.OpensBy

/-- An object of any keys is compiled, where it is not on the path, exactly if the schema of all keys
is. Under `additionalProperties` it has that schema, whatever it refuses otherwise, if the schema says
something; if the schema says nothing, it has what it would have without one. -/
theorem Heap.open_keys {h : Heap} {s t : Schema} (hs : h.OpensBy s t) :
    (∀ overriding ctx r after, Walked h s overriding ctx r after ↔ ctx.Fresh s ∧ ∃ outcome inner,
      Walked h t false (ctx.enterAt s) outcome inner ∧ after = inner.leaveAt s ∧
        r = some (.ofEntries ((h.view s).openFields outcome))) ∧
    ∀ schema : Value,
      (schema.truthy = true → OrderedMap.get? ((h.view s).openFields (some schema))
        (.str "additionalProperties") = some schema) ∧
      (schema.truthy = false → OrderedMap.get? ((h.view s).openFields (some schema))
        (.str "additionalProperties") = if (h.view s).isClosed then some (.bool false) else none) := by
  refine ⟨fun _ _ _ _ => hs.walked_iff, fun schema => ?_⟩
  rw [Node.openFields, get?_annotate (by decide), closeObject_additional, Option.filter_some]
  constructor
  · intro htruthy
    rw [if_pos htruthy]
    rfl
  · intro hfalsy
    rw [hfalsy, if_neg Bool.false_ne_true]
    rfl

/-- Anything, text, and objects of any keys: of texts, closed and of anything, and open and of
anything. -/
def shelfHeap : Heap where
  nodes := #[{ kind := "any" }, { kind := "string" },
    { kind := "object", keyPattern := some (.str "^a", .node 1) },
    { kind := "object", keyPattern := some (.str "^a", .node 0) },
    { kind := "object", keyPattern := some (.str "^a", .node 0), flags := [("unknown", .bool true)] }]

/-- A closed object of texts under any keys admits texts, and an open one of anything says nothing. -/
theorem Heap.open_keys_shelf :
    (∃ fields after, Walked shelfHeap (.node 2) false {} (some (.ofEntries fields)) after ∧
      (shelfHeap.get 2).isClosed = true ∧ OrderedMap.get? fields (.str "additionalProperties") =
        some (.ofFields [("type", .str "string")])) ∧
    ∃ fields after, Walked shelfHeap (.node 4) false {} (some (.ofEntries fields)) after ∧
      OrderedMap.get? fields (.str "additionalProperties") = none := by
  have htexts : shelfHeap.OpensBy (.node 2) (.node 1) := ⟨rfl, rfl, rfl, rfl, rfl, _, rfl⟩
  have hanything : shelfHeap.OpensBy (.node 4) (.node 0) := ⟨rfl, rfl, rfl, rfl, rfl, _, rfl⟩
  obtain ⟨hwalked, hother⟩ := open_keys htexts
  obtain ⟨hwalked', hother'⟩ := open_keys hanything
  refine ⟨⟨_, _, (hwalked _ _ _ _).mpr ⟨rfl, _, _, ⟨1, rfl⟩, rfl, rfl⟩, rfl, (hother _).1 rfl⟩,
    _, _, (hwalked' _ _ _ _).mpr ⟨rfl, _, _, ⟨1, rfl⟩, rfl, rfl⟩, (hother' _).2 rfl⟩

/-- A closed object of anything under any keys refuses all keys, although anything goes under them. -/
theorem Heap.open_keys_refused :
    shelfHeap.OpensBy (.node 3) (.node 0) ∧
    Walked shelfHeap (.node 0) false (({} : Context).enterAt (.node 3)) (some (.ofEntries []))
      (({} : Context).enterAt (.node 3)) ∧
    ∃ fields after, Runs (shelfHeap.compile (.node 3)) {} (some (.ofEntries fields)) after ∧
      OrderedMap.get? fields (.str "additionalProperties") = some (.bool false) :=
  ⟨⟨rfl, rfl, rfl, rfl, rfl, _, rfl⟩, ⟨1, rfl⟩, _, _, rfl, rfl⟩

end WireShape
