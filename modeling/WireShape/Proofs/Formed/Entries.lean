import WireShape.Proofs.Compile.Hereditary
import WireShape.Proofs.Nullable.Nodes

/-!
# What a node writes

Whatever a node is like, what it writes under a name has a form that goes with the name: a type is
one that is known, choices are scalars, properties are schemas under the keys of children. The other
values are supplied by the node, and nothing is known of them but what is known of all such values.
Which schemas stand in the value of a keyword can be told from the name, too.

* `Written`: what stands under a name; `Written.form`: what is known of it by the name.
* `Inside`: the schemas in it, with the steps that lead to them.
* `Written.inside`: a schema in what is written is one that its node was given.
* `Node.written_assemble`: a node without literal schema writes only such entries.
-/

namespace WireShape

open Value (Fields)
open NullTypes (Each)

/-! ## Entries -/

/-- The names under which stands what a node supplies, or what takes the place of that; and the name
of the definitions beside a schema. -/
def suppliedNames : List String :=
  ["minimum", "maximum", "minLength", "maxLength", "minItems", "maxItems", "uniqueItems", "pattern",
    "in", "description", "example", "examples", "title", "default", "x-required", "components"]

/-- What stands under a name in a schema that a node was compiled to. The parameters are what is
known of the keys of children, of what nodes supply, of the targets of references and of schemas. -/
inductive Written (Key : Atom → Prop) (Given : Value → Prop) (Target : String → Prop)
    (S : Value → Prop) : String → Value → Prop
  | reference {t : String} (ht : Target t) : Written Key Given Target S "$ref" (.str t)
  | type {t : String} {test : Value → Bool} (htest : Assertion.typeTest? t = some test) :
      Written Key Given Target S "type" (.str t)
  | format (s : String) : Written Key Given Target S "format" (.str s)
  | choices {xs : List Value} (hxs : ∀ x ∈ xs, x.IsScalar) :
      Written Key Given Target S "enum" (.list xs)
  | denied {xs : List Value} (hxs : ∀ x ∈ xs, x.IsScalar)
      (hs : S (.ofFields [("enum", .list xs)])) :
      Written Key Given Target S "not" (.ofFields [("enum", .list xs)])
  | required (keys : List Atom) : Written Key Given Target S "required" (.list (keys.map .atom))
  | properties {es : Fields} (hes : ∀ e ∈ es, Key e.1 ∧ S e.2) :
      Written Key Given Target S "properties" (.ofEntries es)
  | closed : Written Key Given Target S "additionalProperties" (.bool false)
  | additional {v : Value} (hv : S v) : Written Key Given Target S "additionalProperties" v
  | items {v : Value} (hv : S v) : Written Key Given Target S "items" v
  | branches {mode : String} {xs : List Value} (hxs : ∀ x ∈ xs, S x) :
      Written Key Given Target S (mode ++ "Of") (.list xs)
  | mark : Written Key Given Target S "nullable" (.bool true)
  | supplied {name : String} {v : Value} (hname : name ∈ suppliedNames) (hv : Given v) :
      Written Key Given Target S name v

/-- A schema in the value under a name, and the steps from the value to it. -/
inductive Inside : String → Value → List Atom → Value → Prop
  | property {es : Fields} {identity : Option Nat} {e : Atom × Value} (he : e ∈ es) :
      Inside "properties" (.map es identity) [e.1] e.2
  | additional {v : Value} (hv : v ≠ .bool false) : Inside "additionalProperties" v [] v
  | item {v : Value} : Inside "items" v [] v
  | denied {v : Value} : Inside "not" v [] v
  | branch {mode : String} {xs : List Value} {i : Nat} {x : Value} (hx : xs[i]? = some x) :
      Inside (mode ++ "Of") (.list xs) [.int i] x

theorem isSuffix_of_ends {mode name : String} (h : mode ++ "Of" = name) :
    ['O', 'f'] <:+ name.toList := by
  rw [← h, String.toList_append]
  exact List.suffix_append _ _

/-- What is known of the value under a name, by the name. -/
def WrittenForm (Key : Atom → Prop) (Target : String → Prop) (S : Value → Prop) (name : String)
    (v : Value) : Prop :=
  match name with
  | "$ref" => ∃ t, v = .str t ∧ Target t
  | "type" => ∃ t test, v = .str t ∧ Assertion.typeTest? t = some test
  | "format" => ∃ s, v = .str s
  | "enum" => ∃ xs, v = .list xs ∧ ∀ x ∈ xs, x.IsScalar
  | "not" => ∃ xs, v = .ofFields [("enum", .list xs)] ∧ (∀ x ∈ xs, x.IsScalar) ∧ S v
  | "properties" => ∃ es : Fields, v = .ofEntries es ∧ ∀ e ∈ es, Key e.1 ∧ S e.2
  | "additionalProperties" => v = .bool false ∨ S v
  | "items" => S v
  | "nullable" => v = .bool true
  | "const" => False
  | _ => True

namespace Written

variable {Key : Atom → Prop} {Given : Value → Prop} {Target : String → Prop} {S S' : Value → Prop}
  {name mode : String} {v : Value}

/-! ### What is found under a name -/

/-- Under a name there is what is known by the name. -/
theorem form (h : Written Key Given Target S name v) : WrittenForm Key Target S name v := by
  cases h with
  | reference ht => exact ⟨_, rfl, ht⟩
  | type htest => exact ⟨_, _, rfl, htest⟩
  | format s => exact ⟨s, rfl⟩
  | choices hxs => exact ⟨_, rfl, hxs⟩
  | denied hxs hs => exact ⟨_, rfl, hxs, hs⟩
  | required => trivial
  | properties hes => exact ⟨_, rfl, hes⟩
  | closed => exact .inl rfl
  | additional hv => exact .inr hv
  | items hv => exact hv
  | mark => exact rfl
  | @branches mode xs hxs =>
    -- The names of branches end in letters in which none of the other names ends.
    have hends : ∀ name, ¬ ['O', 'f'] <:+ name.toList → mode ++ "Of" ≠ name :=
      fun name hname heq => hname (isSuffix_of_ends heq)
    unfold WrittenForm
    split
    case h_11 => trivial
    all_goals exact absurd ‹_› (hends _ (by decide))
  | supplied hname =>
    unfold WrittenForm
    split
    case h_11 => trivial
    all_goals exact absurd hname (by decide)

/-- Under a name for branches there is a list of schemas. -/
theorem branches_eq (h : Written Key Given Target S name v) (hname : name = mode ++ "Of") :
    ∃ xs, v = .list xs ∧ ∀ x ∈ xs, S x := by
  have hends := isSuffix_of_ends hname.symm
  cases h with
  | branches hxs => exact ⟨_, rfl, hxs⟩
  | supplied hmem =>
    have hnone : ∀ name ∈ suppliedNames, ¬ ['O', 'f'] <:+ name.toList := by decide
    exact absurd hends (hnone _ hmem)
  | _ => exact absurd hends (by decide)

/-! ### Schemas in what is written -/

/-- The schemas in what is written have the property of all schemas. -/
theorem inside {steps : List Atom} {u : Value} (h : Written Key Given Target S name v)
    (hu : Inside name v steps u) : S u := by
  cases hu with
  | property he =>
    obtain ⟨es, heq, hes⟩ := h.form
    cases heq
    exact (hes _ he).2
  | additional hopen => exact Or.resolve_left h.form hopen
  | item => exact h.form
  | denied =>
    obtain ⟨_, _, _, hs⟩ := h.form
    exact hs
  | branch hx =>
    obtain ⟨xs, heq, hxs⟩ := h.branches_eq rfl
    cases heq
    exact hxs _ (List.mem_of_getElem? hx)

/-- What is written is written with any property that the schemas in it have. -/
theorem of_inside (h : Written Key Given Target S name v)
    (hs : ∀ steps u, Inside name v steps u → S' u) : Written Key Given Target S' name v := by
  cases h with
  | reference ht => exact .reference ht
  | type htest => exact .type htest
  | format s => exact .format s
  | choices hxs => exact .choices hxs
  | denied hxs => exact .denied hxs (hs _ _ .denied)
  | required keys => exact .required keys
  | properties hes => exact .properties fun e he => ⟨(hes e he).1, hs _ _ (.property he)⟩
  | closed => exact .closed
  | additional =>
    by_cases hopen : v = .bool false
    · rw [hopen]
      exact .closed
    · exact .additional (hs _ _ (.additional hopen))
  | items => exact .items (hs _ _ .item)
  | branches =>
    refine .branches fun x hx => ?_
    obtain ⟨i, hi⟩ := List.getElem?_of_mem hx
    exact hs _ _ (.branch hi)
  | mark => exact .mark
  | supplied hname hv => exact .supplied hname hv

theorem mono {Target' : String → Prop} (h : Written Key Given Target S name v)
    (hTarget : ∀ t, Target t → Target' t) (hS : ∀ u, S u → S' u) :
    Written Key Given Target' S' name v := by
  refine of_inside (S := S) ?_ fun _ _ hu => hS _ (h.inside hu)
  cases h with
  | reference ht => exact .reference (hTarget _ ht)
  | type htest => exact .type htest
  | format s => exact .format s
  | choices hxs => exact .choices hxs
  | denied hxs hs => exact .denied hxs hs
  | required keys => exact .required keys
  | properties hes => exact .properties hes
  | closed => exact .closed
  | additional hv => exact .additional hv
  | items hv => exact .items hv
  | branches hxs => exact .branches hxs
  | mark => exact .mark
  | supplied hname hv => exact .supplied hname hv

/-- Schemas that are put together of such entries have the property again, and so do marked ones. -/
structure Composes (Key : Atom → Prop) (Given : Value → Prop) (Target : String → Prop)
    (S : Value → Prop) : Prop where
  fields : ∀ {fields : Fields}, Each (Written Key Given Target S) fields → S (.ofEntries fields)
  marked : ∀ {v w : Value}, S v → markRequired v = .ok w → S w

end Written

/-- What is known of all that nodes supply, where basic atoms and lists are supplied as well. -/
structure Supply (Given : Value → Prop) : Prop where
  basic : ∀ a : Atom, a.isBasic = true → Given (.atom a)
  list : ∀ {xs : List Value}, (∀ x ∈ xs, Given x) → Given (.list xs)

/-- Nothing need be known of what is supplied. -/
theorem supply_true : Supply fun _ => True := ⟨fun _ _ => trivial, fun _ => trivial⟩

/-! ## Nodes -/

section Nodes

variable {Key : Atom → Prop} {Given : Value → Prop} {Target : String → Prop} {S : Value → Prop}
  {h : Heap} {n : Node} {fields : Fields} {outcomes whenOutcomes : List Compiled}

/-- The limits of a node are supplied, or stand for one that is not. -/
theorem given_limit (hGiven : Supply Given) (hn : ∀ v ∈ n.supplied, Given v) {limit v : Value}
    (hlimit : n.HasLimit limit) (h : n.limitValue limit = .ok v) : Given v := by
  rcases Node.limitValue_mem (.inl (Node.hasLimit_mem hlimit)) h with hmem | ⟨a, ha, rfl⟩
  · exact hn v hmem
  · exact hGiven.basic a ha

theorem itemsValue_of_composes (hS : Written.Composes Key Given Target S) {xs : List Value}
    (hxs : ∀ x ∈ xs, S x) : S (itemsValue xs) := by
  refine itemsValue_forall hxs (hS.fields .nil) fun _ hdistinct => ?_
  have hchosen : Written Key Given Target S ("one" ++ "Of") _ := .branches hdistinct
  exact hS.fields (.set .nil hchosen)

/-- What a node writes has the form that goes with its name. -/
theorem Node.Writes.written {name : String} {v : Value} (hS : Written.Composes Key Given Target S)
    (hGiven : Supply Given) (hn : ∀ v ∈ n.supplied, Given v) (h : n.Writes Key S S name v) :
    Written Key Given Target S name v := by
  have hflag : ∀ name, Given (n.flag name) := by
    intro name
    rcases n.flag_mem name with hnull | hmem
    · rw [hnull]
      exact hGiven.basic _ rfl
    · exact hn _ hmem
  have hsamples : ∀ v ∈ n.examples, Given v := fun v hv => hn v (Node.example_mem hv)
  cases h with
  | type htest => exact .type htest
  | format s => exact .format s
  | positive => exact .supplied (by decide) (hGiven.basic _ rfl)
  | negative => exact .supplied (by decide) (hGiven.basic _ rfl)
  | limit hname hrule hv =>
    have hlimits : ∀ name ∈ limitNames, name ∈ suppliedNames := by decide
    exact .supplied (hlimits _ hname) (given_limit hGiven hn hrule hv)
  | letters => exact .supplied (by decide) (hGiven.basic _ rfl)
  | token => exact .supplied (by decide) (hGiven.basic _ rfl)
  | @pattern regex hrule =>
    have hregex : regex ∈ n.supplied := Node.argument_mem hrule (List.mem_singleton.mpr rfl)
    refine .supplied (by decide) ?_
    unfold Node.patternSource
    split
    · exact hGiven.basic _ rfl
    · exact hn _ hregex
  | place => exact .supplied (by decide) (hGiven.basic _ rfl)
  | choices hxs => exact .choices fun x hx => isScalar_of_isChoice (hxs x hx).2
  | denied hxs =>
    have hscalar := fun x hx => isScalar_of_isChoice (hxs x hx).2
    exact .denied hscalar (hS.fields (.set .nil (.choices hscalar)))
  | properties _ hes => exact .properties hes
  | required => exact .required _
  | closed => exact .closed
  | additional hv => exact .additional hv
  | items hxs => exact .items (itemsValue_of_composes hS hxs)
  | unique => exact .supplied (by decide) (hGiven.basic _ rfl)
  | branches _ hxs => exact .branches hxs
  | mark => exact .mark
  | description => exact .supplied (by decide) (hflag _)
  | title => exact .supplied (by decide) (hflag _)
  | default => exact .supplied (by decide) (hflag _)
  | sample hv => exact .supplied (by decide) (hsamples _ hv)
  | samples => exact .supplied (by decide) (hGiven.list hsamples)

/-- A node without literal schema writes only entries of the form that goes with their names. -/
theorem Node.written_assemble {kind : Kind} (hS : Written.Composes Key Given Target S)
    (hGiven : Supply Given) (hn : n.Supplies Key Given)
    (ho : ∀ v, some v ∈ outcomes → S v) (hw : ∀ v, some v ∈ whenOutcomes → S v)
    (hfields : n.assemble h kind outcomes whenOutcomes = .ok fields) :
    Each (Written Key Given Target S) fields := by
  obtain ⟨written, hwritten, hliteral⟩ := Node.assemble_writes hn.keys ho
    (fun _ _ => branchValues_forall hS.marked ho) (fun _ => branchValues_forall hS.marked hw) hfields
  unfold addLiteral at hliteral
  rw [Node.literal_falsy hn.literal] at hliteral
  cases hliteral
  exact hwritten.mono fun _ _ => Node.Writes.written hS hGiven hn.supplied

end Nodes

end WireShape
