import WireShape.Proofs.Runs

/-!
# What one step of a walk can do

Compiling a position means: compile the positions below it one after the other, then put their
outcomes together. The first half is a `Chain` of calls, the second half is a pure function of the
node and of the outcomes (`Node.assemble`). `CompileStep` lists the five ways in which a call can succeed,
and everything that is proved about walks goes through it.

* `Kind`, `Kind.parts`, `Node.whenParts`: the positions that a node of a kind compiles, in order.
* `Kind.fields`, `exampleFields`, `Node.assemble`: the fields of a node from the outcomes of its
  parts.
* `Finish`: how a schema is handed on, under its class if it has one.
* `runs_compileStep_iff`: a call of `compileStep` succeeds exactly as `CompileStep` says.
-/

namespace WireShape

open Value (Fields)

/-! ## Kinds and their parts -/

/-- The kinds of nodes that can be compiled. -/
inductive Kind
  | scalar (kind : Scalar)
  | object
  | array
  | alternatives
deriving DecidableEq, Repr

namespace Kind

def ofName? (name : String) : Option Kind :=
  match Scalar.ofName? name with
  | some kind => some (.scalar kind)
  | none =>
    match name with
    | "object" => some .object
    | "array" => some .array
    | "alternatives" => some .alternatives
    | _ => none

end Kind

namespace Node

/-- The kind that a node is compiled as; none if there is no such kind. -/
def kind? (n : Node) : Option Kind :=
  match n.baseKind with
  | .str name => Kind.ofName? name
  | _ => none

/-- The schema of all keys, which counts only where no key is described by itself. -/
def openPart? (n : Node) : Option Schema :=
  if n.children.isEmpty then n.keyPattern.map (·.2) else none

/-- The branches of the conditions of a node. -/
def whenParts (n : Node) : List Schema := n.whens.flatMap Conditional.branches

end Node

/-- The positions that a node of the kind compiles, its conditions apart. -/
def Kind.parts : Kind → Node → List Schema
  | scalar _, _ => []
  | object, n => n.children.map (·.2) ++ n.openPart?.toList
  | array, n => n.items
  | alternatives, n => n.choices.flatMap Choice.branches

/-! ## From the outcomes of the parts to fields -/

/-- The schema of a branch, marked if the branch is required; none for a forbidden one. -/
def markBranch (h : Heap) (s : Schema) : Compiled → Except Fault (Option Value)
  | none => .ok none
  | some schema =>
    if (h.view s).isRequired then do return some (← markRequired schema) else .ok (some schema)

/-- The schemas of branches that are not forbidden, marked where the branch is required. -/
def branchValues (h : Heap) (branches : List Schema) (outcomes : List Compiled) :
    Except Fault (List Value) := do
  return (← (branches.zip outcomes).mapM fun p => markBranch h p.1 p.2).filterMap id

/-- Takes the outcome of one child into properties and required names. -/
def addChild (h : Heap) (acc : Fields × List Value) (entry : Atom × Schema) (outcome : Compiled) :
    Fields × List Value :=
  match outcome with
  | none => acc
  | some schema =>
    (OrderedMap.insert acc.1 entry.1 schema,
      if (h.view entry.2).isRequired then acc.2 ++ [.atom entry.1] else acc.2)

/-- Properties and required names of an object from the outcomes of its children. -/
def childFields (h : Heap) (n : Node) (outcomes : List Compiled) : Fields × List Value :=
  (n.children.zip outcomes).foldl (fun acc p => addChild h acc p.1 p.2) ([], [])

/-- Whether keys that are not described are refused. -/
def Node.isClosed (n : Node) : Bool :=
  match n.flag "unknown" with
  | .bool true => false
  | _ => true

/-- The fields of an object from its properties, its required names and the schema of all keys. -/
def closeObject (n : Node) (properties : Fields) (required : List Value) (additional : Compiled) :
    Fields :=
  let fields := (Fields.set [] "type" (.str "object")).set "properties" (.ofEntries properties)
  let fields := if required.isEmpty then fields else fields.set "required" (.list required)
  let fields := if n.isClosed then fields.set "additionalProperties" (.bool false) else fields
  match additional with
  | some schema => if schema.truthy then fields.set "additionalProperties" schema else fields
  | none => fields

/-- The fields of an object from the outcomes of its parts. -/
def objectFields (h : Heap) (n : Node) (outcomes : List Compiled) : Fields :=
  let found := childFields h n outcomes
  closeObject n found.1 found.2 (if n.children.isEmpty then outcomes.head?.join else none)

/-- What a list of schemas says about the elements of an array. -/
def itemsValue (schemas : List Value) : Value :=
  match distinct schemas with
  | [] => .ofEntries []
  | [schema] => schema
  | schemas => .ofFields [("oneOf", .list schemas)]

/-- The fields of an array from the outcomes of its parts. -/
def arrayFields (n : Node) (outcomes : List Compiled) : Except Fault Fields := do
  let items := itemsValue (outcomes.filterMap id)
  let fields := (Fields.set [] "type" (.str "array")).set "items" items
  let fields := fields.merge (← n.sizeKeywords "Items")
  return if n.hasRule "unique" then fields.set "uniqueItems" (.bool true) else fields

/-- The fields of alternatives from the outcomes of their branches. -/
def alternativeFields (h : Heap) (n : Node) (outcomes : List Compiled) : Except Fault Fields := do
  let mode ← ((n.flag "match").orElse (.str "any")).display h.describe
  return branchKeyword (mode ++ "Of")
    (← branchValues h (n.choices.flatMap Choice.branches) outcomes)

/-- What a kind says about a node, from the outcomes of the parts. -/
def Kind.fields (h : Heap) : Kind → Node → List Compiled → Except Fault Fields
  | .scalar kind, n, _ => kind.keywords n
  | .object, n, outcomes => .ok (objectFields h n outcomes)
  | .array, n, outcomes => arrayFields n outcomes
  | .alternatives, n, outcomes => alternativeFields h n outcomes

/-- The keyword for the branches of conditions. -/
def Node.whenKeyword (n : Node) : String := if 1 < n.whens.length then "anyOf" else "oneOf"

/-- What the conditions of a node say, from the outcomes of their branches. -/
def whenFields (h : Heap) (n : Node) (outcomes : List Compiled) : Except Fault Fields := do
  return branchKeyword n.whenKeyword (← branchValues h n.whenParts outcomes)

/-- The literal schema in the metadata of a node, or null. -/
def Node.literal (n : Node) : Value := n.metaValue "swagger"

/-- Whether the literal schema takes the place of the compiled one. -/
def Node.isLiteral (n : Node) : Bool :=
  !n.literal.isNull && (n.metaValue "swaggerOverride").truthy

/-- Fields with examples: a single one or a list. -/
def exampleFields (examples : List Value) (fields : Fields) : Fields :=
  match examples with
  | [] => fields
  | [v] => fields.set "example" v
  | vs => fields.set "examples" (.list vs)

/-- Fields with what the literal schema of a node adds to them. -/
def Node.addLiteral (n : Node) (fields : Fields) : Except Fault Fields := do
  if n.literal.truthy then return fields.merge (← n.literal.toEntries) else return fields

/-- The fields of a node of a kind, from the outcomes of its parts and of its conditions. -/
def Node.assemble (h : Heap) (n : Node) (kind : Kind) (outcomes whenOutcomes : List Compiled) :
    Except Fault Fields := do
  let own ← kind.fields h n outcomes
  let conditional ← whenFields h n whenOutcomes
  n.addLiteral (annotate n (own.merge conditional))

/-! ## Overrides and classes -/

namespace Node

/-- The schema that stands in place of a node, or null. -/
def override (n : Node) : Value := n.metaValue "schemaOverride"

/-- The name of the class of a node, or null. -/
def className (n : Node) : Value := n.metaValue "className"

/-- The bucket in which the class of a node is defined. -/
def classBucket (n : Node) : Value := (n.metaValue "classTarget").orElse defaultBucket

/-- Bucket and name of the class of a node; none if it has no class. -/
def class? (n : Node) : Except Fault (Option (Atom × Atom)) :=
  if n.className.truthy then do return some (← n.classBucket.asKey, ← n.className.asKey)
  else .ok none

end Node

/-- What holds of the nodes of a heap, and of nodes with nothing but children, holds at every
position. -/
theorem Heap.forall_view {h : Heap} {P : Node → Prop} (hnodes : ∀ n ∈ h.nodes, P n)
    (hplain : ∀ kind children, P { kind := kind, children := children }) (s : Schema) :
    P (h.view s) := by
  cases s with
  | object fields => exact hplain "object" fields
  | node id =>
    unfold Heap.view Heap.get
    dsimp only
    rw [Array.getD_eq_getD_getElem?]
    cases hget : h.nodes[id]? with
    | none => exact hplain "" []
    | some n => exact hnodes n (Array.mem_of_getElem? hget)

namespace Context

/-- A position that is not on the path. -/
def Fresh (ctx : Context) : Schema → Prop
  | .node id => ctx.active.contains id = false
  | .object _ => True

/-- The state inside a position. -/
def enterAt (ctx : Context) : Schema → Context
  | .node id => ctx.enter id
  | .object _ => ctx

/-- The state after a position. -/
def leaveAt (ctx : Context) : Schema → Context
  | .node id => ctx.leave id
  | .object _ => ctx

/-- The state with one more definition; the last two texts are bucket and name in the log. -/
def register (ctx : Context) (bucket name : Atom) (schema : Value) (place what : String) :
    Context :=
  { ctx with created := ctx.created.define bucket name schema }.addLog .debug
    ("Registered component " ++ place ++ "/" ++ what)

end Context

/-- How a schema is handed on: a class is defined and referred to, any other schema stands for
itself. -/
inductive Finish (h : Heap) (schema : Value) (ctx : Context) :
    Option (Atom × Atom) → Compiled → Context → Prop
  | plain : Finish h schema ctx none (Compiled.ofValue schema) ctx
  | define {bucket name : Atom} {place what : String} (hplace : bucket.display h.describe = .ok place)
      (hwhat : name.display h.describe = .ok what) :
      Finish h schema ctx (some (bucket, name)) (some (reference place what))
        (ctx.register bucket name schema place what)

/-- A class is new if its name is not defined yet. -/
def Context.IsNew (ctx : Context) (c : Option (Atom × Atom)) : Prop :=
  ∀ key, c = some key → ctx.has key.1 key.2 = false

/-! ## Steps -/

/-- The ways in which a call can succeed. `below` says how the calls that it makes succeed. -/
inductive CompileStep (h : Heap) (below : Schema → Bool → Context → Compiled → Context → Prop)
    (s : Schema) : Bool → Context → Compiled → Context → Prop
  /-- Another schema is compiled in its place. -/
  | override {t : Schema} {ctx after : Context} {r : Compiled}
      (hoverride : (h.view s).override.isNull = false)
      (ht : rootSchema (h.view s).override = .ok t) (hr : below t true ctx r after) :
      CompileStep h below s false ctx r after
  /-- A literal schema is taken as it is. -/
  | literal {overriding : Bool} {c : Option (Atom × Atom)} {ctx after : Context} {r : Compiled}
      (hoverride : (h.view s).override.isNull = true) (hliteral : (h.view s).isLiteral = true)
      (hclass : (h.view s).class? = .ok c) (hfinish : Finish h (h.view s).literal ctx c r after) :
      CompileStep h below s overriding ctx r after
  /-- The class is known and only referred to. -/
  | known {overriding : Bool} {bucket name : Atom} {place what : String} {ctx : Context}
      (hoverride : (h.view s).override.isNull = true) (hliteral : (h.view s).isLiteral = false)
      (hclass : (h.view s).class? = .ok (some (bucket, name))) (hhas : ctx.has bucket name = true)
      (hplace : bucket.display h.describe = .ok place)
      (hwhat : name.display h.describe = .ok what) :
      CompileStep h below s overriding ctx (some (reference place what)) ctx
  /-- The node is forbidden. -/
  | forbidden {overriding : Bool} {c : Option (Atom × Atom)} {ctx : Context}
      (hoverride : (h.view s).override.isNull = true) (hliteral : (h.view s).isLiteral = false)
      (hclass : (h.view s).class? = .ok c) (hnew : ctx.IsNew c)
      (hforbidden : (h.view s).isForbidden = true) : CompileStep h below s overriding ctx none ctx
  /-- The parts are compiled and put together. -/
  | compiled {overriding : Bool} {c : Option (Atom × Atom)} {kind : Kind}
      {outcomes whenOutcomes : List Compiled} {fields : Fields} {ctx middle inner after : Context}
      {r : Compiled} (hoverride : (h.view s).override.isNull = true)
      (hliteral : (h.view s).isLiteral = false) (hclass : (h.view s).class? = .ok c)
      (hnew : ctx.IsNew c) (hforbidden : (h.view s).isForbidden = false) (hfresh : ctx.Fresh s)
      (hkind : (h.view s).kind? = some kind)
      (hparts : Chain (fun t => below t false) (kind.parts (h.view s)) (ctx.enterAt s) outcomes
        middle)
      (hwhens : Chain (fun t => below t false) (h.view s).whenParts middle whenOutcomes inner)
      (hfields : (h.view s).assemble h kind outcomes whenOutcomes = .ok fields)
      (hfinish : Finish h (.ofEntries fields) (inner.leaveAt s) c r after) :
      CompileStep h below s overriding ctx r after

/-! ## The composite kinds -/

section Composite

variable {h : Heap} {recur : Recur} {n : Node} {ctx after : Context} {fields : Fields}

/-- The outcomes of positions that are compiled one after the other. -/
abbrev Outcomes (recur : Recur) : List Schema → Context → List Compiled → Context → Prop :=
  Chain fun t => Runs (recur t false)

theorem runs_compileAll_iff {schemas : List Schema} {found : List (Schema × Value)} :
    Runs (compileAll recur schemas) ctx found after ↔ ∃ outcomes,
      Outcomes recur schemas ctx outcomes after ∧ found = (schemas.zip outcomes).filterMap fun p =>
        p.2.map fun schema => (p.1, schema) := by
  have hstep : ∀ s, (do return (s, ← recur s false) : Walk (Schema × Compiled)) =
      recur s false >>= fun outcome => Walk.lift (.ok (s, outcome)) := fun _ => rfl
  unfold compileAll
  simp only [runs_bind_iff, runs_pure_iff, runs_mapM_lift_iff hstep]
  have hpure : ∀ outcomes : List Compiled, (schemas.zip outcomes).mapM
      (fun p => (.ok (p.1, p.2) : Except Fault (Schema × Compiled))) = .ok (schemas.zip outcomes) :=
    fun outcomes => (List.mapM_pure (m := Except Fault) (f := id)).trans (by rw [List.map_id]; rfl)
  constructor
  · rintro ⟨_, _, ⟨outcomes, ho, hpairs⟩, rfl, rfl⟩
    rw [hpure] at hpairs
    cases hpairs
    exact ⟨outcomes, ho, rfl⟩
  · rintro ⟨outcomes, ho, rfl⟩
    exact ⟨_, _, ⟨outcomes, ho, hpure outcomes⟩, rfl, rfl⟩

theorem runs_compileBranches_iff {branches : List Schema} {schemas : List Value} :
    Runs (compileBranches h recur branches) ctx schemas after ↔ ∃ outcomes,
      Outcomes recur branches ctx outcomes after ∧
        branchValues h branches outcomes = .ok schemas := by
  unfold compileBranches branchValues
  rw [runs_bind_iff]
  have hmarked : ∀ marked middle, Runs (branches.mapM _) ctx marked middle ↔ _ :=
    fun marked middle => runs_mapM_lift_iff (f := fun s => do
      match ← recur s false with
      | none => return none
      | some schema =>
        if (h.view s).isRequired then return some (← Walk.lift (markRequired schema))
        else return some schema) (g := fun s => recur s false) (k := markBranch h) (by
      intro s
      congr 1
      funext outcome
      cases outcome with
      | none => rfl
      | some schema =>
        dsimp only [markBranch]
        split
        · cases markRequired schema <;> rfl
        · rfl)
  constructor
  · rintro ⟨marked, middle, hrun, hpure⟩
    obtain ⟨rfl, rfl⟩ := runs_pure_iff.mp hpure
    obtain ⟨outcomes, ho, hvalues⟩ := (hmarked _ _).mp hrun
    exact ⟨outcomes, ho, by rw [hvalues]; rfl⟩
  · rintro ⟨outcomes, ho, hvalues⟩
    obtain ⟨marked, hm, hpure⟩ := bind_eq_ok_iff.mp hvalues
    cases hpure
    exact ⟨marked, after, (hmarked _ _).mpr ⟨outcomes, ho, hm⟩, runs_pure_iff.mpr ⟨rfl, rfl⟩⟩

/-- The children of an object, one after the other. -/
theorem runs_compileChildren_iff {children : List (Atom × Schema)} {found : Fields × List Value} :
    Runs (compileChildren h recur children) ctx found after ↔ ∃ outcomes,
      Outcomes recur (children.map (·.2)) ctx outcomes after ∧
        found = (children.zip outcomes).foldl (fun acc p => addChild h acc p.1 p.2) ([], []) := by
  unfold compileChildren
  have hstep : ∀ (acc : Fields × List Value) (entry : Atom × Schema), (do
      match ← recur entry.2 false with
      | none => return (acc.1, acc.2)
      | some schema =>
        return (OrderedMap.insert acc.1 entry.1 schema,
          if (h.view entry.2).isRequired then acc.2 ++ [.atom entry.1] else acc.2) :
            Walk (Fields × List Value)) = do
      return addChild h acc entry (← recur entry.2 false) := by
    intro acc entry
    congr 1
    funext outcome
    cases outcome <;> rfl
  refine Iff.trans (runs_foldlM_iff hstep) ?_
  simp only [Outcomes, Chain.map_iff]

/-- The schema of all keys, if it counts. -/
def compileOpenPart (recur : Recur) (n : Node) : Walk Compiled :=
  match n.openPart? with
  | some s => recur s false
  | none => pure none

theorem runs_compileOpenPart_iff {outcome : Compiled} :
    Runs (compileOpenPart recur n) ctx outcome after ↔ ∃ outcomes,
      Outcomes recur n.openPart?.toList ctx outcomes after ∧ outcome = outcomes.head?.join := by
  unfold compileOpenPart
  cases n.openPart? with
  | none =>
    simp only [runs_pure_iff, Option.toList_none, Chain.nil_iff]
    constructor
    · rintro ⟨rfl, rfl⟩
      exact ⟨[], ⟨rfl, rfl⟩, rfl⟩
    · rintro ⟨_, ⟨rfl, rfl⟩, rfl⟩
      exact ⟨rfl, rfl⟩
  | some s =>
    simp only [Option.toList_some, Chain.cons_iff, Chain.nil_iff]
    constructor
    · exact fun h => ⟨[outcome], ⟨outcome, after, [], h, ⟨rfl, rfl⟩, rfl⟩, rfl⟩
    · rintro ⟨_, ⟨y, u, _, h, ⟨rfl, rfl⟩, rfl⟩, rfl⟩
      exact h

/-- An object is compiled by compiling its children, then the schema of all keys. -/
theorem compileObject_eq : compileObject h recur n =
    compileChildren h recur n.children >>= fun found => compileOpenPart recur n >>= fun additional =>
      pure (closeObject n found.1 found.2 additional) := by
  unfold compileObject compileOpenPart Node.openPart?
  congr 1
  funext found
  cases n.keyPattern with
  | none => cases n.children.isEmpty <;> rfl
  | some p =>
    cases n.children.isEmpty with
    | false => rfl
    | true =>
      rw [if_pos rfl, Option.map_some]
      refine (if_pos rfl).trans ?_
      congr 1
      funext additional
      cases additional <;> rfl

/-- What follows a list of the same length is not paired. -/
theorem zip_append_left {α β : Type} {xs : List α} {ys zs : List β} (hlength : xs.length = ys.length) :
    xs.zip (ys ++ zs) = xs.zip ys := by
  have hsplit : (xs ++ []).zip (ys ++ zs) = xs.zip ys ++ [].zip zs := List.zip_append hlength
  simpa using hsplit

/-- The outcomes of the children and that of the schema of all keys say what those of all parts
say. -/
theorem objectFields_append {outcomes more : List Compiled}
    (hlength : outcomes.length = n.children.length)
    (hmore : n.children.isEmpty = false → more = []) :
    objectFields h n (outcomes ++ more) =
      closeObject n (childFields h n outcomes).1 (childFields h n outcomes).2 more.head?.join := by
  unfold objectFields childFields
  rw [zip_append_left hlength.symm]
  cases hempty : n.children.isEmpty with
  | true =>
    have : outcomes = [] := by
      rw [List.isEmpty_iff] at hempty
      rw [hempty] at hlength
      exact List.length_eq_zero_iff.mp hlength
    rw [this, List.nil_append]
    rfl
  | false =>
    rw [hmore hempty]
    rfl

theorem runs_compileObject_iff : Runs (compileObject h recur n) ctx fields after ↔
    ∃ outcomes, Outcomes recur (Kind.object.parts n) ctx outcomes after ∧
      fields = objectFields h n outcomes := by
  have hempty : ∀ {outcomes : List Compiled} {ctx after : Context},
      Outcomes recur n.openPart?.toList ctx outcomes after → n.children.isEmpty = false →
        outcomes = [] := by
    intro outcomes ctx after ho hne
    rw [Node.openPart?, hne] at ho
    exact (Chain.nil_iff.mp ho).1
  rw [compileObject_eq]
  simp only [runs_bind_iff, runs_pure_iff, runs_compileChildren_iff, runs_compileOpenPart_iff,
    Kind.parts, Outcomes, Chain.append_iff]
  constructor
  · rintro ⟨_, middle, ⟨outcomes, ho, rfl⟩, _, _, ⟨more, hm, rfl⟩, rfl, rfl⟩
    refine ⟨outcomes ++ more, ⟨outcomes, more, middle, ho, hm, rfl⟩, ?_⟩
    rw [objectFields_append (by simpa using ho.length_eq) (hempty hm)]
    rfl
  · rintro ⟨_, ⟨outcomes, more, middle, ho, hm, rfl⟩, rfl⟩
    refine ⟨_, middle, ⟨outcomes, ho, rfl⟩, _, after, ⟨more, hm, rfl⟩, ?_, rfl⟩
    rw [objectFields_append (by simpa using ho.length_eq) (hempty hm)]
    rfl

theorem runs_compileArray_iff : Runs (compileArray recur n) ctx fields after ↔
    ∃ outcomes, Outcomes recur (Kind.array.parts n) ctx outcomes after ∧
      arrayFields n outcomes = .ok fields := by
  have hfound : ∀ {outcomes : List Compiled}, outcomes.length = n.items.length →
      ((n.items.zip outcomes).filterMap fun p => p.2.map fun schema => (p.1, schema)).map (·.2) =
        outcomes.filterMap id := by
    intro outcomes hlength
    rw [List.map_filterMap]
    have hsnd : (n.items.zip outcomes).map Prod.snd = outcomes :=
      List.map_snd_zip (Nat.le_of_eq hlength)
    conv_rhs => rw [← hsnd]
    rw [List.filterMap_map]
    congr 1
    funext p
    obtain ⟨_, outcome⟩ := p
    cases outcome <;> rfl
  unfold compileArray arrayFields itemsValue
  simp only [runs_bind_iff, runs_pure_iff, runs_lift_iff, runs_compileAll_iff, bind_eq_ok_iff,
    Kind.parts]
  constructor
  · rintro ⟨_, _, ⟨outcomes, ho, rfl⟩, sizes, _, ⟨hsizes, rfl⟩, rfl, rfl⟩
    refine ⟨outcomes, ho, sizes, hsizes, ?_⟩
    rw [hfound ho.length_eq]
    rfl
  · rintro ⟨outcomes, ho, sizes, hsizes, hfields⟩
    cases hfields
    refine ⟨_, _, ⟨outcomes, ho, rfl⟩, sizes, _, ⟨hsizes, rfl⟩, ?_, rfl⟩
    exact hfound ho.length_eq ▸ rfl

theorem runs_compileAlternatives_iff : Runs (compileAlternatives h recur n) ctx fields after ↔
    ∃ outcomes, Outcomes recur (Kind.alternatives.parts n) ctx outcomes after ∧
      alternativeFields h n outcomes = .ok fields := by
  unfold compileAlternatives alternativeFields
  simp only [runs_bind_iff, runs_pure_iff, runs_lift_iff, runs_compileBranches_iff, bind_eq_ok_iff]
  constructor
  · rintro ⟨mode, _, ⟨hmode, rfl⟩, schemas, _, ⟨outcomes, ho, hvalues⟩, rfl, rfl⟩
    exact ⟨outcomes, ho, mode, hmode, schemas, hvalues, rfl⟩
  · rintro ⟨outcomes, ho, mode, hmode, schemas, hvalues, hfields⟩
    cases hfields
    exact ⟨mode, _, ⟨hmode, rfl⟩, schemas, _, ⟨outcomes, ho, hvalues⟩, rfl, rfl⟩

theorem runs_compileWhens_iff : Runs (compileWhens h recur n) ctx fields after ↔
    ∃ outcomes, Outcomes recur n.whenParts ctx outcomes after ∧
      whenFields h n outcomes = .ok fields := by
  unfold compileWhens whenFields
  simp only [runs_bind_iff, runs_pure_iff, runs_compileBranches_iff, bind_eq_ok_iff]
  constructor
  · rintro ⟨schemas, _, ⟨outcomes, ho, hvalues⟩, rfl, rfl⟩
    exact ⟨outcomes, ho, schemas, hvalues, rfl⟩
  · rintro ⟨outcomes, ho, schemas, hvalues, hfields⟩
    cases hfields
    exact ⟨schemas, _, ⟨outcomes, ho, hvalues⟩, rfl, rfl⟩

/-- A kind that is none is refused. -/
theorem not_runs_refuse {kind : Value} : ¬ Runs (do
    throw (.unknownKind (← Walk.lift (kind.display h.describe))) : Walk Fields) ctx fields after := by
  intro hrun
  obtain ⟨_, _, _, hthrow⟩ := runs_bind_iff.mp hrun
  exact not_runs_throw hthrow

theorem runs_compileKind_iff : Runs (compileKind h recur n) ctx fields after ↔
    ∃ kind outcomes, n.kind? = some kind ∧ Outcomes recur (kind.parts n) ctx outcomes after ∧
      kind.fields h n outcomes = .ok fields := by
  unfold compileKind Node.kind?
  simp only [runs_bind_iff, runs_lift_iff]
  constructor
  · rintro ⟨key, _, ⟨hkey, rfl⟩, hrun⟩
    have hkind : n.baseKind = .atom key := by
      cases hbase : n.baseKind <;> rw [hbase] at hkey <;> cases hkey
      rfl
    rw [hkind] at hrun ⊢
    cases key with
    | str name =>
      dsimp only at hrun ⊢
      unfold Kind.ofName?
      cases hname : Scalar.ofName? name with
      | some scalar =>
        rw [hname] at hrun
        obtain ⟨hfields, rfl⟩ := runs_lift_iff.mp hrun
        exact ⟨.scalar scalar, [], rfl, .nil, hfields⟩
      | none =>
        rw [hname] at hrun
        dsimp only at hrun ⊢
        split at hrun
        · obtain ⟨outcomes, ho, rfl⟩ := runs_compileObject_iff.mp hrun
          exact ⟨.object, outcomes, rfl, ho, rfl⟩
        · obtain ⟨outcomes, ho, hfields⟩ := runs_compileArray_iff.mp hrun
          exact ⟨.array, outcomes, rfl, ho, hfields⟩
        · obtain ⟨outcomes, ho, hfields⟩ := runs_compileAlternatives_iff.mp hrun
          exact ⟨.alternatives, outcomes, rfl, ho, hfields⟩
        · exact absurd hrun not_runs_refuse
    | _ => exact absurd hrun not_runs_refuse
  · rintro ⟨kind, outcomes, hkind, ho, hfields⟩
    split at hkind
    · rename_i name hbase
      refine ⟨.str name, ctx, ⟨by rw [hbase]; rfl, rfl⟩, ?_⟩
      dsimp only
      unfold Kind.ofName? at hkind
      cases hname : Scalar.ofName? name with
      | some scalar =>
        rw [hname] at hkind
        cases hkind
        cases ho
        exact runs_lift_iff.mpr ⟨hfields, rfl⟩
      | none =>
        rw [hname] at hkind
        dsimp only at hkind ⊢
        split at hkind
        · cases hkind
          cases hfields
          exact runs_compileObject_iff.mpr ⟨outcomes, ho, rfl⟩
        · cases hkind
          exact runs_compileArray_iff.mpr ⟨outcomes, ho, hfields⟩
        · cases hkind
          exact runs_compileAlternatives_iff.mpr ⟨outcomes, ho, hfields⟩
        · cases hkind
    · cases hkind

end Composite

/-! ## Steps of the walk -/

section Steps

variable {h : Heap} {recur : Recur} {s : Schema} {ctx after : Context} {r : Compiled}

theorem runs_onPath_iff {α : Type} {id : NodeId} {kind : String} {step : Walk α} {a : α} :
    Runs (Walk.onPath id kind step) ctx a after ↔ ctx.active.contains id = false ∧
      ∃ inner, Runs step (ctx.enter id) a inner ∧ after = inner.leave id := by
  have hrun : Walk.onPath id kind step ctx =
      if ctx.active.contains id then (.error (.cyclicSchema kind), ctx)
      else ((step (ctx.enter id)).1, (step (ctx.enter id)).2.leave id) := rfl
  unfold Runs
  rw [hrun]
  cases ctx.active.contains id with
  | true =>
    rw [if_pos rfl]
    constructor
    · intro h
      cases h
    · rintro ⟨h, _⟩
      cases h
  | false =>
    rw [if_neg Bool.false_ne_true]
    rcases step (ctx.enter id) with ⟨outcome, inner⟩
    constructor
    · intro h
      cases h
      exact ⟨rfl, inner, rfl, rfl⟩
    · rintro ⟨_, _, h, rfl⟩
      cases h
      rfl

theorem runs_atPosition_iff {α : Type} {kind : String} {step : Walk α} {a : α} :
    Runs (Walk.atPosition s kind step) ctx a after ↔
      ctx.Fresh s ∧ ∃ inner, Runs step (ctx.enterAt s) a inner ∧ after = inner.leaveAt s := by
  cases s with
  | object _ =>
    constructor
    · exact fun hrun => ⟨trivial, after, hrun, rfl⟩
    · rintro ⟨_, _, hrun, rfl⟩
      exact hrun
  | node id => exact runs_onPath_iff

theorem runs_register_iff {bucket name : Atom} {schema : Value} {i : Unit} :
    Runs (Walk.register h.describe bucket name schema) ctx i after ↔ ∃ place what,
      bucket.display h.describe = .ok place ∧ name.display h.describe = .ok what ∧
        after = ctx.register bucket name schema place what := by
  unfold Walk.register
  simp only [runs_bind_iff, runs_lift_iff, runs_modify_iff]
  constructor
  · rintro ⟨place, _, ⟨hplace, rfl⟩, what, _, ⟨hwhat, rfl⟩, rfl⟩
    exact ⟨place, what, hplace, hwhat, rfl⟩
  · rintro ⟨place, what, hplace, hwhat, rfl⟩
    exact ⟨place, ctx, ⟨hplace, rfl⟩, what, ctx, ⟨hwhat, rfl⟩, rfl⟩

theorem referenceTo_eq_ok_iff {describe : Describe} {bucket name : Atom} {v : Value} :
    referenceTo describe bucket name = .ok v ↔ ∃ place what,
      bucket.display describe = .ok place ∧ name.display describe = .ok what ∧
        v = reference place what := by
  unfold referenceTo
  simp only [bind_eq_ok_iff]
  constructor
  · rintro ⟨place, hplace, what, hwhat, hv⟩
    cases hv
    exact ⟨place, what, hplace, hwhat, rfl⟩
  · rintro ⟨place, what, hplace, hwhat, rfl⟩
    exact ⟨place, hplace, what, hwhat, rfl⟩

theorem class?_eq_ok_some_iff {n : Node} {bucket name : Atom} :
    n.class? = .ok (some (bucket, name)) ↔ n.className.truthy = true ∧
      n.classBucket.asKey = .ok bucket ∧ n.className.asKey = .ok name := by
  unfold Node.class?
  cases n.className.truthy with
  | false =>
    constructor
    · intro h
      cases h
    · rintro ⟨h, _⟩
      cases h
  | true =>
    rw [if_pos rfl]
    simp only [bind_eq_ok_iff, true_and]
    constructor
    · rintro ⟨b, hb, m, hm, h⟩
      cases h
      exact ⟨hb, hm⟩
    · rintro ⟨hb, hm⟩
      exact ⟨bucket, hb, name, hm, rfl⟩

theorem class?_eq_ok_none_iff {n : Node} : n.class? = .ok none ↔ n.className.truthy = false := by
  unfold Node.class?
  cases n.className.truthy with
  | false => exact ⟨fun _ => rfl, fun _ => rfl⟩
  | true =>
    rw [if_pos rfl]
    simp only [bind_eq_ok_iff]
    constructor
    · rintro ⟨_, _, _, _, h⟩
      cases h
    · intro h
      cases h

theorem Node.metaValue_of_bare {n : Node} (hbare : n.metadata = []) (name : String) :
    n.metaValue name = .null := by
  unfold metaValue
  rw [hbare]
  rfl

/-- Without metadata nothing stands in place of a node, and it has no class. -/
theorem Node.plain_of_bare {n : Node} (hbare : n.metadata = []) :
    n.override.isNull = true ∧ n.isLiteral = false ∧ n.class? = .ok none ∧
      n.literal.truthy = false := by
  have hmeta := metaValue_of_bare hbare
  refine ⟨?_, ?_, class?_eq_ok_none_iff.mpr ?_, ?_⟩
  · rw [override, hmeta]
    rfl
  · rw [isLiteral, literal, hmeta]
    rfl
  · rw [className, hmeta]
    rfl
  · rw [literal, hmeta]
    rfl

theorem runs_finish_iff {n : Node} {schema : Value} :
    Runs (finish h n.className n.classBucket schema) ctx r after ↔
      ∃ c, n.class? = .ok c ∧ Finish h schema ctx c r after := by
  unfold finish
  cases hclass : n.className.truthy with
  | false =>
    rw [if_neg Bool.false_ne_true, runs_pure_iff]
    constructor
    · rintro ⟨rfl, rfl⟩
      exact ⟨none, class?_eq_ok_none_iff.mpr hclass, .plain⟩
    · rintro ⟨c, hc, hfinish⟩
      cases hfinish with
      | plain => exact ⟨rfl, rfl⟩
      | define =>
        rw [(class?_eq_ok_some_iff.mp hc).1] at hclass
        cases hclass
  | true =>
    rw [if_pos rfl]
    simp only [runs_bind_iff, runs_lift_iff, runs_register_iff, referenceTo_eq_ok_iff,
      runs_pure_iff]
    constructor
    · rintro ⟨bucket, _, ⟨hbucket, rfl⟩, name, _, ⟨hname, rfl⟩, _, _,
        ⟨place, what, hplace, hwhat, rfl⟩, _, _, ⟨⟨place', what', hplace', hwhat', rfl⟩, rfl⟩, rfl,
        rfl⟩
      rw [hplace] at hplace'
      rw [hwhat] at hwhat'
      cases hplace'
      cases hwhat'
      exact ⟨_, class?_eq_ok_some_iff.mpr ⟨hclass, hbucket, hname⟩, .define hplace hwhat⟩
    · rintro ⟨c, hc, hfinish⟩
      cases hfinish with
      | plain =>
        rw [class?_eq_ok_none_iff.mp hc] at hclass
        cases hclass
      | @define bucket name place what hplace hwhat =>
        obtain ⟨_, hbucket, hname⟩ := class?_eq_ok_some_iff.mp hc
        exact ⟨bucket, ctx, ⟨hbucket, rfl⟩, name, ctx, ⟨hname, rfl⟩, (), _,
          ⟨place, what, hplace, hwhat, rfl⟩, _, _, ⟨⟨place, what, hplace, hwhat, rfl⟩, rfl⟩, rfl, rfl⟩

/-- What the kind and the conditions of a node say. -/
def compileBody (h : Heap) (recur : Recur) (n : Node) : Walk Fields := do
  let fields ← compileKind h recur n
  if n.whens.isEmpty then return fields else return fields.merge (← compileWhens h recur n)

theorem runs_compileBody_iff {n : Node} {fields : Fields} :
    Runs (compileBody h recur n) ctx fields after ↔ ∃ kind outcomes whenOutcomes own conditional
      middle, n.kind? = some kind ∧ Outcomes recur (kind.parts n) ctx outcomes middle ∧
        Outcomes recur n.whenParts middle whenOutcomes after ∧ kind.fields h n outcomes = .ok own ∧
          whenFields h n whenOutcomes = .ok conditional ∧ fields = own.merge conditional := by
  have hnone : n.whens.isEmpty = true → n.whenParts = [] ∧ whenFields h n [] = .ok [] := by
    intro hempty
    have hparts : n.whenParts = [] := by
      rw [Node.whenParts, List.isEmpty_iff.mp hempty, List.flatMap_nil]
    refine ⟨hparts, ?_⟩
    rw [whenFields, hparts]
    rfl
  unfold compileBody
  simp only [runs_bind_iff, runs_compileKind_iff]
  constructor
  · rintro ⟨own, middle, ⟨kind, outcomes, hkind, ho, hown⟩, hrun⟩
    cases hempty : n.whens.isEmpty with
    | true =>
      rw [hempty, if_pos rfl] at hrun
      obtain ⟨rfl, rfl⟩ := runs_pure_iff.mp hrun
      obtain ⟨hparts, hwhen⟩ := hnone hempty
      refine ⟨kind, outcomes, [], _, [], _, hkind, ho, ?_, hown, hwhen, rfl⟩
      rw [hparts]
      exact .nil
    | false =>
      rw [hempty, if_neg Bool.false_ne_true] at hrun
      obtain ⟨conditional, _, hwhens, hpure⟩ := runs_bind_iff.mp hrun
      obtain ⟨rfl, rfl⟩ := runs_pure_iff.mp hpure
      obtain ⟨whenOutcomes, hw, hconditional⟩ := runs_compileWhens_iff.mp hwhens
      exact ⟨kind, outcomes, whenOutcomes, own, conditional, middle, hkind, ho, hw, hown,
        hconditional, rfl⟩
  · rintro ⟨kind, outcomes, whenOutcomes, own, conditional, middle, hkind, ho, hw, hown,
      hconditional, rfl⟩
    refine ⟨own, middle, ⟨kind, outcomes, hkind, ho, hown⟩, ?_⟩
    cases hempty : n.whens.isEmpty with
    | true =>
      obtain ⟨hparts, hwhen⟩ := hnone hempty
      rw [hparts] at hw
      obtain ⟨rfl, rfl⟩ := Chain.nil_iff.mp hw
      rw [hwhen] at hconditional
      cases hconditional
      exact runs_pure_iff.mpr ⟨rfl, rfl⟩
    | false =>
      rw [if_neg Bool.false_ne_true]
      exact runs_bind_iff.mpr ⟨conditional, after,
        runs_compileWhens_iff.mpr ⟨whenOutcomes, hw, hconditional⟩, runs_pure_iff.mpr ⟨rfl, rfl⟩⟩

/-- What a node compiles to that has no override, no literal schema in its place and no class that
is known. -/
def compileNew (h : Heap) (recur : Recur) (s : Schema) (n : Node) : Walk Compiled := do
  if n.isForbidden then return none
  let fields ← Walk.atPosition s n.kind (compileBody h recur n)
  finish h n.className n.classBucket (.ofEntries (← Walk.lift (n.addLiteral (annotate n fields))))

theorem compilePlain_eq {n : Node} : compilePlain h recur s n n.className n.classBucket =
    if n.className.truthy then do
      let bucket ← Walk.lift n.classBucket.asKey
      let name ← Walk.lift n.className.asKey
      if (← get).has bucket name then
        return some (← Walk.lift (referenceTo h.describe bucket name))
      else compileNew h recur s n
    else compileNew h recur s n := by
  have hnew : compileNew h recur s n = if n.isForbidden then pure none else
      Walk.atPosition s n.kind (compileBody h recur n) >>= fun fields =>
        if n.literal.truthy then Walk.lift n.literal.toEntries >>= fun entries =>
          pure ((annotate n fields).merge entries) >>= fun fields =>
            finish h n.className n.classBucket (.ofEntries fields)
        else pure (annotate n fields) >>= fun fields =>
          finish h n.className n.classBucket (.ofEntries fields) := by
    unfold compileNew Node.addLiteral
    congr 2
    funext fields
    cases n.literal.truthy with
    | false => rfl
    | true => cases n.literal.toEntries <;> rfl
  rw [hnew]
  rfl

/-- A new node is forbidden, or its parts are compiled and put together. -/
theorem runs_compileNew_iff {n : Node} : Runs (compileNew h recur s n) ctx r after ↔
    (n.isForbidden = true ∧ r = none ∧ after = ctx) ∨
    (n.isForbidden = false ∧ ctx.Fresh s ∧ ∃ kind outcomes whenOutcomes fields middle inner c,
      n.kind? = some kind ∧ Outcomes recur (kind.parts n) (ctx.enterAt s) outcomes middle ∧
        Outcomes recur n.whenParts middle whenOutcomes inner ∧
          n.assemble h kind outcomes whenOutcomes = .ok fields ∧ n.class? = .ok c ∧
            Finish h (.ofEntries fields) (inner.leaveAt s) c r after) := by
  unfold compileNew
  cases hforbidden : n.isForbidden with
  | true =>
    rw [if_pos rfl, runs_pure_iff]
    constructor
    · exact fun hr => .inl ⟨rfl, hr⟩
    · rintro (⟨_, hr⟩ | ⟨hf, _⟩)
      · exact hr
      · cases hf
  | false =>
    rw [if_neg Bool.false_ne_true]
    simp only [runs_bind_iff, runs_atPosition_iff, runs_compileBody_iff, runs_lift_iff,
      runs_finish_iff, Node.assemble, bind_eq_ok_iff]
    constructor
    · rintro ⟨_, _, ⟨hfresh, inner, ⟨kind, outcomes, whenOutcomes, own, conditional, middle,
        hkind, ho, hw, hown, hconditional, rfl⟩, rfl⟩, fields, _, ⟨hfields, rfl⟩, c, hc, hfinish⟩
      exact .inr ⟨trivial, hfresh, kind, outcomes, whenOutcomes, fields, middle, inner, c, hkind,
        ho, hw, ⟨own, hown, conditional, hconditional, hfields⟩, hc, hfinish⟩
    · rintro (⟨hf, _⟩ | ⟨_, hfresh, kind, outcomes, whenOutcomes, fields, middle, inner, c, hkind,
        ho, hw, ⟨own, hown, conditional, hconditional, hfields⟩, hc, hfinish⟩)
      · cases hf
      · exact ⟨_, _, ⟨hfresh, inner, ⟨kind, outcomes, whenOutcomes, own, conditional, middle,
          hkind, ho, hw, hown, hconditional, rfl⟩, rfl⟩, fields, _, ⟨hfields, rfl⟩, c, hc, hfinish⟩

/-- A node without override and literal schema is known, or it is new. -/
theorem runs_compilePlain_iff {n : Node} :
    Runs (compilePlain h recur s n n.className n.classBucket) ctx r after ↔
      (∃ bucket name place what, n.class? = .ok (some (bucket, name)) ∧ ctx.has bucket name = true ∧
        bucket.display h.describe = .ok place ∧ name.display h.describe = .ok what ∧
          r = some (reference place what) ∧ after = ctx) ∨
      (∃ c, n.class? = .ok c ∧ ctx.IsNew c ∧ Runs (compileNew h recur s n) ctx r after) := by
  rw [compilePlain_eq]
  cases hclass : n.className.truthy with
  | false =>
    have hnone := class?_eq_ok_none_iff.mpr hclass
    rw [if_neg Bool.false_ne_true]
    constructor
    · intro hrun
      refine .inr ⟨none, hnone, ?_, hrun⟩
      intro key hkey
      cases hkey
    · rintro (⟨_, _, _, _, hsome, _⟩ | ⟨_, _, _, hrun⟩)
      · rw [hnone] at hsome
        cases hsome
      · exact hrun
  | true =>
    rw [if_pos rfl]
    simp only [runs_bind_iff, runs_lift_iff, runs_get_iff]
    constructor
    · rintro ⟨bucket, _, ⟨hbucket, rfl⟩, name, _, ⟨hname, rfl⟩, _, _, ⟨rfl, rfl⟩, hrun⟩
      have hsome := class?_eq_ok_some_iff.mpr ⟨hclass, hbucket, hname⟩
      cases hhas : Context.has _ bucket name with
      | true =>
        rw [hhas, if_pos rfl] at hrun
        simp only [runs_bind_iff, runs_lift_iff, runs_pure_iff, referenceTo_eq_ok_iff] at hrun
        obtain ⟨_, _, ⟨⟨place, what, hplace, hwhat, rfl⟩, rfl⟩, rfl, rfl⟩ := hrun
        exact .inl ⟨bucket, name, place, what, hsome, hhas, hplace, hwhat, rfl, rfl⟩
      | false =>
        rw [hhas, if_neg Bool.false_ne_true] at hrun
        refine .inr ⟨_, hsome, ?_, hrun⟩
        intro key hkey
        cases hkey
        exact hhas
    · rintro (⟨bucket, name, place, what, hsome, hhas, hplace, hwhat, rfl, rfl⟩ |
        ⟨c, hc, hnew, hrun⟩)
      · obtain ⟨_, hbucket, hname⟩ := class?_eq_ok_some_iff.mp hsome
        refine ⟨bucket, _, ⟨hbucket, rfl⟩, name, _, ⟨hname, rfl⟩, _, _, ⟨rfl, rfl⟩, ?_⟩
        rw [hhas, if_pos rfl]
        simp only [runs_bind_iff, runs_lift_iff, runs_pure_iff, referenceTo_eq_ok_iff]
        exact ⟨_, _, ⟨⟨place, what, hplace, hwhat, rfl⟩, rfl⟩, rfl, rfl⟩
      · cases c with
        | none =>
          rw [class?_eq_ok_none_iff.mp hc] at hclass
          cases hclass
        | some key =>
          obtain ⟨_, hbucket, hname⟩ := class?_eq_ok_some_iff.mp hc
          refine ⟨key.1, _, ⟨hbucket, rfl⟩, key.2, _, ⟨hname, rfl⟩, _, _, ⟨rfl, rfl⟩, ?_⟩
          rw [hnew key rfl, if_neg Bool.false_ne_true]
          exact hrun

/-- A call looks at the override first, then at the literal schema. -/
theorem compileStep_eq {overriding : Bool} : compileStep h recur s overriding =
    if !(h.view s).override.isNull then
      if overriding then throw .nestedOverride
      else Walk.lift (rootSchema (h.view s).override) >>= fun t => recur t true
    else if (h.view s).isLiteral then
      finish h (h.view s).className (h.view s).classBucket (h.view s).literal
    else compilePlain h recur s (h.view s) (h.view s).className (h.view s).classBucket := rfl

/-- A call succeeds exactly as `CompileStep` says. -/
theorem runs_compileStep_iff {overriding : Bool} :
    Runs (compileStep h recur s overriding) ctx r after ↔
      CompileStep h (fun t o => Runs (recur t o)) s overriding ctx r after := by
  rw [compileStep_eq]
  cases hoverride : (h.view s).override.isNull with
  | false =>
    rw [Bool.not_false, if_pos rfl]
    constructor
    · intro hrun
      cases overriding with
      | true => exact absurd hrun not_runs_throw
      | false =>
        obtain ⟨t, _, hlift, hr⟩ := runs_bind_iff.mp hrun
        obtain ⟨ht, rfl⟩ := runs_lift_iff.mp hlift
        exact .override hoverride ht hr
    · intro hstep
      cases hstep with
      | override _ ht hr => exact runs_bind_iff.mpr ⟨_, ctx, runs_lift_iff.mpr ⟨ht, rfl⟩, hr⟩
      | literal h' => exact absurd (hoverride.symm.trans h') Bool.false_ne_true
      | known h' => exact absurd (hoverride.symm.trans h') Bool.false_ne_true
      | forbidden h' => exact absurd (hoverride.symm.trans h') Bool.false_ne_true
      | compiled h' => exact absurd (hoverride.symm.trans h') Bool.false_ne_true
  | true =>
    rw [Bool.not_true, if_neg Bool.false_ne_true]
    cases hliteral : (h.view s).isLiteral with
    | true =>
      rw [if_pos rfl, runs_finish_iff]
      constructor
      · rintro ⟨c, hc, hfinish⟩
        exact .literal hoverride hliteral hc hfinish
      · intro hstep
        cases hstep with
        | override h' => exact absurd (h'.symm.trans hoverride) Bool.false_ne_true
        | literal _ _ hc hfinish => exact ⟨_, hc, hfinish⟩
        | known _ h' => exact absurd (h'.symm.trans hliteral) Bool.false_ne_true
        | forbidden _ h' => exact absurd (h'.symm.trans hliteral) Bool.false_ne_true
        | compiled _ h' => exact absurd (h'.symm.trans hliteral) Bool.false_ne_true
    | false =>
      rw [if_neg Bool.false_ne_true, runs_compilePlain_iff, runs_compileNew_iff]
      constructor
      · rintro (⟨bucket, name, place, what, hc, hhas, hplace, hwhat, rfl, rfl⟩ | ⟨c, hc, hnew, hrun⟩)
        · exact .known hoverride hliteral hc hhas hplace hwhat
        · obtain ⟨hforbidden, rfl, rfl⟩ | ⟨hforbidden, hfresh, kind, outcomes, whenOutcomes, fields,
            middle, inner, c', hkind, ho, hw, hfields, hc', hfinish⟩ := hrun
          · exact .forbidden hoverride hliteral hc hnew hforbidden
          · rw [hc] at hc'
            cases hc'
            exact .compiled hoverride hliteral hc hnew hforbidden hfresh hkind ho hw hfields hfinish
      · intro hstep
        cases hstep with
        | override h' => exact absurd (h'.symm.trans hoverride) Bool.false_ne_true
        | literal _ h' => exact absurd (hliteral.symm.trans h') Bool.false_ne_true
        | known _ _ hc hhas hplace hwhat =>
          exact .inl ⟨_, _, _, _, hc, hhas, hplace, hwhat, rfl, rfl⟩
        | forbidden _ _ hc hnew hforbidden => exact .inr ⟨_, hc, hnew, .inl ⟨hforbidden, rfl, rfl⟩⟩
        | compiled _ _ hc hnew hforbidden hfresh hkind ho hw hfields hfinish =>
          exact .inr ⟨_, hc, hnew, .inr ⟨hforbidden, hfresh, _, _, _, _, _, _, _, hkind, ho, hw,
            hfields, hc, hfinish⟩⟩

end Steps

end WireShape
