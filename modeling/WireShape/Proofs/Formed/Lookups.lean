import WireShape.Proofs.Compile.Depth
import WireShape.Proofs.Formed.Checked
import WireShape.Proofs.Validation.Pointers

/-!
# References that are looked up twice

A reference in the document of a container is looked up by checks, as a path, and by coercion, as a
bucket and a name. Both find the same definition, a check in its checked form, if buckets and names
are steps of their own in a path and none is taken for a mark of nullable schemas. So a check is one
that looks references up as coercion does. Where a name has a separator in it, the path leads nowhere
while coercion finds the definition (`Container.lookups_differ`).

* `Container.Contains`: the schemas in the document of a container.
* `Container.checkerByName`: the checker that looks references up as coercion does.
* `Container.lookups_agree`: every reference leads to one definition, and a check is one by name.
-/

namespace WireShape

open Value (Fields)
open NullTypes (expand)

/-! ## Definitions that are found -/

/-- Text that is a step of its own in a path and that is not the mark of nullable schemas. -/
def Atom.IsStep (a : Atom) : Prop := ∃ s, a = .str s ∧ Text.IsPlain s = true ∧ s ≠ "nullable"

theorem Atom.IsStep.isNoMark {a : Atom} (ha : a.IsStep) : a.IsNoMark := by
  obtain ⟨s, rfl, _, hmark⟩ := ha
  exact fun heq => hmark (Atom.str.inj heq)

namespace Components

variable {Name : Atom → Prop} {P : Value → Prop} {c : Components}

theorem Each.names {Name' : Atom → Prop} (hc : c.Each Name P) (hName : ∀ a, Name a → Name' a) :
    c.Each Name' P :=
  fun bucket hbucket => ⟨hName _ (hc bucket hbucket).1, fun entry hentry =>
    ((hc bucket hbucket).2 entry hentry).imp_left (hName entry.1)⟩

/-- A target leads to a definition whose bucket and name are steps of their own. -/
def Reaches (c : Components) (target : String) (definition : Value) : Prop :=
  ∃ bucket name, target = bucketPath bucket ++ name ∧ Text.IsPlain bucket = true ∧
    Text.IsPlain name = true ∧ bucket ≠ "nullable" ∧ name ≠ "nullable" ∧
      c.find? (.str bucket) (.str name) = some definition

end Components

/-- The target of a reference to a class leads to a definition, if classes are named by steps. -/
theorem Heap.ClassTarget.reaches {h : Heap} {At : Schema → Prop} {ctx : Context} {t : String}
    (ht : h.ClassTarget At ctx t) (hnames : ∀ s, At s → (h.view s).HasClass Atom.IsStep)
    (hknown : ctx.known = []) : ∃ d, ctx.created.Reaches t d := by
  cases ht with
  | @intro s _ _ bucket name hs hclass hplace hwhat hhas =>
    obtain ⟨⟨_, rfl, hbucket, hbucket'⟩, _, rfl, hname, hname'⟩ := hnames _ hs _ _ hclass
    cases hplace
    cases hwhat
    have hsome := hhas (Atom.beq_str_iff.mpr rfl) (Atom.beq_str_iff.mpr rfl)
    have hcreated : ctx.created.contains (.str bucket) (.str name) = true := by
      rw [Context.has, hknown, Bool.or_eq_true] at hsome
      exact hsome.resolve_right nofun
    obtain ⟨d, hd⟩ := Option.isSome_iff_exists.mp hcreated
    exact ⟨d, bucket, name, rfl, hbucket, hname, hbucket', hname', hd⟩

namespace Container

variable {Name Key : Atom → Prop} {Target : String → Prop} {c : Container} {t : String}
  {definition : Value}

/-- What a target leads to, by name and as a path. -/
structure Finds (c : Container) (target : String) (definition shown : Value) : Prop where
  byName : ∀ schema, schema.field? "$ref" = some (.str target) → c.resolve schema = .ok definition
  checked : expand definition = .ok shown
  byPath : Pointer.target c.document (.str target) = .ok shown

/-- A target that leads to a definition leads to its checked form in the document. -/
theorem Holds.finds (hc : c.Holds Name Key (fun _ => True) Target)
    (hreaches : c.components.Reaches t definition) :
    Formed Key (fun _ => True) Target definition ∧ ∃ shown, c.Finds t definition shown := by
  obtain ⟨bucket, name, rfl, hbucket, hname, hbucket', hname', hfound⟩ := hreaches
  have hformed := hc.definitions.find? hfound
  refine ⟨hformed, ?_⟩
  obtain ⟨fields, identity, -, -, hdocument⟩ := hc.root
  obtain ⟨after, hafter, hshown⟩ := NullTypes.expand_map hdocument
  cases definition with
  | map es identity' =>
    obtain ⟨shown, hexpand, htarget⟩ := hshown.target_found hbucket hname hbucket' hname'
      (NullTypes.get?_set.trans (if_pos rfl)) hfound
    refine ⟨shown, fun schema hfield => ?_, hexpand, hafter ▸ htarget⟩
    have hslash : '/' ∉ bucket.toList := fun hmem =>
      (Text.IsPlain.mem_iff.mp hbucket _ hmem).1 rfl
    rw [resolve_of_split hfield (splitReference_path hslash)]
    exact congrArg (fun o => Except.ok (Option.getD o _)) hfound
  | _ => cases hformed

/-! ## Checks by name -/

/-- The checker that looks references up as coercion does, nested at most so deep. -/
def checkerByName (c : Container) : Nat → Checker
  | 0 => ⟨c.describe, fun _ _ _ => .failed .unbounded⟩
  | depth + 1 => ⟨c.describe, fun reference extent x =>
      .ofStep (do expand (← c.resolve (.ofFields [("$ref", reference)]))) fun schema =>
        (checkerByName c depth).schema schema extent x⟩

/-- Of a formed schema whose references lead to definitions, a check is one by name. -/
theorem Holds.check_byName (hc : c.Holds Name Key (fun _ => True) Target)
    (hreaches : ∀ t, Target t → ∃ d, c.components.Reaches t d) (depth : Nat) {v w : Value}
    (hv : Formed Key (fun _ => True) Target v) (hw : expand v = .ok w) :
    (c.validator.checkerWithin depth).schema w = (c.checkerByName depth).schema w := by
  induction depth generalizing v w with
  | zero => rfl
  | succ depth ih =>
    have hdescribe : (c.validator.checkerWithin (depth + 1)).describe =
        (c.checkerByName (depth + 1)).describe := rfl
    refine hv.check_congr hdescribe hw fun path u r hu hr => ?_
    obtain ⟨t, rfl, ht⟩ := hv.reference_of_checked hw hu hr
    obtain ⟨d, hd⟩ := hreaches t ht
    obtain ⟨hformed, shown, hfinds⟩ := hc.finds hd
    have hname : c.resolve (.ofFields [("$ref", .str t)]) = .ok d := hfinds.byName _ rfl
    have hpath : Pointer.target c.validator.document (.str t) = .ok shown := hfinds.byPath
    funext extent x
    unfold Validator.checkerWithin checkerByName
    dsimp only
    rw [hname, hpath]
    cases d with
    | map fields identity =>
      obtain ⟨after, rfl, _⟩ := hformed.checked hfinds.checked
      have hstep : (do expand (← (.ok (.map fields identity) : Except Fault Value))) =
          .ok (.ofEntries after) :=
        hfinds.checked
      rw [hstep]
      exact congrFun (congrFun (ih hformed hfinds.checked) extent) x
    | _ => cases hformed

/-! ## Containers -/

/-- The schemas in the document of a container: those in the document itself and those in the
definitions there. -/
inductive Contains (c : Container) : Value → Prop
  | schema {path : List Atom} {u : Value} (hu : SchemaAt c.document path u) : Contains c u
  | definition {buckets definitions : Fields} {bucket name : Atom} {d u : Value} {path : List Atom}
      (hbuckets : c.document.field? "components" = some (.ofEntries buckets))
      (hdefinitions : (bucket, .ofEntries definitions) ∈ buckets) (hd : (name, d) ∈ definitions)
      (hu : SchemaAt d path u) : Contains c u

/-- The schemas in the document are those in the checked forms of formed schemas. -/
theorem Holds.of_contains (hc : c.Holds Name Key (fun _ => True) Target)
    (hnames : ∀ a, Name a → a.IsNoMark) {u : Value} (hu : c.Contains u) :
    ∃ v w path, Formed Key (fun _ => True) Target v ∧ expand v = .ok w ∧ SchemaAt w path u := by
  obtain ⟨fields, identity, -, hroot, hdocument⟩ := hc.root
  cases hu with
  | schema hu => exact ⟨_, _, _, hroot, hdocument, hu⟩
  | @definition buckets definitions bucket name d u path hbuckets hdefinitions hd hu =>
    obtain ⟨after, hafter, hchecked⟩ := hroot.checked hdocument
    rw [hafter] at hbuckets
    obtain ⟨v, hget, hexpand⟩ := hchecked.origin (by decide) hbuckets
    cases (NullTypes.get?_set.trans (if_pos rfl)).symm.trans hget
    obtain ⟨gs, heq, hall⟩ := (hc.definitions.names hnames).expanded hexpand
    cases heq
    obtain ⟨b, hb, _, hs, hvalue, hinner⟩ := forall₂_right hall hdefinitions
    cases hvalue
    obtain ⟨e, he, _, hentry⟩ := forall₂_right hinner hd
    exact ⟨e.2, d, path, ((hc.definitions b hb).2 e he).2, hentry, hu⟩

/-- A container of positions whose classes are named by steps holds formed schemas, and every
reference in them leads to a definition. -/
theorem holds_reaching {h : Heap} {v : Value} {s : Schema} (hv : rootSchema v = .ok s)
    (hliteral : ∀ t, h.Reaches s t → (h.view t).literal.isNull = true)
    (hkeys : ∀ t, h.Reaches s t → ∀ e ∈ (h.view t).children, Key e.1)
    (hnames : ∀ t, h.Reaches s t → (h.view t).HasClass Atom.IsStep) {allowUnknown : Bool}
    (hc : (compile h v allowUnknown).1 = .ok c) :
    ∃ Target, c.Holds Atom.IsStep Key (fun _ => True) Target ∧
      ∀ t, Target t → ∃ d, c.components.Reaches t d := by
  obtain ⟨-, ctx, hknown, hcreated, hholds⟩ := holds supply_true hv
    (fun t ht => ⟨hliteral t ht, fun _ _ => trivial, hkeys t ht⟩) hnames hc
  refine ⟨_, hholds, fun t ht => ?_⟩
  rw [hcreated]
  exact ht.reaches hnames hknown

/-- Where no schema is literal and where buckets and names are steps of their own, every reference in
the document of a container leads to the checked form of the definition that it is resolved to. So a
check is one that looks references up by name. -/
theorem lookups_agree {h : Heap} {v : Value} {s : Schema} (hv : rootSchema v = .ok s)
    (hliteral : ∀ t, h.Reaches s t → (h.view t).literal.isNull = true)
    (hnames : ∀ t, h.Reaches s t → (h.view t).HasClass Atom.IsStep) {allowUnknown : Bool}
    (hc : (compile h v allowUnknown).1 = .ok c) :
    (∀ schema r, c.Contains schema → schema.field? "$ref" = some r → ∃ definition shown,
      (∃ bucket name, c.components.find? bucket name = some definition) ∧
        c.resolve schema = .ok definition ∧ expand definition = .ok shown ∧
          Pointer.target c.document r = .ok shown) ∧
    ∀ x, c.validator.check x =
      (c.checkerByName (c.validator.depthBound x)).schema c.document .full x := by
  obtain ⟨Target, hholds, hreaches⟩ :=
    @holds_reaching (fun _ => True) c h v s hv hliteral (fun _ _ _ _ => trivial) hnames _ hc
  refine ⟨fun schema r hschema hr => ?_, fun x => ?_⟩
  · obtain ⟨v, w, path, hformed, hexpand, hu⟩ :=
      hholds.of_contains (fun _ ha => ha.isNoMark) hschema
    obtain ⟨t, rfl, ht⟩ := hformed.reference_of_checked hexpand hu hr
    obtain ⟨d, hd⟩ := hreaches t ht
    obtain ⟨-, shown, hfinds⟩ := hholds.finds hd
    obtain ⟨bucket, name, -, -, -, -, -, hfound⟩ := hd
    exact ⟨d, shown, ⟨_, _, hfound⟩, hfinds.byName schema hr, hfinds.checked, hfinds.byPath⟩
  · obtain ⟨_, _, -, hroot, hdocument⟩ := hholds.root
    exact congrFun (congrFun (hholds.check_byName hreaches _ hroot hdocument) .full) x

end Container

/-- A seat under a plain name, one under a name with a separator, and an object whose name is the way
to a part of a definition in it. -/
def seatHeap : Heap where
  nodes := #[{ kind := "string" },
    { kind := "object", children := [(.str "row", .node 0)],
      metadata := [(.str "className", .str "Seat")] },
    { kind := "object", children := [(.str "row", .node 0)],
      metadata := [(.str "className", .str "a/b")] },
    { kind := "object", children := [(.str "spot", .node 0)],
      metadata := [(.str "className", .str "Area")] },
    { kind := "object", children := [(.str "area", .node 3)],
      metadata := [(.str "className", .str "Area/properties/spot")] }]

/-- A seat under a plain name is found as a path and by name. -/
theorem Container.lookups_agree_seat : ∃ c definition shown,
    (compile seatHeap (.node 1) false).1 = .ok c ∧ c.resolve c.schema = .ok definition ∧
      expand definition = .ok shown ∧
        Pointer.target c.document (.str "#/components/schemas/Seat") = .ok shown := by
  have hreaches : ∀ t, seatHeap.Reaches (.node 1) t → t = .node 0 ∨ t = .node 1 := by
    intro t ht
    obtain ⟨j, hj, rfl⟩ := (Heap.descends_of_nodes (by decide) : seatHeap.Descends).reaches ht
    rcases Nat.le_one_iff_eq_zero_or_eq_one.mp hj with rfl | rfl
    · exact .inl rfl
    · exact .inr rfl
  have hliteral : ∀ t, seatHeap.Reaches (.node 1) t →
      (seatHeap.view t).literal.isNull = true := by
    intro t ht
    rcases hreaches t ht with rfl | rfl <;> rfl
  have hnames : ∀ t, seatHeap.Reaches (.node 1) t → (seatHeap.view t).HasClass Atom.IsStep := by
    intro t ht
    rcases hreaches t ht with rfl | rfl
    · exact .of_none rfl
    · exact .of_some rfl ⟨_, rfl, rfl, by decide⟩ ⟨_, rfl, rfl, by decide⟩
  obtain ⟨hagree, -⟩ := @Container.lookups_agree _ seatHeap (.node 1) (.node 1) rfl hliteral hnames
    false rfl
  obtain ⟨definition, shown, -, hresolve, hexpand, htarget⟩ := hagree _ _ (.schema .here) rfl
  exact ⟨_, definition, shown, rfl, hresolve, hexpand, htarget⟩

/-- Under a name with a separator, a reference that coercion looks up leads checks nowhere, or to
another schema. -/
theorem Container.lookups_differ :
    (∃ c definition, (compile seatHeap (.node 2) false).1 = .ok c ∧
      c.schema = reference "schemas" "a/b" ∧ c.resolve c.schema = .ok definition ∧
        c.error (.ofFields [("row", .str "A")]) = .error .unresolvableReference) ∧
    ∃ c definition shown, (compile seatHeap (.node 4) false).1 = .ok c ∧
      c.schema = reference "schemas" "Area/properties/spot" ∧
        c.resolve c.schema = .ok definition ∧
          definition.field? "type" = some (.str "object") ∧
        Pointer.target c.document (.str "#/components/schemas/Area/properties/spot") = .ok shown ∧
          shown.field? "type" = some (.str "string") := by
  refine ⟨⟨_, _, rfl, rfl, rfl, ?_⟩, _, _, _, rfl, rfl, rfl, rfl, rfl, rfl⟩
  rfl

end WireShape
