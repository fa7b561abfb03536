import WireShape.Proofs.Compile.Created
import WireShape.Proofs.Compile.Depth
import WireShape.Proofs.Compile.Expanding
import WireShape.Proofs.Compile.Resolved
import WireShape.Proofs.Compile.Unnamed

/-!
# Classes do not change what a schema means

Classes only share definitions. If equal names stand for equal definitions, a schema with its
references expanded is the schema that comes out where no node has a class. The two walks go through
different parts of the tree, as a class is left out where it is known already. So the outcome with
classes is compared with the one without them not along the walk, but by a glossary: a definition
for each class, whichever of the positions of the class it was registered at.

* `Heap.Registers`: the definition that a class is registered with by itself.
* `Heap.Unambiguous`: trees whose classes can be left out.
* `Heap.Glossary`: a choice of a definition for each class.
* `Heap.Unambiguous.mirrors`: every call without classes has a counterpart with them.
-/

namespace WireShape

open Value (Fields)

/-! ## Trees whose classes can be left out -/

namespace Heap

/-- A position compiles to an outcome by itself, nothing being known. -/
def Yields (h : Heap) (s : Schema) (r : Compiled) : Prop :=
  ∃ after, Runs (h.compileSchema s) {} r after

/-- The class at a position is registered with a definition when the position is compiled by itself,
nothing being known. -/
structure Registers (h : Heap) (s : Schema) (bucket name : String) (d : Value) : Prop where
  override : (h.view s).override.isNull = true
  class_eq : (h.view s).class? = .ok (some (.str bucket, .str name))
  registered : ∃ r after, Runs (h.compileSchema s) {} r after ∧
    after.created.find? (.str bucket) (.str name) = some d

/-- The schemas of a list are told apart, and no schema of all keys says nothing. -/
structure Distinguishes (h : Heap) (s : Schema) : Prop where
  openPart : ∀ t p, h.Reaches s t → (h.view t).openPart? = some p →
    ∀ identity, ¬ h.Yields p (some (.map [] identity))
  listed : ∀ t kind outcomes schemas, h.Reaches s t → (h.view t).kind? = some kind →
    List.Forall₂ h.Yields (kind.parts (h.view t)) outcomes →
      kind.listed h (h.view t) outcomes = .ok schemas →
        schemas.Pairwise fun x y => x.alike y = false
  whens : ∀ t outcomes schemas, h.Reaches s t →
    List.Forall₂ h.Yields (h.view t).whenParts outcomes →
      branchValues h (h.view t).whenParts outcomes = .ok schemas →
        schemas.Pairwise fun x y => x.alike y = false

/-- A tree without literal schemas and references of its own, in which a name always stands for the
same definition and no list depends on its entries having classes. -/
structure Unambiguous (h : Heap) (s : Schema) : Prop where
  acyclic : h.Acyclic s
  noForbiddenClass : h.NoForbiddenClass s
  namedByText : h.NamedByText s
  consistent : ∀ t u bucket name d e, h.Reaches s t → h.Reaches s u →
    h.Registers t bucket name d → h.Registers u bucket name e → d.alike e = true
  ownsNoRefs : ∀ t, h.Reaches s t → (h.view t).OwnsNoRefs
  supplied : ∀ t, h.Reaches s t → ∀ v ∈ (h.view t).supplied, v.Proper
  keys : ∀ t, h.Reaches s t → ∀ e ∈ (h.view t).children, (e.1 == e.1) = true
  distinguishes : h.unnamed.Distinguishes s

end Heap

/-! ## Walks without classes -/

namespace Context

/-- A state without definitions. -/
def Blank (ctx : Context) : Prop := ctx.created = [] ∧ ctx.known = []

theorem Blank.has {ctx : Context} (h : ctx.Blank) {b n : Atom} : ctx.has b n = false := by
  unfold Context.has
  rw [h.1, h.2]
  rfl

theorem Blank.enterAt {ctx : Context} {s : Schema} (h : ctx.Blank) : (ctx.enterAt s).Blank := by
  cases s <;> exact h

theorem Blank.leaveAt {ctx : Context} {s : Schema} (h : ctx.Blank) : (ctx.leaveAt s).Blank := by
  cases s <;> exact h

end Context

section Unnamed

variable {h : Heap} {s : Schema} {overriding : Bool} {ctx after : Context} {r : Compiled}
  {depth : Nat} {xs : List Schema} {outcomes : List Compiled}

theorem Finish.blank {schema : Value} (hfinish : Finish h schema ctx none r after)
    (hctx : ctx.Blank) : after.Blank := by
  cases hfinish
  exact hctx

/-- Where nothing has a class, nothing is defined. -/
theorem Walked.blank (hrun : Walked h.unnamed s overriding ctx r after) (hctx : ctx.Blank) :
    after.Blank := by
  revert hctx
  refine hrun.induct (P := fun _ _ ctx _ after => ctx.Blank → after.Blank) ?_
  intro s overriding ctx r after hstep hctx
  cases hstep with
  | override _ _ hr => exact hr.2 hctx
  | literal _ _ hclass hfinish =>
    rw [Heap.view_unnamed, Node.class?_unnamed] at hclass
    cases hclass
    exact hfinish.blank hctx
  | known => exact hctx
  | forbidden => exact hctx
  | @compiled _ _ _ _ _ _ _ middle inner _ _ _ _ hclass _ _ _ _ hparts hwhens _ hfinish =>
    rw [Heap.view_unnamed, Node.class?_unnamed] at hclass
    cases hclass
    have hmiddle : middle.Blank := hparts.preserves (fun _ _ _ _ _ hr => hr.2) hctx.enterAt
    have hinner : inner.Blank := hwhens.preserves (fun _ _ _ _ _ hr => hr.2) hmiddle
    exact hfinish.blank hinner.leaveAt

theorem Heap.Acyclic.unnamed (hs : h.Acyclic s) : h.unnamed.Acyclic s := by
  unfold Heap.Acyclic
  rw [Heap.holds_unnamed, Heap.reaches_unnamed]
  exact hs

/-- What comes out on the way comes out by itself. -/
theorem Walked.yields (hs : h.unnamed.Acyclic s) (hrun : Walked h.unnamed s false ctx r after)
    (hctx : ctx.Blank) : h.unnamed.Yields s r := by
  obtain ⟨depth, hdepth⟩ := hrun
  have hafter := (walked_of_runs hdepth).blank hctx
  have hcovers : ({} : Context).Covers ctx after := by
    refine ⟨fun id hid => (by cases hid), fun b n hhas => ?_⟩
    rw [hafter.has] at hhas
    cases hhas
  obtain ⟨after', hrun'⟩ := runs_of_known Heap.noForbiddenClass_unnamed hdepth hcovers
  exact ⟨after', hs.runs_iff.mpr (walked_of_runs hrun')⟩

/-- The outcomes of a chain come out by themselves. -/
theorem Chain.yields (hxs : ∀ x ∈ xs, h.unnamed.Acyclic x)
    (hchain : Outcomes (compileWithin h.unnamed depth) xs ctx outcomes after) (hctx : ctx.Blank) :
    after.Blank ∧ List.Forall₂ h.unnamed.Yields xs outcomes := by
  refine hchain.forall₂ (I := Context.Blank) (P := fun x r _ => h.unnamed.Yields x r) ?_ ?_ hctx
  · exact fun x hx s y t hr hs =>
      ⟨(walked_of_runs hr).blank hs, (walked_of_runs hr).yields (hxs x hx) hs⟩
  · exact fun _ _ _ _ _ _ _ _ _ hyields => hyields

end Unnamed

/-! ## Glossaries -/

namespace Heap

/-- A proper definition that a class at or below a position is registered with. -/
def Offers (h : Heap) (s : Schema) (bucket name : String) (d : Value) : Prop :=
  d.Proper ∧ ∃ t, h.Reaches s t ∧ h.Registers t bucket name d

/-- A choice of a definition for each class that has one. -/
structure Glossary (h : Heap) (s : Schema) (find : Lookup) : Prop where
  offered : ∀ bucket name d, find bucket name = some d → h.Offers s bucket name d
  complete : ∀ bucket name d, h.Offers s bucket name d → ∃ d', find bucket name = some d'

theorem exists_glossary (h : Heap) (s : Schema) : ∃ find, h.Glossary s find := by
  classical
  let find : Lookup := fun bucket name =>
    if hoffers : ∃ d, h.Offers s bucket name d then some hoffers.choose else none
  have hfind : ∀ {bucket name} (hoffers : ∃ d, h.Offers s bucket name d),
      find bucket name = some hoffers.choose := fun hoffers => dif_pos hoffers
  refine ⟨find, fun bucket name d hd => ?_, fun bucket name d hd => ⟨_, hfind ⟨d, hd⟩⟩⟩
  by_cases hoffers : ∃ d, h.Offers s bucket name d
  · rw [hfind hoffers] at hd
    cases hd
    exact hoffers.choose_spec
  · have hnone : find bucket name = none := dif_neg hoffers
    rw [hnone] at hd
    cases hd

theorem Glossary.proper {h : Heap} {s : Schema} {find : Lookup} (hfind : h.Glossary s find) :
    find.Proper := fun bucket name d hd => (hfind.offered bucket name d hd).1

/-- All that has been created on the way is what classes are registered with by themselves. -/
def CreatesOffered (h : Heap) (s : Schema) (ctx after : Context) : Prop :=
  ∀ b n d, after.created.find? b n = some d → ctx.created.find? b n = some d ∨
    ∃ bucket name : String, b = .str bucket ∧ n = .str name ∧ h.Offers s bucket name d

variable {h : Heap} {s : Schema} {ctx middle after : Context}

theorem CreatesOffered.of_created (heq : after.created = ctx.created) :
    h.CreatesOffered s ctx after := by
  intro _ _ _ hfound
  rw [heq] at hfound
  exact .inl hfound

theorem CreatesOffered.trans (h₁ : h.CreatesOffered s ctx middle)
    (h₂ : h.CreatesOffered s middle after) : h.CreatesOffered s ctx after := by
  intro b n d hfound
  rcases h₂ b n d hfound with hold | hnew
  · exact h₁ b n d hold
  · exact .inr hnew

theorem CreatesOffered.register {bucket name place what : String} {d : Value}
    (hd : h.Offers s bucket name d) :
    h.CreatesOffered s ctx (ctx.register (.str bucket) (.str name) d place what) := by
  intro b n d' hfound
  refine (Components.found_of_define hfound).imp_right ?_
  rintro ⟨rfl, hb, hn⟩
  exact ⟨bucket, name, Atom.str_beq_iff.mp hb, Atom.str_beq_iff.mp hn, hd⟩

end Heap

/-! ## Calls with classes beside calls without -/

/-- There is an outcome with classes that expands to a given one, and from every state on no more of
the path the call has that outcome and creates only what classes are registered with. -/
def Mirrors (h : Heap) (root : Schema) (find : Lookup) (depth : Nat) (s : Schema)
    (overriding : Bool) (active : List NodeId) (plain : Compiled) : Prop :=
  ∃ r, Option.Rel (SchemaRel (ExpandsTo find)) r plain ∧ ∀ ctx : Context,
    (∀ id, ctx.active.contains id = true → active.contains id = true) →
      ∃ after, Runs (compileWithin h depth s overriding) ctx r after ∧
        h.CreatesOffered root ctx after

section Mirrors

variable {h : Heap} {root s : Schema} {find : Lookup} {depth : Nat} {overriding : Bool}
  {xs : List Schema} {plain : List Compiled} {ctx after : Context}

/-- The calls of a chain have counterparts one after the other. -/
theorem Chain.mirrors (hchain : Outcomes (compileWithin h.unnamed depth) xs ctx plain after)
    (hxs : ∀ x ∈ xs, ∀ ctx r after, Runs (compileWithin h.unnamed depth x false) ctx r after →
      ctx.Blank → Mirrors h root find depth x false ctx.active r) (hctx : ctx.Blank) :
    ∃ outcomes, OutcomesRel (ExpandsTo find) outcomes plain ∧ ∀ ctx' : Context,
      (∀ id, ctx'.active.contains id = true → ctx.active.contains id = true) →
        ∃ after', Outcomes (compileWithin h depth) xs ctx' outcomes after' ∧
          h.CreatesOffered root ctx' after' := by
  induction hchain with
  | nil => exact ⟨[], .nil, fun ctx' _ => ⟨ctx', .nil, .of_created rfl⟩⟩
  | @cons x xs r plain ctx middle after head tail ih =>
    have hmiddle := walked_of_runs head
    obtain ⟨r', hr, hhead⟩ := hxs x List.mem_cons_self _ _ _ head hctx
    obtain ⟨outcomes, ho, htail⟩ := ih (fun y hy => hxs y (List.mem_cons_of_mem _ hy))
      (hmiddle.blank hctx)
    refine ⟨r' :: outcomes, .cons hr ho, fun ctx' hactive => ?_⟩
    obtain ⟨middle', hrun, hcreates⟩ := hhead ctx' hactive
    have hactive' : ∀ id, middle'.active.contains id = true → middle.active.contains id = true := by
      rw [(walked_of_runs hrun).extends.active, hmiddle.extends.active]
      exact hactive
    obtain ⟨after', hrest, hcreates'⟩ := htail middle' hactive'
    exact ⟨after', .cons hrun hrest, hcreates.trans hcreates'⟩

/-- A schema of all keys is empty only where its counterpart is. -/
theorem truthy_of_expandsTo {v w : Value} (hvw : SchemaRel (ExpandsTo find) v w)
    (hw : ∀ identity, w ≠ .map [] identity) : v.truthy = w.truthy := by
  obtain ⟨⟨_, _, depth, u, hu, halike⟩, hmap⟩ := hvw
  cases v with
  | map vs i =>
    have hlist : ∃ us j, u = .map us j ∧ (vs = [] → us = []) := by
      cases depth with
      | zero => cases hu
      | succ depth =>
        cases htarget : Fields.target? vs with
        | none =>
          obtain ⟨us, hus, rfl⟩ := (expandWithin_map_iff htarget).mp hu
          refine ⟨us, i, rfl, ?_⟩
          rintro rfl
          cases hus
          rfl
        | some target =>
          obtain ⟨us, d, ds, j, _, _, _, rfl⟩ := (expandWithin_reference_iff htarget).mp hu
          refine ⟨_, _, rfl, ?_⟩
          rintro rfl
          cases htarget
    obtain ⟨us, j, rfl, hempty⟩ := hlist
    cases w with
    | map ws k =>
      have hlength := (Value.alike_map_iff.mp halike).1
      have hne : ws ≠ [] := by
        rintro rfl
        exact hw k rfl
      have hne' : vs ≠ [] := by
        rintro rfl
        rw [hempty rfl] at hlength
        exact hne (List.eq_nil_of_length_eq_zero hlength.symm)
      change (!vs.isEmpty) = (!ws.isEmpty)
      rw [List.isEmpty_eq_false_iff.mpr hne, List.isEmpty_eq_false_iff.mpr hne']
    | _ => cases halike
  | _ => cases hmap

/-- The schema of all keys of an object without described keys is the outcome of its only part. -/
theorem yields_openPart {n : Node} (hempty : n.children.isEmpty = true)
    (hyields : List.Forall₂ h.Yields (Kind.object.parts n) plain) {w : Value}
    (hw : plain.head?.join = some w) : ∃ p, n.openPart? = some p ∧ h.Yields p (some w) := by
  have hparts : Kind.object.parts n = n.openPart?.toList := by
    change n.children.map (·.2) ++ n.openPart?.toList = _
    rw [List.isEmpty_iff.mp hempty]
    rfl
  rw [hparts] at hyields
  cases hopen : n.openPart? with
  | none =>
    rw [hopen] at hyields
    cases hyields
    cases hw
  | some p =>
    rw [hopen] at hyields
    cases hyields with
    | @cons _ r _ _ head tail =>
      obtain rfl : r = some w := hw
      exact ⟨p, rfl, head⟩

namespace Heap.Unambiguous

variable {kind : Kind} {outcomes whenOutcomes whenPlain : List Compiled} {fields' : Fields}

/-- What a node without classes below it is put together to is what its counterpart expands to. -/
theorem assemble (hroot : h.Unambiguous root) (hfind : h.Glossary root find)
    (hs : h.Reaches root s) (hkind : (h.view s).kind? = some kind)
    (ho : OutcomesRel (ExpandsTo find) outcomes plain)
    (hw : OutcomesRel (ExpandsTo find) whenOutcomes whenPlain)
    (hyields : List.Forall₂ h.unnamed.Yields (kind.parts (h.view s)) plain)
    (hwhenYields : List.Forall₂ h.unnamed.Yields (h.view s).whenParts whenPlain)
    (hfields : (h.view s).assemble h kind plain whenPlain = .ok fields') :
    ∃ fields, (h.view s).assemble h kind outcomes whenOutcomes = .ok fields ∧
      ExpandsTo find (.ofEntries fields) (.ofEntries fields') := by
  have howns := hroot.ownsNoRefs s hs
  have hs' : h.unnamed.Reaches root s := by rwa [Heap.reaches_unnamed]
  have hlisted : ∀ ys, kind.listed h (h.view s) plain = .ok ys → KeepsApart (ExpandsTo find) ys := by
    intro ys hys
    refine expandsTo_keepsApart hfind.proper
      (hroot.distinguishes.listed s kind plain ys hs' ?_ ?_ ?_)
    · rw [Heap.view_unnamed, Node.kind?_unnamed]
      exact hkind
    · rw [Heap.view_unnamed]
      cases kind <;> exact hyields
    · rw [Heap.view_unnamed]
      cases kind with
      | alternatives => exact (branchValues_unnamed).trans hys
      | _ => exact hys
  have hwhens : ∀ ys, branchValues h (h.view s).whenParts whenPlain = .ok ys →
      KeepsApart (ExpandsTo find) ys := by
    intro ys hys
    refine expandsTo_keepsApart hfind.proper
      (hroot.distinguishes.whens s whenPlain ys hs' ?_ ?_)
    · rw [Heap.view_unnamed]
      exact hwhenYields
    · rw [Heap.view_unnamed]
      exact (branchValues_unnamed).trans hys
  have htruthy : kind = .object → (h.view s).children.isEmpty = true → ∀ v w,
      outcomes.head?.join = some v → plain.head?.join = some w → v.truthy = w.truthy := by
    rintro rfl hempty v w hv hw
    obtain ⟨p, hopen, hp⟩ := yields_openPart hempty hyields hw
    have hrel : SchemaRel (ExpandsTo find) v w := by
      cases ho with
      | nil => cases hv
      | cons head _ =>
        cases head with
        | none => cases hv
        | some hrel =>
          cases hv
          cases hw
          exact hrel
    refine truthy_of_expandsTo hrel ?_
    rintro identity rfl
    refine hroot.distinguishes.openPart s p hs' ?_ identity hp
    rw [Heap.view_unnamed]
    exact hopen
  obtain ⟨fields, hassemble, hrel⟩ := Node.assemble_related (expandsTo_congruence hfind.proper)
    (fun v hv => .refFree (hroot.supplied s hs v hv) (howns.supplied v hv)) howns.literal_falsy
    (hroot.keys s hs) ho hw hlisted hwhens htruthy hfields
  exact ⟨fields, hassemble, .map hrel⟩

/-- A class that is registered with a definition has a reference that expands to whatever the
definition expands to. -/
theorem reference (hroot : h.Unambiguous root) (hfind : h.Glossary root find) {bucket name : String}
    {d : Value} (hbucket : '/' ∉ bucket.toList) (hd : h.Offers root bucket name d)
    (hexpands : ExpandsTo find d (.ofEntries fields')) :
    ExpandsTo find (WireShape.reference bucket name) (.ofEntries fields') := by
  obtain ⟨d', hd'⟩ := hfind.complete bucket name d hd
  obtain ⟨hproper, t, ht, hregisters⟩ := hfind.offered bucket name d' hd'
  obtain ⟨_, u, hu, hregisters'⟩ := hd
  have halike := hroot.consistent t u bucket name d' d ht hu hregisters hregisters'
  exact expandsTo_reference hbucket hd' (hexpands.of_alike hfind.proper hproper halike)

end Heap.Unambiguous

/-! ## Nodes put together -/

/-- A position that is compiled itself: no other schema stands in its place, and it is allowed. -/
structure OwnSchema (h : Heap) (s : Schema) : Prop where
  override : (h.view s).override.isNull = true
  literal : (h.view s).isLiteral = false
  allowed : (h.view s).isForbidden = false

/-- From every state on no more of a path, the parts of a position can be compiled and put together
to the same fields, and only what classes are registered with is created. -/
def PartsRun (h : Heap) (root : Schema) (depth : Nat) (s : Schema) (active : List NodeId)
    (fields : Fields) : Prop :=
  ∀ ctx : Context, (∀ id, ctx.active.contains id = true → active.contains id = true) →
    ctx.Fresh s ∧ ∃ kind outcomes whenOutcomes middle inner, (h.view s).kind? = some kind ∧
      Outcomes (compileWithin h depth) (kind.parts (h.view s)) (ctx.enterAt s) outcomes middle ∧
        Outcomes (compileWithin h depth) (h.view s).whenParts middle whenOutcomes inner ∧
          (h.view s).assemble h kind outcomes whenOutcomes = .ok fields ∧
            h.CreatesOffered root ctx (inner.leaveAt s)

namespace PartsRun

variable {active : List NodeId} {fields fields' : Fields} {bucket name : String}

/-- What the parts are put together to is handed on. -/
theorem finish (hparts : PartsRun h root depth s active fields) (hown : OwnSchema h s)
    {c : Option (Atom × Atom)} (hclass : (h.view s).class? = .ok c)
    (hactive : ∀ id, ctx.active.contains id = true → active.contains id = true)
    (hnew : ctx.IsNew c) : ∃ before, h.CreatesOffered root ctx before ∧
      ∀ r after, Finish h (.ofEntries fields) before c r after →
        Runs (compileWithin h (depth + 1) s overriding) ctx r after := by
  obtain ⟨hfresh, kind, outcomes, whenOutcomes, middle, inner, hkind, hchain, hwhens, hassemble,
    hcreates⟩ := hparts ctx hactive
  refine ⟨inner.leaveAt s, hcreates, fun r after hfinish => runs_compileStep_iff.mpr ?_⟩
  exact .compiled hown.override hown.literal hclass hnew hown.allowed hfresh hkind hchain hwhens
    hassemble hfinish

/-- A position without a class stands for its own fields. -/
theorem mirrors_plain (hparts : PartsRun h root depth s active fields) (hown : OwnSchema h s)
    (hclass : (h.view s).class? = .ok none)
    (hexpands : ExpandsTo find (.ofEntries fields) (.ofEntries fields')) :
    Mirrors h root find (depth + 1) s overriding active (some (.ofEntries fields')) := by
  refine ⟨some (.ofEntries fields), .some ⟨hexpands, rfl⟩, fun ctx hactive => ?_⟩
  obtain ⟨before, hcreates, hrun⟩ := hparts.finish hown hclass hactive fun _ hkey => by cases hkey
  exact ⟨before, hrun _ _ .plain, hcreates⟩

/-- A class that is not known is registered with the fields of its position. -/
theorem define (hparts : PartsRun h root depth s active fields) (hown : OwnSchema h s)
    (hclass : (h.view s).class? = .ok (some (.str bucket, .str name)))
    (hactive : ∀ id, ctx.active.contains id = true → active.contains id = true)
    (hnew : ctx.has (.str bucket) (.str name) = false) :
    ∃ before, h.CreatesOffered root ctx before ∧ Runs (compileWithin h (depth + 1) s overriding) ctx
      (some (reference bucket name))
        (before.register (.str bucket) (.str name) (.ofEntries fields) bucket name) := by
  obtain ⟨before, hcreates, hrun⟩ := hparts.finish hown hclass hactive fun key hkey => by
    cases hkey
    exact hnew
  exact ⟨before, hcreates, hrun _ _ (.define rfl rfl)⟩

/-- A position of a class stands for a reference to it, whether it is registered on the way or has
been before. -/
theorem mirrors_class (hparts : PartsRun h root depth s active fields) (hroot : h.Unambiguous root)
    (hfind : h.Glossary root find) (hs : h.Reaches root s) (hown : OwnSchema h s)
    (hnamed : (h.view s).className.truthy = true)
    (hexpands : ExpandsTo find (.ofEntries fields) (.ofEntries fields')) :
    Mirrors h root find (depth + 1) s overriding active (some (.ofEntries fields')) := by
  obtain ⟨bucket, name, hbucket, hname, hslash⟩ := hroot.namedByText s hs hnamed
  have hclass : (h.view s).class? = .ok (some (.str bucket, .str name)) := by
    refine class?_eq_ok_some_iff.mpr ⟨hnamed, ?_, ?_⟩
    · rw [hbucket]
      rfl
    · rw [hname]
      rfl
  have hoffers : h.Offers root bucket name (.ofEntries fields) := by
    have hempty : ∀ id, ({} : Context).active.contains id = true → active.contains id = true :=
      fun _ hid => by cases hid
    obtain ⟨before, _, hrun⟩ := hparts.define hown hclass hempty rfl
    refine ⟨hexpands.left, s, hs, hown.override, hclass, _, _,
      (hroot.acyclic.below hs).runs_iff.mpr (walked_of_runs hrun), ?_⟩
    change (before.created.define (.str bucket) (.str name) _).find? _ _ = _
    rw [Components.find?_define, Atom.beq_str_iff.mpr rfl, Atom.beq_str_iff.mpr rfl]
    rfl
  refine ⟨some (reference bucket name),
    .some ⟨hroot.reference hfind hslash hoffers hexpands, rfl⟩, fun ctx hactive => ?_⟩
  cases hhas : ctx.has (.str bucket) (.str name) with
  | true =>
    refine ⟨ctx, runs_compileStep_iff.mpr ?_, .of_created rfl⟩
    exact .known hown.override hown.literal hclass hhas rfl rfl
  | false =>
    obtain ⟨before, hcreates, hrun⟩ := hparts.define hown hclass hactive hhas
    exact ⟨_, hrun, hcreates.trans (.register hoffers)⟩

end PartsRun

namespace Heap.Unambiguous

variable {kind : Kind} {plain whenPlain : List Compiled} {fields' : Fields} {middle inner : Context}

/-- Where the calls below a position have counterparts, its parts are put together to fields that
expand to those without classes. -/
theorem partsRun (hroot : h.Unambiguous root) (hfind : h.Glossary root find)
    (hs : h.Reaches root s) (hkind : (h.view s).kind? = some kind) (hfresh : ctx.Fresh s)
    (hctx : ctx.Blank) (hbelow : ∀ t ∈ (h.view s).parts, ∀ ctx r after,
      Runs (compileWithin h.unnamed depth t false) ctx r after → ctx.Blank →
        Mirrors h root find depth t false ctx.active r)
    (hparts : Outcomes (compileWithin h.unnamed depth) (kind.parts (h.view s)) (ctx.enterAt s) plain
      middle)
    (hwhens : Outcomes (compileWithin h.unnamed depth) (h.view s).whenParts middle whenPlain inner)
    (hfields : (h.view s).assemble h kind plain whenPlain = .ok fields') :
    ∃ fields, ExpandsTo find (.ofEntries fields) (.ofEntries fields') ∧
      PartsRun h root depth s ctx.active fields := by
  have hacyclic : ∀ t ∈ (h.view s).parts, h.unnamed.Acyclic t := fun t ht =>
    (hroot.acyclic.below (hs.tail (.inl ht))).unnamed
  have hext : ∀ (h : Heap) (x : Schema) (ctx : Context) (r : Compiled) (after : Context),
      Runs (compileWithin h depth x false) ctx r after → after.Extends ctx :=
    fun _ _ _ _ _ hr => (walked_of_runs hr).extends
  obtain ⟨hmiddle, hyields⟩ := Chain.yields (fun t ht => hacyclic t (Kind.mem_parts ht)) hparts
    hctx.enterAt
  obtain ⟨_, hwhenYields⟩ := Chain.yields (fun t ht => hacyclic t (Node.mem_whenParts ht)) hwhens
    hmiddle
  obtain ⟨outcomes, ho, hpartsAll⟩ := hparts.mirrors
    (fun t ht => hbelow t (Kind.mem_parts ht)) hctx.enterAt
  obtain ⟨whenOutcomes, hw, hwhensAll⟩ := hwhens.mirrors
    (fun t ht => hbelow t (Node.mem_whenParts ht)) hmiddle
  obtain ⟨fields, hassemble, hexpands⟩ := hroot.assemble hfind hs hkind ho hw hyields hwhenYields
    hfields
  refine ⟨fields, hexpands, fun ctx' hactive => ?_⟩
  have hcovers : ctx'.Covers ctx {} := ⟨hactive, fun _ _ hhas => (by cases hhas)⟩
  obtain ⟨middle', hparts', hcreates⟩ := hpartsAll _ hcovers.enterAt.active
  -- Each chain leaves the path as it was, so the conditions start on no more of it either.
  have hmiddle' : ∀ id, middle'.active.contains id = true → middle.active.contains id = true := by
    rw [(hparts'.extends fun x _ => hext h x).active,
      (hparts.extends fun x _ => hext h.unnamed x).active]
    exact hcovers.enterAt.active
  obtain ⟨inner', hwhens', hcreates'⟩ := hwhensAll middle' hmiddle'
  refine ⟨hcovers.fresh hfresh, kind, outcomes, whenOutcomes, middle', inner', hkind, hparts',
    hwhens', hassemble, ?_⟩
  exact (Heap.CreatesOffered.of_created Context.created_enterAt).trans
    (hcreates.trans (hcreates'.trans (.of_created Context.created_leaveAt)))

/-- Every call without classes has a counterpart with them. -/
theorem mirrors (hroot : h.Unambiguous root) (hfind : h.Glossary root find)
    (hs : h.Reaches root s) {r : Compiled}
    (hrun : Runs (compileWithin h.unnamed depth s overriding) ctx r after) (hctx : ctx.Blank) :
    Mirrors h root find depth s overriding ctx.active r := by
  induction depth generalizing s overriding ctx r after with
  | zero => exact absurd hrun not_runs_throw
  | succ depth ih =>
    cases runs_compileStep_iff.mp hrun with
    | override hoverride ht hr =>
      rw [Heap.view_unnamed, Node.override_unnamed] at hoverride ht
      obtain ⟨r', hrel, hall⟩ := ih (hs.tail (.inr ht)) hr hctx
      refine ⟨r', hrel, fun ctx' hactive => ?_⟩
      obtain ⟨after', hr', hcreates⟩ := hall ctx' hactive
      exact ⟨after', runs_compileStep_iff.mpr (.override hoverride ht hr'), hcreates⟩
    | literal _ hliteral =>
      rw [Heap.view_unnamed, Node.isLiteral_unnamed] at hliteral
      exact absurd ((hroot.ownsNoRefs s hs).not_literal.symm.trans hliteral) Bool.false_ne_true
    | known _ _ hclass =>
      rw [Heap.view_unnamed, Node.class?_unnamed] at hclass
      cases hclass
    | forbidden hoverride hliteral _ _ hforbidden =>
      rw [Heap.view_unnamed] at hoverride hliteral hforbidden
      rw [Node.override_unnamed] at hoverride
      rw [Node.isLiteral_unnamed] at hliteral
      have hclass : (h.view s).class? = .ok none := by
        refine class?_eq_ok_none_iff.mpr (Bool.eq_false_iff.mpr fun hnamed => ?_)
        exact absurd ((hroot.noForbiddenClass s hs hnamed).symm.trans hforbidden) Bool.false_ne_true
      refine ⟨none, .none, fun ctx' _ => ⟨ctx', runs_compileStep_iff.mpr ?_, .of_created rfl⟩⟩
      exact .forbidden hoverride hliteral hclass (fun _ hkey => by cases hkey) hforbidden
    | @compiled _ _ kind plain whenPlain fields' _ middle inner _ _ hoverride hliteral hclass _
        hforbidden hfresh hkind hparts hwhens hfields hfinish =>
      rw [Heap.view_unnamed] at hoverride hliteral hclass hforbidden hkind hwhens hfields
      rw [Node.class?_unnamed] at hclass
      rw [Node.override_unnamed] at hoverride
      rw [Node.isLiteral_unnamed] at hliteral
      rw [Node.kind?_unnamed] at hkind
      rw [Node.assemble_unnamed] at hfields
      rw [Heap.view_unnamed, Kind.parts_unnamed] at hparts
      cases hclass
      obtain rfl := hfinish.plain_outcome
      obtain ⟨fields, hexpands, hcall⟩ := hroot.partsRun hfind hs hkind hfresh hctx
        (fun t ht ctx r after hr hblank => ih (hs.tail (.inl ht)) hr hblank) hparts hwhens hfields
      have hown : OwnSchema h s := ⟨hoverride, hliteral, hforbidden⟩
      cases hnamed : (h.view s).className.truthy with
      | false => exact hcall.mirrors_plain hown (class?_eq_ok_none_iff.mpr hnamed) hexpands
      | true => exact hcall.mirrors_class hroot hfind hs hown hnamed hexpands

end Heap.Unambiguous

end Mirrors

end WireShape
