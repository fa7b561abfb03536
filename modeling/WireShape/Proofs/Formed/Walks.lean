import WireShape.Proofs.Compile.Known
import WireShape.Proofs.Formed.Entries
import WireShape.Proofs.Properties

/-!
# Schemas as walks make them

A schema that a walk makes is a mapping in which every entry is written by a node, and so is every
schema inside it, at any depth. A reference in it leads to the class of a position that the walk has
come to. The same holds of the definitions, and of the schema of a container.

* `Formed`: schemas all of whose entries are written by nodes.
* `SchemaAt`: the schemas inside a schema, each with the way to it.
* `Heap.ClassTarget`: the target of a reference to the class of a position.
* `Walked.formed`: the outcome of a walk is formed, and so are the definitions that it creates.
* `Container.Holds`: a container of a formed schema with formed definitions.
-/

namespace WireShape

open Value (Fields)
open NullTypes (Each Tidy)

/-! ## Formed schemas -/

/-- Schemas in which every entry has the form that goes with its name, at every depth. -/
inductive Formed (Key : Atom → Prop) (Given : Value → Prop) (Target : String → Prop) : Value → Prop
  | intro {fields : Fields} {identity : Option Nat} (htidy : Tidy fields)
      (hwritten : ∀ name v, OrderedMap.get? fields (.str name) = some v →
        Written Key Given Target (fun _ => True) name v)
      (hinner : ∀ name v steps u, OrderedMap.get? fields (.str name) = some v →
        Inside name v steps u → Formed Key Given Target u) :
      Formed Key Given Target (.map fields identity)

/-- A schema inside a schema, at any depth, and the way to it. -/
inductive SchemaAt : Value → List Atom → Value → Prop
  | here {v : Value} : SchemaAt v [] v
  | inside {v value u w : Value} {name : String} {steps path : List Atom}
      (hvalue : v.field? name = some value) (hu : Inside name value steps u)
      (hw : SchemaAt u path w) : SchemaAt v (.str name :: (steps ++ path)) w

namespace Formed

variable {Key : Atom → Prop} {Given : Value → Prop} {Target Target' : String → Prop}
  {fields : Fields} {identity : Option Nat} {name : String} {v u : Value}

theorem isMap (h : Formed Key Given Target v) : v.isMap = true := by
  cases h with
  | intro => rfl

theorem tidy (h : Formed Key Given Target (.map fields identity)) : Tidy fields := by
  cases h with
  | intro htidy => exact htidy

theorem of_each (h : Each (Written Key Given Target (Formed Key Given Target)) fields) :
    Formed Key Given Target (.map fields identity) := by
  refine .intro h.toTidy (fun name v hv => ?_) fun name v steps u hv hu => (h.get? hv).inside hu
  exact (h.get? hv).of_inside fun _ _ _ => trivial

/-- Each entry is written, with formed schemas in it. -/
theorem written (h : Formed Key Given Target (.map fields identity))
    (hv : OrderedMap.get? fields (.str name) = some v) :
    Written Key Given Target (Formed Key Given Target) name v := by
  cases h with
  | intro _ hwritten hinner =>
    exact (hwritten name v hv).of_inside fun steps u hu => hinner name v steps u hv hu

theorem each (h : Formed Key Given Target (.map fields identity)) :
    Each (Written Key Given Target (Formed Key Given Target)) fields := by
  refine ⟨h.tidy, fun e he s hs => h.written ?_⟩
  obtain ⟨k, v⟩ := e
  cases hs
  exact h.tidy.separate.get? he (Atom.beq_str_iff.mpr rfl)

theorem mono (hTarget : ∀ t, Target t → Target' t) (h : Formed Key Given Target v) :
    Formed Key Given Target' v := by
  induction h with
  | intro htidy hwritten _ ih =>
    exact .intro htidy (fun name v hv => (hwritten name v hv).mono hTarget fun _ h => h) ih

/-- The schemas inside a formed schema are formed. -/
theorem schemaAt {path : List Atom} (h : Formed Key Given Target v) (hu : SchemaAt v path u) :
    Formed Key Given Target u := by
  induction hu with
  | here => exact h
  | inside hvalue hinside _ ih =>
    cases h with
    | intro _ _ hinner => exact ih (hinner _ _ _ _ hvalue hinside)

/-- Formed schemas compose, and their marks are kept. -/
theorem composes (hGiven : Supply Given) :
    Written.Composes Key Given Target (Formed Key Given Target) := by
  refine ⟨of_each, fun {v w} hv hw => ?_⟩
  cases v with
  | map fields identity =>
    cases hw
    exact of_each (hv.each.set (.supplied (by decide) (hGiven.basic _ rfl)))
  | _ => cases hw

theorem reference {place what : String} (h : Target (bucketPath place ++ what)) :
    Formed Key Given Target (WireShape.reference place what) :=
  of_each (Each.set .nil (.reference h))

end Formed

/-! ## Walks -/

/-- The target of a reference to the class of a position. The state has the class, if it is one that
can be found. -/
inductive Heap.ClassTarget (h : Heap) (At : Schema → Prop) (ctx : Context) : String → Prop
  | intro {s : Schema} {b n : Atom} {place what : String} (hs : At s)
      (hclass : (h.view s).class? = .ok (some (b, n))) (hplace : b.display h.describe = .ok place)
      (hwhat : n.display h.describe = .ok what)
      (hhas : (b == b) = true → (n == n) = true → ctx.has b n = true) :
      ClassTarget h At ctx (bucketPath place ++ what)

namespace Components

/-- Buckets and names have a property, and definitions have another one. -/
def Each (Name : Atom → Prop) (P : Value → Prop) (c : Components) : Prop :=
  ∀ bucket ∈ c, Name bucket.1 ∧ ∀ entry ∈ bucket.2, Name entry.1 ∧ P entry.2

variable {Name : Atom → Prop} {P P' : Value → Prop} {c : Components} {b n : Atom} {d : Value}

theorem Each.mono (hc : c.Each Name P) (hP : ∀ v, P v → P' v) : c.Each Name P' :=
  fun bucket hbucket => ⟨(hc bucket hbucket).1, fun entry hentry =>
    ((hc bucket hbucket).2 entry hentry).imp_right (hP entry.2)⟩

theorem Each.define (hc : c.Each Name P) (hb : Name b) (hn : Name n) (hd : P d) :
    (c.define b n d).Each Name P := by
  intro bucket hbucket
  rcases mem_define hbucket with hold | ⟨entries, hmem, hnew, _⟩ | rfl
  · exact hc bucket hold
  · refine ⟨(hc _ hmem).1, fun entry hentry => ?_⟩
    rw [hnew] at hentry
    rcases OrderedMap.mem_insert hentry with hold | ⟨hvalue, hkey | ⟨⟨w, hw⟩, _⟩⟩
    · exact (hc _ hmem).2 entry hold
    · rw [hkey, hvalue]
      exact ⟨hn, hd⟩
    · rw [hvalue]
      exact ⟨((hc _ hmem).2 _ hw).1, hd⟩
  · refine ⟨hb, fun entry hentry => ?_⟩
    obtain rfl := List.mem_singleton.mp hentry
    exact ⟨hn, hd⟩

theorem Each.find? (hc : c.Each Name P) (hd : c.find? b n = some d) : P d := by
  obtain ⟨bucket, hbucket, entry, hentry, _, _, rfl⟩ := mem_of_find? hd
  exact ((hc bucket hbucket).2 entry hentry).2

end Components

/-- The definitions that were created in a state are formed, and their names have a property. -/
def Context.HasFormed (Name Key : Atom → Prop) (Given : Value → Prop) (Target : String → Prop)
    (ctx : Context) : Prop :=
  ctx.created.Each Name (Formed Key Given Target)

section Walks

variable {Name Key : Atom → Prop} {Given : Value → Prop} {h : Heap} {At : Schema → Prop}
  {s : Schema} {overriding : Bool} {ctx after : Context} {r : Compiled}

/-- The bucket and the name of the class of a node have a property. -/
def Node.HasClass (Name : Atom → Prop) (n : Node) : Prop :=
  ∀ bucket name, n.class? = .ok (some (bucket, name)) → Name bucket ∧ Name name

theorem Node.HasClass.of_none {n : Node} (hclass : n.class? = .ok none) : n.HasClass Name :=
  fun _ _ hsome => nomatch hclass.symm.trans hsome

theorem Node.HasClass.of_some {n : Node} {bucket name : Atom}
    (hclass : n.class? = .ok (some (bucket, name))) (hbucket : Name bucket) (hname : Name name) :
    n.HasClass Name := by
  intro bucket' name' hclass'
  cases hclass.symm.trans hclass'
  exact ⟨hbucket, hname⟩

theorem Heap.ClassTarget.mono {t : String} (ht : h.ClassTarget At ctx t)
    (hkept : ∀ b n, ctx.has b n = true → after.has b n = true) : h.ClassTarget At after t := by
  cases ht with
  | intro hs hclass hplace hwhat hhas =>
    exact .intro hs hclass hplace hwhat fun hb hn => hkept _ _ (hhas hb hn)

theorem Context.has_enterAt {b n : Atom} : (ctx.enterAt s).has b n = ctx.has b n := by
  cases s <;> rfl

/-- To define a class of a formed schema adds a formed definition and a reference to it. -/
theorem Finish.formed {schema : Value} {c : Option (Atom × Atom)} (hs : At s)
    (hname : (h.view s).HasClass Name) (hclass : (h.view s).class? = .ok c)
    (hfinish : Finish h schema ctx c r after)
    (hctx : ctx.HasFormed Name Key Given (h.ClassTarget At ctx))
    (hschema : Formed Key Given (h.ClassTarget At ctx) schema) :
    after.HasFormed Name Key Given (h.ClassTarget At after) ∧
      ∀ v, r = some v → Formed Key Given (h.ClassTarget At after) v := by
  have hextends := hfinish.extends
  cases hfinish with
  | plain =>
    refine ⟨hctx, fun v hv => ?_⟩
    rw [Compiled.ofValue] at hv
    split at hv
    · cases hv
    · cases hv
      exact hschema
  | define hplace hwhat =>
    have hlater : ∀ t, h.ClassTarget At ctx t → h.ClassTarget At _ t :=
      fun t ht => ht.mono hextends.has
    have hkept := hctx.mono fun _ hd => hd.mono hlater
    obtain ⟨hbucket, hwhat'⟩ := hname _ _ hclass
    refine ⟨hkept.define hbucket hwhat' (hschema.mono hlater), fun v hv => ?_⟩
    · cases hv
      refine .reference (.intro hs hclass hplace hwhat fun hb hn => ?_)
      rw [Context.has_register, hb, hn]
      rfl

/-- A chain of walks keeps what each of them keeps, and its outcomes are formed. -/
theorem Chain.formed {R : Schema → Context → Compiled → Context → Prop} {xs : List Schema}
    {outcomes : List Compiled}
    (hR : ∀ x ∈ xs, ∀ ctx r after, R x ctx r after → after.Extends ctx ∧
      (ctx.HasFormed Name Key Given (h.ClassTarget At ctx) →
        after.HasFormed Name Key Given (h.ClassTarget At after) ∧
          ∀ v, r = some v → Formed Key Given (h.ClassTarget At after) v))
    (hchain : Chain R xs ctx outcomes after)
    (hctx : ctx.HasFormed Name Key Given (h.ClassTarget At ctx)) :
    after.HasFormed Name Key Given (h.ClassTarget At after) ∧
      ∀ v, some v ∈ outcomes → Formed Key Given (h.ClassTarget At after) v := by
  obtain ⟨hafter, hall⟩ := hchain.forall₂
    (I := fun ctx => ctx.HasFormed Name Key Given (h.ClassTarget At ctx))
    (P := fun _ r t => ∀ v, r = some v → Formed Key Given (h.ClassTarget At t) v)
    (fun x hx s y t hrun => (hR x hx s y t hrun).2)
    (fun x hx s y t hrun _ _ _ hy v hv =>
      (hy v hv).mono fun _ ht => ht.mono (hR x hx s y t hrun).1.has)
    hctx
  refine ⟨hafter, fun v hv => ?_⟩
  obtain ⟨_, _, hformed⟩ := forall₂_right hall hv
  exact hformed v rfl

/-- From positions whose nodes have no literal schema, a walk keeps definitions formed, and its
outcome is formed. -/
theorem Walked.formed (hGiven : Supply Given) (hbelow : ∀ {s t}, At s → h.Holds s t → At t)
    (hsupplies : ∀ {s}, At s → (h.view s).Supplies Key Given)
    (hnames : ∀ {s}, At s → (h.view s).HasClass Name)
    (hrun : Walked h s overriding ctx r after) (hs : At s)
    (hctx : ctx.HasFormed Name Key Given (h.ClassTarget At ctx)) :
    after.HasFormed Name Key Given (h.ClassTarget At after) ∧
      ∀ v, r = some v → Formed Key Given (h.ClassTarget At after) v := by
  revert hs hctx
  refine hrun.induct (P := fun s _ ctx r after => At s →
    ctx.HasFormed Name Key Given (h.ClassTarget At ctx) →
      after.HasFormed Name Key Given (h.ClassTarget At after) ∧
        ∀ v, r = some v → Formed Key Given (h.ClassTarget At after) v) ?_
  intro s overriding ctx r after hstep hs hctx
  have hnode := hsupplies hs
  cases hstep with
  | override _ ht hr => exact hr.2 (hbelow hs (.inr ht)) hctx
  | literal _ hliteral =>
    exact absurd ((Node.not_literal hnode.literal).symm.trans hliteral) Bool.false_ne_true
  | known _ _ hclass hhas hplace hwhat =>
    refine ⟨hctx, fun v hv => ?_⟩
    cases hv
    exact .reference (.intro hs hclass hplace hwhat fun _ _ => hhas)
  | forbidden => exact ⟨hctx, nofun⟩
  | @compiled _ _ _ _ _ _ _ _ inner _ _ _ _ hclass _ _ _ _ hparts hwhens hfields hfinish =>
    have henter : (ctx.enterAt s).HasFormed Name Key Given (h.ClassTarget At (ctx.enterAt s)) := by
      rw [Context.HasFormed, Context.created_enterAt]
      exact hctx.mono fun _ hd => hd.mono fun _ ht => ht.mono fun _ _ hhas =>
        Context.has_enterAt.trans hhas
    -- The outcomes of the parts are formed in the state after the last of them.
    obtain ⟨hmiddle, ho⟩ := hparts.formed
      (fun t ht _ _ _ hr => ⟨hr.1.extends, hr.2 (hbelow hs (.inl (Kind.mem_parts ht)))⟩) henter
    obtain ⟨hinner, hw⟩ := hwhens.formed
      (fun t ht _ _ _ hr => ⟨hr.1.extends, hr.2 (hbelow hs (.inl (Node.mem_whenParts ht)))⟩) hmiddle
    have hlater := hwhens.extends fun _ _ _ _ _ hr => hr.1.extends
    have hformed : Formed Key Given (h.ClassTarget At _) (.ofEntries _) := .of_each
      (Node.written_assemble (Formed.composes hGiven) hGiven hnode
        (fun v hv => (ho v hv).mono fun _ ht => ht.mono hlater.has) hw hfields)
    have hleave : ∀ t, h.ClassTarget At inner t → h.ClassTarget At (inner.leaveAt s) t :=
      fun _ ht => ht.mono fun _ _ hhas => Context.has_leaveAt.trans hhas
    refine hfinish.formed hs (hnames hs) hclass ?_ (hformed.mono hleave)
    rw [Context.HasFormed, Context.created_leaveAt]
    exact hinner.mono fun _ hd => hd.mono hleave

end Walks

/-! ## Containers -/

namespace Container

/-- A container with a formed schema, formed definitions, and both in their checked form. -/
structure Holds (Name Key : Atom → Prop) (Given : Value → Prop) (Target : String → Prop)
    (c : Container) : Prop where
  schema : Formed Key Given Target c.schema
  definitions : c.components.Each Name (Formed Key Given Target)
  document : ∃ (fields : Fields) (identity : Option Nat), c.schema = .map fields identity ∧
    NullTypes.expand (.ofEntries (fields.set "components" c.components.toValue)) = .ok c.document

variable {Name Key : Atom → Prop} {Given : Value → Prop} {h : Heap} {v schema : Value} {s : Schema}
  {allowUnknown : Bool} {c : Container} {Target : String → Prop} {components : Components}

/-- A container is made of a schema, which may admit further keys, and of its definitions. -/
theorem ofCompiled_eq_ok_iff {describe : Describe} {compiled : Option CompiledSchema}
    (hparts : compiled.elim (.ofEntries [], []) (fun c => (c.schema, c.components)) =
      (schema, components)) :
    ofCompiled describe compiled allowUnknown = .ok c ↔ ∃ fields document,
      (if allowUnknown then withUnknown schema else schema).spread = .ok fields ∧
        NullTypes.expand (.ofEntries (Fields.set fields "components" components.toValue)) =
          .ok document ∧
        c = ⟨describe, if allowUnknown then withUnknown schema else schema, components, document⟩ := by
  have hdef : ofCompiled describe compiled allowUnknown = (do
      let fields ← (if allowUnknown then withUnknown schema else schema).spread
      let document ← NullTypes.expand (.ofEntries (Fields.set fields "components"
        components.toValue))
      return ⟨describe, if allowUnknown then withUnknown schema else schema, components,
        document⟩) := by
    cases compiled <;> cases hparts <;> rfl
  rw [hdef]
  constructor
  · intro hc
    obtain ⟨fields, hfields, hc⟩ := bind_eq_ok_iff.mp hc
    obtain ⟨document, hdocument, hpure⟩ := bind_eq_ok_iff.mp hc
    cases hpure
    exact ⟨fields, document, hfields, hdocument, rfl⟩
  · rintro ⟨fields, document, hfields, hdocument, rfl⟩
    exact bind_eq_ok_iff.mpr ⟨fields, hfields, bind_eq_ok_iff.mpr ⟨document, hdocument, rfl⟩⟩

theorem formed_withUnknown (hschema : Formed Key Given Target schema) (allowUnknown : Bool) :
    Formed Key Given Target (if allowUnknown then withUnknown schema else schema) := by
  cases allowUnknown with
  | false => exact hschema
  | true =>
    cases schema with
    | map fields identity => exact .of_each hschema.each.remove
    | _ => exact hschema

/-- What is compiled for a container: a formed schema and formed definitions. All references are to
classes of positions below, and the definitions of these are there. -/
theorem compiled_formed {compiled : Option CompiledSchema} (hGiven : Supply Given)
    (hv : rootSchema v = .ok s) (hnodes : ∀ t, h.Reaches s t → (h.view t).Supplies Key Given)
    (hnames : ∀ t, h.Reaches s t → (h.view t).HasClass Name)
    (hagainst : (h.compileAgainst [] v).1 = .ok compiled) : ∃ schema, ∃ ctx : Context,
      compiled.elim (.ofEntries [], []) (fun c => (c.schema, c.components)) = (schema, ctx.created) ∧
        ctx.known = [] ∧ Formed Key Given (h.ClassTarget (h.Reaches s) ctx) schema ∧
          ctx.HasFormed Name Key Given (h.ClassTarget (h.Reaches s) ctx) := by
  obtain ⟨r, after, hrun, rfl⟩ := compileAgainst_eq_ok_iff.mp hagainst
  obtain ⟨s', hs', hrun⟩ := runs_compile_iff.mp hrun
  cases hv.symm.trans hs'
  have hwalked : Walked h s false {} r after := ⟨_, hrun⟩
  obtain ⟨hdefinitions, hformed⟩ := @Walked.formed Name Key Given h (h.Reaches s) _ _ _ _ _ hGiven
    (fun hs ht => hs.tail ht) (hnodes _) (hnames _) hwalked .refl nofun
  cases r with
  | none => exact ⟨_, {}, rfl, rfl, .of_each .nil, nofun⟩
  | some schema => exact ⟨schema, after, rfl, hwalked.extends.known, hformed _ rfl, hdefinitions⟩

/-- The container of a position, if there is one, holds a formed schema and formed definitions. -/
theorem holds (hGiven : Supply Given) (hv : rootSchema v = .ok s)
    (hnodes : ∀ t, h.Reaches s t → (h.view t).Supplies Key Given)
    (hnames : ∀ t, h.Reaches s t → (h.view t).HasClass Name)
    (hc : (compile h v allowUnknown).1 = .ok c) : c.describe = h.describe ∧
      ∃ ctx : Context, ctx.known = [] ∧ c.components = ctx.created ∧
        c.Holds Name Key Given (h.ClassTarget (h.Reaches s) ctx) := by
  obtain ⟨compiled, hagainst, hof⟩ := compile_eq_ok_iff.mp hc
  obtain ⟨schema, ctx, hparts, hknown, hschema, hdefinitions⟩ :=
    compiled_formed hGiven hv hnodes hnames hagainst
  obtain ⟨fields, document, hfields, hdocument, rfl⟩ := (ofCompiled_eq_ok_iff hparts).mp hof
  have hformed := formed_withUnknown hschema allowUnknown
  refine ⟨rfl, ctx, hknown, rfl, hformed, hdefinitions, ?_⟩
  generalize (if allowUnknown then withUnknown schema else schema) = kept at hfields hformed ⊢
  cases kept with
  | map es identity =>
    cases hfields
    exact ⟨_, _, rfl, hdocument⟩
  | _ => cases hfields

/-- The schema of a container with its definitions beside it is formed, if nothing need be known of
what is supplied. The document is its checked form. -/
theorem Holds.root (hc : c.Holds Name Key (fun _ => True) Target) :
    ∃ (fields : Fields) (identity : Option Nat), c.schema = .map fields identity ∧
      Formed Key (fun _ => True) Target
        (.ofEntries (fields.set "components" c.components.toValue)) ∧
      NullTypes.expand (.ofEntries (fields.set "components" c.components.toValue)) =
        .ok c.document := by
  obtain ⟨fields, identity, hschema, hdocument⟩ := hc.document
  have hformed := hc.schema
  rw [hschema] at hformed
  exact ⟨fields, identity, hschema,
    .of_each (hformed.each.set (.supplied (by decide) trivial)), hdocument⟩

end Container

end WireShape
