import WireShape.Proofs.Compile.Entered
import WireShape.Proofs.Registry.Declared
import WireShape.Proofs.Registry.Discipline

/-!
# Where the definitions of a registry come from

A registry has the definitions of classes that walks have met, and definitions under names that were
given to them: declared schemas and parameters, and schemas of bodies and responses. If no such name
is that of a class, all that is found under the name of a class is a definition of that class.

* `Heap.NamesClass`: the names of classes.
* `Heap.Origin`: where a definition comes from.
* `Registry.Derived`: registries all of whose definitions come from there.
* `Compiling.derived`, `Declaring.derived`, `Naming.derived`: the steps keep this.
-/

namespace WireShape

open Value (Fields Writable)

namespace Heap

/-- One of the classes has this name. -/
def NamesClass (h : Heap) (Start : Schema → Prop) (bucket name : String) : Prop :=
  ∃ t, h.Below Start t ∧ h.Owns t (.str bucket) (.str name)

/-- A definition is that of a class through which a walk has gone, or it has been given a name that
no class has. -/
inductive Origin (h : Heap) (Start : Schema → Prop) : Atom → Atom → Value → Prop
  | met {t : Schema} {b n : Atom} {d : Value} (ht : h.Entered Start t)
      (hd : h.Defines t b n d) : Origin h Start b n d
  | schema {name : String} {d : Value} (hname : ¬ h.NamesClass Start "schemas" name)
      (hd : d.Writable) (htitle : ∀ t, d.field? "title" = some t → t.RefFree) :
      Origin h Start (.str "schemas") (.str name) d
  | parameter {name : String} {d : Value} (hname : ¬ h.NamesClass Start "parameters" name) :
      Origin h Start (.str "parameters") (.str name) d

variable {h : Heap} {Start : Schema → Prop} {s : Schema} {b n : Atom} {bucket name : String}
  {v d schema : Value}

namespace Origin

/-- Buckets and names are text, and buckets are single steps of a path. -/
theorem named (hStart : h.Coherent Start) (hd : h.Origin Start b n d) :
    ∃ bucket name : String, b = .str bucket ∧ n = .str name ∧ '/' ∉ bucket.toList := by
  cases hd with
  | met ht hd =>
    obtain ⟨bucket, name, hkey, hslash⟩ :=
      (hStart.namedByText ht.isBelow).class_eq .refl hd.class?
    cases hkey
    exact ⟨bucket, name, rfl, rfl, hslash⟩
  | schema => exact ⟨_, _, rfl, rfl, by decide⟩
  | parameter => exact ⟨_, _, rfl, rfl, by decide⟩

theorem texts (hStart : h.Coherent Start) (hd : h.Origin Start b n d) :
    b.isText = true ∧ n.isText = true := by
  obtain ⟨_, _, rfl, rfl, _⟩ := hd.named hStart
  exact ⟨rfl, rfl⟩

/-- Under the name of a class there is a definition of it. -/
theorem defines (hd : h.Origin Start (.str bucket) (.str name) d)
    (hname : h.NamesClass Start bucket name) :
    ∃ t, h.Entered Start t ∧ h.Defines t (.str bucket) (.str name) d := by
  cases hd with
  | met ht hd => exact ⟨_, ht, hd⟩
  | schema hfree => exact absurd hname hfree
  | parameter hfree => exact absurd hname hfree

/-- A definition among the schemas is known to JSON, and its title holds no reference. -/
theorem published (hStart : h.Coherent Start) (hd : h.Origin Start (.str "schemas") n d) :
    d.Writable ∧ ∀ t, d.field? "title" = some t → t.RefFree := by
  generalize hb : Atom.str "schemas" = b at hd
  cases hd with
  | met ht hd =>
    exact ⟨hStart.defines_writable ht.isBelow hd,
      fun _ => hd.title_refFree (hStart.ownsNoRefs _ ht.isBelow)⟩
  | schema _ hd htitle => exact ⟨hd, htitle⟩
  | parameter => exact absurd (Atom.str.inj hb) (by decide)

end Origin

/-- What a value compiles to may be defined under any name that is none of a class. -/
theorem Gives.origin (hStart : h.Coherent Start) (hv : ∀ s, rootSchema v = .ok s → h.Below Start s)
    (hgives : h.Gives v (some schema)) (hname : ¬ h.NamesClass Start "schemas" name) :
    h.Origin Start (.str "schemas") (.str name) schema ∧
      h.Origin Start (.str "schemas") (.str name) (Json.withoutTitle schema) := by
  obtain ⟨ctx, after, hrun⟩ := hgives
  obtain ⟨s, hs, hrun⟩ := runs_compile_iff.mp hrun
  have hbelow := hv s hs
  have hwalked := walked_of_runs hrun
  have hwritable := (hwalked.standard (hStart.standard hbelow) schema rfl).writable
  refine ⟨.schema hname hwritable fun t ht => hwalked.title_refFree
    (fun t ht => hStart.ownsNoRefs t (hbelow.reaches ht)) rfl ht,
      .schema hname hwritable.withoutTitle fun t ht => ?_⟩
  cases schema with
  | map es identity =>
    have hnone : OrderedMap.get? (OrderedMap.erase es (.str "title")) (.str "title") = some t := ht
    rw [OrderedMap.get?_erase_self] at hnone
    cases hnone
  | _ => cases ht

end Heap

namespace Registry

/-- All definitions of a registry are those of classes, or have been given names that no class
has. -/
def Derived (h : Heap) (Start : Schema → Prop) (reg : Registry) : Prop :=
  reg.components.From IsOwnBucket (h.Origin Start)

variable {h : Heap} {Start : Schema → Prop} {reg mid after : Registry} {r : Compiled} {s : Schema}
  {v schema : Value} {name : Atom}

theorem SameData.derived (hsame : after.SameData reg) (hreg : Derived h Start reg) :
    Derived h Start after := by
  rw [Derived, hsame.components]
  exact hreg

/-- Walks have gone through all classes that are defined. -/
theorem Derived.enters (hreg : Derived h Start reg) (hStart : h.Coherent Start) :
    h.Enters Start reg.components.contains := by
  intro t b n ht hown hn
  obtain ⟨d, hfound⟩ := Option.isSome_iff_exists.mp hn
  have horigin := hreg.found (Heap.Origin.texts hStart) hfound
  obtain ⟨bucket, name, rfl, rfl, _⟩ := horigin.named hStart
  obtain ⟨u, hu, hdefines⟩ := horigin.defines ⟨t, ht, hown⟩
  exact hStart.entered hu ⟨hdefines.override_isNull, hdefines.class?⟩ ht hown

/-- A walk leaves only definitions of classes beside those that were there. -/
theorem Compiling.derived {walk : Walk Compiled} (hStart : h.Coherent Start)
    (hcompile : Compiling h walk reg r after)
    (hwalk : ∀ ctx, Runs walk { known := reg.components } r ctx →
      ∃ s, h.Below Start s ∧ Walked h s false { known := reg.components } r ctx)
    (hreg : Derived h Start reg) : Derived h Start after := by
  obtain @⟨ctx, logged, _, hrun, hlogged, hmerge⟩ := hcompile
  obtain ⟨s, hs, hwalked⟩ := hwalk ctx hrun
  obtain ⟨hentered, _⟩ := hwalked.entered hStart hs (hreg.enters hStart)
  have hcreated : ctx.created.From (fun _ => False) (h.Origin Start) :=
    hwalked.creates (fun t b n d c ht hd hc =>
      hc.define (Heap.Origin.texts hStart) (.met (hentered.meets hStart ht) hd)) .nil
  exact merge_from (Heap.Origin.texts hStart) hmerge hcreated (hlogged.derived hreg)

theorem compiling_schema_derived (hStart : h.Coherent Start) (hs : h.Below Start s)
    (hcompile : Compiling h (h.compileSchema s) reg r after) (hreg : Derived h Start reg) :
    Derived h Start after :=
  hcompile.derived hStart (fun _ hrun => ⟨s, hs, walked_of_runs hrun⟩) hreg

theorem compiling_value_derived (hStart : h.Coherent Start)
    (hv : ∀ s, rootSchema v = .ok s → h.Below Start s)
    (hcompile : Compiling h (h.compile v) reg r after) (hreg : Derived h Start reg) :
    Derived h Start after := by
  refine hcompile.derived hStart (fun _ hrun => ?_) hreg
  obtain ⟨s, hs, hrun⟩ := runs_compile_iff.mp hrun
  exact ⟨s, hv s hs, walked_of_runs hrun⟩

theorem Compiling.gives (hcompile : Compiling h (h.compile v) reg r after) : h.Gives v r := by
  obtain ⟨hrun, _, _⟩ := hcompile
  exact ⟨_, _, hrun⟩

/-- A definition that comes from there may be written. -/
theorem Derived.define {b n : Atom} {d : Value} (hmid : Derived h Start mid)
    (hStart : h.Coherent Start) (hd : h.Origin Start b n d)
    (hcomponents : after.components = mid.components.define b n d) : Derived h Start after := by
  rw [Derived, hcomponents]
  exact Components.From.define (Heap.Origin.texts hStart) hmid hd

theorem Declaring.derived (hStart : h.Coherent Start)
    (hv : ∀ s, rootSchema v = .ok s → h.Below Start s)
    (hname : ∃ key, name = .str key ∧ ¬ h.NamesClass Start "schemas" key)
    (hdeclare : Declaring h name v reg after) (hreg : Derived h Start reg) :
    Derived h Start after := by
  cases hdeclare with
  | skip hcompile hafter =>
    exact hafter.derived (compiling_value_derived hStart hv hcompile hreg)
  | define hcompile _ hcomponents =>
    obtain ⟨key, rfl, hfree⟩ := hname
    exact (compiling_value_derived hStart hv hcompile hreg).define hStart
      (hcompile.gives.origin hStart hv hfree).1 hcomponents

/-- A title that is no falsy value is one that a schema has. -/
theorem exists_title_of_truthy (htruthy : (titleOf schema).truthy = true) :
    ∃ title, schema.field? "title" = some title ∧ titleOf schema = title := by
  cases hfield : schema.field? "title" with
  | none =>
    rw [titleOf, hfield] at htruthy
    cases htruthy
  | some title => exact ⟨title, rfl, by rw [titleOf, hfield]; rfl⟩

/-- A schema is published under its title, so its title must be a text that names no class. -/
theorem Naming.derived (hStart : h.Coherent Start)
    (hv : ∀ s, rootSchema v = .ok s → h.Below Start s)
    (htitle : ∀ schema title, h.Gives v (some schema) → schema.field? "title" = some title →
      ∃ key, title = .str key ∧ ¬ h.NamesClass Start "schemas" key)
    (hnaming : Naming h v reg name after) (hreg : Derived h Start reg) : Derived h Start after := by
  have hunchanged : ∀ {mid : Registry} {schema : Value},
      Compiling h (h.compile v) reg (some schema) mid → after.components = mid.components →
        Derived h Start after := by
    intro mid schema hcompile heq
    rw [Derived, heq]
    exact compiling_value_derived hStart hv hcompile hreg
  cases hnaming with
  | seen => exact hreg
  | reference hcompile _ _ hcomponents => exact hunchanged hcompile hcomponents
  | shape hcompile _ _ _ hcomponents => exact hunchanged hcompile hcomponents
  | label hcompile _ _ _ _ _ _ _ hcomponents => exact hunchanged hcompile hcomponents
  | publish hcompile _ _ _ htruthy hname _ hcomponents =>
    obtain ⟨title, hfield, hvalue⟩ := exists_title_of_truthy htruthy
    obtain ⟨key, rfl, hfree⟩ := htitle _ title hcompile.gives hfield
    rw [hvalue] at hname
    cases hname
    exact (compiling_value_derived hStart hv hcompile hreg).define hStart
      (hcompile.gives.origin hStart hv hfree).2 hcomponents

end Registry

end WireShape
