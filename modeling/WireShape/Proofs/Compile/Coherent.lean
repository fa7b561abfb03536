import WireShape.Proofs.Compile.Componentised
import WireShape.Proofs.Compile.Merging
import WireShape.Proofs.Json.Expansion

/-!
# Classes that stand for one definition

A class is defined after everything that it refers to. Still a definition may come to refer to
itself: below a node there may be another one of its class, which is defined first and then written
over. Where the nodes of a class are registered with definitions of one text, writing over a
definition does not change what others expand to, so all definitions that a walk creates expand.

* `Heap.Coherent`: positions at which nodes of one class stand for one definition.
* `Heap.Coherent.sameShape`: the definitions of one class are of one shape.
* `Components.Unfolds`: definitions of classes that expand.
* `Walked.unfolds`: a walk creates such definitions.
* `Heap.Coherent.compiled`: what a value compiles to by itself expands.
-/

namespace WireShape

open Value (Fields SameShape Writable)

/-- The title of what a node is put together to holds no reference. -/
theorem Node.OwnsNoRefs.title_refFree {h : Heap} {n : Node} {kind : Kind}
    {outcomes whenOutcomes : List Compiled} {fields : Fields} {title : Value} (hn : n.OwnsNoRefs)
    (hfields : n.assemble h kind outcomes whenOutcomes = .ok fields)
    (htitle : OrderedMap.get? fields (.str "title") = some title) : title.RefFree := by
  rw [Node.title_of_assemble hn.literal_falsy hfields htitle]
  rcases n.flag_mem "label" with hnone | hsupplied
  · rw [hnone]
    exact Value.refersWithin_atom
  · exact hn.supplied _ hsupplied

namespace Heap

/-- A position at or below one of those at which walks start. -/
def Below (h : Heap) (Start : Schema → Prop) (t : Schema) : Prop := ∃ s, Start s ∧ h.Reaches s t

/-- The classes at two positions are registered with definitions of one text, each when it is
compiled by itself. -/
def RegistersAlike (h : Heap) (t u : Schema) (bucket name : String) : Prop :=
  ∃ d e text, h.Registers t bucket name d ∧ h.Registers u bucket name e ∧
    Json.write Json.compact Json.refuse d = .ok text ∧
      Json.write Json.compact Json.refuse e = .ok text

/-- Walks that meet neither literal schemas nor references of nodes nor classes that are forbidden.
All values are known to JSON, classes are named by text, and any two of them that have one name and
are not overridden stand for one definition. -/
structure Coherent (h : Heap) (Start : Schema → Prop) : Prop where
  allowed : ∀ t, h.Below Start t → (h.view t).className.truthy = true →
    (h.view t).isForbidden = false
  named : ∀ t, h.Below Start t → (h.view t).className.truthy = true → ∃ bucket name : String,
    (h.view t).classBucket = .str bucket ∧ (h.view t).className = .str name ∧ '/' ∉ bucket.toList
  alike : ∀ t u bucket name, h.Below Start t → h.Below Start u → t ≠ u →
    (h.view t).override.isNull = true → (h.view u).override.isNull = true →
      (h.view t).class? = .ok (some (.str bucket, .str name)) →
        (h.view u).class? = .ok (some (.str bucket, .str name)) → h.RegistersAlike t u bucket name
  ownsNoRefs : ∀ t, h.Below Start t → (h.view t).OwnsNoRefs
  suppliesJson : ∀ t, h.Below Start t → (h.view t).SuppliesJson

variable {h : Heap} {Start : Schema → Prop} {s t u : Schema} {bucket name : String} {b n : Atom}
  {d e : Value}

theorem Below.start (hs : Start s) : h.Below Start s := ⟨s, hs, .refl⟩

theorem Below.reaches (hs : h.Below Start s) (ht : h.Reaches s t) : h.Below Start t := by
  obtain ⟨root, hroot, hreaches⟩ := hs
  exact ⟨root, hroot, hreaches.trans ht⟩

theorem Below.holds (hs : h.Below Start s) (ht : h.Holds s t) : h.Below Start t :=
  hs.reaches (.single ht)

/-! ## The definition of a class -/

/-- A class is registered with its definition. -/
theorem Registers.defines (hd : h.Registers s bucket name d) (hs : h.NoForbiddenClass s) :
    h.Defines s (.str bucket) (.str name) d := by
  obtain ⟨hoverride, hclass, r, after, hrun, hfound⟩ := hd
  have hfinal : ∀ {ctx : Context} {schema : Value},
      Finish h schema ctx (some (.str bucket, .str name)) r after → schema = d := by
    intro ctx schema hfinish
    cases hfinish
    exact Option.some.inj (Components.find?_define_self.symm.trans hfound)
  cases (walked_of_runs hrun).step with
  | override hnot => exact absurd (hnot.symm.trans hoverride) Bool.false_ne_true
  | literal _ hliteral hclass' hfinish =>
    cases hclass.symm.trans hclass'
    obtain rfl := hfinal hfinish
    exact .literal hoverride hliteral hclass
  | known _ _ _ hhas => cases hhas
  | forbidden _ _ _ _ hforbidden =>
    have hallowed := hs s .refl (class?_eq_ok_some_iff.mp hclass).1
    exact absurd (hallowed.symm.trans hforbidden) Bool.false_ne_true
  | compiled _ hliteral hclass' _ hallowed _ hkind hparts hwhens hfields hfinish =>
    cases hclass.symm.trans hclass'
    obtain rfl := hfinal hfinish
    exact .compiled hoverride hliteral hclass hallowed hkind hparts hwhens hfields

/-- The definition of a class whose parts supply standard values is standard. -/
theorem Defines.standard (hd : h.Defines s b n d) (hs : h.SuppliesJson s) : d.IsStandard := by
  cases hd with
  | literal => exact (hs s .refl).literal
  | compiled _ hliteral _ _ _ hparts hwhens hfields =>
    exact (hs s .refl).assemble hliteral
      (hparts.forall_outcomes fun t ht _ _ _ hr => hr.standard (hs.below (.inl (Kind.mem_parts ht))))
      (hwhens.forall_outcomes fun t ht _ _ _ hr =>
        hr.standard (hs.below (.inl (Node.mem_whenParts ht)))) hfields

/-- The title of a class is no reference and holds none. -/
theorem Defines.title_refFree (hd : h.Defines s b n d) (hs : (h.view s).OwnsNoRefs) {t : Value}
    (ht : d.field? "title" = some t) : t.RefFree := by
  cases hd with
  | literal _ hliteral => exact absurd (hs.not_literal.symm.trans hliteral) Bool.false_ne_true
  | compiled _ _ _ _ _ _ _ hfields => exact hs.title_refFree hfields ht

namespace Coherent

theorem noForbiddenClass (hStart : h.Coherent Start) (hs : h.Below Start s) :
    h.NoForbiddenClass s := fun t ht => hStart.allowed t (hs.reaches ht)

theorem namedByText (hStart : h.Coherent Start) (hs : h.Below Start s) : h.NamedByText s :=
  fun t ht => hStart.named t (hs.reaches ht)

theorem standard (hStart : h.Coherent Start) (hs : h.Below Start s) : h.SuppliesJson s :=
  fun t ht => hStart.suppliesJson t (hs.reaches ht)

theorem defines_writable (hStart : h.Coherent Start) (hs : h.Below Start s)
    (hd : h.Defines s b n d) : d.Writable := (hd.standard (hStart.standard hs)).writable

/-- The definitions of one class are of one shape. -/
theorem sameShape (hStart : h.Coherent Start) (ht : h.Below Start t) (hu : h.Below Start u)
    (hd : h.Defines t (.str bucket) (.str name) d) (he : h.Defines u (.str bucket) (.str name) e) :
    d.SameShape e := by
  have hwritable := hStart.defines_writable ht hd
  by_cases hsame : t = u
  · subst hsame
    obtain rfl := hd.unique (hStart.noForbiddenClass ht) he
    exact hwritable.sameShape_refl
  · obtain ⟨d', e', text, hd', he', hdtext, hetext⟩ := hStart.alike t u bucket name ht hu hsame
      hd.override_isNull he.override_isNull hd.class? he.class?
    obtain rfl := (hd'.defines (hStart.noForbiddenClass ht)).unique (hStart.noForbiddenClass ht) hd
    obtain rfl := (he'.defines (hStart.noForbiddenClass hu)).unique (hStart.noForbiddenClass hu) he
    exact (Json.write_eq_iff hwritable (hStart.defines_writable hu he)).mp
      (hdtext.trans hetext.symm)

end Coherent

end Heap

/-! ## Definitions that expand -/

namespace Components

/-- Definitions of classes all of whose references are to definitions that expand. -/
structure Unfolds (h : Heap) (Start : Schema → Prop) (c : Components) : Prop where
  orderly : c.Orderly
  closed : c.RefersWithin (c.Resolves h.describe)
  defined : ∀ bucket name d, c.lookup bucket name = some d →
    ∃ t, h.Below Start t ∧ h.Defines t (.str bucket) (.str name) d
  leads : ∀ target, c.Resolves h.describe target → c.lookup.Leads target

variable {h : Heap} {Start : Schema → Prop} {c : Components} {s : Schema} {bucket name : String}
  {d : Value}

theorem Unfolds.nil : Unfolds h Start [] :=
  ⟨.nil, fun _ hb => (by cases hb), fun _ _ _ hd => (by cases hd),
    fun _ ⟨_, _, _, _, ⟨_, hb, _⟩, _⟩ => by cases hb⟩

theorem Unfolds.writable (hc : c.Unfolds h Start) (hStart : h.Coherent Start) :
    c.lookup.Having Writable := by
  intro bucket name d hd
  obtain ⟨t, ht, hdefines⟩ := hc.defined bucket name d hd
  exact hStart.defines_writable ht hdefines

theorem Resolves.define {describe : Describe} {target : String} {b n : Atom}
    (h : c.Resolves describe target) : (c.define b n d).Resolves describe target := by
  obtain ⟨b', n', place, what, hn, hrest⟩ := h
  exact ⟨b', n', place, what, hn.define, hrest⟩

/-- What is looked up after one more definition was there before, or is the new one. -/
theorem lookup_define_cases {b n : String} {e : Value}
    (he : (c.define (.str bucket) (.str name) d).lookup b n = some e) :
    c.lookup b n = some e ∨ e = d ∧ b = bucket ∧ n = name := by
  rcases found_of_define he with hold | ⟨rfl, hb, hn⟩
  · exact .inl hold
  · exact .inr ⟨rfl, Atom.str.inj (Atom.str_beq_iff.mp hb), Atom.str.inj (Atom.str_beq_iff.mp hn)⟩

/-- What could be looked up can be looked up after one more definition. -/
theorem exists_lookup_define {b n : String} {e : Value} (he : c.lookup b n = some e) :
    ∃ e', (c.define (.str bucket) (.str name) d).lookup b n = some e' := by
  unfold lookup
  rw [find?_define]
  split
  · exact ⟨d, rfl⟩
  · exact ⟨e, he⟩

section Define

variable (hc : c.Unfolds h Start) (hStart : h.Coherent Start) (hs : h.Below Start s)
  (hd : h.Defines s (.str bucket) (.str name) d)
include hc hs hd

theorem Unfolds.defined_define {b n : String} {e : Value}
    (he : (c.define (.str bucket) (.str name) d).lookup b n = some e) :
    ∃ t, h.Below Start t ∧ h.Defines t (.str b) (.str n) e := by
  rcases lookup_define_cases he with hold | ⟨rfl, rfl, rfl⟩
  · exact hc.defined b n e hold
  · exact ⟨s, hs, hd⟩

include hStart

/-- Where a reference leads to another definition after one more has been written, it is one of the
same class. -/
theorem Unfolds.agree_define (hrefs : d.RefersWithin (c.Resolves h.describe)) :
    LookupsAgree SameShape (c.Resolves h.describe) c.lookup
      (c.define (.str bucket) (.str name) d).lookup := by
  intro target _ b n e _ he
  obtain ⟨t, ht, hdefines⟩ := hc.defined b n e he
  obtain ⟨e', he'⟩ : ∃ e', (c.define (.str bucket) (.str name) d).lookup b n = some e' :=
    exists_lookup_define he
  obtain ⟨t', ht', hdefines'⟩ := hc.defined_define hs hd he'
  refine ⟨e', he', hStart.sameShape ht' ht hdefines' hdefines, ?_⟩
  rcases lookup_define_cases he' with hold | ⟨rfl, _⟩
  · exact hc.closed.found hold
  · exact hrefs

/-- One more definition of a class, or one that is written over an old one, leaves definitions that
expand. -/
theorem Unfolds.define (hslash : '/' ∉ bucket.toList) (hmap : d.isMap = true)
    (hrefs : d.RefersWithin (c.Resolves h.describe)) :
    (c.define (.str bucket) (.str name) d).Unfolds h Start := by
  have horderly : (c.define (.str bucket) (.str name) d).Orderly := hc.orderly.define hslash
  have hwritable : (c.define (.str bucket) (.str name) d).lookup.Having Writable := by
    intro b n e he
    obtain ⟨t, ht, hdefines⟩ := hc.defined_define hs hd he
    exact hStart.defines_writable ht hdefines
  refine ⟨horderly, (hc.closed.mono fun _ => Resolves.define).define hmap
    (hrefs.mono fun _ => Resolves.define), fun _ _ _ => hc.defined_define hs hd, ?_⟩
  -- A definition expands by the old definitions, and so it does by the new ones, which are like them.
  intro target htarget b n hsplit
  obtain ⟨b', n', e, hsplit', he⟩ := horderly.find htarget
  cases hsplit.symm.trans hsplit'
  have hewritable := hwritable b n e he
  obtain ⟨hemap, herefs⟩ : e.isMap = true ∧ e.RefersWithin (c.Resolves h.describe) := by
    rcases lookup_define_cases he with hold | ⟨rfl, _⟩
    · exact ⟨hc.closed.found_isMap hold, hc.closed.found hold⟩
    · exact ⟨hmap, hrefs⟩
  obtain ⟨depth, u, hu, humap⟩ := hewritable.expands (herefs.mono hc.leads)
  obtain ⟨u', hu', hlike⟩ := expandWithin_like likeness_sameShape (hc.writable hStart).proper
    hwritable.proper (hc.agree_define hStart hs hd hrefs) hewritable.proper hewritable.proper herefs
    hewritable.sameShape_refl hu
  obtain ⟨ds, i, rfl⟩ := Value.exists_map_of_isMap
    ((likeness_sameShape.isMap hlike).trans (humap.trans hemap))
  exact ⟨e, depth, ds, i, he, hu'⟩

end Define

end Components

section Walks

variable {h : Heap} {Start : Schema → Prop} {s : Schema} {overriding : Bool} {ctx after : Context}
  {r : Compiled} {v : Value}

/-- Where nothing is known beforehand, what a walk creates expands. -/
theorem Walked.unfolds (hStart : h.Coherent Start) (hrun : Walked h s overriding ctx r after)
    (hs : h.Below Start s) (hknown : ctx.known = []) (hctx : ctx.created.Unfolds h Start) :
    after.created.Unfolds h Start := by
  revert hs hknown hctx
  refine hrun.induct (P := fun s _ ctx _ after => h.Below Start s → ctx.known = [] →
    ctx.created.Unfolds h Start → after.created.Unfolds h Start) ?_
  intro s overriding ctx r after hstep hs hknown hctx
  cases hstep with
  | override _ ht hr => exact hr.2 (hs.holds (.inr ht)) hknown hctx
  | literal _ hliteral =>
    exact absurd ((hStart.ownsNoRefs s hs).not_literal.symm.trans hliteral) Bool.false_ne_true
  | known => exact hctx
  | forbidden => exact hctx
  | @compiled _ _ _ _ _ _ _ middle inner _ _ hoverride hliteral hclass _ hallowed _ hkind hparts
      hwhens hfields hfinish =>
    have hpart : ∀ {t : Schema}, t ∈ (h.view s).parts → h.Below Start t :=
      fun ht => hs.holds (.inl ht)
    have hinner : inner.known = [] ∧ inner.created.Unfolds h Start := by
      refine hwhens.preserves (I := fun later : Context =>
        later.known = [] ∧ later.created.Unfolds h Start) ?_ ?_
      · exact fun t ht _ _ _ hr hI => ⟨hr.1.extends.known.trans hI.1,
          hr.2 (hpart (Node.mem_whenParts ht)) hI.1 hI.2⟩
      · refine hparts.preserves (I := fun later : Context =>
          later.known = [] ∧ later.created.Unfolds h Start) ?_ ?_
        · exact fun t ht _ _ _ hr hI => ⟨hr.1.extends.known.trans hI.1,
            hr.2 (hpart (Kind.mem_parts ht)) hI.1 hI.2⟩
        · cases s <;> exact ⟨hknown, hctx⟩
    cases hfinish with
    | plain =>
      rw [Context.created_leaveAt]
      exact hinner.2
    | define =>
      obtain ⟨bucket, name, hkey, hslash⟩ := (hStart.namedByText hs).class_eq .refl hclass
      cases hkey
      have hclosed : (ctx.enterAt s).Closed h.describe := by
        refine Context.closed_enterAt (hctx.closed.mono fun t ht => .inl ht)
      obtain ⟨_, hschema⟩ := Chain.assemble_closed (hStart.ownsNoRefs s hs)
        (fun t ht _ _ _ hr => ⟨hr.1.extends,
          hr.1.closed fun u hu => hStart.ownsNoRefs u ((hpart ht).reaches hu)⟩)
        hparts hwhens hfields hclosed
      have hdefines : h.Defines s (.str bucket) (.str name) _ :=
        .compiled hoverride hliteral hclass hallowed hkind (hparts.mono fun _ _ _ _ _ hr => hr.1)
          (hwhens.mono fun _ _ _ _ _ hr => hr.1) hfields
      show ((inner.leaveAt s).created.define _ _ _).Unfolds h Start
      rw [Context.created_leaveAt]
      refine hinner.2.define hStart hs hdefines hslash hschema.isMap (hschema.within.mono ?_)
      rintro t (hcreated | ⟨_, _, _, _, ⟨_, hmem, _⟩, _⟩)
      · exact hcreated
      · rw [hinner.1] at hmem
        cases hmem

/-- The title of what a walk ends with holds no reference. -/
theorem Walked.title_refFree (hrun : Walked h s overriding ctx r after)
    (hnodes : ∀ t, h.Reaches s t → (h.view t).OwnsNoRefs) {schema title : Value}
    (hr : r = some schema) (htitle : schema.field? "title" = some title) : title.RefFree := by
  revert hnodes hr
  refine hrun.induct (P := fun s _ _ r _ => (∀ t, h.Reaches s t → (h.view t).OwnsNoRefs) →
    r = some schema → title.RefFree) ?_
  have hreference : ∀ {place what : String}, reference place what ≠ schema := by
    rintro place what rfl
    cases htitle
  intro s overriding ctx r after hstep hnodes hr
  cases hstep with
  | override _ ht hr' => exact hr'.2 (fun t hreach => hnodes t (.head (.inr ht) hreach)) hr
  | literal _ hliteral =>
    exact absurd ((hnodes s .refl).not_literal.symm.trans hliteral) Bool.false_ne_true
  | known => exact absurd (Option.some.inj hr) hreference
  | forbidden => cases hr
  | compiled _ _ _ _ _ _ _ _ _ hfields hfinish =>
    cases hfinish with
    | plain =>
      obtain rfl := Option.some.inj hr
      exact (hnodes s .refl).title_refFree hfields htitle
    | define => exact absurd (Option.some.inj hr) hreference

/-- What a value compiles to by itself has references to definitions that come with it, and these
expand. -/
structure CompiledSchema.Unfolds (h : Heap) (Start : Schema → Prop) (c : CompiledSchema) : Prop where
  components : c.components.Unfolds h Start
  isMap : c.schema.isMap = true
  standard : c.schema.IsStandard
  within : c.schema.RefersWithin (c.components.Resolves h.describe)

/-- What a value compiles to by itself expands. -/
theorem Heap.Coherent.compiled (hStart : h.Coherent Start) (hv : rootSchema v = .ok s)
    (hs : h.Below Start s) {c : CompiledSchema}
    (hc : (h.compileAgainst [] v).1 = .ok (some c)) : c.Unfolds h Start := by
  obtain ⟨r, after, hrun, hr⟩ := compileAgainst_eq_ok_iff.mp hc
  obtain ⟨s', hs', hrun⟩ := runs_compile_iff.mp hrun
  cases hv.symm.trans hs'
  obtain ⟨schema, rfl, heq⟩ := Option.map_eq_some_iff.mp hr.symm
  cases heq
  have hwalked := walked_of_runs hrun
  have hnodes : ∀ t, h.Reaches s t → (h.view t).OwnsNoRefs :=
    fun t ht => hStart.ownsNoRefs t (hs.reaches ht)
  obtain ⟨_, houtcome⟩ := hwalked.closed hnodes fun _ hb => (by cases hb)
  exact ⟨hwalked.unfolds hStart hs rfl .nil, (houtcome schema rfl).isMap,
    hwalked.standard (hStart.standard hs) schema rfl, (hwalked.resolves hnodes).2 schema rfl⟩

theorem CompiledSchema.Unfolds.expands {c : CompiledSchema} (hc : c.Unfolds h Start) :
    ∃ depth u, expandWithin c.components.lookup depth c.schema = some u := by
  obtain ⟨depth, u, hu, _⟩ := hc.standard.writable.expands (hc.within.mono hc.components.leads)
  exact ⟨depth, u, hu⟩

end Walks

end WireShape
