import WireShape.Proofs.Compile.References
import WireShape.Proofs.Registry.Steps

/-!
# References in a registry

The names that a registry hands out are names under which something is defined, and what is defined
refers only to what is defined. Every step keeps this, because no name is ever lost.

* `Registry.Closed`: the invariant.
* `Compiling.closed`, `Declaring.closed`, `Naming.closed`: the steps keep it.
-/

namespace WireShape

/-- Nothing that a value stands for brings a reference of its own. -/
def Heap.OwnsNoRefs (h : Heap) (v : Value) : Prop :=
  ∀ s t, Schema.ofValue v = .ok s → h.Reaches s t → (h.view t).OwnsNoRefs

/-- If no node of the heap brings a reference, nothing does. -/
theorem Heap.ownsNoRefs_of_nodes {h : Heap} (hnodes : ∀ n ∈ h.nodes, n.OwnsNoRefs) (v : Value) :
    h.OwnsNoRefs v := by
  intro _ t _ _
  exact Heap.forall_view hnodes (fun _ _ => ⟨rfl, fun _ hv => by cases hv⟩) t

theorem ofValue_of_rootSchema {v : Value} {s : Schema} (h : rootSchema v = .ok s) :
    Schema.ofValue v = .ok s := by
  unfold rootSchema at h
  split at h
  · cases h
  · exact h

namespace Registry

/-- No name is lost. -/
def Grows (reg after : Registry) : Prop :=
  ∀ b n, reg.components.Names b n → after.components.Names b n

/-- The path of a schema of a name leads to a definition. -/
def Offers (describe : Describe) (reg : Registry) (name : Atom) : Prop :=
  ∀ what, name.display describe = .ok what →
    reg.components.Resolves describe (bucketPath "schemas" ++ what)

/-- All references are to definitions, and so are all names that have been given. -/
structure Closed (describe : Describe) (reg : Registry) : Prop where
  components : reg.components.RefersWithin (reg.components.Resolves describe)
  byIdentity : ∀ e ∈ reg.byIdentity, reg.Offers describe e.2
  byShape : ∀ e ∈ reg.byShape, reg.Offers describe e.2

variable {describe : Describe} {h : Heap} {reg mid after : Registry} {v : Value} {name : Atom}

theorem Grows.refl : reg.Grows reg := fun _ _ hn => hn

theorem Grows.trans (h₁ : reg.Grows mid) (h₂ : mid.Grows after) : reg.Grows after :=
  fun b n hn => h₂ b n (h₁ b n hn)

theorem Grows.of_components (heq : after.components = reg.components) : reg.Grows after := by
  intro b n hn
  rw [heq]
  exact hn

theorem Grows.of_define {b n : Atom} {schema : Value}
    (heq : after.components = reg.components.define b n schema) : reg.Grows after := by
  intro b' n' hn
  rw [heq]
  exact hn.define

theorem Grows.resolves (hgrows : reg.Grows after) {t : String}
    (ht : reg.components.Resolves describe t) : after.components.Resolves describe t := by
  obtain ⟨b, n, place, what, hn, hrest⟩ := ht
  exact ⟨b, n, place, what, hgrows b n hn, hrest⟩

theorem Offers.mono (hgrows : reg.Grows after) (hoffers : reg.Offers describe name) :
    after.Offers describe name := fun what hwhat => hgrows.resolves (hoffers what hwhat)

theorem offers_of_names (hn : reg.components.Names (.str "schemas") name) :
    reg.Offers describe name :=
  fun what hwhat => ⟨.str "schemas", name, "schemas", what, hn, rfl, hwhat, rfl⟩

theorem names_of_definition? {b n : Atom} {schema : Value}
    (hdef : reg.definition? b n = some schema) : reg.components.Names b n := by
  refine Components.names_of_contains ?_
  unfold definition? at hdef
  unfold Components.contains OrderedMap.contains
  split at hdef
  · cases hdef
  · rw [hdef]
    rfl

/-- Names that have been given stay good when more is defined. -/
theorem Closed.transfer (hreg : reg.Closed describe) (hgrows : reg.Grows after)
    (hcomponents : after.components.RefersWithin (after.components.Resolves describe))
    (hidentity : after.byIdentity = reg.byIdentity) (hshape : after.byShape = reg.byShape) :
    after.Closed describe := by
  refine ⟨hcomponents, ?_, ?_⟩
  · rw [hidentity]
    exact fun e he => (hreg.byIdentity e he).mono hgrows
  · rw [hshape]
    exact fun e he => (hreg.byShape e he).mono hgrows

theorem SameData.closed (hsame : after.SameData reg) (hreg : reg.Closed describe) :
    after.Closed describe := by
  refine hreg.transfer (Grows.of_components hsame.components) ?_ hsame.byIdentity hsame.byShape
  rw [hsame.components]
  exact hreg.components

/-- A name that is offered may be remembered by identity. -/
theorem bound_offers (hall : ∀ e ∈ mid.byIdentity, after.Offers describe e.2)
    (hname : after.Offers describe name) : ∀ e ∈ mid.bound v name, after.Offers describe e.2 := by
  unfold bound
  cases v.identity? with
  | none => exact hall
  | some identity =>
    intro e he
    rcases OrderedMap.mem_insert he with hold | ⟨hvalue, _⟩
    · exact hall e hold
    · rw [hvalue]
      exact hname

theorem insert_offers {shape : String} (hall : ∀ e ∈ mid.byShape, after.Offers describe e.2)
    (hname : after.Offers describe name) :
    ∀ e ∈ mid.byShape.insert shape name, after.Offers describe e.2 := by
  intro e he
  rcases OrderedMap.mem_insert he with hold | ⟨hvalue, _⟩
  · exact hall e hold
  · rw [hvalue]
    exact hname

/-- A name that leads to a definition may be given. -/
theorem Closed.give (hmid : mid.Closed describe) (hlater : mid.Grows after)
    (hcomponents : after.components.RefersWithin (after.components.Resolves describe))
    (hoffers : after.Offers describe name) (hidentity : after.byIdentity = mid.bound v name)
    (hshape : after.byShape = mid.byShape ∨
      ∃ shape, after.byShape = mid.byShape.insert shape name) : after.Closed describe := by
  refine ⟨hcomponents, ?_, ?_⟩
  · rw [hidentity]
    exact bound_offers (fun e he => (hmid.byIdentity e he).mono hlater) hoffers
  · rcases hshape with heq | ⟨shape, heq⟩
    · rw [heq]
      exact fun e he => (hmid.byShape e he).mono hlater
    · rw [heq]
      exact insert_offers (fun e he => (hmid.byShape e he).mono hlater) hoffers

/-- Definitions stay closed when a closed schema is defined. -/
theorem Closed.define {b n : Atom} {schema : Value} (hmid : mid.Closed describe)
    (heq : after.components = mid.components.define b n schema) (hmap : schema.isMap = true)
    (hschema : schema.RefersWithin (mid.components.Resolves describe)) :
    after.components.RefersWithin (after.components.Resolves describe) := by
  have hlater : mid.Grows after := .of_define heq
  have hdefs : mid.components.RefersWithin (after.components.Resolves describe) :=
    hmid.components.mono fun t => hlater.resolves
  have hdefine := hdefs.define (b := b) (n := n) hmap (hschema.mono fun t => hlater.resolves)
  rw [← heq] at hdefine
  exact hdefine

theorem Closed.unchanged (hmid : mid.Closed describe) (heq : after.components = mid.components) :
    after.components.RefersWithin (after.components.Resolves describe) := by
  rw [heq]
  exact hmid.components

/-! ## Merging -/

theorem openBucket_cases {b : Atom} {i : Unit} (hrun : Runs (openBucket b) reg i after) :
    after.byIdentity = reg.byIdentity ∧ after.byShape = reg.byShape ∧
      (after.components = reg.components ∨ after.components = reg.components ++ [(b, [])]) := by
  have hafter := runs_openBucket_iff.mp hrun
  split at hafter
  · rw [hafter]
    exact ⟨rfl, rfl, .inl rfl⟩
  · rw [hafter]
    exact ⟨rfl, rfl, .inr rfl⟩

theorem openBucket_grows {b : Atom} {i : Unit} (hrun : Runs (openBucket b) reg i after) :
    reg.Grows after := by
  obtain ⟨_, _, heq | heq⟩ := openBucket_cases hrun
  · exact .of_components heq
  · rintro b' n' ⟨bucket, hbucket, hrest⟩
    rw [heq]
    exact ⟨bucket, List.mem_append_left _ hbucket, hrest⟩

theorem Adding.grows {b n : Atom} {schema : Value} (hadd : Adding h b n schema reg after) :
    reg.Grows after := by
  cases hadd with
  | new => exact .of_define rfl
  | old => exact .refl

theorem Adding.names {b n : Atom} {schema : Value} (hadd : Adding h b n schema reg after) :
    after.components.Names b n := by
  cases hadd with
  | new => exact Components.names_define_self
  | old hsome => exact names_of_definition? hsome

/-- Merging keeps what is defined and adds what has been created. -/
theorem merge_grows {created : Components} {i : Unit} (hrun : Runs (merge h created) reg i after) :
    reg.Grows after := by
  refine runs_merge_preserves (I := fun later => reg.Grows later) hrun ?_ ?_ .refl
  · exact fun _ _ _ _ _ hopen hgrows => hgrows.trans (openBucket_grows hopen)
  · exact fun _ _ _ _ _ _ hadd hgrows => hgrows.trans hadd.grows

theorem merge_names {created : Components} {i : Unit} (hrun : Runs (merge h created) reg i after)
    {b n : Atom} (hn : created.Names b n) : after.components.Names b n := by
  have hall : ∀ bucket ∈ created, ∀ entry ∈ bucket.2,
      after.components.Names bucket.1 entry.1 := by
    refine runs_merge_each (P := fun b n later => later.components.Names b n) hrun ?_ ?_ ?_
    · exact fun b _ _ _ hopen b' n' hn => openBucket_grows hopen b' n' hn
    · exact fun _ _ _ _ _ hadd b' n' hn => hadd.grows b' n' hn
    · exact fun _ _ _ _ _ hadd => hadd.names
  obtain ⟨bucket, hbucket, hb, entry, hentry, hn⟩ := hn
  exact (hall bucket hbucket entry hentry).congr hb hn

theorem merge_refersWithin {created : Components} {i : Unit} {R : String → Prop}
    (hrun : Runs (merge h created) reg i after) (hcreated : created.RefersWithin R)
    (hreg : reg.components.RefersWithin R) : after.components.RefersWithin R := by
  refine runs_merge_preserves (I := fun later => later.components.RefersWithin R) hrun ?_ ?_ hreg
  · intro bucket _ reg _ after hopen hreg
    obtain ⟨_, _, heq | heq⟩ := openBucket_cases hopen
    · rw [heq]
      exact hreg
    · rw [heq]
      intro bucket hbucket
      rcases List.mem_append.mp hbucket with hold | hnew
      · exact hreg bucket hold
      · obtain rfl := List.mem_singleton.mp hnew
        exact fun _ hentry => by cases hentry
  · intro bucket hbucket entry hentry reg after hadd hreg
    obtain ⟨hmap, hwithin⟩ := hcreated bucket hbucket entry hentry
    cases hadd with
    | new => exact hreg.define hmap hwithin
    | old => exact hreg

theorem merge_bindings {created : Components} {i : Unit}
    (hrun : Runs (merge h created) reg i after) :
    after.byIdentity = reg.byIdentity ∧ after.byShape = reg.byShape := by
  refine runs_merge_preserves
    (I := fun later => later.byIdentity = reg.byIdentity ∧ later.byShape = reg.byShape) hrun ?_ ?_
    ⟨rfl, rfl⟩
  · intro bucket _ reg' _ after' hopen hreg
    obtain ⟨hidentity, hshape, _⟩ := openBucket_cases hopen
    exact ⟨hidentity.trans hreg.1, hshape.trans hreg.2⟩
  · intro bucket _ entry _ reg' after' hadd hreg
    cases hadd with
    | new => exact hreg
    | old => exact hreg

/-! ## Steps -/

/-- A walk that starts from a closed registry ends in one that defines all it refers to. -/
theorem Compiling.closed {walk : Walk Compiled} {r : Compiled} (hcompile : Compiling h walk reg r after)
    (hwalk : ∀ ctx ctx' r, Runs walk ctx r ctx' → ctx.Closed h.describe →
      ctx'.Closed h.describe ∧ OutcomeClosed h.describe ctx' r ∧ ctx'.known = ctx.known)
    (hreg : reg.Closed h.describe) : after.Closed h.describe ∧ reg.Grows after ∧
      ∀ schema, r = some schema → SchemaWithin (after.components.Resolves h.describe) schema := by
  obtain @⟨ctx, logged, _, hrun, hlogged, hmerge⟩ := hcompile
  have hstart : Context.Closed h.describe { known := reg.components } :=
    fun _ hbucket => by cases hbucket
  obtain ⟨hctx, houtcome, hknown⟩ := hwalk _ _ _ hrun hstart
  have hgrows : reg.Grows after :=
    (Grows.of_components hlogged.components).trans (merge_grows hmerge)
  have hresolves : ∀ t, ctx.Resolves h.describe t → after.components.Resolves h.describe t := by
    rintro t (⟨b, n, place, what, hn, hrest⟩ | hold)
    · exact ⟨b, n, place, what, merge_names hmerge hn, hrest⟩
    · rw [hknown] at hold
      exact hgrows.resolves hold
  obtain ⟨hidentity, hshape⟩ := merge_bindings hmerge
  refine ⟨hreg.transfer hgrows ?_ (hidentity.trans hlogged.byIdentity)
    (hshape.trans hlogged.byShape), hgrows, fun schema hr => (houtcome schema hr).mono hresolves⟩
  refine merge_refersWithin hmerge (hctx.mono hresolves) ?_
  rw [hlogged.components]
  exact hreg.components.mono fun t => hgrows.resolves

theorem runs_compileSchema_closed {s : Schema} {ctx ctx' : Context} {r : Compiled}
    (hrun : Runs (h.compileSchema s) ctx r ctx')
    (hnodes : ∀ t, h.Reaches s t → (h.view t).OwnsNoRefs) (hctx : ctx.Closed h.describe) :
    ctx'.Closed h.describe ∧ OutcomeClosed h.describe ctx' r ∧ ctx'.known = ctx.known := by
  have hwalked : Walked h s false ctx r ctx' := ⟨_, hrun⟩
  obtain ⟨hctx', houtcome⟩ := hwalked.closed hnodes hctx
  exact ⟨hctx', houtcome, hwalked.extends.known⟩

theorem runs_compile_closed {ctx ctx' : Context} {r : Compiled}
    (hrun : Runs (h.compile v) ctx r ctx') (hnodes : h.OwnsNoRefs v)
    (hctx : ctx.Closed h.describe) :
    ctx'.Closed h.describe ∧ OutcomeClosed h.describe ctx' r ∧ ctx'.known = ctx.known := by
  obtain ⟨s, hs, hrun⟩ := runs_compile_iff.mp hrun
  exact runs_compileSchema_closed hrun (fun t => hnodes s t (ofValue_of_rootSchema hs)) hctx

theorem compiling_value_closed {r : Compiled} (hcompile : Compiling h (h.compile v) reg r after)
    (hnodes : h.OwnsNoRefs v) (hreg : reg.Closed h.describe) :
    after.Closed h.describe ∧ reg.Grows after ∧
      ∀ schema, r = some schema → SchemaWithin (after.components.Resolves h.describe) schema :=
  hcompile.closed (fun _ _ _ hrun => runs_compile_closed hrun hnodes) hreg

theorem Declaring.closed (hdeclare : Declaring h name v reg after) (hnodes : h.OwnsNoRefs v)
    (hreg : reg.Closed h.describe) : after.Closed h.describe ∧ reg.Grows after := by
  cases hdeclare with
  | @skip mid hcompile hsame =>
    obtain ⟨hmid, hgrows, _⟩ := compiling_value_closed hcompile hnodes hreg
    exact ⟨hsame.closed hmid, hgrows.trans (.of_components hsame.components)⟩
  | @define mid schema shape hcompile _ hcomponents hidentity hshape =>
    obtain ⟨hmid, hgrows, hschema⟩ := compiling_value_closed hcompile hnodes hreg
    have hlater : mid.Grows after := .of_define hcomponents
    have hoffers : after.Offers h.describe name := by
      refine offers_of_names ?_
      rw [hcomponents]
      exact Components.names_define_self
    have hdefs := hmid.define hcomponents (hschema schema rfl).isMap (hschema schema rfl).within
    exact ⟨hmid.give hlater hdefs hoffers hidentity (.inr ⟨shape, hshape⟩), hgrows.trans hlater⟩

theorem withoutTitle_within {R : String → Prop} {schema : Value} (hschema : SchemaWithin R schema) :
    (Json.withoutTitle schema).isMap = true ∧ (Json.withoutTitle schema).RefersWithin R := by
  cases schema with
  | map es identity =>
    refine ⟨rfl, Value.refersWithin_map_iff.mpr ?_⟩
    intro e he
    exact Value.refersWithin_map_iff.mp hschema.within e (List.mem_of_mem_filter he)
  | _ => cases hschema.isMap

/-- Every name that is chosen leads to a definition. -/
theorem Naming.closed (hnaming : Naming h v reg name after) (hnodes : h.OwnsNoRefs v)
    (hreg : reg.Closed h.describe) :
    after.Closed h.describe ∧ reg.Grows after ∧ after.Offers h.describe name := by
  cases hnaming with
  | seen hseen =>
    obtain ⟨identity, _, hget⟩ := Option.bind_eq_some_iff.mp hseen
    obtain ⟨_, hmem, _⟩ := OrderedMap.mem_of_get? hget
    exact ⟨hreg, .refl, hreg.byIdentity _ hmem⟩
  | @reference mid _ schema target _ hcompile hreference hname hcomponents hidentity hshape =>
    obtain ⟨hmid, hgrows, hschema⟩ := compiling_value_closed hcompile hnodes hreg
    have hlater : mid.Grows after := .of_components hcomponents
    have hoffers : after.Offers h.describe name := by
      intro what hwhat
      obtain ⟨rest, rfl, identity, rfl⟩ := referenceName?_eq_some hreference
      cases hname
      cases hwhat
      exact hlater.resolves ((hschema _ rfl).within _ (.here List.mem_cons_self))
    exact ⟨hmid.give hlater (hmid.unchanged hcomponents) hoffers hidentity (.inl hshape),
      hgrows.trans hlater, hoffers⟩
  | @shape mid _ schema shape _ hcompile _ _ hknown hcomponents hidentity hshape =>
    obtain ⟨hmid, hgrows, _⟩ := compiling_value_closed hcompile hnodes hreg
    have hlater : mid.Grows after := .of_components hcomponents
    obtain ⟨_, hmem, _⟩ := OrderedMap.mem_of_get? hknown
    have hoffers : after.Offers h.describe name := (hmid.byShape _ hmem).mono hlater
    exact ⟨hmid.give hlater (hmid.unchanged hcomponents) hoffers hidentity (.inl hshape),
      hgrows.trans hlater, hoffers⟩
  | @label mid _ schema existing shape _ hcompile _ _ _ _ _ hexisting _ hcomponents hidentity
      hshape =>
    obtain ⟨hmid, hgrows, _⟩ := compiling_value_closed hcompile hnodes hreg
    have hlater : mid.Grows after := .of_components hcomponents
    have hoffers : after.Offers h.describe name :=
      offers_of_names (hlater _ _ (names_of_definition? hexisting))
    exact ⟨hmid.give hlater (hmid.unchanged hcomponents) hoffers hidentity (.inr ⟨shape, hshape⟩),
      hgrows.trans hlater, hoffers⟩
  | @publish mid _ schema shape _ hcompile _ _ _ _ _ _ hcomponents hidentity hshape =>
    obtain ⟨hmid, hgrows, hschema⟩ := compiling_value_closed hcompile hnodes hreg
    have hlater : mid.Grows after := .of_define hcomponents
    have hoffers : after.Offers h.describe name := by
      refine offers_of_names ?_
      rw [hcomponents]
      exact Components.names_define_self
    obtain ⟨hmap, hwithin⟩ := withoutTitle_within (hschema schema rfl)
    exact ⟨hmid.give hlater (hmid.define hcomponents hmap hwithin) hoffers hidentity
      (.inr ⟨shape, hshape⟩), hgrows.trans hlater, hoffers⟩

end Registry

end WireShape
