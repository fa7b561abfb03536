import WireShape.Proofs.Compile.Known
import WireShape.Proofs.Registry.References

/-!
# Names and shapes in a registry

A name by which a schema is referred to leads to a definition of the shape of that schema, unless
the schema is itself a reference of that name. The name may have been chosen when much less was
defined: what is defined later changes neither the shape of a definition that has a name nor the
outcome of compiling a schema again.

* `Registry.Stands`: a definition under a name.
* `Registry.Answers`: a name is right for a schema, now and against all that is defined later.
* `Registry.Sound`: all names that have been given are right.
* `Declaring.sound`, `Naming.sound`: the steps keep this.
-/

namespace WireShape

namespace Json

theorem withoutTitle_withoutTitle {v : Value} : withoutTitle (withoutTitle v) = withoutTitle v := by
  cases v with
  | map es identity =>
    have herase : OrderedMap.erase (OrderedMap.erase es (.str "title")) (.str "title") =
        OrderedMap.erase es (.str "title") := by
      unfold OrderedMap.erase
      rw [List.filter_filter]
      simp only [Bool.and_self]
    change Value.ofEntries _ = Value.ofEntries _
    rw [herase]
  | _ => rfl

/-- The title at the top does not count for the shape. -/
theorem canonical_withoutTitle {describe : Describe} {v : Value} :
    canonical describe (withoutTitle v) = canonical describe v := by
  unfold canonical
  rw [withoutTitle_withoutTitle]

theorem isNull_withoutTitle {v : Value} (h : v.isNull = false) : (withoutTitle v).isNull = false := by
  cases v with
  | map => rfl
  | _ => exact h

end Json

namespace Registry

/-- A definition, not null, is written under a name. -/
def Stands (reg : Registry) (name : Atom) (d : Value) : Prop :=
  d.isNull = false ∧ ∃ k, (k, d) ∈ reg.schemas ∧ Components.Matches k name

/-- What is written under a name has a shape. -/
def HasShape (describe : Describe) (reg : Registry) (name : Atom) (shape : String) : Prop :=
  ∃ d, reg.Stands name d ∧ Json.canonical describe d = .ok shape

/-- A value compiles to a schema whenever at least the definitions of the registry are known. -/
def Yields (h : Heap) (reg : Registry) (v schema : Value) : Prop :=
  ∀ known : Components,
    (∀ b n, reg.components.contains b n = true → known.contains b n = true) →
      ∃ ctx, Runs (h.compile v) { known } (some schema) ctx

/-- A name is right for a value: it compiles to the reference of that name, or to a schema of the
shape that the definition of the name has. -/
def Answers (h : Heap) (reg : Registry) (v : Value) (name : Atom) : Prop :=
  ∃ schema, reg.Yields h v schema ∧
    ((∃ what, name = .str what ∧ schema.same (reference "schemas" what) = true) ∨
      ∃ shape, Json.canonical h.describe schema = .ok shape ∧
        reg.HasShape h.describe name shape)

/-- A name has been given by identity or by shape. -/
def Given (reg : Registry) (name : Atom) : Prop :=
  (∃ e ∈ reg.byIdentity, e.2 = name) ∨ ∃ e ∈ reg.byShape, e.2 = name

/-- All names that have been given are right; the values that can be seen are those with a
property. -/
structure Sound (h : Heap) (V : Value → Prop) (reg : Registry) : Prop where
  separate : OrderedMap.Separate reg.schemas
  byShape : ∀ e ∈ reg.byShape, reg.HasShape h.describe e.2 e.1
  byIdentity : ∀ e ∈ reg.byIdentity,
    ∃ v, V v ∧ v.identity? = some e.1 ∧ reg.Answers h v e.2

/-- A registry that came out of another one without losing a definition or writing over it. -/
structure Sustains (reg after : Registry) : Prop where
  contains : ∀ b n, reg.components.contains b n = true → after.components.contains b n = true
  stands : ∀ n d, reg.Stands n d → after.Stands n d

variable {describe : Describe} {h : Heap} {V : Value → Prop} {reg mid after : Registry}
  {v schema d : Value} {name n : Atom} {shape : String}

theorem Sustains.refl : reg.Sustains reg := ⟨fun _ _ hn => hn, fun _ _ hd => hd⟩

theorem Sustains.trans (h₁ : reg.Sustains mid) (h₂ : mid.Sustains after) : reg.Sustains after :=
  ⟨fun b n hn => h₂.contains b n (h₁.contains b n hn), fun n d hd => h₂.stands n d (h₁.stands n d hd)⟩

theorem Sustains.of_components (heq : after.components = reg.components) : reg.Sustains after := by
  have hschemas : after.schemas = reg.schemas := by rw [schemas, schemas, heq]
  refine ⟨fun b n hn => by rwa [heq], fun n d hd => ?_⟩
  rw [Stands, hschemas]
  exact hd

theorem Sustains.hasShape (hgrows : reg.Sustains after) (hshape : reg.HasShape describe n shape) :
    after.HasShape describe n shape := by
  obtain ⟨d, hd, hcanonical⟩ := hshape
  exact ⟨d, hgrows.stands n d hd, hcanonical⟩

theorem Yields.mono (hyields : reg.Yields h v schema)
    (hcontains : ∀ b n, reg.components.contains b n = true → after.components.contains b n = true) :
    after.Yields h v schema :=
  fun known hknown => hyields known fun b n hn => hknown b n (hcontains b n hn)

/-- A name stays right if the shape of its definition stays. -/
theorem Answers.transfer (hanswers : reg.Answers h v n)
    (hcontains : ∀ b n, reg.components.contains b n = true → after.components.contains b n = true)
    (hshape : ∀ shape, reg.HasShape h.describe n shape → after.HasShape h.describe n shape) :
    after.Answers h v n := by
  obtain ⟨schema, hyields, hright⟩ := hanswers
  refine ⟨schema, hyields.mono hcontains, hright.imp_right ?_⟩
  rintro ⟨shape, hcanonical, hstands⟩
  exact ⟨shape, hcanonical, hshape shape hstands⟩

theorem Sustains.answers (hgrows : reg.Sustains after) (hanswers : reg.Answers h v n) :
    after.Answers h v n :=
  hanswers.transfer hgrows.contains fun _ hshape => hgrows.hasShape hshape

/-! ## Writing definitions -/

theorem schemas_define {b : Atom} (heq : after.components = reg.components.define b n schema) :
    after.schemas = if b == .str "schemas" then OrderedMap.insert reg.schemas n schema
      else reg.schemas := by
  rw [schemas, heq, Components.bucket_define]
  cases hb : b == .str "schemas" with
  | false => rfl
  | true =>
    rw [if_pos rfl, if_pos rfl, Components.bucket_congr hb]
    rfl

theorem contains_of_define {b : Atom} (heq : after.components = reg.components.define b n schema) :
    ∀ b' n', reg.components.contains b' n' = true → after.components.contains b' n' = true := by
  intro b' n' hn
  rw [heq, Components.contains_define, hn, Bool.or_true]

theorem separate_of_define {b : Atom} (heq : after.components = reg.components.define b n schema)
    (hreg : OrderedMap.Separate reg.schemas) : OrderedMap.Separate after.schemas := by
  rw [schemas, heq]
  exact Components.separate_define hreg

/-- A definition that has been found is written under its name. -/
theorem stands_of_definition (hdef : reg.definition? (.str "schemas") n = some d) :
    reg.Stands n d := by
  unfold definition? at hdef
  split at hdef
  · cases hdef
  · rename_i hnull
    obtain ⟨k, hmem, hk⟩ := OrderedMap.mem_of_get? hdef
    refine ⟨?_, k, hmem, .inr hk⟩
    cases d with
    | atom a =>
      cases a with
      | null => exact absurd hdef hnull
      | _ => rfl
    | _ => rfl

theorem definition?_of_mem (hreg : OrderedMap.Separate reg.schemas) {k : Atom}
    (hmem : (k, d) ∈ reg.schemas) (hd : d.isNull = false) (hk : (k == n) = true) :
    reg.definition? (.str "schemas") n = some d := by
  have hget : OrderedMap.get? (reg.components.bucket (.str "schemas")) n = some d :=
    hreg.get? hmem hk
  unfold definition?
  rw [hget]
  cases d with
  | atom a =>
    cases a with
    | null => cases hd
    | _ => rfl
  | _ => rfl

/-- Writing under another name leaves a definition. -/
theorem stands_define_of_ne {b : Atom} (heq : after.components = reg.components.define b name schema)
    (hn : (n == name) = false) (hd : reg.Stands n d) : after.Stands n d := by
  obtain ⟨hnull, k, hmem, hk⟩ := hd
  refine ⟨hnull, k, ?_, hk⟩
  rw [schemas_define heq]
  split
  · refine OrderedMap.mem_insert_of_mem hmem (Bool.eq_false_iff.mpr fun hkn => ?_)
    rcases hk with rfl | hk
    · exact Bool.false_ne_true (hn.symm.trans hkn)
    · exact Bool.false_ne_true (hn.symm.trans (BEq.trans (BEq.symm hk) hkn))
  · exact hmem

/-- Writing where nothing was defined leaves all definitions. -/
theorem sustains_define {b : Atom} (hreg : OrderedMap.Separate reg.schemas)
    (heq : after.components = reg.components.define b name schema)
    (hfree : reg.definition? b name = none) : reg.Sustains after := by
  refine ⟨contains_of_define heq, fun n d hd => ?_⟩
  obtain ⟨hnull, k, hmem, hk⟩ := hd
  refine ⟨hnull, k, ?_, hk⟩
  rw [schemas_define heq]
  split
  · rename_i hb
    refine OrderedMap.mem_insert_of_mem hmem (Bool.eq_false_iff.mpr fun hkn => ?_)
    have hfound := definition?_of_mem hreg hmem hnull hkn
    rw [Atom.beq_str_iff.mp hb, hfound] at hfree
    cases hfree
  · exact hmem

theorem stands_define_self (heq : after.components = reg.components.define (.str "schemas") name d)
    (hd : d.isNull = false) : after.Stands name d := by
  obtain ⟨k, hmem, hk⟩ := Components.key_mem_insert (m := reg.schemas) (n := name) (v := d)
  refine ⟨hd, k, ?_, hk⟩
  rw [schemas_define heq]
  exact hmem

/-! ## Merging -/

theorem openBucket_bucket {b b' : Atom} {i : Unit} (hrun : Runs (openBucket b) reg i after) :
    after.components.bucket b' = reg.components.bucket b' := by
  obtain ⟨_, _, heq | heq⟩ := openBucket_cases hrun
  · rw [heq]
  · rw [heq]
    exact Components.bucket_append_empty

theorem openBucket_sustains {b : Atom} {i : Unit} (hrun : Runs (openBucket b) reg i after) :
    reg.Sustains after ∧ after.schemas = reg.schemas := by
  have hschemas : after.schemas = reg.schemas := openBucket_bucket hrun
  refine ⟨⟨fun b' n hn => ?_, fun n d hd => ?_⟩, hschemas⟩
  · rw [Components.contains, openBucket_bucket hrun]
    exact hn
  · rw [Stands, hschemas]
    exact hd

/-- Merging writes over nothing. -/
theorem merge_sustains {created : Components} {i : Unit} (hrun : Runs (merge h created) reg i after)
    (hreg : OrderedMap.Separate reg.schemas) :
    reg.Sustains after ∧ OrderedMap.Separate after.schemas := by
  refine runs_merge_preserves
    (I := fun later => reg.Sustains later ∧ OrderedMap.Separate later.schemas) hrun ?_ ?_
    ⟨.refl, hreg⟩
  · rintro bucket _ mid _ later hopen ⟨hgrows, hmid⟩
    obtain ⟨hlater, hschemas⟩ := openBucket_sustains hopen
    exact ⟨hgrows.trans hlater, hschemas ▸ hmid⟩
  · rintro bucket _ entry _ mid later hadd ⟨hgrows, hmid⟩
    cases hadd with
    | new hnone =>
      exact ⟨hgrows.trans (sustains_define hmid rfl hnone), separate_of_define rfl hmid⟩
    | old => exact ⟨hgrows, hmid⟩

/-- What has been created is found after it has been merged. -/
theorem merge_contains {created : Components} {i : Unit} (hrun : Runs (merge h created) reg i after)
    {b n : Atom} (hn : created.contains b n = true) : after.components.contains b n = true := by
  have hall : ∀ bucket ∈ created, ∀ entry ∈ bucket.2, ∀ b n, (bucket.1 == b) = true →
      (entry.1 == n) = true → after.components.contains b n = true := by
    refine runs_merge_each (P := fun place what later => ∀ b n, (place == b) = true →
      (what == n) = true → later.components.contains b n = true) hrun ?_ ?_ ?_
    · intro _ reg _ after hopen b' n' hfound b n hb hn
      rw [Components.contains, openBucket_bucket hopen]
      exact hfound b n hb hn
    · intro _ _ _ reg after hadd b' n' hfound b n hb hn
      cases hadd with
      | new => exact contains_of_define rfl b n (hfound b n hb hn)
      | old => exact hfound b n hb hn
    · intro b' n' schema reg after hadd b n hb hn
      cases hadd with
      | new => rw [Components.contains_define, hb, hn, Bool.and_self, Bool.true_or]
      | @old existing _ hsome =>
        have hfound : reg.components.contains b' n' = true := by
          unfold definition? at hsome
          unfold Components.contains OrderedMap.contains
          split at hsome
          · cases hsome
          · rw [hsome]
            rfl
        rw [Components.contains, Components.bucket_congr hb, ← Components.contains] at hfound
        unfold Components.contains OrderedMap.contains at hfound ⊢
        rwa [OrderedMap.get?_congr hn] at hfound
  obtain ⟨_, hfound⟩ := Option.isSome_iff_exists.mp hn
  obtain ⟨bucket, hbucket, entry, hentry, hb, hsame, _⟩ := Components.mem_of_find? hfound
  exact hall bucket hbucket entry hentry b n hb hsame

/-! ## Compiling -/

theorem Sound.transfer (hreg : reg.Sound h V) (hseparate : OrderedMap.Separate after.schemas)
    (hcontains : ∀ b n, reg.components.contains b n = true → after.components.contains b n = true)
    (hshape : ∀ n shape, reg.Given n → reg.HasShape h.describe n shape →
      after.HasShape h.describe n shape)
    (hidentity : after.byIdentity = reg.byIdentity) (hbyShape : after.byShape = reg.byShape) :
    after.Sound h V := by
  refine ⟨hseparate, ?_, ?_⟩
  · rw [hbyShape]
    exact fun e he => hshape _ _ (.inr ⟨e, he, rfl⟩) (hreg.byShape e he)
  · rw [hidentity]
    intro e he
    obtain ⟨v, hv, hid, hanswers⟩ := hreg.byIdentity e he
    exact ⟨v, hv, hid, hanswers.transfer hcontains fun _ => hshape _ _ (.inl ⟨e, he, rfl⟩)⟩

theorem Sustains.sound (hgrows : reg.Sustains after) (hreg : reg.Sound h V)
    (hseparate : OrderedMap.Separate after.schemas) (hidentity : after.byIdentity = reg.byIdentity)
    (hbyShape : after.byShape = reg.byShape) : after.Sound h V :=
  hreg.transfer hseparate hgrows.contains (fun _ _ _ hshape => hgrows.hasShape hshape) hidentity
    hbyShape

theorem SameData.sound (hsame : after.SameData reg) (hreg : reg.Sound h V) : after.Sound h V := by
  have hschemas : after.schemas = reg.schemas := by rw [schemas, schemas, hsame.components]
  refine (Sustains.of_components hsame.components).sound hreg ?_ hsame.byIdentity hsame.byShape
  rw [hschemas]
  exact hreg.separate

/-- A walk adds to what is defined, and gives no names. -/
theorem Compiling.sound {walk : Walk Compiled} {r : Compiled} (hcompile : Compiling h walk reg r after)
    (hreg : reg.Sound h V) : after.Sound h V ∧ reg.Sustains after ∧
      after.byIdentity = reg.byIdentity ∧ after.byShape = reg.byShape := by
  obtain @⟨ctx, logged, _, _, hlogged, hmerge⟩ := hcompile
  have hstart : logged.Sound h V := hlogged.sound hreg
  obtain ⟨hgrows, hseparate⟩ := merge_sustains hmerge hstart.separate
  obtain ⟨hidentity, hshape⟩ := merge_bindings hmerge
  refine ⟨hgrows.sound hstart hseparate hidentity hshape,
    (Sustains.of_components hlogged.components).trans hgrows, hidentity.trans hlogged.byIdentity,
    hshape.trans hlogged.byShape⟩

/-- A schema that has been compiled is compiled to the same from then on. -/
theorem compiling_yields (hcompile : Compiling h (h.compile v) reg (some schema) after)
    (hreg : reg.Sound h V) (hv : h.NoForbiddenClassIn v) :
    after.Yields h v schema ∧ schema.isNull = false := by
  have hgrows : reg.Sustains after := (hcompile.sound hreg).2.1
  obtain @⟨ctx, logged, _, hwalk, hlogged, hmerge⟩ := hcompile
  obtain ⟨s, hs, hrun⟩ := runs_compile_iff.mp hwalk
  refine ⟨fun known hknown => ?_, ?_⟩
  · have hcovers : Context.Covers { known } { known := reg.components } ctx := by
      refine ⟨fun _ hin => absurd hin Bool.false_ne_true, fun b n hhas => ?_⟩
      have hfound : after.components.contains b n = true := by
        rcases Bool.or_eq_true_iff.mp hhas with hcreated | hold
        · exact merge_contains hmerge hcreated
        · rw [(walked_of_runs hrun).extends.known] at hold
          exact hgrows.contains b n hold
      exact Bool.or_eq_true_iff.mpr (.inr (hknown b n hfound))
    obtain ⟨ctx', hrun'⟩ := runs_of_known (hv s hs) hrun hcovers
    exact ⟨ctx', runs_compile_iff.mpr ⟨s, hs, hrun'⟩⟩
  · have hnull := (walked_of_runs hrun).ne_null
    cases schema with
    | atom a =>
      cases a with
      | null => exact absurd rfl hnull
      | _ => rfl
    | _ => rfl

/-! ## Giving names -/

theorem given_mono (hidentity : after.byIdentity = reg.byIdentity)
    (hbyShape : after.byShape = reg.byShape) (hn : after.Given n) : reg.Given n := by
  unfold Given at hn
  rwa [hidentity, hbyShape] at hn

theorem mem_bound {e : Identity × Atom} (he : e ∈ mid.bound v name) :
    e ∈ mid.byIdentity ∨ v.identity? = some e.1 ∧ e.2 = name := by
  unfold bound at he
  cases hid : v.identity? with
  | none =>
    rw [hid] at he
    exact .inl he
  | some identity =>
    rw [hid] at he
    rcases OrderedMap.mem_insert he with hold | ⟨hvalue, heq | ⟨_, hkey⟩⟩
    · exact .inl hold
    · exact .inr ⟨congrArg some heq.symm, hvalue⟩
    · exact .inr ⟨congrArg some (eq_of_beq hkey).symm, hvalue⟩

theorem mem_insert_shape {shapes : OrderedMap String Atom} {e : String × Atom}
    (he : e ∈ shapes.insert shape name) : e ∈ shapes ∨ e = (shape, name) := by
  rcases OrderedMap.mem_insert he with hold | ⟨hvalue, heq | ⟨_, hkey⟩⟩
  · exact .inl hold
  · exact .inr (Prod.ext heq hvalue)
  · exact .inr (Prod.ext (eq_of_beq hkey) hvalue)

/-- A name that is right for a value may be remembered by its identity. -/
theorem Sound.bind (hmid : mid.Sound h V) (hv : V v) (hanswers : mid.Answers h v name)
    (hcomponents : after.components = mid.components) (hidentity : after.byIdentity = mid.bound v name)
    (hbyShape : after.byShape = mid.byShape) : after.Sound h V := by
  have hgrows : mid.Sustains after := .of_components hcomponents
  have hschemas : after.schemas = mid.schemas := by rw [schemas, schemas, hcomponents]
  refine ⟨hschemas ▸ hmid.separate, ?_, ?_⟩
  · rw [hbyShape]
    exact fun e he => hgrows.hasShape (hmid.byShape e he)
  · intro e he
    rw [hidentity] at he
    rcases mem_bound he with hold | ⟨hid, hname⟩
    · obtain ⟨w, hw, hid, hright⟩ := hmid.byIdentity e hold
      exact ⟨w, hw, hid, hgrows.answers hright⟩
    · rw [hname]
      exact ⟨v, hv, hid, hgrows.answers hanswers⟩

/-- The name of a definition may be remembered by its shape. -/
theorem Sound.bindShape (hmid : mid.Sound h V) (hshape : mid.HasShape h.describe name shape)
    (hcomponents : after.components = mid.components) (hidentity : after.byIdentity = mid.byIdentity)
    (hbyShape : after.byShape = mid.byShape.insert shape name) : after.Sound h V := by
  have hgrows : mid.Sustains after := .of_components hcomponents
  have hschemas : after.schemas = mid.schemas := by rw [schemas, schemas, hcomponents]
  refine ⟨hschemas ▸ hmid.separate, ?_, ?_⟩
  · intro e he
    rw [hbyShape] at he
    rcases mem_insert_shape he with hold | rfl
    · exact hgrows.hasShape (hmid.byShape e hold)
    · exact hgrows.hasShape hshape
  · rw [hidentity]
    intro e he
    obtain ⟨w, hw, hid, hright⟩ := hmid.byIdentity e he
    exact ⟨w, hw, hid, hgrows.answers hright⟩

/-- A schema may be declared under a name that is no name given before. -/
theorem Declaring.sound (hdeclare : Declaring h name v reg after) (hreg : reg.Sound h V) (hv : V v)
    (hclass : h.NoForbiddenClassIn v) (hnew : ∀ n, reg.Given n → (n == name) = false) :
    after.Sound h V ∧ ∀ n, after.Given n → reg.Given n ∨ n = name := by
  cases hdeclare with
  | skip hcompile hafter =>
    obtain ⟨hmid, _, hidentity, hbyShape⟩ := hcompile.sound hreg
    refine ⟨hafter.sound hmid, fun n hn => .inl ?_⟩
    exact given_mono (hafter.byIdentity.trans hidentity) (hafter.byShape.trans hbyShape) hn
  | @define mid schema shape hcompile hcanonical hcomponents hidentity hbyShape =>
    obtain ⟨hmid, _, hidentity', hbyShape'⟩ := hcompile.sound hreg
    obtain ⟨hyields, hnull⟩ := compiling_yields hcompile hreg hclass
    let defined : Registry := { mid with components := mid.components.define (.str "schemas") name schema }
    have hdefined : defined.Sound h V := by
      refine hmid.transfer (separate_of_define rfl hmid.separate) (contains_of_define rfl) ?_ rfl rfl
      rintro n shape' hn ⟨d, hd, hcanonical'⟩
      have hne := hnew n (given_mono hidentity' hbyShape' hn)
      exact ⟨d, stands_define_of_ne rfl hne hd, hcanonical'⟩
    have hshape : defined.HasShape h.describe name shape :=
      ⟨schema, stands_define_self rfl hnull, hcanonical⟩
    have hanswers : defined.Answers h v name :=
      ⟨schema, hyields.mono (contains_of_define rfl), .inr ⟨shape, hcanonical, hshape⟩⟩
    let seen : Registry := { defined with byIdentity := mid.bound v name }
    have hseen : seen.Sound h V := hdefined.bind hv hanswers rfl rfl rfl
    refine ⟨hseen.bindShape hshape hcomponents hidentity hbyShape, fun n hn => ?_⟩
    rcases hn with ⟨e, he, rfl⟩ | ⟨e, he, rfl⟩
    · rw [hidentity] at he
      rcases mem_bound he with hold | ⟨_, hname⟩
      · exact .inl (given_mono hidentity' hbyShape' (.inl ⟨e, hold, rfl⟩))
      · exact .inr hname
    · rw [hbyShape] at he
      rcases mem_insert_shape he with hold | rfl
      · exact .inl (given_mono hidentity' hbyShape' (.inr ⟨e, hold, rfl⟩))
      · exact .inr rfl

/-- A bare reference into the schemas is the reference of the name that it carries. -/
theorem same_reference {target : Value} (hreference : referenceName? schema "schemas" = .ok (some target))
    (hname : target.asKey = .ok name) :
    ∃ what, name = .str what ∧ schema.same (reference "schemas" what) = true := by
  obtain ⟨what, rfl, identity, rfl⟩ := referenceName?_eq_some hreference
  cases hname
  refine ⟨what, rfl, ?_⟩
  have htext : Value.same (.str (bucketPath "schemas" ++ what)) (.str (bucketPath "schemas" ++ what)) =
      true := Atom.str_beq_iff.mpr rfl
  have hget : OrderedMap.get? [(refKey, Value.str (bucketPath "schemas" ++ what))] refKey =
      some (.str (bucketPath "schemas" ++ what)) := by
    rw [OrderedMap.get?_cons, if_pos (Atom.str_beq_iff.mpr rfl)]
  have hentries : Value.sameEntries [(refKey, .str (bucketPath "schemas" ++ what))]
      [(refKey, .str (bucketPath "schemas" ++ what))] = true := by
    rw [Value.sameEntries, hget]
    simp only [Value.sameEntries, htext, Bool.and_self]
  exact Bool.and_eq_true_iff.mpr ⟨rfl, hentries⟩

/-- The name that is chosen for a schema is right for it, and nothing is written over. -/
theorem Naming.sound (hnaming : Naming h v reg name after) (hreg : reg.Sound h V) (hv : V v)
    (hclass : h.NoForbiddenClassIn v)
    (hone : ∀ w, V w → w.identity?.isSome = true → w.identity? = v.identity? → w = v) :
    after.Sound h V ∧ reg.Sustains after ∧ after.Answers h v name := by
  cases hnaming with
  | seen hseen =>
    obtain ⟨identity, hid, hget⟩ := Option.bind_eq_some_iff.mp hseen
    obtain ⟨k, hmem, hk⟩ := OrderedMap.mem_of_get? hget
    obtain ⟨w, hw, hwid, hanswers⟩ := hreg.byIdentity _ hmem
    have hkey : k = identity := eq_of_beq hk
    have hsame : w = v := by
      refine hone w hw (by rw [hwid]; rfl) ?_
      rw [hwid, hid, hkey]
    exact ⟨hreg, .refl, hsame ▸ hanswers⟩
  | @reference mid _ schema target _ hcompile hreference hname hcomponents hidentity hbyShape =>
    obtain ⟨hmid, hgrows, _, _⟩ := hcompile.sound hreg
    obtain ⟨hyields, _⟩ := compiling_yields hcompile hreg hclass
    have hlater : mid.Sustains after := .of_components hcomponents
    have hanswers : mid.Answers h v name := ⟨schema, hyields, .inl (same_reference hreference hname)⟩
    exact ⟨hmid.bind hv hanswers hcomponents hidentity hbyShape, hgrows.trans hlater,
      hlater.answers hanswers⟩
  | @shape mid _ schema shape _ hcompile _ hcanonical hknown hcomponents hidentity hbyShape =>
    obtain ⟨hmid, hgrows, _, _⟩ := hcompile.sound hreg
    obtain ⟨hyields, _⟩ := compiling_yields hcompile hreg hclass
    have hlater : mid.Sustains after := .of_components hcomponents
    obtain ⟨k, hmem, hk⟩ := OrderedMap.mem_of_get? hknown
    have hshape : mid.HasShape h.describe name shape := by
      have hfound := hmid.byShape _ hmem
      rwa [eq_of_beq hk] at hfound
    have hanswers : mid.Answers h v name := ⟨schema, hyields, .inr ⟨shape, hcanonical, hshape⟩⟩
    exact ⟨hmid.bind hv hanswers hcomponents hidentity hbyShape, hgrows.trans hlater,
      hlater.answers hanswers⟩
  | @label mid _ schema existing shape _ hcompile _ hcanonical _ _ _ hexisting hsame hcomponents
      hidentity hbyShape =>
    obtain ⟨hmid, hgrows, _, _⟩ := hcompile.sound hreg
    obtain ⟨hyields, _⟩ := compiling_yields hcompile hreg hclass
    have hlater : mid.Sustains after := .of_components hcomponents
    have hshape : mid.HasShape h.describe name shape :=
      ⟨existing, stands_of_definition hexisting, hsame⟩
    have hanswers : mid.Answers h v name := ⟨schema, hyields, .inr ⟨shape, hcanonical, hshape⟩⟩
    let seen : Registry := { mid with byIdentity := mid.bound v name }
    have hseen : seen.Sound h V := hmid.bind hv hanswers rfl rfl rfl
    exact ⟨hseen.bindShape hshape hcomponents hidentity hbyShape, hgrows.trans hlater,
      hlater.answers hanswers⟩
  | @publish mid _ schema shape _ hcompile _ hcanonical _ _ _ hfree hcomponents hidentity hbyShape =>
    obtain ⟨hmid, hgrows, _, _⟩ := hcompile.sound hreg
    obtain ⟨hyields, hnull⟩ := compiling_yields hcompile hreg hclass
    let defined : Registry :=
      { mid with components := mid.components.define (.str "schemas") name (Json.withoutTitle schema) }
    have hlater : mid.Sustains defined := sustains_define hmid.separate rfl hfree
    have hdefined : defined.Sound h V :=
      hlater.sound hmid (separate_of_define rfl hmid.separate) rfl rfl
    have hshape : defined.HasShape h.describe name shape :=
      ⟨Json.withoutTitle schema, stands_define_self rfl (Json.isNull_withoutTitle hnull),
        Json.canonical_withoutTitle.trans hcanonical⟩
    have hanswers : defined.Answers h v name :=
      ⟨schema, hyields.mono hlater.contains, .inr ⟨shape, hcanonical, hshape⟩⟩
    let seen : Registry := { defined with byIdentity := mid.bound v name }
    have hseen : seen.Sound h V := hdefined.bind hv hanswers rfl rfl rfl
    have hlast : defined.Sustains after := .of_components hcomponents
    exact ⟨hseen.bindShape hshape hcomponents hidentity hbyShape,
      hgrows.trans (hlater.trans hlast), hlast.answers hanswers⟩

end Registry

end WireShape
