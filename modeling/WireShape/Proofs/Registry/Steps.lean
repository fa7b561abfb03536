import WireShape.Proofs.Compile.Walks

/-!
# What the steps of a registry can do

Successful steps of the registry, taken apart. The log plays no part: two registries with the same
definitions and the same names are as good as each other.

* `Registry.SameData`: registries that differ at most in their logs.
* `Adding`, `runs_merge_preserves`: how definitions from walks are added.
* `Compiling`: a walk against the definitions made so far.
* `Declaring`, `Naming`: how a name is given and how it is chosen.
-/

namespace WireShape

namespace Registry

/-- Registries that differ at most in their logs. -/
structure SameData (after before : Registry) : Prop where
  components : after.components = before.components
  byIdentity : after.byIdentity = before.byIdentity
  byShape : after.byShape = before.byShape

variable {reg after : Registry} {i : Unit}

theorem SameData.refl : reg.SameData reg := ⟨rfl, rfl, rfl⟩

/-- The names by identity after a name has been remembered. -/
def bound (reg : Registry) (v : Value) (name : Atom) : OrderedMap Identity Atom :=
  match v.identity? with
  | some identity => reg.byIdentity.insert identity name
  | none => reg.byIdentity

theorem runs_addLogFrom {level : LogLevel} {message : Except Fault String}
    (hrun : Runs (addLogFrom level message) reg i after) : after.SameData reg := by
  cases message with
  | error e =>
    obtain ⟨_, rfl⟩ := runs_pure_iff.mp hrun
    exact .refl
  | ok text =>
    obtain rfl := runs_modify_iff.mp hrun
    exact ⟨rfl, rfl, rfl⟩

theorem runs_define_iff {b n : Atom} {schema : Value} : Runs (define b n schema) reg i after ↔
    after = { reg with components := reg.components.define b n schema } := runs_modify_iff

theorem runs_bind_iff' {v : Value} {name : Atom} : Runs (bind v name) reg i after ↔
    after = { reg with byIdentity := reg.bound v name } := by
  unfold bind bound
  cases v.identity? with
  | none =>
    constructor
    · exact fun hrun => (runs_pure_iff.mp hrun).2
    · exact fun h => runs_pure_iff.mpr ⟨rfl, h⟩
  | some identity => exact runs_modify_iff

theorem runs_bindShape_iff {shape : String} {name : Atom} :
    Runs (bindShape shape name) reg i after ↔
      after = { reg with byShape := reg.byShape.insert shape name } := runs_modify_iff

/-! ## Adding definitions -/

/-- One definition is added: it is new, or there is one of the same shape. -/
inductive Adding (h : Heap) (b n : Atom) (schema : Value) (reg : Registry) : Registry → Prop
  | new (hnone : reg.definition? b n = none) :
      Adding h b n schema reg { reg with components := reg.components.define b n schema }
  | old {existing : Value} {shape : String} (hsome : reg.definition? b n = some existing)
      (hexisting : Json.canonical h.describe existing = .ok shape)
      (hschema : Json.canonical h.describe schema = .ok shape) : Adding h b n schema reg reg

theorem runs_addDefinition {h : Heap} {b n : Atom} {schema : Value}
    (hrun : Runs (addDefinition h b n schema) reg i after) : Adding h b n schema reg after := by
  unfold addDefinition at hrun
  rw [runs_get_bind_iff] at hrun
  cases hdef : reg.definition? b n with
  | none =>
    rw [hdef] at hrun
    obtain rfl := runs_define_iff.mp hrun
    exact .new hdef
  | some existing =>
    rw [hdef] at hrun
    simp only [runs_bind_iff, runs_registryLift_iff] at hrun
    obtain ⟨shape, _, ⟨hexisting, rfl⟩, newShape, _, ⟨hschema, rfl⟩, hrun⟩ := hrun
    split at hrun
    · simp only [runs_bind_iff] at hrun
      obtain ⟨_, _, _, _, _, _, hthrow⟩ := hrun
      exact absurd hthrow not_runs_throw
    · rename_i hsame
      obtain ⟨_, rfl⟩ := runs_pure_iff.mp hrun
      have heq : shape = newShape := by simpa using hsame
      subst heq
      exact .old hdef hexisting hschema

/-- A bucket is opened: nothing is defined in it that was not. -/
theorem runs_openBucket_iff {b : Atom} : Runs (openBucket b) reg i after ↔
    after = if OrderedMap.contains reg.components b then reg
      else { reg with components := reg.components ++ [(b, [])] } := runs_modify_iff

/-- What opening buckets and adding definitions keep, merging definitions keeps. -/
theorem runs_merge_preserves {h : Heap} {created : Components} {I : Registry → Prop}
    (hrun : Runs (merge h created) reg i after)
    (hopen : ∀ bucket ∈ created, ∀ reg i after, Runs (openBucket bucket.1) reg i after → I reg →
      I after)
    (hadd : ∀ bucket ∈ created, ∀ entry ∈ bucket.2, ∀ reg after,
      Adding h bucket.1 entry.1 entry.2 reg after → I reg → I after) (hreg : I reg) : I after := by
  refine runs_forM_preserves hrun ?_ hreg
  intro bucket hbucket reg₁ _ reg₃ hstep h₁
  obtain ⟨_, reg₂, hopened, hentries⟩ := runs_bind_iff.mp hstep
  refine runs_forM_preserves hentries ?_ (hopen bucket hbucket _ _ _ hopened h₁)
  exact fun entry hentry _ _ _ hstep h₄ =>
    hadd bucket hbucket entry hentry _ _ (runs_addDefinition hstep) h₄

/-- What adding a definition establishes and later steps keep, holds of all that are merged. -/
theorem runs_merge_entries {h : Heap} {created : Components}
    {P : Atom → Atom → Value → Registry → Prop} (hrun : Runs (merge h created) reg i after)
    (hopen : ∀ b reg i after, Runs (openBucket b) reg i after →
      ∀ b' n' d, P b' n' d reg → P b' n' d after)
    (hkeep : ∀ b n schema reg after, Adding h b n schema reg after →
      ∀ b' n' d, P b' n' d reg → P b' n' d after)
    (hadd : ∀ bucket ∈ created, ∀ entry ∈ bucket.2, ∀ reg after,
      Adding h bucket.1 entry.1 entry.2 reg after → P bucket.1 entry.1 entry.2 after) :
    ∀ bucket ∈ created, ∀ entry ∈ bucket.2, P bucket.1 entry.1 entry.2 after := by
  refine runs_forM_each (P := fun bucket reg => ∀ entry ∈ bucket.2, P bucket.1 entry.1 entry.2 reg)
    hrun ?_ ?_
  · intro bucket hbucket reg₁ _ reg₃ hstep
    obtain ⟨_, reg₂, _, hentries⟩ := runs_bind_iff.mp hstep
    refine runs_forM_each (P := fun entry reg => P bucket.1 entry.1 entry.2 reg) hentries ?_ ?_
    · exact fun entry hentry _ _ _ hstep => hadd bucket hbucket entry hentry _ _ (runs_addDefinition hstep)
    · exact fun entry _ _ _ _ hstep entry' hp =>
        hkeep _ _ _ _ _ (runs_addDefinition hstep) _ _ _ hp
  · intro bucket _ reg₁ _ reg₃ hstep bucket' hp entry hentry
    obtain ⟨_, reg₂, hopened, hentries⟩ := runs_bind_iff.mp hstep
    refine runs_forM_preserves (I := P bucket'.1 entry.1 entry.2) hentries ?_
      (hopen _ _ _ _ hopened _ _ _ (hp entry hentry))
    exact fun _ _ _ _ _ hstep hp => hkeep _ _ _ _ _ (runs_addDefinition hstep) _ _ _ hp

/-- The same for what does not depend on the definitions. -/
theorem runs_merge_each {h : Heap} {created : Components} {P : Atom → Atom → Registry → Prop}
    (hrun : Runs (merge h created) reg i after)
    (hopen : ∀ b reg i after, Runs (openBucket b) reg i after → ∀ b' n', P b' n' reg → P b' n' after)
    (hkeep : ∀ b n schema reg after, Adding h b n schema reg after →
      ∀ b' n', P b' n' reg → P b' n' after)
    (hadd : ∀ b n schema reg after, Adding h b n schema reg after → P b n after) :
    ∀ bucket ∈ created, ∀ entry ∈ bucket.2, P bucket.1 entry.1 after :=
  runs_merge_entries (P := fun b n _ => P b n) hrun
    (fun b reg i after hrun b' n' _ => hopen b reg i after hrun b' n')
    (fun b n schema reg after hadding b' n' _ => hkeep b n schema reg after hadding b' n')
    (fun _ _ _ _ _ _ hadding => hadd _ _ _ _ _ hadding)

/-! ## Walks against the definitions made so far -/

/-- A walk succeeds and what it creates is merged. -/
inductive Compiling (h : Heap) (walk : Walk Compiled) (reg : Registry) (r : Compiled)
    (after : Registry) : Prop
  | run {ctx : Context} {logged : Registry} {i : Unit}
      (hwalk : Runs walk { known := reg.components } r ctx) (hlogged : logged.SameData reg)
      (hmerge : Runs (merge h ctx.created) logged i after)

theorem runs_runWalk {h : Heap} {walk : Walk Compiled} {r : Compiled}
    (hrun : Runs (runWalk h walk) reg r after) : Compiling h walk reg r after := by
  unfold runWalk at hrun
  rw [runs_get_bind_iff] at hrun
  rcases hwalk : walk { known := reg.components } with ⟨outcome, ctx⟩
  rw [hwalk] at hrun
  simp only [runs_bind_iff, runs_modify_iff, runs_registryLift_iff, runs_pure_iff] at hrun
  obtain ⟨_, _, rfl, _, _, ⟨rfl, rfl⟩, _, _, hmerge, rfl, rfl⟩ := hrun
  have hlogged : SameData { reg with log := reg.log ++ ctx.log } reg := ⟨rfl, rfl, rfl⟩
  exact .run hwalk hlogged hmerge

/-! ## Names -/

/-- A schema is defined under a given name, or skipped as it is forbidden. -/
inductive Declaring (h : Heap) (name : Atom) (v : Value) (reg after : Registry) : Prop
  | skip {mid : Registry} (hcompile : Compiling h (h.compile v) reg none mid)
      (hafter : after.SameData mid)
  | define {mid : Registry} {schema : Value} {shape : String}
      (hcompile : Compiling h (h.compile v) reg (some schema) mid)
      (hshape : Json.canonical h.describe schema = .ok shape)
      (hcomponents : after.components = mid.components.define (.str "schemas") name schema)
      (hidentity : after.byIdentity = mid.bound v name)
      (hbyShape : after.byShape = mid.byShape.insert shape name)

theorem runs_declare {h : Heap} {name : Atom} {v : Value} {r : Compiled}
    (hrun : Runs (declare h name v) reg r after) : Declaring h name v reg after := by
  unfold declare at hrun
  obtain ⟨outcome, mid, hcompile, hrun⟩ := runs_bind_iff.mp hrun
  have hcompile := runs_runWalk hcompile
  cases outcome with
  | none =>
    simp only [runs_bind_iff, runs_pure_iff] at hrun
    obtain ⟨_, _, hlog, rfl, rfl⟩ := hrun
    exact .skip hcompile (runs_addLogFrom hlog)
  | some schema =>
    simp only [runs_bind_iff, runs_pure_iff, runs_registryLift_iff, runs_define_iff,
      runs_bind_iff', runs_bindShape_iff] at hrun
    obtain ⟨_, _, rfl, _, _, rfl, shape, _, ⟨hshape, rfl⟩, _, _, rfl, rfl, rfl⟩ := hrun
    exact .define hcompile hshape rfl rfl rfl

/-- A schema that is used has been seen, is a reference, has a known shape, or has a label, which is
the name of a definition of the same shape or is given to a new one. -/
inductive Naming (h : Heap) (v : Value) (reg : Registry) : Atom → Registry → Prop
  | seen {name : Atom} (hseen : v.identity?.bind reg.byIdentity.get? = some name) :
      Naming h v reg name reg
  | reference {mid after : Registry} {schema target : Value} {name : Atom}
      (hcompile : Compiling h (h.compile v) reg (some schema) mid)
      (hreference : referenceName? schema "schemas" = .ok (some target))
      (hname : target.asKey = .ok name) (hcomponents : after.components = mid.components)
      (hidentity : after.byIdentity = mid.bound v name) (hbyShape : after.byShape = mid.byShape) :
      Naming h v reg name after
  | shape {mid after : Registry} {schema : Value} {shape : String} {name : Atom}
      (hcompile : Compiling h (h.compile v) reg (some schema) mid)
      (hreference : referenceName? schema "schemas" = .ok none)
      (hshape : Json.canonical h.describe schema = .ok shape)
      (hknown : mid.byShape.get? shape = some name) (hcomponents : after.components = mid.components)
      (hidentity : after.byIdentity = mid.bound v name) (hbyShape : after.byShape = mid.byShape) :
      Naming h v reg name after
  | label {mid after : Registry} {schema existing : Value} {shape : String} {name : Atom}
      (hcompile : Compiling h (h.compile v) reg (some schema) mid)
      (hreference : referenceName? schema "schemas" = .ok none)
      (hshape : Json.canonical h.describe schema = .ok shape)
      (hnew : mid.byShape.get? shape = none) (htitle : (titleOf schema).truthy = true)
      (hname : (titleOf schema).asKey = .ok name)
      (hexisting : mid.definition? (.str "schemas") name = some existing)
      (hsame : Json.canonical h.describe existing = .ok shape)
      (hcomponents : after.components = mid.components)
      (hidentity : after.byIdentity = mid.bound v name)
      (hbyShape : after.byShape = mid.byShape.insert shape name) : Naming h v reg name after
  | publish {mid after : Registry} {schema : Value} {shape : String} {name : Atom}
      (hcompile : Compiling h (h.compile v) reg (some schema) mid)
      (hreference : referenceName? schema "schemas" = .ok none)
      (hshape : Json.canonical h.describe schema = .ok shape)
      (hnew : mid.byShape.get? shape = none) (htitle : (titleOf schema).truthy = true)
      (hname : (titleOf schema).asKey = .ok name)
      (hfree : mid.definition? (.str "schemas") name = none)
      (hcomponents : after.components =
        mid.components.define (.str "schemas") name (Json.withoutTitle schema))
      (hidentity : after.byIdentity = mid.bound v name)
      (hbyShape : after.byShape = mid.byShape.insert shape name) : Naming h v reg name after

theorem runs_logReuse {h : Heap} {name : Atom} {label : Value}
    (hrun : Runs (logReuse h name label) reg i after) : after.SameData reg := by
  unfold logReuse at hrun
  split at hrun
  · exact runs_addLogFrom hrun
  · exact runs_addLogFrom hrun

theorem runs_publish {h : Heap} {v schema : Value} {shape : String} {name : Atom} {reg mid : Registry}
    (hcompile : Compiling h (h.compile v) reg (some schema) mid)
    (hreference : referenceName? schema "schemas" = .ok none)
    (hshape : Json.canonical h.describe schema = .ok shape) (hnew : mid.byShape.get? shape = none)
    (hrun : Runs (publish h v schema shape) mid name after) : Naming h v reg name after := by
  unfold publish at hrun
  dsimp only at hrun
  cases htitle : (titleOf schema).truthy with
  | false =>
    rw [htitle] at hrun
    obtain ⟨_, _, hthrow, _⟩ := runs_bind_iff.mp hrun
    exact absurd hthrow not_runs_throw
  | true =>
    rw [htitle] at hrun
    simp only [Bool.not_true, Bool.false_eq_true, ↓reduceIte] at hrun
    obtain ⟨title, hname, hdefined⟩ := runs_registryLift_bind_iff.mp hrun
    rw [runs_get_bind_iff] at hdefined
    cases hexisting : mid.definition? (.str "schemas") title with
    | some existing =>
      rw [hexisting] at hdefined
      obtain ⟨other, hother, hchecked⟩ := runs_registryLift_bind_iff.mp hdefined
      split at hchecked
      · obtain ⟨_, _, hthrown⟩ := runs_registryLift_bind_iff.mp hchecked
        obtain ⟨_, _, hthrow, _⟩ := runs_bind_iff.mp hthrown
        exact absurd hthrow not_runs_throw
      · rename_i hsame
        have hshapes : other = shape := by simpa using hsame
        subst hshapes
        simp only [runs_bind_iff, runs_pure_iff, runs_bind_iff', runs_bindShape_iff] at hchecked
        obtain ⟨_, _, rfl, _, _, rfl, rfl, rfl⟩ := hchecked
        exact .label hcompile hreference hshape hnew htitle hname hexisting hother rfl rfl rfl
    | none =>
      rw [hexisting] at hdefined
      simp only [runs_bind_iff, runs_pure_iff, runs_define_iff, runs_bind_iff',
        runs_bindShape_iff] at hdefined
      obtain ⟨_, _, rfl, _, _, rfl, _, _, rfl, _, _, hlog, rfl, rfl⟩ := hdefined
      have hdata := runs_addLogFrom hlog
      exact .publish hcompile hreference hshape hnew htitle hname hexisting hdata.components
        hdata.byIdentity hdata.byShape

theorem runs_chooseName {h : Heap} {v : Value} {name : Atom}
    (hrun : Runs (chooseName h v) reg name after) : Naming h v reg name after := by
  unfold chooseName at hrun
  obtain ⟨outcome, mid, hcompile, hrun⟩ := runs_bind_iff.mp hrun
  have hcompile := runs_runWalk hcompile
  cases outcome with
  | none => exact absurd hrun not_runs_throw
  | some schema =>
    obtain ⟨target?, hreference, hnamed⟩ := runs_registryLift_bind_iff.mp hrun
    cases target? with
    | some target =>
      obtain ⟨key, hkey, hbound⟩ := runs_registryLift_bind_iff.mp hnamed
      simp only [runs_bind_iff, runs_pure_iff, runs_bind_iff'] at hbound
      obtain ⟨_, _, rfl, rfl, rfl⟩ := hbound
      exact .reference hcompile hreference hkey rfl rfl rfl
    | none =>
      obtain ⟨shape, hshape, hfound⟩ := runs_registryLift_bind_iff.mp hnamed
      rw [runs_get_bind_iff] at hfound
      cases hknown : mid.byShape.get? shape with
      | some known =>
        rw [hknown] at hfound
        simp only [runs_bind_iff, runs_pure_iff, runs_bind_iff'] at hfound
        obtain ⟨_, _, rfl, _, _, hlog, rfl, rfl⟩ := hfound
        have hdata := runs_logReuse hlog
        exact .shape hcompile hreference hshape hknown hdata.components hdata.byIdentity hdata.byShape
      | none =>
        rw [hknown] at hfound
        exact runs_publish hcompile hreference hshape hknown hfound

theorem runs_nameFor {h : Heap} {v : Value} {name : Atom}
    (hrun : Runs (nameFor h v) reg name after) : Naming h v reg name after := by
  unfold nameFor at hrun
  rw [runs_get_bind_iff] at hrun
  cases hseen : v.identity?.bind reg.byIdentity.get? with
  | some known =>
    rw [hseen] at hrun
    obtain ⟨rfl, rfl⟩ := runs_pure_iff.mp hrun
    exact .seen hseen
  | none =>
    rw [hseen] at hrun
    exact runs_chooseName hrun

end Registry

end WireShape
