import WireShape.Proofs.Registry.Overwriting
import WireShape.Proofs.Rules

/-!
# What is registered stays

Outside of declarations, whatever is done with a registry only adds to it. A definition is written
where there is none, or one that is null, and a name where none has been remembered. This holds step
by step, so it holds as well of what a failure leaves behind: merging may stop halfway, with some of
its definitions added. Names are written last, after everything that can fail.

* `Registry.Defining`, `Registry.Adds`: properties of registries that additions keep.
* `Registry.Adds.nameFor`: the choice of a name keeps them, whether it succeeds or fails.
* `Registry.Operation`: what is done with a registry.
* `Registry.perform_adds`: every operation only adds, and names are given for good.
-/

namespace WireShape

namespace Registry

/-! ## Additions -/

/-- Properties of registries that are kept by what adds definitions. -/
structure Defining (I : Registry → Prop) : Prop where
  sameData : ∀ {reg after : Registry}, after.SameData reg → I reg → I after
  opened : ∀ {reg : Registry} {b : Atom}, I reg → OrderedMap.contains reg.components b = false →
    I { reg with components := reg.components ++ [(b, [])] }
  defined : ∀ {reg : Registry} {b n : Atom} (schema : Value), I reg → reg.definition? b n = none →
    I { reg with components := reg.components.define b n schema }

/-- Properties of registries that are kept by all additions, those of names as well. -/
structure Adds (I : Registry → Prop) : Prop extends Defining I where
  seen : ∀ {reg : Registry} {identity : Identity} (name : Atom), I reg →
    reg.byIdentity.get? identity = none →
      I { reg with byIdentity := reg.byIdentity.insert identity name }
  shaped : ∀ {reg : Registry} {shape : String} (name : Atom), I reg →
    reg.byShape.get? shape = none → I { reg with byShape := reg.byShape.insert shape name }

/-- A step keeps a property, whether it succeeds or fails. -/
def Preserves (I : Registry → Prop) {α : Type} (x : Registering α) : Prop :=
  ∀ reg, I reg → I (x reg).2

/-- A step that fails keeps a property. -/
def FailsKeeping (I : Registry → Prop) {α : Type} (x : Registering α) : Prop :=
  ∀ reg fault, (x reg).1 = .error fault → I reg → I (x reg).2

section Sequences

variable {α β : Type} {I : Registry → Prop} {x : Registering α} {f : α → Registering β}

theorem preserves_compositional : Compositional (Preserves I) where
  pure _ _ hreg := hreg
  throw _ _ hreg := hreg
  bind := by
    intro α β x f hx hf reg hreg
    have hmid := hx reg hreg
    rw [bind_run]
    rcases hrun : x reg with ⟨outcome, mid⟩
    rw [hrun] at hmid
    cases outcome with
    | error fault => exact hmid
    | ok a => exact hf a mid hmid

/-- What a step does may depend on the registry. -/
theorem preserves_get_bind {f : Registry → Registering α} (hf : ∀ reg, I reg → I (f reg reg).2) :
    Preserves I (get >>= f) := hf

theorem Preserves.runs {a : α} {reg after : Registry} (hx : Preserves I x) (hrun : Runs x reg a after)
    (hreg : I reg) : I after := by
  have hkept := hx reg hreg
  rwa [show x reg = (.ok a, after) from hrun] at hkept

theorem Preserves.fails (hx : Preserves I x) : FailsKeeping I x := fun reg _ _ hreg => hx reg hreg

theorem FailsKeeping.bind (hx : Preserves I x) (hf : ∀ a, FailsKeeping I (f a)) :
    FailsKeeping I (x >>= f) := by
  intro reg fault hfails hreg
  have hmid := hx reg hreg
  rw [bind_run] at hfails ⊢
  rcases hrun : x reg with ⟨outcome, mid⟩
  rw [hrun] at hfails hmid
  cases outcome with
  | error fault => exact hmid
  | ok a => exact hf a mid fault hfails hmid

/-- A step that cannot fail. -/
def Certain {α : Type} (x : Registering α) : Prop := ∀ reg fault, (x reg).1 ≠ .error fault

theorem Certain.fails (hx : Certain x) : FailsKeeping I x :=
  fun reg fault hfails => absurd hfails (hx reg fault)

theorem Certain.bind (hx : Certain x) (hf : ∀ a, Certain (f a)) : Certain (x >>= f) := by
  intro reg fault
  rw [bind_run]
  rcases hrun : x reg with ⟨outcome, mid⟩
  cases outcome with
  | error other => exact absurd (congrArg Prod.fst hrun) (hx reg other)
  | ok a => exact hf a mid fault

/-- What cannot fail may follow on what may. -/
theorem FailsKeeping.certain (hx : FailsKeeping I x) (hf : ∀ a, Certain (f a)) :
    FailsKeeping I (x >>= f) := by
  intro reg fault hfails hreg
  have hmid := hx reg
  rw [bind_run] at hfails ⊢
  rcases hrun : x reg with ⟨outcome, mid⟩
  rw [hrun] at hfails hmid
  cases outcome with
  | error other => exact hmid other rfl hreg
  | ok a => exact absurd hfails (hf a mid fault)

/-- What would follow on a failure is not done. -/
theorem bind_after_failure {reg : Registry} {fault : Fault} (hfails : (x reg).1 = .error fault) :
    ((x >>= f) reg).2 = (x reg).2 := by
  rw [bind_run]
  rcases hrun : x reg with ⟨outcome, mid⟩
  rw [hrun] at hfails
  cases hfails
  rfl

theorem certain_pure {a : α} : Certain (pure a) := fun _ _ => nofun

theorem certain_modify {g : Registry → Registry} : Certain (modify g) := fun _ _ => nofun

/-- A step that is made on a condition, and what follows in both cases. -/
theorem FailsKeeping.join {p : Prop} [Decidable p] {f : Unit → Registering β}
    {x : Registering Unit} (hx : Preserves I x) (hf : FailsKeeping I (f ())) :
    FailsKeeping I (if p then x >>= f else f ()) := by
  split
  · exact .bind hx fun _ => hf
  · exact hf

end Sequences

/-! ## Steps that add definitions -/

namespace Defining

variable {h : Heap} {I : Registry → Prop} {v : Value} (hI : Defining I)
include hI

theorem logged {reg : Registry} {log : Array LogEntry} (hreg : I reg) :
    I { reg with log := log } := by
  have hsame : SameData { reg with log := log } reg := ⟨rfl, rfl, rfl⟩
  exact hI.sameData hsame hreg

theorem preserves_addLogFrom {level : LogLevel} {message : Except Fault String} :
    Preserves I (addLogFrom level message) := by
  intro reg hreg
  cases message with
  | error => exact hreg
  | ok text => exact hI.logged hreg

theorem preserves_openBucket {b : Atom} : Preserves I (openBucket b) := by
  intro reg hreg
  change I (if OrderedMap.contains reg.components b then reg
    else { reg with components := reg.components ++ [(b, [])] })
  split
  · exact hreg
  · rename_i hnew
    exact hI.opened hreg (Bool.eq_false_iff.mpr hnew)

theorem preserves_addDefinition {b n : Atom} {schema : Value} :
    Preserves I (addDefinition h b n schema) := by
  refine preserves_get_bind fun reg hreg => ?_
  have hlift : ∀ {α : Type} (r : Except Fault α), Preserves I (lift r) := fun _ =>
    preserves_compositional.lift
  cases hfound : reg.definition? b n with
  | none => exact hI.defined _ hreg hfound
  | some existing =>
    refine (preserves_compositional.bind (hlift _) fun _ => preserves_compositional.bind (hlift _) fun _ =>
      Compositional.ite ?_ (preserves_compositional.pure _)) reg hreg
    exact preserves_compositional.bind (hlift _) fun _ => preserves_compositional.bind (hlift _) fun _ =>
      preserves_compositional.throw _

theorem preserves_addDefinitions {b : Atom} {entries : OrderedMap Atom Value} :
    Preserves I (entries.forM fun (n, schema) => Registry.addDefinition h b n schema) :=
  preserves_compositional.forM fun _ _ => hI.preserves_addDefinition

theorem preserves_merge {created : Components} : Preserves I (merge h created) :=
  preserves_compositional.forM fun _ _ => preserves_compositional.bind hI.preserves_openBucket fun _ =>
    hI.preserves_addDefinitions

theorem preserves_mergeValue {created : Value} : Preserves I (mergeValue h created) := by
  refine preserves_compositional.bind preserves_compositional.lift fun _ => ?_
  refine preserves_compositional.forM fun _ _ => ?_
  refine preserves_compositional.bind hI.preserves_openBucket fun _ => ?_
  exact preserves_compositional.bind preserves_compositional.lift fun _ => hI.preserves_addDefinitions

theorem preserves_runWalk {walk : Walk Compiled} : Preserves I (runWalk h walk) := by
  refine preserves_get_bind fun reg hreg => ?_
  rcases walk { known := reg.components } with ⟨outcome, ctx⟩
  refine (preserves_compositional.bind preserves_compositional.lift fun _ =>
    preserves_compositional.bind hI.preserves_merge fun _ => preserves_compositional.pure _) _ (hI.logged hreg)

theorem preserves_buildParameter {headerStart : Value} : Preserves I (buildParameter h v headerStart) :=
  preserves_compositional.buildParameter hI.preserves_runWalk fun _ _ => hI.preserves_addLogFrom

end Defining

/-! ## Names that cannot be chosen -/

section Names

variable {h : Heap} {v : Value} {I : Registry → Prop}

theorem certain_addLogFrom {level : LogLevel} {message : Except Fault String} :
    Certain (addLogFrom level message) := by
  cases message with
  | ok => exact certain_modify
  | error => exact certain_pure

theorem certain_bind {name : Atom} : Certain (bind v name) := by
  unfold bind
  split
  · exact certain_modify
  · exact certain_pure

theorem certain_logReuse {name : Atom} {label : Value} : Certain (logReuse h name label) := by
  unfold logReuse
  split <;> exact certain_addLogFrom

theorem fails_publish {schema : Value} {shape : String} :
    FailsKeeping I (publish h v schema shape) := by
  have hlift : ∀ {α : Type} {r : Except Fault α}, Preserves I (lift r) := preserves_compositional.lift
  have hthrow : ∀ {α : Type} fault, Preserves I (throw fault : Registering α) :=
    preserves_compositional.throw
  have hnamed : ∀ name, Certain (do
      bind v name
      bindShape shape name
      return name : Registering Atom) := fun name =>
    certain_bind.bind fun _ => certain_modify.bind fun _ => certain_pure
  unfold publish
  refine .join (hthrow _) (.bind hlift fun name => .bind (fun _ hreg => hreg) fun reg => ?_)
  split
  · refine .bind hlift fun _ => ?_
    split
    · exact .bind hlift fun _ => .bind (hthrow _) fun _ => (hnamed name).fails
    · exact (hnamed name).fails
  · refine (certain_modify.bind fun _ => certain_bind.bind fun _ => ?_).fails
    exact certain_modify.bind fun _ => certain_addLogFrom.bind fun _ => certain_pure

/-- Where no name can be chosen, only definitions have been added. -/
theorem Defining.nameFor_fails (hI : Defining I) : FailsKeeping I (nameFor h v) := by
  have hlift : ∀ {α : Type} {r : Except Fault α}, Preserves I (lift r) := preserves_compositional.lift
  refine .bind (fun _ hreg => hreg) fun reg => ?_
  split
  · exact certain_pure.fails
  · refine .bind hI.preserves_runWalk fun r => ?_
    cases r with
    | none => exact Preserves.fails (preserves_compositional.throw _)
    | some schema =>
      refine .bind hlift fun target => ?_
      cases target with
      | some target =>
        exact .bind hlift fun _ => (certain_bind.bind fun _ => certain_pure).fails
      | none =>
        refine .bind hlift fun shape => .bind (fun _ hreg => hreg) fun reg => ?_
        split
        · refine (certain_bind.bind fun _ => ?_).fails
          exact certain_logReuse.bind fun _ => certain_pure
        · exact fails_publish

end Names

/-! ## Names that are chosen -/

/-- Two registries give the same names. -/
structure SameNames (after before : Registry) : Prop where
  byIdentity : after.byIdentity = before.byIdentity
  byShape : after.byShape = before.byShape

theorem defining_sameNames {reg : Registry} : Defining fun later => later.SameNames reg where
  sameData hsame hnames := ⟨hsame.byIdentity.trans hnames.byIdentity,
    hsame.byShape.trans hnames.byShape⟩
  opened hnames _ := ⟨hnames.byIdentity, hnames.byShape⟩
  defined _ hnames _ := ⟨hnames.byIdentity, hnames.byShape⟩

section Choices

variable {h : Heap} {v : Value} {I : Registry → Prop} {reg mid after : Registry} {name : Atom}
  {r : Compiled}

theorem Defining.compiling {walk : Walk Compiled} (hI : Defining I)
    (hcompile : Compiling h walk reg r after) (hreg : I reg) : I after := by
  obtain ⟨_, hlogged, hmerge⟩ := hcompile
  exact hI.preserves_merge.runs hmerge (hI.sameData hlogged hreg)

/-- A name is remembered for a schema that has none. -/
theorem Adds.bound (hI : Adds I) (name : Atom) (hmid : I mid)
    (hnew : v.identity?.bind mid.byIdentity.get? = none) :
    I { mid with byIdentity := mid.bound v name } := by
  unfold Registry.bound
  cases hv : v.identity? with
  | none => exact hmid
  | some identity =>
    rw [hv] at hnew
    exact hI.seen name hmid hnew

/-- What is done under a name that is chosen for a schema only adds. -/
theorem Adds.naming (hI : Adds I) (hnew : v.identity?.bind reg.byIdentity.get? = none)
    (hnaming : Naming h v reg name after) (hreg : I reg) : I after := by
  have hcompiled : ∀ {mid schema}, Compiling h (h.compile v) reg (some schema) mid →
      I mid ∧ v.identity?.bind mid.byIdentity.get? = none := by
    intro mid schema hcompile
    have hnames := defining_sameNames.compiling hcompile (⟨rfl, rfl⟩ : reg.SameNames reg)
    exact ⟨hI.compiling hcompile hreg, by rw [hnames.byIdentity]; exact hnew⟩
  cases hnaming with
  | seen => exact hreg
  | reference hcompile _ _ hcomponents hidentity hbyShape =>
    obtain ⟨hmid, hunseen⟩ := hcompiled hcompile
    refine hI.sameData ?_ (hI.bound name hmid hunseen)
    exact ⟨hcomponents, hidentity, hbyShape⟩
  | shape hcompile _ _ _ hcomponents hidentity hbyShape =>
    obtain ⟨hmid, hunseen⟩ := hcompiled hcompile
    refine hI.sameData ?_ (hI.bound name hmid hunseen)
    exact ⟨hcomponents, hidentity, hbyShape⟩
  | label hcompile _ _ hshape _ _ _ _ hcomponents hidentity hbyShape =>
    obtain ⟨hmid, hunseen⟩ := hcompiled hcompile
    refine hI.sameData ?_ (hI.shaped name (hI.bound name hmid hunseen) hshape)
    exact ⟨hcomponents, hidentity, hbyShape⟩
  | @publish _ _ schema _ _ hcompile _ _ hshape _ _ hfree hcomponents hidentity hbyShape =>
    obtain ⟨hmid, hunseen⟩ := hcompiled hcompile
    have hdefined := hI.defined (Json.withoutTitle schema) hmid hfree
    refine hI.sameData ?_ (hI.shaped name (hI.bound name hdefined hunseen) hshape)
    exact ⟨hcomponents, hidentity, hbyShape⟩

theorem nameFor_of_seen (hseen : v.identity?.bind reg.byIdentity.get? = some name) :
    Runs (Registry.nameFor h v) reg name reg := by
  unfold Registry.nameFor
  rw [runs_get_bind_iff, hseen]
  exact runs_pure_iff.mpr ⟨rfl, rfl⟩

theorem nameFor_of_new (hnew : v.identity?.bind reg.byIdentity.get? = none) :
    Registry.nameFor h v reg = chooseName h v reg := by
  have hget : Runs (get : Registering Registry) reg reg reg := runs_get_iff.mpr ⟨rfl, rfl⟩
  unfold Registry.nameFor
  rw [hget.bind_eq, hnew]

/-- The choice of a name only adds, whether it succeeds or fails. -/
theorem Adds.nameFor (hI : Adds I) : Preserves I (nameFor h v) := by
  intro reg hreg
  rcases hrun : Registry.nameFor h v reg with ⟨outcome, after⟩
  cases outcome with
  | error fault =>
    have hkept := hI.nameFor_fails reg fault (congrArg Prod.fst hrun) hreg
    rwa [hrun] at hkept
  | ok name =>
    cases hseen : v.identity?.bind reg.byIdentity.get? with
    | none => exact hI.naming hseen (runs_nameFor hrun) hreg
    | some known =>
      obtain ⟨_, rfl⟩ := Runs.unique hrun (nameFor_of_seen hseen)
      exact hreg

end Choices

/-! ## Operations -/

/-- What is done with a registry outside of declarations. -/
inductive Operation
  | compile (v : Value)
  | nameFor (v : Value)
  | merge (created : Value)
  | buildParameter (v headerStart : Value)

/-- An operation, whatever it answers. -/
def Operation.perform (h : Heap) : Operation → Registering Unit
  | compile v => do let _ ← Registry.compile h v
  | nameFor v => do let _ ← Registry.nameFor h v
  | merge created => mergeValue h created
  | buildParameter v headerStart => do let _ ← Registry.buildParameter h v headerStart

/-- The value that an operation walks, if it walks one. -/
def Operation.walked? : Operation → Option Value
  | compile v | nameFor v | buildParameter v _ => some v
  | merge _ => none

/-- The registry after some operations; those that fail leave what they have done. -/
def performAll (h : Heap) (ops : List Operation) (reg : Registry) : Registry :=
  ops.foldl (fun reg op => (op.perform h reg).2) reg

/-- No definition is null. -/
def HasNoNulls (reg : Registry) : Prop := ∀ b n, reg.components.find? b n ≠ some .null

/-- Every name that a registry gives, the other gives as well. -/
structure KeepsNames (before after : Registry) : Prop where
  byIdentity : ∀ i name, before.byIdentity.get? i = some name → after.byIdentity.get? i = some name
  byShape : ∀ s name, before.byShape.get? s = some name → after.byShape.get? s = some name

/-- Every entry of a registry is one of the other as well. -/
structure OnlyAdds (before after : Registry) : Prop extends KeepsNames before after where
  definitions : ∀ b n d, before.components.find? b n = some d →
    after.components.find? b n = some d

section Operations

variable {h : Heap} {v : Value} {I : Registry → Prop} {reg after : Registry} {name : Atom}

theorem KeepsNames.refl : reg.KeepsNames reg := ⟨fun _ _ hname => hname, fun _ _ hname => hname⟩

/-- A new key is written: what stands under other keys is found as before. -/
theorem get?_insert_of_new {κ : Type} [BEq κ] [LawfulBEq κ] {m : OrderedMap κ Atom} {k j : κ}
    {found : Atom} (hnew : m.get? k = none) (hfound : m.get? j = some found) :
    (m.insert k name).get? j = some found := by
  have hne : k ≠ j := by
    rintro rfl
    rw [hnew] at hfound
    cases hfound
  rw [OrderedMap.get?_insert_of_ne m name hne, hfound]

theorem adds_keepsNames : Adds reg.KeepsNames where
  sameData hsame hkept := by
    refine ⟨?_, ?_⟩
    · rw [hsame.byIdentity]
      exact hkept.byIdentity
    · rw [hsame.byShape]
      exact hkept.byShape
  opened hkept _ := ⟨hkept.byIdentity, hkept.byShape⟩
  defined _ hkept _ := ⟨hkept.byIdentity, hkept.byShape⟩
  seen _ hkept hnew :=
    ⟨fun i found hfound => get?_insert_of_new hnew (hkept.byIdentity i found hfound), hkept.byShape⟩
  shaped _ hkept hnew :=
    ⟨hkept.byIdentity, fun s found hfound => get?_insert_of_new hnew (hkept.byShape s found hfound)⟩

theorem adds_retains : Adds reg.Retains where
  sameData hsame hkept := hkept.trans (.of_components hsame.components)
  opened {later b} hkept hnew := by
    refine hkept.trans (openBucket_retains (b := b) (i := ()) (runs_openBucket_iff.mpr ?_))
    rw [hnew]
    rfl
  defined schema hkept hfree := by
    refine hkept.trans (Adding.retains (h := {}) (.new hfree))
  seen _ hkept _ := hkept
  shaped _ hkept _ := hkept

/-- Nothing is written over where there is no null. -/
theorem onlyAdds_of_retains (hnulls : reg.HasNoNulls) (hkept : reg.Retains after)
    (hnames : reg.KeepsNames after) : reg.OnlyAdds after := by
  refine ⟨hnames, fun b n d hfound => ?_⟩
  have hnull : d ≠ .null := fun heq => hnulls b n (heq ▸ hfound)
  exact (definition?_eq_some_iff.mp
    (hkept b n d (definition?_eq_some_iff.mpr ⟨hfound, isNull_eq_false hnull⟩))).1

/-- Every operation keeps what additions keep, whether it succeeds or fails. -/
theorem Adds.perform (hI : Adds I) (op : Operation) : Preserves I (op.perform h) := by
  cases op with
  | compile v =>
    exact preserves_compositional.bind hI.preserves_runWalk fun _ => preserves_compositional.pure _
  | nameFor v => exact preserves_compositional.bind hI.nameFor fun _ => preserves_compositional.pure _
  | merge created => exact hI.preserves_mergeValue
  | buildParameter v headerStart =>
    exact preserves_compositional.bind hI.preserves_buildParameter fun _ => preserves_compositional.pure _

/-- So do runs of operations. -/
theorem Adds.performAll (hI : Adds I) (ops : List Operation) (hreg : I reg) :
    I (performAll h ops reg) := by
  induction ops generalizing reg with
  | nil => exact hreg
  | cons op ops ih => exact ih (hI.perform op reg hreg)

/-- An operation that fails gives no names. -/
theorem perform_fails {op : Operation} {fault : Fault}
    (hfails : (op.perform h reg).1 = .error fault) : (op.perform h reg).2.SameNames reg := by
  have hI : Defining fun later => later.SameNames reg := defining_sameNames
  have hkept : FailsKeeping (fun later => later.SameNames reg) (op.perform h) := by
    cases op with
    | compile v => exact hI.preserves_runWalk.fails.certain fun _ => certain_pure
    | nameFor v => exact hI.nameFor_fails.certain fun _ => certain_pure
    | merge created => exact hI.preserves_mergeValue.fails
    | buildParameter v headerStart =>
      exact hI.preserves_buildParameter.fails.certain fun _ => certain_pure
  exact hkept reg fault hfails ⟨rfl, rfl⟩

/-- A walk that fails adds nothing. -/
theorem compile_of_error {fault : Fault}
    (hfails : (h.compile v { known := reg.components }).1 = .error fault) :
    (compile h v reg).1 = .error fault ∧ (compile h v reg).2.components = reg.components := by
  have hget : Runs (get : Registering Registry) reg reg reg := runs_get_iff.mpr ⟨rfl, rfl⟩
  rcases hwalk : h.compile v { known := reg.components } with ⟨outcome, ctx⟩
  rw [hwalk] at hfails
  cases hfails
  unfold compile runWalk
  rw [hget.bind_eq, hwalk]
  exact ⟨rfl, rfl⟩

/-- Where the walk of an operation fails, nothing is added. -/
theorem perform_of_error {op : Operation} {fault : Fault} (hop : op.walked? = some v)
    (hfails : (h.compile v { known := reg.components }).1 = .error fault) :
    (op.perform h reg).2.components = reg.components := by
  obtain ⟨hcompile, hsame⟩ := compile_of_error hfails
  cases op with
  | merge created => cases hop
  | compile v' =>
    cases hop
    exact (congrArg components (bind_after_failure hcompile)).trans hsame
  | buildParameter v' headerStart =>
    cases hop
    have hbuild : (buildParameter h v headerStart reg).1 = .error fault := bind_fails hcompile
    refine (congrArg components (bind_after_failure hbuild)).trans ?_
    exact (congrArg components (bind_after_failure hcompile)).trans hsame
  | nameFor v' =>
    cases hop
    cases hseen : v.identity?.bind reg.byIdentity.get? with
    | some name =>
      have hknown := nameFor_of_seen (h := h) hseen
      exact congrArg components (congrArg Prod.snd hknown.bind_eq)
    | none =>
      have hchoose := nameFor_of_new (h := h) hseen
      have hname : (nameFor h v reg).1 = .error fault := by
        rw [hchoose]
        exact bind_fails hcompile
      refine (congrArg components (bind_after_failure hname)).trans ?_
      rw [hchoose]
      exact (congrArg components (bind_after_failure hcompile)).trans hsame

/-- A name that has been chosen is remembered. -/
theorem nameFor_remembers {i : Identity} (hv : v.identity? = some i)
    (hrun : Runs (nameFor h v) reg name after) : after.byIdentity.get? i = some name := by
  have hbound : ∀ {mid : Registry}, after.byIdentity = mid.bound v name →
      after.byIdentity.get? i = some name := by
    intro mid hidentity
    rw [hidentity, Registry.bound, hv]
    exact OrderedMap.get?_insert_self _ _ _
  cases runs_nameFor hrun with
  | seen hseen =>
    rw [hv] at hseen
    exact hseen
  | reference _ _ _ _ hidentity _ => exact hbound hidentity
  | shape _ _ _ _ _ hidentity _ => exact hbound hidentity
  | label _ _ _ _ _ _ _ _ _ hidentity _ => exact hbound hidentity
  | publish _ _ _ _ _ _ _ _ hidentity _ => exact hbound hidentity

end Operations

/-- Whatever is done with a registry in which no definition is null only adds to it, whether it
succeeds or fails: every definition and every name that is there stays as it is. What fails gives no
names, and where it is the walk that fails, nothing is defined either. So a schema that has been
given a name has this name after all that is done later. -/
theorem perform_adds (h : Heap) (reg : Registry) :
    (reg.HasNoNulls → ∀ op : Operation,
      reg.OnlyAdds (op.perform h reg).2 ∧
      (∀ fault, (op.perform h reg).1 = .error fault → (op.perform h reg).2.SameNames reg) ∧
      ∀ v fault, op.walked? = some v → (h.compile v { known := reg.components }).1 = .error fault →
        (op.perform h reg).2.components = reg.components) ∧
    (reg.HasNoNulls → ∀ ops, reg.OnlyAdds (performAll h ops reg)) ∧
    ∀ v i name after, v.identity? = some i → Runs (nameFor h v) reg name after → ∀ ops,
      Runs (nameFor h v) (performAll h ops after) name (performAll h ops after) := by
  refine ⟨fun hnulls op => ⟨?_, fun _ => perform_fails, fun _ _ => perform_of_error⟩,
    fun hnulls ops => ?_, fun v i name after hv hrun ops => ?_⟩
  · exact onlyAdds_of_retains hnulls (adds_retains.perform op reg .refl)
      (adds_keepsNames.perform op reg .refl)
  · exact onlyAdds_of_retains hnulls (adds_retains.performAll ops .refl)
      (adds_keepsNames.performAll ops .refl)
  · have hkept : after.KeepsNames (performAll h ops after) := adds_keepsNames.performAll ops .refl
    have hlater := hkept.byIdentity i name (nameFor_remembers hv hrun)
    refine nameFor_of_seen ?_
    rw [hv]
    exact hlater

/-- A desk with a seat, a row of seats without a label, and a node of a kind that there is not. -/
def deskHeap : Heap where
  nodes := #[{ kind := "string" },
    { kind := "object", children := [(.str "row", .node 0)],
      metadata := [(.str "className", .str "Seat")] },
    { kind := "object", children := [(.str "seat", .node 1)], flags := [("label", .str "Desk")] },
    { kind := "array", items := [.node 1] },
    { kind := "sofa" }]

/-- The row of seats has no name to be found under, but its seat stays defined; the sofa leaves
nothing. A desk that is named has its name after both failures. -/
theorem perform_adds_desk :
    HasNoNulls {} ∧
    ((Operation.nameFor (.node 3)).perform deskHeap {}).1 = .error .missingLabel ∧
    OnlyAdds {} ((Operation.nameFor (.node 3)).perform deskHeap {}).2 ∧
    ((Operation.nameFor (.node 3)).perform deskHeap {}).2.SameNames {} ∧
    ((Operation.compile (.node 4)).perform deskHeap {}).2.components = ({} : Registry).components ∧
    ∃ after, Runs (nameFor deskHeap (.node 2)) {} (.str "Desk") after ∧
      ∀ ops, Runs (nameFor deskHeap (.node 2)) (performAll deskHeap ops after) (.str "Desk")
        (performAll deskHeap ops after) := by
  have hnulls : HasNoNulls {} := by
    intro b n hfound
    obtain ⟨bucket, hbucket, entry, hentry, _⟩ := Components.mem_of_find? hfound
    rcases List.mem_cons.mp hbucket with rfl | hrest
    · cases hentry
    · obtain rfl := List.mem_singleton.mp hrest
      cases hentry
  have hlabel : ((Operation.nameFor (.node 3)).perform deskHeap {}).1 = .error .missingLabel := rfl
  obtain ⟨honly, _, hnames⟩ := perform_adds deskHeap {}
  obtain ⟨hadds, hfails, _⟩ := honly hnulls (.nameFor (.node 3))
  have hwalk := (honly hnulls (.compile (.node 4))).2.2 (.node 4) (.unknownKind "sofa") rfl rfl
  have hrun : ∃ after, Runs (nameFor deskHeap (.node 2)) {} (.str "Desk") after := ⟨_, rfl⟩
  obtain ⟨after, hrun⟩ := hrun
  exact ⟨hnulls, hlabel, hadds, hfails _ hlabel, hwalk, after, hrun,
    hnames _ (.node 2) _ after rfl hrun⟩

end Registry

end WireShape
