import WireShape.Proofs.Compile.Created
import WireShape.Proofs.Registry.Shapes

/-!
# What a declaration writes over

Merging what a walk has created never writes over a definition: under a name that is taken, it
accepts only a definition of the same shape. A declaration then writes the schema under its own name
without looking at what stands there. So everything is kept but the definition of that one name, be
it older or created by the walk of the declaration itself. A class that is declared under its own
name is lost that way, and what is left in its place refers to itself.

* `Registry.Retains`: nothing is written over.
* `Registry.declare_retains`: what a declaration keeps, and what it writes.
* `Registry.declare_own_class`: a class declared under its own name.
-/

namespace WireShape

namespace Registry

variable {h : Heap} {reg mid after : Registry} {v schema d : Value} {name b n : Atom}
  {r : Compiled} {i : Unit}

/-! ## Definitions that are found -/

theorem isNull_eq_false (hd : d ≠ .null) : d.isNull = false :=
  Bool.eq_false_iff.mpr fun hnull => hd (Value.isNull_iff.mp hnull)

/-- A definition is found if it is there and not null. -/
theorem definition?_eq_some_iff :
    reg.definition? b n = some d ↔ reg.components.find? b n = some d ∧ d.isNull = false := by
  unfold definition? Components.find?
  constructor
  · intro hfound
    split at hfound
    · cases hfound
    · rename_i hd
      refine ⟨hfound, isNull_eq_false ?_⟩
      rintro rfl
      exact hd hfound
  · rintro ⟨hfound, hnull⟩
    rw [hfound]
    split
    · rename_i heq
      cases heq
      cases hnull
    · rfl

/-- Keys that are the same find the same definition. -/
theorem definition?_congr {b' n' : Atom} (hb : (b == b') = true) (hn : (n == n') = true) :
    reg.definition? b n = reg.definition? b' n' := by
  unfold definition?
  rw [Components.bucket_congr hb, OrderedMap.get?_congr hn]

/-- Nothing that is defined is written over. -/
def Retains (reg after : Registry) : Prop :=
  ∀ b n d, reg.definition? b n = some d → after.definition? b n = some d

theorem Retains.refl : reg.Retains reg := fun _ _ _ hfound => hfound

theorem Retains.trans (h₁ : reg.Retains mid) (h₂ : mid.Retains after) : reg.Retains after :=
  fun b n d hfound => h₂ b n d (h₁ b n d hfound)

theorem Retains.of_components (heq : after.components = reg.components) : reg.Retains after := by
  intro b n d hfound
  unfold definition? at hfound ⊢
  rwa [heq]

/-- Writing under one name keeps the definitions of all others. -/
theorem definition?_define_of_ne {b' n' : Atom}
    (heq : after.components = reg.components.define b n schema)
    (hne : ((b == b') && (n == n')) = false) (hfound : reg.definition? b' n' = some d) :
    after.definition? b' n' = some d := by
  obtain ⟨hfound, hnull⟩ := definition?_eq_some_iff.mp hfound
  refine definition?_eq_some_iff.mpr ⟨?_, hnull⟩
  rw [heq, Components.find?_define, hne]
  exact hfound

/-- What is written under a name is found under it. -/
theorem definition?_define_self {b' n' : Atom}
    (heq : after.components = reg.components.define b n d) (hnull : d.isNull = false)
    (hb : (b == b') = true) (hn : (n == n') = true) : after.definition? b' n' = some d := by
  refine definition?_eq_some_iff.mpr ⟨?_, hnull⟩
  rw [heq, Components.find?_define, hb, hn]
  rfl

/-! ## Merging -/

theorem Adding.retains (hadd : Adding h b n schema reg after) : reg.Retains after := by
  cases hadd with
  | old => exact .refl
  | new hnone =>
    intro b' n' d hfound
    refine definition?_define_of_ne rfl (Bool.eq_false_iff.mpr fun hsame => ?_) hfound
    obtain ⟨hb, hn⟩ := Bool.and_eq_true_iff.mp hsame
    rw [definition?_congr hb hn, hfound] at hnone
    cases hnone

theorem openBucket_retains (hrun : Runs (openBucket b) reg i after) : reg.Retains after := by
  intro b' n' d hfound
  unfold definition? at hfound ⊢
  rwa [openBucket_bucket hrun]

/-- Merging writes over nothing. -/
theorem merge_retains {created : Components} (hrun : Runs (merge h created) reg i after) :
    reg.Retains after :=
  runs_merge_preserves (I := fun later => reg.Retains later) hrun
    (fun _ _ _ _ _ hopen hkept => hkept.trans (openBucket_retains hopen))
    (fun _ _ _ _ _ _ hadd hkept => hkept.trans hadd.retains) .refl

/-- A definition of the shape of a schema. -/
def DefinesShape (h : Heap) (reg : Registry) (b n : Atom) (schema : Value) : Prop :=
  ∃ d, reg.definition? b n = some d ∧
    Json.canonical h.describe d = Json.canonical h.describe schema

theorem Retains.definesShape (hkept : reg.Retains after) (hdefined : DefinesShape h reg b n schema) :
    DefinesShape h after b n schema := by
  obtain ⟨d, hd, hshape⟩ := hdefined
  exact ⟨d, hkept b n d hd, hshape⟩

/-- What is added has its shape afterwards. -/
theorem Adding.definesShape (hadd : Adding h b n schema reg after) (hnull : schema.isNull = false)
    {b' n' : Atom} (hb : (b == b') = true) (hn : (n == n') = true) :
    DefinesShape h after b' n' schema := by
  cases hadd with
  | new => exact ⟨schema, definition?_define_self rfl hnull hb hn, rfl⟩
  | old hsome hexisting hschema =>
    exact ⟨_, (definition?_congr hb hn).symm.trans hsome, hexisting.trans hschema.symm⟩

/-- What is merged has its shape afterwards. -/
theorem merge_definesShape {created : Components} (hrun : Runs (merge h created) reg i after)
    (hfound : created.find? b n = some d) (hnull : d.isNull = false) :
    DefinesShape h after b n d := by
  have hall : ∀ bucket ∈ created, ∀ entry ∈ bucket.2, entry.2.isNull = false → ∀ b n,
      (bucket.1 == b) = true → (entry.1 == n) = true → DefinesShape h after b n entry.2 := by
    refine runs_merge_entries (P := fun place what d later => d.isNull = false → ∀ b n,
      (place == b) = true → (what == n) = true → DefinesShape h later b n d) hrun ?_ ?_ ?_
    · exact fun _ _ _ _ hopen _ _ _ hdefined hnull b n hb hn =>
        (openBucket_retains hopen).definesShape (hdefined hnull b n hb hn)
    · exact fun _ _ _ _ _ hadd _ _ _ hdefined hnull b n hb hn =>
        hadd.retains.definesShape (hdefined hnull b n hb hn)
    · exact fun _ _ _ _ _ _ hadd hnull _ _ hb hn => hadd.definesShape hnull hb hn
  obtain ⟨bucket, hbucket, entry, hentry, hb, hn, rfl⟩ := Components.mem_of_find? hfound
  exact hall bucket hbucket entry hentry hnull b n hb hn

/-- Compiling keeps what is defined, and defines what its walk creates. -/
theorem Compiling.keeps (hcompile : Compiling h (h.compile v) reg r after) :
    reg.Retains after ∧ ∃ ctx, Runs (h.compile v) { known := reg.components } r ctx ∧
      ∀ b n d, ctx.created.find? b n = some d → DefinesShape h after b n d := by
  obtain @⟨ctx, logged, _, hwalk, hlogged, hmerge⟩ := hcompile
  refine ⟨(Retains.of_components hlogged.components).trans (merge_retains hmerge), ctx, hwalk, ?_⟩
  intro b n d hfound
  obtain ⟨s, _, hrun⟩ := runs_compile_iff.mp hwalk
  obtain ⟨_, _, _, _, hdefines, _⟩ := (walked_of_runs hrun).defines rfl hfound
  exact merge_definesShape hmerge hfound hdefines.ne_null

/-! ## Declaring -/

/-- A declaration keeps the shape of every definition, older or created by its own walk, but for
the one of its own name: there the schema is found afterwards that the walk answered. -/
theorem declare_retains (hrun : Runs (declare h name v) reg r after) :
    ∃ ctx, Runs (h.compile v) { known := reg.components } r ctx ∧
      ∀ b n d, reg.definition? b n = some d ∨ ctx.created.find? b n = some d →
        DefinesShape h after b n d ∨
          (.str "schemas" == b) = true ∧ (name == n) = true ∧
            ∃ schema, r = some schema ∧ after.definition? b n = some schema := by
  unfold declare at hrun
  obtain ⟨outcome, mid, hcompile, hrest⟩ := runs_bind_iff.mp hrun
  obtain ⟨hkept, ctx, hwalk, hcreated⟩ := (runs_runWalk hcompile).keeps
  have hmid : ∀ b n d, reg.definition? b n = some d ∨ ctx.created.find? b n = some d →
      DefinesShape h mid b n d := by
    rintro b n d (hold | hnew)
    · exact ⟨d, hkept b n d hold, rfl⟩
    · exact hcreated b n d hnew
  have hnull : outcome ≠ some .null := by
    obtain ⟨s, _, hrun⟩ := runs_compile_iff.mp hwalk
    exact (walked_of_runs hrun).ne_null
  cases outcome with
  | none =>
    simp only [runs_bind_iff, runs_pure_iff] at hrest
    obtain ⟨_, _, hlog, rfl, rfl⟩ := hrest
    refine ⟨ctx, hwalk, fun b n d hd => .inl ?_⟩
    exact (Retains.of_components (runs_addLogFrom hlog).components).definesShape (hmid b n d hd)
  | some schema =>
    simp only [runs_bind_iff, runs_pure_iff, runs_registryLift_iff, runs_define_iff,
      runs_bind_iff', runs_bindShape_iff] at hrest
    obtain ⟨_, _, rfl, _, _, rfl, _, _, ⟨_, rfl⟩, _, _, rfl, rfl, rfl⟩ := hrest
    refine ⟨ctx, hwalk, fun b n d hd => ?_⟩
    cases hname : ((.str "schemas" : Atom) == b) && (name == n) with
    | false =>
      obtain ⟨e, he, hshape⟩ := hmid b n d hd
      exact .inl ⟨e, definition?_define_of_ne rfl hname he, hshape⟩
    | true =>
      obtain ⟨hb, hn⟩ := Bool.and_eq_true_iff.mp hname
      refine .inr ⟨hb, hn, schema, rfl, definition?_define_self rfl ?_ hb hn⟩
      exact isNull_eq_false fun heq => hnull (congrArg some heq)

/-- A ticket is declared and the seats that it needs are defined along the way. -/
theorem declare_retains_ticket :
    ∃ r after ctx, Runs (declare ticketHeap (.str "Ticket") (.node 2)) {} r after ∧
      Runs (ticketHeap.compile (.node 2)) { known := ({} : Registry).components } r ctx ∧
      ∀ b n d, ({} : Registry).definition? b n = some d ∨ ctx.created.find? b n = some d →
        DefinesShape ticketHeap after b n d ∨
          (.str "schemas" == b) = true ∧ (.str "Ticket" == n) = true ∧
            ∃ schema, r = some schema ∧ after.definition? b n = some schema := by
  have hrun : ∃ r after, Runs (declare ticketHeap (.str "Ticket") (.node 2)) {} r after :=
    ⟨_, _, rfl⟩
  obtain ⟨r, after, hrun⟩ := hrun
  obtain ⟨ctx, hwalk, hkept⟩ := declare_retains hrun
  exact ⟨r, after, ctx, hrun, hwalk, hkept⟩

/-- A class that is declared under its own name leaves a definition that refers to itself. -/
theorem declare_own_class {s : Schema} {what : String} (hs : rootSchema v = .ok s)
    (hoverride : (h.view s).override.isNull = true)
    (hclass : (h.view s).class? = .ok (some (.str "schemas", .str what)))
    (hallowed : (h.view s).isForbidden = false)
    (hrun : Runs (declare h (.str what) v) reg r after) :
    after.definition? (.str "schemas") (.str what) = some (reference "schemas" what) := by
  have hrefers : ∀ {r mid}, Compiling h (h.compile v) reg r mid →
      r = some (reference "schemas" what) := by
    rintro r mid ⟨hwalk, _, _⟩
    obtain ⟨s', hs', hrun⟩ := runs_compile_iff.mp hwalk
    cases hs.symm.trans hs'
    obtain ⟨place, shown, hplace, hshown, rfl⟩ :=
      (walked_of_runs hrun).step.refers hoverride hclass hallowed
    cases hplace
    cases hshown
    rfl
  cases runs_declare hrun with
  | skip hcompile => cases hrefers hcompile
  | define hcompile _ hcomponents =>
    cases hrefers hcompile
    exact definition?_define_self hcomponents rfl (Atom.str_beq_iff.mpr rfl)
      (Atom.str_beq_iff.mpr rfl)

/-- Seats declared as seats: the definition of a seat is lost. -/
theorem declare_own_class_seat :
    ∃ after, Runs (declare ticketHeap (.str "Seat") (.node 1)) {} (some (reference "schemas" "Seat"))
        after ∧
      after.definition? (.str "schemas") (.str "Seat") = some (reference "schemas" "Seat") ∧
      ∃ ctx d, Runs (ticketHeap.compile (.node 1)) { known := ({} : Registry).components }
          (some (reference "schemas" "Seat")) ctx ∧
        ctx.created.find? (.str "schemas") (.str "Seat") = some d ∧
        ¬ DefinesShape ticketHeap after (.str "schemas") (.str "Seat") d := by
  have hrun : ∃ after, Runs (declare ticketHeap (.str "Seat") (.node 1)) {}
      (some (reference "schemas" "Seat")) after := ⟨_, rfl⟩
  obtain ⟨after, hrun⟩ := hrun
  have hlost := declare_own_class (s := .node 1) rfl rfl rfl rfl hrun
  refine ⟨after, hrun, hlost, _, _, rfl, rfl, ?_⟩
  rintro ⟨d, hd, hshape⟩
  cases hlost.symm.trans hd
  exact absurd hshape (by decide)

end Registry

end WireShape
