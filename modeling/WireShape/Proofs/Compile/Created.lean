import WireShape.Proofs.Compile.Independence

/-!
# What a walk creates

Each definition that a walk creates is the definition of a class that it comes to: the literal
schema of the class, or what its parts are put together to. It does not depend on the walk: a
position defines its class in one way.

* `Heap.Defines`: the definition of the class at a position.
* `Heap.Defines.unique`: a position has one definition.
* `Heap.Meets`: the positions that a walk comes to if nothing is known beforehand.
* `Walked.creates`: what each definition of a class on the way keeps, the walk keeps.
* `Walked.defines`: where a definition that has been created comes from.
-/

namespace WireShape

/-- The definition of the class at a position. -/
inductive Heap.Defines (h : Heap) (s : Schema) (bucket name : Atom) : Value → Prop
  /-- The class has a literal schema. -/
  | literal (hoverride : (h.view s).override.isNull = true)
      (hliteral : (h.view s).isLiteral = true)
      (hclass : (h.view s).class? = .ok (some (bucket, name))) :
      Defines h s bucket name (h.view s).literal
  /-- The parts of the class are compiled and put together. -/
  | compiled {kind : Kind} {outcomes whenOutcomes : List Compiled} {fields : Value.Fields}
      {start middle inner : Context} (hoverride : (h.view s).override.isNull = true)
      (hliteral : (h.view s).isLiteral = false)
      (hclass : (h.view s).class? = .ok (some (bucket, name)))
      (hforbidden : (h.view s).isForbidden = false) (hkind : (h.view s).kind? = some kind)
      (hparts : Chain (fun t => Walked h t false) (kind.parts (h.view s)) start outcomes middle)
      (hwhens : Chain (fun t => Walked h t false) (h.view s).whenParts middle whenOutcomes inner)
      (hfields : (h.view s).assemble h kind outcomes whenOutcomes = .ok fields) :
      Defines h s bucket name (.ofEntries fields)

namespace Heap

/-- A walk goes on from a position: to what stands in its place, or to a part that is compiled. -/
inductive Visits (h : Heap) (s t : Schema) : Prop
  | override (hoverride : (h.view s).override.isNull = false)
      (ht : rootSchema (h.view s).override = .ok t)
  | part {kind : Kind} (hoverride : (h.view s).override.isNull = true)
      (hallowed : (h.view s).isForbidden = false) (hkind : (h.view s).kind? = some kind)
      (ht : t ∈ kind.parts (h.view s) ∨ t ∈ (h.view s).whenParts)

/-- The positions that a walk comes to if nothing is known beforehand. -/
def Meets (h : Heap) : Schema → Schema → Prop := Relation.ReflTransGen h.Visits

variable {h : Heap} {s t : Schema}

theorem Visits.holds (ht : h.Visits s t) : h.Holds s t := by
  cases ht with
  | override _ ht => exact .inr ht
  | part _ _ _ ht =>
    rcases ht with hpart | hwhen
    · exact .inl (Kind.mem_parts hpart)
    · exact .inl (Node.mem_whenParts hwhen)

theorem Meets.reaches (ht : h.Meets s t) : h.Reaches s t :=
  Relation.ReflTransGen.mono (fun _ _ => Visits.holds) _ _ ht

end Heap

section Created

variable {h : Heap} {s : Schema} {overriding : Bool} {ctx middle after : Context} {r : Compiled}
  {bucket name b n : Atom} {d d' schema : Value}

theorem Heap.Defines.class? (hd : h.Defines s bucket name d) :
    (h.view s).class? = .ok (some (bucket, name)) := by
  cases hd <;> assumption

theorem Heap.Defines.override_isNull (hd : h.Defines s bucket name d) :
    (h.view s).override.isNull = true := by
  cases hd <;> assumption

/-- No definition is null. -/
theorem Heap.Defines.ne_null (hd : h.Defines s bucket name d) : d.isNull = false := by
  cases hd with
  | literal _ hliteral =>
    rw [Node.isLiteral, Bool.and_eq_true, Bool.not_eq_true'] at hliteral
    exact hliteral.1
  | compiled => rfl

/-- A position has one definition. -/
theorem Heap.Defines.unique (hd : h.Defines s bucket name d) (hs : h.NoForbiddenClass s)
    (hd' : h.Defines s b n d') : d = d' := by
  cases hd with
  | literal _ hliteral =>
    cases hd' with
    | literal => rfl
    | compiled _ hliteral' => exact absurd (hliteral'.symm.trans hliteral) Bool.false_ne_true
  | compiled _ hliteral _ _ hkind hparts hwhens hfields =>
    cases hd' with
    | literal _ hliteral' => exact absurd (hliteral.symm.trans hliteral') Bool.false_ne_true
    | compiled _ _ _ _ hkind' hparts' hwhens' hfields' =>
      cases hkind.symm.trans hkind'
      have houtcomes := hparts.answers_unique hparts' fun x hx _ _ _ hr _ _ _ hr' =>
        hr.unique (hs.below (.inl (Kind.mem_parts hx))) hr'
      have hwhenOutcomes := hwhens.answers_unique hwhens' fun x hx _ _ _ hr _ _ _ hr' =>
        hr.unique (hs.below (.inl (Node.mem_whenParts hx))) hr'
      rw [houtcomes, hwhenOutcomes] at hfields
      cases hfields.symm.trans hfields'
      rfl

/-! ## Definitions that were created -/

namespace Context

theorem created_enterAt : (ctx.enterAt s).created = ctx.created := by
  cases s <;> rfl

theorem created_leaveAt : (ctx.leaveAt s).created = ctx.created := by
  cases s <;> rfl

end Context

/-- What is found after one more definition. -/
theorem Components.found_of_define {c : Components}
    (hfound : (c.define bucket name schema).find? b n = some d) :
    c.find? b n = some d ∨ d = schema ∧ (bucket == b) = true ∧ (name == n) = true := by
  rw [find?_define] at hfound
  split at hfound
  · rename_i hkey
    exact .inr ⟨(Option.some.inj hfound).symm, Bool.and_eq_true_iff.mp hkey⟩
  · exact .inl hfound

/-- What the definitions of all classes keep that a walk meets, the walk keeps. -/
theorem Walked.creates {I : Components → Prop} (hrun : Walked h s overriding ctx r after)
    (hI : ∀ t b n d c, h.Meets s t → h.Defines t b n d → I c → I (c.define b n d))
    (hctx : I ctx.created) : I after.created := by
  revert hI hctx
  refine hrun.induct (P := fun s _ ctx _ after =>
    (∀ t b n d c, h.Meets s t → h.Defines t b n d → I c → I (c.define b n d)) → I ctx.created →
      I after.created) ?_
  intro s overriding ctx r after hstep hI hctx
  have hbelow : ∀ {u : Schema}, h.Visits s u →
      ∀ t b n d c, h.Meets u t → h.Defines t b n d → I c → I (c.define b n d) :=
    fun hu t b n d c ht => hI t b n d c (.head hu ht)
  have hfinish : ∀ {schema : Value} {ctx after : Context} {c : Option (Atom × Atom)},
      Finish h schema ctx c r after →
        (∀ bucket name, c = some (bucket, name) → h.Defines s bucket name schema) →
          I ctx.created → I after.created := by
    intro schema ctx after c hfinish hdefines hctx
    cases hfinish with
    | plain => exact hctx
    | define => exact hI s _ _ _ _ .refl (hdefines _ _ rfl) hctx
  cases hstep with
  | override hoverride ht hr => exact hr.2 (hbelow (.override hoverride ht)) hctx
  | literal hoverride hliteral hclass hf =>
    refine hfinish hf ?_ hctx
    rintro bucket name rfl
    exact .literal hoverride hliteral hclass
  | known => exact hctx
  | forbidden => exact hctx
  | @compiled _ _ _ outcomes whenOutcomes _ _ middle inner _ _ hoverride hliteral hclass _ hforbidden _
      hkind hparts hwhens hfields hf =>
    have henter : I (ctx.enterAt s).created := by
      rw [Context.created_enterAt]
      exact hctx
    have hmiddle : I middle.created := hparts.preserves (I := fun later => I later.created)
      (fun x hx _ _ _ hr => hr.2 (hbelow (.part hoverride hforbidden hkind (.inl hx)))) henter
    have hinner : I inner.created := hwhens.preserves (I := fun later => I later.created)
      (fun x hx _ _ _ hr => hr.2 (hbelow (.part hoverride hforbidden hkind (.inr hx)))) hmiddle
    have hleave : I (inner.leaveAt s).created := by
      rw [Context.created_leaveAt]
      exact hinner
    refine hfinish hf ?_ hleave
    rintro bucket name rfl
    exact .compiled hoverride hliteral hclass hforbidden hkind
      (hparts.mono fun _ _ _ _ _ hr => hr.1) (hwhens.mono fun _ _ _ _ _ hr => hr.1) hfields

/-- A walk that starts with nothing created, creates only definitions of classes that it meets. -/
theorem Walked.defines (hrun : Walked h s overriding ctx r after) (hctx : ctx.created = [])
    (hfound : after.created.find? b n = some d) : ∃ t bucket name, h.Meets s t ∧
      h.Defines t bucket name d ∧ (bucket == b) = true ∧ (name == n) = true := by
  refine hrun.creates (I := fun c => c.find? b n = some d → ∃ t bucket name, h.Meets s t ∧
    h.Defines t bucket name d ∧ (bucket == b) = true ∧ (name == n) = true) ?_ ?_ hfound
  · intro t bucket name schema c ht hdefines hc hfound
    rcases Components.found_of_define hfound with hold | ⟨rfl, hkey⟩
    · exact hc hold
    · exact ⟨t, bucket, name, ht, hdefines, hkey⟩
  · rw [hctx]
    exact fun hnone => by cases hnone

end Created

end WireShape
