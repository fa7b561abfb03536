import Mathlib.Logic.Relation
import WireShape.Proofs.Compile.Step
import WireShape.Proofs.Definitions

/-!
# Successful walks

What holds of every successful call is shown by going through the ways in which a call can succeed,
with the same known of the calls that it makes.

* `Heap.Reaches`: the positions that a walk from a position can come to.
* `Walked.induct`: induction over successful calls.
* `Walked.extends`: a walk leaves the path and what was known as they were, and keeps definitions.
-/

namespace WireShape

/-! ## What a walk can come to -/

namespace Heap

/-- A position is a part of another one, or stands in its place. -/
def Holds (h : Heap) (s t : Schema) : Prop :=
  t ∈ (h.view s).parts ∨ rootSchema (h.view s).override = .ok t

/-- The positions at or below a position. -/
def Reaches (h : Heap) : Schema → Schema → Prop := Relation.ReflTransGen h.Holds

end Heap

/-- The parts that are compiled are parts. -/
theorem Kind.mem_parts {kind : Kind} {n : Node} {t : Schema} (ht : t ∈ kind.parts n) :
    t ∈ n.parts := by
  simp only [Node.parts, List.mem_append]
  cases kind with
  | scalar => cases ht
  | object =>
    rcases List.mem_append.mp ht with hchild | hopen
    · exact .inl (.inl (.inl (.inl hchild)))
    · refine .inl (.inl (.inl (.inr ?_)))
      rw [Node.openPart?] at hopen
      split at hopen
      · exact hopen
      · cases hopen
  | array => exact .inl (.inl (.inr ht))
  | alternatives => exact .inl (.inr ht)

theorem Node.mem_whenParts {n : Node} {t : Schema} (ht : t ∈ n.whenParts) : t ∈ n.parts :=
  List.mem_append_right _ ht

/-! ## Induction over successful calls -/

/-- What holds of the calls that a step makes may be weakened; they are calls at positions that its
own position holds. -/
theorem CompileStep.mono {h : Heap} {s : Schema} {overriding : Bool} {ctx after : Context}
    {r : Compiled} {below below' : Schema → Bool → Context → Compiled → Context → Prop}
    (hbelow : ∀ t o ctx r after, h.Holds s t → below t o ctx r after → below' t o ctx r after)
    (hstep : CompileStep h below s overriding ctx r after) :
    CompileStep h below' s overriding ctx r after := by
  cases hstep with
  | override hoverride ht hr => exact .override hoverride ht (hbelow _ _ _ _ _ (.inr ht) hr)
  | literal hoverride hliteral hclass hfinish => exact .literal hoverride hliteral hclass hfinish
  | known hoverride hliteral hclass hhas hplace hwhat =>
    exact .known hoverride hliteral hclass hhas hplace hwhat
  | forbidden hoverride hliteral hclass hnew hforbidden =>
    exact .forbidden hoverride hliteral hclass hnew hforbidden
  | compiled hoverride hliteral hclass hnew hforbidden hfresh hkind hparts hwhens hfields hfinish =>
    exact .compiled hoverride hliteral hclass hnew hforbidden hfresh hkind
      (hparts.mono fun t ht _ _ _ => hbelow t false _ _ _ (.inl (Kind.mem_parts ht)))
      (hwhens.mono fun t ht _ _ _ => hbelow t false _ _ _ (.inl (Node.mem_whenParts ht))) hfields
      hfinish

/-- A call that succeeds at some depth. -/
def Walked (h : Heap) (s : Schema) (overriding : Bool) (ctx : Context) (r : Compiled)
    (after : Context) : Prop :=
  ∃ depth, Runs (compileWithin h depth s overriding) ctx r after

/-- What follows from a step whose calls are known to have it, every successful call has. -/
theorem Walked.induct {h : Heap} {P : Schema → Bool → Context → Compiled → Context → Prop}
    (hstep : ∀ s overriding ctx r after,
      CompileStep h (fun t o ctx r after => Walked h t o ctx r after ∧ P t o ctx r after) s overriding ctx
        r after → P s overriding ctx r after) {s : Schema} {overriding : Bool} {ctx : Context}
    {r : Compiled} {after : Context} (hrun : Walked h s overriding ctx r after) :
    P s overriding ctx r after := by
  obtain ⟨depth, hrun⟩ := hrun
  induction depth generalizing s overriding ctx r after with
  | zero => exact absurd hrun not_runs_throw
  | succ depth ih =>
    refine hstep _ _ _ _ _ (CompileStep.mono ?_ (runs_compileStep_iff.mp hrun))
    exact fun t o ctx r after _ hr => ⟨⟨depth, hr⟩, ih hr⟩

/-- A call on a value starts at the position that the value stands for. -/
theorem runs_compile_iff {h : Heap} {v : Value} {ctx after : Context} {r : Compiled} :
    Runs (h.compile v) ctx r after ↔
      ∃ s, rootSchema v = .ok s ∧ Runs (h.compileSchema s) ctx r after := by
  unfold Heap.compile
  simp only [runs_bind_iff, runs_lift_iff]
  constructor
  · rintro ⟨s, _, ⟨hs, rfl⟩, hrun⟩
    exact ⟨s, hs, hrun⟩
  · rintro ⟨s, hs, hrun⟩
    exact ⟨s, ctx, ⟨hs, rfl⟩, hrun⟩

/-- Compiling a value against known definitions succeeds as the walk from it does. -/
theorem compileAgainst_eq_ok_iff {h : Heap} {known : Components} {v : Value}
    {c : Option CompiledSchema} : (h.compileAgainst known v).1 = .ok c ↔
      ∃ r after, Runs (h.compile v) { known } r after ∧
        c = r.map fun schema => ⟨schema, after.created⟩ := by
  have hdef : (h.compileAgainst known v).1 = (h.compile v { known }).1.map fun r =>
      r.map fun schema => ⟨schema, (h.compile v { known }).2.created⟩ := rfl
  rw [hdef]
  constructor
  · intro hc
    cases hrun : h.compile v { known } with
    | mk outcome after =>
      rw [hrun] at hc
      cases outcome with
      | error => cases hc
      | ok r =>
        cases hc
        exact ⟨r, after, hrun, rfl⟩
  · rintro ⟨r, after, hrun, rfl⟩
    rw [show h.compile v { known } = (.ok r, after) from hrun]
    rfl

/-! ## What a walk does to its state -/

namespace Context

/-- A bucket has a definition of a name, known or created. -/
def Names (ctx : Context) (bucket name : Atom) : Prop :=
  ctx.created.Names bucket name ∨ ctx.known.Names bucket name

/-- A state that came out of another one by a walk. -/
structure Extends (after ctx : Context) : Prop where
  known : after.known = ctx.known
  active : after.active = ctx.active
  has : ∀ bucket name, ctx.has bucket name = true → after.has bucket name = true
  names : ∀ bucket name, ctx.Names bucket name → after.Names bucket name

variable {ctx middle after : Context} {s : Schema}

theorem Extends.refl : ctx.Extends ctx := ⟨rfl, rfl, fun _ _ h => h, fun _ _ h => h⟩

theorem Extends.trans (h₁ : middle.Extends ctx) (h₂ : after.Extends middle) : after.Extends ctx :=
  ⟨h₂.known.trans h₁.known, h₂.active.trans h₁.active, fun b n h => h₂.has b n (h₁.has b n h),
    fun b n h => h₂.names b n (h₁.names b n h)⟩

/-- A position entered and left again leaves the path as it was. -/
theorem Extends.leaveAt (h : after.Extends (ctx.enterAt s)) : (after.leaveAt s).Extends ctx := by
  cases s with
  | object => exact h
  | node id =>
    refine ⟨h.known, ?_, h.has, h.names⟩
    have hactive : after.active = id :: ctx.active := h.active
    change after.active.erase id = ctx.active
    rw [hactive, List.erase_cons_head]

theorem has_register {bucket name b n : Atom} {schema : Value} {place what : String} :
    (ctx.register bucket name schema place what).has b n =
      ((bucket == b) && (name == n) || ctx.has b n) := by
  unfold Context.has
  change ((ctx.created.define bucket name schema).contains b n || ctx.known.contains b n) = _
  rw [Components.contains_define, Bool.or_assoc]

theorem extends_register {bucket name : Atom} {schema : Value} {place what : String} :
    (ctx.register bucket name schema place what).Extends ctx := by
  refine ⟨rfl, rfl, fun b n h => ?_, fun b n h => ?_⟩
  · rw [has_register, h, Bool.or_true]
  · rcases h with hcreated | hknown
    · exact .inl hcreated.define
    · exact .inr hknown

theorem names_of_has {bucket name : Atom} (h : ctx.has bucket name = true) :
    ctx.Names bucket name := by
  rcases Bool.or_eq_true_iff.mp h with hcreated | hknown
  · exact .inl (Components.names_of_contains hcreated)
  · exact .inr (Components.names_of_contains hknown)

end Context

theorem Finish.extends {h : Heap} {schema : Value} {ctx after : Context} {r : Compiled}
    {c : Option (Atom × Atom)} (hfinish : Finish h schema ctx c r after) : after.Extends ctx := by
  cases hfinish with
  | plain => exact .refl
  | define => exact Context.extends_register

/-- A chain of walks keeps what each of them keeps. -/
theorem Chain.extends {R : Schema → Context → Compiled → Context → Prop} {xs : List Schema}
    {outcomes : List Compiled} {ctx after : Context}
    (hR : ∀ x ∈ xs, ∀ ctx r after, R x ctx r after → after.Extends ctx)
    (hchain : Chain R xs ctx outcomes after) : after.Extends ctx := by
  refine hchain.preserves (I := fun later => later.Extends ctx) ?_ .refl
  exact fun x hx s y t hrun hs => hs.trans (hR x hx s y t hrun)

/-- A walk leaves the path and what was known as they were, and keeps definitions. -/
theorem Walked.extends {h : Heap} {s : Schema} {overriding : Bool} {ctx after : Context}
    {r : Compiled} (hrun : Walked h s overriding ctx r after) : after.Extends ctx := by
  refine hrun.induct (P := fun _ _ ctx _ after => after.Extends ctx) ?_
  intro s overriding ctx r after hstep
  cases hstep with
  | override _ _ hr => exact hr.2
  | literal _ _ _ hfinish => exact hfinish.extends
  | known => exact .refl
  | forbidden => exact .refl
  | compiled _ _ _ _ _ _ _ hparts hwhens _ hfinish =>
    have hinner := (hparts.extends fun _ _ _ _ _ hr => hr.2).trans
      (hwhens.extends fun _ _ _ _ _ hr => hr.2)
    exact hinner.leaveAt.trans hfinish.extends

/-- A reference is a class that is defined afterwards; no other outcome is a null. -/
theorem Walked.ne_null {h : Heap} {s : Schema} {overriding : Bool} {ctx after : Context}
    {r : Compiled} (hrun : Walked h s overriding ctx r after) : r ≠ some .null := by
  refine hrun.induct (P := fun _ _ _ r _ => r ≠ some .null) ?_
  intro s overriding ctx r after hstep
  have hfinish : ∀ {schema : Value} {ctx after : Context} {c : Option (Atom × Atom)} {r : Compiled},
      Finish h schema ctx c r after → schema.isNull = false → r ≠ some .null := by
    rintro schema ctx after c r hfinish hnull hr
    cases hfinish with
    | plain =>
      rw [Compiled.ofValue] at hr
      split at hr
      · cases hr
      · cases hr
        cases hnull
    | define => cases hr
  cases hstep with
  | override _ _ hr => exact hr.2
  | literal _ hliteral _ hf =>
    refine hfinish hf ?_
    rw [Node.isLiteral, Bool.and_eq_true, Bool.not_eq_true'] at hliteral
    exact hliteral.1
  | known => exact fun hr => by cases hr
  | forbidden => exact fun hr => by cases hr
  | compiled _ _ _ _ _ _ _ _ _ _ hf => exact hfinish hf rfl

end WireShape
