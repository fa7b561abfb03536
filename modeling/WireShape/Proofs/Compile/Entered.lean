import WireShape.Proofs.Compile.Coherent
import WireShape.Proofs.Compile.Collected
import WireShape.Proofs.Compile.Depth

/-!
# Positions that walks have gone through

A walk stops at a class that is defined. Where the nodes of one class stand for one definition, it
need not stop there: the class has been defined at this position, or there are several nodes of the
class, and each of them compiles by itself. So walks have gone through everything that a walk meets
below a position through which one has gone, and if no position is below itself, a walk from there
succeeds in every state.

* `Heap.Entered`: positions through which walks have gone.
* `Walked.entered`: a walk goes through its position, or one has gone through it before.
* `Heap.Entered.visits`: walks have gone through everything below such a position.
* `Heap.Entered.yields`: such a position compiles by itself.
-/

namespace WireShape

namespace Heap

/-- A walk has not stopped at a position, and walks have gone through all classes that were there
when it did not. -/
inductive Entered (h : Heap) (Start : Schema → Prop) : Schema → Prop
  | walk {s : Schema} {overriding : Bool} {ctx after : Context} {r : Compiled}
      (hs : h.Below Start s)
      (hctx : ∀ t b n, h.Below Start t → h.Owns t b n → ctx.has b n = true → Entered h Start t)
      (hnew : (h.view s).override.isNull = true → ∀ c, (h.view s).class? = .ok c → ctx.IsNew c)
      (hstep : CompileStep h (Walked h) s overriding ctx r after) : Entered h Start s

/-- Walks have gone through all classes that are in a set. -/
def Enters (h : Heap) (Start : Schema → Prop) (S : Atom → Atom → Bool) : Prop :=
  ∀ t b n, h.Below Start t → h.Owns t b n → S b n = true → h.Entered Start t

variable {h : Heap} {Start : Schema → Prop} {s t : Schema} {bucket name : String} {b n : Atom}
  {d : Value}

theorem Entered.isBelow (hs : h.Entered Start s) : h.Below Start s := by
  cases hs
  assumption

/-- A class that compiles by itself is gone through. -/
theorem Registers.entered (hd : h.Registers t bucket name d) (ht : h.Below Start t) :
    h.Entered Start t := by
  obtain ⟨_, _, r, after, hrun, _⟩ := hd
  exact .walk ht (fun _ _ _ _ _ hhas => by cases hhas) (fun _ _ _ _ _ => rfl)
    (walked_of_runs hrun).step

/-- If walks have gone through one node of a class, they have gone through all of them. -/
theorem Coherent.entered (hStart : h.Coherent Start) (hs : h.Entered Start s) (hown : h.Owns s b n)
    (ht : h.Below Start t) (hown' : h.Owns t b n) : h.Entered Start t := by
  by_cases hsame : t = s
  · rwa [hsame]
  · obtain ⟨bucket, name, hkey, _⟩ := (hStart.namedByText ht).class_eq .refl hown'.2
    cases hkey
    obtain ⟨d, _, _, hd, _⟩ :=
      hStart.alike t s bucket name ht hs.isBelow hsame hown'.1 hown.1 hown'.2 hown.2
    exact hd.entered ht

end Heap

section Walks

variable {h : Heap} {Start : Schema → Prop} {s t : Schema} {overriding : Bool}
  {ctx after : Context} {r : Compiled} {schema : Value} {c : Option (Atom × Atom)}

/-- A class through which a walk has gone may be defined. -/
theorem Finish.enters (hStart : h.Coherent Start) (hs : h.Entered Start s)
    (hoverride : (h.view s).override.isNull = true) (hclass : (h.view s).class? = .ok c)
    (hfinish : Finish h schema ctx c r after) (hctx : h.Enters Start ctx.has) :
    h.Enters Start after.has := by
  cases hfinish with
  | plain => exact hctx
  | define =>
    obtain ⟨bucket, name, hkey, _⟩ := (hStart.namedByText hs.isBelow).class_eq .refl hclass
    cases hkey
    intro t b n ht hown hhas
    rw [Context.has_register, Bool.or_eq_true, Bool.and_eq_true] at hhas
    rcases hhas with ⟨hb, hn⟩ | hold
    · -- Another node of the class that is defined here compiles by itself.
      obtain rfl := Atom.str_beq_iff.mp hb
      obtain rfl := Atom.str_beq_iff.mp hn
      exact hStart.entered hs ⟨hoverride, hclass⟩ ht hown
    · exact hctx t b n ht hown hold

/-- A walk goes through its position, or one has gone through it before, and through all classes
that it defines. -/
theorem Walked.entered (hStart : h.Coherent Start) (hrun : Walked h s overriding ctx r after)
    (hs : h.Below Start s) (hctx : h.Enters Start ctx.has) :
    h.Entered Start s ∧ h.Enters Start after.has := by
  revert hs hctx
  refine hrun.induct (P := fun s _ ctx _ after => h.Below Start s → h.Enters Start ctx.has →
    h.Entered Start s ∧ h.Enters Start after.has) ?_
  intro s overriding ctx r after hstep hs hctx
  have hwalk : CompileStep h (Walked h) s overriding ctx r after :=
    hstep.mono fun _ _ _ _ _ _ hr => hr.1
  have hpart : ∀ {t : Schema}, t ∈ (h.view s).parts → h.Below Start t := fun ht => hs.holds (.inl ht)
  cases hstep with
  | override hoverride ht hr =>
    refine ⟨.walk hs hctx (fun hnull => ?_) hwalk, (hr.2 (hs.holds (.inr ht)) hctx).2⟩
    exact absurd (hoverride.symm.trans hnull) Bool.false_ne_true
  | literal _ hliteral =>
    exact absurd ((hStart.ownsNoRefs s hs).not_literal.symm.trans hliteral) Bool.false_ne_true
  | known hoverride _ hclass hhas => exact ⟨hctx s _ _ hs ⟨hoverride, hclass⟩ hhas, hctx⟩
  | forbidden _ _ hclass hnew =>
    refine ⟨.walk hs hctx (fun _ c hc => ?_) hwalk, hctx⟩
    cases hclass.symm.trans hc
    exact hnew
  | @compiled _ _ _ _ _ _ _ middle inner _ _ hoverride _ hclass hnew _ _ _ hparts hwhens _ hfinish =>
    have hentered : h.Entered Start s := by
      refine .walk hs hctx (fun _ c hc => ?_) hwalk
      cases hclass.symm.trans hc
      exact hnew
    have henter : h.Enters Start (ctx.enterAt s).has := by
      cases s <;> exact hctx
    have hmiddle : h.Enters Start middle.has := hparts.preserves
      (I := fun later : Context => h.Enters Start later.has)
      (fun t ht _ _ _ hr hI => (hr.2 (hpart (Kind.mem_parts ht)) hI).2) henter
    have hinner : h.Enters Start inner.has := hwhens.preserves
      (I := fun later : Context => h.Enters Start later.has)
      (fun t ht _ _ _ hr hI => (hr.2 (hpart (Node.mem_whenParts ht)) hI).2) hmiddle
    have hleave : h.Enters Start (inner.leaveAt s).has :=
      fun t b n ht hown hhas => hinner t b n ht hown (Context.has_leaveAt.symm.trans hhas)
    exact ⟨hentered, hfinish.enters hStart hentered hoverride hclass hleave⟩

/-- What walks of a chain go through. -/
theorem Chain.entered (hStart : h.Coherent Start) {xs : List Schema} {outcomes : List Compiled}
    (hchain : Chain (fun t => Walked h t false) xs ctx outcomes after)
    (hxs : ∀ x ∈ xs, h.Below Start x) (hctx : h.Enters Start ctx.has) :
    (∀ x ∈ xs, h.Entered Start x) ∧ h.Enters Start after.has := by
  obtain ⟨hafter, hall⟩ := hchain.forall₂ (I := fun later : Context => h.Enters Start later.has)
    (P := fun x _ _ => h.Entered Start x) (fun x hx _ _ _ hr hI =>
      (hr.entered hStart (hxs x hx) hI).symm) (fun _ _ _ _ _ _ _ _ _ hx => hx) hctx
  refine ⟨fun x hx => ?_, hafter⟩
  obtain ⟨_, _, hentered⟩ := forall₂_left hall hx
  exact hentered

namespace Heap.Entered

/-- Walks have gone through what a walk goes on to. -/
theorem visits (hs : h.Entered Start s) (hStart : h.Coherent Start) (ht : h.Visits s t) :
    h.Entered Start t := by
  have hbelow := hs.isBelow
  have hpart : ∀ {t : Schema}, t ∈ (h.view s).parts → h.Below Start t :=
    fun ht => hbelow.holds (.inl ht)
  obtain @⟨_, overriding, ctx, after, r, _, hctx, hnew, hstep⟩ := hs
  cases hstep with
  | override hoverride hu hr =>
    cases ht with
    | override _ ht =>
      cases hu.symm.trans ht
      exact (hr.entered hStart (hbelow.holds (.inr hu)) hctx).1
    | part hnull => exact absurd (hoverride.symm.trans hnull) Bool.false_ne_true
  | literal _ hliteral =>
    exact absurd ((hStart.ownsNoRefs s hbelow).not_literal.symm.trans hliteral) Bool.false_ne_true
  | known hoverride _ hclass hhas =>
    exact absurd ((hnew hoverride _ hclass _ rfl).symm.trans hhas) Bool.false_ne_true
  | forbidden hoverride _ _ _ hforbidden =>
    cases ht with
    | override hnot => exact absurd (hnot.symm.trans hoverride) Bool.false_ne_true
    | part _ hallowed => exact absurd (hallowed.symm.trans hforbidden) Bool.false_ne_true
  | compiled hoverride _ _ _ _ _ hkind hparts hwhens =>
    cases ht with
    | override hnot => exact absurd (hnot.symm.trans hoverride) Bool.false_ne_true
    | part _ _ hkind' ht =>
      cases hkind.symm.trans hkind'
      have henter : h.Enters Start (ctx.enterAt s).has := by
        cases s <;> exact hctx
      obtain ⟨hfirst, hmiddle⟩ :=
        hparts.entered hStart (fun x hx => hpart (Kind.mem_parts hx)) henter
      obtain ⟨hlast, _⟩ := hwhens.entered hStart (fun x hx => hpart (Node.mem_whenParts hx)) hmiddle
      rcases ht with ht | ht
      · exact hfirst t ht
      · exact hlast t ht

theorem meets (hs : h.Entered Start s) (hStart : h.Coherent Start) (ht : h.Meets s t) :
    h.Entered Start t := by
  induction ht with
  | refl => exact hs
  | tail _ hvisits ih => exact ih.visits hStart hvisits

end Heap.Entered

/-! ## Walks that succeed -/

/-- A chain has given answers where each link can give its own in every state of a kind and leaves
such a state. -/
theorem Chain.exists_of_forall₂ {α β σ : Type} {R : α → σ → β → σ → Prop} {I : σ → Prop}
    {xs : List α} {ys : List β} {s : σ}
    (hall : List.Forall₂ (fun x y => ∀ s, I s → ∃ t, R x s y t ∧ I t) xs ys) (hs : I s) :
    ∃ t, Chain R xs s ys t ∧ I t := by
  induction hall generalizing s with
  | nil => exact ⟨s, .nil, hs⟩
  | cons head _ ih =>
    obtain ⟨t, hhead, ht⟩ := head s hs
    obtain ⟨u, htail, hu⟩ := ih ht
    exact ⟨u, .cons hhead htail, hu⟩

/-- Positions that succeed in every state with a path have the outcomes that they had in others. -/
theorem Chain.again {xs : List Schema} {outcomes : List Compiled} {ctx' : Context} {depth : Nat}
    {active : List NodeId}
    (hchain : Chain (fun t => Walked h t false) xs ctx outcomes after)
    (hxs : ∀ x ∈ xs, h.NoForbiddenClass x ∧ ∀ ctx : Context, ctx.active = active →
      ∃ r after, Runs (compileWithin h depth x false) ctx r after) (hctx' : ctx'.active = active) :
    ∃ after', Chain (fun t => Runs (compileWithin h depth t false)) xs ctx' outcomes after' ∧
      after'.active = active := by
  have hall := hchain.answers (P := fun x r => ∃ ctx after, Walked h x false ctx r after)
    fun _ _ _ _ _ hr => ⟨_, _, hr⟩
  refine Chain.exists_of_forall₂ (I := fun later : Context => later.active = active)
    (forall₂_imp_mem (fun x hx r hr ctx hctx => ?_) hall) hctx'
  obtain ⟨_, _, hr⟩ := hr
  obtain ⟨hallowed, hruns⟩ := hxs x hx
  obtain ⟨r', after', hrun⟩ := hruns ctx hctx
  obtain rfl := hr.unique hallowed (walked_of_runs hrun)
  exact ⟨after', hrun, (walked_of_runs hrun).extends.active.trans hctx⟩

/-- What stands in place of another position is not overridden itself. -/
theorem Walked.not_overridden (hrun : Walked h s true ctx r after) :
    (h.view s).override.isNull = true := by
  cases hrun.step <;> assumption

namespace Heap

/-- Walks do not come back to a path: what a position holds does not reach the nodes on the path
that goes through the position. -/
theorem not_reaches_enterAt (hs : h.Acyclic s) (ht : h.Holds s t)
    (hactive : ∀ id ∈ ctx.active, ¬ h.Reaches s (.node id)) :
    ∀ id ∈ (ctx.enterAt s).active, ¬ h.Reaches t (.node id) := by
  cases s with
  | object => exact fun id hid hreach => hactive id hid (.head ht hreach)
  | node => exact not_reaches_below hs ht hactive

/-- A walk succeeds in every state from a position through which one has gone, if the path has not
been to anything below the position and there is enough depth. -/
theorem Entered.runs {depth : Nat} {visited : List NodeId} (hs : h.Entered Start s)
    (hStart : h.Coherent Start) (hacyclic : h.Acyclic s)
    (hoverriding : overriding = true → (h.view s).override.isNull = true)
    (hvisited : ∀ id ∈ visited, ¬ h.Reaches s (.node id))
    (hactive : ∀ id ∈ ctx.active, ¬ h.Reaches s (.node id))
    (hdepth : h.reserve visited + s.objectCount + 1 ≤ depth) :
    ∃ r after, Runs (compileWithin h depth s overriding) ctx r after := by
  -- What a position holds takes less of the reserve, so the depth that is left is enough for it.
  induction depth generalizing s overriding ctx visited with
  | zero => omega
  | succ depth ih =>
    have hbelow := hs.isBelow
    have hvisits := fun t => hs.visits hStart (t := t)
    have hpart : ∀ {t : Schema}, h.Visits s t → ∀ {overriding : Bool} {ctx' : Context},
        (overriding = true → (h.view t).override.isNull = true) →
          (∀ id ∈ ctx'.active, ¬ h.Reaches t (.node id)) →
            ∃ r after, Runs (compileWithin h depth t overriding) ctx' r after := by
      intro t ht overriding ctx' hoverriding hactive
      obtain ⟨visited', hvisited', hle⟩ := reserve_below hacyclic ht.holds hvisited
      exact ih (hvisits t ht) (hacyclic.below (.single ht.holds)) hoverriding hvisited' hactive
        (by omega)
    suffices hstep : ∃ r after, CompileStep h (fun t o => Runs (compileWithin h depth t o)) s
        overriding ctx r after by
      obtain ⟨r, after, hstep⟩ := hstep
      exact ⟨r, after, runs_compileStep_iff.mpr hstep⟩
    obtain @⟨_, overriding', ctx', after', r', _, _, hnew, hstep⟩ := hs
    cases hstep with
    | override hoverride ht hr =>
      cases overriding with
      | true => exact absurd (hoverride.symm.trans (hoverriding rfl)) Bool.false_ne_true
      | false =>
        obtain ⟨r, after, hrun⟩ := hpart (.override hoverride ht) (fun _ => hr.not_overridden)
          fun id hid hreach => hactive id hid (.head (.inr ht) hreach)
        exact ⟨r, after, .override hoverride ht hrun⟩
    | literal _ hliteral =>
      exact absurd ((hStart.ownsNoRefs s hbelow).not_literal.symm.trans hliteral)
        Bool.false_ne_true
    | known hoverride _ hclass hhas =>
      exact absurd ((hnew hoverride _ hclass _ rfl).symm.trans hhas) Bool.false_ne_true
    | @forbidden _ c _ hoverride hliteral hclass _ hforbidden =>
      cases c with
      | none => exact ⟨none, ctx, .forbidden hoverride hliteral hclass nofun hforbidden⟩
      | some key =>
        have hallowed := hStart.allowed s hbelow (class?_eq_ok_some_iff.mp hclass).1
        exact absurd (hallowed.symm.trans hforbidden) Bool.false_ne_true
    | @compiled _ c kind outcomes whenOutcomes _ _ _ _ _ _ hoverride hliteral hclass _ hallowed _ hkind
        hparts hwhens hfields hfinish =>
      by_cases hknown : ctx.IsNew c
      · -- The parts have the outcomes that they had in the walk that has gone through.
        have hagain : ∀ t, t ∈ kind.parts (h.view s) ∨ t ∈ (h.view s).whenParts →
            h.NoForbiddenClass t ∧ ∀ ctx' : Context, ctx'.active = (ctx.enterAt s).active →
              ∃ r after, Runs (compileWithin h depth t false) ctx' r after := by
          intro t ht
          have hvisited : h.Visits s t := .part hoverride hallowed hkind ht
          refine ⟨hStart.noForbiddenClass (hvisits t hvisited).isBelow, fun ctx' heq => ?_⟩
          refine hpart hvisited (fun hfalse => absurd hfalse Bool.false_ne_true) ?_
          rw [heq]
          exact not_reaches_enterAt hacyclic hvisited.holds hactive
        obtain ⟨middle, hparts, hmiddle⟩ := hparts.again (fun t ht => hagain t (.inl ht)) rfl
        obtain ⟨inner, hwhens, _⟩ := hwhens.again (fun t ht => hagain t (.inr ht)) hmiddle
        obtain ⟨after, hfinish⟩ := hfinish.again (inner.leaveAt s)
        have hfresh : ctx.Fresh s := by
          cases s with
          | object => trivial
          | node id =>
            exact Bool.eq_false_iff.mpr fun hmem => hactive id (List.contains_iff_mem.mp hmem) .refl
        exact ⟨_, after, .compiled hoverride hliteral hclass hknown hallowed hfresh hkind hparts
          hwhens hfields hfinish⟩
      · obtain ⟨key, rfl, hhas⟩ : ∃ key, c = some key ∧ ctx.has key.1 key.2 = true := by
          simpa [Context.IsNew] using hknown
        obtain ⟨place, what, hplace, hwhat, _⟩ := hfinish.refers
        exact ⟨_, ctx, .known hoverride hliteral hclass hhas hplace hwhat⟩

/-- A position through which a walk has gone compiles by itself. -/
theorem Entered.yields (hs : h.Entered Start s) (hStart : h.Coherent Start)
    (hacyclic : h.Acyclic s) : ∃ r, h.Yields s r := by
  have hvisited : ∀ id ∈ ([] : List NodeId), ¬ h.Reaches s (.node id) := nofun
  have hactive : ∀ id ∈ ({} : Context).active, ¬ h.Reaches s (.node id) := nofun
  obtain ⟨r, after, hrun⟩ := hs.runs hStart hacyclic
    (fun hfalse => absurd hfalse Bool.false_ne_true) hvisited hactive reserve_le_depthBound
  exact ⟨r, after, hrun⟩

end Heap

end Walks

end WireShape
