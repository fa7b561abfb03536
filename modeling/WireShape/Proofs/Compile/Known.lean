import WireShape.Proofs.Compile.Walks

/-!
# What is known beforehand

A walk refers to a class that it meets for the second time, and it refers to one that was known
before. So a walk that starts with all the definitions that another one ended with, and that is on
no more of the path, refers to classes where the other one had to define them, and its outcome is
the same. A class that is forbidden is the exception: it is referred to only where it is known.

* `Heap.NoForbiddenClass`: no position that can be reached is both a class and forbidden.
* `runs_of_known`: a walk with more known beforehand has the same outcome.
-/

namespace WireShape

/-- No position at or below this one is both a class and forbidden. -/
def Heap.NoForbiddenClass (h : Heap) (s : Schema) : Prop :=
  ∀ t, h.Reaches s t → (h.view t).className.truthy = true → (h.view t).isForbidden = false

theorem Heap.NoForbiddenClass.below {h : Heap} {s t : Schema} (hs : h.NoForbiddenClass s)
    (ht : h.Holds s t) : h.NoForbiddenClass t := fun t' ht' => hs t' (.head ht ht')

/-- Nothing that a value stands for is both a class and forbidden. -/
def Heap.NoForbiddenClassIn (h : Heap) (v : Value) : Prop :=
  ∀ s, rootSchema v = .ok s → h.NoForbiddenClass s

/-- If no node of the heap is both a class and forbidden, no position is. -/
theorem Heap.noForbiddenClass_of_nodes {h : Heap}
    (hnodes : ∀ n ∈ h.nodes, n.className.truthy = true → n.isForbidden = false) (v : Value) :
    h.NoForbiddenClassIn v := by
  intro _ _ t _
  exact h.forall_view (P := fun n => n.className.truthy = true → n.isForbidden = false) hnodes
    (fun _ _ _ => rfl) t

namespace Context

/-- A state with all definitions of another one, and on no more of the path than a third one. -/
structure Covers (ctx' ctx after : Context) : Prop where
  active : ∀ id, ctx'.active.contains id = true → ctx.active.contains id = true
  has : ∀ bucket name, after.has bucket name = true → ctx'.has bucket name = true

variable {ctx ctx' after middle : Context} {s : Schema}

theorem Covers.fresh (h : ctx'.Covers ctx after) (hfresh : ctx.Fresh s) : ctx'.Fresh s := by
  cases s with
  | object => trivial
  | node id =>
    have hnot : ctx.active.contains id = false := hfresh
    have himp := h.active id
    rw [hnot] at himp
    exact Bool.eq_false_iff.mpr fun hin => Bool.false_ne_true (himp hin)

theorem Covers.enterAt (h : ctx'.Covers ctx after) :
    (ctx'.enterAt s).Covers (ctx.enterAt s) after := by
  cases s with
  | object => exact h
  | node id =>
    refine ⟨fun id' hin => ?_, h.has⟩
    change (id :: ctx'.active).contains id' = true at hin
    change (id :: ctx.active).contains id' = true
    rw [List.contains_cons, Bool.or_eq_true] at hin ⊢
    exact hin.imp_right (h.active id')

/-- Later states cover as well, and earlier ones are covered. -/
theorem Covers.step {mid : Context} (h : ctx'.Covers ctx after) (hmid : mid.Extends ctx')
    (hmiddle : middle.Extends ctx) : mid.Covers middle after := by
  refine ⟨fun id hin => ?_, fun b n hhas => hmid.has b n (h.has b n hhas)⟩
  rw [hmid.active] at hin
  rw [hmiddle.active]
  exact h.active id hin

theorem Covers.weaken (h : ctx'.Covers ctx after)
    (hafter : ∀ b n, middle.has b n = true → after.has b n = true) : ctx'.Covers ctx middle :=
  ⟨h.active, fun b n hhas => h.has b n (hafter b n hhas)⟩

theorem has_leaveAt {b n : Atom} : (ctx.leaveAt s).has b n = ctx.has b n := by
  cases s <;> rfl

end Context

theorem walked_of_runs {h : Heap} {depth : Nat} {s : Schema} {overriding : Bool}
    {ctx after : Context} {r : Compiled}
    (hrun : Runs (compileWithin h depth s overriding) ctx r after) :
    Walked h s overriding ctx r after := ⟨depth, hrun⟩

/-- A chain of calls can be run again where each call can. -/
theorem Chain.rerun {R : Schema → Context → Compiled → Context → Prop} {xs : List Schema}
    {outcomes : List Compiled} {ctx after : Context} (hchain : Chain R xs ctx outcomes after)
    (hext : ∀ x ∈ xs, ∀ ctx r after, R x ctx r after → after.Extends ctx)
    (hR : ∀ x ∈ xs, ∀ ctx r after, R x ctx r after → ∀ ctx' : Context, ctx'.Covers ctx after →
      ∃ after', R x ctx' r after') {ctx' : Context} (hcovers : ctx'.Covers ctx after) :
    ∃ after', Chain R xs ctx' outcomes after' := by
  induction hchain generalizing ctx' with
  | nil => exact ⟨ctx', .nil⟩
  | @cons x xs r outcomes ctx mid after hhead htail ih =>
    have hext' : ∀ x ∈ xs, ∀ ctx r after, R x ctx r after → after.Extends ctx :=
      fun x hx => hext x (List.mem_cons_of_mem _ hx)
    have hlater : after.Extends mid := Chain.extends hext' htail
    obtain ⟨mid', hhead'⟩ := hR x List.mem_cons_self _ _ _ hhead ctx' (hcovers.weaken hlater.has)
    have hmid' : mid'.Extends ctx' := hext x List.mem_cons_self _ _ _ hhead'
    have hmid : mid.Extends ctx := hext x List.mem_cons_self _ _ _ hhead
    obtain ⟨after', htail'⟩ := ih hext' (fun x hx => hR x (List.mem_cons_of_mem _ hx))
      (hcovers.step hmid' hmid)
    exact ⟨after', .cons hhead' htail'⟩

/-- A schema can be handed on in every state. -/
theorem Finish.again {h : Heap} {schema : Value} {ctx after : Context} {r : Compiled}
    {c : Option (Atom × Atom)} (hfinish : Finish h schema ctx c r after) (ctx' : Context) :
    ∃ after', Finish h schema ctx' c r after' := by
  cases hfinish with
  | plain => exact ⟨ctx', .plain⟩
  | define hplace hwhat => exact ⟨_, .define hplace hwhat⟩

/-- A walk that starts with everything that another one ended with has the same outcome. -/
theorem runs_of_known {h : Heap} {depth : Nat} {s : Schema} {overriding : Bool}
    {ctx after : Context} {r : Compiled} (hs : h.NoForbiddenClass s)
    (hrun : Runs (compileWithin h depth s overriding) ctx r after) {ctx' : Context}
    (hcovers : ctx'.Covers ctx after) :
    ∃ after', Runs (compileWithin h depth s overriding) ctx' r after' := by
  induction depth generalizing s overriding ctx r after ctx' with
  | zero => exact absurd hrun not_runs_throw
  | succ depth ih =>
    suffices hstep : ∃ after', CompileStep h (fun t o => Runs (compileWithin h depth t o)) s
        overriding ctx' r after' by
      obtain ⟨after', hstep⟩ := hstep
      exact ⟨after', runs_compileStep_iff.mpr hstep⟩
    have hext : ∀ (x : Schema) (ctx : Context) (r : Compiled) (after : Context),
        Runs (compileWithin h depth x false) ctx r after → after.Extends ctx :=
      fun x ctx r after hr => (walked_of_runs hr).extends
    cases runs_compileStep_iff.mp hrun with
    | override hoverride ht hr =>
      obtain ⟨after', hr'⟩ := ih (hs.below (.inr ht)) hr hcovers
      exact ⟨after', .override hoverride ht hr'⟩
    | literal hoverride hliteral hclass hfinish =>
      obtain ⟨after', hfinish'⟩ := hfinish.again ctx'
      exact ⟨after', .literal hoverride hliteral hclass hfinish'⟩
    | known hoverride hliteral hclass hhas hplace hwhat =>
      exact ⟨ctx', .known hoverride hliteral hclass (hcovers.has _ _ hhas) hplace hwhat⟩
    | @forbidden _ c _ hoverride hliteral hclass _ hforbidden =>
      cases c with
      | none =>
        exact ⟨ctx', .forbidden hoverride hliteral hclass (fun _ hkey => by cases hkey) hforbidden⟩
      | some key =>
        -- A class would be referred to instead, if it is known by now.
        have hnot := hs s .refl (class?_eq_ok_some_iff.mp hclass).1
        exact absurd (hnot.symm.trans hforbidden) Bool.false_ne_true
    | @compiled _ c kind outcomes whenOutcomes fields _ middle inner _ _ hoverride hliteral hclass
        hnew hforbidden hfresh hkind hparts hwhens hfields hfinish =>
      by_cases hknown : ∃ key, c = some key ∧ ctx'.has key.1 key.2 = true
      · -- The class is known by now and only referred to.
        obtain ⟨key, rfl, hhas⟩ := hknown
        cases hfinish with
        | define hplace hwhat => exact ⟨ctx', .known hoverride hliteral hclass hhas hplace hwhat⟩
      · have hnew' : ctx'.IsNew c := fun key hkey =>
          Bool.eq_false_iff.mpr fun hhas => hknown ⟨key, hkey, hhas⟩
        have hinner : inner.Extends middle := Chain.extends (fun x _ => hext x) hwhens
        have hmiddle : middle.Extends (ctx.enterAt s) := Chain.extends (fun x _ => hext x) hparts
        have henter : (ctx'.enterAt s).Covers (ctx.enterAt s) inner :=
          hcovers.enterAt.weaken fun b n hhas => hfinish.extends.has b n (by rwa [Context.has_leaveAt])
        obtain ⟨middle', hparts'⟩ := hparts.rerun (fun x _ => hext x)
          (fun x hx ctx r after hr ctx' hc => ih (hs.below (.inl (Kind.mem_parts hx))) hr hc)
          (henter.weaken hinner.has)
        have hmiddle' : middle'.Extends (ctx'.enterAt s) := Chain.extends (fun x _ => hext x) hparts'
        obtain ⟨inner', hwhens'⟩ := hwhens.rerun (fun x _ => hext x)
          (fun x hx ctx r after hr ctx' hc => ih (hs.below (.inl (Node.mem_whenParts hx))) hr hc)
          (henter.step hmiddle' hmiddle)
        obtain ⟨after', hfinish'⟩ := hfinish.again (inner'.leaveAt s)
        exact ⟨after', .compiled hoverride hliteral hclass hnew' hforbidden (hcovers.fresh hfresh)
          hkind hparts' hwhens' hfields hfinish'⟩

end WireShape
