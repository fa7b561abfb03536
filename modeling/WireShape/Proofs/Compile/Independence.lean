import WireShape.Proofs.Compile.Known

/-!
# Outcomes do not depend on the state

A walk reads the definitions that are known and created, and the path that it is on. These decide
whether it succeeds and what it defines, but not its outcome: a class is referred to whether it is
known or has just been defined, and every other outcome is made of the outcomes of the parts. A
class that is forbidden has two outcomes, a reference where it is known and none where it is not
(`Walked.forbidden_class`).

* `CompileStep.refers`: the outcome of a class.
* `Walked.unique`: two walks from one position have one outcome, whatever states they start in.
* `Heap.compile_unique`: the same for walks from values.
-/

namespace WireShape

/-! ## One step -/

/-- A walk succeeds in one of the ways of a step, its calls being walks. -/
theorem Walked.step {h : Heap} {s : Schema} {overriding : Bool} {ctx after : Context} {r : Compiled}
    (hrun : Walked h s overriding ctx r after) :
    CompileStep h (Walked h) s overriding ctx r after := by
  obtain ⟨depth, hrun⟩ := hrun
  cases depth with
  | zero => exact absurd hrun not_runs_throw
  | succ depth =>
    exact CompileStep.mono (fun _ _ _ _ _ _ => walked_of_runs) (runs_compileStep_iff.mp hrun)

/-- Two chains have the same answers where each link has the same answer in all states. -/
theorem Chain.answers_unique {α β σ : Type} {R R' : α → σ → β → σ → Prop} {xs : List α}
    {ys ys' : List β} {s s' t t' : σ} (hchain : Chain R xs s ys t) (hchain' : Chain R' xs s' ys' t')
    (hR : ∀ x ∈ xs, ∀ s y t, R x s y t → ∀ s' y' t', R' x s' y' t' → y = y') : ys = ys' := by
  induction hchain generalizing ys' s' with
  | nil => exact (Chain.nil_iff.mp hchain').1.symm
  | cons head _ ih =>
    obtain ⟨y', u', zs, head', tail', rfl⟩ := Chain.cons_iff.mp hchain'
    rw [hR _ List.mem_cons_self _ _ _ head _ _ _ head',
      ih tail' fun x hx => hR x (List.mem_cons_of_mem _ hx)]

section Outcomes

variable {h : Heap} {below : Schema → Bool → Context → Compiled → Context → Prop} {s : Schema}
  {overriding : Bool} {schema : Value} {ctx after : Context} {r : Compiled}

/-- What stands for a class, with its bucket and its name as they are printed. -/
def RefersTo (h : Heap) (bucket name : Atom) (r : Compiled) : Prop :=
  ∃ place what, bucket.display h.describe = .ok place ∧ name.display h.describe = .ok what ∧
    r = some (reference place what)

theorem RefersTo.unique {bucket name : Atom} {r' : Compiled} (hr : RefersTo h bucket name r)
    (hr' : RefersTo h bucket name r') : r = r' := by
  obtain ⟨place, what, hplace, hwhat, rfl⟩ := hr
  obtain ⟨place', what', hplace', hwhat', rfl⟩ := hr'
  cases hplace.symm.trans hplace'
  cases hwhat.symm.trans hwhat'
  rfl

theorem Finish.refers {bucket name : Atom} (hfinish : Finish h schema ctx (some (bucket, name)) r after) :
    RefersTo h bucket name r := by
  cases hfinish with
  | define hplace hwhat => exact ⟨_, _, hplace, hwhat, rfl⟩

theorem Finish.plain_outcome (hfinish : Finish h schema ctx none r after) :
    r = Compiled.ofValue schema := by
  cases hfinish
  rfl

/-- A class that is not forbidden is referred to, whether it is known or not. -/
theorem CompileStep.refers {bucket name : Atom} (hstep : CompileStep h below s overriding ctx r after)
    (hoverride : (h.view s).override.isNull = true)
    (hclass : (h.view s).class? = .ok (some (bucket, name)))
    (hallowed : (h.view s).isForbidden = false) : RefersTo h bucket name r := by
  cases hstep with
  | override h' => exact absurd (h'.symm.trans hoverride) Bool.false_ne_true
  | literal _ _ hclass' hfinish =>
    cases hclass.symm.trans hclass'
    exact hfinish.refers
  | known _ _ hclass' _ hplace hwhat =>
    cases hclass.symm.trans hclass'
    exact ⟨_, _, hplace, hwhat, rfl⟩
  | forbidden _ _ _ _ h' => exact absurd (hallowed.symm.trans h') Bool.false_ne_true
  | compiled _ _ hclass' _ _ _ _ _ _ _ hfinish =>
    cases hclass.symm.trans hclass'
    exact hfinish.refers

end Outcomes

/-! ## Whole walks -/

/-- Two walks from one position have one outcome, whatever states they start in. -/
theorem Walked.unique {h : Heap} {s : Schema} {overriding : Bool} {ctx after : Context}
    {r : Compiled} (hrun : Walked h s overriding ctx r after) (hs : h.NoForbiddenClass s)
    {ctx' after' : Context} {r' : Compiled} (hrun' : Walked h s overriding ctx' r' after') :
    r = r' := by
  suffices hall : h.NoForbiddenClass s → ∀ ctx' r' after',
      Walked h s overriding ctx' r' after' → r = r' from hall hs ctx' r' after' hrun'
  refine hrun.induct (P := fun s overriding _ r _ => h.NoForbiddenClass s →
    ∀ ctx' r' after', Walked h s overriding ctx' r' after' → r = r') ?_
  clear hrun hrun' hs s overriding ctx r after ctx' r' after'
  intro s overriding ctx r after hstep hs ctx' r' after' hrun'
  have hstep' := hrun'.step
  by_cases hclass : ∃ bucket name, (h.view s).override.isNull = true ∧
      (h.view s).class? = .ok (some (bucket, name))
  · obtain ⟨bucket, name, hoverride, hclass⟩ := hclass
    have hallowed := hs s .refl (class?_eq_ok_some_iff.mp hclass).1
    exact (hstep.refers hoverride hclass hallowed).unique (hstep'.refers hoverride hclass hallowed)
  · -- Where there is no class, both calls succeed in the same way.
    have hplain : ∀ {c}, (h.view s).override.isNull = true → (h.view s).class? = .ok c → c = none := by
      intro c hoverride hc
      cases c with
      | none => rfl
      | some key => exact absurd ⟨key.1, key.2, hoverride, hc⟩ hclass
    cases hstep with
    | override hoverride ht hr =>
      cases hstep' with
      | override _ ht' hr' =>
        cases ht.symm.trans ht'
        exact hr.2 (hs.below (.inr ht)) _ _ _ hr'
      | literal h' | known h' | forbidden h' | compiled h' =>
        exact absurd (hoverride.symm.trans h') Bool.false_ne_true
    | literal hoverride hliteral hc hfinish =>
      cases hplain hoverride hc
      cases hstep' with
      | override h' => exact absurd (h'.symm.trans hoverride) Bool.false_ne_true
      | literal _ _ hc' hfinish' =>
        cases hplain hoverride hc'
        rw [hfinish.plain_outcome, hfinish'.plain_outcome]
      | known _ h' | forbidden _ h' | compiled _ h' =>
        exact absurd (h'.symm.trans hliteral) Bool.false_ne_true
    | known hoverride _ hc => cases hplain hoverride hc
    | forbidden hoverride hliteral hc _ hforbidden =>
      cases hstep' with
      | override h' => exact absurd (h'.symm.trans hoverride) Bool.false_ne_true
      | literal _ h' => exact absurd (hliteral.symm.trans h') Bool.false_ne_true
      | known _ _ hc' => cases hplain hoverride hc'
      | forbidden => rfl
      | compiled _ _ _ _ h' => exact absurd (h'.symm.trans hforbidden) Bool.false_ne_true
    | compiled hoverride hliteral hc _ hforbidden _ hkind hparts hwhens hfields hfinish =>
      cases hstep' with
      | override h' => exact absurd (h'.symm.trans hoverride) Bool.false_ne_true
      | literal _ h' => exact absurd (hliteral.symm.trans h') Bool.false_ne_true
      | known _ _ hc' => cases hplain hoverride hc'
      | forbidden _ _ _ _ h' => exact absurd (hforbidden.symm.trans h') Bool.false_ne_true
      | compiled _ _ hc' _ _ _ hkind' hparts' hwhens' hfields' hfinish' =>
        cases hplain hoverride hc
        cases hplain hoverride hc'
        cases hkind.symm.trans hkind'
        have houtcomes := hparts.answers_unique hparts' fun x hx _ _ _ hr ctx' r' after' hr' =>
          hr.2 (hs.below (.inl (Kind.mem_parts hx))) ctx' r' after' hr'
        have hwhenOutcomes := hwhens.answers_unique hwhens' fun x hx _ _ _ hr ctx' r' after' hr' =>
          hr.2 (hs.below (.inl (Node.mem_whenParts hx))) ctx' r' after' hr'
        rw [houtcomes, hwhenOutcomes] at hfields
        cases hfields.symm.trans hfields'
        rw [hfinish.plain_outcome, hfinish'.plain_outcome]

/-- A value that holds no forbidden class has one outcome. -/
theorem Heap.NoForbiddenClassIn.one_outcome {h : Heap} {v : Value} (hv : h.NoForbiddenClassIn v)
    {ctx ctx' : Context} {r r' : Compiled} {after after' : Context}
    (hrun : Runs (h.compile v) ctx r after) (hrun' : Runs (h.compile v) ctx' r' after') : r = r' := by
  obtain ⟨s, hs, hrun⟩ := runs_compile_iff.mp hrun
  obtain ⟨s', hs', hrun'⟩ := runs_compile_iff.mp hrun'
  cases hs.symm.trans hs'
  exact (walked_of_runs hrun).unique (hv s hs) (walked_of_runs hrun')

/-- What a value compiles to does not depend on what is known, created or on the path. -/
theorem Heap.compile_unique (h : Heap) (v : Value) (hv : h.NoForbiddenClassIn v) {ctx ctx' : Context}
    {r r' : Compiled} {after after' : Context} (hrun : Runs (h.compile v) ctx r after)
    (hrun' : Runs (h.compile v) ctx' r' after') : r = r' :=
  hv.one_outcome hrun hrun'

/-- A ticket for a seat; seats are a class. -/
def ticketHeap : Heap where
  nodes := #[{ kind := "string" },
    { kind := "object", children := [(.str "row", .node 0)],
      metadata := [(.str "className", .str "Seat")] },
    { kind := "object", children := [(.str "seat", .node 1)] }]

/-- A ticket compiles to the same schema where seats are known and where they are not; only in the
second case the walk defines them. -/
theorem Heap.compile_unique_ticket : ticketHeap.NoForbiddenClassIn (.node 2) ∧
    ∃ r after after', Runs (ticketHeap.compile (.node 2)) {} r after ∧
      Runs (ticketHeap.compile (.node 2))
        { known := [(.str "schemas", [(.str "Seat", .ofEntries [])])] } r after' ∧
      after.created.contains (.str "schemas") (.str "Seat") = true ∧ after'.created = [] := by
  have hticket : ticketHeap.NoForbiddenClassIn (.node 2) := by
    refine noForbiddenClass_of_nodes ?_ _
    simp only [ticketHeap, List.mem_toArray, List.forall_mem_cons, List.not_mem_nil, false_implies,
      implies_true, and_true]
    exact ⟨fun _ => rfl, fun _ => rfl, fun _ => rfl⟩
  obtain ⟨r, after, hrun, hdefined⟩ : ∃ r after, Runs (ticketHeap.compile (.node 2)) {} r after ∧
      after.created.contains (.str "schemas") (.str "Seat") = true := ⟨_, _, rfl, rfl⟩
  obtain ⟨r', after', hrun', hnone⟩ : ∃ r after, Runs (ticketHeap.compile (.node 2))
      { known := [(.str "schemas", [(.str "Seat", .ofEntries [])])] } r after ∧
        after.created = [] := ⟨_, _, rfl, rfl⟩
  obtain rfl := compile_unique ticketHeap (.node 2) hticket hrun hrun'
  exact ⟨hticket, r, after, after', hrun, hrun', hdefined, hnone⟩

/-! ## Forbidden classes -/

/-- A forbidden class is referred to where it is known and left out where it is not. -/
theorem Walked.forbidden_class {h : Heap} {s : Schema} {overriding : Bool} {ctx after : Context}
    {r : Compiled} {bucket name : Atom} (hrun : Walked h s overriding ctx r after)
    (hoverride : (h.view s).override.isNull = true) (hliteral : (h.view s).isLiteral = false)
    (hclass : (h.view s).class? = .ok (some (bucket, name)))
    (hforbidden : (h.view s).isForbidden = true) :
    (ctx.has bucket name = true → RefersTo h bucket name r) ∧
      (ctx.has bucket name = false → r = none) := by
  cases hrun.step with
  | override h' => exact absurd (h'.symm.trans hoverride) Bool.false_ne_true
  | literal _ h' => exact absurd (hliteral.symm.trans h') Bool.false_ne_true
  | known _ _ hclass' hhas hplace hwhat =>
    cases hclass.symm.trans hclass'
    refine ⟨fun _ => ⟨_, _, hplace, hwhat, rfl⟩, fun hnot => ?_⟩
    exact absurd (hnot.symm.trans hhas) Bool.false_ne_true
  | forbidden _ _ hclass' hnew _ =>
    cases hclass.symm.trans hclass'
    exact ⟨fun hhas => absurd ((hnew _ rfl).symm.trans hhas) Bool.false_ne_true, fun _ => rfl⟩
  | compiled _ _ _ _ h' => exact absurd (h'.symm.trans hforbidden) Bool.false_ne_true

end WireShape
