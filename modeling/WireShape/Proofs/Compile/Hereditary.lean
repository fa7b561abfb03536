import WireShape.Proofs.Compile.Created
import WireShape.Proofs.Compile.References

/-!
# Properties that schemas inherit

A schema is put together from what nodes supply, from the schemas of their parts and from references
to classes. So a property that mappings, lists and marks keep goes over from what is supplied to
every schema that a walk ends with, as long as the references to classes have it. Which classes have
references with the property may depend on what has been defined, so the walk keeps a record of good
classes beside it.

* `Node.Supplies`: nodes without literal schema that supply values with a property only.
* `Hereditary`: properties that mappings, lists and marks keep and references to good classes have.
* `Walked.hereditary`: the outcome of a walk has the property, and all that is defined is good.
* `Heap.Defines.hereditary`: where every class is good, the definition of a class has the property.
-/

namespace WireShape

open Value (Fields)

/-- A node without literal schema all of whose values and keys have a property. -/
structure Node.Supplies (Key : Atom → Prop) (P : Value → Prop) (n : Node) : Prop where
  literal : n.literal.isNull = true
  supplied : ∀ v ∈ n.supplied, P v
  keys : ∀ e ∈ n.children, Key e.1

/-- A property that mappings, lists and marks keep, that the nodes at certain positions supply, and
that references to good classes have if they are classes of these nodes. -/
structure Hereditary (h : Heap) (At : Schema → Prop) (Key : Atom → Prop) (Good : Atom → Atom → Prop)
    (P : Value → Prop) : Prop where
  below : ∀ {s t}, At s → h.Holds s t → At t
  supplies : ∀ {s}, At s → (h.view s).Supplies Key P
  congruence : Congruence Key (Having P)
  reference : ∀ {s bucket name place what}, At s →
    (h.view s).class? = .ok (some (bucket, name)) → Good bucket name →
      bucket.display h.describe = .ok place → name.display h.describe = .ok what →
        P (reference place what)
  congr : ∀ {b n b' n'}, (b == b') = true → (n == n') = true → Good b n → Good b' n'

/-- All that a state has is good. -/
def Context.HasOnly (Good : Atom → Atom → Prop) (ctx : Context) : Prop :=
  ∀ bucket name, ctx.has bucket name = true → Good bucket name

/-- An outcome is a mapping with a property, if it is anything. -/
def OutcomeHas (P : Value → Prop) (r : Compiled) : Prop := ∀ v, r = some v → P v ∧ v.isMap = true

/-- The classes that are defined in a state are good if their definitions have the property. -/
def Heap.MakesGood (h : Heap) (At : Schema → Prop) (Good : Atom → Atom → Prop) (P : Value → Prop)
    (after : Context) : Prop :=
  ∀ s bucket name d, At s → h.Defines s bucket name d → after.Names bucket name → P d →
    Good bucket name

section Hereditary

variable {Key : Atom → Prop} {Good : Atom → Atom → Prop} {P : Value → Prop} {At : Schema → Prop}
  {h : Heap} {n : Node} {s : Schema} {fields : Fields} {overriding : Bool}
  {ctx middle after : Context} {r : Compiled} {outcomes whenOutcomes : List Compiled}

theorem Hereditary.part (hP : Hereditary h At Key Good P) (hs : At s) {t : Schema}
    (ht : t ∈ (h.view s).parts) : At t := hP.below hs (.inl ht)

theorem Heap.MakesGood.before (hmakes : h.MakesGood At Good P after)
    (hlater : ∀ b n, middle.Names b n → after.Names b n) : h.MakesGood At Good P middle :=
  fun t bucket name d ht hd hnames => hmakes t bucket name d ht hd (hlater _ _ hnames)

/-- What a node is put together to has the property if the outcomes of its parts have. -/
theorem Hereditary.assemble {kind : Kind} (hP : Hereditary h At Key Good P) (hs : At s)
    (ho : ∀ r ∈ outcomes, OutcomeHas P r) (hw : ∀ r ∈ whenOutcomes, OutcomeHas P r)
    (hfields : (h.view s).assemble h kind outcomes whenOutcomes = .ok fields) :
    P (.ofEntries fields) := by
  have hn := hP.supplies hs
  have hrel := Node.assemble_having hP.congruence hn.supplied (Node.literal_falsy hn.literal)
    hn.keys ho hw hfields
  exact (hP.congruence.map hrel).2

/-- To hand on a schema that has the property keeps all good. -/
theorem Finish.hereditary {schema : Value} {c : Option (Atom × Atom)}
    (hP : Hereditary h At Key Good P) (hs : At s) (hclass : (h.view s).class? = .ok c)
    (hfinish : Finish h schema ctx c r after) (hctx : ctx.HasOnly Good) (hschema : P schema)
    (hmap : schema.isMap = true) (hdefines : ∀ b n, c = some (b, n) → h.Defines s b n schema)
    (hmakes : h.MakesGood At Good P after) : OutcomeHas P r ∧ after.HasOnly Good := by
  cases hfinish with
  | plain =>
    refine ⟨fun v hv => ?_, hctx⟩
    rw [Compiled.ofValue] at hv
    split at hv
    · cases hv
    · cases hv
      exact ⟨hschema, hmap⟩
  | @define bucket name place what hplace hwhat =>
    have hnew : Good bucket name := by
      apply hmakes s bucket name schema hs (hdefines _ _ rfl) _ hschema
      exact .inl Components.names_define_self
    refine ⟨fun v hv => ?_, fun b n hhas => ?_⟩
    · cases hv
      exact ⟨hP.reference hs hclass hnew hplace hwhat, rfl⟩
    · rw [Context.has_register, Bool.or_eq_true, Bool.and_eq_true] at hhas
      rcases hhas with ⟨hb, hn⟩ | hold
      · exact hP.congr hb hn hnew
      · exact hctx b n hold

theorem Context.HasOnly.enterAt (hctx : ctx.HasOnly Good) : (ctx.enterAt s).HasOnly Good := by
  cases s <;> exact hctx

theorem Context.HasOnly.leaveAt (hctx : ctx.HasOnly Good) : (ctx.leaveAt s).HasOnly Good := by
  cases s <;> exact hctx

/-- A chain of walks keeps all good if each of them does, and its outcomes have the property. -/
theorem Chain.hereditary {R : Schema → Context → Compiled → Context → Prop} {xs : List Schema}
    (hchain : Chain R xs ctx outcomes after)
    (hext : ∀ x ∈ xs, ∀ ctx r after, R x ctx r after → after.Extends ctx)
    (hR : ∀ x ∈ xs, ∀ ctx r later, R x ctx r later →
      (∀ b n, later.Names b n → after.Names b n) → ctx.HasOnly Good →
        OutcomeHas P r ∧ later.HasOnly Good) (hctx : ctx.HasOnly Good) :
    (∀ r ∈ outcomes, OutcomeHas P r) ∧ after.HasOnly Good := by
  induction hchain with
  | nil => exact ⟨fun _ hr => (by cases hr), hctx⟩
  | @cons x xs r outcomes ctx mid after head tail ih =>
    have hext' : ∀ y ∈ xs, ∀ ctx r after, R y ctx r after → after.Extends ctx :=
      fun y hy => hext y (List.mem_cons_of_mem _ hy)
    obtain ⟨hr, hmid⟩ := hR x List.mem_cons_self _ _ _ head (tail.extends hext').names hctx
    obtain ⟨hall, hafter⟩ := ih hext' (fun y hy => hR y (List.mem_cons_of_mem _ hy)) hmid
    exact ⟨List.forall_mem_cons.mpr ⟨hr, hall⟩, hafter⟩

/-- From a state that has only good classes, a walk leads to such a state, and its outcome has the
property. -/
theorem Walked.hereditary (hP : Hereditary h At Key Good P) (hs : At s)
    (hrun : Walked h s overriding ctx r after) (hmakes : h.MakesGood At Good P after)
    (hctx : ctx.HasOnly Good) : OutcomeHas P r ∧ after.HasOnly Good := by
  revert hs hmakes hctx
  refine hrun.induct (P := fun s _ ctx r after => At s → h.MakesGood At Good P after →
    ctx.HasOnly Good → OutcomeHas P r ∧ after.HasOnly Good) ?_
  intro s overriding ctx r after hstep hs hmakes hctx
  cases hstep with
  | override _ ht hr => exact hr.2 (hP.below hs (.inr ht)) hmakes hctx
  | literal _ hliteral =>
    have hnot := Node.not_literal (hP.supplies hs).literal
    exact absurd (hnot.symm.trans hliteral) Bool.false_ne_true
  | known _ _ hclass hhas hplace hwhat =>
    refine ⟨fun v hv => ?_, hctx⟩
    cases hv
    exact ⟨hP.reference hs hclass (hctx _ _ hhas) hplace hwhat, rfl⟩
  | forbidden => exact ⟨fun v hv => (by cases hv), hctx⟩
  | @compiled _ c _ outcomes whenOutcomes _ _ middle inner _ _ hoverride hliteral hclass _
      hforbidden _ hkind hparts hwhens hfields hfinish =>
    have hinner : ∀ b n, inner.Names b n → after.Names b n := by
      intro b n hnames
      apply hfinish.extends.names b n
      cases s <;> exact hnames
    have hmiddle : ∀ b n, middle.Names b n → after.Names b n := by
      intro b n hnames
      apply hinner b n
      exact (hwhens.extends fun _ _ _ _ _ hr => hr.1.extends).names b n hnames
    obtain ⟨ho, hgood⟩ := hparts.hereditary (fun _ _ _ _ _ hr => hr.1.extends)
      (fun t ht _ _ _ hr hnames => hr.2 (hP.part hs (Kind.mem_parts ht))
        (hmakes.before fun b n hbn => hmiddle b n (hnames b n hbn))) hctx.enterAt
    obtain ⟨hw, hgood'⟩ := hwhens.hereditary (fun _ _ _ _ _ hr => hr.1.extends)
      (fun t ht _ _ _ hr hnames => hr.2 (hP.part hs (Node.mem_whenParts ht))
        (hmakes.before fun b n hbn => hinner b n (hnames b n hbn))) hgood
    refine Finish.hereditary hP hs hclass hfinish hgood'.leaveAt (hP.assemble hs ho hw hfields) rfl
      ?_ hmakes
    rintro b n rfl
    exact .compiled hoverride hliteral hclass hforbidden hkind
      (hparts.mono fun _ _ _ _ _ hr => hr.1) (hwhens.mono fun _ _ _ _ _ hr => hr.1) hfields

/-- Where every class is good, all outcomes have the property. -/
theorem Walked.hereditary_all (hP : Hereditary h At Key (fun _ _ => True) P) (hs : At s)
    (hrun : Walked h s overriding ctx r after) : OutcomeHas P r :=
  (hrun.hereditary hP hs (fun _ _ _ _ _ _ _ _ => trivial) fun _ _ _ => trivial).1

/-- Where every class is good, the definition of a class has the property. -/
theorem Heap.Defines.hereditary {bucket name : Atom} {d : Value}
    (hP : Hereditary h At Key (fun _ _ => True) P) (hs : At s) (hd : h.Defines s bucket name d) :
    P d ∧ d.isMap = true := by
  cases hd with
  | literal _ hliteral =>
    have hnot := Node.not_literal (hP.supplies hs).literal
    exact absurd (hnot.symm.trans hliteral) Bool.false_ne_true
  | compiled _ _ _ _ _ hparts hwhens hfields =>
    have hchain : ∀ {xs : List Schema} {outcomes : List Compiled} {ctx after : Context},
        (∀ t ∈ xs, t ∈ (h.view s).parts) → Chain (fun t => Walked h t false) xs ctx outcomes after →
          ∀ r ∈ outcomes, OutcomeHas P r := by
      intro xs outcomes ctx after hxs hchain r hr
      have hall := hchain.answers (P := fun _ r => OutcomeHas P r) fun t ht _ _ _ hrun =>
        hrun.hereditary_all hP (hP.part hs (hxs t ht))
      obtain ⟨_, _, hhas⟩ := forall₂_right hall hr
      exact hhas
    exact ⟨hP.assemble hs (hchain (fun _ => Kind.mem_parts) hparts)
      (hchain (fun _ => Node.mem_whenParts) hwhens) hfields, rfl⟩

end Hereditary

end WireShape
