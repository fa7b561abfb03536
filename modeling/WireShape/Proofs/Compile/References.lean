import WireShape.Proofs.Compile.Keywords
import WireShape.Proofs.Compile.Walks
import WireShape.Proofs.References

/-!
# References that a walk makes

A walk makes a reference only to a class that is defined: one that is known, or one that it has just
created. So if no node brings a reference of its own, every reference in the outcome and in the
definitions created is to a definition, known or created.

* `Node.OwnsNoRefs`: nodes that bring no reference of their own.
* `Context.Closed`: all references in created definitions are to definitions.
* `Walked.closed`: a walk keeps this, and its outcome is a mapping of which the same holds.
-/

namespace WireShape

open Value (Fields)

/-- A node without literal schema whose values hold no reference. -/
structure Node.OwnsNoRefs (n : Node) : Prop where
  literal : n.literal.isNull = true
  supplied : ∀ v ∈ n.supplied, v.RefFree

theorem Node.literal_falsy {n : Node} (hnull : n.literal.isNull = true) :
    n.literal.truthy = false := by
  unfold Value.isNull at hnull
  split at hnull
  · rename_i heq
    rw [heq]
    rfl
  · cases hnull

theorem Node.not_literal {n : Node} (hnull : n.literal.isNull = true) : n.isLiteral = false := by
  rw [isLiteral, hnull]
  rfl

theorem Node.OwnsNoRefs.literal_falsy {n : Node} (hn : n.OwnsNoRefs) : n.literal.truthy = false :=
  Node.literal_falsy hn.literal

theorem Node.OwnsNoRefs.not_literal {n : Node} (hn : n.OwnsNoRefs) : n.isLiteral = false :=
  Node.not_literal hn.literal

namespace Context

/-- A target is the path of a definition, created or known. -/
def Resolves (describe : Describe) (ctx : Context) (target : String) : Prop :=
  ctx.created.Resolves describe target ∨ ctx.known.Resolves describe target

/-- All references in created definitions are to definitions. -/
def Closed (describe : Describe) (ctx : Context) : Prop :=
  ctx.created.RefersWithin (ctx.Resolves describe)

variable {describe : Describe} {ctx after : Context}

theorem resolves_of_names {b n : Atom} {place what : String} (hnames : ctx.Names b n)
    (hplace : b.display describe = .ok place) (hwhat : n.display describe = .ok what) :
    ctx.Resolves describe (bucketPath place ++ what) := by
  rcases hnames with hcreated | hknown
  · exact .inl ⟨b, n, place, what, hcreated, hplace, hwhat, rfl⟩
  · exact .inr ⟨b, n, place, what, hknown, hplace, hwhat, rfl⟩

theorem Extends.resolves (h : after.Extends ctx) {t : String} (ht : ctx.Resolves describe t) :
    after.Resolves describe t := by
  rcases ht with ⟨b, n, place, what, hnames, hplace, hwhat, rfl⟩ |
    ⟨b, n, place, what, hnames, hplace, hwhat, rfl⟩
  · exact resolves_of_names (h.names b n (.inl hnames)) hplace hwhat
  · exact resolves_of_names (h.names b n (.inr hnames)) hplace hwhat

theorem closed_enterAt {s : Schema} (h : ctx.Closed describe) : (ctx.enterAt s).Closed describe := by
  cases s <;> exact h

theorem closed_leaveAt {s : Schema} (h : ctx.Closed describe) : (ctx.leaveAt s).Closed describe := by
  cases s <;> exact h

theorem resolves_leaveAt {s : Schema} {t : String} :
    (ctx.leaveAt s).Resolves describe t ↔ ctx.Resolves describe t := by
  cases s <;> exact Iff.rfl

end Context

/-- A mapping whose references are to targets with a property and whose own properties, if it has
any, are mappings. -/
structure SchemaWithin (R : String → Prop) (v : Value) : Prop where
  isMap : v.isMap = true
  within : v.RefersWithin R
  properties : ∀ p, v.field? "properties" = some p →
    ∃ es, p = .ofEntries es ∧ ∀ e ∈ es, e.2.isMap = true

theorem SchemaWithin.mono {R R' : String → Prop} {v : Value} (hR : ∀ t, R t → R' t)
    (h : SchemaWithin R v) : SchemaWithin R' v := ⟨h.isMap, h.within.mono hR, h.properties⟩

theorem schemaWithin_reference {R : String → Prop} {place what : String}
    (h : R (bucketPath place ++ what)) : SchemaWithin R (reference place what) :=
  ⟨rfl, Value.refersWithin_reference h, fun _ hp => by cases hp⟩

/-- An outcome whose references are all to definitions. -/
def OutcomeClosed (describe : Describe) (ctx : Context) (r : Compiled) : Prop :=
  ∀ v, r = some v → SchemaWithin (ctx.Resolves describe) v

theorem OutcomeClosed.mono {describe : Describe} {ctx after : Context} {r : Compiled}
    (h : OutcomeClosed describe ctx r) (hextends : after.Extends ctx) :
    OutcomeClosed describe after r :=
  fun v hv => (h v hv).mono fun _ => hextends.resolves

/-- The outcomes of a chain are mappings whose references are to definitions. -/
theorem outcomes_closed {describe : Describe} {ctx : Context} {xs : List Schema}
    {outcomes : List Compiled}
    (h : List.Forall₂ (fun _ r => OutcomeClosed describe ctx r) xs outcomes) :
    ∀ r ∈ outcomes, ∀ v, r = some v → v.RefersWithin (ctx.Resolves describe) ∧ v.isMap = true := by
  intro r hr v hv
  obtain ⟨_, _, hclosed⟩ := forall₂_right h hr
  exact ⟨(hclosed v hv).within, (hclosed v hv).isMap⟩

/-- To define a class adds a definition and a reference to it. -/
theorem Finish.closed {h : Heap} {schema : Value} {ctx after : Context} {c : Option (Atom × Atom)}
    {r : Compiled} (hfinish : Finish h schema ctx c r after) (hctx : ctx.Closed h.describe)
    (hschema : SchemaWithin (ctx.Resolves h.describe) schema) :
    after.Closed h.describe ∧ OutcomeClosed h.describe after r := by
  have hextends := hfinish.extends
  cases hfinish with
  | plain =>
    refine ⟨hctx, ?_⟩
    intro v hv
    rw [Compiled.ofValue] at hv
    split at hv
    · cases hv
    · cases hv
      exact hschema
  | @define bucket name place what hplace hwhat =>
    have hmono : ∀ t, ctx.Resolves h.describe t → _ := fun t => hextends.resolves
    have hlater := hschema.mono hmono
    refine ⟨Components.RefersWithin.define (hctx.mono hmono) hlater.isMap hlater.within, ?_⟩
    intro v hv
    cases hv
    refine schemaWithin_reference ?_
    exact Context.resolves_of_names (.inl Components.names_define_self) hplace hwhat

/-- The invariant that walks keep, with what their outcomes have. -/
theorem Chain.closed {describe : Describe} {R : Schema → Context → Compiled → Context → Prop}
    {xs : List Schema} {outcomes : List Compiled} {ctx after : Context}
    (hR : ∀ x ∈ xs, ∀ ctx r after, R x ctx r after → after.Extends ctx ∧
      (ctx.Closed describe → after.Closed describe ∧ OutcomeClosed describe after r))
    (hchain : Chain R xs ctx outcomes after) (hctx : ctx.Closed describe) :
    after.Closed describe ∧
      List.Forall₂ (fun _ r => OutcomeClosed describe after r) xs outcomes := by
  refine hchain.forall₂ (I := Context.Closed describe) (P := fun _ r t => OutcomeClosed describe t r)
    ?_ ?_ hctx
  · exact fun x hx s y t hrun hs => (hR x hx s y t hrun).2 hs
  · exact fun x hx s y t hrun _ _ y' hy' => hy'.mono (hR x hx s y t hrun).1

/-- What is put together of outcomes whose references are to definitions refers only to definitions. -/
theorem Node.assemble_within {h : Heap} {n : Node} {ctx : Context} {kind : Kind} {xs ys : List Schema}
    {outcomes whenOutcomes : List Compiled} {fields : Fields} (hnode : n.OwnsNoRefs)
    (ho : List.Forall₂ (fun _ r => OutcomeClosed h.describe ctx r) xs outcomes)
    (hw : List.Forall₂ (fun _ r => OutcomeClosed h.describe ctx r) ys whenOutcomes)
    (hfields : n.assemble h kind outcomes whenOutcomes = .ok fields) :
    SchemaWithin (ctx.Resolves h.describe) (.ofEntries fields) := by
  have hrel := Node.assemble_having refersRel_congruence
    (fun v hv => (hnode.supplied v hv).within) hnode.literal_falsy (fun _ _ => trivial)
    (outcomes_closed ho) (outcomes_closed hw) hfields
  obtain ⟨_, hwithin⟩ := Value.refersWithin_of_fieldsRel hrel
  refine ⟨rfl, hwithin, fun p hp => ⟨_, Node.properties_of_assemble hnode.literal_falsy hfields hp, ?_⟩⟩
  intro e he
  obtain ⟨_, _, hclosed⟩ := forall₂_right ho (childFields_mem he)
  exact (hclosed e.2 rfl).isMap

/-- After all parts of a node have been compiled, the references in what is put together of them are
to definitions. -/
theorem Chain.assemble_closed {h : Heap} {n : Node} {R : Schema → Context → Compiled → Context → Prop}
    {kind : Kind} {outcomes whenOutcomes : List Compiled} {fields : Fields}
    {ctx middle inner : Context} (hnode : n.OwnsNoRefs)
    (hR : ∀ t ∈ n.parts, ∀ ctx r after, R t ctx r after → after.Extends ctx ∧
      (ctx.Closed h.describe → after.Closed h.describe ∧ OutcomeClosed h.describe after r))
    (hparts : Chain R (kind.parts n) ctx outcomes middle)
    (hwhens : Chain R n.whenParts middle whenOutcomes inner)
    (hfields : n.assemble h kind outcomes whenOutcomes = .ok fields) (hctx : ctx.Closed h.describe) :
    inner.Closed h.describe ∧ SchemaWithin (inner.Resolves h.describe) (.ofEntries fields) := by
  obtain ⟨hmiddle, ho⟩ := hparts.closed (fun t ht => hR t (Kind.mem_parts ht)) hctx
  obtain ⟨hinner, hw⟩ := hwhens.closed (fun t ht => hR t (Node.mem_whenParts ht)) hmiddle
  have hlater : inner.Extends middle :=
    hwhens.extends fun t ht ctx r after hr => (hR t (Node.mem_whenParts ht) ctx r after hr).1
  exact ⟨hinner, Node.assemble_within hnode (ho.imp fun _ _ hr => hr.mono hlater) hw hfields⟩

/-- Every reference that a walk makes is to a definition. -/
theorem Walked.closed {h : Heap} {s : Schema} {overriding : Bool} {ctx after : Context}
    {r : Compiled} (hrun : Walked h s overriding ctx r after)
    (hnodes : ∀ t, h.Reaches s t → (h.view t).OwnsNoRefs) (hctx : ctx.Closed h.describe) :
    after.Closed h.describe ∧ OutcomeClosed h.describe after r := by
  revert hnodes hctx
  refine hrun.induct (P := fun s _ ctx r after =>
    (∀ t, h.Reaches s t → (h.view t).OwnsNoRefs) → ctx.Closed h.describe →
      after.Closed h.describe ∧ OutcomeClosed h.describe after r) ?_
  intro s overriding ctx r after hstep hnodes hctx
  have hnode := hnodes s .refl
  cases hstep with
  | override _ ht hr => exact hr.2 (fun t' ht' => hnodes t' (.head (.inr ht) ht')) hctx
  | literal _ hliteral => exact absurd (hnode.not_literal.symm.trans hliteral) Bool.false_ne_true
  | @known _ bucket name place what _ _ _ _ hhas hplace hwhat =>
    refine ⟨hctx, ?_⟩
    intro v hv
    cases hv
    refine schemaWithin_reference ?_
    exact Context.resolves_of_names (Context.names_of_has hhas) hplace hwhat
  | forbidden => exact ⟨hctx, fun v hv => by cases hv⟩
  | compiled _ _ _ _ _ _ _ hparts hwhens hfields hfinish =>
    obtain ⟨hinner, hschema⟩ := Chain.assemble_closed hnode (fun t ht ctx r after hr =>
      ⟨hr.1.extends, hr.2 fun t' ht' => hnodes t' (.head (.inl ht) ht')⟩) hparts hwhens hfields
      (Context.closed_enterAt hctx)
    exact hfinish.closed (Context.closed_leaveAt hinner)
      (hschema.mono fun t ht => Context.resolves_leaveAt.mpr ht)

end WireShape
