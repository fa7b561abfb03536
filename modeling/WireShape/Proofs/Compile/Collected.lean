import WireShape.Proofs.Compile.Copies
import WireShape.Proofs.Reordered

/-!
# Walks collect all classes that they meet

A walk does not look below a class that is known. It need not: when a class is defined, everything
below it has been defined before. So after a walk all classes are known that the walk would have met
if nothing had been known beforehand, and it does not matter for which of them some other walk was
first.

* `Heap.Uniform`: positions at which nodes of one class are copies of each other.
* `Heap.Collects`: all classes on the way from a position are in a set.
* `Heap.Settled`: a set of classes that has with each class all those on the way from it.
* `Walked.collects`: a walk leads from a settled set to a settled set that has all on its way.
-/

namespace WireShape

namespace Heap

/-- A position is not overridden and has a class. -/
def Owns (h : Heap) (s : Schema) (b n : Atom) : Prop :=
  (h.view s).override.isNull = true ∧ (h.view s).class? = .ok (some (b, n))

/-- Positions without literal schemas, at which classes are named by text, none of them is forbidden,
and nodes of one class are copies of each other. -/
structure Uniform (h : Heap) (At : Schema → Prop) : Prop where
  plain : ∀ {s}, At s → (h.view s).literal.isNull = true
  named : ∀ {s b n}, At s → (h.view s).class? = .ok (some (b, n)) →
    b.isText = true ∧ n.isText = true
  allowed : ∀ {s}, At s → (h.view s).className.truthy = true → (h.view s).isForbidden = false
  copies : ∀ {s t b n}, At s → At t → (h.view s).class? = .ok (some (b, n)) →
    (h.view t).class? = .ok (some (b, n)) → (h.view s).CopyOf (h.view t)

/-- A set has all classes on the way from a position. -/
def Collects (h : Heap) (S : Atom → Atom → Bool) (s : Schema) : Prop :=
  ∀ t b n, h.Meets s t → h.Owns t b n → S b n = true

/-- A set has with each class at one of the positions all classes on the way from there. -/
def Settled (h : Heap) (At : Schema → Prop) (S : Atom → Atom → Bool) : Prop :=
  ∀ s b n, At s → h.Owns s b n → S b n = true → h.Collects S s

variable {h : Heap} {At : Schema → Prop} {S S' : Atom → Atom → Bool} {s t : Schema} {b n : Atom}

theorem Uniform.not_literal (hAt : h.Uniform At) (hs : At s) : (h.view s).isLiteral = false := by
  rw [Node.isLiteral, hAt.plain hs]
  rfl

theorem Uniform.class_allowed (hAt : h.Uniform At) (hs : At s)
    (hclass : (h.view s).class? = .ok (some (b, n))) : (h.view s).isForbidden = false :=
  hAt.allowed hs (class?_eq_ok_some_iff.mp hclass).1

theorem Collects.mono (hs : h.Collects S s) (hS : ∀ b n, S b n = true → S' b n = true) :
    h.Collects S' s := fun t b n ht hown => hS b n (hs t b n ht hown)

/-- What has all classes on the way from the positions that a walk goes on to, and the class at the
position itself, has all on the way from the position. -/
theorem Collects.of_visits (hown : ∀ b n, h.Owns s b n → S b n = true)
    (hvisits : ∀ t, h.Visits s t → h.Collects S t) : h.Collects S s := by
  intro t b n ht howns
  rcases Relation.ReflTransGen.cases_head ht with rfl | ⟨u, hu, hut⟩
  · exact hown b n howns
  · exact hvisits u hu t b n hut howns

end Heap

section Collects

variable {h : Heap} {At : Schema → Prop} {s : Schema} {overriding : Bool} {ctx after : Context}
  {r : Compiled}

/-- Walks one after the other collect what each of them collects. -/
theorem Chain.collects {R : Schema → Context → Compiled → Context → Prop} {xs : List Schema}
    {outcomes : List Compiled} (hchain : Chain R xs ctx outcomes after)
    (hext : ∀ x ∈ xs, ∀ ctx r after, R x ctx r after → after.Extends ctx)
    (hR : ∀ x ∈ xs, ∀ ctx r after, R x ctx r after → h.Settled At ctx.has →
      h.Settled At after.has ∧ h.Collects after.has x) (hctx : h.Settled At ctx.has) :
    h.Settled At after.has ∧ ∀ x ∈ xs, h.Collects after.has x := by
  obtain ⟨hafter, hall⟩ := hchain.forall₂ (I := fun later => h.Settled At later.has)
    (P := fun x _ later => h.Collects later.has x) hR
    (fun x hx _ _ _ hrun _ _ _ hcollects => hcollects.mono (hext x hx _ _ _ hrun).has) hctx
  refine ⟨hafter, fun x hx => ?_⟩
  obtain ⟨_, _, hcollects⟩ := forall₂_left hall hx
  exact hcollects

/-- After everything that a class leads to has been collected, the class is. -/
theorem Finish.collects {schema : Value} {c : Option (Atom × Atom)} (hAt : h.Uniform At) (hs : At s)
    (hclass : (h.view s).class? = .ok c) (hfinish : Finish h schema ctx c r after)
    (hctx : h.Settled At ctx.has) (hvisits : ∀ t, h.Visits s t → h.Collects ctx.has t) :
    h.Settled At after.has ∧ h.Collects after.has s := by
  have hlater := hfinish.extends.has
  have hbelow : ∀ t, h.Visits s t → h.Collects after.has t :=
    fun t ht => (hvisits t ht).mono hlater
  cases hfinish with
  | plain =>
    refine ⟨hctx, .of_visits (fun b n hown => ?_) hbelow⟩
    cases hclass.symm.trans hown.2
  | @define bucket name place what =>
    have hnamed := hAt.named hs hclass
    have hself : (ctx.register bucket name schema place what).has bucket name = true := by
      rw [Context.has_register, Atom.beq_self hnamed.1, Atom.beq_self hnamed.2]
      rfl
    have hsame : ∀ b n, h.Owns s b n →
        (ctx.register bucket name schema place what).has b n = true := by
      intro b n hown
      cases hclass.symm.trans hown.2
      exact hself
    refine ⟨fun t b n ht hown hhas => ?_, .of_visits hsame hbelow⟩
    rw [Context.has_register, Bool.or_eq_true, Bool.and_eq_true] at hhas
    rcases hhas with ⟨hb, hn⟩ | hold
    · -- The walk goes on from a copy of the class to where it goes on from the class.
      obtain rfl := Atom.eq_of_isText hb hnamed.1
      obtain rfl := Atom.eq_of_isText hn hnamed.2
      refine .of_visits (fun b n hown' => ?_) fun u hu => ?_
      · cases hown.2.symm.trans hown'.2
        exact hself
      · exact hbelow u (hu.copied (hAt.copies ht hs hown.2 hclass) (hAt.class_allowed hs hclass))
    · exact (hctx t b n ht hown hold).mono hlater

/-- A walk from a state with a settled set of classes leads to such a state, and all classes on its
way are known there. -/
theorem Walked.collects (hAt : h.Uniform At) (hbelow : ∀ s t, At s → h.Holds s t → At t) (hs : At s)
    (hrun : Walked h s overriding ctx r after) (hctx : h.Settled At ctx.has) :
    h.Settled At after.has ∧ h.Collects after.has s := by
  revert hs hctx
  refine hrun.induct (P := fun s _ ctx _ after => At s → h.Settled At ctx.has →
    h.Settled At after.has ∧ h.Collects after.has s) ?_
  intro s overriding ctx r after hstep hs hctx
  cases hstep with
  | override hoverride ht hr =>
    obtain ⟨hafter, hcollects⟩ := hr.2 (hbelow _ _ hs (.inr ht)) hctx
    refine ⟨hafter, .of_visits (fun b n hown => ?_) fun u hu => ?_⟩
    · exact absurd (hoverride.symm.trans hown.1) Bool.false_ne_true
    · cases hu with
      | override _ hu =>
        cases ht.symm.trans hu
        exact hcollects
      | part hnone => exact absurd (hoverride.symm.trans hnone) Bool.false_ne_true
  | literal _ hliteral =>
    exact absurd ((hAt.not_literal hs).symm.trans hliteral) Bool.false_ne_true
  | known hoverride _ hclass hhas => exact ⟨hctx, hctx s _ _ hs ⟨hoverride, hclass⟩ hhas⟩
  | forbidden hoverride _ hclass _ hforbidden =>
    refine ⟨hctx, .of_visits (fun b n hown => ?_) fun u hu => ?_⟩
    · exact absurd ((hAt.class_allowed hs hown.2).symm.trans hforbidden) Bool.false_ne_true
    · cases hu with
      | override h' => exact absurd (h'.symm.trans hoverride) Bool.false_ne_true
      | part _ hallowed => exact absurd (hallowed.symm.trans hforbidden) Bool.false_ne_true
  | @compiled _ _ _ outcomes whenOutcomes _ _ middle inner _ _ hoverride _ hclass _ _ _ hkind hparts
      hwhens _ hfinish =>
    have henter : h.Settled At (ctx.enterAt s).has := by
      rwa [show (ctx.enterAt s).has = ctx.has by cases s <;> rfl]
    obtain ⟨hmiddle, hpartsIn⟩ := hparts.collects (fun _ _ _ _ _ hr => hr.1.extends)
      (fun t ht _ _ _ hr => hr.2 (hbelow _ _ hs (.inl (Kind.mem_parts ht)))) henter
    obtain ⟨hinner, hwhensIn⟩ := hwhens.collects (fun _ _ _ _ _ hr => hr.1.extends)
      (fun t ht _ _ _ hr => hr.2 (hbelow _ _ hs (.inl (Node.mem_whenParts ht)))) hmiddle
    have hlater := (hwhens.extends fun _ _ _ _ _ hr => hr.1.extends).has
    have hleave : (inner.leaveAt s).has = inner.has := by
      funext b n
      exact Context.has_leaveAt
    refine hfinish.collects hAt hs hclass (hleave ▸ hinner) fun t ht => ?_
    rw [hleave]
    cases ht with
    | override h' => exact absurd (h'.symm.trans hoverride) Bool.false_ne_true
    | part _ _ hkind' ht =>
      cases hkind.symm.trans hkind'
      rcases ht with hpart | hwhen
      · exact (hpartsIn t hpart).mono hlater
      · exact hwhensIn t hwhen

end Collects

end WireShape
