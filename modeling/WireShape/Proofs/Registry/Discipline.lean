import WireShape.Proofs.Rules

/-!
# Steps that keep a registry in order

A discipline is an invariant of registries with an order in which they grow. A step keeps it if it
leads from a registry that has the invariant to a grown one that has it. What was established of an
earlier registry and is not lost as it grows is still at hand later.

* `Discipline`: invariant and order.
* `Discipline.Keeps`: a step keeps the discipline, with what is needed before and given afterwards.
* `Keeps.bind`, `Keeps.mapM`, `Keeps.forM`: sequences of steps.
* `Discipline.both`: two disciplines at once.
-/

namespace WireShape

/-- An invariant of registries and an order in which they grow. -/
structure Discipline where
  Inv : Registry → Prop
  Grows : Registry → Registry → Prop
  refl : ∀ reg, Grows reg reg
  trans : ∀ {a b c}, Grows a b → Grows b c → Grows a c

namespace Discipline

variable {D : Discipline} {α β : Type} {x : Registering α} {f : α → Registering β}
  {P P' : Registry → Prop} {Q Q' : α → Registry → Prop} {S : β → Registry → Prop}

/-- What holds of a registry holds of every grown one. -/
def Lasts (D : Discipline) (P : Registry → Prop) : Prop :=
  ∀ reg after, D.Grows reg after → P reg → P after

/-- From a registry with the invariant and `P`, a step leads to a grown one with the invariant and
`Q` of its answer. -/
def Keeps (D : Discipline) (P : Registry → Prop) (x : Registering α) (Q : α → Registry → Prop) :
    Prop :=
  ∀ reg a after, Runs x reg a after → D.Inv reg → P reg →
    D.Inv after ∧ D.Grows reg after ∧ Q a after

namespace Keeps

theorem conseq (h : D.Keeps P x Q) (hP : ∀ reg, P' reg → P reg)
    (hQ : ∀ a reg, Q a reg → Q' a reg) : D.Keeps P' x Q' := by
  intro reg a after hrun hinv hp
  obtain ⟨hafter, hgrows, hq⟩ := h reg a after hrun hinv (hP reg hp)
  exact ⟨hafter, hgrows, hQ a after hq⟩

/-- What lasts is still at hand afterwards. -/
theorem frame (h : D.Keeps P x Q) (hP : D.Lasts P) : D.Keeps P x fun a reg => P reg ∧ Q a reg := by
  intro reg a after hrun hinv hp
  obtain ⟨hafter, hgrows, hq⟩ := h reg a after hrun hinv hp
  exact ⟨hafter, hgrows, hP reg after hgrows hp, hq⟩

/-- What lasts and is not needed is carried along. -/
theorem carry {K : Registry → Prop} (h : D.Keeps P x Q) (hK : D.Lasts K) :
    D.Keeps (fun reg => K reg ∧ P reg) x fun a reg => K reg ∧ Q a reg := by
  rintro reg a after hrun hinv ⟨hk, hp⟩
  obtain ⟨hafter, hgrows, hq⟩ := h reg a after hrun hinv hp
  exact ⟨hafter, hgrows, hK reg after hgrows hk, hq⟩

theorem pure {a : α} (h : ∀ reg, P reg → Q a reg) : D.Keeps P (Pure.pure a) Q := by
  intro reg a' after hrun hinv hp
  obtain ⟨rfl, rfl⟩ := runs_pure_iff.mp hrun
  exact ⟨hinv, D.refl _, h _ hp⟩

theorem lift {r : Except Fault α} (h : ∀ a reg, r = .ok a → P reg → Q a reg) :
    D.Keeps P (Registry.lift r) Q := by
  intro reg a after hrun hinv hp
  obtain ⟨ha, rfl⟩ := runs_registryLift_iff.mp hrun
  exact ⟨hinv, D.refl _, h _ _ ha hp⟩

theorem bind (hx : D.Keeps P x Q) (hf : ∀ a, D.Keeps (Q a) (f a) S) : D.Keeps P (x >>= f) S := by
  intro reg b after hrun hinv hp
  obtain ⟨a, mid, hrun₁, hrun₂⟩ := runs_bind_iff.mp hrun
  obtain ⟨hmid, hgrows₁, hq⟩ := hx reg a mid hrun₁ hinv hp
  obtain ⟨hafter, hgrows₂, hs⟩ := hf a mid b after hrun₂ hmid hq
  exact ⟨hafter, D.trans hgrows₁ hgrows₂, hs⟩

/-- An answer that does not depend on the registry is handed on. -/
theorem liftBind {r : Except Fault α} (hf : ∀ a, r = .ok a → D.Keeps P (f a) S) :
    D.Keeps P (Registry.lift r >>= f) S := by
  intro reg b after hrun hinv hp
  obtain ⟨a, ha, hrun⟩ := runs_registryLift_bind_iff.mp hrun
  exact hf a ha reg b after hrun hinv hp

theorem getBind {f : Registry → Registering β} (hf : ∀ reg, D.Keeps (fun r => r = reg ∧ P r) (f reg) S) :
    D.Keeps P (get >>= f) S := by
  intro reg b after hrun hinv hp
  rw [runs_get_bind_iff] at hrun
  exact hf reg reg b after hrun hinv ⟨rfl, hp⟩

theorem throw {e : Fault} : D.Keeps P (MonadExcept.throw e : Registering α) Q := by
  intro reg a after hrun
  exact absurd hrun not_runs_throw

theorem throwBind {e : Fault} : D.Keeps P (MonadExcept.throw e >>= f) S := by
  intro reg b after hrun
  obtain ⟨_, _, hthrow, _⟩ := runs_bind_iff.mp hrun
  exact absurd hthrow not_runs_throw

/-- A loop over a list: what is established of each answer lasts until the end. -/
theorem mapM {xs : List α} {T : α → β → Registry → Prop} (hP : D.Lasts P)
    (hf : ∀ a ∈ xs, D.Keeps P (f a) (T a)) (hT : ∀ a b, D.Lasts (T a b)) :
    D.Keeps P (xs.mapM f) fun bs reg => List.Forall₂ (fun a b => T a b reg) xs bs := by
  intro reg bs after hrun hinv hp
  have hchain := runs_mapM_iff.mp hrun
  obtain ⟨⟨hafter, hgrows, _⟩, hall⟩ := hchain.forall₂
    (I := fun later => D.Inv later ∧ D.Grows reg later ∧ P later) (P := T)
    (by
      rintro a ha s b t hstep ⟨hs, hgrows, hps⟩
      obtain ⟨ht, hgrows', hT'⟩ := hf a ha s b t hstep hs hps
      exact ⟨⟨ht, D.trans hgrows hgrows', hP s t hgrows' hps⟩, hT'⟩)
    (by
      rintro a ha s b t hstep ⟨hs, _, hps⟩ a' b' hT'
      obtain ⟨_, hgrows', _⟩ := hf a ha s b t hstep hs hps
      exact hT a' b' s t hgrows' hT')
    ⟨hinv, D.refl reg, hp⟩
  exact ⟨hafter, hgrows, hall⟩

theorem forM {xs : List α} {f : α → Registering Unit} (hP : D.Lasts P)
    (hf : ∀ a ∈ xs, D.Keeps P (f a) fun _ _ => True) : D.Keeps P (xs.forM f) fun _ _ => True := by
  intro reg i after hrun hinv hp
  obtain ⟨hafter, hgrows, _⟩ := runs_forM_preserves
    (I := fun later => D.Inv later ∧ D.Grows reg later ∧ P later) hrun
    (by
      rintro a ha s i t hstep ⟨hs, hgrows, hps⟩
      obtain ⟨ht, hgrows', _⟩ := hf a ha s i t hstep hs hps
      exact ⟨ht, D.trans hgrows hgrows', hP s t hgrows' hps⟩)
    ⟨hinv, D.refl reg, hp⟩
  exact ⟨hafter, hgrows, trivial⟩

/-- To keep the discipline and nothing else is a property that sequences of steps keep. -/
theorem compositional : Compositional fun {_} x => D.Keeps (fun _ => True) x fun _ _ => True :=
  ⟨fun _ => pure fun _ _ => trivial, fun _ => throw, fun hx hf => bind hx hf⟩

end Keeps

/-- Two disciplines at once. -/
def both (D E : Discipline) : Discipline where
  Inv reg := D.Inv reg ∧ E.Inv reg
  Grows reg after := D.Grows reg after ∧ E.Grows reg after
  refl reg := ⟨D.refl reg, E.refl reg⟩
  trans h₁ h₂ := ⟨D.trans h₁.1 h₂.1, E.trans h₁.2 h₂.2⟩

theorem Keeps.both {E : Discipline} (h : D.Keeps P x Q) (h' : E.Keeps P x Q') :
    (D.both E).Keeps P x fun a reg => Q a reg ∧ Q' a reg := by
  intro reg a after hrun hinv hp
  obtain ⟨hafter, hgrows, hq⟩ := h reg a after hrun hinv.1 hp
  obtain ⟨hafter', hgrows', hq'⟩ := h' reg a after hrun hinv.2 hp
  exact ⟨⟨hafter, hafter'⟩, ⟨hgrows, hgrows'⟩, hq, hq'⟩

end Discipline

end WireShape
