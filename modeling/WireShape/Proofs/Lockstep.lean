import WireShape.Proofs.Rules

/-!
# Computations side by side

A computation that reads little of its state does the same in all states that agree in what it
reads. Of the definitions that are known beforehand, a walk asks only which names there are.

* `Lockstep`: computations that have one outcome in related states, and leave related states.
* `Lockstep.compositional`: sequences of such computations.
* `Context.Alike`: states of a walk in which the same names are known.
* `Walk.lockstep_rules`: a walk does the same in all such states.
-/

namespace WireShape

open Value (Fields)

/-- From related states a computation has one outcome, be it a failure or not, and leaves related
states. -/
def Lockstep {σ α : Type} (R : σ → σ → Prop) (x : ExceptT Fault (StateM σ) α) : Prop :=
  ∀ s t, R s t → (x t).1 = (x s).1 ∧ R (x s).2 (x t).2

namespace Lockstep

variable {σ α β : Type} {R : σ → σ → Prop} {x : ExceptT Fault (StateM σ) α}
  {f : α → ExceptT Fault (StateM σ) β} {s s' t : σ} {a : α}

/-- Where one computation succeeds, the other one does. -/
theorem runs (hx : Lockstep R x) (hst : R s t) (hrun : Runs x s a s') :
    ∃ t', Runs x t a t' ∧ R s' t' := by
  obtain ⟨hsame, hafter⟩ := hx s t hst
  rw [show x s = (.ok a, s') from hrun] at hsame hafter
  exact ⟨(x t).2, Prod.ext hsame rfl, hafter⟩

/-- Where both succeed, they have one outcome. -/
theorem runs_both {b : α} {t' : σ} (hx : Lockstep R x) (hst : R s t) (hrun : Runs x s a s')
    (hrun' : Runs x t b t') : b = a ∧ R s' t' := by
  obtain ⟨t'', hrun'', hafter⟩ := hx.runs hst hrun
  obtain ⟨rfl, rfl⟩ := hrun'.unique hrun''
  exact ⟨rfl, hafter⟩

theorem pure : Lockstep R (Pure.pure a : ExceptT Fault (StateM σ) α) := fun _ _ hst => ⟨rfl, hst⟩

theorem throw {fault : Fault} :
    Lockstep R (MonadExcept.throw fault : ExceptT Fault (StateM σ) α) := fun _ _ hst => ⟨rfl, hst⟩

theorem of_modify {g : σ → σ} (h : ∀ s t, R s t → R (g s) (g t)) :
    Lockstep R (modify g : ExceptT Fault (StateM σ) Unit) := fun s t hst => ⟨rfl, h s t hst⟩

theorem bind (hx : Lockstep R x) (hf : ∀ a, Lockstep R (f a)) : Lockstep R (x >>= f) := by
  intro s t hst
  obtain ⟨hsame, hmid⟩ := hx s t hst
  rw [bind_run, bind_run]
  cases hs : x s with
  | mk outcome mid =>
    cases ht : x t with
    | mk outcome' mid' =>
      rw [hs, ht] at hsame hmid
      cases hsame
      cases outcome with
      | error fault => exact ⟨rfl, hmid⟩
      | ok a => exact hf a mid mid' hmid

/-- What is read of the state agrees in related states. -/
theorem getBind {f : σ → ExceptT Fault (StateM σ) β} (hsame : ∀ s t, R s t → f t = f s)
    (hf : ∀ s, Lockstep R (f s)) : Lockstep R (get >>= f) := by
  intro s t hst
  change (f t t).1 = (f s s).1 ∧ R (f s s).2 (f t t).2
  rw [hsame s t hst]
  exact hf s s t hst

theorem compositional : Compositional fun {_} step => Lockstep R step :=
  ⟨fun _ => pure, fun _ => throw, bind⟩

end Lockstep

/-! ## Walks -/

/-- States of a walk in which the same names are known. -/
structure Context.Alike (ctx ctx' : Context) : Prop where
  known : ∀ bucket name, ctx'.known.contains bucket name = ctx.known.contains bucket name
  created : ctx'.created = ctx.created
  active : ctx'.active = ctx.active
  log : ctx'.log = ctx.log

theorem Context.Alike.has {ctx ctx' : Context} (h : ctx.Alike ctx') : ctx'.has = ctx.has := by
  funext bucket name
  unfold Context.has
  rw [h.known, h.created]

/-- A walk that does the same in all states in which the same names are known. -/
abbrev Walk.Lockstep {α : Type} (walk : Walk α) : Prop := WireShape.Lockstep Context.Alike walk

theorem Walk.lockstep_register {h : Heap} {bucket name : Atom} {schema : Value} :
    (Walk.register h.describe bucket name schema).Lockstep := by
  refine .bind Lockstep.compositional.lift fun place => .bind Lockstep.compositional.lift fun what =>
    .of_modify fun ctx ctx' halike => ⟨halike.known, ?_, halike.active, ?_⟩
  · change ctx'.created.define _ _ _ = ctx.created.define _ _ _
    rw [halike.created]
  · change ctx'.log.push _ = ctx.log.push _
    rw [halike.log]

theorem Walk.lockstep_atPosition {α : Type} {s : Schema} {kind : String} {step : Walk α}
    (hstep : step.Lockstep) : (Walk.atPosition s kind step).Lockstep := by
  cases s with
  | object => exact hstep
  | node id =>
    intro ctx ctx' halike
    change (Walk.onPath id kind step ctx').1 = (Walk.onPath id kind step ctx).1 ∧
      (Walk.onPath id kind step ctx).2.Alike (Walk.onPath id kind step ctx').2
    unfold Walk.onPath
    rw [halike.active]
    split
    · exact ⟨rfl, halike⟩
    · have henter : (ctx.enter id).Alike (ctx'.enter id) :=
        ⟨halike.known, halike.created, congrArg (id :: ·) halike.active, halike.log⟩
      obtain ⟨hsame, hafter⟩ := hstep _ _ henter
      exact ⟨hsame, hafter.known, hafter.created, congrArg (List.erase · id) hafter.active,
        hafter.log⟩

/-- A walk does the same in all states in which the same names are known. -/
theorem Walk.lockstep_rules {h : Heap} : Walk.Rules h fun {_} walk => walk.Lockstep where
  toCompositional := Lockstep.compositional
  register _ _ _ := Walk.lockstep_register
  atPosition _ _ _ hstep := Walk.lockstep_atPosition hstep
  read hsame hf := .getBind (fun ctx ctx' halike => hsame ctx ctx' halike.has) hf

end WireShape
