import Mathlib.Data.List.Forall2
import WireShape.Registry

/-!
# Successful runs

A walk and a step of the registry are computations on a state that may fail. `Runs x s a t` says
that `x`, started in `s`, succeeds with `a` and leaves `t`. A run of a sequence of steps is a run of
each, one after the other, so facts about long computations are taken apart by the lemmas here and
put together again from facts about their steps.

* `runs_bind_iff`, `runs_pure_iff`, `runs_get_iff`, `runs_modify_iff`: the steps.
* `Chain`: a relation threaded through a list, as the elements of a list are worked off.
* `runs_mapM_iff`, `runs_foldlM_iff`, `runs_forM_iff`: loops over lists are chains.
* `runs_mapM_lift_iff`: calls with a stateless afterwork; all of it can be done after the last call.
* `Chain.preserves`, `Chain.forall₂`, `Chain.answers`: what every link keeps or answers, the chain
  keeps or answers.
-/

namespace WireShape

/-- From `s` the computation succeeds with `a` and leaves `t`. -/
def Runs {ε σ α : Type} (x : ExceptT ε (StateM σ) α) (s : σ) (a : α) (t : σ) : Prop :=
  x s = (.ok a, t)

section Steps

variable {ε σ α β : Type} {x : ExceptT ε (StateM σ) α} {f : α → ExceptT ε (StateM σ) β}
  {s t u : σ} {a a' : α} {b : β}

/-- A computation has one outcome. -/
theorem Runs.unique (h : Runs x s a t) (h' : Runs x s a' u) : a = a' ∧ t = u := by
  unfold Runs at h h'
  rw [h] at h'
  cases h'
  exact ⟨rfl, rfl⟩

theorem runs_pure_iff : Runs (pure a : ExceptT ε (StateM σ) α) s a' t ↔ a' = a ∧ t = s := by
  constructor
  · intro h
    cases h
    exact ⟨rfl, rfl⟩
  · rintro ⟨rfl, rfl⟩
    rfl

theorem bind_run : (x >>= f) s = match x s with
    | (.ok a, t) => f a t
    | (.error e, t) => (.error e, t) := by
  change (ExceptT.bindCont f (x s).1) (x s).2 = _
  rcases x s with ⟨_ | _, t⟩ <;> rfl

/-- A failure is one of what follows. -/
theorem bind_fails {e : ε} (h : (x s).1 = .error e) : ((x >>= f) s).1 = .error e := by
  rw [bind_run]
  rcases hrun : x s with ⟨outcome, t⟩
  rw [hrun] at h
  cases h
  rfl

/-- After a success the rest decides. -/
theorem Runs.bind_eq (h : Runs x s a t) : (x >>= f) s = f a t := by
  rw [bind_run, show x s = (.ok a, t) from h]

theorem runs_bind_iff : Runs (x >>= f) s b u ↔ ∃ a t, Runs x s a t ∧ Runs (f a) t b u := by
  unfold Runs
  rw [bind_run]
  rcases x s with ⟨_ | a, t⟩
  · constructor
    · intro h
      cases h
    · rintro ⟨_, _, h, _⟩
      cases h
  · constructor
    · exact fun h => ⟨a, t, rfl, h⟩
    · rintro ⟨_, _, h, h'⟩
      cases h
      exact h'

theorem runs_get_iff {s' : σ} :
    Runs (get : ExceptT ε (StateM σ) σ) s s' t ↔ s' = s ∧ t = s := by
  constructor
  · intro h
    cases h
    exact ⟨rfl, rfl⟩
  · rintro ⟨rfl, rfl⟩
    rfl

/-- Reading the state first hands it on. -/
theorem runs_get_bind_iff {f : σ → ExceptT ε (StateM σ) β} :
    Runs (get >>= f) s b u ↔ Runs (f s) s b u := by
  rw [runs_bind_iff]
  constructor
  · rintro ⟨_, _, hget, hrun⟩
    obtain ⟨rfl, rfl⟩ := runs_get_iff.mp hget
    exact hrun
  · exact fun hrun => ⟨s, s, runs_get_iff.mpr ⟨rfl, rfl⟩, hrun⟩

theorem runs_modify_iff {g : σ → σ} {i : Unit} :
    Runs (modify g : ExceptT ε (StateM σ) Unit) s i t ↔ t = g s := by
  constructor
  · intro h
    cases h
    rfl
  · rintro rfl
    rfl

theorem not_runs_throw {e : ε} : ¬ Runs (throw e : ExceptT ε (StateM σ) α) s a t := by
  intro h
  cases h

end Steps

theorem exists_of_isOk {ε α : Type} {x : Except ε α} (h : x.isOk = true) : ∃ a, x = .ok a := by
  cases x with
  | error => cases h
  | ok a => exact ⟨a, rfl⟩

theorem eq_ok_of_toOption {ε α : Type} {x : Except ε α} {a : α} (h : x.toOption = some a) :
    x = .ok a := by
  cases x with
  | error => cases h
  | ok b =>
    cases h
    rfl

/-- A failing computation without state succeeds in two steps or not at all. -/
theorem bind_eq_ok_iff {ε α β : Type} {x : Except ε α} {f : α → Except ε β} {b : β} :
    (x >>= f) = .ok b ↔ ∃ a, x = .ok a ∧ f a = .ok b := by
  cases x with
  | error e =>
    constructor
    · intro h
      cases h
    · rintro ⟨_, h, _⟩
      cases h
  | ok a =>
    constructor
    · exact fun h => ⟨a, rfl, h⟩
    · rintro ⟨_, h, h'⟩
      cases h
      exact h'

/-- Two steps succeed if each of them does, and end with what the second one ends with. -/
theorem exists_ok_bind {ε α β : Type} {x : Except ε α} {f : α → Except ε β} {P : α → Prop}
    {Q : β → Prop} (hx : ∃ a, x = .ok a ∧ P a) (hf : ∀ a, P a → ∃ b, f a = .ok b ∧ Q b) :
    ∃ b, (x >>= f) = .ok b ∧ Q b := by
  obtain ⟨a, rfl, ha⟩ := hx
  exact hf a ha

/-- A loop succeeds if each step does, and ends with what the steps keep. -/
theorem foldlM_ok {ε α β : Type} {f : β → α → Except ε β} {P : List α → β → Prop}
    (hstep : ∀ x rest acc, P (x :: rest) acc → ∃ next, f acc x = .ok next ∧ P rest next)
    {xs : List α} {acc : β} (h : P xs acc) : ∃ final, xs.foldlM f acc = .ok final ∧ P [] final := by
  induction xs generalizing acc with
  | nil => exact ⟨acc, rfl, h⟩
  | cons x rest ih => exact exists_ok_bind (hstep x rest acc h) fun next hnext => ih hnext

/-- What each step of a loop keeps holds after the loop. -/
theorem foldlM_keeps {ε α β : Type} {f : β → α → Except ε β} {I : β → Prop} {xs : List α}
    {start final : β} (hstep : ∀ x ∈ xs, ∀ acc next, f acc x = .ok next → I acc → I next)
    (hstart : I start) (h : xs.foldlM f start = .ok final) : I final := by
  induction xs generalizing start with
  | nil =>
    cases h
    exact hstart
  | cons x xs ih =>
    rw [List.foldlM_cons] at h
    obtain ⟨next, hnext, hrest⟩ := bind_eq_ok_iff.mp h
    exact ih (fun y hy => hstep y (List.mem_cons_of_mem _ hy))
      (hstep x List.mem_cons_self _ _ hnext hstart) hrest

/-- A failing computation of each element succeeds as it does for each of them. -/
theorem mapM_eq_ok_iff {ε α β : Type} {f : α → Except ε β} {xs : List α} {ys : List β} :
    xs.mapM f = .ok ys ↔ List.Forall₂ (fun x y => f x = .ok y) xs ys := by
  induction xs generalizing ys with
  | nil =>
    rw [List.forall₂_nil_left_iff]
    exact ⟨fun h => (Except.ok.inj h).symm, fun h => by rw [h]; rfl⟩
  | cons x xs ih =>
    rw [List.mapM_cons, bind_eq_ok_iff]
    constructor
    · rintro ⟨y, hy, hrest⟩
      obtain ⟨rest, hys, heq⟩ := bind_eq_ok_iff.mp hrest
      cases heq
      exact .cons hy (ih.mp hys)
    · intro h
      cases h with
      | cons hy hys => exact ⟨_, hy, bind_eq_ok_iff.mpr ⟨_, ih.mpr hys, rfl⟩⟩

/-- A failing computation of each element that does not fail gives all of them. -/
theorem mapM_ok {ε α β : Type} {f : α → Except ε β} {xs : List α} (h : ∀ x ∈ xs, ∃ y, f x = .ok y) :
    ∃ ys, xs.mapM f = .ok ys ∧ List.Forall₂ (fun x y => f x = .ok y) xs ys := by
  induction xs with
  | nil => exact ⟨[], rfl, .nil⟩
  | cons x xs ih =>
    obtain ⟨y, hy⟩ := h x List.mem_cons_self
    obtain ⟨ys, hys, hall⟩ := ih fun z hz => h z (List.mem_cons_of_mem _ hz)
    refine ⟨y :: ys, ?_, .cons hy hall⟩
    rw [List.mapM_cons, hy, hys]
    rfl

theorem runs_lift_iff {α : Type} {r : Except Fault α} {s t : Context} {a : α} :
    Runs (Walk.lift r) s a t ↔ r = .ok a ∧ t = s := by
  constructor
  · intro h
    cases r with
    | error e => cases h
    | ok b =>
      cases h
      exact ⟨rfl, rfl⟩
  · rintro ⟨rfl, rfl⟩
    rfl

theorem runs_registryLift_iff {α : Type} {r : Except Fault α} {s t : Registry} {a : α} :
    Runs (Registry.lift r) s a t ↔ r = .ok a ∧ t = s := by
  constructor
  · intro h
    cases r with
    | error e => cases h
    | ok b =>
      cases h
      exact ⟨rfl, rfl⟩
  · rintro ⟨rfl, rfl⟩
    rfl

/-- A step that does not touch the registry hands on its answer. -/
theorem runs_registryLift_bind_iff {α β : Type} {r : Except Fault α} {f : α → Registering β}
    {s t : Registry} {b : β} :
    Runs (Registry.lift r >>= f) s b t ↔ ∃ a, r = .ok a ∧ Runs (f a) s b t := by
  simp only [runs_bind_iff, runs_registryLift_iff]
  constructor
  · rintro ⟨a, _, ⟨ha, rfl⟩, hrun⟩
    exact ⟨a, ha, hrun⟩
  · rintro ⟨a, ha, hrun⟩
    exact ⟨a, s, ⟨ha, rfl⟩, hrun⟩

/-! ## Lists of steps -/

/-- A relation threaded through a list: each element starts where the one before it ended. -/
inductive Chain {α β σ : Type} (R : α → σ → β → σ → Prop) : List α → σ → List β → σ → Prop
  | nil {s : σ} : Chain R [] s [] s
  | cons {x : α} {xs : List α} {y : β} {ys : List β} {s t u : σ} (head : R x s y t)
      (tail : Chain R xs t ys u) : Chain R (x :: xs) s (y :: ys) u

namespace Chain

variable {α β γ σ : Type} {R R' : α → σ → β → σ → Prop} {xs xs' : List α} {ys : List β} {s t : σ}

theorem nil_iff : Chain R [] s ys t ↔ ys = [] ∧ t = s := by
  constructor
  · intro h
    cases h
    exact ⟨rfl, rfl⟩
  · rintro ⟨rfl, rfl⟩
    exact nil

theorem cons_iff {x : α} : Chain R (x :: xs) s ys t ↔
    ∃ y u zs, R x s y u ∧ Chain R xs u zs t ∧ ys = y :: zs := by
  constructor
  · intro h
    cases h with
    | cons head tail => exact ⟨_, _, _, head, tail, rfl⟩
  · rintro ⟨y, u, zs, head, tail, rfl⟩
    exact cons head tail

theorem append_iff : Chain R (xs ++ xs') s ys t ↔
    ∃ ys₁ ys₂ u, Chain R xs s ys₁ u ∧ Chain R xs' u ys₂ t ∧ ys = ys₁ ++ ys₂ := by
  induction xs generalizing s ys with
  | nil =>
    constructor
    · exact fun h => ⟨[], ys, s, nil, h, rfl⟩
    · rintro ⟨_, ys₂, u, h₁, h₂, rfl⟩
      cases h₁
      exact h₂
  | cons x xs ih =>
    rw [List.cons_append, cons_iff]
    constructor
    · rintro ⟨y, u, zs, head, tail, rfl⟩
      obtain ⟨ys₁, ys₂, v, h₁, h₂, rfl⟩ := ih.mp tail
      exact ⟨y :: ys₁, ys₂, v, cons head h₁, h₂, rfl⟩
    · rintro ⟨_, ys₂, v, h₁, h₂, rfl⟩
      cases h₁ with
      | cons head tail => exact ⟨_, _, _, head, ih.mpr ⟨_, _, _, tail, h₂, rfl⟩, rfl⟩

theorem map_iff {f : γ → α} {zs : List γ} :
    Chain R (zs.map f) s ys t ↔ Chain (fun z => R (f z)) zs s ys t := by
  induction zs generalizing s ys with
  | nil => rw [List.map_nil, nil_iff, nil_iff]
  | cons z zs ih =>
    rw [List.map_cons, cons_iff, cons_iff]
    simp only [ih]

theorem length_eq (h : Chain R xs s ys t) : ys.length = xs.length := by
  induction h with
  | nil => rfl
  | cons _ _ ih => rw [List.length_cons, List.length_cons, ih]

/-- A weaker relation holds along the same chain. -/
theorem mono (hR : ∀ x ∈ xs, ∀ s y t, R x s y t → R' x s y t) (h : Chain R xs s ys t) :
    Chain R' xs s ys t := by
  induction h with
  | nil => exact nil
  | cons head tail ih =>
    refine cons (hR _ List.mem_cons_self _ _ _ head) (ih fun x hx => hR x ?_)
    exact List.mem_cons_of_mem _ hx

/-- What every link keeps, the chain keeps. -/
theorem preserves {I : σ → Prop} (hR : ∀ x ∈ xs, ∀ s y t, R x s y t → I s → I t)
    (h : Chain R xs s ys t) (hs : I s) : I t := by
  induction h with
  | nil => exact hs
  | cons head tail ih =>
    refine ih (fun x hx => hR x (List.mem_cons_of_mem _ hx)) ?_
    exact hR _ List.mem_cons_self _ _ _ head hs

/-- What every link answers, the chain answers, if nothing that is kept is lost on the way. -/
theorem forall₂ {I : σ → Prop} {P : α → β → σ → Prop}
    (hR : ∀ x ∈ xs, ∀ s y t, R x s y t → I s → I t ∧ P x y t)
    (hP : ∀ x ∈ xs, ∀ s y t, R x s y t → I s → ∀ x' y', P x' y' s → P x' y' t)
    (h : Chain R xs s ys t) (hs : I s) : I t ∧ List.Forall₂ (P · · t) xs ys := by
  induction h with
  | nil => exact ⟨hs, .nil⟩
  | @cons x xs y ys s t u head tail ih =>
    obtain ⟨ht, hy⟩ := hR x List.mem_cons_self _ _ _ head hs
    have hR' := fun x hx => hR x (List.mem_cons_of_mem _ hx)
    have hP' := fun x hx => hP x (List.mem_cons_of_mem _ hx)
    obtain ⟨hu, hys⟩ := ih hR' hP' ht
    refine ⟨hu, .cons ?_ hys⟩
    have later : I u ∧ P x y u := by
      refine preserves (I := fun v => I v ∧ P x y v) ?_ tail ⟨ht, hy⟩
      rintro x' hx' v y' w hstep ⟨hv, hyv⟩
      exact ⟨(hR' x' hx' v y' w hstep hv).1, hP' x' hx' v y' w hstep hv x y hyv⟩
    exact later.2

/-- What every link answers, whatever state it starts in, the chain answers. -/
theorem answers {P : α → β → Prop} (hR : ∀ x ∈ xs, ∀ s y t, R x s y t → P x y)
    (h : Chain R xs s ys t) : List.Forall₂ P xs ys := by
  induction h with
  | nil => exact .nil
  | cons head _ ih =>
    exact .cons (hR _ List.mem_cons_self _ _ _ head) (ih fun x hx => hR x (List.mem_cons_of_mem _ hx))

end Chain

section Loops

variable {ε σ α β γ : Type} {f : α → ExceptT ε (StateM σ) β} {xs : List α} {ys : List β} {s t : σ}

theorem runs_mapM_iff :
    Runs (xs.mapM f) s ys t ↔ Chain (fun x => Runs (f x)) xs s ys t := by
  induction xs generalizing s ys t with
  | nil => rw [List.mapM_nil, runs_pure_iff, Chain.nil_iff]
  | cons x xs ih =>
    rw [List.mapM_cons, Chain.cons_iff]
    simp only [runs_bind_iff, runs_pure_iff, ih]
    constructor
    · rintro ⟨y, u, hy, zs, v, hzs, rfl, rfl⟩
      exact ⟨y, u, zs, hy, hzs, rfl⟩
    · rintro ⟨y, u, zs, hy, hzs, rfl⟩
      exact ⟨y, u, hy, zs, _, hzs, rfl, rfl⟩

theorem runs_forM_iff {f : α → ExceptT ε (StateM σ) Unit} {i : Unit} :
    Runs (xs.forM f) s i t ↔ ∃ is, Chain (fun x => Runs (f x)) xs s is t := by
  induction xs generalizing s with
  | nil =>
    rw [List.forM_eq_forM, List.forM_nil, runs_pure_iff]
    simp only [Chain.nil_iff, exists_eq_left, true_and]
  | cons x xs ih =>
    rw [List.forM_eq_forM, List.forM_cons, ← List.forM_eq_forM]
    simp only [runs_bind_iff, ih, Chain.cons_iff]
    constructor
    · rintro ⟨y, u, hy, zs, hzs⟩
      exact ⟨_, y, u, zs, hy, hzs, rfl⟩
    · rintro ⟨_, y, u, zs, hy, hzs, rfl⟩
      exact ⟨y, u, hy, zs, hzs⟩

theorem forall₂_left {R : α → β → Prop} (h : List.Forall₂ R xs ys) {x : α} (hx : x ∈ xs) :
    ∃ y ∈ ys, R x y := by
  induction h with
  | nil => cases hx
  | cons head _ ih =>
    rcases List.mem_cons.mp hx with rfl | hmem
    · exact ⟨_, List.mem_cons_self, head⟩
    · obtain ⟨y, hy, hR⟩ := ih hmem
      exact ⟨y, List.mem_cons_of_mem _ hy, hR⟩

theorem forall₂_imp_mem₂ {R R' : α → β → Prop} (hR : ∀ x ∈ xs, ∀ y ∈ ys, R x y → R' x y)
    (h : List.Forall₂ R xs ys) : List.Forall₂ R' xs ys := by
  induction h with
  | nil => exact .nil
  | cons head _ ih =>
    exact .cons (hR _ List.mem_cons_self _ List.mem_cons_self head) (ih fun x hx y hy =>
      hR x (List.mem_cons_of_mem _ hx) y (List.mem_cons_of_mem _ hy))

theorem forall₂_imp_mem {R R' : α → β → Prop} (hR : ∀ x ∈ xs, ∀ y, R x y → R' x y)
    (h : List.Forall₂ R xs ys) : List.Forall₂ R' xs ys :=
  forall₂_imp_mem₂ (fun x hx y _ => hR x hx y) h

theorem forall₂_congr_left {R R' : α → β → Prop} (h : ∀ x ∈ xs, ∀ y, R x y ↔ R' x y) :
    List.Forall₂ R xs ys ↔ List.Forall₂ R' xs ys :=
  ⟨forall₂_imp_mem fun x hx y => (h x hx y).mp, forall₂_imp_mem fun x hx y => (h x hx y).mpr⟩

theorem forall₂_right {R : α → β → Prop} (h : List.Forall₂ R xs ys) {y : β} (hy : y ∈ ys) :
    ∃ x ∈ xs, R x y := forall₂_left h.flip hy

/-- Where each element is related to something, the list is related to a list one by one. -/
theorem forall₂_of_forall_exists {α β : Type} {R : α → β → Prop} {xs : List α}
    (h : ∀ x ∈ xs, ∃ y, R x y) : ∃ ys, List.Forall₂ R xs ys := by
  induction xs with
  | nil => exact ⟨[], .nil⟩
  | cons x xs ih =>
    obtain ⟨y, hy⟩ := h x List.mem_cons_self
    obtain ⟨ys, hys⟩ := ih fun z hz => h z (List.mem_cons_of_mem _ hz)
    exact ⟨y :: ys, .cons hy hys⟩

/-- Lists with equal images are related one by one if elements with equal images are. -/
theorem forall₂_of_map_eq {f : α → γ} {g : β → γ} {R : α → β → Prop}
    (h : ∀ x ∈ xs, ∀ y ∈ ys, f x = g y → R x y) (heq : xs.map f = ys.map g) :
    List.Forall₂ R xs ys := by
  induction xs generalizing ys with
  | nil =>
    obtain rfl := List.map_eq_nil_iff.mp heq.symm
    exact .nil
  | cons x xs ih =>
    cases ys with
    | nil => cases heq
    | cons y ys =>
      obtain ⟨hfirst, hrest⟩ := List.cons.inj heq
      exact .cons (h x List.mem_cons_self y List.mem_cons_self hfirst) (ih (fun x hx y hy =>
        h x (List.mem_cons_of_mem _ hx) y (List.mem_cons_of_mem _ hy)) hrest)

/-- A relation goes over to elements that are related one by one. -/
theorem forall₂_transfer {R : α → γ → Prop} {S : α → β → Prop} {T : β → γ → Prop}
    {zs : List γ} (hS : List.Forall₂ S xs ys) (hR : List.Forall₂ R xs zs)
    (h : ∀ x ∈ xs, ∀ y ∈ ys, ∀ z, S x y → R x z → T y z) : List.Forall₂ T ys zs := by
  induction hS generalizing zs with
  | nil =>
    cases hR
    exact .nil
  | cons hxy _ ih =>
    cases hR with
    | cons hxz hrest =>
      exact .cons (h _ List.mem_cons_self _ List.mem_cons_self _ hxy hxz) (ih hrest
        fun x hx y hy => h x (List.mem_cons_of_mem _ hx) y (List.mem_cons_of_mem _ hy))

/-- What every step of a loop keeps, the loop keeps. -/
theorem runs_forM_preserves {f : α → ExceptT ε (StateM σ) Unit} {i : Unit} {I : σ → Prop}
    (hrun : Runs (xs.forM f) s i t)
    (hf : ∀ x ∈ xs, ∀ s i t, Runs (f x) s i t → I s → I t) (hs : I s) : I t := by
  obtain ⟨is, hchain⟩ := runs_forM_iff.mp hrun
  exact hchain.preserves hf hs

/-- What a step of a loop establishes and the later ones keep, holds after the loop. -/
theorem runs_forM_each {f : α → ExceptT ε (StateM σ) Unit} {i : Unit} {P : α → σ → Prop}
    (hrun : Runs (xs.forM f) s i t) (hf : ∀ x ∈ xs, ∀ s i t, Runs (f x) s i t → P x t)
    (hkeep : ∀ x ∈ xs, ∀ s i t, Runs (f x) s i t → ∀ x', P x' s → P x' t) : ∀ x ∈ xs, P x t := by
  obtain ⟨is, hchain⟩ := runs_forM_iff.mp hrun
  intro x hx
  have hall : True ∧ List.Forall₂ (fun x _ => P x t) xs is := by
    refine hchain.forall₂ (I := fun _ => True) (P := fun x _ t => P x t) ?_ ?_ trivial
    · exact fun x hx s i t hstep _ => ⟨trivial, hf x hx s i t hstep⟩
    · exact fun x hx s i t hstep _ x' _ hp => hkeep x hx s i t hstep x' hp
  obtain ⟨_, _, hp⟩ := forall₂_left hall.2 hx
  exact hp

/-- A fold whose steps consist of a computation and of what is made of its answer. -/
theorem runs_foldlM_iff {step : γ → α → ExceptT ε (StateM σ) γ} {g : γ → α → β → γ}
    (hstep : ∀ c x, step c x = do return g c x (← f x)) {c c' : γ} :
    Runs (xs.foldlM step c) s c' t ↔ ∃ ys, Chain (fun x => Runs (f x)) xs s ys t ∧
      c' = (xs.zip ys).foldl (fun c p => g c p.1 p.2) c := by
  induction xs generalizing s c with
  | nil =>
    rw [List.foldlM_nil, runs_pure_iff]
    simp only [Chain.nil_iff]
    constructor
    · rintro ⟨rfl, rfl⟩
      exact ⟨[], ⟨rfl, rfl⟩, rfl⟩
    · rintro ⟨_, ⟨rfl, rfl⟩, rfl⟩
      exact ⟨rfl, rfl⟩
  | cons x xs ih =>
    rw [List.foldlM_cons, hstep]
    simp only [runs_bind_iff, runs_pure_iff, ih, Chain.cons_iff]
    constructor
    · rintro ⟨_, _, ⟨y, u, hy, rfl, rfl⟩, zs, hzs, rfl⟩
      exact ⟨y :: zs, ⟨y, _, zs, hy, hzs, rfl⟩, rfl⟩
    · rintro ⟨_, ⟨y, u, zs, hy, hzs, rfl⟩, rfl⟩
      exact ⟨_, u, ⟨y, u, hy, rfl, rfl⟩, zs, hzs, rfl⟩

/-- A loop whose steps consist of a call and of what is made of its answer without the state. -/
theorem runs_mapM_lift_iff {f : α → Walk γ} {g : α → Walk β} {k : α → β → Except Fault γ}
    (hf : ∀ x, f x = g x >>= fun y => Walk.lift (k x y)) {s t : Context} {zs : List γ} :
    Runs (xs.mapM f) s zs t ↔ ∃ ys, Chain (fun x => Runs (g x)) xs s ys t ∧
      (xs.zip ys).mapM (fun p => k p.1 p.2) = .ok zs := by
  induction xs generalizing s zs t with
  | nil =>
    rw [List.mapM_nil, runs_pure_iff]
    simp only [Chain.nil_iff]
    constructor
    · rintro ⟨rfl, rfl⟩
      exact ⟨[], ⟨rfl, rfl⟩, rfl⟩
    · rintro ⟨_, ⟨rfl, rfl⟩, h⟩
      cases h
      exact ⟨rfl, rfl⟩
  | cons x xs ih =>
    rw [List.mapM_cons, hf]
    simp only [runs_bind_iff, runs_pure_iff, runs_lift_iff, ih, Chain.cons_iff]
    constructor
    · rintro ⟨z, _, ⟨y, u, hy, hz, rfl⟩, zs, v, ⟨ys, hys, hzs⟩, rfl, rfl⟩
      refine ⟨y :: ys, ⟨y, _, ys, hy, hys, rfl⟩, ?_⟩
      rw [List.zip_cons_cons, List.mapM_cons, hz, hzs]
      rfl
    · rintro ⟨_, ⟨y, u, ys, hy, hys, rfl⟩, h⟩
      rw [List.zip_cons_cons, List.mapM_cons] at h
      cases hz : k x y with
      | error e =>
        rw [hz] at h
        cases h
      | ok z =>
        cases hzs : (xs.zip ys).mapM fun p => k p.1 p.2 with
        | error e =>
          rw [hz, hzs] at h
          cases h
        | ok zs =>
          rw [hz, hzs] at h
          cases h
          exact ⟨z, u, ⟨y, u, hy, hz, rfl⟩, zs, t, ⟨ys, hys, hzs⟩, rfl, rfl⟩

end Loops

end WireShape
