import WireShape.Proofs.Paired

/-!
# Walks on their paths

A walk fails where its path comes back to a node. The relations between walks below say how far the
path, and the depth that is left, matter to what a walk does.

* `Schema.OffPath`, `Schema.inside`: positions that are not on a path, and the path inside them.
* `FailsOn`: walks that fail on a path only in certain ways.
* `EndsOn`: walks that are not cut off on a path.
* `UnlessCyclic`: walks that do the same on two paths, unless the first one is a cycle.
* `NoShallower`: walks of which the second one does what the first one does, unless that is cut off.
-/

namespace WireShape

/-! ## Paths -/

/-- A position that is not on a path. -/
def Schema.OffPath (path : List NodeId) : Schema → Prop
  | .node id => id ∉ path
  | .object _ => True

/-- The path inside a position. -/
def Schema.inside (path : List NodeId) : Schema → List NodeId
  | .node id => id :: path
  | .object _ => path

/-- The state of a walk on another path. -/
def Context.onPath (ctx : Context) (path : List NodeId) : Context := { ctx with active := path }

section Positions

variable {α : Type} {s : Schema} {kind : String} {step : Walk α} {ctx : Context}
  {path : List NodeId}

theorem Schema.OffPath.mono {path' : List NodeId} (hoff : s.OffPath path) (hpath : path' ⊆ path) :
    s.OffPath path' := by
  cases s with
  | object => exact trivial
  | node id => exact fun hin => hoff (hpath hin)

theorem Schema.inside_mono {path' : List NodeId} (hpath : path' ⊆ path) :
    s.inside path' ⊆ s.inside path := by
  cases s with
  | object => exact hpath
  | node id => exact List.cons_subset_cons id hpath

/-- A step at a position that is not on the path is made inside the position. -/
theorem Walk.atPosition_off (hoff : s.OffPath ctx.active) :
    Walk.atPosition s kind step ctx = ((step (ctx.onPath (s.inside ctx.active))).1,
      (step (ctx.onPath (s.inside ctx.active))).2.leaveAt s) := by
  cases s with
  | object fields => rfl
  | node id =>
    change Walk.onPath id kind step ctx = _
    unfold Walk.onPath
    rw [if_neg (List.contains_iff_mem.not.mpr hoff)]
    rfl

/-- After a position the path is again the one before it. -/
theorem Context.leaveAt_eq (hctx : ctx.active = s.inside path) :
    ctx.leaveAt s = ctx.onPath path := by
  cases s with
  | object fields =>
    have hpath : ctx.active = path := hctx
    rw [← hpath]
    rfl
  | node id =>
    have herase : ctx.active.erase id = path := by
      rw [hctx]
      exact List.erase_cons_head id path
    exact congrArg ctx.onPath herase

/-- A position that is on the path is its own descendant. -/
theorem Walk.atPosition_on (hon : ¬ s.OffPath ctx.active) :
    Walk.atPosition s kind step ctx = (.error (.cyclicSchema kind), ctx) := by
  cases s with
  | object fields => exact absurd trivial hon
  | node id =>
    change Walk.onPath id kind step ctx = _
    unfold Walk.onPath
    rw [if_pos (List.contains_iff_mem.mpr (Decidable.not_not.mp hon))]

end Positions

/-! ## Walks that fail only in certain ways -/

/-- From all states with the path a walk fails only in certain ways and leaves the path as it
was. -/
def FailsOn (path : List NodeId) (ways : Fault → Prop) {α : Type} (x : Walk α) : Prop :=
  ∀ ctx : Context, ctx.active = path →
    (∀ fault, (x ctx).1 = .error fault → ways fault) ∧ (x ctx).2.active = path

namespace FailsOn

variable {path : List NodeId} {s : Schema} {ways ways' : Fault → Prop}

theorem throw {α : Type} {fault : Fault} (hfault : ways fault) :
    FailsOn path ways (MonadExcept.throw fault : Walk α) := by
  intro ctx hctx
  refine ⟨?_, hctx⟩
  rintro _ ⟨⟩
  exact hfault

/-- Failures that are no matter of the path are among those allowed. -/
theorem pairs (hways : ∀ fault, fault.isOfPath = false → ways fault) :
    Pairs fun {_} x _ => FailsOn path ways x where
  pure _ _ hctx := ⟨nofun, hctx⟩
  throw hfault := throw (hways _ hfault)
  bind := by
    intro α β x y f g hx hf ctx hctx
    obtain ⟨hfails, hpath⟩ := hx ctx hctx
    rw [bind_run]
    cases hrun : x ctx with
    | mk outcome mid =>
      rw [hrun] at hfails hpath
      cases outcome with
      | error fault =>
        refine ⟨?_, hpath⟩
        rintro _ ⟨⟩
        exact hfails fault rfl
      | ok a => exact hf a mid hpath

/-- Inside a position a walk is asked for something only where the position is not on the path;
where it is, it must be allowed to find a cycle. -/
theorem rules {h : Heap} (hways : ∀ fault, fault.isOfPath = false → ways fault)
    (hways' : ∀ fault, fault.isOfPath = false → ways' fault)
    (hcycle : ¬ s.OffPath path → ∀ kind, ways (.cyclicSchema kind))
    (hinside : ∀ fault, ways' fault → ways fault) :
    PairRules h.describe s s (fun {_} x _ => FailsOn path ways x)
      fun {_} x _ => s.OffPath path → FailsOn (s.inside path) ways' x where
  outer := pairs hways
  inner := (pairs hways').imp
  register _ _ _ := (pairs hways).register fun _ _ _ hctx => ⟨nofun, hctx⟩
  atPosition kind x y hx ctx hctx := by
    subst hctx
    by_cases hoff : s.OffPath ctx.active
    · obtain ⟨hfails, hpath⟩ := hx hoff (ctx.onPath (s.inside ctx.active)) rfl
      rw [Walk.atPosition_off hoff]
      exact ⟨fun fault heq => hinside fault (hfails fault heq),
        by rw [Context.leaveAt_eq hpath]; rfl⟩
    · rw [Walk.atPosition_on hoff]
      refine ⟨?_, rfl⟩
      rintro _ ⟨⟩
      exact hcycle hoff kind
  read _ hfg ctx hctx := hfg ctx ctx hctx

/-- A step fails only in certain ways if the calls that it makes do. -/
theorem compileStep {h : Heap} {recur : Recur} {overriding : Bool}
    (hways : ∀ fault, fault.isOfPath = false → ways fault)
    (hways' : ∀ fault, fault.isOfPath = false → ways' fault)
    (hcycle : ¬ s.OffPath path → ∀ kind, ways (.cyclicSchema kind))
    (hinside : ∀ fault, ways' fault → ways fault)
    (hoverride : ∀ t, (h.view s).override.isNull = false → overriding = false →
      rootSchema (h.view s).override = .ok t → FailsOn path ways (recur t true))
    (hrecur : ∀ t ∈ (h.view s).parts, s.OffPath path →
      FailsOn (s.inside path) ways' (recur t false)) :
    FailsOn path ways (compileStep h recur s overriding) :=
  @PairRules.compileStep h h (fun {_} x _ => FailsOn path ways x) _ recur recur s s
    (rules hways hways' hcycle hinside) (.refl h) overriding rfl hoverride hrecur

end FailsOn

/-- From all states with the path a walk is not cut off for its depth and leaves the path as it
was. -/
def EndsOn (path : List NodeId) {α : Type} (x : Walk α) : Prop :=
  FailsOn path (fun fault => fault ≠ .unbounded) x

theorem EndsOn.ne_unbounded {α : Type} {path : List NodeId} {x : Walk α} {ctx : Context}
    (hx : EndsOn path x) (hctx : ctx.active = path) : (x ctx).1 ≠ .error .unbounded :=
  fun heq => (hx ctx hctx).1 _ heq rfl

/-- A step ends if the calls that it makes do. -/
theorem EndsOn.compileStep {h : Heap} {recur : Recur} {overriding : Bool} {path : List NodeId}
    {s : Schema}
    (hoverride : ∀ t, (h.view s).override.isNull = false → overriding = false →
      rootSchema (h.view s).override = .ok t → EndsOn path (recur t true))
    (hrecur : ∀ t ∈ (h.view s).parts, s.OffPath path → EndsOn (s.inside path) (recur t false)) :
    EndsOn path (compileStep h recur s overriding) := by
  have hways : ∀ fault : Fault, fault.isOfPath = false → fault ≠ .unbounded := by
    rintro fault hfault rfl
    cases hfault
  exact FailsOn.compileStep hways hways (fun _ _ => nofun) (fun _ hfault => hfault) hoverride hrecur

/-! ## The same unless there is a cycle -/

/-- From all states with a path a walk fails for a cycle, or another walk does the same on another
path, and both leave their paths as they were. -/
def UnlessCyclic (path path' : List NodeId) {α : Type} (x y : Walk α) : Prop :=
  ∀ ctx : Context, ctx.active = path →
    (∃ kind, (x ctx).1 = .error (.cyclicSchema kind)) ∨
      ((x ctx).2.active = path ∧ y (ctx.onPath path') = ((x ctx).1, (x ctx).2.onPath path'))

namespace UnlessCyclic

variable {path path' : List NodeId} {s s' : Schema}

theorem throw {α : Type} {fault : Fault} : UnlessCyclic path path'
    (MonadExcept.throw fault : Walk α) (MonadExcept.throw fault) := fun _ hctx => .inr ⟨hctx, rfl⟩

theorem pairs : Pairs (UnlessCyclic path path') where
  pure _ _ hctx := .inr ⟨hctx, rfl⟩
  throw _ := throw
  bind := by
    intro α β x y f g hxy hfg ctx hctx
    obtain ⟨kind, hcyclic⟩ | ⟨hpath, hsame⟩ := hxy ctx hctx
    · exact .inl ⟨kind, bind_fails hcyclic⟩
    · rw [bind_run, bind_run, hsame]
      cases hx : x ctx with
      | mk outcome mid =>
        rw [hx] at hpath
        cases outcome with
        | error fault => exact .inr ⟨hpath, rfl⟩
        | ok a => exact hfg a mid hpath

/-- Where the second position is not on its path unless the first one is, no cycle is missed. -/
theorem rules {h : Heap} (hoff : s.OffPath path → s'.OffPath path') :
    PairRules h.describe s s' (UnlessCyclic path path')
      fun {_} x y => s.OffPath path → UnlessCyclic (s.inside path) (s'.inside path') x y where
  outer := pairs
  inner := pairs.imp
  register _ _ _ := pairs.register fun _ _ _ hctx => .inr ⟨hctx, rfl⟩
  atPosition kind x y hxy ctx hctx := by
    subst hctx
    by_cases hfirst : s.OffPath ctx.active
    · rw [Walk.atPosition_off hfirst]
      obtain hcyclic | ⟨hpath, hsame⟩ := hxy hfirst (ctx.onPath (s.inside ctx.active)) rfl
      · exact .inl hcyclic
      · have hinside : (ctx.onPath path').onPath (s'.inside (ctx.onPath path').active) =
            (ctx.onPath (s.inside ctx.active)).onPath (s'.inside path') := rfl
        rw [@Walk.atPosition_off _ s' _ _ (ctx.onPath path') (hoff hfirst), hinside, hsame,
          Context.leaveAt_eq hpath, Context.leaveAt_eq rfl]
        exact .inr ⟨rfl, rfl⟩
    · exact .inl ⟨kind, by rw [Walk.atPosition_on hfirst]⟩
  read hsame hfg ctx hctx := by
    have hheld := hfg ctx ctx hctx
    rw [← (hsame ctx (ctx.onPath path') rfl).2] at hheld
    exact hheld

end UnlessCyclic

/-! ## The same unless one is cut off -/

/-- A walk is cut off for its depth, or another one does the same. -/
def NoShallower {α : Type} (x y : Walk α) : Prop :=
  ∀ ctx : Context, (x ctx).1 = .error .unbounded ∨ y ctx = x ctx

namespace NoShallower

theorem pairs : Pairs NoShallower where
  pure _ _ := .inr rfl
  throw _ _ := .inr rfl
  bind := by
    intro α β x y f g hxy hfg ctx
    obtain hcut | hsame := hxy ctx
    · exact .inl (bind_fails hcut)
    · rw [bind_run, bind_run, hsame]
      cases hx : x ctx with
      | mk outcome mid =>
        cases outcome with
        | error fault => exact .inr rfl
        | ok a => exact hfg a mid

theorem rules {h : Heap} {s : Schema} :
    PairRules h.describe s s NoShallower NoShallower where
  outer := pairs
  inner := pairs
  register _ _ _ _ := .inr rfl
  atPosition kind x y hxy ctx := by
    by_cases hoff : s.OffPath ctx.active
    · rw [Walk.atPosition_off hoff, Walk.atPosition_off hoff]
      obtain hcut | hsame := hxy (ctx.onPath (s.inside ctx.active))
      · exact .inl hcut
      · rw [hsame]
        exact .inr rfl
    · rw [Walk.atPosition_on hoff, Walk.atPosition_on hoff]
      exact .inr rfl
  read _ hfg ctx := hfg ctx ctx

end NoShallower

/-- A greater depth changes only what is cut off. -/
theorem noShallower_compileWithin {h : Heap} {s : Schema} {overriding : Bool} {depth depth' : Nat}
    (hdepth : depth ≤ depth') :
    NoShallower (compileWithin h depth s overriding) (compileWithin h depth' s overriding) := by
  induction depth generalizing depth' s overriding with
  | zero => exact fun ctx => .inl rfl
  | succ depth ih =>
    obtain ⟨depth', rfl⟩ : ∃ n, depth' = n + 1 := Nat.exists_eq_add_one.mpr (by omega)
    have hle : depth ≤ depth' := Nat.le_of_succ_le_succ hdepth
    exact NoShallower.rules.compileStep (.refl h) rfl (fun t _ _ _ => ih hle) fun t _ => ih hle

end WireShape
