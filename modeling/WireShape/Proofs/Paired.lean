import WireShape.Proofs.Compile.Walks
import WireShape.Proofs.Genuine

/-!
# Walks in pairs

Two walks over heaps whose nodes differ little take the same steps. A relation that the basic steps
are in, and that sequences of steps keep, is one between the walks: there is one lemma for each
function, whatever the relation.

* `Pairs`: relations that sequences keep.
* `Heap.Resembles`: heaps whose nodes look the same from outside.
* `Pairs.compileBody`: what a node holds, compiled in one way and in the other.
* `PairRules`: relations for the steps at a position, and those inside it.
* `PairRules.compileStep`: the steps at one position are related if the calls that they make are.
-/

namespace WireShape

open Value (Fields)

/-- A relation between walks that sequences of steps keep. A step that fails for its path need not be
related to itself. -/
structure Pairs (P : ∀ {α : Type}, Walk α → Walk α → Prop) : Prop where
  pure : ∀ {α : Type} (a : α), P (Pure.pure a) (Pure.pure a)
  throw : ∀ {α : Type} {fault : Fault}, fault.isOfPath = false →
    P (MonadExcept.throw fault : Walk α) (MonadExcept.throw fault)
  bind : ∀ {α β : Type} {x y : Walk α} {f g : α → Walk β},
    P x y → (∀ a, P (f a) (g a)) → P (x >>= f) (y >>= g)

namespace Pairs

section Sequences

variable {α β γ : Type} {P : ∀ {α : Type}, Walk α → Walk α → Prop} {x x' y y' : Walk α}

/-- A relation that only counts under a condition. -/
theorem imp {p : Prop} (hP : Pairs @P) : Pairs fun {_} x y => p → P x y where
  pure a _ := hP.pure a
  throw hfault _ := hP.throw hfault
  bind hxy hfg hp := hP.bind (hxy hp) fun a => hfg a hp

theorem ite {p : Prop} [Decidable p] (hx : P x x') (hy : P y y') :
    P (if p then x else y) (if p then x' else y') := by
  split
  · exact hx
  · exact hy

variable (hP : Pairs @P)
include hP

/-- A step that does not touch the state. -/
theorem lift {r : Except Fault α} (hr : Genuine r) : P (Walk.lift r) (Walk.lift r) := by
  cases r with
  | error fault => exact hP.throw (hr fault rfl)
  | ok a => exact hP.pure a

theorem mapM {f g : α → Walk β} {xs : List α} (hfg : ∀ a ∈ xs, P (f a) (g a)) :
    P (xs.mapM f) (xs.mapM g) := by
  induction xs with
  | nil => exact hP.pure []
  | cons a xs ih =>
    rw [List.mapM_cons, List.mapM_cons]
    refine hP.bind (hfg a List.mem_cons_self) fun _ => hP.bind ?_ fun _ => hP.pure _
    exact ih fun b hb => hfg b (List.mem_cons_of_mem _ hb)

theorem foldlM {f g : γ → α → Walk γ} {xs : List α} {c : γ}
    (hfg : ∀ c, ∀ a ∈ xs, P (f c a) (g c a)) : P (xs.foldlM f c) (xs.foldlM g c) := by
  induction xs generalizing c with
  | nil => exact hP.pure c
  | cons a xs ih =>
    rw [List.foldlM_cons, List.foldlM_cons]
    exact hP.bind (hfg c a List.mem_cons_self) fun c' =>
      ih fun c b hb => hfg c b (List.mem_cons_of_mem _ hb)

end Sequences

/-- Definitions are created in related ways if writing one is related to itself. -/
theorem register {P : ∀ {α : Type}, Walk α → Walk α → Prop} (hP : Pairs @P) {h : Heap}
    {bucket name : Atom} {schema : Value} (hdefine : ∀ place what,
      P (modify fun ctx => ctx.register bucket name schema place what)
        (modify fun ctx => ctx.register bucket name schema place what)) :
    P (Walk.register h.describe bucket name schema)
      (Walk.register h.describe bucket name schema) := by
  have hdisplay : ∀ a : Atom, Genuine (a.display h.describe) :=
    fun _ => genuine_atom_display fun _ => Node.genuine_describe
  exact hP.bind (hP.lift (hdisplay bucket)) fun place => hP.bind (hP.lift (hdisplay name)) fun what =>
    hdefine place what

end Pairs

/-- The nodes of a heap are shown like those of another one, and are required where those are. -/
structure Heap.Resembles (h' h : Heap) : Prop where
  describe : h'.describe = h.describe
  isRequired : ∀ s, (h'.view s).isRequired = (h.view s).isRequired

theorem Heap.Resembles.refl (h : Heap) : h.Resembles h := ⟨rfl, fun _ => rfl⟩

/-! ## What a node holds -/

namespace Pairs

variable {P : ∀ {α : Type}, Walk α → Walk α → Prop} {h h' : Heap} {recur recur' : Recur} {n : Node}
  {schemas : List Schema} (hP : Pairs @P)
include hP

theorem compileAll (hrecur : ∀ t ∈ schemas, P (recur t false) (recur' t false)) :
    P (compileAll recur schemas) (compileAll recur' schemas) :=
  hP.bind (hP.mapM fun t ht => hP.bind (hrecur t ht) fun _ => hP.pure _) fun _ => hP.pure _

theorem compileBranches (hsame : h'.Resembles h)
    (hrecur : ∀ t ∈ schemas, P (recur t false) (recur' t false)) :
    P (compileBranches h recur schemas) (compileBranches h' recur' schemas) := by
  refine hP.bind (hP.mapM fun t ht => hP.bind (hrecur t ht) fun outcome => ?_) fun _ => hP.pure _
  rw [hsame.isRequired t]
  cases outcome with
  | none => exact hP.pure none
  | some schema =>
    exact ite (hP.bind (hP.lift genuine_markRequired) fun _ => hP.pure _) (hP.pure _)

theorem compileObject (hsame : h'.Resembles h)
    (hrecur : ∀ t ∈ n.parts, P (recur t false) (recur' t false)) :
    P (compileObject h recur n) (compileObject h' recur' n) := by
  have hparts : ∀ t ∈ Kind.object.parts n, P (recur t false) (recur' t false) :=
    fun t ht => hrecur t (Kind.mem_parts ht)
  rw [compileObject_eq, compileObject_eq]
  refine hP.bind (hP.foldlM fun found entry hentry => ?_) fun _ => hP.bind ?_ fun _ => hP.pure _
  · dsimp only
    rw [hsame.isRequired entry.2]
    refine hP.bind (hparts _ (List.mem_append_left _ (List.mem_map_of_mem hentry))) fun outcome => ?_
    cases outcome <;> exact hP.pure _
  · unfold compileOpenPart
    cases hopen : n.openPart? with
    | none => exact hP.pure none
    | some t =>
      refine hparts t (List.mem_append_right _ ?_)
      rw [hopen]
      exact List.mem_singleton_self t

theorem compileArray (hrecur : ∀ t ∈ n.parts, P (recur t false) (recur' t false)) :
    P (compileArray recur n) (compileArray recur' n) :=
  hP.bind (hP.compileAll fun t ht => hrecur t (@Kind.mem_parts .array n t ht)) fun _ =>
    hP.bind (hP.lift Node.genuine_sizeKeywords) fun _ => hP.pure _

theorem compileAlternatives (hsame : h'.Resembles h)
    (hrecur : ∀ t ∈ n.parts, P (recur t false) (recur' t false)) :
    P (compileAlternatives h recur n) (compileAlternatives h' recur' n) := by
  unfold WireShape.compileAlternatives
  rw [hsame.describe]
  refine hP.bind (hP.lift (genuine_display fun _ => Node.genuine_describe)) fun _ => ?_
  exact hP.bind (hP.compileBranches hsame fun t ht =>
    hrecur t (@Kind.mem_parts .alternatives n t ht)) fun _ => hP.pure _

theorem compileWhens (hsame : h'.Resembles h)
    (hrecur : ∀ t ∈ n.parts, P (recur t false) (recur' t false)) :
    P (compileWhens h recur n) (compileWhens h' recur' n) :=
  hP.bind (hP.compileBranches hsame fun t ht => hrecur t (Node.mem_whenParts ht)) fun _ => hP.pure _

theorem compileKind (hsame : h'.Resembles h)
    (hrecur : ∀ t ∈ n.parts, P (recur t false) (recur' t false)) :
    P (compileKind h recur n) (compileKind h' recur' n) := by
  have hrefuse : P (Walk.lift (n.baseKind.display h.describe) >>= fun shown =>
      (MonadExcept.throw (Fault.unknownKind shown) : Walk Fields))
      (Walk.lift (n.baseKind.display h'.describe) >>= fun shown =>
        (MonadExcept.throw (Fault.unknownKind shown) : Walk Fields)) := by
    rw [hsame.describe]
    refine hP.bind (hP.lift (genuine_display fun _ => Node.genuine_describe)) fun _ => ?_
    exact hP.throw rfl
  refine hP.bind (hP.lift genuine_asKey) fun kind => ?_
  split
  · split
    · exact hP.lift Scalar.genuine_keywords
    · split
      · exact hP.compileObject hsame hrecur
      · exact hP.compileArray hrecur
      · exact hP.compileAlternatives hsame hrecur
      · exact hrefuse
  · exact hrefuse

/-- What a node holds is compiled in related ways if its parts are. -/
theorem compileBody (hsame : h'.Resembles h)
    (hrecur : ∀ t ∈ n.parts, P (recur t false) (recur' t false)) :
    P (compileBody h recur n) (compileBody h' recur' n) :=
  hP.bind (hP.compileKind hsame hrecur) fun _ => ite (hP.pure _)
    (hP.bind (hP.compileWhens hsame hrecur) fun _ => hP.pure _)

end Pairs

/-! ## Steps at a position -/

/-- Relations between the steps at two positions, `P`, and between those inside them, `Q`. -/
structure PairRules (describe : Describe) (s s' : Schema)
    (P Q : ∀ {α : Type}, Walk α → Walk α → Prop) : Prop where
  outer : Pairs @P
  inner : Pairs @Q
  register : ∀ bucket name schema,
    P (Walk.register describe bucket name schema) (Walk.register describe bucket name schema)
  atPosition : ∀ {α : Type} (kind : String) {x y : Walk α}, Q x y →
    P (Walk.atPosition s kind x) (Walk.atPosition s' kind y)
  /-- The only question about the definitions is whether there is one of a name. -/
  read : ∀ {α : Type} {f g : Context → Walk α},
    (∀ ctx ctx' : Context, ctx'.has = ctx.has → f ctx' = f ctx ∧ g ctx' = g ctx) →
      (∀ ctx, P (f ctx) (g ctx)) → P (get >>= f) (get >>= g)

namespace PairRules

variable {h h' : Heap} {P Q : ∀ {α : Type}, Walk α → Walk α → Prop} {recur recur' : Recur}
  {s s' : Schema} {n : Node} (hP : PairRules h.describe s s' @P @Q) (hsame : h'.Resembles h)
include hP hsame

theorem finish {className bucket schema : Value} :
    P (finish h className bucket schema) (finish h' className bucket schema) := by
  unfold WireShape.finish
  rw [hsame.describe]
  refine Pairs.ite ?_ (hP.outer.pure _)
  refine hP.outer.bind (hP.outer.lift genuine_asKey) fun _ => ?_
  refine hP.outer.bind (hP.outer.lift genuine_asKey) fun _ => ?_
  refine hP.outer.bind (hP.register _ _ _) fun _ => ?_
  refine hP.outer.bind (hP.outer.lift ?_) fun _ => hP.outer.pure _
  exact genuine_referenceTo fun _ => Node.genuine_describe

theorem compileNew (hrecur : ∀ t ∈ n.parts, Q (recur t false) (recur' t false)) :
    P (compileNew h recur s n) (compileNew h' recur' s' n) := by
  have hliteral : ∀ fields, Genuine (n.addLiteral fields) := by
    intro fields
    unfold Node.addLiteral
    split
    · exact genuine_toEntries.bind fun _ => genuine_ok
    · exact genuine_ok
  refine Pairs.ite (hP.outer.pure _) ?_
  refine hP.outer.bind (hP.atPosition _ (hP.inner.compileBody hsame hrecur)) fun _ => ?_
  exact hP.outer.bind (hP.outer.lift (hliteral _)) fun _ => hP.finish hsame

theorem compilePlain (hrecur : ∀ t ∈ n.parts, Q (recur t false) (recur' t false)) :
    P (compilePlain h recur s n n.className n.classBucket)
      (compilePlain h' recur' s' n n.className n.classBucket) := by
  rw [compilePlain_eq, compilePlain_eq, hsame.describe]
  refine Pairs.ite ?_ (hP.compileNew hsame hrecur)
  refine hP.outer.bind (hP.outer.lift genuine_asKey) fun bucket => ?_
  refine hP.outer.bind (hP.outer.lift genuine_asKey) fun name => ?_
  refine hP.read (fun ctx ctx' heq => by rw [heq]; exact ⟨rfl, rfl⟩) fun ctx => ?_
  refine Pairs.ite ?_ (hP.compileNew hsame hrecur)
  exact hP.outer.bind (hP.outer.lift (genuine_referenceTo fun _ => Node.genuine_describe)) fun _ =>
    hP.outer.pure _

/-- The steps at two positions with one node are related if the calls that they make are: those for
what stands in place of the node, and those for its parts. -/
theorem compileStep {overriding : Bool} (hview : h'.view s' = h.view s)
    (hoverride : ∀ t, (h.view s).override.isNull = false → overriding = false →
      rootSchema (h.view s).override = .ok t → P (recur t true) (recur' t true))
    (hrecur : ∀ t ∈ (h.view s).parts, Q (recur t false) (recur' t false)) :
    P (compileStep h recur s overriding) (compileStep h' recur' s' overriding) := by
  rw [compileStep_eq, compileStep_eq, hview]
  cases hnull : (h.view s).override.isNull with
  | true =>
    rw [Bool.not_true, if_neg Bool.false_ne_true, if_neg Bool.false_ne_true]
    exact Pairs.ite (hP.finish hsame) (hP.compilePlain hsame hrecur)
  | false =>
    rw [Bool.not_false, if_pos rfl, if_pos rfl]
    cases overriding with
    | true => exact hP.outer.throw rfl
    | false =>
      cases ht : rootSchema (h.view s).override with
      | error fault => exact hP.outer.throw (genuine_rootSchema fault ht)
      | ok t => exact hoverride t hnull rfl ht

end PairRules

end WireShape
