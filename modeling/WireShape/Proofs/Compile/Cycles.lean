import WireShape.Proofs.Compile.Componentised
import WireShape.Proofs.Compile.Paths

/-!
# Only cycles are found

The nodes that a walk is inside of are on its path, and a walk that comes to one of them fails. A
node that stayed on the path after the walk has left it would make a cycle of every second use. None
does: a call leaves the path as it found it, whether it succeeds or fails. So the node at which a call
finds a cycle either has been on the path before the call, or is one that the call has entered and
come to again from inside, and is below itself.

* `Heap.ComesBack`: below a position is a node of the path, or one that is below itself.
* `failsOn_compileWithin`: a call that finds a cycle comes back, and leaves its path as it was.
* `Heap.compile_path`: so it is with all calls; nodes that are not below themselves may be shared.
-/

namespace WireShape

/-- Below a position is a node that is on a path already, or that is below itself. -/
def Heap.ComesBack (h : Heap) (path : List NodeId) (s : Schema) : Prop :=
  ∃ id, h.Reaches s (.node id) ∧ (id ∈ path ∨ Relation.TransGen h.Holds (.node id) (.node id))

section Meeting

variable {h : Heap} {path : List NodeId} {s t : Schema}

theorem Heap.ComesBack.of_holds (ht : h.Holds s t) (hback : h.ComesBack path t) :
    h.ComesBack path s := by
  obtain ⟨id, hreach, hmet⟩ := hback
  exact ⟨id, .head ht hreach, hmet⟩

/-- A node that the path has only just entered, and that a part comes back to, is below itself. -/
theorem Heap.ComesBack.of_inside (ht : h.Holds s t) (hback : h.ComesBack (s.inside path) t) :
    h.ComesBack path s := by
  obtain ⟨id, hreach, hmet⟩ := hback
  cases s with
  | object fields => exact .of_holds ht ⟨id, hreach, hmet⟩
  | node entered =>
    obtain hpath | hbelow := hmet
    · rcases List.mem_cons.mp hpath with rfl | hbefore
      · exact ⟨id, .refl, .inr (.head' ht hreach)⟩
      · exact ⟨id, .head ht hreach, .inl hbefore⟩
    · exact ⟨id, .head ht hreach, .inr hbelow⟩

theorem Heap.comesBack_of_on (hon : ¬ s.OffPath path) : h.ComesBack path s := by
  cases s with
  | object => exact absurd trivial hon
  | node id => exact ⟨id, .refl, .inl (Decidable.not_not.mp hon)⟩

/-- A failure for a cycle only where a call comes back. -/
def Heap.Explains (h : Heap) (path : List NodeId) (s : Schema) (fault : Fault) : Prop :=
  ∀ kind, fault = .cyclicSchema kind → h.ComesBack path s

theorem Heap.explains_of_not_path {fault : Fault} (hfault : fault.isOfPath = false) :
    h.Explains path s fault := by
  rintro kind rfl
  cases hfault

/-- Every call leaves its path as it was, and fails for a cycle only where it comes back. -/
theorem failsOn_compileWithin {depth : Nat} {overriding : Bool} :
    FailsOn path (h.Explains path s) (compileWithin h depth s overriding) := by
  induction depth generalizing path s overriding with
  | zero => exact FailsOn.throw fun _ => nofun
  | succ depth ih =>
    have hbelow : ∀ {t path'}, (h.ComesBack path' t → h.ComesBack path s) → ∀ o,
        FailsOn path' (h.Explains path s) (compileWithin h depth t o) := by
      intro t path' hback o ctx hctx
      obtain ⟨hfails, hpath⟩ := ih ctx hctx
      exact ⟨fun fault heq kind hkind => hback (hfails fault heq kind hkind), hpath⟩
    refine FailsOn.compileStep (fun _ => Heap.explains_of_not_path)
      (fun _ => Heap.explains_of_not_path) (fun hon _ _ _ => Heap.comesBack_of_on hon)
      (fun _ hfault => hfault) ?_ ?_
    · exact fun t _ _ ht => hbelow (.of_holds (.inr ht)) true
    · exact fun t ht _ => hbelow (.of_inside (.inl ht)) false

end Meeting

/-- Every call, from every state and on every path, leaves the path as it was, whether it succeeds
or fails, and fails for a cycle only where it comes to a node that is on the path or below itself. So
from an empty path over nodes that are not below themselves no walk fails for a cycle, however often
a position is shared. -/
theorem Heap.compile_path (h : Heap) (ctx : Context) :
    (∀ depth s overriding, (compileWithin h depth s overriding ctx).2.active = ctx.active ∧
      ∀ kind, (compileWithin h depth s overriding ctx).1 = .error (.cyclicSchema kind) →
        h.ComesBack ctx.active s) ∧
    ∀ v, (h.compile v ctx).2.active = ctx.active ∧
      (ctx.active = [] → (∀ s id, rootSchema v = .ok s → h.Reaches s (.node id) →
        ¬ Relation.TransGen h.Holds (.node id) (.node id)) →
          ∀ kind, (h.compile v ctx).1 ≠ .error (.cyclicSchema kind)) := by
  have hcall : ∀ depth s overriding,
      FailsOn ctx.active (h.Explains ctx.active s) (compileWithin h depth s overriding) :=
    fun _ _ _ => failsOn_compileWithin
  refine ⟨fun depth s overriding => ?_, fun v => ?_⟩
  · obtain ⟨hfails, hpath⟩ := hcall depth s overriding ctx rfl
    exact ⟨hpath, fun kind heq => hfails _ heq kind rfl⟩
  · unfold Heap.compile
    rw [bind_run]
    cases hv : rootSchema v with
    | error fault =>
      refine ⟨rfl, fun _ _ kind heq => ?_⟩
      cases heq
      exact Bool.false_ne_true (genuine_rootSchema _ hv).symm
    | ok s =>
      obtain ⟨hfails, hpath⟩ := hcall (h.depthBound s) s false ctx rfl
      refine ⟨hpath, fun hempty hacyclic kind heq => ?_⟩
      obtain ⟨id, hreach, hmet⟩ := hfails _ heq kind rfl
      rw [hempty] at hmet
      exact hmet.elim List.not_mem_nil (hacyclic s id rfl hreach)

/-- The seat and its row occur twice in a booking, and no cycle is found. Where the path has the seat
already, one is found, and the path is left as it was. -/
theorem Heap.compile_path_booking :
    (∀ kind, (plainBookingHeap.compile (.node 3) {}).1 ≠ .error (.cyclicSchema kind)) ∧
    (compileWithin plainBookingHeap 3 (.node 3) false { active := [1] }).1 =
      .error (.cyclicSchema "object") ∧
    (compileWithin plainBookingHeap 3 (.node 3) false { active := [1] }).2.active = [1] ∧
    plainBookingHeap.ComesBack [1] (.node 3) := by
  have hacyclic : ∀ s id, rootSchema (.node 3) = .ok s → plainBookingHeap.Reaches s (.node id) →
      ¬ Relation.TransGen plainBookingHeap.Holds (.node id) (.node id) := by
    rintro s id ⟨⟩ hreach
    exact plainBookingHeap_descends.acyclic _ hreach
  have hcycle : (compileWithin plainBookingHeap 3 (.node 3) false { active := [1] }).1 =
      .error (.cyclicSchema "object") := rfl
  obtain ⟨hpath, hback⟩ :=
    (plainBookingHeap.compile_path { active := [1] }).1 3 (.node 3) false
  exact ⟨((plainBookingHeap.compile_path {}).2 (.node 3)).2 rfl hacyclic, hcycle, hpath,
    hback "object" hcycle⟩

end WireShape
